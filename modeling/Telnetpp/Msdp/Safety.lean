import Telnetpp.Msdp.Cursor
import Telnetpp.Foundation.Run

/-!
# Which inputs the decoder survives

A scan of the input keeps what kind of text it is in and how many tables it
has seen open and close. The decoder completes exactly when no byte closes a
table that was not opened and none is data before the first element of an
array.
-/

namespace Telnetpp.Msdp

open Foundation

inductive Mode
  | outside
  | name
  | value
  | arrayStart
  | array
  deriving DecidableEq, Repr

structure Scan where
  mode : Mode := .outside
  opened : ℕ := 0
  closed : ℕ := 0
  deriving DecidableEq, Repr

namespace Scan

def next (s : Scan) (by_ : Byte) : Scan :=
  match s.mode with
  | .outside =>
      if by_ = var then { s with mode := .name }
      else if by_ = tableClose then { s with closed := s.closed + 1 }
      else s
  | .name => if by_ = val then { s with mode := .value } else s
  | .value =>
      if by_ = arrayOpen then { s with mode := .arrayStart }
      else if by_ = tableOpen then { s with mode := .outside, opened := s.opened + 1 }
      else if by_ = tableClose then { s with mode := .outside }
      else if by_ = var then { s with mode := .name }
      else s
  | .arrayStart | .array =>
      if by_ = arrayClose then { s with mode := .outside } else { s with mode := .array }

/-- The next byte neither closes a table that is not open nor is data of an
array without elements. -/
def Admits (s : Scan) (by_ : Byte) : Prop :=
  (s.mode = .outside → by_ = tableClose → s.closed < s.opened) ∧
    (s.mode = .arrayStart → by_ = val ∨ by_ = arrayClose)

structure Follows (c : Cursor) (s : Scan) : Prop where
  depth : s.closed + c.parents.length = s.opened
  mode : s.mode =
    match c.focus with
    | .idle => .outside
    | .name _ => .name
    | .value _ _ => .value
    | .array _ [] => .arrayStart
    | .array _ (_ :: _) => .array

theorem parents_leave (c : Cursor) (v : Variable) :
    (c.leave v).focus = .idle ∧ (c.leave v).parents.length = c.parents.length := by
  rcases c with ⟨focus, _ | ⟨f, fs⟩, done⟩ <;> exact ⟨rfl, rfl⟩

theorem Follows.idle_ok {fs : List Frame} {done : List Variable} {s : Scan} {by_ : Byte}
    (h : Follows ⟨.idle, fs, done⟩ s) (hadmits : s.Admits by_) :
    ∃ c', Cursor.parse ⟨.idle, fs, done⟩ by_ = .ok c' ∧ Follows c' (s.next by_) := by
  rcases s with ⟨mode, opened, closed⟩
  obtain ⟨hdepth, hmode⟩ := h
  obtain rfl : mode = .outside := hmode
  simp only [Cursor.parse, next]
  split_ifs with hvar hclose
  · exact ⟨_, rfl, hdepth, rfl⟩
  · cases fs with
    | nil =>
        have hlt : closed < opened := hadmits.1 rfl hclose
        simp only [List.length_nil] at hdepth
        omega
    | cons f fs =>
        obtain ⟨hfocus, hlength⟩ := parents_leave ⟨.idle, fs, done⟩ ⟨f.name, .table f.entries⟩
        refine ⟨_, rfl, ?_, by rw [hfocus]⟩
        simp only [List.length_cons] at hdepth hlength ⊢
        omega
  · exact ⟨_, rfl, hdepth, rfl⟩

theorem Follows.array_ok {n : Bytes} {items : List Bytes} {fs : List Frame}
    {done : List Variable} {s : Scan} {by_ : Byte} (h : Follows ⟨.array n items, fs, done⟩ s)
    (hadmits : s.Admits by_) :
    ∃ c', Cursor.parse ⟨.array n items, fs, done⟩ by_ = .ok c' ∧ Follows c' (s.next by_) := by
  rcases s with ⟨mode, opened, closed⟩
  obtain ⟨hdepth, hmode⟩ := h
  obtain ⟨hfocus, hlength⟩ := parents_leave ⟨.array n items, fs, done⟩ ⟨n, .array items⟩
  have hmode' : mode = .arrayStart ∨ mode = .array := by
    cases items with
    | nil => exact Or.inl hmode
    | cons item items => exact Or.inr hmode
  have hnext : next ⟨mode, opened, closed⟩ by_ =
      if by_ = arrayClose then ⟨.outside, opened, closed⟩ else ⟨.array, opened, closed⟩ := by
    rcases hmode' with rfl | rfl <;> rfl
  rw [hnext]
  simp only [Cursor.parse]
  split_ifs with hclose hval
  · exact ⟨_, rfl, by simpa only [hlength] using hdepth, by rw [hfocus]⟩
  · refine ⟨_, rfl, hdepth, ?_⟩
    cases items <;> rfl
  · rcases List.eq_nil_or_concat items with rfl | ⟨items, item, rfl⟩
    · obtain rfl : mode = .arrayStart := hmode
      exact absurd (hadmits.2 rfl) (by simp [hval, hclose])
    · simp only [List.concat_eq_append, List.getLast?_concat, List.dropLast_concat]
      refine ⟨_, rfl, hdepth, ?_⟩
      cases items <;> rfl

theorem Follows.parse_ok {c : Cursor} {s : Scan} {by_ : Byte} (h : Follows c s)
    (hadmits : s.Admits by_) : ∃ c', c.parse by_ = .ok c' ∧ Follows c' (s.next by_) := by
  rcases c with ⟨focus, fs, done⟩
  cases focus with
  | idle => exact h.idle_ok hadmits
  | array n items => exact h.array_ok hadmits
  | name n =>
      rcases s with ⟨mode, opened, closed⟩
      obtain ⟨hdepth, hmode⟩ := h
      obtain rfl : mode = .name := hmode
      simp only [Cursor.parse, next]
      split_ifs <;> exact ⟨_, rfl, hdepth, rfl⟩
  | value n text =>
      rcases s with ⟨mode, opened, closed⟩
      obtain ⟨hdepth, hmode⟩ := h
      obtain rfl : mode = .value := hmode
      obtain ⟨hfocus, hlength⟩ := parents_leave ⟨.value n text, fs, done⟩ ⟨n, .string text⟩
      simp only [Cursor.parse, next]
      split_ifs with harray htable hclose hvar
      · exact ⟨_, rfl, hdepth, rfl⟩
      · refine ⟨_, rfl, ?_, rfl⟩
        simp only [List.length_cons] at hdepth ⊢
        omega
      · exact ⟨_, rfl, by simpa only [hlength] using hdepth, by rw [hfocus]⟩
      · exact ⟨_, rfl, by simpa only [hlength] using hdepth, rfl⟩
      · exact ⟨_, rfl, hdepth, rfl⟩

theorem Follows.parse_fault {c : Cursor} {s : Scan} {by_ : Byte} (h : Follows c s)
    (hadmits : ¬ s.Admits by_) : ∃ fault, c.parse by_ = .error fault := by
  rcases c with ⟨focus, fs, done⟩
  rcases s with ⟨mode, opened, closed⟩
  obtain ⟨hdepth, hmode⟩ := h
  cases focus with
  | idle =>
      obtain rfl : mode = .outside := hmode
      have hclose : by_ = tableClose ∧ opened ≤ closed := by simpa [Admits] using hadmits
      obtain rfl : fs = [] := by
        apply List.length_eq_zero_iff.mp
        simp only at hdepth
        omega
      obtain ⟨rfl, -⟩ := hclose
      exact ⟨.emptyStack, rfl⟩
  | name n =>
      obtain rfl : mode = .name := hmode
      simp [Admits] at hadmits
  | value n s =>
      obtain rfl : mode = .value := hmode
      simp [Admits] at hadmits
  | array n items =>
      cases items with
      | nil =>
          obtain rfl : mode = .arrayStart := hmode
          have hstart : by_ ≠ val ∧ by_ ≠ arrayClose := by simpa [Admits] using hadmits
          refine ⟨.emptyArray, ?_⟩
          simp only [Cursor.parse, if_neg hstart.1, if_neg hstart.2]
          rfl
      | cons item items =>
          obtain rfl : mode = .array := hmode
          simp [Admits] at hadmits

/-- The decoder completes exactly when every byte is admitted by the scan of
the bytes before it. -/
theorem decode_ok_iff (data : Bytes) :
    (∃ vs, decode data = .ok vs) ↔ Along next Admits {} data := by
  rw [← foldlM_ok_iff_along next (f := Cursor.parse) (R := Follows)
    (fun _ _ _ h hadmits => h.parse_ok hadmits) (fun _ _ _ h hadmits => h.parse_fault hadmits)
    (t := {}) ⟨rfl, rfl⟩ data, decode_eq]
  simp [except_map_eq_ok]

end Scan

/-- A TABLE_CLOSE on its own pops an empty stack, and data right after
ARRAY_OPEN is appended to an element that does not exist. -/
theorem decode_stray :
    decode [tableClose] = .error .emptyStack ∧
      decode [var, 110, val, arrayOpen, 120] = .error .emptyArray := ⟨rfl, rfl⟩

end Telnetpp.Msdp
