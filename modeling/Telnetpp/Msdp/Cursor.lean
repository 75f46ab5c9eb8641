import Telnetpp.Msdp.Decoder
import Telnetpp.Foundation.Run

/-!
# The decoder as a cursor

The variable under construction is always the last entry of the last entry
and so on of the tables around it. A cursor keeps that variable and the
tables around it, innermost first, in the place of the stack of pointers.
The decoder is the image of the cursor under `toDecoder`.
-/

namespace Telnetpp.Msdp

open Foundation

/-- A table that is still open: its name and the entries before the current one. -/
structure Frame where
  name : Bytes
  entries : List Variable

/-- What is being read: nothing, a name, a string or an array. -/
inductive Focus
  | idle
  | name (n : Bytes)
  | value (n s : Bytes)
  | array (n : Bytes) (items : List Bytes)

structure Cursor where
  focus : Focus := .idle
  parents : List Frame := []
  done : List Variable := []

def Focus.state : Focus → State
  | .idle => .idle
  | .name _ => .name
  | .value _ _ => .value
  | .array _ _ => .array

def Focus.current? : Focus → Option Variable
  | .idle => none
  | .name n => some ⟨n, .string []⟩
  | .value n s => some ⟨n, .string s⟩
  | .array n items => some ⟨n, .array items⟩

/-- A variable put back into the tables around it. -/
def plug : List Frame → Variable → Variable
  | [], v => v
  | f :: fs, v => plug fs ⟨f.name, .table (f.entries ++ [v])⟩

namespace Cursor

variable (c : Cursor)

/-- A finished variable becomes an entry of the table around it, or is reported. -/
def leave (v : Variable) : Cursor :=
  match c.parents with
  | [] => ⟨.idle, [], c.done ++ [v]⟩
  | f :: fs => ⟨.idle, ⟨f.name, f.entries ++ [v]⟩ :: fs, c.done⟩

def parse (data : Byte) : Except Fault Cursor :=
  match c.focus with
  | .idle =>
      if data = var then .ok { c with focus := .name [] }
      else if data = tableClose then
        match c.parents with
        | [] => .error .emptyStack
        | f :: fs => .ok ({ c with parents := fs }.leave ⟨f.name, .table f.entries⟩)
      else .ok c
  | .name n =>
      if data = val then .ok { c with focus := .value n [] }
      else .ok { c with focus := .name (n ++ [data]) }
  | .value n s =>
      if data = arrayOpen then .ok { c with focus := .array n [] }
      else if data = tableOpen then
        .ok { c with focus := .idle, parents := ⟨n, []⟩ :: c.parents }
      else if data = tableClose then .ok (c.leave ⟨n, .string s⟩)
      else if data = var then .ok { c.leave ⟨n, .string s⟩ with focus := .name [] }
      else .ok { c with focus := .value n (s ++ [data]) }
  | .array n items =>
      if data = arrayClose then .ok (c.leave ⟨n, .array items⟩)
      else if data = val then .ok { c with focus := .array n (items ++ [[]]) }
      else
        match items.getLast? with
        | none => .error .emptyArray
        | some s => .ok { c with focus := .array n (items.dropLast ++ [s ++ [data]]) }

/-- The variable at the root, which is empty when nothing has been begun. -/
def root : Variable :=
  match c.focus.current?, c.parents with
  | some v, fs => plug fs v
  | none, f :: fs => plug fs ⟨f.name, .table f.entries⟩
  | none, [] => {}

def finish : List Variable :=
  if c.root.name ≠ [] then c.done ++ [c.root] else c.done

end Cursor

/-! ## The pointers of the decoder -/

/-- The pointer to the variable inside the given tables. -/
def path : List Frame → Pointer
  | [] => []
  | f :: fs => path fs ++ [f.entries.length]

def tablePointers : List Frame → List Pointer
  | [] => []
  | _ :: fs => path fs :: tablePointers fs

namespace Cursor

def pointers (c : Cursor) : List Pointer :=
  match c.focus.current? with
  | some _ => path c.parents :: tablePointers c.parents
  | none => tablePointers c.parents

def toDecoder (c : Cursor) : Decoder := ⟨c.root, c.pointers, c.focus.state, c.done⟩

end Cursor

theorem at?_append (v : Variable) (p q : Pointer) :
    v.at? (p ++ q) = (v.at? p).bind fun w => w.at? q := by
  induction p generalizing v with
  | nil => rfl
  | cons i p ih =>
      rcases v with ⟨n, s | items | es⟩
      · rfl
      · rfl
      · simp only [List.cons_append, Variable.at?, Option.bind_assoc, ih]

theorem assign_append (v : Variable) {u : Variable} (w : Variable) (p q : Pointer)
    (h : v.at? p = some u) : v.assign w (p ++ q) = v.assign (u.assign w q) p := by
  induction p generalizing v with
  | nil =>
      obtain rfl : v = u := by simpa [Variable.at?] using h
      rfl
  | cons i p ih =>
      rcases v with ⟨n, s | items | es⟩
      · rfl
      · rfl
      · simp only [Variable.at?, Option.bind_eq_some_iff] at h
        obtain ⟨w', hw', hat⟩ := h
        obtain ⟨hi, rfl⟩ := List.getElem?_eq_some_iff.mp hw'
        simp only [List.cons_append, Variable.assign, List.modify_eq_take_cons_drop hi, ih _ hat]

theorem at?_plug (fs : List Frame) (v : Variable) : (plug fs v).at? (path fs) = some v := by
  induction fs generalizing v with
  | nil => rfl
  | cons f fs ih => simp [plug, path, at?_append, ih, Variable.at?]

theorem assign_plug (fs : List Frame) (v w : Variable) :
    (plug fs v).assign w (path fs) = plug fs w := by
  induction fs generalizing v w with
  | nil => rfl
  | cons f fs ih =>
      have hlast : f.entries.length < (f.entries ++ [v]).length := by simp
      rw [plug, path, assign_append _ _ _ _ (at?_plug fs _), ih, plug]
      simp [Variable.assign, List.modify_eq_take_cons_drop hlast]

theorem length_tablePointers (fs : List Frame) :
    ∀ q ∈ tablePointers fs, q.length < (path fs).length := by
  induction fs with
  | nil => simp [tablePointers]
  | cons f fs ih =>
      intro q hq
      rcases List.mem_cons.mp hq with rfl | hq
      · simp [path]
      · have := ih q hq
        simp [path]
        omega

/-- No pointer on the stack leads below its back. -/
theorem not_below (fs : List Frame) :
    ((path fs :: tablePointers fs).any fun q => path fs <+: q ∧ path fs ≠ q) = false := by
  apply List.any_eq_false.mpr
  intro q hq
  rcases List.mem_cons.mp hq with rfl | hq
  · simp
  · have hlen := length_tablePointers fs q hq
    simp only [decide_eq_true_eq, not_and]
    intro hprefix
    have := hprefix.length_le
    omega

/-! ## The decoder is the image of the cursor -/

namespace Cursor

open Decoder

variable {c : Cursor}

theorem top_eq {v : Variable} {fs : List Frame} {ps : List Pointer} {st : State}
    {done : List Variable} :
    Decoder.top ⟨plug fs v, path fs :: ps, st, done⟩ = .ok (path fs, v) := by
  simp [Decoder.top, at?_plug]

theorem setValue_eq {v : Variable} {fs : List Frame} {st : State} {done : List Variable}
    (value : Value Variable) :
    Decoder.setValue ⟨plug fs v, path fs :: tablePointers fs, st, done⟩ value =
      .ok ⟨plug fs { v with value := value }, path fs :: tablePointers fs, st, done⟩ := by
  have hbelow := not_below fs
  simp only [Decoder.setValue, top_eq, bind, Except.bind, hbelow, assign_plug]
  rfl

theorem openVariable_eq (fs : List Frame) (done : List Variable) (st : State) :
    Decoder.openVariable { (⟨.idle, fs, done⟩ : Cursor).toDecoder with state := st } =
      .ok { (⟨.name [], fs, done⟩ : Cursor).toDecoder with state := st } := by
  cases fs with
  | nil => rfl
  | cons f fs =>
      show Decoder.openVariable ⟨plug fs ⟨f.name, .table f.entries⟩, path fs :: tablePointers fs,
        st, done⟩ = _
      simp only [Decoder.openVariable, top_eq, setValue_eq, bind, Except.bind]
      rfl

theorem closeVariable_eq (v : Variable) (fs : List Frame) (st : State) (done : List Variable) :
    Decoder.closeVariable ⟨plug fs v, path fs :: tablePointers fs, st, done⟩ =
      .ok { (Cursor.leave ⟨.idle, fs, done⟩ v).toDecoder with state := st } := by
  cases fs <;> rfl

theorem parse_idle (fs : List Frame) (done : List Variable) (data : Byte) :
    (⟨.idle, fs, done⟩ : Cursor).toDecoder.parse data =
      (Cursor.parse ⟨.idle, fs, done⟩ data).map toDecoder := by
  show (⟨.idle, fs, done⟩ : Cursor).toDecoder.parseIdle data = _
  rw [Decoder.parseIdle, Cursor.parse]
  by_cases hvar : data = var
  · rw [if_pos hvar, if_pos hvar]
    have hopen := openVariable_eq fs done .idle
    simp only [toDecoder, Focus.state] at hopen ⊢
    rw [hopen]
    rfl
  · by_cases hclose : data = tableClose
    · simp only [if_neg hvar, if_pos hclose]
      cases fs with
      | nil => rfl
      | cons f fs =>
          have hleave := closeVariable_eq ⟨f.name, .table f.entries⟩ fs .idle done
          simp only [toDecoder, root, pointers, Focus.current?, Focus.state, tablePointers]
            at hleave ⊢
          rw [hleave]
          cases fs <;> rfl
    · simp only [if_neg hvar, if_neg hclose]
      rfl

theorem parse_name (n : Bytes) (fs : List Frame) (done : List Variable) (data : Byte) :
    (⟨.name n, fs, done⟩ : Cursor).toDecoder.parse data =
      (Cursor.parse ⟨.name n, fs, done⟩ data).map toDecoder := by
  show Decoder.parseName ⟨plug fs ⟨n, .string []⟩, path fs :: tablePointers fs, .name, done⟩ data
    = _
  rw [Decoder.parseName, Cursor.parse]
  by_cases hval : data = val
  · simp only [if_pos hval, setValue_eq]
    rfl
  · simp only [if_neg hval, top_eq, bind, Except.bind, assign_plug]
    rfl

theorem parse_value (n s : Bytes) (fs : List Frame) (done : List Variable) (data : Byte) :
    (⟨.value n s, fs, done⟩ : Cursor).toDecoder.parse data =
      (Cursor.parse ⟨.value n s, fs, done⟩ data).map toDecoder := by
  show Decoder.parseValue ⟨plug fs ⟨n, .string s⟩, path fs :: tablePointers fs, .value, done⟩ data
    = _
  rw [Decoder.parseValue, Cursor.parse]
  by_cases harray : data = arrayOpen
  · simp only [if_pos harray, setValue_eq]
    rfl
  by_cases htable : data = tableOpen
  · simp only [if_neg harray, if_pos htable, setValue_eq]
    rfl
  by_cases hclose : data = tableClose
  · simp only [if_neg harray, if_neg htable, if_pos hclose, closeVariable_eq]
    cases fs <;> rfl
  by_cases hvar : data = var
  · simp only [if_neg harray, if_neg htable, if_neg hclose, if_pos hvar, closeVariable_eq, bind,
      Except.bind]
    cases fs with
    | nil => rfl
    | cons f fs =>
        have hopen := openVariable_eq (⟨f.name, f.entries ++ [⟨n, .string s⟩]⟩ :: fs) done .value
        simp only [leave, toDecoder] at hopen ⊢
        rw [hopen]
        rfl
  · simp only [if_neg harray, if_neg htable, if_neg hclose, if_neg hvar, top_eq, bind,
      Except.bind, assign_plug]
    rfl

theorem parse_array (n : Bytes) (items : List Bytes) (fs : List Frame) (done : List Variable)
    (data : Byte) :
    (⟨.array n items, fs, done⟩ : Cursor).toDecoder.parse data =
      (Cursor.parse ⟨.array n items, fs, done⟩ data).map toDecoder := by
  show Decoder.parseArray ⟨plug fs ⟨n, .array items⟩, path fs :: tablePointers fs, .array, done⟩
    data = _
  rw [Decoder.parseArray, Cursor.parse]
  by_cases hclose : data = arrayClose
  · simp only [if_pos hclose, closeVariable_eq]
    cases fs <;> rfl
  · simp only [if_neg hclose, top_eq, bind, Except.bind, assign_plug]
    by_cases hval : data = val
    · simp only [if_pos hval]
      rfl
    · simp only [if_neg hval]
      cases items.getLast? <;> rfl

/-- The decoder does what the cursor does, byte by byte; in particular it
faults only where the cursor does. -/
theorem parse_toDecoder (c : Cursor) (data : Byte) :
    c.toDecoder.parse data = (c.parse data).map toDecoder := by
  rcases c with ⟨focus, fs, done⟩
  cases focus with
  | idle => exact parse_idle fs done data
  | name n => exact parse_name n fs done data
  | value n s => exact parse_value n s fs done data
  | array n items => exact parse_array n items fs done data

theorem foldlM_toDecoder (c : Cursor) (data : Bytes) :
    data.foldlM Decoder.parse c.toDecoder = (data.foldlM Cursor.parse c).map toDecoder := by
  induction data generalizing c with
  | nil => rfl
  | cons by_ data ih =>
      simp only [List.foldlM_cons, parse_toDecoder, bind, Except.bind]
      cases c.parse by_ with
      | error fault => rfl
      | ok c' => exact ih c'

end Cursor

namespace Cursor

theorem parse_fault {c : Cursor} {data : Byte} {fault : Fault}
    (h : c.parse data = .error fault) : fault = .emptyStack ∨ fault = .emptyArray := by
  rcases c with ⟨focus, fs, done⟩
  cases focus with
  | idle =>
      simp only [parse] at h
      split_ifs at h
      cases fs with
      | nil => exact Or.inl (Except.error.inj h).symm
      | cons f fs => simp at h
  | name n =>
      simp only [parse] at h
      split_ifs at h
  | value n s =>
      simp only [parse] at h
      split_ifs at h
  | array n items =>
      simp only [parse] at h
      split_ifs at h
      cases hlast : items.getLast? with
      | none =>
          rw [hlast] at h
          exact Or.inr (Except.error.inj h).symm
      | some s => simp [hlast] at h

theorem foldlM_fault {c : Cursor} {data : Bytes} {fault : Fault}
    (h : data.foldlM Cursor.parse c = .error fault) :
    fault = .emptyStack ∨ fault = .emptyArray := by
  let P : Fault → Prop := fun fault => fault = .emptyStack ∨ fault = .emptyArray
  exact foldlM_error (P := P) (fun _ _ _ => parse_fault) h

end Cursor

theorem decode_eq (data : Bytes) :
    decode data = (data.foldlM Cursor.parse {}).map Cursor.finish := by
  have hrun := Cursor.foldlM_toDecoder {} data
  rw [decode, show ({} : Decoder) = ({} : Cursor).toDecoder from rfl, hrun]
  cases data.foldlM Cursor.parse {} <;> rfl

/-- No input makes the decoder read a value as what it is not or follow a
pointer that leads nowhere. -/
theorem decode_fault {data : Bytes} {fault : Fault} (h : decode data = .error fault) :
    fault = .emptyStack ∨ fault = .emptyArray := by
  rw [decode_eq] at h
  exact Cursor.foldlM_fault (except_map_eq_error.mp h)

end Telnetpp.Msdp
