import Telnetpp.Msdp.Cursor

/-!
# The stack of the decoder

The pointers on the stack lead down the right side of the variable under
construction: each but the first is the last entry of the table before it.
-/

namespace Telnetpp.Msdp

open Foundation

/-- `q` points to the last entry of the table that `p` points to. -/
def LastEntry (root : Variable) (q p : Pointer) : Prop :=
  ∃ n es v, root.at? p = some ⟨n, .table (es ++ [v])⟩ ∧ q = p ++ [es.length]

/-- The alternative that the value on top of the stack has in each state. -/
inductive Suits : State → Value Variable → Prop
  | idle (es : List Variable) : Suits .idle (.table es)
  | name (value : Value Variable) : Suits .name value
  | value (s : Bytes) : Suits .value (.string s)
  | array (items : List Bytes) : Suits .array (.array items)

/-- The stack has its back first. Only its back is changed or gets new
entries, and no other pointer leads below it. -/
structure Decoder.Sound (d : Decoder) : Prop where
  spine : d.currentVar = [] ∨
    d.currentVar.getLast? = some [] ∧ d.currentVar.IsChain (LastEntry d.var_)
  tables : ∀ p ∈ d.currentVar.tail, ∃ n es, d.var_.at? p = some ⟨n, .table es⟩
  lowest : ∀ p ∈ d.currentVar.head?, ∀ q ∈ d.currentVar, p <+: q → q = p
  nonempty : d.state ≠ .idle → d.currentVar ≠ []
  top : ∀ p ∈ d.currentVar.head?, ∃ v, d.var_.at? p = some v ∧ Suits d.state v.value

/-! ## The pointers of a cursor -/

theorem getLast?_path (fs : List Frame) : (path fs :: tablePointers fs).getLast? = some [] := by
  induction fs with
  | nil => rfl
  | cons f fs ih => rwa [tablePointers, List.getLast?_cons_cons]

theorem isChain_path (fs : List Frame) (v : Variable) :
    (path fs :: tablePointers fs).IsChain (LastEntry (plug fs v)) := by
  induction fs generalizing v with
  | nil => exact .singleton _
  | cons f fs ih =>
      exact .cons_cons ⟨f.name, f.entries, v, at?_plug fs _, rfl⟩ (ih _)

theorem exists_table (fs : List Frame) (v : Variable) :
    ∀ p ∈ tablePointers fs, ∃ n es, (plug fs v).at? p = some ⟨n, .table es⟩ := by
  induction fs generalizing v with
  | nil => simp [tablePointers]
  | cons f fs ih =>
      intro p hp
      rcases List.mem_cons.mp hp with rfl | hp
      · exact ⟨f.name, f.entries ++ [v], at?_plug fs _⟩
      · exact ih _ p hp

theorem Decoder.Sound.plug {fs : List Frame} {v : Variable} {st : State} {done : List Variable}
    (h : Suits st v.value) :
    Sound ⟨Msdp.plug fs v, path fs :: tablePointers fs, st, done⟩ where
  spine := .inr ⟨getLast?_path fs, isChain_path fs v⟩
  tables := exists_table fs v
  lowest := by
    intro p hp q hq hprefix
    obtain rfl : path fs = p := by simpa using hp
    rcases List.mem_cons.mp hq with rfl | hq
    · rfl
    · have hlen := length_tablePointers fs q hq
      have hle := hprefix.length_le
      omega
  nonempty := fun _ => List.cons_ne_nil _ _
  top := by
    intro p hp
    obtain rfl : path fs = p := by simpa using hp
    exact ⟨v, at?_plug fs v, h⟩

theorem Cursor.sound_toDecoder (c : Cursor) : c.toDecoder.Sound := by
  rcases c with ⟨focus, fs, done⟩
  cases focus with
  | idle =>
      cases fs with
      | nil =>
          have hempty : Decoder.Sound ⟨{}, [], .idle, done⟩ :=
            ⟨.inl rfl, by simp, by simp, fun h => absurd rfl h, by simp⟩
          exact hempty
      | cons f fs => exact Decoder.Sound.plug (.idle f.entries)
  | name n => exact Decoder.Sound.plug (.name _)
  | value n s => exact Decoder.Sound.plug (.value s)
  | array n items => exact Decoder.Sound.plug (.array items)

/-! ## Every prefix -/

/-- As long as no byte pops an empty stack or extends an element that does not exist, the
stack is sound, and no next byte reads a value as what it is not or goes through a pointer
that has become invalid. -/
theorem sound_along (data : Bytes) : ∀ pre, pre <+: data →
    (∀ d, pre.foldlM Decoder.parse {} = .ok d → d.Sound ∧
      ∀ by_ fault, d.parse by_ = .error fault → fault = .emptyStack ∨ fault = .emptyArray) ∧
    ∀ fault, pre.foldlM Decoder.parse {} = .error fault →
      fault = .emptyStack ∨ fault = .emptyArray := by
  intro pre _
  have hrun : pre.foldlM Decoder.parse {} = _ := Cursor.foldlM_toDecoder {} pre
  constructor
  · intro d hd
    obtain ⟨c, -, rfl⟩ := except_map_eq_ok.mp (hrun.symm.trans hd)
    refine ⟨c.sound_toDecoder, fun by_ fault h => ?_⟩
    exact Cursor.parse_fault (except_map_eq_error.mp ((c.parse_toDecoder by_).symm.trans h))
  · intro fault h
    exact Cursor.foldlM_fault (except_map_eq_error.mp (hrun.symm.trans h))

/-- Inside a table, the stack has the pointer to its last entry above that to the variable. -/
theorem sound_along_nested :
    ∃ d, [var, 97, val, tableOpen, var].foldlM Decoder.parse {} = .ok d ∧
      d.currentVar = [[0], []] ∧ d.Sound :=
  ⟨_, rfl, rfl, ((sound_along [var, 97, val, tableOpen, var, 98]
    [var, 97, val, tableOpen, var] (by decide)).1 _ rfl).1⟩

end Telnetpp.Msdp
