import Telnetpp.NewEnviron.Protocol

/-!
# The seam between two entries

Both parsers pass an entry on in two places: where the next one begins, and at
the end of the content. An entry without a name is passed on in the first
place only, so that it counts unless it is the last.
-/

namespace Telnetpp.NewEnviron

open Foundation

/-! ## Entries -/

/-- Whether the next byte is escaped, and the bytes behind the last type byte
that is not. -/
structure Scan where
  escaped : Bool := false
  entry : Bytes := []
  deriving DecidableEq, Repr

def Scan.next (s : Scan) (by_ : Byte) : Scan :=
  if s.escaped then ⟨false, s.entry ++ [by_]⟩
  else if by_ = var ∨ by_ = uservar then ⟨false, []⟩
  else ⟨by_ = esc, s.entry ++ [by_]⟩

def scan (body : Bytes) : Scan := body.foldl Scan.next {}

/-- The body begins with a type byte and does not end in an unfinished ESC. -/
structure Entries (body : Bytes) : Prop where
  first : body.head? = some var ∨ body.head? = some uservar
  finished : (scan body).escaped = false

instance (body : Bytes) : Decidable (Entries body) :=
  decidable_of_iff ((body.head? = some var ∨ body.head? = some uservar) ∧
    (scan body).escaped = false) ⟨fun h => ⟨h.1, h.2⟩, fun h => ⟨h.first, h.finished⟩⟩

/-- A body that begins with a type byte. -/
theorem exists_type {body : Bytes} (h : body.head? = some var ∨ body.head? = some uservar) :
    ∃ by_ rest, (by_ = var ∨ by_ = uservar) ∧ body = by_ :: rest := by
  cases body with
  | nil => simp at h
  | cons by_ rest => exact ⟨by_, rest, by simpa using h, rfl⟩

theorem scan_type {by_ : Byte} (h : by_ = var ∨ by_ = uservar) (rest : Bytes) :
    scan (by_ :: rest) = rest.foldl Scan.next {} := by
  rw [scan, List.foldl_cons, Scan.next, if_neg Bool.false_ne_true, if_pos h]

/-! ## Requests -/

/-- What the parser of requests knows of an entry. -/
structure ReadsRequest (s : Scan) (st : RequestParsingState) : Prop where
  state : st.state = if s.escaped then .nameEsc else .name
  name : s.escaped = false → (st.req.name = [] ↔ s.entry = [])

theorem ReadsRequest.next {s : Scan} {st : RequestParsingState} (h : ReadsRequest s st)
    (by_ : Byte) : ReadsRequest (s.next by_) (parseRequestByte st by_).1 := by
  rcases s with ⟨escaped, entry⟩
  rcases st with ⟨state, req⟩
  cases escaped with
  | true =>
      obtain rfl : state = .nameEsc := h.state
      exact ⟨rfl, by simp [Scan.next, parseRequestByte, parseRequestNameEsc]⟩
  | false =>
      obtain rfl : state = .name := h.state
      simp only [Scan.next, parseRequestByte, parseRequestName, Bool.false_eq_true, if_false]
      by_cases htype : by_ = var ∨ by_ = uservar
      · have hesc : by_ ≠ esc := by rcases htype with rfl | rfl <;> decide
        rw [if_pos htype, if_neg hesc, if_pos htype]
        exact ⟨rfl, by simp⟩
      · rw [if_neg htype]
        by_cases hesc : by_ = esc
        · rw [if_pos hesc]
          exact ⟨by simp [hesc], by simp [hesc]⟩
        · rw [if_neg hesc, if_neg htype]
          exact ⟨by simp [hesc], by simp⟩

theorem readsRequest_final {s : Scan} {st : RequestParsingState} (h : ReadsRequest s st)
    (rest : Bytes) : ReadsRequest (rest.foldl Scan.next s) (requestMachine.final st rest) := by
  induction rest generalizing s st with
  | nil => exact h
  | cons by_ rest ih => exact ih (h.next by_)

theorem forEachRequest_cons (h : Byte) (body : Bytes) :
    forEachRequest (h :: body) = requestMachine.reads parseRequestEnd ⟨.type, {}⟩ body := rfl

theorem parseRequestEnd_eq (st : RequestParsingState) :
    parseRequestEnd st = [st.req] ↔ st.req.name ≠ [] := by
  by_cases h : st.req.name = [] <;> simp [parseRequestEnd, h]

theorem forEachRequest_append_iff (h : Byte) {b₁ b₂ : Bytes} (hb₁ : Entries b₁)
    (hb₂ : b₂.head? = some var ∨ b₂.head? = some uservar) :
    forEachRequest (h :: (b₁ ++ b₂)) = forEachRequest (h :: b₁) ++ forEachRequest (h :: b₂) ↔
      (scan b₁).entry ≠ [] := by
  obtain ⟨type, rest, htype, rfl⟩ := exists_type hb₁.first
  obtain ⟨type', rest', htype', rfl⟩ := exists_type hb₂
  have hfinished := hb₁.finished
  rw [scan_type htype] at hfinished ⊢
  let st := requestMachine.final ⟨.type, {}⟩ (type :: rest)
  have hbegin : ReadsRequest {} ⟨.name, { type := byteToType type }⟩ := ⟨rfl, by simp⟩
  obtain ⟨hstate, hname⟩ : ReadsRequest _ st := readsRequest_final hbegin rest
  rw [hfinished, if_neg Bool.false_ne_true] at hstate
  have hesc : type' ≠ esc := by rcases htype' with rfl | rfl <;> decide
  have hstep : requestMachine.step st type' =
      (⟨.name, { type := byteToType type' }⟩, [st.req]) := by
    simp [requestMachine, parseRequestByte, hstate, parseRequestName, hesc, htype']
  have hsame : (requestMachine.step st type').1 = (requestMachine.step ⟨.type, {}⟩ type').1 := by
    rw [hstep]
    rfl
  rw [forEachRequest_cons, forEachRequest_cons, forEachRequest_cons,
    requestMachine.reads_append_iff hsame rfl, hstep, parseRequestEnd_eq]
  exact not_congr (hname hfinished)

/-! ## Responses -/

/-- What the parser of responses knows of an entry: which part of it has been
reached, and whether it has a name. -/
inductive ReadsResponse : Scan → ParsingState → Prop
  | name {entry : Bytes} {rsp : Response} (hvalue : entry.head? ≠ some value)
      (hname : rsp.name = [] ↔ entry = []) : ReadsResponse ⟨false, entry⟩ ⟨.name, rsp⟩
  | nameEsc {entry : Bytes} {rsp : Response} (hentry : entry ≠ [])
      (hvalue : entry.head? ≠ some value) : ReadsResponse ⟨true, entry⟩ ⟨.nameEsc, rsp⟩
  | value {entry : Bytes} {rsp : Response} (hentry : entry ≠ [])
      (hname : rsp.name = [] ↔ entry.head? = some value) :
      ReadsResponse ⟨false, entry⟩ ⟨.value, rsp⟩
  | valueEsc {entry : Bytes} {rsp : Response} (hentry : entry ≠ [])
      (hname : rsp.name = [] ↔ entry.head? = some value) :
      ReadsResponse ⟨true, entry⟩ ⟨.valueEsc, rsp⟩

theorem head?_append_singleton {entry : Bytes} (h : entry ≠ []) (by_ : Byte) :
    (entry ++ [by_]).head? = entry.head? := by
  obtain ⟨b, rest, rfl⟩ := List.exists_cons_of_ne_nil h
  rfl

theorem readsResponse_type (by_ : Byte) :
    ReadsResponse ⟨false, []⟩ ⟨.name, { type := byteToType by_ }⟩ :=
  .name (by simp) (by simp)

theorem ReadsResponse.next {s : Scan} {st : ParsingState} (h : ReadsResponse s st)
    (by_ : Byte) : ReadsResponse (s.next by_) (parseByte st by_).1 := by
  cases h with
  | @name entry rsp hvalue hname =>
      simp only [Scan.next, parseByte, parseName, Bool.false_eq_true, if_false]
      by_cases htype : by_ = var ∨ by_ = uservar
      · rw [if_pos htype, if_pos htype]
        exact readsResponse_type _
      · rw [if_neg htype, if_neg htype]
        by_cases hesc : by_ = esc
        · subst hesc
          refine .nameEsc (by simp) ?_
          cases entry with
          | nil => decide
          | cons b rest => exact hvalue
        · rw [if_neg hesc, decide_eq_false hesc]
          by_cases hval : by_ = NewEnviron.value
          · -- the value begins, and the entry has a name if it has had a byte before
            subst hval
            refine .value (by simp) (hname.trans ?_)
            cases entry with
            | nil => exact iff_of_true rfl rfl
            | cons b rest => exact iff_of_false (List.cons_ne_nil _ _) hvalue
          · rw [if_neg hval]
            refine .name ?_ (by simp)
            cases entry with
            | nil => simpa using hval
            | cons b rest => exact hvalue
  | @nameEsc entry rsp hentry hvalue =>
      refine .name ?_ (by simp [hentry])
      rwa [head?_append_singleton hentry]
  | @value entry rsp hentry hname =>
      simp only [Scan.next, parseByte, parseValue, Bool.false_eq_true, if_false]
      by_cases htype : by_ = var ∨ by_ = uservar
      · rw [if_pos htype, if_pos htype]
        exact readsResponse_type _
      · rw [if_neg htype, if_neg htype]
        rw [← head?_append_singleton hentry by_] at hname
        by_cases hesc : by_ = esc
        · rw [if_pos hesc, decide_eq_true hesc]
          exact .valueEsc (by simp) hname
        · rw [if_neg hesc, decide_eq_false hesc]
          exact .value (by simp) hname
  | @valueEsc entry rsp hentry hname =>
      rw [← head?_append_singleton hentry by_] at hname
      exact .value (by simp) hname

theorem readsResponse_final {s : Scan} {st : ParsingState} (h : ReadsResponse s st)
    (rest : Bytes) : ReadsResponse (rest.foldl Scan.next s) (machine.final st rest) := by
  induction rest generalizing s st with
  | nil => exact h
  | cons by_ rest ih => exact ih (h.next by_)

/-- Behind a whole entry, the next one begins from either state. -/
theorem ReadsResponse.seam {s : Scan} {st : ParsingState} (h : ReadsResponse s st)
    (hfinished : s.escaped = false) {by_ : Byte} (hby : by_ = var ∨ by_ = uservar) :
    parseByte st by_ = (⟨.name, { type := byteToType by_ }⟩, [st.rsp]) ∧
      (st.rsp.name ≠ [] ↔ s.entry ≠ [] ∧ s.entry.head? ≠ some NewEnviron.value) := by
  cases h with
  | @name entry rsp hvalue hname =>
      exact ⟨if_pos hby, (not_congr hname).trans (and_iff_left hvalue).symm⟩
  | @value entry rsp hentry hname =>
      exact ⟨if_pos hby, (not_congr hname).trans (and_iff_right hentry).symm⟩
  | nameEsc | valueEsc => exact absurd hfinished.symm Bool.false_ne_true

theorem forEachResponse_cons (h : Byte) (body : Bytes) :
    forEachResponse (h :: body) = machine.reads parseEnd ⟨.type, {}⟩ body := rfl

theorem parseEnd_eq (st : ParsingState) : parseEnd st = [st.rsp] ↔ st.rsp.name ≠ [] := by
  by_cases h : st.rsp.name = [] <;> simp [parseEnd, h]

theorem forEachResponse_append_iff (h : Byte) {b₁ b₂ : Bytes} (hb₁ : Entries b₁)
    (hb₂ : b₂.head? = some var ∨ b₂.head? = some uservar) :
    forEachResponse (h :: (b₁ ++ b₂)) = forEachResponse (h :: b₁) ++ forEachResponse (h :: b₂) ↔
      (scan b₁).entry ≠ [] ∧ (scan b₁).entry.head? ≠ some value := by
  obtain ⟨type, rest, htype, rfl⟩ := exists_type hb₁.first
  obtain ⟨type', rest', htype', rfl⟩ := exists_type hb₂
  have hfinished := hb₁.finished
  rw [scan_type htype] at hfinished ⊢
  let st := machine.final ⟨.type, {}⟩ (type :: rest)
  have hreads : ReadsResponse _ st := readsResponse_final (readsResponse_type _) rest
  obtain ⟨hstep, hname⟩ := hreads.seam hfinished htype'
  have hstep : machine.step st type' = _ := hstep
  have hsame : (machine.step st type').1 = (machine.step ⟨.type, {}⟩ type').1 := by
    rw [hstep]
    rfl
  rw [forEachResponse_cons, forEachResponse_cons, forEachResponse_cons,
    machine.reads_append_iff hsame rfl, hstep, parseEnd_eq]
  exact hname

/-! ## Both decoders -/

/-- The entries of two bodies are those of the one and those of the other,
exactly when the last entry of the first has a name. -/
theorem forEach_append_iff (h : Byte) (b₁ b₂ : Bytes) (hb₁ : Entries b₁)
    (hb₂ : b₂.head? = some var ∨ b₂.head? = some uservar) :
    (forEachRequest (h :: (b₁ ++ b₂)) = forEachRequest (h :: b₁) ++ forEachRequest (h :: b₂) ↔
        (scan b₁).entry ≠ []) ∧
      (forEachResponse (h :: (b₁ ++ b₂)) =
          forEachResponse (h :: b₁) ++ forEachResponse (h :: b₂) ↔
        (scan b₁).entry ≠ [] ∧ (scan b₁).entry.head? ≠ some value) :=
  ⟨forEachRequest_append_iff h hb₁ hb₂, forEachResponse_append_iff h hb₁ hb₂⟩

/-- An escaped type byte belongs to the name before the seam, and an escaped
VALUE behind it to the next, whose last ESC escapes nothing. -/
theorem forEach_append_escaped :
    (forEachRequest (1 :: ([0, 2, 0] ++ [3, 2, 1, 2])) =
        forEachRequest (1 :: [0, 2, 0]) ++ forEachRequest (1 :: [3, 2, 1, 2]) ↔
      (scan [0, 2, 0]).entry ≠ []) ∧
    (forEachResponse (1 :: ([0, 2, 0] ++ [3, 2, 1, 2])) =
        forEachResponse (1 :: [0, 2, 0]) ++ forEachResponse (1 :: [3, 2, 1, 2]) ↔
      (scan [0, 2, 0]).entry ≠ [] ∧ (scan [0, 2, 0]).entry.head? ≠ some value) :=
  forEach_append_iff 1 [0, 2, 0] [3, 2, 1, 2] (by decide) (by decide)

/-- A VAR without a name is passed on before another entry, and dropped at the end. -/
theorem forEach_nameless :
    Entries [0] ∧ Entries [3, 97] ∧
      forEachRequest (1 :: ([0] ++ [3, 97])) = [⟨.var, []⟩, ⟨.uservar, [97]⟩] ∧
      forEachRequest (1 :: [0]) ++ forEachRequest (1 :: [3, 97]) = [⟨.uservar, [97]⟩] ∧
      forEachResponse (0 :: ([0] ++ [3, 97])) = [⟨.var, [], none⟩, ⟨.uservar, [97], none⟩] ∧
      forEachResponse (0 :: [0]) ++ forEachResponse (0 :: [3, 97]) =
        [⟨.uservar, [97], none⟩] := by
  decide

end Telnetpp.NewEnviron
