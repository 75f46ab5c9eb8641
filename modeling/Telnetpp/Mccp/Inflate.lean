import Telnetpp.Mccp.Zlib

/-!
# The contract of inflate

What is documented of `inflate`, and a library that keeps to it: one that
knows a single stream, with the output that each of its bytes determines.
-/

namespace Telnetpp.Mccp.Zlib

variable {S : Type}

/-! ## The contract of the library -/

/-- How the states of the library are read: what a stream has taken and
written, what is determined by the bytes of a stream, and which bytes are a
complete stream or a header that asks for a preset dictionary. -/
structure Reading (S : Type) where
  Valid : S → Prop
  taken : S → Bytes
  written : S → Bytes
  content : Bytes → Bytes
  Complete : Bytes → Prop
  AsksDictionary : Bytes → Prop

/-- The stream is complete, and all that it determines has been written. -/
def Reading.Ended (R : Reading S) (s : S) : Prop :=
  R.Complete (R.taken s) ∧ R.written s = R.content (R.taken s)

/-- What is documented of one call, with input and room. -/
structure LawfulReply (R : Reading S) (s : S) (input : Bytes) (room : ℕ) (r : Reply S) :
    Prop where
  valid : R.Valid r.state
  consumed_le : r.consumed ≤ input.length
  produced_le : r.produced.length ≤ room
  taken : R.taken r.state = R.taken s ++ input.take r.consumed
  written : R.written r.state = R.written s ++ r.produced
  determined : R.written r.state <+: R.content (R.taken r.state)
  response : r.response = .ok ∨ r.response = .streamEnd ∨ r.response = .dataError ∨
    r.response = .needDict
  progress : r.response = .ok → 0 < r.consumed ∨ r.produced ≠ []
  needDict : r.response = .needDict ↔
    ∃ k ≤ input.length, R.AsksDictionary (R.taken s ++ input.take k)
  roomLeft : r.response = .ok → r.produced.length < room →
    R.written r.state = R.content (R.taken r.state)
  streamEnd : r.response = .streamEnd → R.Ended r.state
  notEnd : r.response ≠ .streamEnd → ¬ R.Ended r.state
  withinStream : ∀ k < r.consumed, ¬ R.Complete (R.taken s ++ input.take k)

structure InflateLaws (lib : Inflate S) (R : Reading S) : Prop where
  valid_init : R.Valid lib.init
  taken_init : R.taken lib.init = []
  written_init : R.written lib.init = []
  content_nil : R.content [] = []
  incomplete_nil : ¬ R.Complete []
  call : ∀ s input room, R.Valid s → input ≠ [] → 0 < room →
    LawfulReply R s input room (lib.inflate s input room)

/-- What is documented of a complete stream: its parts determine parts of its
content, it is no part of another one, and `inflate` refuses no byte of it. -/
structure StreamLaws (lib : Inflate S) (R : Reading S) : Prop where
  content_append : ∀ x y, R.content x <+: R.content (x ++ y)
  complete_append : ∀ z y, R.Complete z → R.Complete (z ++ y) → y = []
  accepts : ∀ s tail input room, R.Valid s → R.Complete (R.taken s ++ tail) → input ≠ [] →
    0 < room → (input <+: tail ∨ tail <+: input) →
      (lib.inflate s input room).response = .ok ∨ (lib.inflate s input room).response = .streamEnd

/-! ## A library that knows one stream -/

/-- The bytes of one stream, each with the output that it determines. The last
of them ends the stream, or a header that asks for a preset dictionary. -/
structure Tape where
  cells : List (Byte × Bytes)
  asksDictionary : Bool := false
  cells_ne_nil : cells ≠ [] := by decide
  silent : asksDictionary = true → ∀ cell ∈ cells, cell.2 = [] := by decide

namespace Tape

/-- How far a stream has been read, and how much has been written for it. -/
structure Position where
  taken : Bytes := []
  written : Bytes := []
  deriving DecidableEq, Repr

variable (tape : Tape)

def bytes : Bytes := tape.cells.map Prod.fst

def content (x : Bytes) : Bytes := (tape.cells.take x.length).flatMap Prod.snd

/-- How much of the input is taken while there is room, and whether it was left
for a byte that is not the stream's. -/
def accept (room : ℕ) : List (Byte × Bytes) → ℕ → Bytes → ℕ × Bool
  | [], _, _ => (0, false)
  | _, _, [] => (0, false)
  | (byte, output) :: cells, pending, b :: bs =>
      if room ≤ pending then (0, false)
      else if b = byte then
        let r := accept room cells (pending + output.length) bs
        (r.1 + 1, r.2)
      else (0, true)

/-- The output that is determined and not yet written. -/
def pending (s : Position) : Bytes := (tape.content s.taken).drop s.written.length

def inflate (s : Position) (input : Bytes) (room : ℕ) : Reply Position :=
  let r := accept room (tape.cells.drop s.taken.length) (tape.pending s).length input
  let taken := s.taken ++ input.take r.1
  let output := (tape.content taken).drop s.written.length
  let state : Position := ⟨taken, s.written ++ output.take room⟩
  let response : Response :=
    if r.2 then .dataError
    else if state.taken = tape.bytes ∧ state.written = tape.content state.taken then
      if tape.asksDictionary then .needDict else .streamEnd
    else .ok
  ⟨response, r.1, output.take room, state⟩

def library : Inflate Position := ⟨{}, tape.inflate⟩

/-- The states of the library, read by what they hold. -/
def reading : Reading Position where
  Valid s := s.taken <+: tape.bytes ∧ s.written <+: tape.content s.taken
  taken := Position.taken
  written := Position.written
  content := tape.content
  Complete x := tape.asksDictionary = false ∧ x = tape.bytes
  AsksDictionary x := tape.asksDictionary = true ∧ x = tape.bytes

/-! The lemmas about what is accepted. -/

theorem accept_take_le (room : ℕ) (cells : List (Byte × Bytes)) (pending : ℕ) (input : Bytes) :
    input.take (accept room cells pending input).1 <+: cells.map Prod.fst := by
  induction cells generalizing pending input with
  | nil => simp [accept]
  | cons cell cells ih =>
      cases input with
      | nil => simp
      | cons b bs =>
          rw [accept]
          split
          · simp
          · split
            · rename_i hb
              simpa [hb] using ih _ bs
            · simp

theorem accept_le_length (room : ℕ) (cells : List (Byte × Bytes)) (pending : ℕ) (input : Bytes) :
    (accept room cells pending input).1 ≤ input.length := by
  induction cells generalizing pending input with
  | nil => simp [accept]
  | cons cell cells ih =>
      cases input with
      | nil => simp [accept]
      | cons b bs =>
          rw [accept]
          split
          · simp
          · split
            · simpa using ih _ bs
            · simp

/-- Input is refused only before the end of the stream. -/
theorem accept_lt_of_refused {room : ℕ} {cells : List (Byte × Bytes)} {pending : ℕ}
    {input : Bytes} (h : (accept room cells pending input).2 = true) :
    (accept room cells pending input).1 < cells.length := by
  induction cells generalizing pending input with
  | nil => simp [accept] at h
  | cons cell cells ih =>
      cases input with
      | nil => simp [accept] at h
      | cons b bs =>
          rw [accept] at h ⊢
          split at h
          · simp at h
          · rename_i hroom
            rw [if_neg hroom]
            split at h
            · rename_i hb
              rw [if_pos hb]
              simpa using ih h
            · rename_i hb
              rw [if_neg hb]
              simp

/-- What determines no output is taken to its end. -/
theorem accept_silent {room : ℕ} (hroom : 0 < room) {cells : List (Byte × Bytes)}
    (hsilent : ∀ cell ∈ cells, cell.2 = []) {input : Bytes} (h : cells.map Prod.fst <+: input) :
    (accept room cells 0 input).1 = cells.length := by
  induction cells generalizing input with
  | nil => simp [accept]
  | cons cell cells ih =>
      obtain ⟨hcell, hcells⟩ := List.forall_mem_cons.mp hsilent
      cases input with
      | nil => exact absurd (List.prefix_nil.mp h) (List.cons_ne_nil _ _)
      | cons b bs =>
          obtain ⟨hb, hbs⟩ := List.cons_prefix_cons.mp h
          rw [accept, if_neg (Nat.not_le.mpr hroom), if_pos hb.symm, hcell]
          simpa using ih hcells hbs

/-- Nothing is taken only where the stream is at its end, or its output fills
the room. -/
theorem of_accept_zero {room : ℕ} {cells : List (Byte × Bytes)} {pending : ℕ} {input : Bytes}
    (hinput : input ≠ []) (h : accept room cells pending input = (0, false)) :
    cells = [] ∨ room ≤ pending := by
  cases cells with
  | nil => exact Or.inl rfl
  | cons cell cells =>
      cases input with
      | nil => exact absurd rfl hinput
      | cons b bs =>
          rw [accept] at h
          split at h
          · rename_i hroom
            exact Or.inr hroom
          · split at h <;> simp at h

/-- Nothing is refused of input that agrees with the stream. -/
theorem not_refused_of_agrees (room : ℕ) (cells : List (Byte × Bytes)) (pending : ℕ)
    (input : Bytes) (h : input <+: cells.map Prod.fst ∨ cells.map Prod.fst <+: input) :
    (accept room cells pending input).2 = false := by
  induction cells generalizing pending input with
  | nil => rfl
  | cons cell cells ih =>
      cases input with
      | nil => rfl
      | cons b bs =>
          obtain ⟨rfl, hrest⟩ : b = cell.1 ∧
              (bs <+: cells.map Prod.fst ∨ cells.map Prod.fst <+: bs) := by
            rcases h with h | h
            · obtain ⟨hb, hbs⟩ := List.cons_prefix_cons.mp h
              exact ⟨hb, Or.inl hbs⟩
            · obtain ⟨hb, hbs⟩ := List.cons_prefix_cons.mp h
              exact ⟨hb.symm, Or.inr hbs⟩
          rw [accept]
          split
          · rfl
          · rw [if_pos rfl]
            exact ih _ bs hrest

section Laws

variable {tape : Tape} {s : Position} {input : Bytes} {room : ℕ}

theorem content_mono {x y : Bytes} (h : x <+: y) : tape.content x <+: tape.content y := by
  obtain ⟨z, rfl⟩ := h
  rw [content, content, List.length_append, List.take_add, List.flatMap_append]
  exact List.prefix_append _ _

theorem bytes_ne_nil : tape.bytes ≠ [] := by
  intro h
  exact tape.cells_ne_nil (List.map_eq_nil_iff.mp h)

/-- A stream that asks for a dictionary determines no output. -/
theorem content_eq_nil (h : tape.asksDictionary = true) (x : Bytes) : tape.content x = [] := by
  apply List.flatMap_eq_nil_iff.mpr
  intro cell hcell
  exact tape.silent h cell (List.mem_of_mem_take hcell)

/-- What a call takes. -/
abbrev accepted (tape : Tape) (s : Position) (input : Bytes) (room : ℕ) : ℕ × Bool :=
  accept room (tape.cells.drop s.taken.length) (tape.pending s).length input

theorem taken_le (h : s.taken <+: tape.bytes) :
    s.taken ++ input.take (accepted tape s input room).1 <+: tape.bytes := by
  obtain ⟨rest, hrest⟩ := h
  have hdrop : (tape.cells.drop s.taken.length).map Prod.fst = rest := by
    rw [List.map_drop]
    exact (congrArg (List.drop s.taken.length) hrest.symm).trans List.drop_left
  rw [← hrest]
  apply (List.prefix_append_right_inj s.taken).mpr
  rw [← hdrop]
  exact accept_take_le _ _ _ _

/-- The output of a call is the next part of what is determined. -/
theorem written_append (hvalid : tape.reading.Valid s) (x : Bytes) :
    s.written ++ (tape.content (s.taken ++ x)).drop s.written.length =
      tape.content (s.taken ++ x) := by
  obtain ⟨rest, hrest⟩ := hvalid.2.trans (content_mono (List.prefix_append s.taken x))
  rw [← hrest, List.drop_left]

theorem length_accepted (hvalid : tape.reading.Valid s) :
    s.taken.length + (accepted tape s input room).1 ≤ tape.bytes.length := by
  have hle : (s.taken ++ input.take (accepted tape s input room).1).length ≤ tape.bytes.length :=
    (taken_le hvalid.1).length_le
  rw [List.length_append, List.length_take, Nat.min_eq_left (accept_le_length _ _ _ _)] at hle
  exact hle

/-- A stream that is at its end has refused nothing. -/
theorem not_refused_of_taken
    (h : s.taken ++ input.take (accepted tape s input room).1 = tape.bytes) :
    (accepted tape s input room).2 = false := by
  apply Bool.eq_false_iff.mpr
  intro hrefused
  have hlt := accept_lt_of_refused hrefused
  have hlength := congrArg List.length h
  rw [List.length_append, List.length_take, Nat.min_eq_left (accept_le_length _ _ _ _), bytes,
    List.length_map] at hlength
  rw [List.length_drop] at hlt
  omega

/-- What a call answers, from the state that it leaves. -/
theorem response_eq (tape : Tape) (s : Position) (input : Bytes) (room : ℕ) :
    (tape.inflate s input room).response =
      if (accepted tape s input room).2 then .dataError
      else if (tape.inflate s input room).state.taken = tape.bytes ∧
          (tape.inflate s input room).state.written =
            tape.content (tape.inflate s input room).state.taken then
        if tape.asksDictionary then .needDict else .streamEnd
      else .ok := rfl

/-- At the end of the stream, with everything written, the call says so. -/
theorem response_of_end
    (htaken : (tape.inflate s input room).state.taken = tape.bytes)
    (hwritten : (tape.inflate s input room).state.written =
      tape.content (tape.inflate s input room).state.taken) :
    (tape.inflate s input room).response =
      if tape.asksDictionary then .needDict else .streamEnd := by
  have hrefused : (accepted tape s input room).2 = false := not_refused_of_taken htaken
  rw [response_eq, hrefused, if_neg Bool.false_ne_true, if_pos ⟨htaken, hwritten⟩]

/-- Every other answer is given elsewhere. -/
theorem end_of_response
    (h : (tape.inflate s input room).response = .needDict ∨
      (tape.inflate s input room).response = .streamEnd) :
    ((tape.inflate s input room).state.taken = tape.bytes ∧
      (tape.inflate s input room).state.written =
        tape.content (tape.inflate s input room).state.taken) ∧
    (tape.inflate s input room).response =
      if tape.asksDictionary then .needDict else .streamEnd := by
  rw [response_eq] at h ⊢
  split at h
  · simp at h
  · rename_i hrefused
    split at h
    · rename_i hend
      rw [if_neg hrefused, if_pos hend]
      exact ⟨hend, rfl⟩
    · simp at h

/-- Output that leaves room is all that is determined. -/
theorem written_of_roomLeft (hvalid : tape.reading.Valid s)
    (h : (tape.inflate s input room).produced.length < room) :
    (tape.inflate s input room).state.written =
      tape.content (tape.inflate s input room).state.taken := by
  have happend := written_append hvalid (input.take (accepted tape s input room).1)
  have hlength : ((tape.content (tape.inflate s input room).state.taken).drop
      s.written.length).length ≤ room := by
    have hproduced : (tape.inflate s input room).produced =
        ((tape.content (tape.inflate s input room).state.taken).drop
          s.written.length).take room := rfl
    rw [hproduced, List.length_take] at h
    omega
  exact (congrArg (s.written ++ ·) (List.take_of_length_le hlength)).trans happend

theorem written_le (hvalid : tape.reading.Valid s) :
    (tape.inflate s input room).state.written <+:
      tape.content (tape.inflate s input room).state.taken := by
  have happend := written_append hvalid (input.take (accepted tape s input room).1)
  have htake : s.written ++ (tape.inflate s input room).produced <+: _ :=
    (List.prefix_append_right_inj s.written).mpr (List.take_prefix _ _)
  rw [happend] at htake
  exact htake

/-- A call that takes nothing, refuses nothing and writes nothing is made at
the end of the stream. -/
theorem end_of_idle (hvalid : tape.reading.Valid s) (hinput : input ≠ []) (hroom : 0 < room)
    (hconsumed : (tape.inflate s input room).consumed = 0)
    (hproduced : (tape.inflate s input room).produced = [])
    (haccepted : (tape.inflate s input room).response ≠ .dataError) :
    (tape.inflate s input room).state.taken = tape.bytes ∧
      (tape.inflate s input room).state.written =
        tape.content (tape.inflate s input room).state.taken := by
  have hrefused : (accepted tape s input room).2 = false := by
    apply Bool.eq_false_iff.mpr
    intro hrefused
    exact haccepted ((response_eq tape s input room).trans (if_pos hrefused))
  have hsame : (tape.inflate s input room).state.taken = s.taken := by
    have htaken : (tape.inflate s input room).state.taken =
      s.taken ++ input.take (tape.inflate s input room).consumed := rfl
    rw [htaken, hconsumed, List.take_zero, List.append_nil]
  have hwritten := written_of_roomLeft hvalid
    (by rw [hproduced]; exact hroom : (tape.inflate s input room).produced.length < room)
  refine ⟨?_, hwritten⟩
  have hwrote : s.written = tape.content s.taken := by
    have hnone : (tape.inflate s input room).state.written =
      s.written ++ (tape.inflate s input room).produced := rfl
    rw [hproduced, List.append_nil] at hnone
    rw [← hnone, hwritten, hsame]
  have hpending : (tape.pending s).length = 0 := by
    rw [pending, ← hwrote, List.drop_length, List.length_nil]
  rw [hsame]
  rcases of_accept_zero hinput (Prod.ext hconsumed hrefused) with hcells | hfull
  · apply hvalid.1.eq_of_length_le
    rw [bytes, List.length_map]
    exact List.drop_eq_nil_iff.mp hcells
  · rw [hpending] at hfull
    exact absurd hfull (Nat.not_le.mpr hroom)

/-- A header that asks for a dictionary is taken to its end. -/
theorem taken_of_asks (hroom : 0 < room) (hasks : tape.asksDictionary = true) {k : ℕ}
    (h : s.taken ++ input.take k = tape.bytes) :
    (tape.inflate s input room).state.taken = tape.bytes := by
  have hcells : (tape.cells.drop s.taken.length).map Prod.fst = input.take k := by
    rw [List.map_drop]
    exact (congrArg (List.drop s.taken.length) h.symm).trans List.drop_left
  have hpending : (tape.pending s).length = 0 := by
    rw [pending, content_eq_nil hasks, List.drop_nil, List.length_nil]
  have haccepted : (accepted tape s input room).1 = (input.take k).length := by
    rw [accepted, hpending, accept_silent hroom
      (fun cell hcell => tape.silent hasks cell (List.mem_of_mem_drop hcell))
      (hcells ▸ List.take_prefix k input), ← hcells, List.length_map]
  have htaken : (tape.inflate s input room).state.taken =
    s.taken ++ input.take (accepted tape s input room).1 := rfl
  rw [htaken, haccepted, ← (List.prefix_iff_eq_take.mp (List.take_prefix k input)), h]

theorem lawful_inflate (hvalid : tape.reading.Valid s) (hinput : input ≠ []) (hroom : 0 < room) :
    LawfulReply tape.reading s input room (tape.inflate s input room) := by
  constructor
  case valid => exact ⟨taken_le hvalid.1, written_le hvalid⟩
  case consumed_le => exact accept_le_length _ _ _ _
  case produced_le => exact List.length_take_le _ _
  case taken => rfl
  case written => rfl
  case determined => exact written_le hvalid
  case response =>
    rw [response_eq]
    split
    · simp
    · split
      · split <;> simp
      · simp
  case progress =>
    intro hok
    by_contra hnone
    obtain ⟨hconsumed, hproduced⟩ := not_or.mp hnone
    obtain ⟨htaken, hwritten⟩ := end_of_idle hvalid hinput hroom
      (Nat.eq_zero_of_not_pos hconsumed) (not_not.mp hproduced) (by simp [hok])
    rw [response_of_end htaken hwritten] at hok
    split at hok <;> simp at hok
  case needDict =>
    constructor
    · intro hneed
      obtain ⟨hend, hresponse⟩ := end_of_response (Or.inl hneed)
      refine ⟨_, accept_le_length _ _ _ _, ?_, hend.1⟩
      by_contra hasks
      rw [if_neg hasks, hneed] at hresponse
      exact nomatch hresponse
    · rintro ⟨k, -, hasks, hbytes⟩
      have htaken : (tape.inflate s input room).state.taken = tape.bytes :=
        taken_of_asks hroom hasks hbytes
      have hwritten : (tape.inflate s input room).state.written <+: _ := written_le hvalid
      rw [content_eq_nil hasks] at hwritten
      have hnil : (tape.inflate s input room).state.written =
          tape.content (tape.inflate s input room).state.taken := by
        rw [content_eq_nil hasks]
        exact List.prefix_nil.mp hwritten
      rw [response_of_end htaken hnil, if_pos hasks]
  case roomLeft =>
    intro _ hlt
    exact written_of_roomLeft hvalid hlt
  case streamEnd =>
    intro hstreamEnd
    obtain ⟨hend, hresponse⟩ := end_of_response (Or.inr hstreamEnd)
    refine ⟨⟨?_, hend.1⟩, hend.2⟩
    by_contra hasks
    rw [if_pos (eq_true_of_ne_false hasks), hstreamEnd] at hresponse
    exact nomatch hresponse
  case notEnd =>
    rintro hnot ⟨⟨hasks, htaken⟩, hwritten⟩
    apply hnot
    rw [response_of_end htaken hwritten, hasks, if_neg Bool.false_ne_true]
  case withinStream =>
    rintro k hk ⟨-, hcomplete⟩
    have hlength : (s.taken ++ input.take k).length = _ := congrArg List.length hcomplete
    have hle : s.taken.length + (tape.inflate s input room).consumed ≤ tape.bytes.length :=
      length_accepted hvalid
    rw [List.length_append, List.length_take] at hlength
    omega

end Laws

/-- The library keeps to what is documented. -/
theorem laws (tape : Tape) : InflateLaws tape.library tape.reading where
  valid_init := ⟨List.nil_prefix, List.nil_prefix⟩
  taken_init := rfl
  written_init := rfl
  content_nil := rfl
  incomplete_nil := fun ⟨_, hnil⟩ => bytes_ne_nil hnil.symm
  call _ _ _ := lawful_inflate

theorem streamLaws (tape : Tape) : StreamLaws tape.library tape.reading where
  content_append x y := content_mono (List.prefix_append x y)
  complete_append := by
    rintro z y ⟨-, hz⟩ ⟨-, hzy⟩
    exact List.append_right_eq_self.mp (hzy.trans hz.symm)
  accepts := by
    rintro s tail input room - ⟨hasks, htail⟩ - - hagrees
    have hcells : (tape.cells.drop s.taken.length).map Prod.fst = tail := by
      rw [List.map_drop]
      exact (congrArg (List.drop s.taken.length) htail.symm).trans List.drop_left
    have hrefused : (accepted tape s input room).2 = false :=
      not_refused_of_agrees _ _ _ _ (hcells ▸ hagrees)
    change (tape.inflate s input room).response = _ ∨ (tape.inflate s input room).response = _
    rw [response_eq, hrefused, hasks, if_neg Bool.false_ne_true, if_neg Bool.false_ne_true]
    split
    · exact Or.inr rfl
    · exact Or.inl rfl

end Tape

end Telnetpp.Mccp.Zlib
