import Telnetpp.Mccp.Inflate

/-!
# Formats that are read byte by byte

A format is given by an automaton for its streams, which says of every byte
where it leads and what output it determines. An `inflate` that follows it
keeps to what is documented.
-/

namespace Telnetpp.Mccp.Zlib

/-- `next` has no answer to a byte that no stream goes on with. -/
structure Format (σ : Type) where
  start : σ
  next : σ → Byte → Option (σ × Bytes)
  ended : σ → Bool
  start_open : ended start = false
  next_of_ended : ∀ {s}, ended s = true → ∀ by_, next s by_ = none

namespace Format

variable {σ : Type}

/-- What has been read, and the output of it that has not been written. -/
structure Cursor (σ : Type) where
  state : σ
  pending : Bytes := []
  taken : Bytes := []
  written : Bytes := []

/-- How far input has been taken, and whether a byte of it was refused. -/
structure Advance (σ : Type) where
  count : ℕ
  state : σ
  pending : Bytes
  refused : Bool

section Definitions

variable (F : Format σ)

/-- Where the bytes lead, and the output that they determine. -/
def follow : σ → Bytes → Option (σ × Bytes)
  | s, [] => some (s, [])
  | s, by_ :: rest =>
      match F.next s by_ with
      | none => none
      | some (s', out) => (follow s' rest).map fun r => (r.1, out ++ r.2)

/-- The output of the bytes, as far as a stream goes on with them. -/
def output : σ → Bytes → Bytes
  | _, [] => []
  | s, by_ :: rest =>
      match F.next s by_ with
      | none => []
      | some (s', out) => out ++ output s' rest

/-- Input is taken while there is room for the output. -/
def accept (room : ℕ) : σ → Bytes → Bytes → Advance σ
  | s, pending, [] => ⟨0, s, pending, false⟩
  | s, pending, by_ :: rest =>
      if room ≤ pending.length ∨ F.ended s = true then ⟨0, s, pending, false⟩
      else
        match F.next s by_ with
        | none => ⟨0, s, pending, true⟩
        | some (s', out) =>
            let a := accept room s' (pending ++ out) rest
            { a with count := a.count + 1 }

def inflate (c : Cursor σ) (input : Bytes) (room : ℕ) : Reply (Cursor σ) :=
  let a := F.accept room c.state c.pending input
  let response : Response :=
    if a.refused then .dataError
    else if F.ended a.state = true ∧ a.pending.length ≤ room then .streamEnd
    else .ok
  ⟨response, a.count, a.pending.take room,
    ⟨a.state, a.pending.drop room, c.taken ++ input.take a.count,
      c.written ++ a.pending.take room⟩⟩

def library : Inflate (Cursor σ) := ⟨{ state := F.start }, F.inflate⟩

def reading : Reading (Cursor σ) where
  Valid c := F.follow F.start c.taken = some (c.state, c.written ++ c.pending)
  taken := Cursor.taken
  written := Cursor.written
  content := F.output F.start
  Complete x := ∃ s out, F.follow F.start x = some (s, out) ∧ F.ended s = true
  AsksDictionary _ := False

/-- What is taken of the input, from a state and with output pending. -/
structure Accepts (room : ℕ) (s : σ) (pending input : Bytes) (a : Advance σ) : Prop where
  count_le : a.count ≤ input.length
  followed : ∃ out, F.follow s (input.take a.count) = some (a.state, out) ∧
    a.pending = pending ++ out
  refused : a.refused = true → F.follow s input = none ∧ F.ended a.state = false
  stopped : a.refused = false → a.count < input.length →
    room ≤ a.pending.length ∨ F.ended a.state = true
  within : ∀ k < a.count, ∀ s' out, F.follow s (input.take k) = some (s', out) →
    F.ended s' = false

end Definitions

variable {F : Format σ} {s s' : σ} {x out : Bytes}

/-- A byte that determines no output. -/
theorem follow_silent {by_ : Byte} (hnext : F.next s by_ = some (s', [])) (rest : Bytes) :
    F.follow s (by_ :: rest) = F.follow s' rest := by
  simp [follow, hnext]

theorem follow_append (h : F.follow s x = some (s', out)) (y : Bytes) :
    F.follow s (x ++ y) = (F.follow s' y).map fun r => (r.1, out ++ r.2) := by
  induction x generalizing s out with
  | nil =>
      obtain ⟨rfl, rfl⟩ := Prod.mk.inj (Option.some.inj h)
      simp
  | cons by_ x ih =>
      rw [List.cons_append]
      cases hnext : F.next s by_ with
      | none => simp [follow, hnext] at h
      | some r =>
          obtain ⟨s₁, out₁⟩ := r
          simp only [follow, hnext, Option.map_eq_some_iff] at h ⊢
          obtain ⟨⟨s₂, out₂⟩, hrest, hsame⟩ := h
          obtain ⟨rfl, rfl⟩ := Prod.mk.inj hsame
          rw [ih hrest, Option.map_map]
          simp [Function.comp_def]

theorem follow_left (y : Bytes) (h : F.follow s (x ++ y) ≠ none) : F.follow s x ≠ none := by
  induction x generalizing s with
  | nil => simp [follow]
  | cons by_ x ih =>
      rw [List.cons_append] at h
      cases hnext : F.next s by_ with
      | none => simp [follow, hnext] at h
      | some r =>
          simp only [follow, hnext, ne_eq, Option.map_eq_none_iff] at h ⊢
          exact ih h

theorem output_of_follow (h : F.follow s x = some (s', out)) : F.output s x = out := by
  induction x generalizing s out with
  | nil => exact (Prod.mk.inj (Option.some.inj h)).2
  | cons by_ x ih =>
      cases hnext : F.next s by_ with
      | none => simp [follow, hnext] at h
      | some r =>
          simp only [follow, hnext, Option.map_eq_some_iff] at h
          obtain ⟨⟨s₂, out₂⟩, hrest, hsame⟩ := h
          obtain ⟨rfl, rfl⟩ := Prod.mk.inj hsame
          simp only [output, hnext]
          rw [ih hrest]

theorem output_append (F : Format σ) (s : σ) (x y : Bytes) :
    F.output s x <+: F.output s (x ++ y) := by
  induction x generalizing s with
  | nil => exact List.nil_prefix
  | cons by_ x ih =>
      rw [List.cons_append, output, output]
      cases F.next s by_ with
      | none => exact List.nil_prefix
      | some r => exact (List.prefix_append_right_inj r.2).mpr (ih r.1)

/-- A stream is over where it is complete. -/
theorem follow_of_ended (h : F.ended s = true) {y : Bytes} (hy : y ≠ []) : F.follow s y = none := by
  obtain ⟨by_, rest, rfl⟩ := List.exists_cons_of_ne_nil hy
  rw [follow, F.next_of_ended h]

theorem accepts (F : Format σ) (room : ℕ) (s : σ) (pending input : Bytes) :
    F.Accepts room s pending input (F.accept room s pending input) := by
  have hnone (s : σ) (pending input : Bytes)
      (hstop : input = [] ∨ room ≤ pending.length ∨ F.ended s = true) :
      F.Accepts room s pending input ⟨0, s, pending, false⟩ := by
    refine ⟨Nat.zero_le _, ⟨[], rfl, (List.append_nil _).symm⟩, nofun, ?_, fun k hk => ?_⟩
    · intro _ hlt
      exact hstop.resolve_left (List.ne_nil_of_length_pos hlt)
    · exact absurd hk (Nat.not_lt_zero k)
  induction input generalizing s pending with
  | nil => exact hnone s pending [] (Or.inl rfl)
  | cons by_ rest ih =>
      rw [accept]
      split
      · rename_i hstop
        exact hnone s pending _ (Or.inr hstop)
      · rename_i hgoes
        obtain ⟨-, hopen⟩ := not_or.mp hgoes
        rw [Bool.not_eq_true] at hopen
        cases hnext : F.next s by_ with
        | none =>
            refine ⟨Nat.zero_le _, ⟨[], rfl, (List.append_nil _).symm⟩, ?_, nofun, fun k hk => ?_⟩
            · intro _
              exact ⟨by rw [follow, hnext], hopen⟩
            · exact absurd hk (Nat.not_lt_zero k)
        | some r =>
            obtain ⟨s₁, out₁⟩ := r
            obtain ⟨hcount, ⟨out, hfollowed, hpending⟩, hrefused, hstopped, hwithin⟩ :=
              ih s₁ (pending ++ out₁)
            refine ⟨Nat.succ_le_succ hcount, ⟨out₁ ++ out, ?_, ?_⟩, ?_, ?_, ?_⟩
            · simp only [List.take_succ_cons, follow, hnext, hfollowed, Option.map_some]
            · rw [← List.append_assoc]
              exact hpending
            · intro h
              obtain ⟨hnone, hopen'⟩ := hrefused h
              refine ⟨?_, hopen'⟩
              simp only [follow, hnext, hnone, Option.map_none]
            · intro h hlt
              exact hstopped h (Nat.lt_of_succ_lt_succ hlt)
            · intro k hk s' out' hfollow
              cases k with
              | zero =>
                  obtain ⟨rfl, -⟩ := Prod.mk.inj (Option.some.inj hfollow)
                  exact hopen
              | succ k =>
                  simp only [List.take_succ_cons, follow, hnext, Option.map_eq_some_iff] at hfollow
                  obtain ⟨⟨s₂, out₂⟩, hrest, hsame⟩ := hfollow
                  obtain ⟨rfl, -⟩ := Prod.mk.inj hsame
                  exact hwithin k (Nat.lt_of_succ_lt_succ hk) _ _ hrest

/-! ## The contract -/

section Laws

variable {c : Cursor σ} {input : Bytes} {room : ℕ}

theorem valid_inflate (hvalid : F.reading.Valid c) :
    F.reading.Valid (F.inflate c input room).state := by
  obtain ⟨out, hfollowed, hpending⟩ := (F.accepts room c.state c.pending input).followed
  let a := F.accept room c.state c.pending input
  change F.follow F.start (c.taken ++ input.take a.count) =
    some (a.state, (c.written ++ a.pending.take room) ++ a.pending.drop room)
  rw [follow_append hvalid, hfollowed, List.append_assoc c.written, List.take_append_drop, hpending,
    ← List.append_assoc]
  rfl

theorem follow_of_valid (hvalid : F.reading.Valid c) (y : Bytes) :
    F.follow F.start (F.reading.taken c ++ y) =
      (F.follow c.state y).map fun r => (r.1, (c.written ++ c.pending) ++ r.2) :=
  follow_append hvalid y

/-- What is determined by what has been taken is what has been written, and what is pending. -/
theorem content_of_valid (hvalid : F.reading.Valid c) :
    F.reading.content (F.reading.taken c) = F.reading.written c ++ c.pending :=
  output_of_follow hvalid

theorem complete_iff_of_valid (hvalid : F.reading.Valid c) :
    F.reading.Complete (F.reading.taken c) ↔ F.ended c.state = true := by
  constructor
  · rintro ⟨s, out, hfollow, hended⟩
    obtain ⟨rfl, -⟩ := Prod.mk.inj (Option.some.inj (hfollow.symm.trans hvalid))
    exact hended
  · intro hended
    exact ⟨_, _, hvalid, hended⟩

theorem ended_iff_of_valid (hvalid : F.reading.Valid c) :
    F.reading.Ended c ↔ F.ended c.state = true ∧ c.pending = [] := by
  rw [Reading.Ended, complete_iff_of_valid hvalid, content_of_valid hvalid,
    List.self_eq_append_right]

theorem response_cases (F : Format σ) (c : Cursor σ) (input : Bytes) (room : ℕ) :
    let a := F.accept room c.state c.pending input
    (a.refused = true ∧ (F.inflate c input room).response = .dataError) ∨
      (a.refused = false ∧ (F.ended a.state = true ∧ a.pending.length ≤ room) ∧
        (F.inflate c input room).response = .streamEnd) ∨
      a.refused = false ∧ ¬ (F.ended a.state = true ∧ a.pending.length ≤ room) ∧
        (F.inflate c input room).response = .ok := by
  intro a
  have hresponse : (F.inflate c input room).response =
      if a.refused then .dataError
      else if F.ended a.state = true ∧ a.pending.length ≤ room then .streamEnd
      else .ok := rfl
  rw [hresponse]
  cases hrefused : a.refused with
  | true => exact Or.inl ⟨rfl, rfl⟩
  | false =>
      by_cases hend : F.ended a.state = true ∧ a.pending.length ≤ room
      · exact Or.inr (Or.inl ⟨rfl, hend, if_pos hend⟩)
      · exact Or.inr (Or.inr ⟨rfl, hend, if_neg hend⟩)

theorem lawful_inflate (hvalid : F.reading.Valid c) (hinput : input ≠ []) (hroom : 0 < room) :
    LawfulReply F.reading c input room (F.inflate c input room) := by
  have hvalid' : F.reading.Valid (F.inflate c input room).state := valid_inflate hvalid
  have hended := ended_iff_of_valid hvalid'
  obtain ⟨hcount, -, hrefused, hstopped, hwithin⟩ := F.accepts room c.state c.pending input
  have hresponse := F.response_cases c input room
  let a := F.accept room c.state c.pending input
  have hleft : (F.inflate c input room).state.pending = a.pending.drop room := rfl
  constructor
  case valid => exact hvalid'
  case consumed_le => exact hcount
  case produced_le => exact List.length_take_le _ _
  case taken => rfl
  case written => rfl
  case determined =>
    rw [content_of_valid hvalid']
    exact List.prefix_append _ _
  case response =>
    rcases hresponse with ⟨-, h⟩ | ⟨-, -, h⟩ | ⟨-, -, h⟩ <;> simp [h]
  case progress =>
    intro hok
    by_contra hnone
    obtain ⟨hconsumed, hproduced⟩ := not_or.mp hnone
    rcases hresponse with ⟨-, h⟩ | ⟨-, -, h⟩ | ⟨hkept, hopen, -⟩
    · exact nomatch hok.symm.trans h
    · exact nomatch hok.symm.trans h
    · have hempty : (F.accept room c.state c.pending input).pending = [] :=
        (List.take_eq_nil_iff.mp (not_not.mp hproduced)).resolve_left (Nat.ne_of_gt hroom)
      rw [hempty] at hstopped hopen
      have hlt : (F.accept room c.state c.pending input).count < input.length :=
        Nat.lt_of_le_of_lt (Nat.le_of_not_lt hconsumed) (List.length_pos_of_ne_nil hinput)
      rcases hstopped hkept hlt with hfull | hend
      · exact Nat.not_le.mpr hroom hfull
      · exact hopen ⟨hend, Nat.zero_le room⟩
  case needDict =>
    constructor
    · intro hneed
      rcases hresponse with ⟨-, h⟩ | ⟨-, -, h⟩ | ⟨-, -, h⟩ <;> exact nomatch hneed.symm.trans h
    · exact fun ⟨_, _, hasks⟩ => hasks.elim
  case roomLeft =>
    intro _ hlt
    have hshort : a.pending.length ≤ room := by
      have hproduced : (F.inflate c input room).produced = a.pending.take room := rfl
      rw [hproduced, List.length_take] at hlt
      omega
    rw [content_of_valid hvalid', hleft, List.drop_eq_nil_of_le hshort, List.append_nil]
  case streamEnd =>
    intro hend
    rcases hresponse with ⟨-, h⟩ | ⟨-, ⟨hover, hshort⟩, -⟩ | ⟨-, -, h⟩
    · exact nomatch hend.symm.trans h
    · exact hended.mpr ⟨hover, List.drop_eq_nil_of_le hshort⟩
    · exact nomatch hend.symm.trans h
  case notEnd =>
    intro hnot hend
    obtain ⟨hover, hall⟩ := hended.mp hend
    rcases hresponse with ⟨hbad, -⟩ | ⟨-, -, h⟩ | ⟨-, hopen, -⟩
    · exact absurd hover (Bool.eq_false_iff.mp (hrefused hbad).2)
    · exact hnot h
    · exact hopen ⟨hover, List.drop_eq_nil_iff.mp hall⟩
  case withinStream =>
    rintro k hk ⟨s, out, hfollow, hover⟩
    rw [follow_of_valid hvalid, Option.map_eq_some_iff] at hfollow
    obtain ⟨⟨s', out'⟩, hrest, hsame⟩ := hfollow
    obtain ⟨rfl, -⟩ := Prod.mk.inj hsame
    exact absurd hover (Bool.eq_false_iff.mp (hwithin k hk _ _ hrest))

end Laws

theorem laws (F : Format σ) : InflateLaws F.library F.reading where
  valid_init := rfl
  taken_init := rfl
  written_init := rfl
  content_nil := rfl
  incomplete_nil := by
    rintro ⟨s, out, hfollow, hended⟩
    obtain ⟨rfl, -⟩ := Prod.mk.inj (Option.some.inj hfollow)
    exact absurd hended (Bool.eq_false_iff.mp F.start_open)
  call _ _ _ := lawful_inflate

/-- Inside a complete stream a call goes on. -/
theorem response_of_complete {c : Cursor σ} {input later : Bytes} {room : ℕ}
    (hvalid : F.reading.Valid c) (hlater : later ≠ [])
    (hcomplete : F.reading.Complete (F.reading.taken c ++ input ++ later)) :
    (F.inflate c input room).response = .ok := by
  obtain ⟨s, out, hfollow, -⟩ := hcomplete
  obtain ⟨-, ⟨taken, hfollowed, -⟩, hrefused, -, -⟩ := F.accepts room c.state c.pending input
  have hgoes : F.follow c.state (input ++ later) ≠ none := by
    rw [List.append_assoc, follow_of_valid hvalid] at hfollow
    intro hnone
    rw [hnone] at hfollow
    exact nomatch hfollow
  rcases F.response_cases c input room with ⟨hbad, -⟩ | ⟨-, ⟨hover, -⟩, -⟩ | ⟨-, -, hok⟩
  · exact absurd (hrefused hbad).1 (follow_left later hgoes)
  · exfalso
    apply hgoes
    rw [← List.take_append_drop (F.accept room c.state c.pending input).count input,
      List.append_assoc, follow_append hfollowed,
      follow_of_ended hover (List.append_ne_nil_of_right_ne_nil _ hlater)]
    rfl
  · exact hok

end Format

end Telnetpp.Mccp.Zlib
