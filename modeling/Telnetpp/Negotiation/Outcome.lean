import Telnetpp.Foundation.Settling
import Telnetpp.Negotiation.Sending

/-!
# What becomes of a call

Two applications come to rest about an option as soon as each has been told what
the other one had to say. Called at rest, and called for nothing else until they
are at rest again, both ends of an option are then in the mode they were called for.
A call that comes while a negotiation is under way is lost, so no more can be said
when they are called for both modes.
-/

namespace Telnetpp

open Foundation ModeAgreement Endpoint

variable {α β κ κ' : Type}

/-- The call that asks for a mode. -/
def Call.asking (m : Bool) : Call := if m then .activate else .deactivate

/-- The input is not a call on the option for the other mode. -/
def AppInput.Favours (id : OptionId) (m : Bool) (i : AppInput α) : Prop :=
  i ≠ .call id (.asking !m)

theorem Call.favours_asking (id : OptionId) (m : Bool) :
    (AppInput.call id (.asking m) : AppInput α).Favours id m := by
  cases m <;> simp [AppInput.Favours, Call.asking]

/-- The atom does not ask the option for the other mode. -/
def OptionId.Favoured (id : OptionId) (m : Bool) (a : Atom) : Prop :=
  a.Sendable ∧ id.notice a ≠ some (.mode !m)

namespace Application

variable (A : Application α κ) (id : OptionId) (m : Bool) (own : Owned κ)

/-- The option is not in the other mode, and has not asked for it. -/
def Leans (m : Bool) (v : InternalState × List Notice) : Prop :=
  v.1 ≠ settledState (!m) ∧ .mode (!m) ∉ v.2

theorem leans_call (hid : id ∈ A.options) :
    Leans m (aspect id (A.input Outbox.writeAtoms (.call id (.asking m)) ⟨own, []⟩)) := by
  have hcall : A.input Outbox.writeAtoms (.call id (.asking m)) ⟨own, []⟩ =
      (A.option Outbox.writeAtoms id).call (.asking m) ⟨own, []⟩ := if_pos hid
  rw [hcall]
  have hstart : aspect id ⟨own, []⟩ = (own.state id, []) := rfl
  have hstate : (A.option Outbox.writeAtoms id).state ⟨own, []⟩ = own.state id := rfl
  cases m <;> cases hs : own.state id <;>
    simp [Leans, Call.asking, TelnetOption.call, TelnetOption.activate, TelnetOption.deactivate,
      hstate, hs, hstart, aspect_onStateChanged, aspect_setState, aspect_writePositive,
      aspect_writeNegative, settledState]

/-- An installed option does as it is asked. -/
theorem leans_negotiate :
    Leans m (aspect id ((A.option Outbox.writeAtoms id).negotiate (modeRequest id.half m)
      ⟨own, []⟩)) := by
  have hinstalled : stance true (own.state id) ≠ .refusing := by cases own.state id <;> decide
  obtain ⟨hmode, hsent⟩ := receive_quiet hinstalled m
  rw [A.aspect_negotiate id m own] at hmode hsent
  have hstate := (mode?_stance (fun h => absurd h.symm Bool.false_ne_true) m).mp hmode
  refine ⟨ne_of_eq_of_ne hstate ?_, hsent⟩
  cases m <;> decide

section Keeps

variable {A id m} {c : Prop} {w : Outbox (Owned κ) Atom} {b : Atom}

/-- What an option that leans to a mode writes does not ask its counterpart for the other. -/
theorem Leans.favoured (h : Leans m (aspect id w)) (hb : b ∈ w.written) (hsendable : b.Sendable) :
    id.peer.Favoured m b :=
  ⟨hsendable, fun hnotice => h.2 (List.mem_filterMap.mpr ⟨b, hb, hnotice⟩)⟩

theorem favoured_unseen (h : aspect id w = (own.state id, [])) (hb : b ∈ w.written)
    (hsendable : b.Sendable) : id.peer.Favoured m b := by
  refine ⟨hsendable, fun hnotice => ?_⟩
  have hmem : Notice.mode (!m) ∈ (aspect id w).2 := List.mem_filterMap.mpr ⟨b, hb, hnotice⟩
  rw [h] at hmem
  exact List.not_mem_nil hmem

/-- If the option is not in the other mode, it stays so. -/
theorem keeps_favoured (hid : id ∈ A.options) :
    (A.atoms.limit (AppInput.Favours id m)).Keeps
      (fun own => c → own.state id ≠ settledState (!m)) (id.Favoured m) (id.peer.Favoured m) where
  act := by
    rintro ⟨i, hi⟩ own hown
    by_cases hcall : i = .call id (.asking m)
    · subst hcall
      have hleans := A.leans_call id m own hid
      exact ⟨fun _ => hleans.1, fun b hb => hleans.favoured hb (A.frames.sent_act _ own b hb)⟩
    · have hunseen : aspect id (A.input Outbox.writeAtoms i ⟨own, []⟩) = (own.state id, []) := by
        refine A.aspect_input id own i ?_
        rintro call rfl
        cases m <;> cases call <;> simp_all [AppInput.Favours, Call.asking]
      refine ⟨fun hc => ne_of_eq_of_ne (congrArg Prod.fst hunseen) (hown hc), fun b hb => ?_⟩
      exact favoured_unseen own hunseen hb (A.frames.sent_act i own b hb)
  recv := by
    intro _ a ⟨ha, hfavoured⟩ own hown
    cases hnotice : id.notice a with
    | none =>
        have hunseen := A.aspect_receive id own ha hnotice
        refine ⟨fun hc => ne_of_eq_of_ne (congrArg Prod.fst hunseen) (hown hc), fun b hb => ?_⟩
        exact favoured_unseen own hunseen hb (A.frames.sent_recv a own b hb)
    | some notice =>
        obtain ⟨mode, rfl, rfl⟩ := OptionId.notice_eq_some hnotice
        obtain rfl : mode = m := by
          rw [hnotice] at hfavoured
          cases mode <;> cases m <;> simp_all
        have hleans := A.leans_negotiate id mode own
        rw [← A.receive_owned Outbox.writeAtoms ⟨own, []⟩ hid (id.owns_modeRequest mode)] at hleans
        exact ⟨fun _ => hleans.1, fun b hb => hleans.favoured hb (A.frames.sent_recv _ own b hb)⟩

end Keeps

end Application

namespace SessionNet

variable {A : Application α κ} {B : Application β κ'} {id : OptionId} {m : Bool}

/-! ## At rest -/

/-- Neither the option nor its counterpart is called. -/
def Uncalled (id : OptionId) (es : List (SessionEvent α β)) : Prop :=
  es.countP (NetEvent.isInput (AppInput.isCallOn id) (AppInput.isCallOn id.peer)) = 0

theorem Observed.rest {n : SessionNet κ κ'} {p : PeerNet} (h : Observed A B id n p)
    {es : List (SessionEvent α β)} (hes : Uncalled id es) :
    ∃ es₁ : List (NetEvent Unit Unit Unit Unit), es₁.countP NetEvent.isAct = 0 ∧
      Observed A B id (Foundation.run (step A B) n es) (Foundation.run quietStep p es₁) := by
  obtain ⟨es₁, hcount, hrun⟩ := h.run es
  have hnone : es.countP _ = 0 := hes
  exact ⟨es₁, Nat.le_zero.mp (hnone ▸ hcount), hrun⟩

/-- In every run of two applications, cut and interleaved in any way: from when all that
the one end had been sent about an option has been read, and then all that its counterpart had
been sent, and no call on either since, the outcome is settled until there is a call. The
counterpart is in the mode that has come out, and so is the option, or else the answer that
brings it there is all that is in flight between them. -/
theorem run_settles (A : Application α κ) (B : Application β κ') (x : κ) (y : κ')
    (es₁ es₂ : List (SessionEvent α β)) (id : OptionId)
    (htoLeft : noticesLeft id (run (step A B) (start x y) es₁) = []) (hes₂ : Uncalled id es₂)
    (htoRight : noticesRight id (run (step A B) (start x y) (es₁ ++ es₂)) = []) :
    ∃ mode, ∀ es₃ : List (SessionEvent α β), Uncalled id es₃ →
      let n := run (step A B) (start x y) (es₁ ++ es₂ ++ es₃)
      n.right.1.1.state id.peer = settledState mode ∧ noticesRight id n = [] ∧
        ((n.left.1.1.state id = settledState mode ∧ noticesLeft id n = []) ∨
          noticesLeft id n = [.mode mode]) := by
  obtain ⟨ps, -, h₁⟩ := (observed_start A B id x y).run es₁
  obtain ⟨ps₂, hps₂, h₂⟩ := h₁.rest hes₂
  simp only [run_append] at htoRight ⊢
  rw [h₁.toLeft] at htoLeft
  rw [h₂.toRight] at htoRight
  obtain ⟨mode, hclosing⟩ := h₁.agreed.closing_run htoLeft hps₂ htoRight
  refine ⟨mode, fun es₃ hes₃ => ?_⟩
  obtain ⟨ps₃, hps₃, h₃⟩ := h₂.rest hes₃
  have hend : Closing mode (run quietStep _ ps₃) := Net.run_deliveries
    (fun _ h => h.deliver_left) (fun _ h => h.deliver_right) hclosing hps₃
  rw [h₃.toLeft, h₃.toRight, ← h₃.left_mode]
  exact ⟨(h₃.right_mode mode).mp hend.2.1, hend.2.2, hend.outcome⟩

/-- A call, and a part of the request that it comes to. -/
def called : List (SessionEvent FreeElement FreeElement) :=
  [.actLeft (.call ⟨.client, 24⟩ .activate), .deliverRight 2]

/-- The rest of the request beside some data, and the answer. -/
def answered : List (SessionEvent FreeElement FreeElement) :=
  [.actLeft (.request (.text [104, 255])), .deliverRight 3, .deliverLeft 3]

theorem run_settles_answered :
    let A := Application.terminal [⟨.client, 24⟩]
    let B := Application.terminal [⟨.server, 24⟩]
    let n := run (step A B) (start [] []) (called ++ answered ++ [])
    ∃ mode, n.right.1.1.state (OptionId.peer ⟨.client, 24⟩) = settledState mode ∧
      noticesRight ⟨.client, 24⟩ n = [] ∧
      ((n.left.1.1.state ⟨.client, 24⟩ = settledState mode ∧ noticesLeft ⟨.client, 24⟩ n = []) ∨
        noticesLeft ⟨.client, 24⟩ n = [.mode mode]) :=
  have h := run_settles (Application.terminal [⟨.client, 24⟩])
    (Application.terminal [⟨.server, 24⟩]) [] [] called answered ⟨.client, 24⟩
    (by decide +kernel) rfl (by decide +kernel)
  h.imp fun _ hmode => hmode [] rfl

/-! ## Called for one mode -/

/-- Nothing asks either end for the other mode, and an end that has been called is not in it. -/
def Favours (id : OptionId) (m : Bool) (c d : Prop) (n : SessionNet κ κ') : Prop :=
  n.Carries (fun own => c → own.state id ≠ settledState (!m))
    (fun own => d → own.state id.peer ≠ settledState (!m)) (id.Favoured m) (id.peer.Favoured m)

section Favours

variable {n : SessionNet κ κ'} {c d : Prop}

theorem Observed.favours {p : PeerNet} (h : Observed A B id n p) (htoLeft : noticesLeft id n = [])
    (htoRight : noticesRight id n = []) : Favours id m False False n := by
  have hunseen {id : OptionId} {atoms : List Atom} (hbound : id.bound atoms = [])
      (hsendable : ∀ a ∈ atoms, a.Sendable) : ∀ a ∈ atoms, id.Favoured m a := by
    intro a ha
    have hnone : id.notice a = none := List.filterMap_eq_nil_iff.mp hbound a ha
    refine ⟨hsendable a ha, ?_⟩
    rw [hnone]
    exact (Option.some_ne_none _).symm
  exact ⟨False.elim, False.elim, hunseen htoLeft h.sendable.1, hunseen htoRight h.sendable.2⟩

variable (hleft : id ∈ A.options) (hright : id.peer ∈ B.options)

include hleft hright

theorem Favours.run_favours (h : Favours id m c d n) {p : PeerNet} (hobserved : Observed A B id n p)
    {es : List (SessionEvent α β)}
    (hes : ∀ e ∈ es, e.Meets (AppInput.Favours id m) (AppInput.Favours id.peer m)) :
    Favours id m c d (run (step A B) n es) := by
  obtain ⟨_, hreads, -⟩ := hobserved
  have hkeeps := B.keeps_favoured (m := m) (c := d) hright
  rw [id.peer_peer] at hkeeps
  exact Carries.run_keeps h hreads (A.keeps_favoured hleft) hkeeps hes

theorem Favours.step_favours (h : Favours id m False False n) {p : PeerNet}
    (hobserved : Observed A B id n p) {e : SessionEvent α β}
    (he : e.Meets (AppInput.Favours id m) (AppInput.Favours id.peer m))
    (hl : c → (step A B n e).left.1.1.state id ≠ settledState (!m))
    (hr : d → (step A B n e).right.1.1.state id.peer ≠ settledState (!m)) :
    Favours id m c d (step A B n e) := by
  have hnext : Favours id m False False (run (step A B) n [e]) :=
    h.run_favours hleft hright hobserved (List.forall_mem_singleton.mpr he)
  exact ⟨hl, hr, hnext.toLeft, hnext.toRight⟩

theorem Favours.call_left (h : Favours id m False False n) {p : PeerNet}
    (hobserved : Observed A B id n p) :
    Favours id m True False (step A B n (.actLeft (.call id (.asking m)))) := by
  refine h.step_favours hleft hright hobserved (Call.favours_asking id m) (fun _ => ?_) False.elim
  rcases n with ⟨⟨⟨own, p⟩, log⟩, r, toLeft, toRight⟩
  change (A.bytes.act (.call id (.asking m)) (own, p)).1.1.state id ≠ _
  rw [A.bytes_act]
  exact (A.leans_call id m own hleft).1

theorem Favours.call_right (h : Favours id m False False n) {p : PeerNet}
    (hobserved : Observed A B id n p) :
    Favours id m False True (step A B n (.actRight (.call id.peer (.asking m)))) := by
  refine h.step_favours hleft hright hobserved (Call.favours_asking id.peer m) False.elim
    fun _ => ?_
  rcases n with ⟨l, ⟨⟨own, p⟩, log⟩, toLeft, toRight⟩
  change (B.bytes.act (.call id.peer (.asking m)) (own, p)).1.1.state id.peer ≠ _
  rw [B.bytes_act]
  exact (B.leans_call id.peer m own hright).1

/-- An end that is called does not come into the other mode any more. -/
theorem Favours.run_called (h : Favours id m False False n) {p : PeerNet}
    (hobserved : Observed A B id n p) {es : List (SessionEvent α β)}
    (hes : ∀ e ∈ es, e.Meets (AppInput.Favours id m) (AppInput.Favours id.peer m))
    (hcalled : .actLeft (.call id (.asking m)) ∈ es ∨
      .actRight (.call id.peer (.asking m)) ∈ es) :
    ∃ c d : Prop, (c ∨ d) ∧ Favours id m c d (run (step A B) n es) := by
  have hsplit {c d : Prop} {e : SessionEvent α β} (he : e ∈ es)
      (hcall : ∀ {n : SessionNet κ κ'} {p : PeerNet}, Favours id m False False n →
        Observed A B id n p → Favours id m c d (step A B n e)) :
      Favours id m c d (run (step A B) n es) := by
    obtain ⟨before, after, rfl⟩ := List.append_of_mem he
    obtain ⟨hbefore, hafter⟩ := List.forall_mem_append.mp hes
    obtain ⟨p₁, -, hobserved₁⟩ := hobserved.run before
    obtain ⟨p₂, -, hobserved₂⟩ := hobserved₁.run [e]
    rw [run_append, run_cons]
    exact (hcall (h.run_favours hleft hright hobserved hbefore) hobserved₁).run_favours hleft
      hright hobserved₂ (List.forall_mem_cons.mp hafter).2
  rcases hcalled with hmem | hmem
  · exact ⟨True, False, Or.inl trivial, hsplit hmem fun h => h.call_left hleft hright⟩
  · exact ⟨False, True, Or.inr trivial, hsplit hmem fun h => h.call_right hleft hright⟩

end Favours

/-- In every run of two applications, cut and interleaved in any way: if no negotiation of an
option and its counterpart is in flight, and after that they are called for one mode alone,
once at least and at either end, then whenever none is in flight again both are in that mode. -/
theorem run_obeys (A : Application α κ) (B : Application β κ') (x : κ) (y : κ')
    (es₁ es₂ : List (SessionEvent α β)) (id : OptionId) (m : Bool) (hleft : id ∈ A.options)
    (hright : id.peer ∈ B.options)
    (htoLeft : noticesLeft id (run (step A B) (start x y) es₁) = [])
    (htoRight : noticesRight id (run (step A B) (start x y) es₁) = [])
    (hcalls : ∀ e ∈ es₂, e.Meets (AppInput.Favours id m) (AppInput.Favours id.peer m))
    (hcalled : .actLeft (.call id (.asking m)) ∈ es₂ ∨
      .actRight (.call id.peer (.asking m)) ∈ es₂) :
    let n := run (step A B) (start x y) (es₁ ++ es₂)
    noticesLeft id n = [] → noticesRight id n = [] →
      n.left.1.1.state id = settledState m ∧ n.right.1.1.state id.peer = settledState m := by
  intro n hl hr
  obtain ⟨ps, -, h₁⟩ := (observed_start A B id x y).run es₁
  obtain ⟨ps₂, -, h₂⟩ := h₁.run es₂
  rw [← run_append] at h₂
  obtain ⟨mode, hmode, hmode'⟩ := h₂.settled hl hr
  obtain ⟨c, d, hcd, hend⟩ :=
    (h₁.favours htoLeft htoRight).run_called hleft hright h₁ hcalls hcalled
  rw [← run_append] at hend
  have hne : mode ≠ !m := by
    rintro rfl
    exact hcd.elim (fun hc => hend.left hc hmode) fun hd => hend.right hd hmode'
  obtain rfl : mode = m := by simpa using hne
  exact ⟨hmode, hmode'⟩

/-- Two calls that cross. -/
def deactivated : List (SessionEvent FreeElement FreeElement) :=
  [.actRight (.call ⟨.server, 24⟩ .deactivate), .deliverLeft 1,
    .actLeft (.call ⟨.client, 24⟩ .deactivate), .deliverLeft 2, .deliverRight 4]

theorem run_obeys_deactivated :
    let A := Application.terminal [⟨.client, 24⟩]
    let B := Application.terminal [⟨.server, 24⟩]
    let n := run (step A B) (start [] []) (called ++ answered ++ deactivated)
    n.left.1.1.state ⟨.client, 24⟩ = settledState false ∧
      n.right.1.1.state (OptionId.peer ⟨.client, 24⟩) = settledState false :=
  have h := run_obeys (Application.terminal [⟨.client, 24⟩])
    (Application.terminal [⟨.server, 24⟩]) [] [] (called ++ answered) deactivated
    ⟨.client, 24⟩ false (by decide) (by decide) (by decide +kernel)
    (by decide +kernel) (by simp [deactivated, NetEvent.Meets, AppInput.Favours, Call.asking])
    (Or.inr (List.mem_cons_self ..))
  h (by decide +kernel) (by decide +kernel)

end SessionNet

end Telnetpp
