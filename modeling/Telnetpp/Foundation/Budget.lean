import Telnetpp.Foundation.Conduit
import Telnetpp.Foundation.ModeAgreement

/-!
# What the inputs of a run can cause

A potential that some of the events raise by a price, and no other event
raises, grows over a run by at most that price for each of them. The counts
survive refinement, so a bound that is proved of messages, or of one of
the conversations of a net, holds of the streams that carry it. Two ends that
keep agreeing on a mode send at most two messages for every request.
-/

namespace Foundation

section Runs

variable {σ τ ε ε' : Type*} {step : σ → ε → σ} {own : ε → Bool}

theorem run_potential {R : σ → Prop} {Φ : σ → ℕ} {price : ℕ}
    (hR : ∀ s e, R s → R (step s e))
    (hown : ∀ s e, R s → own e = true → Φ (step s e) ≤ Φ s + price)
    (hother : ∀ s e, R s → own e = false → Φ (step s e) ≤ Φ s)
    {s : σ} (hs : R s) (es : List ε) : Φ (run step s es) ≤ Φ s + price * es.countP own := by
  induction es generalizing s with
  | nil => simp
  | cons e es ih =>
      have hrest := ih (hR s e hs)
      cases he : own e with
      | false =>
          have hstep := hother s e hs he
          rw [run_cons, List.countP_cons_of_neg (by simp [he])]
          omega
      | true =>
          have hstep := hown s e hs he
          rw [run_cons, List.countP_cons_of_pos he, Nat.mul_succ]
          omega

/-- Matched step by step with runs that count no more events, a run is matched by
one that counts no more events. -/
theorem run_refines_counted (step : σ → ε → σ) (step' : τ → ε' → τ) (own : ε → Bool)
    (own' : ε' → Bool) {R : σ → τ → Prop}
    (hstep : ∀ s t e, R s t →
      ∃ es', es'.countP own' ≤ [e].countP own ∧ R (step s e) (run step' t es'))
    {s : σ} {t : τ} (h : R s t) (es : List ε) :
    ∃ es', es'.countP own' ≤ es.countP own ∧ R (run step s es) (run step' t es') := by
  induction es generalizing s t with
  | nil => exact ⟨[], Nat.le_refl _, h⟩
  | cons e es ih =>
      obtain ⟨fs, hcount, hfs⟩ := hstep s t e h
      obtain ⟨es', hcount', hes'⟩ := ih hfs
      refine ⟨fs ++ es', ?_, by rwa [run_cons, run_append]⟩
      rw [List.countP_append, ← List.singleton_append, List.countP_append]
      exact Nat.add_le_add hcount hcount'

end Runs

variable {ι κ ι' κ' A B σ τ : Type*}

/-- The event is one of some inputs of the ends. -/
def NetEvent.isInput (l : ι → Bool) (r : ι' → Bool) : NetEvent ι κ ι' κ' → Bool
  | .actLeft i => l i
  | .actRight i => r i
  | _ => false

/-! ## Streams -/

section Streams

variable {β σ' τ' : Type*}
variable {P' : Process ι Unit (List β) β σ'} {P : Process ι Unit A B σ}
variable {Q' : Process ι' Unit (List β) β τ'} {Q : Process ι' Unit B A τ}
variable {wireA : A → List β} {wireB : B → List β} {GoodA : A → Prop} {GoodB : B → Prop}
variable {ReadsA : σ' → List β → σ → List A → Prop} {ReadsB : τ' → List β → τ → List B → Prop}

theorem Net.run_step_widen {L : ι → Prop} {R : ι' → Prop} (P : Process ι κ A B σ)
    (Q : Process ι' κ' B A τ) (n : Net A B σ τ)
    (es : List (NetEvent {i // L i} κ {i // R i} κ')) :
    run (Net.step P Q) n (es.map NetEvent.widen) =
      run (Net.step (P.limit L) (Q.limit R)) n es := by
  induction es generalizing n with
  | nil => rfl
  | cons e es ih =>
      rw [List.map_cons, run_cons, ih, run_cons]
      cases e <;> rfl

/-- A delivery of symbols is some deliveries of messages. -/
theorem framed_delivery (hP : Frames P' P wireA wireB GoodA GoodB ReadsA)
    (hQ : Frames Q' Q wireB wireA GoodB GoodA ReadsB) {n' : Net β β σ' τ'} {n : Net A B σ τ}
    (h : Framed ReadsA ReadsB n' n) {e : NetEvent ι ℕ ι' ℕ}
    (he : e.Meets (fun _ => False) fun _ => False) (l : ι → Bool) (r : ι' → Bool) :
    ∃ es : List (NetEvent ι Unit ι' Unit), es.countP (NetEvent.isInput l r) = 0 ∧
      Framed ReadsA ReadsB (n'.streamStep P' Q' e) (run (Net.step P Q) n es) := by
  obtain ⟨es', hes'⟩ := NetEvent.exists_widen (List.forall_mem_singleton.mpr he)
  obtain ⟨es, hframed⟩ := framed_run hP.limit hQ.limit h es'
  rw [← Net.run_streamStep_widen, hes', run_cons, run_nil, ← Net.run_step_widen] at hframed
  refine ⟨es.map NetEvent.widen, List.countP_eq_zero.mpr ?_, hframed⟩
  intro e' he'
  obtain ⟨e₁, -, rfl⟩ := List.mem_map.mp he'
  cases e₁ with
  | actLeft i => exact i.property.elim
  | actRight i => exact i.property.elim
  | _ => simp [NetEvent.widen, NetEvent.isInput]

theorem framed_run_counted (hP : Frames P' P wireA wireB GoodA GoodB ReadsA)
    (hQ : Frames Q' Q wireB wireA GoodB GoodA ReadsB) {n' : Net β β σ' τ'} {n : Net A B σ τ}
    (h : Framed ReadsA ReadsB n' n) (l : ι → Bool) (r : ι' → Bool)
    (es : List (NetEvent ι ℕ ι' ℕ)) :
    ∃ es' : List (NetEvent ι Unit ι' Unit),
      es'.countP (NetEvent.isInput l r) ≤ es.countP (NetEvent.isInput l r) ∧
        Framed ReadsA ReadsB (run (Net.streamStep P' Q') n' es) (run (Net.step P Q) n es') := by
  refine run_refines_counted _ _ _ _ (R := Framed ReadsA ReadsB) ?_ h es
  rintro n' n e ⟨hl, hr⟩
  cases e with
  | actLeft i =>
      obtain ⟨hsent, hreads⟩ := hP.act i hl
      refine ⟨[.actLeft i], Nat.le_refl _, hreads, ?_⟩
      have hall := hQ.sendAll hr _ (hP.sent_act i n.left)
      rw [← hsent] at hall
      exact hall
  | actRight i =>
      obtain ⟨hsent, hreads⟩ := hQ.act i hr
      refine ⟨[.actRight i], Nat.le_refl _, ?_, hreads⟩
      have hall := hP.sendAll hl _ (hQ.sent_act i n.right)
      rw [← hsent] at hall
      exact hall
  | deliverLeft k =>
      obtain ⟨es, hes, hframed⟩ := framed_delivery hP hQ ⟨hl, hr⟩ (e := .deliverLeft k) trivial l r
      exact ⟨es, hes ▸ Nat.zero_le _, hframed⟩
  | deliverRight k =>
      obtain ⟨es, hes, hframed⟩ := framed_delivery hP hQ ⟨hl, hr⟩ (e := .deliverRight k) trivial l r
      exact ⟨es, hes ▸ Nat.zero_le _, hframed⟩

end Streams

/-! ## Conversations -/

section Conversations

variable {ι₁ κ₁ ι₁' κ₁' A₁ B₁ σ₁ τ₁ : Type*}
variable {P : Process ι κ A B σ} {Q : Process ι' κ' B A τ}
variable {P₁ : Process ι₁ κ₁ A₁ B₁ σ₁} {Q₁ : Process ι₁' κ₁' B₁ A₁ τ₁}
variable {f : σ → σ₁} {g : τ → τ₁} {u : A → Option A₁} {v : B → Option B₁}
variable {I : σ → Prop} {J : τ → Prop} {QA : A → Prop} {QB : B → Prop}

/-- The input is nothing to the conversation. -/
def Process.Ignores (P : Process ι κ A B σ) (f : σ → σ₁) (v : B → Option B₁) (I : σ → Prop)
    (i : ι) : Prop :=
  ∀ s, I s → f (P.act i s).1 = f s ∧ (P.act i s).2.filterMap v = []

/-- What is sent and seen is what the process of the conversation has sent. -/
theorem Process.Projects.both_logged (h : P.Projects P₁ f u v I QA) {J : σ × List B → Prop}
    (hJ : ∀ s, J s → I s.1) :
    P.logged.Projects P₁.logged (fun s => (f s.1, s.2.filterMap v)) u v J QA where
  act i s hs := by
    rcases h.act i (hJ s hs) with ⟨hstate, hsent⟩ | ⟨i₁, hact⟩
    · left
      simp [Process.logged, hstate, hsent]
    · right
      refine ⟨i₁, ?_⟩
      simp [Process.logged, hact]
  unseen k a ha hu s hs := by
    obtain ⟨hstate, hsent⟩ := h.unseen k ha hu (hJ s hs)
    simp [Process.logged, hstate, hsent]
  seen k a a₁ ha hu s hs := by
    obtain ⟨k₁, hrecv⟩ := h.seen k ha hu (hJ s hs)
    refine ⟨k₁, ?_⟩
    simp [Process.logged, hrecv]

theorem Process.Ignores.logged {i : ι} (h : P.Ignores f v I i) {J : σ × List B → Prop}
    (hJ : ∀ s, J s → I s.1) :
    P.logged.Ignores (fun s => (f s.1, s.2.filterMap v)) v J i := by
  intro s hs
  obtain ⟨hstate, hsent⟩ := h s.1 (hJ s hs)
  simp [Process.logged, hstate, hsent]

/-- A run of the conversation has at most as many inputs as are not ignored. -/
theorem Net.Carries.project_run_counted (hP : P.Projects P₁ f u v I QA)
    (hQ : Q.Projects Q₁ g v u J QB) (hI : P.Keeps I QA QB) (hJ : Q.Keeps J QB QA) {l : ι → Bool}
    {r : ι' → Bool} (hl : ∀ i, l i = false → P.Ignores f v I i)
    (hr : ∀ i, r i = false → Q.Ignores g u J i) {n : Net A B σ τ} (h : n.Carries I J QA QB)
    (es : List (NetEvent ι κ ι' κ')) :
    ∃ es₁ : List (NetEvent ι₁ κ₁ ι₁' κ₁'),
      es₁.countP NetEvent.isAct ≤ es.countP (NetEvent.isInput l r) ∧
        (run (Net.step P Q) n es).project f g u v =
          run (Net.step P₁ Q₁) (n.project f g u v) es₁ := by
  have hnothing {n : Net A B σ τ} {e : NetEvent ι κ ι' κ'} (h : n.Carries I J QA QB)
      (he : e.isAct = true) (hignored : e.isInput l r = false) :
      (n.step P Q e).project f g u v = n.project f g u v := by
    cases e with
    | actLeft i =>
        obtain ⟨hstate, hsent⟩ := hl i hignored _ h.left
        simp [Net.step, Net.project, hstate, hsent]
    | actRight i =>
        obtain ⟨hstate, hsent⟩ := hr i hignored _ h.right
        simp [Net.step, Net.project, hstate, hsent]
    | deliverLeft k => exact absurd he (by simp [NetEvent.isAct])
    | deliverRight k => exact absurd he (by simp [NetEvent.isAct])
  have hrun := run_refines_counted (Net.step P Q) (Net.step P₁ Q₁) (NetEvent.isInput l r)
    NetEvent.isAct
    (R := fun n n₁ => n.Carries I J QA QB ∧ n.project f g u v = n₁) ?_ ⟨h, rfl⟩ es
  · exact hrun.imp fun _ h => ⟨h.1, h.2.2⟩
  rintro n _ e ⟨hn, rfl⟩
  have hnext := hn.step hI hJ e
  rcases Net.Carries.project_step hP hQ hn e with hstep | ⟨e₁, hkind, hstep⟩
  · exact ⟨[], Nat.zero_le _, hnext, hstep⟩
  · by_cases hact : e.isAct = true ∧ e.isInput l r = false
    · exact ⟨[], Nat.zero_le _, hnext, hnothing hn hact.1 hact.2⟩
    · refine ⟨[e₁], ?_, hnext, hstep⟩
      rw [List.countP_singleton, List.countP_singleton, hkind]
      grind

end Conversations

/-! ## Two ends that agree -/

namespace ModeAgreement

/-- An end that never asks for another mode by itself. -/
def quietPeer : Process Unit Unit Notice Notice Stance where
  act := fun _ s => request s
  recv := fun _ => receive .quiet

abbrev quietStep (n : PeerNet) (e : NetEvent Unit Unit Unit Unit) : PeerNet :=
  n.step quietPeer quietPeer e

theorem Agreed.quiet_step {n : PeerNet} (h : Agreed n) (e : NetEvent Unit Unit Unit Unit) :
    Agreed (quietStep n e) := by
  cases e with
  | actLeft i => exact h.step (.actLeft i)
  | actRight i => exact h.step (.actRight i)
  | deliverLeft k => exact h.step (.deliverLeft .quiet)
  | deliverRight k => exact h.step (.deliverRight .quiet)

/-- How many of the messages in flight will be answered. -/
def owed (n : PeerNet) : ℕ :=
  n.toLeft.length - n.left.pending + (n.toRight.length - n.right.pending)

theorem owed_swap (n : PeerNet) : owed n.swap = owed n := Nat.add_comm _ _

theorem Agreed.request_owes {n : PeerNet} (h : Agreed n) :
    owed (quietStep n (.actLeft ())) + (request n.left).2.length ≤ owed n + 2 := by
  rcases n with ⟨l, r, a, b⟩
  cases l <;> cases r <;>
    simp only [Agreed, Stance.mode?, Net.step, quietPeer, request, owed, Stance.pending] at h ⊢ <;>
    grind

theorem Agreed.answer_owes {n : PeerNet} (h : Agreed n) {m : Notice} {ms : List Notice}
    (hm : n.toLeft = m :: ms) :
    owed (quietStep n (.deliverLeft ())) + (receive .quiet m n.left).2.length ≤ owed n := by
  rcases n with ⟨l, r, a, b⟩
  cases l <;> cases r <;> cases m <;>
    simp only [Agreed, Stance.mode?, Net.step, quietPeer, receive, owed, Stance.pending]
      at h hm ⊢ <;>
    grind

/-- Both ends beside what they have sent. -/
abbrev LoggedNet := Net Notice Notice (Stance × List Notice) (Stance × List Notice)

namespace LoggedNet

abbrev step (n : LoggedNet) (e : NetEvent Unit Unit Unit Unit) : LoggedNet :=
  Net.step quietPeer.logged quietPeer.logged n e

def peers (n : LoggedNet) : PeerNet := ⟨n.left.1, n.right.1, n.toLeft, n.toRight⟩

/-- What has been sent, and what will be sent in answer. -/
def due (n : LoggedNet) : ℕ := n.left.2.length + n.right.2.length + owed n.peers

theorem due_swap (n : LoggedNet) : due (Net.swap n) = due n := by
  have howed : owed (peers (Net.swap n)) = owed n.peers := owed_swap n.peers
  rw [due, due, howed]
  exact congrArg (· + _) (Nat.add_comm _ _)

theorem due_step_swap (n : LoggedNet) (e : NetEvent Unit Unit Unit Unit) :
    due (step (Net.swap n) e.swap) = due (n.step e) := by
  rw [step, Net.step_swap, due_swap]

theorem peers_step (n : LoggedNet) (e : NetEvent Unit Unit Unit Unit) :
    (n.step e).peers = quietStep n.peers e := by
  rcases n with ⟨l, r, as, bs⟩
  cases e with
  | actLeft i => rfl
  | actRight i => rfl
  | deliverLeft k => cases as <;> rfl
  | deliverRight k => cases bs <;> rfl

theorem due_actLeft {n : LoggedNet} (h : Agreed n.peers) :
    due (n.step (.actLeft ())) ≤ due n + 2 := by
  have howes := h.request_owes
  have hsent : (n.step (.actLeft ())).left.2 = n.left.2 ++ (request n.peers.left).2 := rfl
  have hright : (n.step (.actLeft ())).right.2 = n.right.2 := rfl
  rw [due, due, peers_step, hsent, hright, List.length_append]
  omega

theorem due_deliverLeft {n : LoggedNet} (h : Agreed n.peers) :
    due (n.step (.deliverLeft ())) ≤ due n := by
  rcases n with ⟨l, r, as, bs⟩
  cases as with
  | nil => exact Nat.le_refl _
  | cons m ms =>
      have howes : owed (quietStep ⟨l.1, r.1, m :: ms, bs⟩ (.deliverLeft ())) +
          (receive .quiet m l.1).2.length ≤ owed ⟨l.1, r.1, m :: ms, bs⟩ := h.answer_owes rfl
      have hsent : (step ⟨l, r, m :: ms, bs⟩ (.deliverLeft ())).left.2 =
          l.2 ++ (receive .quiet m l.1).2 := rfl
      have hright : (step ⟨l, r, m :: ms, bs⟩ (.deliverLeft ())).right.2 = r.2 := rfl
      rw [due, due, peers_step, hsent, hright, List.length_append]
      simp only [peers] at howes ⊢
      omega

/-- At most two messages are sent for every request. -/
theorem due_run {n : LoggedNet} (h : Agreed n.peers) (es : List (NetEvent Unit Unit Unit Unit)) :
    due (run step n es) ≤ due n + 2 * es.countP NetEvent.isAct := by
  refine run_potential (R := fun n => Agreed n.peers) ?_ ?_ ?_ h es
  · intro n e hn
    rw [peers_step]
    exact hn.quiet_step e
  · intro n e hn he
    cases e with
    | actLeft i => exact due_actLeft hn
    | actRight i =>
        rw [← due_step_swap, ← due_swap n]
        exact due_actLeft (n := Net.swap n) hn.swap
    | deliverLeft k => exact absurd he (by simp [NetEvent.isAct])
    | deliverRight k => exact absurd he (by simp [NetEvent.isAct])
  · intro n e hn he
    cases e with
    | actLeft i => exact absurd he (by simp [NetEvent.isAct])
    | actRight i => exact absurd he (by simp [NetEvent.isAct])
    | deliverLeft k => exact due_deliverLeft hn
    | deliverRight k =>
        rw [← due_step_swap, ← due_swap n]
        exact due_deliverLeft (n := Net.swap n) hn.swap

end LoggedNet

end ModeAgreement

end Foundation
