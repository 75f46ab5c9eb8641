import Telnetpp.Foundation.Budget

/-!
# Two ends that agree come to rest

Once nothing is on its way to one of two ends that keep agreeing on a mode, the
messages that are on their way to the other one settle the matter: it is answered
once at most. So when one link has been empty, and then the other one, all that
may be left in flight is an outcome that the first end still waits for.
-/

namespace Foundation

/-- What every delivery keeps, a run keeps in which there is no input. -/
theorem Net.run_deliveries {ι κ ι' κ' A B σ τ : Type*} {P : Process ι κ A B σ}
    {Q : Process ι' κ' B A τ} {R : Net A B σ τ → Prop}
    (hleft : ∀ {n} k, R n → R (n.step P Q (.deliverLeft k)))
    (hright : ∀ {n} k, R n → R (n.step P Q (.deliverRight k))) {n : Net A B σ τ} (h : R n)
    {es : List (NetEvent ι κ ι' κ')} (hes : es.countP NetEvent.isAct = 0) :
    R (run (Net.step P Q) n es) := by
  induction es generalizing n with
  | nil => exact h
  | cons e es ih =>
      obtain ⟨he, hes⟩ := List.forall_mem_cons.mp (List.countP_eq_zero.mp hes)
      refine ih ?_ (List.countP_eq_zero.mpr hes)
      cases e with
      | actLeft i => exact absurd rfl he
      | actRight i => exact absurd rfl he
      | deliverLeft k => exact hleft k h
      | deliverRight k => exact hright k h

namespace ModeAgreement

/-- An end that does not refuse does as it is asked, and asks for nothing else. -/
theorem receive_quiet {s : Stance} (hs : s ≠ .refusing) (m : Bool) :
    (receive .quiet (.mode m) s).1.mode? = some m ∧
      .mode (!m) ∉ (receive .quiet (.mode m) s).2 := by
  cases s <;> grind [receive, Stance.mode?]

/-- At most the outcome that the left end waits for is in flight, and the right end is in
that mode. -/
def Closing (m : Bool) (n : PeerNet) : Prop := Agreed n ∧ n.right.mode? = some m ∧ n.toRight = []

/-- No more than one answer will be sent. -/
def Turning (n : PeerNet) : Prop := (Agreed n ∧ n.toLeft = []) ∨ ∃ m, Closing m n

theorem Closing.deliver_left {m : Bool} {n : PeerNet} (h : Closing m n) :
    Closing m (quietStep n (.deliverLeft ())) := by
  refine ⟨h.1.quiet_step _, ?_⟩
  obtain ⟨hagreed, hright, htoRight⟩ := h
  rcases n with ⟨l, r, as, bs⟩
  cases as with
  | nil => exact ⟨hright, htoRight⟩
  | cons a as =>
      cases l <;> cases r <;>
        simp only [Agreed, Stance.mode?, Net.step, quietPeer, receive]
          at hagreed hright htoRight ⊢ <;>
        grind

theorem Closing.deliver_right {m : Bool} {n : PeerNet} (h : Closing m n) :
    Closing m (quietStep n (.deliverRight ())) := by
  have hnothing : quietStep n (.deliverRight ()) = n := by
    rcases n with ⟨l, r, as, bs⟩
    obtain rfl : bs = [] := h.2.2
    rfl
  rwa [hnothing]

theorem Turning.deliver_left {n : PeerNet} (h : Turning n) :
    Turning (quietStep n (.deliverLeft ())) := by
  rcases h with ⟨hagreed, htoLeft⟩ | hclosing
  · have hnothing : quietStep n (.deliverLeft ()) = n := by
      rcases n with ⟨l, r, as, bs⟩
      obtain rfl : as = [] := htoLeft
      rfl
    rw [hnothing]
    exact Or.inl ⟨hagreed, htoLeft⟩
  · exact Or.inr (hclosing.imp fun _ h => h.deliver_left)

/-- The right end answers only if it is the only one that is asked, and then it is settled. -/
theorem Turning.deliver_right {n : PeerNet} (h : Turning n) :
    Turning (quietStep n (.deliverRight ())) := by
  rcases h with ⟨hagreed, htoLeft⟩ | hclosing
  · by_cases hunanswered : (quietStep n (.deliverRight ())).toLeft = []
    · exact Or.inl ⟨hagreed.quiet_step _, hunanswered⟩
    · have hanswered : (quietStep n (.deliverRight ())).right.mode? ≠ none ∧
          (quietStep n (.deliverRight ())).toRight = [] := by
        rcases n with ⟨l, r, as, bs⟩
        cases bs with
        | nil => exact absurd htoLeft hunanswered
        | cons b bs =>
            cases l <;> cases r <;>
              simp only [Agreed, Stance.mode?, Net.step, quietPeer, receive]
                at hagreed htoLeft hunanswered ⊢ <;>
              grind
      obtain ⟨m, hm⟩ := Option.ne_none_iff_exists'.mp hanswered.1
      exact Or.inr ⟨m, hagreed.quiet_step _, hm, hanswered.2⟩
  · exact Or.inr (hclosing.imp fun _ h => h.deliver_right)

theorem Turning.closing {n : PeerNet} (h : Turning n) (htoRight : n.toRight = []) :
    ∃ m, Closing m n := by
  rcases h with ⟨hagreed, htoLeft⟩ | hclosing
  · obtain ⟨m, -, hm⟩ := hagreed.quiescent htoLeft htoRight
    exact ⟨m, hagreed, hm, htoRight⟩
  · exact hclosing

/-- After the one link has been empty, and then the other, the outcome is known. -/
theorem Agreed.closing_run {n : PeerNet} (h : Agreed n) (htoLeft : n.toLeft = [])
    {es : List (NetEvent Unit Unit Unit Unit)} (hes : es.countP NetEvent.isAct = 0)
    (htoRight : (run quietStep n es).toRight = []) : ∃ m, Closing m (run quietStep n es) :=
  Turning.closing (Net.run_deliveries (fun _ h => h.deliver_left) (fun _ h => h.deliver_right)
    (Or.inl ⟨h, htoLeft⟩) hes) htoRight

/-- The left end is in that mode too, or about to be. -/
theorem Closing.outcome {m : Bool} {n : PeerNet} (h : Closing m n) :
    (n.left.mode? = some m ∧ n.toLeft = []) ∨ n.toLeft = [.mode m] := by
  obtain ⟨hagreed, hright, htoRight⟩ := h
  rcases n with ⟨l, r, as, bs⟩
  cases l <;> cases r <;> simp only [Agreed, Stance.mode?] at hagreed hright htoRight ⊢ <;> grind

end ModeAgreement
end Foundation
