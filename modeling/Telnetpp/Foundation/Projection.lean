import Telnetpp.Foundation.Streams

/-!
# One of the conversations of a net

Two processes that talk about many things at once are watched talking about
one of them: the states are read through maps, and of the messages only some
are seen. What is seen of a net is then a net of the processes that talk about
nothing else.
-/

namespace Foundation

variable {ι κ ι' κ' A B σ τ : Type*}
variable {ι₁ κ₁ ι₁' κ₁' A₁ B₁ σ₁ τ₁ : Type*}

/-- What is seen of the process through `f`, `u` and `v` is the process `P₁`. An
input may be nothing to `P₁`, and a message that is not seen is nothing to it. -/
structure Process.Projects (P : Process ι κ A B σ) (P₁ : Process ι₁ κ₁ A₁ B₁ σ₁) (f : σ → σ₁)
    (u : A → Option A₁) (v : B → Option B₁) (I : σ → Prop) (QA : A → Prop) : Prop where
  act : ∀ i {s}, I s → (f (P.act i s).1 = f s ∧ (P.act i s).2.filterMap v = []) ∨
    ∃ i₁, P₁.act i₁ (f s) = (f (P.act i s).1, (P.act i s).2.filterMap v)
  unseen : ∀ k {a}, QA a → u a = none → ∀ {s}, I s →
    f (P.recv k a s).1 = f s ∧ (P.recv k a s).2.filterMap v = []
  seen : ∀ k {a a₁}, QA a → u a = some a₁ → ∀ {s}, I s →
    ∃ k₁, P₁.recv k₁ a₁ (f s) = (f (P.recv k a s).1, (P.recv k a s).2.filterMap v)

theorem Process.Projects.logged {P : Process ι κ A B σ} {P₁ : Process ι₁ κ₁ A₁ B₁ σ₁} {f : σ → σ₁}
    {u : A → Option A₁} {v : B → Option B₁} {I : σ → Prop} {QA : A → Prop}
    (h : P.Projects P₁ f u v I QA) {J : σ × List B → Prop} (hJ : ∀ s, J s → I s.1) :
    P.logged.Projects P₁ (fun s => f s.1) u v J QA where
  act i _ hs := h.act i (hJ _ hs)
  unseen k _ ha hu _ hs := h.unseen k ha hu (hJ _ hs)
  seen k _ _ ha hu _ hs := h.seen k ha hu (hJ _ hs)

/-- Keeping a log changes nothing about what a process keeps. -/
theorem Process.Keeps.beside {P : Process ι κ A B σ} {I : σ → Prop} {QA : A → Prop}
    {QB : B → Prop} (h : P.Keeps I QA QB) : P.logged.Keeps (fun s => I s.1) QA QB :=
  ⟨fun i _ hs => h.act i hs, fun k _ ha _ hs => h.recv k ha hs⟩

/-- The same event at a net that is seen from its other end. -/
def NetEvent.swap : NetEvent ι κ ι' κ' → NetEvent ι' κ' ι κ
  | .actLeft i => .actRight i
  | .actRight i => .actLeft i
  | .deliverLeft k => .deliverRight k
  | .deliverRight k => .deliverLeft k

/-- The event is an input of one of the ends. -/
def NetEvent.isAct : NetEvent ι κ ι' κ' → Bool
  | .actLeft _ | .actRight _ => true
  | _ => false

namespace Net

variable {P : Process ι κ A B σ} {Q : Process ι' κ' B A τ}
variable {P₁ : Process ι₁ κ₁ A₁ B₁ σ₁} {Q₁ : Process ι₁' κ₁' B₁ A₁ τ₁}
variable {f : σ → σ₁} {g : τ → τ₁} {u : A → Option A₁} {v : B → Option B₁}
variable {I : σ → Prop} {J : τ → Prop} {QA : A → Prop} {QB : B → Prop}

def project (f : σ → σ₁) (g : τ → τ₁) (u : A → Option A₁) (v : B → Option B₁)
    (n : Net A B σ τ) : Net A₁ B₁ σ₁ τ₁ :=
  ⟨f n.left, g n.right, n.toLeft.filterMap u, n.toRight.filterMap v⟩

theorem step_swap (n : Net A B σ τ) (e : NetEvent ι κ ι' κ') :
    n.swap.step Q P e.swap = (n.step P Q e).swap := by
  rcases n with ⟨l, r, as, bs⟩
  cases e with
  | actLeft i => rfl
  | actRight i => rfl
  | deliverLeft k => cases as <;> rfl
  | deliverRight k => cases bs <;> rfl

theorem Carries.swap {n : Net A B σ τ} (h : n.Carries I J QA QB) : n.swap.Carries J I QB QA :=
  ⟨h.right, h.left, h.toRight, h.toLeft⟩

theorem Carries.throughout (hP : P.Keeps I QA QB) (hQ : Q.Keeps J QB QA) {n : Net A B σ τ}
    (h : n.Carries I J QA QB) (es : List (NetEvent ι κ ι' κ')) :
    (run (Net.step P Q) n es).Carries I J QA QB :=
  run_invariant (R := Net.Carries I J QA QB) _ (fun _ e h => Carries.step hP hQ h e) h es

theorem Carries.project_actLeft (hP : P.Projects P₁ f u v I QA) {n : Net A B σ τ}
    (h : n.Carries I J QA QB) (i : ι) :
    (n.step P Q (.actLeft i)).project f g u v = n.project f g u v ∨
      ∃ i₁, (n.step P Q (.actLeft i)).project f g u v =
        (n.project f g u v).step P₁ Q₁ (.actLeft i₁) := by
  rcases hP.act i h.left with ⟨hstate, hsent⟩ | ⟨i₁, hact⟩
  · left
    simp [Net.step, project, hstate, hsent]
  · right
    refine ⟨i₁, ?_⟩
    simp [Net.step, project, hact]

theorem Carries.project_deliverLeft (hP : P.Projects P₁ f u v I QA) {n : Net A B σ τ}
    (h : n.Carries I J QA QB) (k : κ) :
    (n.step P Q (.deliverLeft k)).project f g u v = n.project f g u v ∨
      ∃ k₁, (n.step P Q (.deliverLeft k)).project f g u v =
        (n.project f g u v).step P₁ Q₁ (.deliverLeft k₁) := by
  rcases n with ⟨l, r, as, bs⟩
  cases as with
  | nil => exact Or.inl rfl
  | cons a as =>
      have ha : QA a := h.toLeft a (List.mem_cons_self ..)
      cases hu : u a with
      | none =>
          obtain ⟨hstate, hsent⟩ := hP.unseen k ha hu h.left
          left
          simp [Net.step, project, hu, hstate, hsent]
      | some a₁ =>
          obtain ⟨k₁, hrecv⟩ := hP.seen k ha hu h.left
          right
          refine ⟨k₁, ?_⟩
          simp [Net.step, project, hu, hrecv]

/-- What is seen of a step is nothing, or one step of the same kind. -/
theorem Carries.project_step (hP : P.Projects P₁ f u v I QA) (hQ : Q.Projects Q₁ g v u J QB)
    {n : Net A B σ τ} (h : n.Carries I J QA QB) (e : NetEvent ι κ ι' κ') :
    (n.step P Q e).project f g u v = n.project f g u v ∨
      ∃ e₁ : NetEvent ι₁ κ₁ ι₁' κ₁', e₁.isAct = e.isAct ∧
        (n.step P Q e).project f g u v = (n.project f g u v).step P₁ Q₁ e₁ := by
  -- an event at the right end is one at the left end of the net seen from there
  have hswap (e : NetEvent ι' κ' ι κ) (e₁ : NetEvent ι₁' κ₁' ι₁ κ₁)
      (he₁ : (n.swap.step Q P e).project g f v u = (n.swap.project g f v u).step Q₁ P₁ e₁) :
      (n.step P Q e.swap).project f g u v = (n.project f g u v).step P₁ Q₁ e₁.swap := by
    have hstep : n.step P Q e.swap = (n.swap.step Q P e).swap := step_swap n.swap e
    rw [hstep]
    exact (congrArg Net.swap he₁).trans (step_swap _ e₁).symm
  cases e with
  | actLeft i =>
      rcases h.project_actLeft hP i with hnothing | ⟨i₁, hi₁⟩
      · exact Or.inl hnothing
      · exact Or.inr ⟨.actLeft i₁, rfl, hi₁⟩
  | deliverLeft k =>
      rcases h.project_deliverLeft hP k with hnothing | ⟨k₁, hk₁⟩
      · exact Or.inl hnothing
      · exact Or.inr ⟨.deliverLeft k₁, rfl, hk₁⟩
  | actRight i =>
      rcases h.swap.project_actLeft hQ i with hnothing | ⟨i₁, hi₁⟩
      · exact Or.inl (congrArg Net.swap hnothing)
      · exact Or.inr ⟨.actRight i₁, rfl, hswap (.actLeft i) _ hi₁⟩
  | deliverRight k =>
      rcases h.swap.project_deliverLeft hQ k with hnothing | ⟨k₁, hk₁⟩
      · have hstep : n.step P Q (.deliverRight k) = (n.swap.step Q P (.deliverLeft k)).swap :=
          step_deliverRight_swap P Q n k
        rw [hstep]
        exact Or.inl (congrArg Net.swap hnothing)
      · exact Or.inr ⟨.deliverRight k₁, rfl, hswap (.deliverLeft k) _ hk₁⟩

/-- What is seen of a run is a run. -/
theorem Carries.project_run (hP : P.Projects P₁ f u v I QA) (hQ : Q.Projects Q₁ g v u J QB)
    (hI : P.Keeps I QA QB) (hJ : Q.Keeps J QB QA) {n : Net A B σ τ} (h : n.Carries I J QA QB)
    (es : List (NetEvent ι κ ι' κ')) :
    ∃ es₁, (run (Net.step P Q) n es).project f g u v =
      run (Net.step P₁ Q₁) (n.project f g u v) es₁ :=
  run_simulates (Net.step P Q) (Net.step P₁ Q₁) (project f g u v)
    (fun _ e h => Carries.step hI hJ h e)
    (fun _ e h => (Carries.project_step hP hQ h e).imp_right fun ⟨e₁, _, he₁⟩ => ⟨e₁, he₁⟩) h es

end Net

end Foundation
