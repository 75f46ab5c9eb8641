import Telnetpp.Foundation.Loop
import Telnetpp.Foundation.Run

/-!
# Enough fuel

What is computed with fuel settles if more of it makes no difference from some
amount on. A loop that returns settles, and so does whatever is put together
from parts that do.
-/

namespace Foundation

/-- From some amount of fuel on, this is the result. -/
def Settles {α : Type*} (f : ℕ → α) (x : α) : Prop :=
  ∃ enough, ∀ fuel, enough ≤ fuel → f fuel = x

section Loop

variable {σ ρ : Type*} {body : σ → Round σ ρ} {s : σ} {r : ρ}

theorem loop_of_le {fuel fuel' : ℕ} (h : loop body fuel s = some r) (hle : fuel ≤ fuel') :
    loop body fuel' s = some r := by
  induction fuel generalizing fuel' s with
  | zero => simp [loop] at h
  | succ fuel ih =>
      obtain ⟨fuel', rfl⟩ := Nat.exists_eq_add_of_lt hle
      rw [loop] at h ⊢
      cases hbody : body s with
      | next s' =>
          rw [hbody] at h
          exact ih h (Nat.le_add_right fuel fuel')
      | exit r' =>
          rw [hbody] at h
          exact h

end Loop

variable {α β σ ε : Type*}

theorem Settles.const (x : α) : Settles (fun _ => x) x := ⟨0, fun _ _ => rfl⟩

/-- What is made of a settled result settles if it does with that result. -/
theorem Settles.bind {f : ℕ → α} {g : ℕ → α → β} {x : α} {y : β} (hf : Settles f x)
    (hg : Settles (fun fuel => g fuel x) y) : Settles (fun fuel => g fuel (f fuel)) y := by
  obtain ⟨enough, hf⟩ := hf
  obtain ⟨enough', hg⟩ := hg
  refine ⟨max enough enough', ?_⟩
  intro fuel hle
  obtain ⟨henough, henough'⟩ := Nat.max_le.mp hle
  change g fuel (f fuel) = y
  rw [hf fuel henough]
  exact hg fuel henough'

/-- A run settles if its every step does, and keeps account of what the steps add. -/
theorem settles_run {γ : Type*} {step : ℕ → σ → ε → σ} {adds : ε → List γ}
    {P : ε → Prop} {I : List γ → σ → Prop}
    (hstep : ∀ {xs s e}, P e → I xs s → ∃ s', Settles (fun fuel => step fuel s e) s' ∧
      I (xs ++ adds e) s')
    {es : List ε} (hes : ∀ e ∈ es, P e) {xs : List γ} {s : σ} (hs : I xs s) :
    ∃ s', Settles (fun fuel => run (step fuel) s es) s' ∧ I (xs ++ es.flatMap adds) s' := by
  induction es generalizing xs s with
  | nil =>
      refine ⟨s, Settles.const s, ?_⟩
      rw [List.flatMap_nil, List.append_nil]
      exact hs
  | cons e es ih =>
      obtain ⟨he, hes⟩ := List.forall_mem_cons.mp hes
      obtain ⟨s₁, hfirst, hs₁⟩ := hstep he hs
      obtain ⟨s', hrest, hs'⟩ := ih hes hs₁
      refine ⟨s', hfirst.bind (g := fun fuel s => run (step fuel) s es) hrest, ?_⟩
      rw [List.flatMap_cons, ← List.append_assoc]
      exact hs'

end Foundation
