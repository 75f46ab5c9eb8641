import Mathlib.Data.List.Basic
import Mathlib.Tactic.Common

/-!
# Loops that need not end

A loop is the iteration of a body that says, of each state, whether another
round follows. What it returns, the states that it visits, and the rules for
the two halves of its correctness: what every return satisfies, and that
there is one.
-/

namespace Foundation

inductive Round (σ ρ : Type*)
  | next (s : σ)
  | exit (r : ρ)

/-- What holds of the next state, or of the result. -/
def Round.All {σ ρ : Type*} (I : σ → Prop) (Q : ρ → Prop) : Round σ ρ → Prop
  | .next s => I s
  | .exit r => Q r

def Round.map {σ ρ σ' ρ' : Type*} (f : σ → σ') (g : ρ → ρ') : Round σ ρ → Round σ' ρ'
  | .next s => .next (f s)
  | .exit r => .exit (g r)

section Loop

variable {σ ρ : Type*} (body : σ → Round σ ρ)

/-- The loop, given up after `fuel` rounds. -/
def loop : ℕ → σ → Option ρ
  | 0, _ => none
  | fuel + 1, s =>
      match body s with
      | .next s' => loop fuel s'
      | .exit r => some r

def Returns (s : σ) (r : ρ) : Prop := ∃ fuel, loop body fuel s = some r

/-- `t` is the state before some round of the loop that starts at `s`. -/
inductive Visits : σ → σ → Prop
  | refl (s : σ) : Visits s s
  | next {s s' t : σ} (h : body s = .next s') (ht : Visits s' t) : Visits s t

variable {body} {s s' t : σ} {r r' : ρ}

theorem returns_of_next (h : body s = .next s') : Returns body s r ↔ Returns body s' r := by
  constructor
  · rintro ⟨fuel, hfuel⟩
    cases fuel with
    | zero => simp [loop] at hfuel
    | succ fuel =>
        rw [loop, h] at hfuel
        exact ⟨fuel, hfuel⟩
  · rintro ⟨fuel, hfuel⟩
    refine ⟨fuel + 1, ?_⟩
    rw [loop, h]
    exact hfuel

theorem returns_of_exit (h : body s = .exit r') : Returns body s r ↔ r = r' := by
  constructor
  · rintro ⟨fuel, hfuel⟩
    cases fuel with
    | zero => simp [loop] at hfuel
    | succ fuel =>
        rw [loop, h] at hfuel
        exact (Option.some.inj hfuel).symm
  · rintro rfl
    exact ⟨1, by rw [loop, h]⟩

theorem Visits.trans {u : σ} (h : Visits body s t) (h' : Visits body t u) : Visits body s u := by
  induction h with
  | refl => exact h'
  | next hnext _ ih => exact .next hnext (ih h')

theorem Visits.last (h : Visits body s t) : s = t ∨ ∃ u, Visits body s u ∧ body u = .next t := by
  induction h with
  | refl => exact Or.inl rfl
  | @next s₁ s₂ _ hnext _ ih =>
      rcases ih with rfl | ⟨u, hu, hlast⟩
      · exact Or.inr ⟨s₁, .refl s₁, hnext⟩
      · exact Or.inr ⟨u, .next hnext hu, hlast⟩

theorem returns_of_visits (h : Visits body s t) : Returns body s r ↔ Returns body t r := by
  induction h with
  | refl => rfl
  | next hnext _ ih => exact (returns_of_next hnext).trans ih

theorem Visits.invariant {I : σ → Prop} (hnext : ∀ s s', I s → body s = .next s' → I s')
    (h : Visits body s t) (hs : I s) : I t := by
  induction h with
  | refl => exact hs
  | next hbody _ ih => exact ih (hnext _ _ hs hbody)

/-- Every return is made in a state that the loop visits. -/
theorem Returns.visits (h : Returns body s r) : ∃ t, Visits body s t ∧ body t = .exit r := by
  obtain ⟨fuel, hfuel⟩ := h
  induction fuel generalizing s with
  | zero => simp [loop] at hfuel
  | succ fuel ih =>
      rw [loop] at hfuel
      cases hbody : body s with
      | next s' =>
          rw [hbody] at hfuel
          obtain ⟨t, ht, hexit⟩ := ih hfuel
          exact ⟨t, .next hbody ht, hexit⟩
      | exit r' =>
          rw [hbody] at hfuel
          exact ⟨s, .refl s, by rw [hbody, Option.some.inj hfuel]⟩

theorem Returns.unique (h : Returns body s r) (h' : Returns body s r') : r = r' := by
  obtain ⟨t, ht, hexit⟩ := h.visits
  exact ((returns_of_exit hexit).mp ((returns_of_visits ht).mp h')).symm

/-- What holds of every exit from an invariant holds of every return. -/
theorem Returns.satisfies {I : σ → Prop} {Q : ρ → Prop}
    (hnext : ∀ s s', I s → body s = .next s' → I s')
    (hexit : ∀ s r, I s → body s = .exit r → Q r) (h : Returns body s r) (hs : I s) : Q r := by
  obtain ⟨t, ht, hbody⟩ := h.visits
  exact hexit t r (ht.invariant hnext hs) hbody

theorem Returns.satisfies_of_all {I : σ → Prop} {Q : ρ → Prop}
    (hround : ∀ s, I s → (body s).All I Q) (h : Returns body s r) (hs : I s) : Q r := by
  refine h.satisfies ?_ ?_ hs
  · intro s s' hs hnext
    have hall := hround s hs
    rwa [hnext] at hall
  · intro s r hs hexit
    have hall := hround s hs
    rwa [hexit] at hall

/-- A loop whose every round is the image of a round of another one. -/
theorem Returns.map {σ' ρ' : Type*} {body' : σ' → Round σ' ρ'} {f : σ → σ'} {g : ρ → ρ'}
    (hround : ∀ s, (body s).map f g = body' (f s)) (h : Returns body s r) :
    Returns body' (f s) (g r) := by
  obtain ⟨fuel, hfuel⟩ := h
  induction fuel generalizing s with
  | zero => simp [loop] at hfuel
  | succ fuel ih =>
      rw [loop] at hfuel
      have hbody' := hround s
      cases hbody : body s with
      | next s' =>
          rw [hbody] at hfuel hbody'
          exact (returns_of_next hbody'.symm).mpr (ih hfuel)
      | exit r' =>
          rw [hbody] at hfuel hbody'
          exact (returns_of_exit hbody'.symm).mpr (congrArg g (Option.some.inj hfuel).symm)

/-- A loop whose rounds keep an invariant and decrease a measure returns. -/
theorem returns_of_measure {μ : Type*} [WellFoundedRelation μ] {I : σ → Prop} (m : σ → μ)
    (hnext : ∀ s s', I s → body s = .next s' → I s' ∧ WellFoundedRelation.rel (m s') (m s))
    {s : σ} (hs : I s) : ∃ r, Returns body s r := by
  have hwf : WellFounded fun x y : μ => WellFoundedRelation.rel x y := WellFoundedRelation.wf
  have hall : ∀ x s, m s = x → I s → ∃ r, Returns body s r := by
    intro x
    induction x using hwf.induction with
    | _ x ih =>
        rintro s rfl hs
        cases hbody : body s with
        | next s' =>
            obtain ⟨hs', hlt⟩ := hnext s s' hs hbody
            obtain ⟨r, hr⟩ := ih _ hlt s' rfl hs'
            exact ⟨r, (returns_of_next hbody).mpr hr⟩
        | exit r => exact ⟨r, (returns_of_exit hbody).mpr rfl⟩
  exact hall _ s rfl hs

end Loop

end Foundation
