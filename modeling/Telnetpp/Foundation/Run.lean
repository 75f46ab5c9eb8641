import Mathlib.Data.List.Basic
import Mathlib.Logic.Function.Iterate
import Mathlib.Tactic.Common

/-!
# Runs of a step function

A run is a left fold of a step function over a list of events. The rules
below are the ones a safety argument uses: invariants, invariants of the
runs whose steps all meet a guard, functional simulation, and, for a step
relation, finiteness of all runs.
-/

namespace Foundation

section Runs

variable {σ τ ε ε' : Type*} (step : σ → ε → σ) (step' : τ → ε' → τ)

def run (s : σ) (es : List ε) : σ := es.foldl step s

@[simp] theorem run_nil (s : σ) : run step s [] = s := rfl

@[simp] theorem run_cons (s : σ) (e : ε) (es : List ε) :
    run step s (e :: es) = run step (step s e) es := rfl

@[simp] theorem run_append (s : σ) (es fs : List ε) :
    run step s (es ++ fs) = run step (run step s es) fs := List.foldl_append

theorem run_invariant {R : σ → Prop} (hstep : ∀ s e, R s → R (step s e))
    {s : σ} (hs : R s) (es : List ε) : R (run step s es) := by
  induction es generalizing s with
  | nil => exact hs
  | cons e es ih => exact ih (hstep s e hs)

/-- Every step of the run meets the guard in the state it is taken from. -/
def Along (guard : σ → ε → Prop) : σ → List ε → Prop
  | _, [] => True
  | s, e :: es => guard s e ∧ Along guard (step s e) es

instance Along.decidable {guard : σ → ε → Prop} [∀ s e, Decidable (guard s e)] (s : σ) :
    ∀ es, Decidable (Along step guard s es)
  | [] => isTrue trivial
  | e :: es => @instDecidableAnd _ _ _ (Along.decidable (step s e) es)

theorem run_invariant_along {R : σ → Prop} {guard : σ → ε → Prop}
    (hstep : ∀ s e, R s → guard s e → R (step s e))
    {s : σ} (hs : R s) {es : List ε} (hes : Along step guard s es) : R (run step s es) := by
  induction es generalizing s with
  | nil => exact hs
  | cons e es ih => exact ih (hstep s e hs hes.1) hes.2

/-- Guards that agree in the states with an invariant are met by the same runs. -/
theorem along_congr {R : σ → Prop} {guard guard' : σ → ε → Prop}
    (hstep : ∀ s e, R s → R (step s e)) (hguard : ∀ s e, R s → (guard s e ↔ guard' s e))
    {s : σ} (hs : R s) (es : List ε) : Along step guard s es ↔ Along step guard' s es := by
  induction es generalizing s with
  | nil => rfl
  | cons e es ih => exact and_congr (hguard s e hs) (ih (hstep s e hs))

/-- A function that maps each step from a state with the invariant to no step
or to one step of another system maps runs to runs. -/
theorem run_simulates {R : σ → Prop} (f : σ → τ) (hR : ∀ s e, R s → R (step s e))
    (hstep : ∀ s e, R s → f (step s e) = f s ∨ ∃ e', f (step s e) = step' (f s) e')
    {s : σ} (hs : R s) (es : List ε) : ∃ es', f (run step s es) = run step' (f s) es' := by
  induction es generalizing s with
  | nil => exact ⟨[], rfl⟩
  | cons e es ih =>
      obtain ⟨es', hes'⟩ := ih (hR s e hs)
      rcases hstep s e hs with h | ⟨e', h⟩
      · exact ⟨es', by rw [run_cons, hes', h]⟩
      · exact ⟨e' :: es', by rw [run_cons, hes', h, run_cons]⟩

/-- A view that changes only by the events of its own, and by these in its own
terms, is after a run what the events of its own make of it. -/
theorem run_view {R : σ → Prop} {own : ε → Bool} (view : σ → τ) (stepView : τ → ε → τ)
    (hR : ∀ s e, R s → R (step s e))
    (hown : ∀ s e, R s → own e = true → view (step s e) = stepView (view s) e)
    (hother : ∀ s e, R s → own e = false → view (step s e) = view s)
    {s : σ} (hs : R s) (es : List ε) :
    view (run step s es) = run stepView (view s) (es.filter own) := by
  induction es generalizing s with
  | nil => rfl
  | cons e es ih =>
      rw [run_cons, ih (hR s e hs)]
      cases he : own e with
      | false => rw [List.filter_cons_of_neg (by simp [he]), hother s e hs he]
      | true => rw [List.filter_cons_of_pos he, run_cons, hown s e hs he]

/-- A relation under which each step is matched by a run of another system
matches every run by a run. -/
theorem run_refines {R : σ → τ → Prop}
    (hstep : ∀ s t e, R s t → ∃ es', R (step s e) (run step' t es'))
    {s : σ} {t : τ} (h : R s t) (es : List ε) : ∃ es', R (run step s es) (run step' t es') := by
  induction es generalizing s t with
  | nil => exact ⟨[], h⟩
  | cons e es ih =>
      obtain ⟨fs, hfs⟩ := hstep s t e h
      obtain ⟨es', hes'⟩ := ih hfs
      exact ⟨fs ++ es', by rwa [run_cons, run_append]⟩

/-- A machine that can fault completes a run exactly when every event is
admitted, if it faults exactly on the events that are not. -/
theorem foldlM_ok_iff_along {ε' : Type*} {f : τ → ε → Except ε' τ} {guard : σ → ε → Prop}
    {R : τ → σ → Prop}
    (hok : ∀ t s e, R t s → guard s e → ∃ t', f t e = .ok t' ∧ R t' (step s e))
    (hfault : ∀ t s e, R t s → ¬ guard s e → ∃ fault, f t e = .error fault)
    {t : τ} {s : σ} (h : R t s) (es : List ε) :
    (∃ t', es.foldlM f t = .ok t') ↔ Along step guard s es := by
  induction es generalizing t s with
  | nil => exact ⟨fun _ => trivial, fun _ => ⟨t, rfl⟩⟩
  | cons e es ih =>
      simp only [List.foldlM_cons, Along]
      by_cases hguard : guard s e
      · obtain ⟨t', ht', hR⟩ := hok t s e h hguard
        simp only [ht', hguard, true_and]
        exact ih hR
      · obtain ⟨fault, hf⟩ := hfault t s e h hguard
        simp only [hf, hguard, false_and, iff_false]
        rintro ⟨t', ht'⟩
        simp [bind, Except.bind] at ht'

end Runs

section Faults

variable {ε α β φ : Type*}

theorem except_map_eq_ok {x : Except φ α} {f : α → β} {b : β} :
    x.map f = .ok b ↔ ∃ a, x = .ok a ∧ f a = b := by
  cases x <;> simp [Except.map]

theorem except_map_eq_error {x : Except φ α} {f : α → β} {fault : φ} :
    x.map f = .error fault ↔ x = .error fault := by
  cases x <;> simp [Except.map]

/-- A run faults as one of its steps does. -/
theorem foldlM_error {f : α → ε → Except φ α} {P : φ → Prop}
    (hstep : ∀ a e fault, f a e = .error fault → P fault)
    {a : α} {es : List ε} {fault : φ} (h : es.foldlM f a = .error fault) : P fault := by
  induction es generalizing a with
  | nil => simp [pure, Except.pure] at h
  | cons e es ih =>
      rw [List.foldlM_cons] at h
      cases hfold : f a e with
      | error fault' =>
          rw [hfold] at h
          exact hstep a e fault (hfold.trans h)
      | ok a' =>
          rw [hfold] at h
          exact ih h

end Faults

section Since

variable {ε : Type*} {P : List ε → ε → Prop} {Q : ε → Prop}

/-- At some event, with the events before it, `P` held, and every event since
then has satisfied `Q`. -/
def Since (P : List ε → ε → Prop) (Q : ε → Prop) (es : List ε) : Prop :=
  ∃ before e after, es = before ++ e :: after ∧ P before e ∧ ∀ f ∈ after, Q f

theorem not_since_nil : ¬ Since P Q [] := by
  rintro ⟨before, e, after, hes, -, -⟩
  simp at hes

theorem since_append_singleton {es : List ε} {e : ε} :
    Since P Q (es ++ [e]) ↔ P es e ∨ Q e ∧ Since P Q es := by
  constructor
  · rintro ⟨before, f, after, hes, hf, hafter⟩
    rcases List.eq_nil_or_concat after with rfl | ⟨after, last, rfl⟩
    · obtain ⟨rfl, hef⟩ := List.append_inj' hes rfl
      obtain rfl := List.singleton_inj.mp hef
      exact Or.inl hf
    · rw [List.concat_eq_append, ← List.cons_append, ← List.append_assoc] at hes
      obtain ⟨rfl, hlast⟩ := List.append_inj' hes rfl
      obtain rfl := List.singleton_inj.mp hlast
      rw [List.concat_eq_append, List.forall_mem_append, List.forall_mem_singleton] at hafter
      exact Or.inr ⟨hafter.2, before, f, after, rfl, hf, hafter.1⟩
  · rintro (hP | ⟨hQ, before, f, after, rfl, hf, hafter⟩)
    · exact ⟨es, e, [], rfl, hP, by simp⟩
    · refine ⟨before, f, after ++ [e], by simp, hf, ?_⟩
      exact List.forall_mem_append.mpr ⟨hafter, List.forall_mem_singleton.mpr hQ⟩

end Since

section Halting

variable {σ τ : Type*}

/-- No infinite run of the relation starts at `s`. -/
def Halts (R : σ → σ → Prop) (s : σ) : Prop :=
  ¬ ∃ f : ℕ → σ, f 0 = s ∧ ∀ i, R (f i) (f (i + 1))

theorem halts_of_measure {R : σ → σ → Prop} {I : σ → Prop} (μ : σ → ℕ)
    (hstep : ∀ s t, I s → R s t → I t ∧ μ t < μ s) {s : σ} (hs : I s) :
    Halts R s := by
  rintro ⟨f, rfl, hf⟩
  have hI : ∀ i, I (f i) := by
    intro i
    induction i with
    | zero => exact hs
    | succ i ih => exact (hstep _ _ ih (hf i)).1
  have hμ : ∀ i, μ (f i) + i ≤ μ (f 0) := by
    intro i
    induction i with
    | zero => exact Nat.le_refl _
    | succ i ih =>
        have := (hstep _ _ (hI i) (hf i)).2
        omega
  have := hμ (μ (f 0) + 1)
  omega

theorem not_halts_of_progress {R : σ → σ → Prop} {I : σ → Prop}
    (hstep : ∀ s, I s → ∃ t, R s t ∧ I t) {s : σ} (hs : I s) : ¬ Halts R s := by
  choose! next hnext using hstep
  have hI : ∀ i, I (next^[i] s) := by
    intro i
    induction i with
    | zero => exact hs
    | succ i ih =>
        rw [Function.iterate_succ_apply']
        exact (hnext _ ih).2
  intro hhalts
  refine hhalts ⟨fun i => next^[i] s, rfl, ?_⟩
  intro i
  simp only [Function.iterate_succ_apply']
  exact (hnext _ (hI i)).1

/-- A functional bisimulation between the states with an invariant and those
of another system preserves and reflects the finiteness of runs. -/
theorem halts_map_iff {R : σ → σ → Prop} {R' : τ → τ → Prop} {I : σ → Prop} (f : σ → τ)
    (hinv : ∀ s t, I s → R s t → I t)
    (hforth : ∀ s t, I s → R s t → R' (f s) (f t))
    (hback : ∀ s t', I s → R' (f s) t' → ∃ t, R s t ∧ f t = t') {s : σ} (hs : I s) :
    Halts R s ↔ Halts R' (f s) := by
  constructor
  · rintro h ⟨g, hg, hR⟩
    have hprogress : ∀ u, (I u ∧ ∃ i, f u = g i) → ∃ v, R u v ∧ (I v ∧ ∃ i, f v = g i) := by
      rintro u ⟨hu, i, hi⟩
      obtain ⟨v, huv, hv⟩ := hback u (g (i + 1)) hu (hi ▸ hR i)
      exact ⟨v, huv, hinv u v hu huv, i + 1, hv⟩
    exact not_halts_of_progress hprogress ⟨hs, 0, hg.symm⟩ h
  · rintro h ⟨g, hg, hR⟩
    have hI : ∀ i, I (g i) := by
      intro i
      induction i with
      | zero => exact hg ▸ hs
      | succ i ih => exact hinv _ _ ih (hR i)
    exact h ⟨fun i => f (g i), congrArg f hg, fun i => hforth _ _ (hI i) (hR i)⟩

end Halting

end Foundation
