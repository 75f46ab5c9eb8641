import Mathlib.Data.List.Basic

/-!
# Runs between separators

`Runs sep data names` says what the maximal runs without the separator are;
`List.splitOn` computes them, up to the empty pieces.
-/

namespace Foundation

variable {α : Type*}

/-- The maximal non-empty runs of `data` that have no `sep`, in order. -/
inductive Runs (sep : α) : List α → List (List α) → Prop
  | nil : Runs sep [] []
  | sep {data : List α} {names : List (List α)} (h : Runs sep data names) :
      Runs sep (sep :: data) names
  | run {run data : List α} {names : List (List α)} (hne : run ≠ []) (hrun : sep ∉ run)
      (hend : data = [] ∨ data.head? = some sep) (h : Runs sep data names) :
      Runs sep (run ++ data) (run :: names)

theorem Runs.replicate {sep : α} {data : List α} {names : List (List α)}
    (h : Runs sep data names) (k : ℕ) : Runs sep (List.replicate k sep ++ data) names := by
  induction k with
  | zero => exact h
  | succ k ih => exact .sep ih

/-! ## Computing them -/

/-- The runs of a run and what is behind it. -/
def cutRun (run : List α) (names : List (List α)) : List (List α) :=
  if run = [] then names else run :: names

theorem filter_cons_eq_cutRun (run : List α) (pieces : List (List α)) :
    (run :: pieces).filter (· ≠ []) = cutRun run (pieces.filter (· ≠ [])) := by
  by_cases h : run = [] <;> simp [cutRun, h]

section Compute

variable [DecidableEq α]

def runs (sep : α) (data : List α) : List (List α) := (data.splitOn sep).filter (· ≠ [])

theorem runs_of_not_mem {sep : α} {run : List α} (h : sep ∉ run) :
    runs sep run = cutRun run [] := by
  rw [runs, List.splitOn_eq_singleton h, filter_cons_eq_cutRun, List.filter_nil]

theorem runs_append_cons {sep : α} {run : List α} (h : sep ∉ run) (data : List α) :
    runs sep (run ++ sep :: data) = cutRun run (runs sep data) := by
  rw [runs, List.splitOn_append_cons_self_of_not_mem h, filter_cons_eq_cutRun, runs]

theorem runs_cons_self (sep : α) (data : List α) : runs sep (sep :: data) = runs sep data :=
  runs_append_cons List.not_mem_nil data

/-- A run that is not over yet may be read into `cut` before the rest. -/
theorem runs_of_cut {sep : α} {cut : List α} (hcut : sep ∉ cut) (data : List α) :
    Runs sep (cut ++ data) (runs sep (cut ++ data)) := by
  induction data generalizing cut with
  | nil =>
      rw [List.append_nil, runs_of_not_mem hcut, cutRun]
      split
      next h => exact h ▸ .nil
      next h => simpa using Runs.run h hcut (.inl rfl) .nil
  | cons b data ih =>
      by_cases hb : b = sep
      · subst hb
        have hdata : Runs b data (runs b data) := ih List.not_mem_nil
        rw [runs_append_cons hcut, cutRun]
        split
        next h => exact h ▸ .sep hdata
        next h => exact .run h hcut (.inr rfl) (.sep hdata)
      · have hnext : sep ∉ cut ++ [b] := by simp [hcut, Ne.symm hb]
        simpa using ih hnext

theorem Runs.eq {sep : α} {data : List α} {names : List (List α)} (h : Runs sep data names) :
    names = runs sep data := by
  induction h with
  | nil => rfl
  | sep h ih => rw [ih, runs_cons_self]
  | @run run data names hne hrun hend h ih =>
      rcases hend with rfl | hend
      · rw [List.append_nil, runs_of_not_mem hrun, cutRun, if_neg hne, ih]
        rfl
      · obtain ⟨rest, rfl⟩ : ∃ rest, data = sep :: rest := List.head?_eq_some_iff.mp hend
        rw [runs_append_cons hrun, cutRun, if_neg hne, ih, runs_cons_self]

theorem runs_iff {sep : α} {data : List α} {names : List (List α)} :
    Runs sep data names ↔ names = runs sep data :=
  ⟨Runs.eq, fun h => h ▸ runs_of_cut List.not_mem_nil data⟩

theorem runs_ne_nil_iff {sep : α} {data : List α} : runs sep data ≠ [] ↔ ∃ b ∈ data, b ≠ sep := by
  constructor
  · intro h
    by_contra hall
    push Not at hall
    have hdata : Runs sep data [] := by
      rw [List.eq_replicate_of_mem hall, ← List.append_nil (List.replicate _ _)]
      exact Runs.nil.replicate _
    exact h hdata.eq.symm
  · rintro ⟨b, hb, hne⟩ hnil
    have hdata : Runs sep data [] := runs_iff.mpr hnil.symm
    clear hnil
    generalize hnames : ([] : List (List α)) = names at hdata
    induction hdata with
    | nil => cases hb
    | sep h ih => exact ih ((List.mem_cons.mp hb).resolve_left hne) hnames
    | run => cases hnames

end Compute

/-! ## Joining -/

/-- The names with `lead` separators before them, `trail` behind them, and one
more than the number given with a name before that name. -/
def joined (sep : α) (lead : ℕ) (first : List α) (rest : List (ℕ × List α)) (trail : ℕ) : List α :=
  List.replicate lead sep ++ (first ++
    (rest.flatMap (fun r => List.replicate (r.1 + 1) sep ++ r.2) ++ List.replicate trail sep))

theorem runs_joined {sep : α} (lead : ℕ) {first : List α} {rest : List (ℕ × List α)} (trail : ℕ)
    (h : ∀ name ∈ first :: rest.map Prod.snd, name ≠ [] ∧ sep ∉ name) :
    Runs sep (joined sep lead first rest trail) (first :: rest.map Prod.snd) := by
  refine Runs.replicate ?_ lead
  induction rest generalizing first with
  | nil =>
      obtain ⟨hne, hsep⟩ := h first List.mem_cons_self
      have htrail : Runs sep (List.replicate trail sep) [] := by
        simpa using (Runs.nil : Runs sep [] []).replicate trail
      refine .run hne hsep ?_ htrail
      cases trail with
      | zero => exact .inl rfl
      | succ trail => exact .inr rfl
  | cons r rest ih =>
      obtain ⟨hne, hsep⟩ := h first List.mem_cons_self
      have hrest := ih fun name hname => h name (List.mem_cons_of_mem _ hname)
      refine .run hne hsep (.inr rfl) ?_
      simpa [List.flatMap_cons, List.append_assoc] using hrest.replicate (r.1 + 1)

end Foundation
