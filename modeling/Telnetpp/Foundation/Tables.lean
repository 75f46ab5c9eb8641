import Mathlib.Data.List.Basic
import Mathlib.Logic.Function.Basic
import Mathlib.Tactic.Common

/-!
# Tables and their updates

A table may have a value for each key. An update stores one value or erases
it, and a list of updates patches a table from left to right. A store is a
data structure that stands for a table and can list it.
-/

namespace Foundation

abbrev Table (K V : Type*) := K → Option V

abbrev Update (K V : Type*) := K × Option V

namespace Table

variable {K V : Type*}

def empty : Table K V := fun _ => none

def Within (t t' : Table K V) : Prop := ∀ k v, t k = some v → t' k = some v

theorem Within.empty (t : Table K V) : Within empty t := by
  intro k v h
  exact absurd h (by simp [Table.empty])

theorem Within.refl (t : Table K V) : Within t t := fun _ _ h => h

theorem Within.trans {t t' t'' : Table K V} (h : Within t t') (h' : Within t' t'') :
    Within t t'' := by
  intro k v hk
  exact h' k v (h k v hk)

/-- The list has the value, present or not, of each key that it names, and
names every key that has a value. -/
def Lists (us : List (Update K V)) (t : Table K V) : Prop :=
  (∀ u ∈ us, u.2 = t u.1) ∧ ∀ k, t k ≠ none → ∃ u ∈ us, u.1 = k

variable [DecidableEq K]

def patch (us : List (Update K V)) (t : Table K V) : Table K V :=
  us.foldl (fun t u => Function.update t u.1 u.2) t

@[simp] theorem patch_nil (t : Table K V) : patch [] t = t := rfl

@[simp] theorem patch_cons (u : Update K V) (us : List (Update K V)) (t : Table K V) :
    patch (u :: us) t = patch us (Function.update t u.1 u.2) := rfl

theorem Within.update {t t' : Table K V} (h : Within t t') (k : K) (o : Option V) :
    Within (Function.update t k o) (Function.update t' k o) := by
  intro l v hl
  by_cases hk : l = k
  · subst hk
    simpa using hl
  · rw [Function.update_of_ne hk] at hl ⊢
    exact h l v hl

theorem Within.patch {t t' : Table K V} (h : Within t t') (us : List (Update K V)) :
    Within (patch us t) (patch us t') := by
  induction us generalizing t t' with
  | nil => exact h
  | cons u us ih => exact ih (h.update u.1 u.2)

/-- A patch with values of `t'` leaves each key with that value, or alone if
the list does not name it. -/
theorem patch_of_values {us : List (Update K V)} {t t' : Table K V}
    (h : ∀ u ∈ us, u.2 = t' u.1) (k : K) :
    patch us t k = t' k ∨ patch us t k = t k ∧ ∀ u ∈ us, u.1 ≠ k := by
  induction us generalizing t with
  | nil => exact Or.inr ⟨rfl, by simp⟩
  | cons u us ih =>
      have hu : u.2 = t' u.1 := h u (by simp)
      rcases ih (t := Function.update t u.1 u.2) fun v hv => h v (List.mem_cons_of_mem _ hv)
        with hk | ⟨hk, hus⟩
      · exact Or.inl hk
      · by_cases hkey : u.1 = k
        · left
          rw [patch_cons, hk, ← hkey, Function.update_self, hu]
        · right
          rw [patch_cons, hk, Function.update_of_ne (Ne.symm hkey)]
          exact ⟨rfl, List.forall_mem_cons.mpr ⟨hkey, hus⟩⟩

/-- A listing of a table completes any part of it. -/
theorem patch_listing {us : List (Update K V)} {t t' : Table K V} (h : Lists us t')
    (hw : Within t t') : patch us t = t' := by
  funext k
  rcases patch_of_values h.1 k with hk | ⟨hk, hus⟩
  · exact hk
  · have hnone : t' k = none := by
      by_contra hne
      obtain ⟨u, hu, hkey⟩ := h.2 k hne
      exact hus u hu hkey
    rw [hk, hnone, Option.eq_none_iff_forall_ne_some]
    intro v hv
    rw [hw k v hv] at hnone
    exact Option.some_ne_none v hnone

end Table

/-- `D` stands for tables: it can be read, updated and listed. -/
structure Store (D K V : Type*) [DecidableEq K] where
  lookup : D → Table K V
  write : Update K V → D → D
  listing : D → List (Update K V)
  lookup_write : ∀ u d, lookup (write u d) = Function.update (lookup d) u.1 u.2
  lists : ∀ d, Table.Lists (listing d) (lookup d)

end Foundation
