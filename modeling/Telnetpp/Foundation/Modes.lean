import Mathlib.Data.List.Basic
import Mathlib.Tactic.Common

/-!
# Reading a queue in the modes it was written in

A reader with a mode takes items from a queue. Each item may have to be read
in one mode, and each may turn the reader to another mode for the items that
come after it.
-/

namespace Foundation

structure Marking (M Item : Type*) where
  /-- The mode in which the item has to be read, if there is one. -/
  mode : Item → Option M
  /-- The mode of a reader once it has read the item. -/
  turn : Item → M → M

namespace Marking

variable {M Item : Type*} [DecidableEq M] (K : Marking M Item)

def Fits (x : Item) (m : M) : Prop := ∀ k ∈ K.mode x, k = m

/-- The mode of a reader after the whole queue; `none` if on the way it meets
an item that does not fit its mode. -/
def follow : M → List Item → Option M
  | m, [] => some m
  | m, x :: xs =>
      match K.mode x with
      | none => follow (K.turn x m) xs
      | some k => if k = m then follow (K.turn x m) xs else none

@[simp] theorem follow_nil (m : M) : K.follow m [] = some m := rfl

theorem follow_cons_of_fits {x : Item} {m : M} (h : K.Fits x m) (xs : List Item) :
    K.follow m (x :: xs) = K.follow (K.turn x m) xs := by
  cases hx : K.mode x with
  | none => simp only [follow, hx]
  | some k => simp only [follow, hx, if_pos (h k hx)]

theorem fits_of_follow {x : Item} {m k : M} {xs : List Item}
    (h : K.follow m (x :: xs) = some k) : K.Fits x m := by
  intro k' hk'
  by_contra hne
  simp [follow, Option.mem_def.mp hk', hne] at h

theorem follow_append (m : M) (xs ys : List Item) :
    K.follow m (xs ++ ys) = (K.follow m xs).bind fun k => K.follow k ys := by
  induction xs generalizing m with
  | nil => rfl
  | cons x xs ih =>
      rw [List.cons_append]
      by_cases h : K.Fits x m
      · rw [follow_cons_of_fits K h, follow_cons_of_fits K h, ih]
      · have hnone (zs : List Item) : K.follow m (x :: zs) = none := by
          rw [Option.eq_none_iff_forall_ne_some]
          intro k hk
          exact h (K.fits_of_follow hk)
        rw [hnone, hnone, Option.bind_none]

end Marking

end Foundation
