import Mathlib.Data.List.Basic
import Mathlib.Tactic.Common

/-!
# Functions that call back

A function that works on a state of its own and hands values to a callback,
which may reach that state again before the function goes on. `Program` is
such a function, and `Program.run` runs it in a world that contains its state.
-/

namespace Foundation

/-- How a call ends: with a value, or for a reason that nothing recovers from. -/
inductive Outcome (ε σ α : Type*)
  | done (a : α) (w : σ)
  | stopped (reason : ε) (w : σ)

namespace Outcome

variable {ε σ τ α β : Type*}

def map (f : σ → τ) : Outcome ε σ α → Outcome ε τ α
  | .done a w => .done a (f w)
  | .stopped reason w => .stopped reason (f w)

def world : Outcome ε σ α → σ
  | .done _ w => w
  | .stopped _ w => w

def Returned : Outcome ε σ α → Prop
  | .done _ _ => True
  | .stopped _ _ => False

@[simp] theorem world_map (f : σ → τ) (o : Outcome ε σ α) : (o.map f).world = f o.world := by
  cases o <;> rfl

end Outcome

/-- What is left of the function, from its own state on. After a call it goes
on from the state that it finds then. -/
inductive Program (ε χ ζ α : Type*)
  | done (a : α) (z : ζ)
  | stop (reason : ε) (z : ζ)
  | call (x : χ) (z : ζ) (next : ζ → Program ε χ ζ α)

namespace Program

variable {ε χ ζ α σ : Type*}

/-- The calls that the program makes, and how it ends, when no call changes
the program's state. -/
def alone : Program ε χ ζ α → List χ × Outcome ε ζ α
  | .done a z => ([], .done a z)
  | .stop reason z => ([], .stopped reason z)
  | .call x z next => (x :: (next z).alone.1, (next z).alone.2)

/-- A property of every call that the program can make, whatever state it finds
after the calls before. -/
def AllCalls (P : χ → Prop) : Program ε χ ζ α → Prop
  | .done _ _ => True
  | .stop _ _ => True
  | .call x _ next => P x ∧ ∀ z, (next z).AllCalls P

/-- The program in a world that holds its state. -/
def run (get : σ → ζ) (put : ζ → σ → σ) (callback : χ → σ → Outcome ε σ Unit) :
    Program ε χ ζ α → σ → Outcome ε σ α
  | .done a z, w => .done a (put z w)
  | .stop reason z, w => .stopped reason (put z w)
  | .call x z next, w =>
      match callback x (put z w) with
      | .done _ w' => (next (get w')).run get put callback w'
      | .stopped reason w' => .stopped reason w'

section Rules

variable {get : σ → ζ} {put : ζ → σ → σ} {callback : χ → σ → Outcome ε σ Unit}

/-- If every call returns, keeps the program's state and keeps an invariant of
the calls still to come, the program does in the world what it does alone. -/
theorem run_alone {I : List χ → σ → Prop} (hget : ∀ z w, get (put z w) = z)
    (hput : ∀ xs z w, I xs w → I xs (put z w))
    (hcall : ∀ x xs w, I (x :: xs) w →
      ∃ w', callback x w = .done () w' ∧ get w' = get w ∧ I xs w')
    {p : Program ε χ ζ α} {xs : List χ} {a : α} {z : ζ} (hp : p.alone = (xs, .done a z))
    {w : σ} (hw : I xs w) :
    ∃ w', p.run get put callback w = .done a w' ∧ get w' = z ∧ I [] w' := by
  induction p generalizing xs w with
  | done a' z' =>
      obtain ⟨rfl, hend⟩ := Prod.mk.inj hp
      obtain ⟨rfl, rfl⟩ := Outcome.done.inj hend
      exact ⟨put z' w, rfl, hget z' w, hput [] z' w hw⟩
  | stop reason z' => exact nomatch (Prod.mk.inj hp).2
  | call x z' next ih =>
      obtain ⟨rfl, hend⟩ := Prod.mk.inj hp
      obtain ⟨w', hw', hkept, hI⟩ := hcall x _ (put z' w) (hput _ z' w hw)
      rw [hget] at hkept
      obtain ⟨w'', hrun, hz, hI'⟩ := ih z' (Prod.ext rfl hend) hI
      refine ⟨w'', ?_, hz, hI'⟩
      rw [run, hw']
      simp only [hkept]
      exact hrun

/-- What every call keeps, however it ends, holds when the program ends. -/
theorem run_invariant_of_allCalls {I : σ → Prop} {P : χ → Prop} (hput : ∀ z w, I w → I (put z w))
    (hcall : ∀ x w, P x → I w → I (callback x w).world) {p : Program ε χ ζ α}
    (hp : p.AllCalls P) {w : σ} (hw : I w) : I (p.run get put callback w).world := by
  induction p generalizing w with
  | done a z => exact hput z w hw
  | stop reason z => exact hput z w hw
  | call x z next ih =>
      obtain ⟨hx, hnext⟩ := hp
      have hkept := hcall x (put z w) hx (hput z w hw)
      rw [run]
      cases hcallback : callback x (put z w) with
      | done _ w' =>
          rw [hcallback] at hkept
          exact ih (get w') (hnext (get w')) hkept
      | stopped reason w' =>
          rw [hcallback] at hkept
          exact hkept

theorem allCalls_true (p : Program ε χ ζ α) : p.AllCalls fun _ => True := by
  induction p with
  | done a z => trivial
  | stop reason z => trivial
  | call x z next ih => exact ⟨trivial, ih⟩

/-- If every call returns and keeps the program's state, the program ends as it does alone. -/
theorem map_run (hget : ∀ z w, get (put z w) = z)
    (hcall : ∀ x w, ∃ w', callback x w = .done () w' ∧ get w' = get w) (p : Program ε χ ζ α)
    (w : σ) : (p.run get put callback w).map get = p.alone.2 := by
  induction p generalizing w with
  | done a z => exact congrArg (Outcome.done a) (hget z w)
  | stop reason z => exact congrArg (Outcome.stopped reason) (hget z w)
  | call x z next ih =>
      obtain ⟨w', hw', hkept⟩ := hcall x (put z w)
      rw [hget] at hkept
      rw [run, hw', alone]
      simp only [hkept]
      exact ih z w'

theorem run_invariant {I : σ → Prop} (hput : ∀ z w, I w → I (put z w))
    (hcall : ∀ x w, I w → I (callback x w).world) (p : Program ε χ ζ α) {w : σ} (hw : I w) :
    I (p.run get put callback w).world :=
  run_invariant_of_allCalls hput (fun x w _ => hcall x w) p.allCalls_true hw

/-- The converse of `run_alone`. If a call that is not silent spoils the world
for good, then a run that leaves it unspoilt has made silent calls only, and
has ended as the program does alone. -/
theorem alone_of_run {B : σ → Prop} {S : χ → Prop} (hget : ∀ z w, get (put z w) = z)
    (hput : ∀ z w, B w → B (put z w))
    (hkept : ∀ x w, B w → B (callback x w).world)
    (hcall : ∀ x w, ¬ B (callback x w).world →
      S x ∧ get (callback x w).world = get w)
    {p : Program ε χ ζ α} {a : α} {w w' : σ} (hrun : p.run get put callback w = .done a w')
    (hw' : ¬ B w') : (∀ x ∈ p.alone.1, S x) ∧ p.alone.2.Returned := by
  induction p generalizing w with
  | done a z => exact ⟨by simp [alone], trivial⟩
  | stop reason z => simp [run] at hrun
  | call x z next ih =>
      rw [run] at hrun
      cases hcallback : callback x (put z w) with
      | stopped reason w₁ => simp [hcallback] at hrun
      | done _ w₁ =>
          simp only [hcallback] at hrun
          have hw₁ : ¬ B w₁ := by
            intro hbad
            have hend : B ((next (get w₁)).run get put callback w₁).world :=
              run_invariant hput hkept (next (get w₁)) hbad
            rw [hrun] at hend
            exact hw' hend
          have hsilent := hcall x (put z w)
          rw [hcallback, hget] at hsilent
          obtain ⟨hx, hz⟩ : S x ∧ get w₁ = z := hsilent hw₁
          rw [hz] at hrun
          obtain ⟨hall, hreturned⟩ := ih z hrun
          exact ⟨List.forall_mem_cons.mpr ⟨hx, hall⟩, hreturned⟩

end Rules

/-! ## Programs on a larger state -/

variable {ζ' σ' : Type*}

/-- The program is the other one on a state that has more in it. -/
inductive Projects (f : ζ → ζ') : Program ε χ ζ α → Program ε χ ζ' α → Prop
  | done (a : α) (z : ζ) : Projects f (.done a z) (.done a (f z))
  | stop (reason : ε) (z : ζ) : Projects f (.stop reason z) (.stop reason (f z))
  | call (x : χ) (z : ζ) {next : ζ → Program ε χ ζ α} {next' : ζ' → Program ε χ ζ' α}
      (h : ∀ z, Projects f (next z) (next' (f z))) :
      Projects f (.call x z next) (.call x (f z) next')

theorem Projects.run {f : ζ → ζ'} {g : σ → σ'} {get : σ → ζ} {put : ζ → σ → σ}
    {callback : χ → σ → Outcome ε σ Unit} {get' : σ' → ζ'} {put' : ζ' → σ' → σ'}
    {callback' : χ → σ' → Outcome ε σ' Unit} (hget : ∀ w, f (get w) = get' (g w))
    (hput : ∀ z w, g (put z w) = put' (f z) (g w))
    (hcall : ∀ x w, (callback x w).map g = callback' x (g w))
    {p : Program ε χ ζ α} {p' : Program ε χ ζ' α} (h : Projects f p p') (w : σ) :
    (p.run get put callback w).map g = p'.run get' put' callback' (g w) := by
  induction h generalizing w with
  | done a z => exact congrArg (Outcome.done a) (hput z w)
  | stop reason z => exact congrArg (Outcome.stopped reason) (hput z w)
  | @call x z next next' h ih =>
      rw [Program.run, Program.run, ← hput, ← hcall]
      cases callback x (put z w) with
      | done _ w' =>
          simp only [Outcome.map, ← hget]
          exact ih (get w') w'
      | stopped reason w' => rfl

end Program

end Foundation
