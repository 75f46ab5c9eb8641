import Mathlib.Data.List.Basic
import Mathlib.Tactic.Common

/-!
# Transducers and buffered output

A transducer reads one symbol at a time and emits a list of outputs.
Some transducers hold a part of their output back and release it when
they are flushed, so that the outputs themselves depend on where the
input is cut. `Buffered` says what such a machine must satisfy for the
content of its outputs to be independent of the cuts.
-/

namespace Foundation

/-- A deterministic machine from symbols `α` to outputs `β`. -/
structure Transducer (σ α β : Type*) where
  step : σ → α → σ × List β

namespace Transducer

variable {σ α β γ : Type*} (T : Transducer σ α β)

def final (s : σ) : List α → σ
  | [] => s
  | a :: as => final (T.step s a).1 as

def outputs (s : σ) : List α → List β
  | [] => []
  | a :: as => (T.step s a).2 ++ outputs (T.step s a).1 as

@[simp] theorem final_nil (s : σ) : T.final s [] = s := rfl

@[simp] theorem outputs_nil (s : σ) : T.outputs s [] = [] := rfl

theorem final_cons (s : σ) (a : α) (as : List α) :
    T.final s (a :: as) = T.final (T.step s a).1 as := rfl

theorem outputs_cons (s : σ) (a : α) (as : List α) :
    T.outputs s (a :: as) = (T.step s a).2 ++ T.outputs (T.step s a).1 as := rfl

@[simp] theorem final_append (s : σ) (as bs : List α) :
    T.final s (as ++ bs) = T.final (T.final s as) bs := by
  induction as generalizing s with
  | nil => rfl
  | cons a as ih => exact ih (T.step s a).1

@[simp] theorem outputs_append (s : σ) (as bs : List α) :
    T.outputs s (as ++ bs) = T.outputs s as ++ T.outputs (T.final s as) bs := by
  induction as generalizing s with
  | nil => rfl
  | cons a as ih =>
      simp only [List.cons_append, outputs_cons, final_cons, ih, List.append_assoc]

theorem final_invariant {R : σ → Prop} (hstep : ∀ s a, R s → R (T.step s a).1)
    {s : σ} (hs : R s) (as : List α) : R (T.final s as) := by
  induction as generalizing s with
  | nil => exact hs
  | cons a as ih => exact ih (hstep s a hs)

theorem outputs_invariant {R : σ → Prop} {Q : β → Prop}
    (hstep : ∀ s a, R s → R (T.step s a).1)
    (hout : ∀ s a, R s → ∀ b ∈ (T.step s a).2, Q b)
    {s : σ} (hs : R s) (as : List α) : ∀ b ∈ T.outputs s as, Q b := by
  induction as generalizing s with
  | nil => simp
  | cons a as ih =>
      intro b hb
      rcases List.mem_append.mp hb with hb | hb
      · exact hout s a hs b hb
      · exact ih (hstep s a hs) b hb

/-- The outputs of a machine that is flushed at the end of its input. -/
def reads (flush : σ → List β) (s : σ) (as : List α) : List β :=
  T.outputs s as ++ flush (T.final s as)

theorem reads_cons (flush : σ → List β) (s : σ) (a : α) (as : List α) :
    T.reads flush s (a :: as) = (T.step s a).2 ++ T.reads flush (T.step s a).1 as :=
  List.append_assoc _ _ _

theorem reads_append (flush : σ → List β) (s : σ) (as bs : List α) :
    T.reads flush s (as ++ bs) = T.outputs s as ++ T.reads flush (T.final s as) bs := by
  rw [reads, outputs_append, final_append, List.append_assoc, reads]

/-- Where the second input begins with a symbol that leads to one state from
both states, the two are read apart exactly when the flush passes on what the
symbol does. -/
theorem reads_append_iff {flush : σ → List β} {s s' : σ} {as bs : List α} {a : α}
    (hstep : (T.step (T.final s as) a).1 = (T.step s' a).1) (hsilent : (T.step s' a).2 = []) :
    T.reads flush s (as ++ a :: bs) = T.reads flush s as ++ T.reads flush s' (a :: bs) ↔
      flush (T.final s as) = (T.step (T.final s as) a).2 := by
  rw [reads_append, reads_cons, reads_cons, hsilent, hstep, List.nil_append]
  conv_lhs => rhs; rw [reads, List.append_assoc]
  rw [List.append_cancel_left_eq, List.append_cancel_right_eq, eq_comm]

/-- A machine that passes a record on when it meets the code of the next one. -/
theorem outputs_records {Holds : σ → β → Prop} {code : β → List α}
    (hread : ∀ s b b', Holds s b →
      Holds (T.final s (code b')) b' ∧ T.outputs s (code b') = [b])
    {s : σ} {b : β} (hs : Holds s b) (bs : List β) :
    ∃ last, Holds (T.final s (bs.flatMap code)) last ∧
      T.outputs s (bs.flatMap code) ++ [last] = b :: bs := by
  induction bs generalizing s b with
  | nil => exact ⟨b, hs, rfl⟩
  | cons b' bs ih =>
      obtain ⟨hnext, hout⟩ := hread s b b' hs
      obtain ⟨last, hlast, houts⟩ := ih hnext
      refine ⟨last, ?_, ?_⟩
      · rwa [List.flatMap_cons, final_append]
      · rw [List.flatMap_cons, outputs_append, hout, List.append_assoc, houts,
          List.singleton_append]

end Transducer

/-- A transducer that keeps part of its output in the state. `core` forgets
what is held back, `pending` reads it as a list of atoms, `atoms` reads an
emitted output as such a list, and `flush` releases what is held back. The
laws are asked of the valid states, which every step keeps valid. -/
structure Buffered {σ α β : Type*} (T : Transducer σ α β) (γ : Type*) where
  Valid : σ → Prop
  core : σ → σ
  pending : σ → List γ
  atoms : β → List γ
  flush : σ → σ × List β
  step_valid : ∀ s a, Valid s → Valid (T.step s a).1
  core_valid : ∀ s, Valid s → Valid (core s)
  core_core : ∀ s, core (core s) = core s
  pending_core : ∀ s, pending (core s) = []
  step_core : ∀ s a, Valid s → core (T.step s a).1 = core (T.step (core s) a).1
  step_atoms : ∀ s a, Valid s →
    (T.step s a).2.flatMap atoms ++ pending (T.step s a).1 =
      pending s ++ ((T.step (core s) a).2.flatMap atoms ++ pending (T.step (core s) a).1)
  flush_state : ∀ s, (flush s).1 = core s
  flush_atoms : ∀ s, (flush s).2.flatMap atoms = pending s

namespace Buffered

variable {σ α β γ : Type*} {T : Transducer σ α β} (B : Buffered T γ)

/-- Everything the machine has produced by the end of an input, held back or not. -/
def content (s : σ) (as : List α) : List γ :=
  (T.outputs s as).flatMap B.atoms ++ B.pending (T.final s as)

@[simp] theorem content_nil (s : σ) : B.content s [] = B.pending s := by simp [content]

theorem content_cons (s : σ) (a : α) (as : List α) :
    B.content s (a :: as) =
      (T.step s a).2.flatMap B.atoms ++ B.content (T.step s a).1 as := by
  simp [content, Transducer.outputs_cons, Transducer.final_cons]

theorem content_append (s : σ) (as bs : List α) :
    B.content s (as ++ bs) =
      (T.outputs s as).flatMap B.atoms ++ B.content (T.final s as) bs := by
  simp [content]

theorem final_valid {s : σ} (hs : B.Valid s) (as : List α) : B.Valid (T.final s as) :=
  T.final_invariant B.step_valid hs as

theorem core_final {s : σ} (hs : B.Valid s) (as : List α) :
    B.core (T.final s as) = B.core (T.final (B.core s) as) := by
  induction as generalizing s with
  | nil => exact (B.core_core s).symm
  | cons a as ih =>
      have hcore := B.step_valid _ a (B.core_valid s hs)
      simp only [Transducer.final_cons]
      rw [ih (B.step_valid s a hs), B.step_core s a hs, ← ih hcore]

/-- What was held back comes out first, and nothing else depends on it. -/
theorem content_eq {s : σ} (hs : B.Valid s) (as : List α) :
    B.content s as = B.pending s ++ B.content (B.core s) as := by
  induction as generalizing s with
  | nil => simp [B.pending_core]
  | cons a as ih =>
      have hcore := B.step_valid _ a (B.core_valid s hs)
      rw [content_cons, content_cons, ih (B.step_valid s a hs), ih hcore, ← B.step_core s a hs,
        ← List.append_assoc, B.step_atoms s a hs]
      simp only [List.append_assoc]

/-- One delivery: read the whole chunk, then flush. -/
def feed (s : σ) (chunk : List α) : σ × List β :=
  ((B.flush (T.final s chunk)).1, T.outputs s chunk ++ (B.flush (T.final s chunk)).2)

def feedAll (s : σ) : List (List α) → σ × List β
  | [] => (s, [])
  | chunk :: chunks =>
      ((feedAll (B.feed s chunk).1 chunks).1,
        (B.feed s chunk).2 ++ (feedAll (B.feed s chunk).1 chunks).2)

@[simp] theorem feed_state (s : σ) (chunk : List α) :
    (B.feed s chunk).1 = B.core (T.final s chunk) := B.flush_state _

theorem feed_atoms (s : σ) (chunk : List α) :
    (B.feed s chunk).2.flatMap B.atoms = B.content s chunk := by
  simp [feed, content, B.flush_atoms]

theorem feed_valid {s : σ} (hs : B.Valid s) (chunk : List α) : B.Valid (B.feed s chunk).1 := by
  rw [feed_state]
  exact B.core_valid _ (B.final_valid hs chunk)

theorem core_feedAll {s : σ} (hs : B.Valid s) (chunks : List (List α)) :
    B.core (B.feedAll s chunks).1 = B.core (T.final s chunks.flatten) := by
  induction chunks generalizing s with
  | nil => rfl
  | cons chunk chunks ih =>
      simp only [feedAll, List.flatten_cons, Transducer.final_append]
      rw [ih (B.feed_valid hs chunk), feed_state, ← B.core_final (B.final_valid hs chunk)]

theorem feedAll_content {s : σ} (hs : B.Valid s) (chunks : List (List α)) :
    (B.feedAll s chunks).2.flatMap B.atoms ++ B.pending (B.feedAll s chunks).1 =
      B.content s chunks.flatten := by
  induction chunks generalizing s with
  | nil => simp [feedAll]
  | cons chunk chunks ih =>
      have hrest := B.content_eq (B.final_valid hs chunk) chunks.flatten
      simp only [feedAll, List.flatMap_append, List.flatten_cons, List.append_assoc]
      rw [ih (B.feed_valid hs chunk), feed_atoms, feed_state, content_append, hrest]
      simp [content]

/-- What every step and every flush keeps holds of a chunked run. -/
theorem feedAll_invariant {R : σ → Prop} {Q : β → Prop}
    (hstep : ∀ s a, R s → R (T.step s a).1 ∧ ∀ b ∈ (T.step s a).2, Q b)
    (hflush : ∀ s, R s → R (B.flush s).1 ∧ ∀ b ∈ (B.flush s).2, Q b)
    {s : σ} (hs : R s) (chunks : List (List α)) :
    R (B.feedAll s chunks).1 ∧ ∀ b ∈ (B.feedAll s chunks).2, Q b := by
  induction chunks generalizing s with
  | nil => exact ⟨hs, List.forall_mem_nil _⟩
  | cons chunk chunks ih =>
      have hstate := T.final_invariant (fun s a h => (hstep s a h).1) hs chunk
      have hout := T.outputs_invariant (fun s a h => (hstep s a h).1)
        (fun s a h => (hstep s a h).2) hs chunk
      obtain ⟨hnext, hreleased⟩ := hflush _ hstate
      obtain ⟨hfinal, houts⟩ := ih hnext
      refine ⟨hfinal, ?_⟩
      apply List.forall_mem_append.mpr ⟨?_, houts⟩
      exact List.forall_mem_append.mpr ⟨hout, hreleased⟩

theorem pending_feedAll {s : σ} (hs : B.pending s = []) (chunks : List (List α)) :
    B.pending (B.feedAll s chunks).1 = [] := by
  induction chunks generalizing s with
  | nil => exact hs
  | cons chunk chunks ih => exact ih (by rw [feed_state, B.pending_core])

/-- The atoms of any chunked run from a state that holds nothing back. -/
theorem feedAll_atoms {s : σ} (hs : B.Valid s) (hp : B.pending s = [])
    (chunks : List (List α)) :
    (B.feedAll s chunks).2.flatMap B.atoms = B.content s chunks.flatten := by
  have h := B.feedAll_content hs chunks
  rwa [B.pending_feedAll hp, List.append_nil] at h

end Buffered

end Foundation
