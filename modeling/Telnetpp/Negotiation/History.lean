import Mathlib.Data.List.Induction
import Telnetpp.Option
import Telnetpp.Foundation.Run

/-!
# An option and its history

One option whose remote sends its two requests whenever it likes. Whether the
option is active, and whether it still waits for an answer, is determined by
the calls and the negotiations so far.
-/

namespace Telnetpp

open Foundation

/-- What an option is asked for, and what it receives. -/
inductive OptionInput
  | call (c : Call)
  | negotiate (positive : Bool)
  | subnegotiate (content : Bytes)
  deriving DecidableEq, Repr

/-- The option, what it has written, what its handler has been given, and what
belongs to the application. -/
structure OptionHistory (κ : Type) where
  state : InternalState := .inactive
  written : List Element := []
  handled : List Bytes := []
  app : κ

namespace OptionHistory

variable {κ : Type}

/-- An option whose handlers make no calls on it. -/
def option (half : Half) (code : OptionType) (onStateChanged : κ → κ) (handle : Bytes → κ → κ) :
    TelnetOption half.traits (OptionHistory κ) where
  optionCode := code
  state := state
  setState st w := { w with state := st }
  write elem w := { w with written := w.written ++ [elem] }
  onStateChanged w := { w with app := onStateChanged w.app }
  handleSubnegotiation content w :=
    { w with handled := w.handled ++ [content], app := handle content w.app }

/-- The remote request for a mode. -/
def remote (half : Half) (positive : Bool) : NegotiationType :=
  if positive then half.traits.remotePositive else half.traits.remoteNegative

section Steps

variable (half : Half) (code : OptionType) (onStateChanged : κ → κ) (handle : Bytes → κ → κ)

def step (w : OptionHistory κ) : OptionInput → OptionHistory κ
  | .call c => (option half code onStateChanged handle).call c w
  | .negotiate positive =>
      (option half code onStateChanged handle).negotiate (remote half positive) w
  | .subnegotiate content => (option half code onStateChanged handle).subnegotiate content w

/-- A new option, after these inputs. -/
def after (x : κ) (es : List OptionInput) : OptionHistory κ :=
  run (step half code onStateChanged handle) { app := x } es

theorem after_append_singleton (x : κ) (es : List OptionInput) (e : OptionInput) :
    after half code onStateChanged handle x (es ++ [e]) =
      step half code onStateChanged handle (after half code onStateChanged handle x es) e := by
  rw [after, run_append, run_cons, run_nil, after]

/-! ## What one input does -/

/-- The state that an input leads to. -/
def next : InternalState → OptionInput → InternalState
  | _, .negotiate positive => if positive then .active else .inactive
  | .inactive, .call .activate => .activating
  | .active, .call .deactivate => .deactivating
  | st, _ => st

/-- An option that waits for the answer to its request. -/
def Waiting (w : OptionHistory κ) : Prop := w.state = .activating ∨ w.state = .deactivating

/-- What an input writes. -/
def writes : InternalState → OptionInput → List Element
  | .inactive, .call .activate => [.negotiation ⟨half.traits.localPositive, code⟩]
  | .active, .call .deactivate => [.negotiation ⟨half.traits.localNegative, code⟩]
  | .inactive, .negotiate positive =>
      [.negotiation ⟨if positive then half.traits.localPositive else half.traits.localNegative,
        code⟩]
  | .active, .negotiate positive =>
      [.negotiation ⟨if positive then half.traits.localPositive else half.traits.localNegative,
        code⟩]
  | _, _ => []

theorem step_eq (w : OptionHistory κ) (e : OptionInput) :
    let w' := step half code onStateChanged handle w e
    w'.state = next w.state e ∧ w'.written = w.written ++ writes half code w.state e ∧
      w'.handled = w.handled ++
        match e with
        | .subnegotiate content => if w.state = .active then [content] else []
        | _ => [] := by
  rcases w with ⟨state, written, handled, app⟩
  cases e with
  | call c =>
      cases c <;> cases state <;>
        simp [step, TelnetOption.call, TelnetOption.activate, TelnetOption.deactivate,
          TelnetOption.writeNegotiation, option, next, writes]
  | negotiate positive =>
      cases half <;> cases positive <;> cases state <;>
        simp [step, TelnetOption.negotiate, TelnetOption.writeNegotiation, option, next, writes,
          remote, Half.traits, clientTraits, serverTraits, do_, dont, will, wont]
  | subnegotiate content =>
      cases state <;> simp [step, TelnetOption.subnegotiate, option, next, writes]

/-! ## The history -/

/-- A negotiation has been received, the last one was the remote's positive
request, and `deactivate` has not been called since. -/
def Agreed (es : List OptionInput) : Prop :=
  Since (fun _ e => e = .negotiate true)
    (fun f => (∀ positive, f ≠ .negotiate positive) ∧ f ≠ .call .deactivate) es

/-- A call has written a request, and no negotiation has been received since. -/
def Outstanding (x : κ) (es : List OptionInput) : Prop :=
  Since
    (fun before e => (∃ c, e = .call c) ∧
      (after half code onStateChanged handle x (before ++ [e])).written ≠
        (after half code onStateChanged handle x before).written)
    (fun f => ∀ positive, f ≠ .negotiate positive) es

variable (x : κ)

theorem state_append_singleton (es : List OptionInput) (e : OptionInput) :
    (after half code onStateChanged handle x (es ++ [e])).state =
      next (after half code onStateChanged handle x es).state e := by
  rw [after_append_singleton]
  exact (step_eq half code onStateChanged handle _ e).1

theorem written_append_singleton (es : List OptionInput) (e : OptionInput) :
    (after half code onStateChanged handle x (es ++ [e])).written =
      (after half code onStateChanged handle x es).written ++
        writes half code (after half code onStateChanged handle x es).state e := by
  rw [after_append_singleton]
  exact (step_eq half code onStateChanged handle _ e).2.1

theorem state_eq_active_iff (es : List OptionInput) :
    (after half code onStateChanged handle x es).state = .active ↔ Agreed es := by
  induction es using List.reverseRecOn with
  | nil => exact iff_of_false (by simp [after]) not_since_nil
  | append_singleton es e ih =>
      rw [state_append_singleton, Agreed, since_append_singleton, ← Agreed, ← ih]
      cases e with
      | call c =>
          cases (after half code onStateChanged handle x es).state <;> cases c <;> simp [next]
      | negotiate positive => cases positive <;> simp [next]
      | subnegotiate content => simp [next]

theorem waiting_iff (es : List OptionInput) :
    (after half code onStateChanged handle x es).Waiting ↔
      Outstanding half code onStateChanged handle x es := by
  induction es using List.reverseRecOn with
  | nil => exact iff_of_false (by simp [after, Waiting]) not_since_nil
  | append_singleton es e ih =>
      rw [Outstanding, since_append_singleton, ← Outstanding, ← ih, Waiting, Waiting,
        state_append_singleton, written_append_singleton]
      cases e with
      | call c =>
          cases (after half code onStateChanged handle x es).state <;> cases c <;>
            simp [next, writes]
      | negotiate positive => cases positive <;> simp [next]
      | subnegotiate content => simp [next]

omit onStateChanged handle x in
/-- An option that waits writes nothing. -/
theorem writes_of_waiting {w : OptionHistory κ} (h : w.Waiting) (e : OptionInput) :
    writes half code w.state e = [] := by
  rcases h with h | h
  · rw [h]
    cases e <;> rfl
  · rw [h]
    cases e <;> rfl

theorem written_of_waiting {es : List OptionInput}
    (h : (after half code onStateChanged handle x es).Waiting) {later : List OptionInput}
    (hlater : ∀ e ∈ later, ∀ positive, e ≠ .negotiate positive) :
    (after half code onStateChanged handle x (es ++ later)).written =
      (after half code onStateChanged handle x es).written ∧
        (after half code onStateChanged handle x (es ++ later)).Waiting := by
  induction later using List.reverseRecOn with
  | nil => simpa using h
  | append_singleton later e ih =>
      rw [List.forall_mem_append, List.forall_mem_singleton] at hlater
      obtain ⟨hwritten, hwaiting⟩ := ih hlater.1
      rw [← List.append_assoc, written_append_singleton, writes_of_waiting half code hwaiting,
        List.append_nil]
      refine ⟨hwritten, ?_⟩
      rw [waiting_iff, Outstanding, since_append_singleton]
      exact Or.inr ⟨hlater.2, (waiting_iff _ _ _ _ x _).mp hwaiting⟩

/-- A call that writes leaves the option waiting. -/
theorem written_of_call {es later : List OptionInput} {c : Call}
    (hwrites : (after half code onStateChanged handle x (es ++ [.call c])).written ≠
      (after half code onStateChanged handle x es).written)
    (hlater : ∀ e ∈ later, ∀ positive, e ≠ .negotiate positive) :
    (after half code onStateChanged handle x (es ++ [.call c] ++ later)).written =
      (after half code onStateChanged handle x (es ++ [.call c])).written := by
  have hout : Outstanding half code onStateChanged handle x (es ++ [.call c]) :=
    since_append_singleton.mpr (Or.inl ⟨⟨c, rfl⟩, hwrites⟩)
  have hwaiting := (waiting_iff half code onStateChanged handle x _).mpr hout
  exact (written_of_waiting half code onStateChanged handle x hwaiting hlater).1

theorem written_of_negotiate (es : List OptionInput) (positive : Bool) :
    let w := after half code onStateChanged handle x
    ((w (es ++ [.negotiate positive])).written = (w es).written ∨
        ∃ elem, (w (es ++ [.negotiate positive])).written = (w es).written ++ [elem]) ∧
      (Outstanding half code onStateChanged handle x es →
        (w (es ++ [.negotiate positive])).written = (w es).written) := by
  intro w
  have hwritten : (w (es ++ [.negotiate positive])).written = (w es).written ++ _ :=
    written_append_singleton _ _ _ _ x es (.negotiate positive)
  rw [hwritten]
  constructor
  · cases (w es).state with
    | inactive => exact Or.inr ⟨_, rfl⟩
    | active => exact Or.inr ⟨_, rfl⟩
    | _ => exact Or.inl (List.append_nil _)
  · intro hout
    rw [writes_of_waiting half code ((waiting_iff _ _ _ _ x es).mpr hout), List.append_nil]

theorem handled_append_singleton (es : List OptionInput) (e : OptionInput) :
    let w := after half code onStateChanged handle x
    (w (es ++ [e])).handled = (w es).handled ∨
      ∃ content, e = .subnegotiate content ∧ Agreed es ∧
        (w (es ++ [e])).handled = (w es).handled ++ [content] := by
  intro w
  have hlast : w (es ++ [e]) = step half code onStateChanged handle (w es) e :=
    after_append_singleton _ _ _ _ x es e
  rw [hlast, (step_eq half code onStateChanged handle (w es) e).2.2]
  cases e with
  | subnegotiate content =>
      by_cases h : (w es).state = .active
      · refine Or.inr ⟨content, rfl, (state_eq_active_iff _ _ _ _ x es).mp h, ?_⟩
        simp only [h, if_true]
      · left
        simp only [h, if_false, List.append_nil]
  | _ => exact Or.inl (List.append_nil _)

end Steps

/-- Whatever the remote does: the option is active exactly when the last
negotiation received asked for it and it has not been deactivated since; from
a request that it writes until the answer nothing more is written; a
negotiation is answered at most once, and not at all if it is an answer; and
content is handled only while the option is active. -/
theorem after_history (half : Half) (code : OptionType) (onStateChanged : κ → κ)
    (handle : Bytes → κ → κ) (x : κ) (es : List OptionInput) :
    let opt := option half code onStateChanged handle
    let w := after half code onStateChanged handle x
    (opt.active (w es) = true ↔ Agreed es) ∧
      (∀ c, (w (es ++ [.call c])).written ≠ (w es).written → ∀ later : List OptionInput,
        (∀ e ∈ later, ∀ positive, e ≠ .negotiate positive) →
          (w (es ++ [.call c] ++ later)).written = (w (es ++ [.call c])).written) ∧
      (∀ positive, ((w (es ++ [.negotiate positive])).written = (w es).written ∨
          ∃ elem, (w (es ++ [.negotiate positive])).written = (w es).written ++ [elem]) ∧
        (Outstanding half code onStateChanged handle x es →
          (w (es ++ [.negotiate positive])).written = (w es).written)) ∧
      ∀ e, (w (es ++ [e])).handled = (w es).handled ∨
        ∃ content, e = .subnegotiate content ∧ Agreed es ∧
          (w (es ++ [e])).handled = (w es).handled ++ [content] := by
  intro opt w
  have hactive : opt.active (w es) = true ↔ Agreed es := by
    rw [← state_eq_active_iff half code onStateChanged handle x es]
    exact beq_iff_eq
  refine ⟨hactive, ?_, ?_, ?_⟩
  · exact fun c hwrites later hlater =>
      written_of_call half code onStateChanged handle x hwrites hlater
  · exact written_of_negotiate half code onStateChanged handle x es
  · exact handled_append_singleton half code onStateChanged handle x es

end OptionHistory

end Telnetpp
