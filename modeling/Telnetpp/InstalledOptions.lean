import Telnetpp.Session
import Telnetpp.Foundation.Run

/-!
# The options of one session

A session with any number of options, at most one for each half of each
option code. Negotiations are routed by half and code, and subnegotiations
by code alone, so of two options of one code only the one installed last is
handed the subnegotiations.
-/

namespace Telnetpp

open Foundation

@[ext]
structure OptionId where
  half : Half
  code : OptionType
  deriving DecidableEq, Repr

/-- The states of all options, what has been written, and what has been
handed to which `handle_subnegotiation`. -/
structure OptionWorld where
  state : OptionId → InternalState := fun _ => .inactive
  written : List Element := []
  handled : List (OptionId × Bytes) := []

def optionOf (onStateChanged : OptionId → OptionWorld → OptionWorld) (id : OptionId) :
    TelnetOption id.half.traits OptionWorld where
  optionCode := id.code
  state w := w.state id
  setState st w := { w with state := Function.update w.state id st }
  write elem w := { w with written := w.written ++ [elem] }
  onStateChanged := onStateChanged id
  handleSubnegotiation content w := { w with handled := w.handled ++ [(id, content)] }

/-- A session, the options installed on it, newest first, and their world. -/
structure OptionSession where
  session : Session OptionWorld :=
    Session.new fun elem w => { w with written := w.written ++ [elem] }
  installed : List OptionId := []
  world : OptionWorld := {}

inductive OptionEvent
  | install (id : OptionId)
  | call (id : OptionId) (c : Call)
  | receive (elem : Element)

namespace OptionSession

def receive (s : OptionSession) (elem : Element) : OptionSession :=
  { s with world := s.session.tokenHandler (fun _ w => w) elem s.world }

variable (onStateChanged : OptionId → OptionWorld → OptionWorld)

/-- One event, with any handlers connected to `on_state_changed`. -/
def step (s : OptionSession) : OptionEvent → OptionSession
  | .install id =>
      { s with session := s.session.installOption (optionOf onStateChanged id)
               installed := id :: s.installed }
  | .call id c => { s with world := (optionOf onStateChanged id).call c s.world }
  | .receive elem => s.receive elem

def lastInstalled (s : OptionSession) (code : OptionType) : Option OptionId :=
  s.installed.find? fun id => id.code = code

/-- Each code's subnegotiations are routed to the option installed last. -/
structure RoutesToLast (s : OptionSession) : Prop where
  registered : ∀ code, s.session.subnegotiationRouter.registeredFunctions code =
    (s.lastInstalled code).map fun id sub =>
      (optionOf onStateChanged id).subnegotiate sub.content
  unregistered : s.session.subnegotiationRouter.unregisteredRoute = none

variable {onStateChanged}

theorem lastInstalled_install (s : OptionSession) (id : OptionId) (code : OptionType) :
    (s.step onStateChanged (.install id)).lastInstalled code =
      if id.code = code then some id else s.lastInstalled code := by
  by_cases h : id.code = code <;> simp [lastInstalled, step, h]

theorem RoutesToLast.step {s : OptionSession} (h : s.RoutesToLast onStateChanged)
    (e : OptionEvent) : (s.step onStateChanged e).RoutesToLast onStateChanged := by
  cases e with
  | install id =>
      refine ⟨?_, h.unregistered⟩
      intro code
      have hroute := Session.subnegotiationRouter_installOption (s := s.session)
        (optionOf onStateChanged id) code
      rw [h.registered code] at hroute
      rw [lastInstalled_install]
      apply hroute.trans
      by_cases hcode : id.code = code
      · rw [if_pos hcode, if_pos (show code = (optionOf onStateChanged id).optionCode from
          hcode.symm)]
        rfl
      · rw [if_neg hcode, if_neg (show ¬ code = (optionOf onStateChanged id).optionCode from
          fun h => hcode h.symm)]
  | call id c => exact ⟨h.registered, h.unregistered⟩
  | receive elem => exact ⟨h.registered, h.unregistered⟩

theorem routesToLast_run (onStateChanged : OptionId → OptionWorld → OptionWorld)
    (es : List OptionEvent) :
    (run (step onStateChanged) {} es).RoutesToLast onStateChanged :=
  run_invariant _ (fun _ e h => h.step e) ⟨fun _ => rfl, rfl⟩ es

/-- The option that a subnegotiation is handed to, if it is handed to any. -/
def recipients (s : OptionSession) (code : OptionType) : List OptionId :=
  ((s.lastInstalled code).filter fun id => s.world.state id = .active).toList

theorem RoutesToLast.handled_receive {s : OptionSession} (h : s.RoutesToLast onStateChanged)
    (sub : Subnegotiation) :
    (s.receive (.subnegotiation sub)).world.handled =
      s.world.handled ++ (s.recipients sub.option).map fun id => (id, sub.content) := by
  simp only [receive, Session.tokenHandler, Router.route, h.registered, h.unregistered]
  cases hlast : s.lastInstalled sub.option with
  | none => simp [recipients, hlast]
  | some id =>
      by_cases hactive : s.world.state id = .active <;>
        simp [recipients, hlast, TelnetOption.subnegotiate, optionOf, hactive, Option.filter]

/-- Receiving the subnegotiation hands its content to every active option of
its code. -/
def Delivers (s : OptionSession) (sub : Subnegotiation) : Prop :=
  ∃ handed, (s.receive (.subnegotiation sub)).world.handled = s.world.handled ++ handed ∧
    ∀ id ∈ s.installed, id.code = sub.option → s.world.state id = .active →
      (id, sub.content) ∈ handed

theorem mem_recipients (s : OptionSession) (code : OptionType) (id : OptionId) :
    id ∈ s.recipients code ↔ s.lastInstalled code = some id ∧ s.world.state id = .active := by
  simp [recipients, Option.filter_eq_some_iff]

/-- In every run, whatever the handlers do, a subnegotiation reaches every
active option of its code exactly when no such option was followed by the
installation of the other option of that code. -/
theorem run_delivers_iff (onStateChanged : OptionId → OptionWorld → OptionWorld)
    (es : List OptionEvent) (sub : Subnegotiation) :
    let s := run (step onStateChanged) {} es
    s.Delivers sub ↔ ∀ id ∈ s.installed, id.code = sub.option → s.world.state id = .active →
      s.lastInstalled sub.option = some id := by
  intro s
  have hhandled := (routesToLast_run onStateChanged es).handled_receive sub
  have hmem (id : OptionId) : (id, sub.content) ∈
      (s.recipients sub.option).map (fun id => (id, sub.content)) ↔
        s.lastInstalled sub.option = some id ∧ s.world.state id = .active := by
    simp [mem_recipients]
  constructor
  · rintro ⟨handed, heq, hall⟩ id hid hcode hactive
    have hhanded := List.append_cancel_left (heq.symm.trans hhandled)
    exact ((hmem id).mp (hhanded ▸ hall id hid hcode hactive)).1
  · intro hlast
    exact ⟨_, hhandled, fun id hid hcode hactive =>
      (hmem id).mpr ⟨hlast id hid hcode hactive, hactive⟩⟩

/-- A client and then a server of one code are installed and the client is
activated by the remote. The content meant for it is handed to no one. -/
theorem client_then_server_loses :
    let s := run (step fun _ w => w) {}
      [.install ⟨.client, 42⟩, .install ⟨.server, 42⟩, .receive (.negotiation ⟨will, 42⟩)]
    s.world.state ⟨.client, 42⟩ = .active ∧ ¬ s.Delivers ⟨42, [1]⟩ := by
  intro s
  refine ⟨by decide, ?_⟩
  rintro ⟨handed, heq, hall⟩
  have hnone : (s.receive (.subnegotiation ⟨42, [1]⟩)).world.handled = [] := by decide
  have hempty : handed = [] := (List.append_eq_nil_iff.mp (heq.symm.trans hnone)).2
  have hhanded := hall ⟨.client, 42⟩ (by decide) rfl (by decide)
  rw [hempty] at hhanded
  exact absurd hhanded (by simp)

end OptionSession

end Telnetpp
