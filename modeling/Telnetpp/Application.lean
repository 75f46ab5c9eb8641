import Telnetpp.Independence

/-!
# Applications of a session

An application installs any number of options and command handlers on its
session. Whatever its handlers keep and write, the negotiations are written by
the options alone.
-/

namespace Telnetpp

open Foundation

/-- An element that an application can write at any time. -/
structure FreeElement where
  elem : Element
  wellFormed : elem.WellFormed
  notNegotiation : ∀ neg, elem ≠ .negotiation neg

namespace FreeElement

def text (data : Bytes) : FreeElement := ⟨.bytes data, trivial, by simp⟩

def subnegotiation (code : OptionType) (content : Bytes) : FreeElement :=
  ⟨.subnegotiation ⟨code, content⟩, trivial, by simp⟩

end FreeElement

/-- What an application and its options keep. Not part of the program are `handled`, what has
been handed to which `handle_subnegotiation`, and `wrote`, what its handlers have written. -/
structure Owned (κ : Type) where
  state : OptionId → InternalState := fun _ => .inactive
  handled : List (OptionId × Bytes) := []
  wrote : List Atom := []
  app : κ

/-- What a handler makes of what the application keeps, and what it writes. -/
abbrev Handler (κ : Type) := (OptionId → InternalState) → κ → κ × List FreeElement

/-- The options are installed in the order of the list. -/
structure Application (α κ : Type) where
  options : List OptionId
  commands : List CommandType := []
  onByte : Byte → Handler κ := fun _ _ app => (app, [])
  onCommand : Command → Handler κ := fun _ _ app => (app, [])
  onStateChanged : OptionId → Handler κ := fun _ _ app => (app, [])
  handleSubnegotiation : OptionId → Bytes → Handler κ := fun _ _ _ app => (app, [])
  request : α → Handler κ

/-- A call on one of the options, or a request of another kind. -/
inductive AppInput (α : Type)
  | call (id : OptionId) (c : Call)
  | request (i : α)

namespace Application

/-- An application that writes what it is told to and keeps the data that it is handed. -/
def terminal (options : List OptionId) : Application FreeElement Bytes where
  options := options
  onByte by_ _ data := (data ++ [by_], [])
  request m _ data := (data, [m])

variable {α κ Ω : Type} (A : Application α κ)

def perform (write : Element → Outbox (Owned κ) Ω → Outbox (Owned κ) Ω) (handler : Handler κ)
    (w : Outbox (Owned κ) Ω) : Outbox (Owned κ) Ω :=
  let r := handler w.own.state w.own.app
  let atoms := r.2.flatMap fun m => m.elem.atoms
  r.2.foldl (fun w m => write m.elem w)
    { w with own.app := r.1, own.wrote := w.own.wrote ++ atoms }

section Session

variable (write : Element → Outbox (Owned κ) Ω → Outbox (Owned κ) Ω)

def option (id : OptionId) : TelnetOption id.half.traits (Outbox (Owned κ) Ω) where
  optionCode := id.code
  state w := w.own.state id
  setState st w := { w with own.state := Function.update w.own.state id st }
  write := write
  onStateChanged := perform write (A.onStateChanged id)
  handleSubnegotiation content w :=
    perform write (A.handleSubnegotiation id content)
      { w with own.handled := w.own.handled ++ [(id, content)] }

def installOptions (s : Session (Outbox (Owned κ) Ω)) (ids : List OptionId) :
    Session (Outbox (Owned κ) Ω) :=
  ids.foldl (fun s id => s.installOption (A.option write id)) s

def installCommands (s : Session (Outbox (Owned κ) Ω)) (cmds : List CommandType) :
    Session (Outbox (Owned κ) Ω) :=
  cmds.foldl (fun s cmd => s.installCommand cmd fun cmd => perform write (A.onCommand cmd)) s

def session : Session (Outbox (Owned κ) Ω) :=
  A.installOptions write (A.installCommands write (Session.new write) A.commands) A.options

/-- The callback of `async_read`: the data of a span, one byte after another. -/
def callback (data : Bytes) (w : Outbox (Owned κ) Ω) : Outbox (Owned κ) Ω :=
  data.foldl (fun w by_ => perform write (A.onByte by_) w) w

def receive (elem : Element) : Outbox (Owned κ) Ω → Outbox (Owned κ) Ω :=
  (A.session write).tokenHandler (A.callback write) elem

/-- A call on an option that is not installed is not made. -/
def input : AppInput α → Outbox (Owned κ) Ω → Outbox (Owned κ) Ω
  | .call id c => fun w => if id ∈ A.options then (A.option write id).call c w else w
  | .request i => perform write (A.request i)

end Session

/-- The option that the subnegotiations of a code are routed to. -/
def lastInstalled (code : OptionType) : Option OptionId :=
  A.options.reverse.find? fun id => id.code = code

/-! ## Routes -/

section Routes

variable (write : Element → Outbox (Owned κ) Ω → Outbox (Owned κ) Ω)

theorem installCommands_routers (s : Session (Outbox (Owned κ) Ω)) (cmds : List CommandType) :
    let t := A.installCommands write s cmds
    t.negotiationRouter = s.negotiationRouter ∧ t.subnegotiationRouter = s.subnegotiationRouter ∧
      t.parser = s.parser ∧
      (∀ cmd, t.commandRouter.registeredFunctions cmd =
        if cmd ∈ cmds then some fun cmd => perform write (A.onCommand cmd)
        else s.commandRouter.registeredFunctions cmd) ∧
      t.commandRouter.unregisteredRoute = s.commandRouter.unregisteredRoute := by
  induction cmds generalizing s with
  | nil => exact ⟨rfl, rfl, rfl, fun _ => (if_neg List.not_mem_nil).symm, rfl⟩
  | cons cmd cmds ih =>
      obtain ⟨hneg, hsub, hparser, hcmd, hother⟩ := ih (s.installCommand cmd fun cmd =>
        perform write (A.onCommand cmd))
      refine ⟨hneg, hsub, hparser, ?_, hother⟩
      intro cmd'
      apply (hcmd cmd').trans
      simp only [Session.installCommand, Router.registerRoute, Function.update_apply,
        List.mem_cons]
      grind

theorem installOptions_command (s : Session (Outbox (Owned κ) Ω)) (ids : List OptionId) :
    (A.installOptions write s ids).commandRouter = s.commandRouter ∧
      (A.installOptions write s ids).parser = s.parser := by
  induction ids generalizing s with
  | nil => exact ⟨rfl, rfl⟩
  | cons id ids ih => exact ih _

theorem installOptions_subnegotiation (s : Session (Outbox (Owned κ) Ω)) (ids : List OptionId)
    (code : OptionType) :
    (A.installOptions write s ids).subnegotiationRouter.registeredFunctions code =
      match ids.reverse.find? fun id => id.code = code with
      | some id => some fun sub => (A.option write id).subnegotiate sub.content
      | none => s.subnegotiationRouter.registeredFunctions code := by
  induction ids generalizing s with
  | nil => rfl
  | cons id ids ih =>
      have hinstall := Session.subnegotiationRouter_installOption (s := s) (A.option write id) code
      apply (ih _).trans
      rw [List.reverse_cons, List.find?_append]
      cases hlast : ids.reverse.find? fun id => id.code = code with
      | some id' => rfl
      | none =>
          apply hinstall.trans
          by_cases hcode : id.code = code
          · simp [hcode, option]
          · simp [hcode, option, Ne.symm hcode]

theorem installOptions_unregistered (s : Session (Outbox (Owned κ) Ω)) (ids : List OptionId) :
    (A.installOptions write s ids).negotiationRouter.unregisteredRoute =
        s.negotiationRouter.unregisteredRoute ∧
      (A.installOptions write s ids).subnegotiationRouter.unregisteredRoute =
        s.subnegotiationRouter.unregisteredRoute := by
  induction ids generalizing s with
  | nil => exact ⟨rfl, rfl⟩
  | cons id ids ih => exact ih _

theorem install_negotiation (s : Session (Outbox (Owned κ) Ω)) (id : OptionId)
    (neg : Negotiation) :
    (s.installOption (A.option write id)).negotiationRouter.registeredFunctions neg =
      if id.Owns neg then some fun _ => (A.option write id).negotiate neg.request
      else s.negotiationRouter.registeredFunctions neg := by
  have hcode : (A.option write id).optionCode = id.code := rfl
  rw [Session.negotiationRouter_installOption, hcode]
  by_cases howns : id.Owns neg
  · rw [if_pos howns]
    have hdistinct := Endpoint.remotePositive_ne id.half
    rcases howns with rfl | rfl
    · rw [if_neg (by simp [hdistinct]), if_pos rfl]
    · rw [if_pos rfl]
  · rw [if_neg howns]
    rw [OptionId.Owns, not_or] at howns
    rw [if_neg howns.2, if_neg howns.1]

theorem installOptions_unowned (s : Session (Outbox (Owned κ) Ω)) {ids : List OptionId}
    {neg : Negotiation} (hunowned : ∀ id ∈ ids, ¬ id.Owns neg) :
    (A.installOptions write s ids).negotiationRouter.registeredFunctions neg =
      s.negotiationRouter.registeredFunctions neg := by
  induction ids generalizing s with
  | nil => rfl
  | cons id ids ih =>
      obtain ⟨hid, hids⟩ := List.forall_mem_cons.mp hunowned
      exact (ih _ hids).trans ((A.install_negotiation write s id neg).trans (if_neg hid))

theorem installOptions_owned (s : Session (Outbox (Owned κ) Ω)) {ids : List OptionId}
    {id : OptionId} (hid : id ∈ ids) {neg : Negotiation} (howns : id.Owns neg) :
    (A.installOptions write s ids).negotiationRouter.registeredFunctions neg =
      some fun _ => (A.option write id).negotiate neg.request := by
  induction ids generalizing s with
  | nil => exact absurd hid List.not_mem_nil
  | cons id' ids ih =>
      by_cases hlater : id ∈ ids
      · exact ih _ hlater
      · obtain rfl : id = id' := (List.mem_cons.mp hid).resolve_right hlater
        have hunowned : ∀ id' ∈ ids, ¬ id'.Owns neg := fun id' hid' howns' =>
          hlater (OptionId.owns_unique howns howns' ▸ hid')
        apply (A.installOptions_unowned write _ hunowned).trans
        rw [A.install_negotiation, if_pos howns]

end Routes

/-! ## What is done with an element -/

section Receive

variable (write : Element → Outbox (Owned κ) Ω → Outbox (Owned κ) Ω) (w : Outbox (Owned κ) Ω)

theorem receive_bytes (data : Bytes) :
    A.receive write (.bytes data) w = A.callback write data w := rfl

theorem receive_command (cmd : Command) :
    A.receive write (.command cmd) w =
      if cmd.value ∈ A.commands then perform write (A.onCommand cmd) w else w := by
  let s := A.installCommands write (Session.new write) A.commands
  obtain ⟨-, -, -, hcmd, hother⟩ := A.installCommands_routers write (Session.new write) A.commands
  obtain ⟨hrouter, -⟩ := A.installOptions_command write s A.options
  simp only [receive, Session.tokenHandler, session, Router.route]
  rw [show (A.installOptions write s A.options).commandRouter = s.commandRouter from hrouter,
    hcmd cmd.value, show s.commandRouter.unregisteredRoute = none from hother]
  by_cases h : cmd.value ∈ A.commands
  · rw [if_pos h, if_pos h]
  · rw [if_neg h, if_neg h]
    rfl

theorem receive_owned {id : OptionId} (hid : id ∈ A.options) {neg : Negotiation}
    (howns : id.Owns neg) :
    A.receive write (.negotiation neg) w = (A.option write id).negotiate neg.request w := by
  have hroute := A.installOptions_owned write
    (A.installCommands write (Session.new write) A.commands) hid howns
  simp only [receive, Session.tokenHandler, session, Router.route, id_eq, hroute]

theorem receive_unowned {neg : Negotiation} (hunowned : ∀ id ∈ A.options, ¬ id.Owns neg) :
    A.receive write (.negotiation neg) w = write (.negotiation (refusal neg)) w := by
  let s := A.installCommands write (Session.new write) A.commands
  obtain ⟨hneg, -⟩ := A.installCommands_routers write (Session.new write) A.commands
  have hroute := A.installOptions_unowned write s hunowned
  obtain ⟨hother, -⟩ := A.installOptions_unregistered write s A.options
  rw [hneg] at hroute hother
  simp only [receive, Session.tokenHandler, session, Router.route, id_eq]
  rw [show (A.installOptions write s A.options).negotiationRouter.registeredFunctions neg = none
    from hroute, show (A.installOptions write s A.options).negotiationRouter.unregisteredRoute =
      some fun neg => write (.negotiation (refusal neg)) from hother]

theorem receive_subnegotiation (sub : Subnegotiation) :
    A.receive write (.subnegotiation sub) w =
      match A.lastInstalled sub.option with
      | some id => (A.option write id).subnegotiate sub.content w
      | none => w := by
  let s := A.installCommands write (Session.new write) A.commands
  obtain ⟨-, hsub, -⟩ := A.installCommands_routers write (Session.new write) A.commands
  have hroute := A.installOptions_subnegotiation write s A.options sub.option
  obtain ⟨-, hother⟩ := A.installOptions_unregistered write s A.options
  rw [hsub] at hroute hother
  simp only [receive, Session.tokenHandler, session, Router.route]
  rw [show (A.installOptions write s A.options).subnegotiationRouter.unregisteredRoute = none
    from hother, hroute, lastInstalled]
  cases A.options.reverse.find? fun id => id.code = sub.option <;> rfl

/-- What can come of an element: its data is called back, its command is handled, it is
negotiated by its owner or refused, or its content is handed to the last option of the code. -/
theorem receive_cases {P : Outbox (Owned κ) Ω → Prop} (elem : Element) (hnothing : P w)
    (hbytes : ∀ data, elem = .bytes data → P (A.callback write data w))
    (hcommand : ∀ cmd, elem = .command cmd → P (perform write (A.onCommand cmd) w))
    (howned : ∀ id ∈ A.options, ∀ neg, elem = .negotiation neg → id.Owns neg →
      P ((A.option write id).negotiate neg.request w))
    (hunowned : ∀ neg, elem = .negotiation neg → (∀ id ∈ A.options, ¬ id.Owns neg) →
      P (write (.negotiation (refusal neg)) w))
    (hsubnegotiation : ∀ id sub, elem = .subnegotiation sub →
      A.lastInstalled sub.option = some id → P ((A.option write id).subnegotiate sub.content w)) :
    P (A.receive write elem w) := by
  cases elem with
  | bytes data => exact hbytes data rfl
  | command cmd =>
      rw [receive_command]
      split
      · exact hcommand cmd rfl
      · exact hnothing
  | negotiation neg =>
      by_cases h : ∃ id ∈ A.options, id.Owns neg
      · obtain ⟨id, hid, howns⟩ := h
        rw [A.receive_owned write w hid howns]
        exact howned id hid neg rfl howns
      · push Not at h
        rw [A.receive_unowned write w h]
        exact hunowned neg rfl h
  | subnegotiation sub =>
      rw [receive_subnegotiation]
      cases hlast : A.lastInstalled sub.option with
      | none => exact hnothing
      | some id => exact hsubnegotiation id sub rfl hlast

end Receive

end Application

end Telnetpp
