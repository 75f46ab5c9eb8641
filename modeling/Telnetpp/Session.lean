import Telnetpp.Generator
import Telnetpp.Option
import Telnetpp.Parser
import Mathlib.Logic.Function.Basic

/-!
# Routers and sessions

A router maps keys to handlers, and a session routes what its parser emits.
Handlers are functions on worlds, as the member functions of an option are.
-/

namespace Telnetpp

structure Router (Key Message σ : Type*) where
  registeredFunctions : Key → Option (Message → σ → σ) := fun _ => none
  unregisteredRoute : Option (Message → σ → σ) := none

namespace Router

variable {Key Message σ : Type*} [DecidableEq Key] (r : Router Key Message σ)

/-- A route that is registered again replaces the one before. -/
def registerRoute (key : Key) (cont : Message → σ → σ) : Router Key Message σ :=
  { r with registeredFunctions := Function.update r.registeredFunctions key (some cont) }

def setUnregisteredRoute (cont : Message → σ → σ) : Router Key Message σ :=
  { r with unregisteredRoute := some cont }

/-- `operator()`. -/
def route (keyFromMessage : Message → Key) (message : Message) (w : σ) : σ :=
  match r.registeredFunctions (keyFromMessage message) with
  | some f => f message w
  | none =>
      match r.unregisteredRoute with
      | some f => f message w
      | none => w

end Router

abbrev CommandRouter (σ : Type*) := Router CommandType Command σ
abbrev NegotiationRouter (σ : Type*) := Router Negotiation Negotiation σ
abbrev SubnegotiationRouter (σ : Type*) := Router OptionType Subnegotiation σ

section Registration

variable {traits : OptionTraits} {σ : Type*}

def registerRouteFromNegotiationToOption (route : NegotiationRouter σ)
    (request : NegotiationType) (opt : TelnetOption traits σ) : NegotiationRouter σ :=
  route.registerRoute ⟨request, opt.optionCode⟩ fun _ => opt.negotiate request

def registerRouteFromSubnegotiationToOption (route : SubnegotiationRouter σ)
    (opt : TelnetOption traits σ) : SubnegotiationRouter σ :=
  route.registerRoute opt.optionCode fun sub => opt.subnegotiate sub.content

def registerOption (opt : TelnetOption traits σ) (negRouter : NegotiationRouter σ)
    (subRouter : SubnegotiationRouter σ) : NegotiationRouter σ × SubnegotiationRouter σ :=
  (registerRouteFromNegotiationToOption
      (registerRouteFromNegotiationToOption negRouter traits.remotePositive opt)
      traits.remoteNegative opt,
    registerRouteFromSubnegotiationToOption subRouter opt)

def registerClientOption (opt : ClientOption σ) := registerOption opt

def registerServerOption (opt : ServerOption σ) := registerOption opt

end Registration

/-- `impl`, which is all of a session but its channel. -/
structure Session (σ : Type*) where
  parser : Parser := {}
  commandRouter : CommandRouter σ := {}
  negotiationRouter : NegotiationRouter σ := {}
  subnegotiationRouter : SubnegotiationRouter σ := {}

/-- The answer of a session to a negotiation that belongs to no installed
option. -/
def refusal (neg : Negotiation) : Negotiation :=
  ⟨if neg.request = will ∨ neg.request = wont then dont else wont, neg.optionCode⟩

namespace Session

variable {σ : Type*}

/-- `write`, given the `write` of the channel. -/
def write (channel : Bytes → σ → σ) (elem : Element) (w : σ) : σ :=
  (generate elem).foldl (fun w data => channel data w) w

/-- The constructor, given the session's own `write`. -/
def new (write : Element → σ → σ) : Session σ :=
  { negotiationRouter :=
      ({} : NegotiationRouter σ).setUnregisteredRoute fun neg =>
        write (.negotiation (refusal neg)) }

variable (s : Session σ)

def installCommand (cmd : CommandType) (handler : Command → σ → σ) : Session σ :=
  { s with commandRouter := s.commandRouter.registerRoute cmd handler }

/-- `install`, of either kind of option. -/
def installOption {traits : OptionTraits} (opt : TelnetOption traits σ) : Session σ :=
  let r := registerOption opt s.negotiationRouter s.subnegotiationRouter
  { s with negotiationRouter := r.1, subnegotiationRouter := r.2 }

def installClient (opt : ClientOption σ) : Session σ :=
  let r := registerClientOption opt s.negotiationRouter s.subnegotiationRouter
  { s with negotiationRouter := r.1, subnegotiationRouter := r.2 }

def installServer (opt : ServerOption σ) : Session σ :=
  let r := registerServerOption opt s.negotiationRouter s.subnegotiationRouter
  { s with negotiationRouter := r.1, subnegotiationRouter := r.2 }

/-- `token_handler`, with the callback of the application. -/
def tokenHandler (callback : Bytes → σ → σ) : Element → σ → σ
  | .bytes inputContent => callback inputContent
  | .command cmd => s.commandRouter.route Command.value cmd
  | .negotiation neg => s.negotiationRouter.route id neg
  | .subnegotiation sub => s.subnegotiationRouter.route Subnegotiation.option sub

/-- What one delivery calls, in order: the token handler with every element
the parser emits, then the callback with an empty span. -/
def calls (content : Bytes) : List Element := (s.parser.feed content).2 ++ [.bytes []]

/-- `async_read`, once the channel delivers `content`. -/
def asyncRead (callback : Bytes → σ → σ) (content : Bytes) (w : σ) : Session σ × σ :=
  ({ s with parser := (s.parser.feed content).1 },
    (s.calls content).foldl (fun w elem => s.tokenHandler callback elem w) w)

/-! ## What the routers do with a negotiation -/

variable {s}

theorem negotiationRouter_installOption {traits : OptionTraits} (opt : TelnetOption traits σ)
    (neg : Negotiation) :
    (s.installOption opt).negotiationRouter.registeredFunctions neg =
      if neg = ⟨traits.remoteNegative, opt.optionCode⟩ then
        some fun _ => opt.negotiate traits.remoteNegative
      else if neg = ⟨traits.remotePositive, opt.optionCode⟩ then
        some fun _ => opt.negotiate traits.remotePositive
      else s.negotiationRouter.registeredFunctions neg := by
  simp only [installOption, registerOption, registerRouteFromNegotiationToOption,
    Router.registerRoute, Function.update_apply]

theorem subnegotiationRouter_installOption {traits : OptionTraits}
    (opt : TelnetOption traits σ) (code : OptionType) :
    (s.installOption opt).subnegotiationRouter.registeredFunctions code =
      if code = opt.optionCode then some fun sub => opt.subnegotiate sub.content
      else s.subnegotiationRouter.registeredFunctions code := by
  simp only [installOption, registerOption, registerRouteFromSubnegotiationToOption,
    Router.registerRoute, Function.update_apply]

/-- What a session with one option may do with an element: nothing that the
world can tell, refuse a negotiation, or hand the element to the option. -/
theorem tokenHandler_installOption {traits : OptionTraits} {P : σ → Prop}
    (write : Element → σ → σ) (opt : TelnetOption traits σ) (elem : Element) (w : σ)
    (hother : (∀ request, request = traits.remoteNegative ∨ request = traits.remotePositive →
      elem ≠ .negotiation ⟨request, opt.optionCode⟩) →
        P w ∧ ∀ neg, P (write (.negotiation (refusal neg)) w))
    (hnegotiate : ∀ request, elem = .negotiation ⟨request, opt.optionCode⟩ →
      request = traits.remoteNegative ∨ request = traits.remotePositive →
      P (opt.negotiate request w))
    (hsubnegotiate : ∀ content, elem = .subnegotiation ⟨opt.optionCode, content⟩ →
      P (opt.subnegotiate content w)) :
    P (((new write).installOption opt).tokenHandler (fun _ w => w) elem w) := by
  cases elem with
  | bytes data => exact (hother (by simp)).1
  | command cmd => exact (hother (by simp)).1
  | negotiation neg =>
      simp only [tokenHandler, Router.route, id, negotiationRouter_installOption]
      split_ifs with hnegative hpositive
      · exact hnegotiate _ (congrArg Element.negotiation hnegative) (Or.inl rfl)
      · exact hnegotiate _ (congrArg Element.negotiation hpositive) (Or.inr rfl)
      · refine (hother ?_).2 neg
        rintro request (rfl | rfl) heq
        · exact hnegative (Element.negotiation.inj heq)
        · exact hpositive (Element.negotiation.inj heq)
  | subnegotiation sub =>
      simp only [tokenHandler, Router.route, subnegotiationRouter_installOption]
      split_ifs with hsub
      · exact hsubnegotiate sub.content (congrArg (fun code => Element.subnegotiation
          ⟨code, sub.content⟩) hsub)
      · exact (hother (by simp)).1

end Session

end Telnetpp
