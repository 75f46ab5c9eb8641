import Telnetpp.Core

/-!
# Options

`TelnetOption` is the class template `option` over a type of worlds: a world
is everything that an option can reach, its own state and its session
included, and each member function is a function from worlds to worlds.
-/

namespace Telnetpp

inductive InternalState
  | inactive
  | activating
  | active
  | deactivating
  deriving DecidableEq, Repr

/-- The template parameters of `option`. -/
structure OptionTraits where
  localPositive : NegotiationType
  localNegative : NegotiationType
  remotePositive : NegotiationType
  remoteNegative : NegotiationType
  deriving DecidableEq, Repr

def clientTraits : OptionTraits := ⟨do_, dont, will, wont⟩

def serverTraits : OptionTraits := ⟨will, wont, do_, dont⟩

inductive Half
  | client
  | server
  deriving DecidableEq, Repr

def Half.traits : Half → OptionTraits
  | .client => clientTraits
  | .server => serverTraits

/-- `write` is the session's `write`, `onStateChanged` calls what is connected
to the signal, and `handleSubnegotiation` is the virtual function. -/
structure TelnetOption (traits : OptionTraits) (σ : Type*) where
  optionCode : OptionType
  state : σ → InternalState
  setState : InternalState → σ → σ
  write : Element → σ → σ
  onStateChanged : σ → σ
  handleSubnegotiation : Bytes → σ → σ

abbrev ClientOption (σ : Type*) := TelnetOption clientTraits σ

abbrev ServerOption (σ : Type*) := TelnetOption serverTraits σ

namespace TelnetOption

variable {traits : OptionTraits} {σ : Type*} (opt : TelnetOption traits σ)

def active (w : σ) : Bool := opt.state w == .active

def writeText (content : Bytes) (w : σ) : σ := opt.write (.bytes content) w

def writeSubnegotiation (content : Bytes) (w : σ) : σ :=
  opt.write (.subnegotiation ⟨opt.optionCode, content⟩) w

def writeNegotiation (neg : NegotiationType) (w : σ) : σ :=
  opt.write (.negotiation ⟨neg, opt.optionCode⟩) w

def activate (w : σ) : σ :=
  match opt.state w with
  | .inactive => opt.writeNegotiation traits.localPositive (opt.setState .activating w)
  | .activating => w
  | .active => opt.onStateChanged w
  | .deactivating => w

def deactivate (w : σ) : σ :=
  match opt.state w with
  | .active => opt.writeNegotiation traits.localNegative (opt.setState .deactivating w)
  | .activating => w
  | .inactive => opt.onStateChanged w
  | .deactivating => w

/-- An active option that is refused signals the change before it answers;
an inactive one that is asked for signals it after. -/
def negotiate (neg : NegotiationType) (w : σ) : σ :=
  match opt.state w with
  | .inactive =>
      if neg = traits.remotePositive then
        opt.onStateChanged (opt.writeNegotiation traits.localPositive (opt.setState .active w))
      else opt.writeNegotiation traits.localNegative w
  | .activating =>
      if neg = traits.remotePositive then opt.onStateChanged (opt.setState .active w)
      else opt.onStateChanged (opt.setState .inactive w)
  | .active =>
      if neg = traits.remotePositive then opt.writeNegotiation traits.localPositive w
      else
        opt.writeNegotiation traits.localNegative (opt.onStateChanged (opt.setState .inactive w))
  | .deactivating =>
      if neg = traits.remotePositive then opt.onStateChanged (opt.setState .active w)
      else opt.onStateChanged (opt.setState .inactive w)

def subnegotiate (content : Bytes) (w : σ) : σ :=
  if opt.state w = .active then opt.handleSubnegotiation content w else w

end TelnetOption

/-- The two requests that an application can make of an option. -/
inductive Call
  | activate
  | deactivate
  deriving DecidableEq, Repr

def TelnetOption.call {traits : OptionTraits} {σ : Type*} (opt : TelnetOption traits σ) :
    Call → σ → σ
  | .activate => opt.activate
  | .deactivate => opt.deactivate

end Telnetpp
