import Telnetpp.Session
import Telnetpp.Foundation.ModeAgreement

/-!
# One end of a negotiation

The session at one end of the links, with the option of one half and one
code installed or not. Read through `stance` and `notice`, it is one end of
a net whose ends agree on a mode.
-/

namespace Telnetpp

open Foundation

/-- The state of the option and what its session has written. -/
structure Endpoint where
  state : InternalState
  written : List Element := []

namespace Endpoint

def write (elem : Element) (w : Endpoint) : Endpoint :=
  { w with written := w.written ++ [elem] }

def quietOption (half : Half) (code : OptionType) : TelnetOption half.traits Endpoint where
  optionCode := code
  state := Endpoint.state
  setState st w := { w with state := st }
  write := write
  onStateChanged := id
  handleSubnegotiation := fun _ => id

/-- The option whose `on_state_changed` handler makes one call, if any, the
emissions of that call being ignored. -/
def hookedOption (half : Half) (code : OptionType) (hook : Option Call) :
    TelnetOption half.traits Endpoint :=
  { quietOption half code with
    onStateChanged :=
      match hook with
      | none => id
      | some c => (quietOption half code).call c }

def session (half : Half) (code : OptionType) (present : Bool) (hook : Option Call) :
    Session Endpoint :=
  let s := Session.new write
  if present then s.installOption (hookedOption half code hook) else s

end Endpoint

/-- An end as a process that calls its option and is delivered elements, with
a choice for the handler of `on_state_changed` at each step. -/
def endpoint (half : Half) (code : OptionType) (present : Bool) :
    Process (Call × Option Call) (Option Call) Element Element InternalState where
  act i st :=
    if present then
      let w := (Endpoint.hookedOption half code i.2).call i.1 ⟨st, []⟩
      (w.state, w.written)
    else (st, [])
  recv hook elem st :=
    let w := (Endpoint.session half code present hook).tokenHandler (fun _ w => w) elem ⟨st, []⟩
    (w.state, w.written)

def Half.other : Half → Half
  | .client => .server
  | .server => .client

namespace Endpoint

open ModeAgreement

def stance (present : Bool) (st : InternalState) : Stance :=
  if present then
    match st with
    | .inactive => .settled false
    | .active => .settled true
    | .activating => .waiting
    | .deactivating => .waiting
  else .refusing

/-- What an element means to the option of the given half. -/
def notice (half : Half) (code : OptionType) : Element → Notice
  | .negotiation neg =>
      if neg = ⟨half.traits.remotePositive, code⟩ then .mode true
      else if neg = ⟨half.traits.remoteNegative, code⟩ then .mode false
      else .foreign
  | _ => .inert

/-- What the handler's call amounts to when the given message changes the mode. -/
def reaction : Notice → Option Call → Reaction
  | .mode true, some .deactivate => .askAfter
  | .mode false, some .activate => .askAhead
  | _, _ => .quiet

theorem reaction_none (m : Notice) : reaction m none = .quiet := by
  cases m with
  | mode m => cases m <;> rfl
  | _ => rfl

variable (half : Half) (code : OptionType)

def modeRequest (m : Bool) : NegotiationType :=
  if m then half.traits.remotePositive else half.traits.remoteNegative

theorem remotePositive_ne : half.traits.remotePositive ≠ half.traits.remoteNegative := by
  cases half <;> decide

theorem notice_remotePositive :
    notice half code (.negotiation ⟨half.traits.remotePositive, code⟩) = .mode true := by
  simp [notice]

theorem notice_remoteNegative :
    notice half code (.negotiation ⟨half.traits.remoteNegative, code⟩) = .mode false := by
  simp [notice, (remotePositive_ne half).symm]

theorem notice_modeRequest (m : Bool) :
    notice half code (.negotiation ⟨modeRequest half m, code⟩) = .mode m := by
  cases m with
  | false => exact notice_remoteNegative half code
  | true => exact notice_remotePositive half code

theorem notice_localPositive :
    notice half.other code (.negotiation ⟨half.traits.localPositive, code⟩) = .mode true := by
  cases half <;> exact notice_remotePositive _ code

theorem notice_localNegative :
    notice half.other code (.negotiation ⟨half.traits.localNegative, code⟩) = .mode false := by
  cases half <;> exact notice_remoteNegative _ code

theorem notice_eq_mode {neg : Negotiation} {m : Bool}
    (h : notice half code (.negotiation neg) = .mode m) : neg = ⟨modeRequest half m, code⟩ := by
  by_cases hpos : neg = ⟨half.traits.remotePositive, code⟩
  · rw [hpos, notice_remotePositive] at h
    obtain rfl : true = m := by simpa using h
    exact hpos
  · by_cases hneg : neg = ⟨half.traits.remoteNegative, code⟩
    · rw [hneg, notice_remoteNegative] at h
      obtain rfl : false = m := by simpa using h
      exact hneg
    · simp [notice, hpos, hneg] at h

/-- A session without the option refuses either request for it alike. -/
theorem refusal_modeRequest (m : Bool) :
    refusal ⟨modeRequest half m, code⟩ = ⟨half.traits.localNegative, code⟩ := by
  cases half <;> cases m <;> rfl

/-- What is foreign to one end is refused with what is foreign to the other. -/
theorem notice_refusal {neg : Negotiation} (hneg : isNegotiationType neg.request = true)
    (hforeign : notice half code (.negotiation neg) = .foreign) :
    notice half.other code (.negotiation (refusal neg)) = .foreign := by
  rcases neg with ⟨request, code'⟩
  have hrequest : request = will ∨ request = wont ∨ request = do_ ∨ request = dont := by
    simpa [isNegotiationType, or_assoc] using hneg
  have hdistinct : will ≠ wont ∧ will ≠ do_ ∧ will ≠ dont ∧ wont ≠ do_ ∧ wont ≠ dont ∧
      do_ ≠ dont := by decide
  cases half <;>
    simp only [notice, refusal, Half.traits, Half.other, clientTraits, serverTraits,
      Negotiation.mk.injEq] at hforeign ⊢ <;> grind

/-- The sessions of the two kinds of end route a negotiation to the option, or
refuse it. -/
theorem tokenHandler_negotiation (present : Bool) (hook : Option Call) (neg : Negotiation)
    (w : Endpoint) :
    (session half code present hook).tokenHandler (fun _ w => w) (.negotiation neg) w =
      match present, notice half code (.negotiation neg) with
      | true, .mode m => (hookedOption half code hook).negotiate (modeRequest half m) w
      | _, _ => write (.negotiation (refusal neg)) w := by
  cases present with
  | false => rfl
  | true =>
      simp only [session, Session.tokenHandler, Router.route, if_true, id,
        Session.negotiationRouter_installOption]
      have hcode : (hookedOption half code hook).optionCode = code := rfl
      rw [hcode]
      by_cases hneg : neg = ⟨half.traits.remoteNegative, code⟩
      · rw [hneg, notice_remoteNegative, if_pos rfl]
        rfl
      · by_cases hpos : neg = ⟨half.traits.remotePositive, code⟩
        · rw [hpos, notice_remotePositive, if_neg (hpos ▸ hneg), if_pos rfl]
          rfl
        · rw [if_neg hneg, if_neg hpos]
          simp only [notice, if_neg hpos, if_neg hneg]
          rfl

/-- Elements that are not negotiations change nothing at an end whose option
ignores its subnegotiations. -/
theorem tokenHandler_inert (present : Bool) (hook : Option Call) {elem : Element}
    (h : notice half code elem = .inert) (w : Endpoint) :
    (session half code present hook).tokenHandler (fun _ w => w) elem w = w := by
  cases elem with
  | bytes data => rfl
  | command cmd => cases present <;> rfl
  | subnegotiation sub =>
      cases present with
      | false => rfl
      | true =>
          simp only [session, Session.tokenHandler, Router.route, if_true,
            Session.subnegotiationRouter_installOption]
          by_cases hcode : sub.option = (hookedOption half code hook).optionCode
          · simp only [if_pos hcode, TelnetOption.subnegotiate]
            exact ite_self w
          · simp only [if_neg hcode]
            rfl
  | negotiation neg =>
      exfalso
      revert h
      simp only [notice]
      split
      · simp
      · split <;> simp

/-- The option of an end takes a request for a mode as a peer does. -/
theorem negotiate_simulates (hook : Option Call) (m : Bool) (st : InternalState) :
    let w := (hookedOption half code hook).negotiate (modeRequest half m) ⟨st, []⟩
    receive (reaction (.mode m) hook) (.mode m) (stance true st) =
      (stance true w.state, w.written.map (notice half.other code)) := by
  have hpos := notice_localPositive half code
  have hneg := notice_localNegative half code
  have hne := (remotePositive_ne half).symm
  cases m <;> cases st <;> rcases hook with _ | ⟨_ | _⟩ <;>
    simp [modeRequest, TelnetOption.negotiate, TelnetOption.call, TelnetOption.activate,
      TelnetOption.deactivate, TelnetOption.writeNegotiation, hookedOption, quietOption, write,
      stance, receive, reaction, hpos, hneg, hne]

/-- An end reacts to an element as a peer does to its notice. -/
theorem recv_simulates (present : Bool) (hook : Option Call) {elem : Element}
    (helem : elem.WellFormed) (st : InternalState) :
    let r := (endpoint half code present).recv hook elem st
    receive (reaction (notice half code elem) hook) (notice half code elem)
        (stance present st) =
      (stance present r.1, r.2.map (notice half.other code)) := by
  intro r
  cases hnotice : notice half code elem with
  | inert =>
      have hr : r = (st, []) := by
        simp only [r, endpoint, tokenHandler_inert half code present hook hnotice]
      rw [hr]
      cases stance present st <;> rfl
  | foreign =>
      cases elem with
      | negotiation neg =>
          have hr : r = (st, [.negotiation (refusal neg)]) := by
            simp only [r, endpoint, tokenHandler_negotiation, hnotice]
            cases present <;> rfl
          rw [hr, List.map_singleton, notice_refusal half code helem hnotice]
          cases stance present st <;> rfl
      | _ => simp [notice] at hnotice
  | mode m =>
      cases elem with
      | negotiation neg =>
          cases present with
          | false =>
              have hr : r = (st, [.negotiation (refusal neg)]) := by
                simp only [r, endpoint, tokenHandler_negotiation]
                rfl
              rw [hr, notice_eq_mode half code hnotice, refusal_modeRequest, List.map_singleton,
                notice_localNegative]
              rfl
          | true =>
              have hsim := negotiate_simulates half code hook m st
              simp only [r, endpoint, tokenHandler_negotiation, hnotice]
              exact hsim
      | _ => simp [notice] at hnotice

/-- A call at an end is a request of the peer, or nothing. -/
theorem act_simulates (present : Bool) (i : Call × Option Call) (st : InternalState) :
    let r := (endpoint half code present).act i st
    (stance present r.1 = stance present st ∧ r.2 = []) ∨
      request (stance present st) =
        (stance present r.1, r.2.map (notice half.other code)) := by
  have hpos := notice_localPositive half code
  have hneg := notice_localNegative half code
  obtain ⟨c, hook⟩ := i
  cases present with
  | false => exact Or.inl ⟨rfl, rfl⟩
  | true =>
      cases st <;> cases c <;> rcases hook with _ | ⟨_ | _⟩ <;>
        simp [endpoint, stance, request, TelnetOption.call, TelnetOption.activate,
          TelnetOption.deactivate, TelnetOption.writeNegotiation, hookedOption, quietOption,
          write, hpos, hneg]

def settledState (m : Bool) : InternalState := if m then .active else .inactive

theorem mode?_stance {present : Bool} {st : InternalState}
    (h : present = false → st = .inactive) (m : Bool) :
    (stance present st).mode? = some m ↔ st = settledState m := by
  cases present with
  | false =>
      rw [h rfl]
      cases m <;> decide
  | true => cases st <;> cases m <;> decide

theorem absent_recv (hook : Option Call) (elem : Element) (st : InternalState) :
    ((endpoint half code false).recv hook elem st).1 = st := by cases elem <;> rfl

/-! ## What an end writes is well formed -/

theorem localPositive_wellFormed :
    (Element.negotiation ⟨half.traits.localPositive, code⟩).WellFormed := by
  show isNegotiationType half.traits.localPositive = true
  cases half <;> decide

theorem localNegative_wellFormed :
    (Element.negotiation ⟨half.traits.localNegative, code⟩).WellFormed := by
  show isNegotiationType half.traits.localNegative = true
  cases half <;> decide

theorem refusal_wellFormed (neg : Negotiation) :
    (Element.negotiation (refusal neg)).WellFormed := by
  show isNegotiationType (if neg.request = will ∨ neg.request = wont then dont else wont) = true
  split <;> decide

theorem act_wellFormed (present : Bool) (i : Call × Option Call) (st : InternalState) :
    ∀ elem ∈ ((endpoint half code present).act i st).2, elem.WellFormed := by
  have hpos := localPositive_wellFormed half code
  have hneg := localNegative_wellFormed half code
  obtain ⟨c, hook⟩ := i
  cases present with
  | false => simp [endpoint]
  | true =>
      cases st <;> cases c <;> rcases hook with _ | ⟨_ | _⟩ <;>
        simp [endpoint, TelnetOption.call, TelnetOption.activate, TelnetOption.deactivate,
          TelnetOption.writeNegotiation, hookedOption, quietOption, write, hpos, hneg]

theorem negotiate_wellFormed (hook : Option Call) (m : Bool) (st : InternalState) :
    ∀ elem ∈ ((hookedOption half code hook).negotiate (modeRequest half m) ⟨st, []⟩).written,
      elem.WellFormed := by
  have hpos := localPositive_wellFormed half code
  have hneg := localNegative_wellFormed half code
  have hne := (remotePositive_ne half).symm
  cases m <;> cases st <;> rcases hook with _ | ⟨_ | _⟩ <;>
    simp [modeRequest, TelnetOption.negotiate, TelnetOption.call, TelnetOption.activate,
      TelnetOption.deactivate, TelnetOption.writeNegotiation, hookedOption, quietOption, write,
      hpos, hneg, hne]

theorem recv_wellFormed (present : Bool) (hook : Option Call) (elem : Element)
    (st : InternalState) :
    ∀ elem' ∈ ((endpoint half code present).recv hook elem st).2, elem'.WellFormed := by
  cases hnotice : notice half code elem with
  | inert => simp [endpoint, tokenHandler_inert half code present hook hnotice]
  | foreign =>
      cases elem with
      | negotiation neg =>
          simpa only [endpoint, tokenHandler_negotiation, hnotice, write, List.nil_append,
            List.forall_mem_singleton] using refusal_wellFormed neg
      | _ => simp [notice] at hnotice
  | mode m =>
      cases elem with
      | negotiation neg =>
          simp only [endpoint, tokenHandler_negotiation, hnotice]
          cases present with
          | false => simpa [write] using refusal_wellFormed neg
          | true => exact negotiate_wellFormed half code hook m st
      | _ => simp [notice] at hnotice

end Endpoint

end Telnetpp
