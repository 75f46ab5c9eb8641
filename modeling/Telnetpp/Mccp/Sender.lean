import Telnetpp.Mccp.Codec
import Telnetpp.Mccp.Options
import Telnetpp.Streams

/-!
# A session in front of its codec

What a session writes goes through a codec to a socket, and the codec is
started and finished by the MCCP server that is installed on that session.
What comes out of the codec as it finishes is written by the server to its
session, and so it goes through the codec again.
-/

namespace Telnetpp.Mccp

open Foundation

/-- What is behind the codec, beside the state of the server. `failure` is the
reason why a call has not come back; there is none after it. -/
structure Line where
  state : InternalState := .inactive
  compressionActive : Bool := false
  socket : Bytes := []
  failure : Option Stop := none
  deriving DecidableEq, Repr

abbrev LineWorld (Z : Type) := CodecWorld Z Line

namespace Sender

variable {Z : Type}

def setState (st : InternalState) (w : LineWorld Z) : LineWorld Z :=
  { w with outer := { w.outer with state := st } }

def setCompressionActive (active : Bool) (w : LineWorld Z) : LineWorld Z :=
  { w with outer := { w.outer with compressionActive := active } }

def fail (reason : Stop) (w : LineWorld Z) : LineWorld Z :=
  { w with outer := { w.outer with failure := some reason } }

def attempt (call : LineWorld Z → Outcome Stop (LineWorld Z) Unit) (w : LineWorld Z) :
    LineWorld Z :=
  if w.outer.failure = none then
    match call w with
    | .done _ w' => w'
    | .stopped reason w' => fail reason w'
  else w

def toSocket : Continuation Z Line :=
  passive fun chunk line => { line with socket := line.socket ++ chunk.data }

section Server

variable (codec : Codec Z) (fuel : ℕ)

/-- `write` of the channel. The loop of the codec is given up after `fuel`
rounds more than one for every byte. -/
def channelWrite (data : Bytes) : LineWorld Z → LineWorld Z :=
  attempt (codec.operator toSocket (fuel + data.length + 1) data)

def write : Element → LineWorld Z → LineWorld Z := Session.write (channelWrite codec fuel)

def writes (elems : List Element) (w : LineWorld Z) : LineWorld Z :=
  run (fun w elem => write codec fuel elem w) w elems

/-- What the server gives the codec to finish with. -/
def writeText : Continuation Z Line := fun chunk w =>
  let w' := write codec fuel (.bytes chunk.data) w
  match w'.outer.failure with
  | none => .done () w'
  | some reason => .stopped reason w'

def finish : LineWorld Z → LineWorld Z :=
  attempt fun w =>
    match codec.finish (writeText codec fuel) w with
    | .done _ w' => .done () (setCompressionActive false w')
    | .stopped reason w' => .stopped reason w'

/-- `mccp::server`. -/
def server : ServerOption (LineWorld Z) where
  optionCode := option
  state w := w.outer.state
  setState := setState
  write := write codec fuel
  onStateChanged w := if w.outer.compressionActive then finish codec fuel w else w
  handleSubnegotiation _ := id

def startCompression (w : LineWorld Z) : LineWorld Z :=
  if (server codec fuel).active w then
    attempt (fun w => .done () (setCompressionActive true (codec.start w)))
      ((server codec fuel).writeSubnegotiation [] w)
  else w

def finishCompression (w : LineWorld Z) : LineWorld Z :=
  if (server codec fuel).active w && w.outer.compressionActive then finish codec fuel w else w

def session : Session (LineWorld Z) :=
  (Session.new (write codec fuel)).installServer (server codec fuel)

end Server

/-- What the application does while compression is active, and what its session receives. -/
inductive Input
  | text (data : Bytes)
  | finish
  | call (c : Call)
  | receive (elem : Element)
  deriving DecidableEq, Repr

def Input.apply (codec : Codec Z) (fuel : ℕ) (w : LineWorld Z) : Input → LineWorld Z
  | .text data => write codec fuel (.bytes data) w
  | .finish => finishCompression codec fuel w
  | .call c => (server codec fuel).call c w
  | .receive elem => (session codec fuel).tokenHandler (fun _ w => w) elem w

/-- Nothing happens after a failure. -/
def step (codec : Codec Z) (fuel : ℕ) (w : LineWorld Z) (i : Input) : LineWorld Z :=
  if w.outer.failure = none then i.apply codec fuel w else w

/-! ## Writes -/

section Writing

variable {codec : Codec Z} {fuel : ℕ} {w : LineWorld Z}

theorem attempt_failed {call : LineWorld Z → Outcome Stop (LineWorld Z) Unit}
    (h : w.outer.failure ≠ none) : attempt call w = w := if_neg h

theorem attempt_invariant {call : LineWorld Z → Outcome Stop (LineWorld Z) Unit}
    {I : LineWorld Z → Prop} (hfail : ∀ reason w, I w → I (fail reason w))
    (hcall : ∀ w, I w → I (call w).world) (hw : I w) : I (attempt call w) := by
  by_cases hfailure : w.outer.failure = none
  · rw [attempt, if_pos hfailure]
    have hkept := hcall w hw
    cases hend : call w with
    | done _ w' =>
        rw [hend] at hkept
        exact hkept
    | stopped reason w' =>
        rw [hend] at hkept
        exact hfail reason w' hkept
  · rwa [attempt_failed hfailure]

theorem write_invariant {I : LineWorld Z → Prop}
    (hchannel : ∀ data w, I w → I (channelWrite codec fuel data w)) (elem : Element) (hw : I w) :
    I (write codec fuel elem w) :=
  run_invariant (fun w data => channelWrite codec fuel data w) (fun w data => hchannel data w) hw
    (generate elem)

theorem writes_invariant {I : LineWorld Z → Prop}
    (hchannel : ∀ data w, I w → I (channelWrite codec fuel data w)) (elems : List Element)
    (hw : I w) : I (writes codec fuel elems w) :=
  run_invariant _ (fun _ elem hw => write_invariant hchannel elem hw) hw elems

theorem writes_failed (h : w.outer.failure ≠ none) (elems : List Element) :
    writes codec fuel elems w = w := by
  apply writes_invariant (I := fun w' => w' = w) _ _ rfl
  rintro data w' rfl
  exact attempt_failed h

theorem write_nil : write codec fuel (.bytes []) w = w := rfl

/-- No write changes the server, or the bytes that `finish` has been handed. -/
structure Untouched (w w' : LineWorld Z) : Prop where
  state : w'.outer.state = w.outer.state
  compressionActive : w'.outer.compressionActive = w.outer.compressionActive
  closing : w'.recorded Passage.closing? = w.recorded Passage.closing?

theorem Untouched.note {w' : LineWorld Z} (h : Untouched w w') {p : Passage}
    (hp : p.closing? = none) : Untouched w (w'.note p) where
  state := h.state
  compressionActive := h.compressionActive
  closing := by
    rw [CodecWorld.recorded_note, hp, Option.getD_none, List.append_nil]
    exact h.closing

theorem untouched_writes (elems : List Element) : Untouched w (writes codec fuel elems w) := by
  apply writes_invariant (I := Untouched w) _ elems ⟨rfl, rfl, rfl⟩
  intro data w' h
  apply attempt_invariant (I := Untouched w) _ _ h
  · intro reason w' h
    exact ⟨h.state, h.compressionActive, h.closing⟩
  · intro w' h
    apply Codec.operator_invariant (I := Untouched w) (fun data z => Program.allCalls_true _)
      _ _ _ _ _ _ h
    · intro z w' h
      exact ⟨h.state, h.compressionActive, h.closing⟩
    · intro chunk w' _ h
      have hnote : Untouched w (w'.note (.output chunk.data)) := h.note rfl
      exact ⟨hnote.state, hnote.compressionActive, hnote.closing⟩
    · intro data w' h
      exact h.note rfl
    · intro data w' _ h
      have hnote : Untouched w (w'.note (.passed data)) := h.note rfl
      exact ⟨hnote.state, hnote.compressionActive, hnote.closing⟩

theorem untouched_write (elem : Element) : Untouched w (write codec fuel elem w) :=
  untouched_writes [elem]

end Writing

/-! ## What one input does while compression is active -/

/-- The inputs with which compression ends: it is finished, its active option
is activated again, or the answer that the option has been waiting for or a
DONT is received. -/
def Input.Ends (w : LineWorld Z) : Input → Prop
  | .text _ => False
  | .finish => w.outer.state = .active
  | .call c => c = .activate ∧ w.outer.state = .active
  | .receive elem =>
      elem = .negotiation ⟨dont, option⟩ ∨
        elem = .negotiation ⟨do_, option⟩ ∧ w.outer.state = .deactivating

instance (w : LineWorld Z) (i : Input) : Decidable (i.Ends w) := by
  cases i <;> unfold Input.Ends <;> infer_instance

/-- The states in which compression goes on. -/
def Running (st : InternalState) : Prop := st = .active ∨ st = .deactivating

section Inputs

variable (codec : Codec Z) (fuel : ℕ)

/-- What an input comes to, when it is or is not one with which compression ends. -/
inductive Effect (ends : Prop) (w : LineWorld Z) : LineWorld Z → Prop
  | goesOn (hends : ¬ ends) (st : InternalState) (hst : Running st) (elems : List Element) :
      Effect ends w (writes codec fuel elems (setState st w))
  | finishes (hends : ends) (st : InternalState) (elems : List Element) :
      Effect ends w (writes codec fuel elems (finish codec fuel (setState st w)))

variable {codec fuel} {w : LineWorld Z}

theorem effect_idle {ends : Prop} (hends : ¬ ends) (hstate : Running w.outer.state) :
    Effect codec fuel ends w w := .goesOn hends w.outer.state hstate []

theorem effect_write {ends : Prop} (hends : ¬ ends) (hstate : Running w.outer.state)
    (elem : Element) : Effect codec fuel ends w (write codec fuel elem w) :=
  .goesOn hends w.outer.state hstate [elem]

theorem effect_finish {ends : Prop} (hends : ends) (w : LineWorld Z) :
    Effect codec fuel ends w (finish codec fuel w) := .finishes hends w.outer.state []

theorem onStateChanged_active (hactive : w.outer.compressionActive = true) :
    (server codec fuel).onStateChanged w = finish codec fuel w := if_pos hactive

theorem effect_call (hstate : Running w.outer.state) (hactive : w.outer.compressionActive = true)
    (c : Call) :
    Effect codec fuel ((Input.call c).Ends w) w ((server codec fuel).call c w) := by
  have hserver : (server codec fuel).state w = w.outer.state := rfl
  rcases hstate with hs | hs
  · cases c with
    | activate =>
        rw [TelnetOption.call, TelnetOption.activate, hserver, hs, onStateChanged_active hactive]
        exact effect_finish ⟨rfl, hs⟩ w
    | deactivate =>
        rw [TelnetOption.call, TelnetOption.deactivate, hserver, hs]
        exact .goesOn (by simp [Input.Ends]) .deactivating (Or.inr rfl) [_]
  · have hends : ¬ (Input.call c).Ends w := by simp [Input.Ends, hs]
    cases c with
    | activate =>
        rw [TelnetOption.call, TelnetOption.activate, hserver, hs]
        exact effect_idle hends (Or.inr hs)
    | deactivate =>
        rw [TelnetOption.call, TelnetOption.deactivate, hserver, hs]
        exact effect_idle hends (Or.inr hs)

theorem effect_dont (hstate : Running w.outer.state)
    (hactive : w.outer.compressionActive = true) :
    Effect codec fuel ((Input.receive (.negotiation ⟨dont, option⟩)).Ends w) w
      ((server codec fuel).negotiate dont w) := by
  have hserver : (server codec fuel).state w = w.outer.state := rfl
  have hends : (Input.receive (.negotiation ⟨dont, option⟩)).Ends w := Or.inl rfl
  have hchanged : (server codec fuel).onStateChanged (setState .inactive w) =
      finish codec fuel (setState .inactive w) := onStateChanged_active hactive
  have hnegative : dont ≠ serverTraits.remotePositive := by decide
  rcases hstate with hs | hs
  · rw [TelnetOption.negotiate, hserver, hs]
    simp only [if_neg hnegative, server] at hchanged ⊢
    rw [hchanged]
    exact .finishes hends .inactive [.negotiation ⟨wont, option⟩]
  · rw [TelnetOption.negotiate, hserver, hs]
    simp only [if_neg hnegative, server] at hchanged ⊢
    rw [hchanged]
    exact .finishes hends .inactive []

theorem effect_do (hstate : Running w.outer.state)
    (hactive : w.outer.compressionActive = true) :
    Effect codec fuel ((Input.receive (.negotiation ⟨do_, option⟩)).Ends w) w
      ((server codec fuel).negotiate do_ w) := by
  have hserver : (server codec fuel).state w = w.outer.state := rfl
  have hpositive : do_ = serverTraits.remotePositive := rfl
  rcases hstate with hs | hs
  · rw [TelnetOption.negotiate, hserver, hs]
    simp only [if_pos hpositive]
    apply effect_write _ (Or.inl hs)
    simp [Input.Ends, hs, do_, dont]
  · have hchanged : (server codec fuel).onStateChanged (setState .active w) =
        finish codec fuel (setState .active w) := onStateChanged_active hactive
    rw [TelnetOption.negotiate, hserver, hs]
    simp only [if_pos hpositive, server] at hchanged ⊢
    rw [hchanged]
    exact .finishes (Or.inr ⟨rfl, hs⟩) .active []

theorem effect_apply (hstate : Running w.outer.state)
    (hactive : w.outer.compressionActive = true) (i : Input) :
    Effect codec fuel (i.Ends w) w (i.apply codec fuel w) := by
  cases i with
  | text data => exact effect_write (fun h => h) hstate (.bytes data)
  | finish =>
      rw [Input.apply, finishCompression]
      rcases hstate with hs | hs
      · rw [if_pos (by simp [TelnetOption.active, server, hs, hactive])]
        exact effect_finish hs w
      · rw [if_neg (by simp [TelnetOption.active, server, hs])]
        apply effect_idle _ (Or.inr hs)
        simp [Input.Ends, hs]
  | call c => exact effect_call hstate hactive c
  | receive elem =>
      apply Session.tokenHandler_installOption
        (P := Effect codec fuel ((Input.receive elem).Ends w) w)
      · intro hother
        have hends : ¬ (Input.receive elem).Ends w := by
          rintro (hdont | ⟨hdo, -⟩)
          · exact hother dont (Or.inl rfl) hdont
          · exact hother do_ (Or.inr rfl) hdo
        exact ⟨effect_idle hends hstate, fun neg => effect_write hends hstate _⟩
      · rintro request rfl (rfl | rfl)
        · exact effect_dont hstate hactive
        · exact effect_do hstate hactive
      · rintro content rfl
        have hsubnegotiate : (server codec fuel).subnegotiate content w = w := ite_id _
        rw [hsubnegotiate]
        exact effect_idle (by simp [Input.Ends]) hstate

/-- No input makes compression active. -/
theorem keeps_inactive :
    (server codec fuel).Keeps fun w => w.outer.compressionActive = false := by
  have hwrite (elem : Element) (w : LineWorld Z) (hw : w.outer.compressionActive = false) :
      (write codec fuel elem w).outer.compressionActive = false :=
    (untouched_write elem).compressionActive.trans hw
  refine ⟨?_, ?_, ?_, ?_, ?_⟩
  · intro st w hw
    exact hw
  · intro w hw
    exact hwrite _ w hw
  · intro w hw
    exact hwrite _ w hw
  · intro w hw
    rw [show (server codec fuel).onStateChanged w = w from if_neg (by simp [hw])]
    exact hw
  · intro content w hw
    exact hw

theorem apply_inactive (hw : w.outer.compressionActive = false) (i : Input) :
    (i.apply codec fuel w).outer.compressionActive = false := by
  have hwrite (elem : Element) : (write codec fuel elem w).outer.compressionActive = false :=
    (untouched_write elem).compressionActive.trans hw
  cases i with
  | text data => exact hwrite (.bytes data)
  | finish =>
      rw [Input.apply, finishCompression, if_neg (by simp [hw])]
      exact hw
  | call c => exact keeps_inactive.call c hw
  | receive elem =>
      apply Session.tokenHandler_installOption
        (P := fun w' : LineWorld Z => w'.outer.compressionActive = false)
      · intro _
        exact ⟨hw, fun neg => hwrite _⟩
      · intro request _ _
        exact keeps_inactive.negotiate request hw
      · intro content _
        exact keeps_inactive.subnegotiate content hw

end Inputs

end Sender

end Telnetpp.Mccp
