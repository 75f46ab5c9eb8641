import Telnetpp.Deliveries
import Telnetpp.Mccp.Codec
import Telnetpp.Mccp.Options

/-!
# A session behind its codec

What the channel of a session delivers has gone through a codec, and the
codec is started by the MCCP client that is installed on that session, from
inside the continuation that the codec hands its output to.
-/

namespace Telnetpp

/-! ## Handlers in a larger world -/

section Embedding

variable {Key Message κ σ : Type} (f : (κ → κ) → σ → σ)

def Router.embed (r : Router Key Message κ) : Router Key Message σ where
  registeredFunctions key :=
    (r.registeredFunctions key).map fun handler message => f (handler message)
  unregisteredRoute := r.unregisteredRoute.map fun handler message => f (handler message)

/-- A session whose handlers reach only a part of the world. -/
def Session.embed (s : Session κ) : Session σ where
  parser := s.parser
  commandRouter := s.commandRouter.embed f
  negotiationRouter := s.negotiationRouter.embed f
  subnegotiationRouter := s.subnegotiationRouter.embed f

variable {f}

theorem Router.route_embed (hf : ∀ w, f (fun x => x) w = w) (r : Router Key Message κ)
    (keyFromMessage : Message → Key) (message : Message) (w : σ) :
    ∃ g, (r.embed f).route keyFromMessage message w = f g w := by
  simp only [Router.route, Router.embed]
  cases r.registeredFunctions (keyFromMessage message) with
  | some handler => exact ⟨handler message, rfl⟩
  | none =>
      cases r.unregisteredRoute with
      | some handler => exact ⟨handler message, rfl⟩
      | none => exact ⟨fun x => x, (hf w).symm⟩

end Embedding

namespace Mccp

open Foundation

/-- What the continuation of the codec can reach: the parser of the session,
the state of the MCCP client and the rest of the application. `received` and
`events` are not part of the program: the spans that the parser was given, and
what the token handler was called with. -/
structure Reader (κ : Type) where
  parser : Parser := {}
  state : InternalState := .inactive
  received : List Bytes := []
  events : List Element := []
  app : κ

abbrev ReaderWorld (Z κ : Type) := CodecWorld Z (Reader κ)

namespace Receiver

variable {Z κ : Type}

def inApp (f : κ → κ) (w : ReaderWorld Z κ) : ReaderWorld Z κ :=
  { w with outer := { w.outer with app := f w.outer.app } }

section Client

variable (codec : Codec Z) (send : Element → κ → κ)

def writeText : Continuation Z (Reader κ) := fun chunk w =>
  .done () (inApp (send (.bytes chunk.data)) w)

/-- `mccp::client`, on a session whose `write` reaches the application. -/
def client : ClientOption (ReaderWorld Z κ) where
  optionCode := option
  state w := w.outer.state
  setState st w := { w with outer := { w.outer with state := st } }
  write elem := inApp (send elem)
  onStateChanged w :=
    if w.outer.state = .active then w else (codec.finish (writeText send) w).world
  handleSubnegotiation _ := codec.start

variable (others : Session κ) (callback : Bytes → κ → κ)

/-- The session, with the client installed among anything else. -/
def session : Session (ReaderWorld Z κ) := (others.embed inApp).installClient (client codec send)

def tokenHandler (elem : Element) (w : ReaderWorld Z κ) : ReaderWorld Z κ :=
  (session codec send others).tokenHandler (fun data => inApp (callback data)) elem w

/-- The session with the parser that it has in the world. -/
def current (w : ReaderWorld Z κ) : Session (ReaderWorld Z κ) :=
  { session codec send others with parser := w.outer.parser }

def setParser (p : Parser) (w : ReaderWorld Z κ) : ReaderWorld Z κ :=
  { w with outer := { w.outer with parser := p } }

def log (data : Bytes) (elems : List Element) (w : ReaderWorld Z κ) : ReaderWorld Z κ :=
  { w with outer := { w.outer with
      received := w.outer.received ++ [data]
      events := w.outer.events ++ elems } }

/-- Every span that leaves the codec is delivered to the session. -/
def deliver : Continuation Z (Reader κ) := fun chunk w =>
  let s := current codec send others w
  let r := s.asyncRead (fun data => inApp (callback data)) chunk.data
    (log chunk.data (s.calls chunk.data) w)
  .done () (setParser r.1.parser r.2)

end Client

/-! ## What the client does with an element -/

/-- The subnegotiations that are handed to the client. -/
def isRestart : Atom → Bool
  | .token (.subnegotiation sub) => sub.option == option
  | _ => false

def Deactivates (atom : Atom) : Prop := atom = .token (.negotiation ⟨wont, option⟩)

instance : DecidablePred Deactivates := fun atom => inferInstanceAs (Decidable (atom = _))

def restarts (atoms : List Atom) : ℕ := atoms.countP isRestart

section Handling

variable {codec : Codec Z} {send : Element → κ → κ} {others : Session κ}
  {callback : Bytes → κ → κ} {w : ReaderWorld Z κ}

theorem registeredFunctions_session (codec : Codec Z) (send : Element → κ → κ)
    (others : Session κ) (neg : Negotiation) :
    (session codec send others).negotiationRouter.registeredFunctions neg =
      if neg = ⟨wont, option⟩ then some fun _ => (client codec send).negotiate wont
      else if neg = ⟨will, option⟩ then some fun _ => (client codec send).negotiate will
      else (others.embed inApp).negotiationRouter.registeredFunctions neg :=
  Session.negotiationRouter_installOption (client codec send) neg

/-- An active client answers a WILL, and nothing else changes. -/
theorem negotiate_will (hw : w.outer.state = .active) :
    (client codec send).negotiate will w = inApp (send (.negotiation ⟨do_, option⟩)) w := by
  have hstate : (client codec send).state w = .active := hw
  simp only [TelnetOption.negotiate, hstate]
  rfl

theorem tokenHandler_negotiation (hw : w.outer.state = .active) {neg : Negotiation}
    (hneg : ¬ Deactivates (.token (.negotiation neg))) :
    ∃ f, tokenHandler codec send others callback (.negotiation neg) w = inApp f w := by
  have hroute := registeredFunctions_session codec send others neg
  rw [if_neg fun h => hneg (congrArg (fun neg => Atom.token (.negotiation neg)) h)] at hroute
  by_cases hwill : neg = ⟨will, option⟩
  · rw [if_pos hwill] at hroute
    have hanswer : (client codec send).negotiate will w = _ := negotiate_will hw
    refine ⟨send (.negotiation ⟨do_, option⟩), ?_⟩
    rw [← hanswer]
    simp only [tokenHandler, Session.tokenHandler, Router.route, id, hroute]
  · rw [if_neg hwill] at hroute
    obtain ⟨f, hf⟩ :=
      Router.route_embed (f := inApp) (fun _ => rfl) others.negotiationRouter id neg w
    refine ⟨f, ?_⟩
    rw [← hf]
    simp only [tokenHandler, Session.tokenHandler, Router.route, id, hroute]
    rfl

theorem tokenHandler_subnegotiation (hw : w.outer.state = .active) (sub : Subnegotiation) :
    ∃ f, tokenHandler codec send others callback (.subnegotiation sub) w =
      inApp f (if sub.option = option then codec.start w else w) := by
  have hroute : (session codec send others).subnegotiationRouter.registeredFunctions sub.option =
      if sub.option = option then some fun sub => (client codec send).subnegotiate sub.content
      else (others.embed inApp).subnegotiationRouter.registeredFunctions sub.option :=
    Session.subnegotiationRouter_installOption (client codec send) sub.option
  by_cases hsub : sub.option = option
  · rw [if_pos hsub] at hroute
    have hstate : (client codec send).state w = .active := hw
    refine ⟨fun x => x, ?_⟩
    rw [if_pos hsub]
    simp only [tokenHandler, Session.tokenHandler, Router.route, hroute,
      TelnetOption.subnegotiate, if_pos hstate]
    rfl
  · rw [if_neg hsub] at hroute
    obtain ⟨f, hf⟩ := Router.route_embed (f := inApp) (fun _ => rfl) others.subnegotiationRouter
      Subnegotiation.option sub w
    refine ⟨f, ?_⟩
    rw [if_neg hsub, ← hf]
    simp only [tokenHandler, Session.tokenHandler, Router.route, hroute]
    rfl

/-- The client starts the codec as often as a subnegotiation is handed to it,
and the rest reaches only the application. -/
theorem tokenHandler_elem (hw : w.outer.state = .active) {elem : Element}
    (helem : ∀ atom ∈ elem.atoms, ¬ Deactivates atom) :
    ∃ f, tokenHandler codec send others callback elem w =
      inApp f (codec.start^[restarts elem.atoms] w) := by
  cases elem with
  | bytes data =>
      have hnone : restarts (data.map .data) = 0 := by
        apply List.countP_eq_zero.mpr
        intro atom hatom
        obtain ⟨by_, -, rfl⟩ := List.mem_map.mp hatom
        simp [isRestart]
      refine ⟨callback data, ?_⟩
      rw [Element.atoms_bytes, hnone]
      rfl
  | negotiation neg =>
      exact tokenHandler_negotiation hw (helem _ (List.mem_singleton_self _))
  | subnegotiation sub =>
      have hhandled : ∃ f, tokenHandler codec send others callback (.subnegotiation sub) w =
          inApp f _ := tokenHandler_subnegotiation hw sub
      obtain ⟨f, hf⟩ := hhandled
      refine ⟨f, hf.trans ?_⟩
      by_cases hsub : sub.option = option
      · simp [restarts, Element.atoms, isRestart, hsub]
      · simp [restarts, Element.atoms, isRestart, hsub]
  | command cmd =>
      exact Router.route_embed (fun _ => rfl) others.commandRouter Command.value cmd w

/-- The codec started `n` times, and the application changed. -/
theorem start_iterate (codec : Codec Z) (n : ℕ) (w : ReaderWorld Z κ) :
    codec.start^[n] w = { w with
      engaged := w.engaged || n ≠ 0
      inner := codec.doStart^[n] w.inner } := by
  induction n generalizing w with
  | zero => simp
  | succ n ih =>
      rw [Function.iterate_succ_apply, ih]
      simp [Codec.start]

theorem restarts_append (atoms atoms' : List Atom) :
    restarts (atoms ++ atoms') = restarts atoms + restarts atoms' := List.countP_append

theorem foldl_tokenHandler (elems : List Element)
    (hquiet : ∀ atom ∈ elems.flatMap Element.atoms, ¬ Deactivates atom)
    (hw : w.outer.state = .active) :
    ∃ f, elems.foldl (fun w elem => tokenHandler codec send others callback elem w) w =
      inApp f (codec.start^[restarts (elems.flatMap Element.atoms)] w) := by
  induction elems generalizing w with
  | nil => exact ⟨fun x => x, rfl⟩
  | cons elem elems ih =>
      rw [List.flatMap_cons] at hquiet
      obtain ⟨hfirst, hrest⟩ := List.forall_mem_append.mp hquiet
      have hhandled : ∃ f, tokenHandler codec send others callback elem w = inApp f _ :=
        tokenHandler_elem hw hfirst
      obtain ⟨f, hf⟩ := hhandled
      have hactive : (inApp f (codec.start^[restarts elem.atoms] w)).outer.state = .active := by
        rw [start_iterate]
        exact hw
      obtain ⟨g, hg⟩ := ih hrest hactive
      refine ⟨fun x => g (f x), ?_⟩
      rw [List.foldl_cons, hf, hg, List.flatMap_cons, restarts_append, Nat.add_comm,
        Function.iterate_add_apply]
      simp only [start_iterate]
      rfl

/-- The world after a delivery that leaves the client active. -/
def heard (codec : Codec Z) (data : Bytes) (elems : List Element) (x : κ)
    (w : ReaderWorld Z κ) : ReaderWorld Z κ :=
  let n := restarts (w.outer.parser.reads data)
  { w with
    engaged := w.engaged || n ≠ 0
    inner := codec.doStart^[n] w.inner
    outer :=
      { parser := w.outer.parser.after data
        state := w.outer.state
        received := w.outer.received ++ [data]
        events := w.outer.events ++ elems
        app := x } }

theorem deliver_eq {chunk : Chunk} (hw : w.outer.state = .active)
    (hquiet : ∀ atom ∈ w.outer.parser.reads chunk.data, ¬ Deactivates atom) :
    ∃ elems x, deliver codec send others callback chunk w =
        .done () (heard codec chunk.data elems x w) ∧
      elems.flatMap Element.atoms = w.outer.parser.reads chunk.data := by
  let s := current codec send others w
  have hatoms : (s.calls chunk.data).flatMap Element.atoms = w.outer.parser.reads chunk.data :=
    Session.atoms_calls s chunk.data
  have hlogged : (log chunk.data (s.calls chunk.data) w).outer.state = .active := hw
  have hfold : ∃ f, (s.calls chunk.data).foldl
      (fun w elem => tokenHandler codec send others callback elem w)
      (log chunk.data (s.calls chunk.data) w) = inApp f _ :=
    foldl_tokenHandler (s.calls chunk.data) (hatoms ▸ hquiet) hlogged
  obtain ⟨f, hf⟩ := hfold
  have hdelivered : deliver codec send others callback chunk w =
      .done () (setParser (w.outer.parser.after chunk.data) ((s.calls chunk.data).foldl
        (fun w elem => tokenHandler codec send others callback elem w)
        (log chunk.data (s.calls chunk.data) w))) := rfl
  refine ⟨s.calls chunk.data, f w.outer.app, ?_, hatoms⟩
  rw [hdelivered, hf, start_iterate, hatoms]
  rfl

end Handling

end Receiver

end Mccp

end Telnetpp
