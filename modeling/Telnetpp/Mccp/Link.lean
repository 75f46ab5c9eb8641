import Telnetpp.Mccp.Options
import Telnetpp.Foundation.Run

/-!
# Compression across the link

Whether the client reads every unit in the mode it was written in. It does,
as long as no start mark reaches a client that is not active and the server
writes no text between its WONT and the end of its stream.
-/

namespace Telnetpp.Mccp

open Foundation

abbrev Link := Net Element Packet Server Client

abbrev Event := NetEvent ServerInput Unit Call Unit

namespace Link

def start : Link := ⟨{}, {}, [], []⟩

def step (misread : Element → ClientWorld → ClientWorld) (n : Link) (e : Event) : Link :=
  Net.step serverEnd (clientEnd misread) n e

/-- The unit that the client is about to read was written in the client's mode. -/
def ReadsWell (n : Link) : Prop :=
  ∀ elem compressed, n.toRight.head? = some (.unit elem compressed) →
    compressed = n.right.engaged

/-- What the steps of a run must avoid: that a start mark reaches a client
that is not active, and that the server writes text while it is deactivating
and its codec is engaged. -/
def Guard (n : Link) : Event → Prop
  | .deliverRight _ =>
      n.toRight.head? = some (.unit (.subnegotiation ⟨option, []⟩) false) → n.right.state = .active
  | .actLeft (.text _) => ¬ (n.left.state = .deactivating ∧ n.left.engaged = true)
  | _ => True

end Link

/-! ## The mode of a client that has read everything in flight -/

def marking : Marking Bool Packet where
  mode
    | .unit _ compressed => some compressed
    | .endOfStream => none
  turn
    | .endOfStream, _ => false
    | .unit (.subnegotiation _) _, _ => true
    | .unit (.negotiation neg) _, m => if neg = ⟨wont, option⟩ then false else m
    | .unit _ _, m => m

/-- The packets of a server that is sent nothing but DO and DONT. -/
def Packet.Expected : Packet → Prop
  | .endOfStream => True
  | .unit (.bytes _) _ => True
  | .unit (.subnegotiation sub) _ => sub = ⟨option, []⟩
  | .unit (.negotiation neg) _ => neg = ⟨will, option⟩ ∨ neg = ⟨wont, option⟩
  | .unit (.command _) _ => False

def Answer (elem : Element) : Prop :=
  elem = .negotiation ⟨do_, option⟩ ∨ elem = .negotiation ⟨dont, option⟩

structure Server.Sound (s : Server) : Prop where
  compressionActive : s.compressionActive = s.engaged
  running : s.engaged = true → s.state = .active ∨ s.state = .deactivating

def Client.Sound (s : Client) : Prop :=
  s.engaged = true → s.state = .active ∨ s.state = .deactivating

/-- `m` is the mode of a client that has read everything the server has sent:
the server's, unless the server's WONT is out and its stream has not ended. -/
def Ahead (s : Server) (m : Bool) : Prop :=
  m = s.engaged ∨ s.state = .deactivating ∧ s.engaged = true ∧ m = false

/-- What a step of the server makes of a client that has read everything in
flight before the step, in mode `m` then. -/
structure ServerStep (m : Bool) (w : ServerWorld) : Prop where
  sound : w.toServer.Sound
  expected : ∀ packet ∈ w.sent, packet.Expected
  ahead : ∃ k, marking.follow m w.sent = some k ∧ Ahead w.toServer k

/-- What has been sent during the step takes the client from `m` to `k`. -/
structure Wrote (m : Bool) (w : ServerWorld) (k : Bool) : Prop where
  expected : ∀ packet ∈ w.sent, packet.Expected
  follow : marking.follow m w.sent = some k

namespace Wrote

variable {m k : Bool} {w : ServerWorld}

theorem setState (h : Wrote m w k) (st : InternalState) : Wrote m { w with state := st } k :=
  ⟨h.expected, h.follow⟩

theorem write (h : Wrote m w w.engaged) {elem : Element}
    (helem : (Packet.unit elem w.engaged).Expected) :
    Wrote m (w.write elem) (marking.turn (.unit elem w.engaged) w.engaged) := by
  by_cases hnone : generate elem = []
  · obtain rfl := generate_eq_nil hnone
    have hw : w.write (.bytes []) = w := by simp [ServerWorld.write, hnone]
    rw [hw]
    exact h
  · have hsent : (w.write elem).sent = w.sent ++ [.unit elem w.engaged] := by
      simp [ServerWorld.write, hnone]
    have hfits : marking.Fits (.unit elem w.engaged) w.engaged := by
      intro k hk
      exact (Option.some.inj hk).symm
    refine ⟨?_, ?_⟩
    · rw [hsent]
      exact List.forall_mem_append.mpr ⟨h.expected, List.forall_mem_singleton.mpr helem⟩
    · rw [hsent, Marking.follow_append, h.follow, Option.bind_some,
        Marking.follow_cons_of_fits _ hfits, Marking.follow_nil]

theorem codecFinish (h : Wrote m w k) : Wrote m w.codecFinish false := by
  refine ⟨List.forall_mem_append.mpr ⟨h.expected, by simp [Packet.Expected]⟩, ?_⟩
  show marking.follow m (w.sent ++ [.endOfStream]) = _
  rw [Marking.follow_append, h.follow]
  rfl

end Wrote

theorem Wrote.onStateChanged {m k : Bool} {w : ServerWorld} (h : Wrote m w k)
    (hactive : w.compressionActive = w.engaged) (hk : w.engaged = false → k = false) :
    ServerStep m w.onStateChanged := by
  cases hengaged : w.engaged with
  | false =>
      obtain rfl := hk hengaged
      have hw : w.onStateChanged = w := by simp [ServerWorld.onStateChanged, hactive, hengaged]
      rw [hw]
      exact ⟨⟨hactive, by simp [hengaged]⟩, h.expected, false, h.follow, Or.inl hengaged.symm⟩
  | true =>
      have hw : w.onStateChanged = { w.codecFinish with compressionActive := false } := by
        simp [ServerWorld.onStateChanged, hactive, hengaged]
      rw [hw]
      exact ⟨⟨rfl, by simp [ServerWorld.codecFinish]⟩, h.codecFinish.expected, false,
        h.codecFinish.follow, Or.inl rfl⟩

/-- A unit that is written in phase with the client keeps it in phase. -/
theorem Wrote.serverStep_write {m : Bool} {w : ServerWorld} (h : Wrote m w w.engaged)
    (hsound : w.toServer.Sound) {elem : Element}
    (helem : (Packet.unit elem w.engaged).Expected)
    (hturn : Ahead w.toServer (marking.turn (.unit elem w.engaged) w.engaged)) :
    ServerStep m (w.write elem) :=
  ⟨hsound, (h.write helem).expected, _, (h.write helem).follow, hturn⟩

section ServerSteps

variable {s : Server} {m : Bool}

theorem ServerStep.idle (hs : s.Sound) (hm : Ahead s m) :
    ServerStep m { s with sent := [] } :=
  ⟨hs, by simp, m, rfl, hm⟩

theorem Wrote.nil (s : Server) (m : Bool) : Wrote m { s with sent := [] } m := ⟨by simp, rfl⟩

theorem serverStep_call (hs : s.Sound) (hm : Ahead s m) (c : Call) :
    ServerStep m (server.call c { s with sent := [] }) := by
  have hidle := ServerStep.idle hs hm
  rcases s with ⟨state, engaged, active⟩
  obtain rfl : active = engaged := hs.compressionActive
  cases state with
  | inactive =>
      obtain rfl : active = false := by simpa using hs.running
      obtain rfl : m = false := by simpa [Ahead] using hm
      cases c with
      | activate =>
          exact (Wrote.nil ⟨.activating, false, false⟩ false).serverStep_write
            ⟨rfl, by simp⟩ (Or.inl rfl) (Or.inl rfl)
      | deactivate =>
          exact (Wrote.nil ⟨.inactive, false, false⟩ false).onStateChanged rfl fun _ => rfl
  | activating => cases c <;> exact hidle
  | active =>
      obtain rfl : m = active := by simpa [Ahead] using hm
      cases c with
      | activate => exact (Wrote.nil ⟨.active, m, m⟩ m).onStateChanged rfl id
      | deactivate =>
          -- the WONT is compressed when the codec is engaged, and the client disengages on it
          refine (Wrote.nil ⟨.deactivating, m, m⟩ m).serverStep_write
            ⟨rfl, fun _ => Or.inr rfl⟩ (Or.inr rfl) ?_
          cases m with
          | false => exact Or.inl rfl
          | true => exact Or.inr ⟨rfl, rfl, rfl⟩
  | deactivating => cases c <;> exact hidle

theorem serverStep_apply (hs : s.Sound) (hm : Ahead s m) (i : ServerInput)
    (hi : ∀ data, i = .text data → ¬ (s.state = .deactivating ∧ s.engaged = true)) :
    ServerStep m (i.apply { s with sent := [] }) := by
  have hidle := ServerStep.idle hs hm
  cases i with
  | call c => exact serverStep_call hs hm c
  | text data =>
      obtain rfl : m = s.engaged :=
        hm.resolve_right fun hlate => hi data rfl ⟨hlate.1, hlate.2.1⟩
      exact (Wrote.nil s s.engaged).serverStep_write hs trivial (Or.inl rfl)
  | startCompression =>
      rcases s with ⟨state, engaged, active⟩
      obtain rfl : active = engaged := hs.compressionActive
      cases state with
      | active =>
          obtain rfl : m = active := by simpa [Ahead] using hm
          have hstart : (Packet.unit (.subnegotiation ⟨option, []⟩) m).Expected := rfl
          have hw := (Wrote.nil ⟨.active, m, m⟩ m).write hstart
          exact ⟨⟨rfl, fun _ => Or.inl rfl⟩, hw.expected, true, hw.follow, Or.inl rfl⟩
      | _ => exact hidle
  | finishCompression =>
      rcases s with ⟨state, engaged, active⟩
      obtain rfl : active = engaged := hs.compressionActive
      cases state with
      | active =>
          cases active with
          | false => exact hidle
          | true => exact (Wrote.nil ⟨.active, true, true⟩ m).onStateChanged rfl nofun
      | _ => exact hidle

/-- A pending stream is ended before the state that was asked for is answered. -/
theorem serverStep_negotiate (hs : s.Sound) (hm : Ahead s m) {neg : NegotiationType}
    (hneg : neg = do_ ∨ neg = dont) :
    ServerStep m (server.negotiate neg { s with sent := [] }) := by
  rcases s with ⟨state, engaged, active⟩
  obtain rfl : active = engaged := hs.compressionActive
  cases state with
  | inactive =>
      obtain rfl : active = false := by simpa using hs.running
      obtain rfl : m = false := by simpa [Ahead] using hm
      rcases hneg with rfl | rfl
      · have hwill : (Packet.unit (.negotiation ⟨will, option⟩) false).Expected := Or.inl rfl
        exact ((Wrote.nil ⟨.active, false, false⟩ false).write hwill).onStateChanged rfl
          fun _ => rfl
      · exact (Wrote.nil ⟨.inactive, false, false⟩ false).serverStep_write
          hs (Or.inr rfl) (Or.inl rfl)
  | activating =>
      obtain rfl : active = false := by simpa using hs.running
      obtain rfl : m = false := by simpa [Ahead] using hm
      rcases hneg with rfl | rfl
      · exact (Wrote.nil ⟨.active, false, false⟩ false).onStateChanged rfl fun _ => rfl
      · exact (Wrote.nil ⟨.inactive, false, false⟩ false).onStateChanged rfl fun _ => rfl
  | active =>
      obtain rfl : m = active := by simpa [Ahead] using hm
      rcases hneg with rfl | rfl
      · exact (Wrote.nil ⟨.active, m, m⟩ m).serverStep_write hs (Or.inl rfl) (Or.inl rfl)
      · cases m with
        | false =>
            exact (Wrote.nil ⟨.inactive, false, false⟩ false).serverStep_write
              ⟨rfl, by simp⟩ (Or.inr rfl) (Or.inl rfl)
        | true =>
            have hw : Wrote true ⟨⟨.inactive, false, false⟩, [.endOfStream]⟩ false :=
              ⟨(Wrote.nil ⟨.inactive, true, true⟩ true).codecFinish.expected, rfl⟩
            exact hw.serverStep_write ⟨rfl, by simp⟩ (Or.inr rfl) (Or.inl rfl)
  | deactivating =>
      have hlate : active = false → m = false := by
        rintro rfl
        simpa [Ahead] using hm
      rcases hneg with rfl | rfl
      · exact (Wrote.nil ⟨.active, active, active⟩ m).onStateChanged rfl hlate
      · exact (Wrote.nil ⟨.inactive, active, active⟩ m).onStateChanged rfl hlate

theorem serverStep_recv (hs : s.Sound) (hm : Ahead s m) {elem : Element} (helem : Answer elem) :
    ServerStep m (serverSession.tokenHandler (fun _ w => w) elem { s with sent := [] }) := by
  rcases helem with rfl | rfl
  · exact serverStep_negotiate hs hm (Or.inl rfl)
  · exact serverStep_negotiate hs hm (Or.inr rfl)

end ServerSteps

/-! ## The client -/

/-- A step of the client that leaves its codec in mode `k`. -/
structure ClientStep (k : Bool) (w : ClientWorld) : Prop where
  sound : w.toClient.Sound
  engaged : w.engaged = k
  answers : ∀ elem ∈ w.sent, Answer elem

theorem ClientStep.idle {s : Client} (hs : s.Sound) :
    ClientStep s.engaged { s with sent := [] } := ⟨hs, rfl, by simp⟩

theorem ClientStep.write {k : Bool} {w : ClientWorld} (h : ClientStep k w) {elem : Element}
    (helem : Answer elem) : ClientStep k (w.write elem) :=
  ⟨h.sound, h.engaged,
    List.forall_mem_append.mpr ⟨h.answers, List.forall_mem_singleton.mpr helem⟩⟩

theorem Client.sound_disengaged (state : InternalState) : Client.Sound ⟨state, false⟩ := nofun

theorem clientStep_call {s : Client} (hs : s.Sound) (c : Call) :
    ClientStep s.engaged (client.call c { s with sent := [] }) := by
  have hidle := ClientStep.idle hs
  rcases s with ⟨state, engaged⟩
  cases state with
  | inactive =>
      obtain rfl : engaged = false := by simpa [Client.Sound] using hs
      cases c with
      | activate =>
          exact (ClientStep.idle (Client.sound_disengaged .activating)).write (Or.inl rfl)
      | deactivate => exact hidle
  | activating => cases c <;> exact hidle
  | active =>
      cases c with
      | activate => exact hidle
      | deactivate =>
          have hs' : Client.Sound ⟨.deactivating, engaged⟩ := fun _ => Or.inr rfl
          exact (ClientStep.idle hs').write (Or.inr rfl)
  | deactivating => cases c <;> exact hidle

theorem clientStep_will {s : Client} (hs : s.Sound) :
    ClientStep s.engaged (client.negotiate will { s with sent := [] }) := by
  rcases s with ⟨state, engaged⟩
  have hactive : ClientStep engaged ⟨⟨.active, engaged⟩, []⟩ :=
    ClientStep.idle (s := ⟨.active, engaged⟩) fun _ => Or.inl rfl
  cases state with
  | inactive => exact hactive.write (Or.inl rfl)
  | activating => exact hactive
  | active => exact hactive.write (Or.inl rfl)
  | deactivating => exact hactive

theorem clientStep_wont {s : Client} (hs : s.Sound) :
    ClientStep false (client.negotiate wont { s with sent := [] }) := by
  have hinactive := ClientStep.idle (Client.sound_disengaged .inactive)
  rcases s with ⟨state, engaged⟩
  cases state with
  | inactive =>
      obtain rfl : engaged = false := by simpa [Client.Sound] using hs
      exact hinactive.write (Or.inr rfl)
  | activating => exact hinactive
  | active => exact hinactive.write (Or.inr rfl)
  | deactivating => exact hinactive

/-- The start mark engages a client that is active, and one that is still
engaged stays so. -/
theorem clientStep_start {s : Client} (hs : s.Sound)
    (hstart : s.engaged = false → s.state = .active) :
    ClientStep true (client.subnegotiate [] { s with sent := [] }) := by
  rcases s with ⟨state, engaged⟩
  cases engaged with
  | false =>
      obtain rfl : state = .active := hstart rfl
      exact ClientStep.idle (s := ⟨.active, true⟩) fun _ => Or.inl rfl
  | true =>
      rcases hs rfl with hstate | hstate <;> obtain rfl : state = _ := hstate
      · exact ClientStep.idle (s := ⟨.active, true⟩) fun _ => Or.inl rfl
      · exact ClientStep.idle (s := ⟨.deactivating, true⟩) fun _ => Or.inr rfl

/-- Once it has read a unit in the right mode, the client is in the mode the
unit turns it to. -/
theorem clientStep_read {s : Client} (hs : s.Sound)
    (misread : Element → ClientWorld → ClientWorld)
    {packet : Packet} (hpacket : packet.Expected) (hfits : marking.Fits packet s.engaged)
    (hstart : packet = .unit (.subnegotiation ⟨option, []⟩) false → s.state = .active) :
    ClientStep (marking.turn packet s.engaged)
      (ClientWorld.read misread packet { s with sent := [] }) := by
  cases packet with
  | endOfStream => exact ⟨by simp [Client.Sound, ClientWorld.read, ClientWorld.codecFinish], rfl,
      by simp [ClientWorld.read, ClientWorld.codecFinish]⟩
  | unit elem compressed =>
      obtain rfl : compressed = s.engaged := hfits compressed rfl
      have hread : ClientWorld.read misread (.unit elem s.engaged) { s with sent := [] } =
          clientSession.tokenHandler (fun _ w => w) elem { s with sent := [] } := if_pos rfl
      rw [hread]
      cases elem with
      | bytes data => exact ClientStep.idle hs
      | command cmd => exact hpacket.elim
      | subnegotiation sub =>
          obtain rfl : sub = ⟨option, []⟩ := hpacket
          exact clientStep_start hs fun hengaged => hstart (by rw [hengaged])
      | negotiation neg =>
          rcases hpacket with rfl | rfl
          · exact clientStep_will hs
          · exact clientStep_wont hs

/-! ## Runs of the link -/

namespace Link

variable {misread : Element → ClientWorld → ClientWorld}

/-- A client that read everything in flight would be in the server's mode. -/
structure InPhase (n : Link) : Prop where
  server : n.left.Sound
  client : n.right.Sound
  answers : ∀ elem ∈ n.toLeft, Answer elem
  expected : ∀ packet ∈ n.toRight, packet.Expected
  ahead : ∃ m, marking.follow n.right.engaged n.toRight = some m ∧ Ahead n.left m

theorem InPhase.readsWell {n : Link} (h : n.InPhase) : n.ReadsWell := by
  rcases n with ⟨l, r, as, bs⟩
  obtain ⟨m, hm, -⟩ := h.ahead
  intro elem compressed hhead
  cases bs with
  | nil => simp at hhead
  | cons packet bs =>
      obtain rfl : packet = .unit elem compressed := by simpa using hhead
      exact marking.fits_of_follow hm compressed rfl

theorem InPhase.serverStep {n : Link} (h : n.InPhase) {w : ServerWorld}
    (hw : ∀ m, Ahead n.left m → ServerStep m w) {as : List Element}
    (has : ∀ elem ∈ as, Answer elem) :
    InPhase ⟨w.toServer, n.right, as, n.toRight ++ w.sent⟩ := by
  obtain ⟨m, hm, hahead⟩ := h.ahead
  obtain ⟨hsound, hexpected, k, hk, hk'⟩ := hw m hahead
  refine ⟨hsound, h.client, has, List.forall_mem_append.mpr ⟨h.expected, hexpected⟩, k, ?_, hk'⟩
  rw [Marking.follow_append, hm, Option.bind_some, hk]

theorem InPhase.step {n : Link} (h : n.InPhase) (e : Event) (he : n.Guard e) :
    (n.step misread e).InPhase := by
  cases e with
  | actLeft i =>
      refine h.serverStep (fun m hm => serverStep_apply h.server hm i ?_) h.answers
      rintro data rfl
      exact he
  | actRight c =>
      have hc := clientStep_call h.client c
      obtain ⟨m, hm, hahead⟩ := h.ahead
      refine ⟨h.server, hc.sound, List.forall_mem_append.mpr ⟨h.answers, hc.answers⟩,
        h.expected, m, ?_, hahead⟩
      rw [← hm]
      exact congrArg (fun b => marking.follow b n.toRight) hc.engaged
  | deliverLeft =>
      rcases n with ⟨l, r, as, bs⟩
      cases as with
      | nil => exact h
      | cons elem as =>
          obtain ⟨helem, has⟩ := List.forall_mem_cons.mp h.answers
          exact h.serverStep (fun m hm => serverStep_recv h.server hm helem) has
  | deliverRight =>
      rcases n with ⟨l, r, as, bs⟩
      cases bs with
      | nil => exact h
      | cons packet bs =>
          obtain ⟨hpacket, hbs⟩ := List.forall_mem_cons.mp h.expected
          obtain ⟨m, hm, hahead⟩ := h.ahead
          have hfits : marking.Fits packet r.engaged := marking.fits_of_follow hm
          have hread := clientStep_read h.client misread hpacket hfits
            fun hstart => he (congrArg some hstart)
          refine ⟨h.server, hread.sound, List.forall_mem_append.mpr ⟨h.answers, hread.answers⟩,
            hbs, m, ?_, hahead⟩
          rw [Marking.follow_cons_of_fits _ hfits, ← hread.engaged] at hm
          exact hm

/-- In every run from rest that keeps to the guard, whatever a misread unit
would do, the client reads every unit in the mode it was written in. -/
theorem run_readsWell (misread : Element → ClientWorld → ClientWorld) (es : List Event)
    (h : Along (step misread) Guard start es) : (run (step misread) start es).ReadsWell := by
  have hstart : start.InPhase := ⟨⟨rfl, by simp [start]⟩, by simp [start, Client.Sound],
    by simp [start], by simp [start], false, rfl, Or.inl rfl⟩
  have hstep (n : Link) (e : Event) (hn : n.InPhase) (he : n.Guard e) :
      (n.step misread e).InPhase := hn.step e he
  exact (run_invariant_along (step misread) hstep hstart h).readsWell

/-- The server activates, starts compression and is deactivated by the client,
with texts written on the way. -/
theorem compressedSession_readsWell :
    (run (step fun _ w => w) start
      [.actLeft (.call .activate), .deliverRight (), .deliverLeft (),
        .actLeft .startCompression, .actLeft (.text [65]), .deliverRight (), .deliverRight (),
        .actRight .deactivate, .actLeft (.text [66]), .deliverLeft (),
        .actLeft (.text [67]), .deliverRight (), .deliverRight ()]).ReadsWell := by
  apply run_readsWell
  simp only [Along, Guard]
  decide

/-- The server deactivates and goes on writing, compressed, until the DONT arrives. -/
def lateText : List Event :=
  [.actLeft (.call .activate), .deliverRight (), .deliverLeft (), .actLeft .startCompression,
    .deliverRight (), .actLeft (.call .deactivate), .actLeft (.text [65]), .deliverRight ()]

/-- The client deactivates while the start mark is on its way. -/
def ignoredStart : List Event :=
  [.actLeft (.call .activate), .deliverRight (), .deliverLeft (), .actLeft .startCompression,
    .actLeft (.text [65]), .actRight .deactivate, .deliverRight ()]

/-- Either way the client reads a compressed text with its codec disengaged. -/
theorem unguarded_misread :
    ¬ (run (step fun _ w => w) start lateText).ReadsWell ∧
      ¬ (run (step fun _ w => w) start ignoredStart).ReadsWell := by
  constructor
  · intro h
    have hmode := h (.bytes [65]) true (by decide)
    revert hmode
    decide
  · intro h
    have hmode := h (.bytes [65]) true (by decide)
    revert hmode
    decide

end Link

end Telnetpp.Mccp
