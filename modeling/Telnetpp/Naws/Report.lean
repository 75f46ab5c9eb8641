import Telnetpp.Naws.Options
import Telnetpp.Foundation.Announcement

/-!
# The size of the window at the client

A server and a client joined by two streams of bytes. Read through the
parsers of both sessions, they are the source and the replica of an
announced value, so that the client has signalled the server's size whenever
both are active and nothing is in flight.
-/

namespace Telnetpp.Naws

open Foundation Announcement ModeAgreement

/-! ## The parties as source and replica -/

abbrev serverElements : Process ServerInput Unit Element Element Server :=
  (serverParty Outbox.writeElement).elements

abbrev clientElements : Process Call Unit Element Element Client :=
  (clientParty Outbox.writeElement).elements

def phase : InternalState → Phase
  | .inactive => .settled false
  | .activating => .asked true
  | .active => .settled true
  | .deactivating => .asked false

/-- What an element means to the server. -/
def asked : Element → Bool
  | .negotiation neg => neg.request = do_
  | _ => false

/-- What an element means to the client. -/
def told : Element → Message WindowSize
  | .negotiation neg => .mode (neg.request = will)
  | .subnegotiation sub => .value ((windowSize? sub.content).getD (0, 0))
  | _ => .mode false

/-- A server and all that it has sent. -/
def sourceOf (s : Server × List Element) : Source WindowSize :=
  ⟨phase s.1.state, s.1.windowSize_, s.2.map told⟩

def replicaOf (s : Client) : Replica WindowSize := ⟨phase s.state, s.signalled⟩

/-- The elements that the client sends. -/
def Asks (elem : Element) : Prop :=
  elem = .negotiation ⟨do_, option⟩ ∨ elem = .negotiation ⟨dont, option⟩

/-- The elements that the server sends. -/
def Tells (elem : Element) : Prop :=
  elem = .negotiation ⟨will, option⟩ ∨ elem = .negotiation ⟨wont, option⟩ ∨
    ∃ size, elem = .subnegotiation ⟨option, windowContent size⟩

theorem told_report (size : WindowSize) :
    told (.subnegotiation ⟨option, windowContent size⟩) = .value size := by
  rw [told, windowSize?_windowContent, Option.getD_some]

/-- What a server reports. -/
def reports (size : Option WindowSize) : List Element :=
  size.toList.map fun size => .subnegotiation ⟨option, windowContent size⟩

theorem reportWindowSize_eq (w : Outbox Server Element) :
    reportWindowSize Outbox.writeElement w =
      ⟨w.own, w.written ++ reports w.own.windowSize_⟩ := by
  rcases w with ⟨⟨state, size⟩, written⟩
  cases size with
  | none => simp [reportWindowSize, reports]
  | some size => rfl

theorem tells_reports (size : Option WindowSize) : ∀ elem ∈ reports size, Tells elem := by
  intro elem helem
  obtain ⟨size, -, rfl⟩ := List.mem_map.mp helem
  exact Or.inr (Or.inr ⟨size, rfl⟩)

theorem told_reports (size : Option WindowSize) :
    (reports size).map told = size.toList.map .value := by
  rw [reports, List.map_map]
  apply List.map_congr_left
  intro size _
  exact told_report size

section Server

variable {s : Server} (log : List Element)

theorem server_call (c : Call) :
    let r := serverElements.act (.call c) s
    (∀ elem ∈ r.2, Tells elem) ∧ (r = (s, []) ∨
      ∃ i', source.act i' (sourceOf (s, log)) = (sourceOf (r.1, log)).send (r.2.map told)) := by
  rcases s with ⟨state, size⟩
  cases state with
  | inactive =>
      cases c with
      | activate => exact ⟨List.forall_mem_singleton.mpr (Or.inl rfl), Or.inr ⟨.ask, rfl⟩⟩
      | deactivate => exact ⟨List.forall_mem_nil _, Or.inl rfl⟩
  | activating => cases c <;> exact ⟨List.forall_mem_nil _, Or.inl rfl⟩
  | active =>
      cases c with
      | activate =>
          have hreport : serverElements.act (.call .activate) ⟨.active, size⟩ =
              (⟨.active, size⟩, reports size) :=
            congrArg (fun w => (w.own, w.written)) (reportWindowSize_eq ⟨⟨.active, size⟩, []⟩)
          rw [hreport]
          refine ⟨tells_reports size, Or.inr ⟨.announce, ?_⟩⟩
          rw [told_reports]
          rfl
      | deactivate =>
          exact ⟨List.forall_mem_singleton.mpr (Or.inr (Or.inl rfl)), Or.inr ⟨.ask, rfl⟩⟩
  | deactivating => cases c <;> exact ⟨List.forall_mem_nil _, Or.inl rfl⟩

theorem server_set (width height : WindowDimension) :
    let r := serverElements.act (.setWindowSize width height) s
    (∀ elem ∈ r.2, Tells elem) ∧
      source.act (.set (width, height)) (sourceOf (s, log)) =
        (sourceOf (r.1, log)).send (r.2.map told) := by
  rcases s with ⟨state, size⟩
  cases state with
  | active =>
      have hreport : serverElements.act (.setWindowSize width height) ⟨.active, size⟩ =
          (⟨.active, some (width, height)⟩, reports (some (width, height))) := rfl
      rw [hreport]
      refine ⟨tells_reports _, ?_⟩
      rw [told_reports]
      rfl
  | _ => exact ⟨List.forall_mem_nil _, rfl⟩

theorem server_input (i : ServerInput) :
    let r := serverElements.act i s
    (∀ elem ∈ r.2, Tells elem) ∧ (r = (s, []) ∨
      ∃ i', source.act i' (sourceOf (s, log)) = (sourceOf (r.1, log)).send (r.2.map told)) := by
  cases i with
  | call c => exact server_call log c
  | setWindowSize width height =>
      obtain ⟨htells, hset⟩ := server_set log width height
      exact ⟨htells, Or.inr ⟨_, hset⟩⟩

theorem server_do :
    let r := serverElements.recv () (.negotiation ⟨do_, option⟩) s
    (∀ elem ∈ r.2, Tells elem) ∧ source.recv () true (sourceOf (s, log)) =
      (sourceOf (r.1, log)).send (r.2.map told) := by
  rcases s with ⟨state, size⟩
  have hwill : ∀ elem ∈ [Element.negotiation ⟨will, option⟩], Tells elem :=
    List.forall_mem_singleton.mpr (Or.inl rfl)
  have hreport (before : List Element) :
      reportWindowSize Outbox.writeElement ⟨⟨.active, size⟩, before⟩ =
        ⟨⟨.active, size⟩, before ++ reports size⟩ := reportWindowSize_eq _
  cases state with
  | active => exact ⟨hwill, rfl⟩
  | inactive =>
      have hrecv : serverElements.recv () (.negotiation ⟨do_, option⟩) ⟨.inactive, size⟩ =
          (⟨.active, size⟩, [.negotiation ⟨will, option⟩] ++ reports size) :=
        congrArg (fun w => (w.own, w.written)) (hreport [.negotiation ⟨will, option⟩])
      rw [hrecv]
      refine ⟨List.forall_mem_append.mpr ⟨hwill, tells_reports size⟩, ?_⟩
      rw [List.map_append, told_reports]
      rfl
  | activating =>
      have hrecv : serverElements.recv () (.negotiation ⟨do_, option⟩) ⟨.activating, size⟩ =
          (⟨.active, size⟩, reports size) := congrArg (fun w => (w.own, w.written)) (hreport [])
      rw [hrecv]
      refine ⟨tells_reports size, ?_⟩
      rw [told_reports]
      rfl
  | deactivating =>
      have hrecv : serverElements.recv () (.negotiation ⟨do_, option⟩) ⟨.deactivating, size⟩ =
          (⟨.active, size⟩, reports size) := congrArg (fun w => (w.own, w.written)) (hreport [])
      rw [hrecv]
      refine ⟨tells_reports size, ?_⟩
      rw [told_reports]
      rfl

theorem server_dont :
    let r := serverElements.recv () (.negotiation ⟨dont, option⟩) s
    (∀ elem ∈ r.2, Tells elem) ∧ source.recv () false (sourceOf (s, log)) =
      (sourceOf (r.1, log)).send (r.2.map told) := by
  rcases s with ⟨state, size⟩
  have hwont : Tells (.negotiation ⟨wont, option⟩) := Or.inr (Or.inl rfl)
  cases state with
  | inactive => exact ⟨List.forall_mem_singleton.mpr hwont, rfl⟩
  | active => exact ⟨List.forall_mem_singleton.mpr hwont, rfl⟩
  | _ => exact ⟨List.forall_mem_nil _, rfl⟩

theorem server_recv {elem : Element} (helem : Asks elem) :
    let r := serverElements.recv () elem s
    (∀ elem ∈ r.2, Tells elem) ∧ source.recv () (asked elem) (sourceOf (s, log)) =
      (sourceOf (r.1, log)).send (r.2.map told) := by
  rcases helem with rfl | rfl
  · exact server_do log
  · exact server_dont log

end Server

section Client

variable {s : Client}

theorem client_call (c : Call) :
    let r := clientElements.act c s
    (∀ elem ∈ r.2, Asks elem) ∧ (r = (s, []) ∨
      replica.act () (replicaOf s) = (replicaOf r.1, r.2.map asked)) := by
  rcases s with ⟨state, size⟩
  cases state with
  | inactive =>
      cases c with
      | activate => exact ⟨List.forall_mem_singleton.mpr (Or.inl rfl), Or.inr rfl⟩
      | deactivate => exact ⟨List.forall_mem_nil _, Or.inl rfl⟩
  | active =>
      cases c with
      | activate => exact ⟨List.forall_mem_nil _, Or.inl rfl⟩
      | deactivate => exact ⟨List.forall_mem_singleton.mpr (Or.inr rfl), Or.inr rfl⟩
  | _ => cases c <;> exact ⟨List.forall_mem_nil _, Or.inl rfl⟩

theorem client_recv {elem : Element} (helem : Tells elem) :
    let r := clientElements.recv () elem s
    (∀ elem' ∈ r.2, Asks elem') ∧
      replica.recv () (told elem) (replicaOf s) = (replicaOf r.1, r.2.map asked) := by
  rcases s with ⟨state, heard⟩
  rcases helem with rfl | rfl | ⟨size, rfl⟩
  · cases state with
    | inactive => exact ⟨List.forall_mem_singleton.mpr (Or.inl rfl), rfl⟩
    | active => exact ⟨List.forall_mem_singleton.mpr (Or.inl rfl), rfl⟩
    | _ => exact ⟨List.forall_mem_nil _, rfl⟩
  · cases state with
    | inactive => exact ⟨List.forall_mem_singleton.mpr (Or.inr rfl), rfl⟩
    | active => exact ⟨List.forall_mem_singleton.mpr (Or.inr rfl), rfl⟩
    | _ => exact ⟨List.forall_mem_nil _, rfl⟩
  · rw [told_report]
    cases state with
    | active =>
        have hsignal : (client Outbox.writeElement).handleSubnegotiation (windowContent size)
            ⟨⟨.active, heard⟩, []⟩ = ⟨⟨.active, some size⟩, []⟩ := by
          simp only [client, windowSize?_windowContent, onWindowSizeChanged]
        have hrecv : clientElements.recv () (.subnegotiation ⟨option, windowContent size⟩)
            ⟨.active, heard⟩ = (⟨.active, some size⟩, []) :=
          congrArg (fun w => (w.own, w.written)) hsignal
        rw [hrecv]
        exact ⟨List.forall_mem_nil _, rfl⟩
    | _ => exact ⟨List.forall_mem_nil _, rfl⟩

end Client

/-! ## The net of the parties -/

abbrev ElementNet := Net Element Element (Server × List Element) Client

abbrev ElementEvent := NetEvent ServerInput Unit Call Unit

def elementStep (n : ElementNet) (e : ElementEvent) : ElementNet :=
  Net.step serverElements.logged clientElements n e

def announcement (n : ElementNet) : AnnouncementNet WindowSize :=
  n.map sourceOf replicaOf asked told

structure Traffic (n : ElementNet) : Prop where
  sent : ∀ elem ∈ n.left.2, Tells elem
  asks : ∀ elem ∈ n.toLeft, Asks elem
  tells : ∀ elem ∈ n.toRight, Tells elem

theorem keeps_server : serverElements.Keeps (fun _ => True) Asks Tells where
  act i _ _ := ⟨trivial, (server_input [] i).1⟩
  recv _ _ helem _ _ := ⟨trivial, (server_recv [] helem).1⟩

theorem keeps_client : clientElements.Keeps (fun _ => True) Tells Asks where
  act c _ _ := ⟨trivial, (client_call c).1⟩
  recv _ _ helem _ _ := ⟨trivial, (client_recv helem).1⟩

theorem Traffic.step {n : ElementNet} (h : Traffic n) (e : ElementEvent) :
    Traffic (elementStep n e) := by
  obtain ⟨⟨-, hsent⟩, -, hasks, htells⟩ := Net.Carries.step keeps_server.logged keeps_client
    ⟨⟨trivial, h.sent⟩, trivial, h.asks, h.tells⟩ e
  exact ⟨hsent, hasks, htells⟩

/-- The source has sent what the server has sent. -/
theorem send_sourceOf (s : Server) (log out : List Element) :
    (sourceOf (s, log)).send (out.map told) = (sourceOf (s, log ++ out), out.map told) := by
  rw [Source.send, sourceOf, sourceOf, List.map_append]

theorem simulates_server :
    serverElements.logged.Simulates source sourceOf asked told (fun _ => True) Asks where
  act i s _ := by
    obtain ⟨-, hsame | ⟨i', hinput⟩⟩ := server_input s.2 (s := s.1) i
    · left
      simp [Process.logged, hsame]
    · rw [send_sourceOf] at hinput
      exact Or.inr ⟨i', hinput⟩
  recv _ _ helem s _ := by
    have hrecv := (server_recv s.2 (s := s.1) helem).2
    rw [send_sourceOf] at hrecv
    exact ⟨(), hrecv⟩

theorem simulates_client :
    clientElements.Simulates replica replicaOf told asked (fun _ => True) Tells where
  act c _ _ := by
    obtain ⟨-, hsame | hask⟩ := client_call c
    · exact Or.inl ⟨congrArg (fun r => replicaOf r.1) hsame, congrArg Prod.snd hsame⟩
    · exact Or.inr ⟨(), hask⟩
  recv _ _ helem _ _ := ⟨(), (client_recv helem).2⟩

theorem announcement_step {n : ElementNet} (h : Traffic n) (e : ElementEvent) :
    announcement (elementStep n e) = announcement n ∨
      ∃ e', announcement (elementStep n e) = Announcement.step (announcement n) e' :=
  Net.Carries.map_step simulates_server simulates_client ⟨trivial, trivial, h.asks, h.tells⟩ e

theorem sound_elements (es : List ElementEvent) :
    let n := run elementStep ⟨({}, []), {}, [], []⟩ es
    Sound (announcement n) ∧ Traffic n := by
  have hstart : Traffic ⟨({}, []), {}, [], []⟩ := ⟨by simp, by simp, by simp⟩
  obtain ⟨es', hes'⟩ := run_simulates elementStep Announcement.step announcement
    (fun _ e h => h.step e) (fun _ e h => announcement_step h e) hstart es
  refine ⟨?_, run_invariant elementStep (fun _ e h => h.step e) hstart es⟩
  rw [hes']
  exact sound_run none none es'

/-- Every report comes after a WILL, with no WONT in between. -/
def Reported (elems : List Element) : Prop :=
  ∀ before content after, elems = before ++ .subnegotiation ⟨option, content⟩ :: after →
    ∃ earlier later, before = earlier ++ .negotiation ⟨will, option⟩ :: later ∧
      .negotiation ⟨wont, option⟩ ∉ later

theorem last_will {before : List Element} (hbefore : ∀ elem ∈ before, Tells elem)
    (h : (modes (before.map told)).getLast? = some true) :
    ∃ earlier later, before = earlier ++ .negotiation ⟨will, option⟩ :: later ∧
      .negotiation ⟨wont, option⟩ ∉ later := by
  obtain ⟨bs, hbs⟩ := List.getLast?_eq_some_iff.mp h
  rw [modes, List.filterMap_map] at hbs
  obtain ⟨first, rest, rfl, -, hrest⟩ := List.filterMap_eq_append_iff.mp hbs
  obtain ⟨silent, elem, later, rfl, -, helem, hlater⟩ := List.filterMap_eq_cons_iff.mp hrest
  refine ⟨first ++ silent, later, ?_, ?_⟩
  · have htells : Tells elem := hbefore elem (by simp)
    rcases htells with rfl | rfl | ⟨size, rfl⟩
    · simp
    · simp [told, Message.mode?, will, wont] at helem
    · simp [told, Message.mode?] at helem
  · intro hwont
    have hnone := List.filterMap_eq_nil_iff.mp hlater _ hwont
    simp [told, Message.mode?] at hnone

theorem reported_of_announced {elems : List Element} (helems : ∀ elem ∈ elems, Tells elem)
    (h : Announced (elems.map told)) : Reported elems := by
  rintro before content after rfl
  obtain ⟨hbefore, -⟩ := List.forall_mem_append.mp helems
  apply last_will hbefore
  apply h.before
  rw [List.map_append, List.map_cons]
  rfl

/-! ## The net of byte streams -/

abbrev ReportNet := Net Byte Byte ((Server × Parser) × Bytes) (Client × Parser)

/-- A delivery is of some number of bytes. -/
abbrev Event := NetEvent ServerInput ℕ Call ℕ

namespace ReportNet

/-- All bytes that the server has ever sent are kept beside it. -/
def step (n : ReportNet) (e : Event) : ReportNet :=
  n.streamStep (serverParty Outbox.writeBytes).bytes.logged (clientParty Outbox.writeBytes).bytes e

def start : ReportNet := ⟨(({}, {}), []), ({}, {}), [], []⟩

/-- In every run, once no byte is in flight and both options are active, the
size that the client has signalled last is the server's, if one has been set;
and every report on the server's link comes after a WILL, with no WONT in
between. -/
theorem run_reports (es : List Event) :
    let n := run step start es
    (n.toLeft = [] → n.toRight = [] → n.left.1.1.state = .active → n.right.1.state = .active →
      ∀ width height, n.left.1.1.windowSize_ = some (width, height) →
        n.right.1.signalled = some (width, height)) ∧
      Reported (({} : Parser).feed n.left.2).2 := by
  intro n
  obtain ⟨es', ⟨hserver, hlog, hsendable⟩, hclient, htells⟩ :=
    framed_run (renders_server.frames sends_server).logged (renders_client.frames sends_client)
      (show Framed _ _ start ⟨({}, []), {}, [], []⟩ from
        ⟨⟨⟨rfl, Parser.pending_fresh⟩, rfl, by simp⟩, rfl, Parser.pending_fresh⟩) es
  let m : ElementNet := run elementStep ⟨({}, []), {}, [], []⟩ es'
  obtain ⟨hsound, htraffic⟩ : Sound (announcement m) ∧ Traffic m := sound_elements es'
  have hstate : n.left.1.1 = m.left.1 := hserver.1
  have hclient : n.right.1 = m.right := hclient
  refine ⟨?_, ?_⟩
  · intro _ hright hl hr width height hsize
    have hnone : m.toRight = [] := by
      have hpending : n.right.2.Pending n.toRight m.toRight := htells
      rw [hright] at hpending
      exact hpending.nil
    rw [hstate] at hl hsize
    rw [hclient] at hr ⊢
    apply hsound.quiescent
    · exact congrArg (List.map told) hnone
    · exact congrArg phase hl
    · exact congrArg phase hr
    · exact hsize
  · have hlog : n.left.2 = m.left.2.flatMap wire := hlog
    have hsendable : ∀ elem ∈ m.left.2, Parser.Sendable elem := hsendable
    rw [hlog, Parser.feed_wire hsendable]
    exact reported_of_announced htraffic.sent hsound.truthful.announced

/-- A size set before two activations that cross, with deliveries cut inside
the report, and one set while the client is going off, which drops the report
of it, before the server activates both again. -/
def droppedReport : List Event :=
  [.actLeft (.setWindowSize 255 24), .actLeft (.call .activate), .actRight .activate,
    .deliverRight 2, .deliverRight 1, .deliverLeft 3, .deliverRight 5, .deliverRight 100,
    .actRight .deactivate, .actLeft (.setWindowSize 80 65535), .deliverRight 100,
    .deliverLeft 3, .deliverRight 3, .actLeft (.call .activate), .deliverRight 3,
    .deliverLeft 3, .deliverRight 100]

theorem run_reports_droppedReport :
    let n := run step start droppedReport
    n.right.1.signalled = some (80, 65535) ∧ Reported (({} : Parser).feed n.left.2).2 :=
  have h := run_reports droppedReport
  ⟨h.1 (by decide) (by decide) (by decide) (by decide) 80 65535 (by decide), h.2⟩

end ReportNet

end Telnetpp.Naws
