import Telnetpp.Component
import Telnetpp.Msdp.Options
import Telnetpp.Naws.Report
import Telnetpp.Rot13.Connection

/-!
# The size of the window between two sessions

The NAWS server and client as parts of two applications, whatever else those do.
The client is told the size as it is when the two are alone.
-/

namespace Telnetpp.Naws

open Foundation Announcement SessionNet

/-! ## The two components -/

/-- The contents of the reports of a size, if one has been set. -/
def reportContents (size : Option WindowSize) : List Bytes := size.toList.map windowContent

/-- A request sets the size. -/
def serverComponent : Component WindowSize (Option WindowSize) where
  id := ⟨.server, option⟩
  onStateChanged state size := (size, if state = .active then reportContents size else [])
  request size state _ := (some size, if state = .active then reportContents (some size) else [])

/-- The size that has been signalled last is kept. -/
def clientComponent : Component Empty (Option WindowSize) where
  id := ⟨.client, option⟩
  handleSubnegotiation content _ signalled := ((windowSize? content).or signalled, [])
  request := nofun

theorem says_reportContents (size : Option WindowSize) :
    (reportContents size).map (fun content => Element.subnegotiation ⟨option, content⟩) =
      reports size := List.map_map ..

theorem alone_server : serverComponent.Alone (serverParty Outbox.writeElement) Server.mk where
  optionCode := rfl
  write := rfl
  state _ _ _ := rfl
  setState _ _ _ _ := rfl
  onStateChanged state size written := by
    have hreport := reportWindowSize_eq ⟨⟨.active, size⟩, written⟩
    rw [← says_reportContents] at hreport
    cases state with
    | active => exact hreport
    | _ => exact congrArg (Outbox.mk _) (List.append_nil written).symm
  handleSubnegotiation _ _ _ written := congrArg (Outbox.mk _) (List.append_nil written).symm
  call c := ⟨.call c, rfl⟩
  request size := ⟨.setWindowSize size.1 size.2, fun state _ => by cases state <;> rfl⟩

theorem alone_client : clientComponent.Alone (clientParty Outbox.writeElement) Client.mk where
  optionCode := rfl
  write := rfl
  state _ _ _ := rfl
  setState _ _ _ _ := rfl
  onStateChanged _ _ written := congrArg (Outbox.mk _) (List.append_nil written).symm
  handleSubnegotiation content state signalled written := by
    simp only [clientParty, client, Component.outcome, clientComponent, List.map_nil,
      List.append_nil]
    cases windowSize? content <;> rfl
  call c := ⟨c, rfl⟩
  request := nofun

/-! ## Two sessions -/

section Sessions

variable {α β κ κ' : Type} {A : Application α κ} {B : Application β κ'}
variable {size : κ → Option WindowSize} {signalled : κ' → Option WindowSize}

/-- The server in an application, beside all elements that its client hears. -/
def serverOf (size : κ → Option WindowSize) (s : Owned κ × List Atom) : Server × List Element :=
  (⟨s.1.state serverComponent.id, size s.1.app⟩, s.2.filterMap clientComponent.id.heard)

def clientOf (signalled : κ' → Option WindowSize) (s : Owned κ' × List Atom) : Client :=
  ⟨s.1.state clientComponent.id, signalled s.1.app⟩

/-- What the two sessions read, seen through the server and its client. -/
def conversation (size : κ → Option WindowSize) (signalled : κ' → Option WindowSize)
    (n : SessionNet κ κ') : ElementNet :=
  n.read.project (serverOf size) (clientOf signalled) serverComponent.id.heard
    clientComponent.id.heard

/-- It is a run of the two by themselves. -/
theorem conversation_run (hA : A.Hosts serverComponent size)
    (hB : B.Hosts clientComponent signalled) {x : κ} {y : κ'} (hx : size x = none)
    (hy : signalled y = none) (es : List (SessionEvent α β)) :
    ∃ es₁, conversation size signalled (run (step A B) (start x y) es) =
      run elementStep ⟨({}, []), {}, [], []⟩ es₁ := by
  have hserver := (alone_server.projects hA (I := A.Absent)).both_logged
    (J := fun s => A.Absent s.1) fun _ hs => hs
  have hclient := (alone_client.projects hB (I := B.Absent)).logged (J := fun s => B.Absent s.1)
    fun _ hs => hs
  obtain ⟨es₁, hes₁⟩ := project_run hserver hclient x y es
  have hstart : (Atoms.start x y).project (serverOf size) (clientOf signalled)
      serverComponent.id.heard clientComponent.id.heard = ⟨({}, []), {}, [], []⟩ := by
    simp [Net.project, Atoms.start, serverOf, clientOf, hx, hy]
  refine ⟨es₁, ?_⟩
  rw [← hstart]
  exact hes₁

/-- Two applications of which one hosts a server and the other a client, whatever else
they do: in every run, once nothing about the size is on its way to the client and both
options are active, the size that has been signalled last is the server's, if one has
been set; and every report comes after a WILL, with no WONT in between. -/
theorem run_reports_hosted (hA : A.Hosts serverComponent size)
    (hB : B.Hosts clientComponent signalled) {x : κ} {y : κ'} (hx : size x = none)
    (hy : signalled y = none) (es : List (SessionEvent α β)) :
    let n := run (step A B) (start x y) es
    ((n.right.1.2.reads n.toRight).filterMap clientComponent.id.heard = [] →
      n.left.1.1.state serverComponent.id = .active →
      n.right.1.1.state clientComponent.id = .active →
      ∀ s, size n.left.1.1.app = some s → signalled n.right.1.1.app = some s) ∧
      Reported (sees clientComponent.id.heard n.left.2) := by
  intro n
  obtain ⟨es₁, hes₁⟩ := conversation_run hA hB hx hy es
  obtain ⟨hsound, htraffic⟩ := sound_elements es₁
  rw [← hes₁] at hsound htraffic
  refine ⟨fun hright hl hr s hs => ?_, ?_⟩
  · exact hsound.quiescent (congrArg (List.map told) hright) (congrArg phase hl)
      (congrArg phase hr) hs
  · exact reported_of_announced htraffic.sent hsound.truthful.announced

end Sessions

/-! ## A connection of the ROT13 server -/

/-- What a connection has last called its handler of window sizes with. -/
def lastSize {γ : Type} (c : Rot13.Connection γ) : Option WindowSize := c.windowSizes.getLast?

theorem lastSize_handleSubnegotiation {γ : Type} (c : Rot13.Connection γ) (id : OptionId)
    (content : Bytes) :
    lastSize (c.handleSubnegotiation id content) =
      if id = clientComponent.id then (windowSize? content).or (lastSize c) else lastSize c := by
  rw [Rot13.Connection.handleSubnegotiation]
  change lastSize (if id = clientComponent.id then _ else _) = _
  split
  · cases windowSize? content with
    | none => rfl
    | some size => exact List.getLast?_concat
  · split
    · cases TerminalType.terminalType? content <;> rfl
    · rfl

theorem hosts_connection (γ : Type) :
    (Rot13.connection γ).Hosts clientComponent lastSize where
  installed := by simp [Rot13.connection, clientComponent, Rot13.nawsClient]
  unique id hid hcode := by
    simp only [Rot13.connection, List.mem_cons, List.not_mem_nil, or_false] at hid
    rcases hid with rfl | rfl | rfl | rfl
    · exact absurd hcode (by decide)
    · exact absurd hcode (by decide)
    · rfl
    · exact absurd hcode (by decide)
  onByte by_ states c := rfl
  onCommand _ _ _ := rfl
  onStateChanged id states c := by
    have hidle : (if id = clientComponent.id then clientComponent.onStateChanged else Part.idle) =
        (Part.idle : Part (Option WindowSize)) := ite_self _
    rw [hidle]
    simp only [Rot13.connection]
    split <;> rfl
  handleSubnegotiation id content states c := by
    have hsize := lastSize_handleSubnegotiation c id content
    simp only [Rot13.connection, hsize]
    split <;> rfl
  request _ := Or.inl fun _ _ => rfl

/-! ## A server beside MSDP -/

theorem ignores_msdp (half : Half) {code : OptionType} (hcode : Msdp.option ≠ code) :
    (Msdp.endpoint half [⟨half, Msdp.option⟩]).Ignores code where
  options id hid := by
    rwa [List.mem_singleton.mp hid]
  sends := {
    negotiation := fun _ => rfl
    onByte := fun _ _ _ => rfl
    onCommand := fun _ _ _ => rfl
    onStateChanged := fun _ _ _ => rfl
    handleSubnegotiation := fun id content states app => by
      simp only [Msdp.endpoint]
      split <;> rfl
    request := fun v _ _ => by
      simp [Msdp.endpoint, Msdp.send, FreeElement.seen, FreeElement.subnegotiation, Element.atoms,
        contentOf, hcode] }

/-- A size set while the options are being activated at both ends, and one set behind a
variable of MSDP, with deliveries cut inside the negotiations and the reports. -/
def crossingReports : List (SessionEvent (Msdp.Variable ⊕ WindowSize) Unit) :=
  (Rot13.activations Unit).map .actRight ++
    [.actLeft (.call serverComponent.id .activate),
      .actLeft (.call ⟨.server, Msdp.option⟩ .activate), .deliverLeft 7,
      .actLeft (.request (.inr (255, 80))), .deliverRight 4, .deliverLeft 100,
      .actLeft (.request (.inl ⟨[110], .string [118]⟩)), .actLeft (.request (.inr (80, 24))),
      .deliverRight 20, .deliverLeft 100, .deliverRight 100]

theorem run_reports_hosted_connection :
    let n := run
      (step ((Msdp.server [⟨.server, Msdp.option⟩]).beside serverComponent)
        (Rot13.connection Unit))
      (start ({}, none) {}) crossingReports
    lastSize n.right.1.1.app = some (80, 24) ∧ Reported (sees clientComponent.id.heard n.left.2) :=
  have h := run_reports_hosted (ignores_msdp .server (by decide)).hosts_beside
    (hosts_connection Unit) rfl rfl crossingReports
  ⟨h.1 (by decide +kernel) (by decide +kernel) (by decide +kernel) _ (by decide +kernel), h.2⟩

end Telnetpp.Naws
