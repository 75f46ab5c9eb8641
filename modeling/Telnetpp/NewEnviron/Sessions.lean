import Telnetpp.Naws.Sessions
import Telnetpp.NewEnviron.Mirror

/-!
# The mirror of the environment between two sessions

The NEW-ENVIRON server and client as parts of two applications, whatever else
those do. The client's mirror is the server's environment as it is when the two
are alone.
-/

namespace Telnetpp.NewEnviron

open Foundation Replication SessionNet

/-! ## The two components -/

/-- The content of an INFO about a variable. -/
def updateContent (type : VariableType) (name : Bytes) : Option Bytes → Bytes
  | some content => appendVariableValue [info] type name content
  | none => appendVariable [info] type name

/-- A request sets a variable, or deletes it. -/
def serverComponent : Component (VariableType × Name × Option Bytes) Environment where
  id := ⟨.server, option⟩
  handleSubnegotiation data state env := (env, [Server.response ⟨env, state⟩ data])
  request u state env := (env.write ((u.1, u.2.1), u.2.2),
    if state = .active then [updateContent u.1 u.2.1 u.2.2] else [])

/-- What the application has connected to the signals of the client keeps a mirror. -/
def clientComponent : Component Empty (Table Key Bytes) where
  id := ⟨.client, option⟩
  onStateChanged state mirror :=
    if state = .active then (Table.empty, [[send]]) else (mirror, [])
  handleSubnegotiation data _ mirror :=
    (Table.patch ((forEachResponse data).map toUpdate) mirror, [])
  request := nofun

theorem alone_server : serverComponent.Alone (serverParty Outbox.writeElement)
    fun state env => ⟨env, state⟩ where
  optionCode := rfl
  write := rfl
  state _ _ _ := rfl
  setState _ _ _ _ := rfl
  onStateChanged _ _ written := congrArg (Outbox.mk _) (List.append_nil written).symm
  handleSubnegotiation _ _ _ _ := rfl
  call c := ⟨.call c, rfl⟩
  request := by
    rintro ⟨type, name, content⟩
    cases type <;> cases content
    · exact ⟨.deleteVariable name, fun state env => by cases state <;> rfl⟩
    · exact ⟨.setVariable name _, fun state env => by cases state <;> rfl⟩
    · exact ⟨.deleteUserVariable name, fun state env => by cases state <;> rfl⟩
    · exact ⟨.setUserVariable name _, fun state env => by cases state <;> rfl⟩

theorem alone_client : clientComponent.Alone (clientParty Outbox.writeElement) Client.mk where
  optionCode := rfl
  write := rfl
  state _ _ _ := rfl
  setState _ _ _ _ := rfl
  onStateChanged state mirror written := by
    cases state with
    | active => rfl
    | _ => exact congrArg (Outbox.mk _) (List.append_nil written).symm
  handleSubnegotiation data state mirror written :=
    (foldl_onVariableChanged (forEachResponse data) ⟨⟨state, mirror⟩, written⟩).trans
      (congrArg (Outbox.mk _) (List.append_nil written).symm)
  call c := ⟨c, rfl⟩
  request := nofun

/-! ## Two sessions -/

section Sessions

variable {α β κ κ' : Type} {A : Application α κ} {B : Application β κ'}
variable {environment : κ → Environment} {mirror : κ' → Table Key Bytes}

/-- What the two sessions read, seen through the server and its client. -/
def conversation (environment : κ → Environment) (mirror : κ' → Table Key Bytes)
    (n : SessionNet κ κ') : ElementNet :=
  n.read.project
    (fun s => ⟨environment s.1.app, s.1.state serverComponent.id⟩)
    (fun s => ⟨s.1.state clientComponent.id, mirror s.1.app⟩)
    serverComponent.id.heard clientComponent.id.heard

/-- It is a run of the two by themselves. -/
theorem conversation_run (hA : A.Hosts serverComponent environment)
    (hB : B.Hosts clientComponent mirror) {x : κ} {y : κ'} (hx : environment x = {})
    (hy : mirror y = Table.empty) (es : List (SessionEvent α β)) :
    ∃ es₁, conversation environment mirror (run (step A B) (start x y) es) =
      run elementStep ⟨{}, {}, [], []⟩ es₁ := by
  have hserver := (alone_server.projects hA (I := A.Absent)).logged (J := fun s => A.Absent s.1)
    fun _ hs => hs
  have hclient := (alone_client.projects hB (I := B.Absent)).logged (J := fun s => B.Absent s.1)
    fun _ hs => hs
  obtain ⟨es₁, hes₁⟩ := project_run hserver hclient x y es
  refine ⟨es₁, hes₁.trans ?_⟩
  simp only [Net.project, Atoms.start, hx, hy]
  rfl

/-- Two applications of which one hosts a server and the other a client, whatever else
they do: in every run, once nothing about the environment is on its way and both options
are active, the mirror is the server's two maps. -/
theorem run_mirrors_hosted (hA : A.Hosts serverComponent environment)
    (hB : B.Hosts clientComponent mirror) {x : κ} {y : κ'} (hx : environment x = {})
    (hy : mirror y = Table.empty) (es : List (SessionEvent α β)) :
    let n := run (step A B) (start x y) es
    (n.left.1.2.reads n.toLeft).filterMap serverComponent.id.heard = [] →
      (n.right.1.2.reads n.toRight).filterMap clientComponent.id.heard = [] →
      n.left.1.1.state serverComponent.id = .active →
      n.right.1.1.state clientComponent.id = .active →
      ∀ name,
        mirror n.right.1.1.app (.var, name) = (environment n.left.1.1.app).variables_[name]? ∧
        mirror n.right.1.1.app (.uservar, name) =
          (environment n.left.1.1.app).userVariables_[name]? := by
  intro n hleft hright hl hr
  obtain ⟨es₁, hes₁⟩ := conversation_run hA hB hx hy es
  have hsynced := synced_elements es₁
  rw [← hes₁] at hsynced
  have hmirror : mirror n.right.1.1.app = (environment n.left.1.1.app).lookup :=
    hsynced.quiescent (congrArg (List.map asked) hleft) (congrArg (List.map told) hright)
      (congrArg (Endpoint.stance true) hl) (congrArg (Endpoint.stance true) hr)
  intro name
  rw [hmirror]
  exact ⟨rfl, rfl⟩

end Sessions

/-! ## With NAWS and MSDP, and a connection of the ROT13 server -/

theorem ignores_connection (γ : Type) : (Rot13.connection γ).Ignores option where
  options id hid := by
    simp only [Rot13.connection, List.mem_cons, List.not_mem_nil, or_false] at hid
    rcases hid with rfl | rfl | rfl | rfl <;> decide
  sends := {
    negotiation := fun _ => rfl
    onByte := fun _ _ _ => rfl
    onCommand := fun _ _ _ => rfl
    onStateChanged := fun id states c => by
      simp only [Rot13.connection]
      split <;> rfl
    handleSubnegotiation := fun _ _ _ _ => rfl
    request := fun _ _ _ => rfl }

/-- The server with two more options, and what its program keeps. -/
def crowded : Application ((Msdp.Variable ⊕ Naws.WindowSize) ⊕ VariableType × Name × Option Bytes)
    ((Msdp.Inbox × Option Naws.WindowSize) × Environment) :=
  ((Msdp.server [⟨.server, Msdp.option⟩]).beside Naws.serverComponent).beside serverComponent

theorem hosts_crowded : crowded.Hosts serverComponent Prod.snd :=
  ((Naws.ignores_msdp .server (by decide)).beside (by decide)).hosts_beside

/-- A variable set before the activations cross, deleted while the first request is on its
way, and one set in between, with a report of a size and a variable of MSDP among them. -/
def crowdedUpdates : List (SessionEvent
    ((Msdp.Variable ⊕ Naws.WindowSize) ⊕ VariableType × Name × Option Bytes) (Unit ⊕ Empty)) :=
  [.actLeft (.request (.inr (.var, ⟨[0, 255], List.cons_ne_nil _ _⟩, some [3]))),
    .actLeft (.call serverComponent.id .activate), .actRight (.call clientComponent.id .activate),
    .actRight (.call Rot13.nawsClient .activate), .actLeft (.request (.inl (.inr (80, 24)))),
    .deliverRight 2, .deliverLeft 4, .deliverRight 1, .deliverLeft 100,
    .actLeft (.request (.inr (.var, ⟨[0, 255], List.cons_ne_nil _ _⟩, none))),
    .actLeft (.request (.inl (.inl ⟨[110], .string [118]⟩))),
    .actLeft (.request (.inr (.uservar, ⟨[2], List.cons_ne_nil _ _⟩, some [255, 240]))),
    .deliverRight 30, .deliverRight 100, .deliverLeft 100, .deliverRight 100]

theorem run_mirrors_hosted_crowded :
    let n := run (step crowded ((Rot13.connection Unit).beside clientComponent))
      (start (({}, none), {}) ({}, Table.empty)) crowdedUpdates
    (∀ name,
      n.right.1.1.app.2 (.var, name) = n.left.1.1.app.2.variables_[name]? ∧
      n.right.1.1.app.2 (.uservar, name) = n.left.1.1.app.2.userVariables_[name]?) ∧
      n.right.1.1.app.2 (.uservar, [2]) = some [255, 240] ∧
      n.right.1.1.app.2 (.var, [0, 255]) = none :=
  have h := run_mirrors_hosted hosts_crowded (ignores_connection Unit).hosts_beside rfl rfl
    crowdedUpdates (by decide +kernel) (by decide +kernel) (by decide +kernel) (by decide +kernel)
  ⟨h, (h _).2.trans (by decide +kernel), (h _).1.trans (by decide +kernel)⟩

end Telnetpp.NewEnviron
