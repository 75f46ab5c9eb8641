import Telnetpp.NewEnviron.Protocol
import Telnetpp.Streams
import Telnetpp.Foundation.Tables

/-!
# The NEW-ENVIRON server and client

The server keeps two maps and tells of their changes while it is active. The
client's application keeps a mirror of them: it clears the mirror and asks
for everything whenever the option is found active, and follows the
responses.
-/

namespace Telnetpp.NewEnviron

open Foundation

/-! ## The server -/

/-- `std::map<byte_storage, byte_storage>`. -/
abbrev VariableStorage := Std.TreeMap Bytes Bytes

/-- `storage[name] = content`, or `storage.erase(name)` when there is no content. -/
def assign (name : Bytes) (content : Option Bytes) (storage : VariableStorage) :
    VariableStorage :=
  match content with
  | some content => storage.insert name content
  | none => storage.erase name

structure Environment where
  variables_ : VariableStorage := ∅
  userVariables_ : VariableStorage := ∅

structure Server extends Environment where
  state : InternalState := .inactive

abbrev Key := VariableType × Bytes

namespace Environment

def storage (env : Environment) : VariableType → VariableStorage
  | .var => env.variables_
  | .uservar => env.userVariables_

def lookup (env : Environment) (key : Key) : Option Bytes := (env.storage key.1)[key.2]?

def write (u : Update Key Bytes) (env : Environment) : Environment :=
  match u.1.1 with
  | .var => { env with variables_ := assign u.1.2 u.2 env.variables_ }
  | .uservar => { env with userVariables_ := assign u.1.2 u.2 env.userVariables_ }

end Environment

/-- The response to a request: the whole of the two maps if nothing but the
command byte was sent, else the variables that were asked for. -/
def Server.response (s : Server) (data : Bytes) : Bytes :=
  if data.length = 1 then
    let response := s.variables_.toList.foldl
      (fun response entry => appendVariableValue response .var entry.1 entry.2) [is]
    s.userVariables_.toList.foldl
      (fun response entry => appendVariableValue response .uservar entry.1 entry.2) response
  else
    (forEachRequest data).foldl
      (fun response req =>
        match s.lookup (req.type, req.name) with
        | some content => appendVariableValue response req.type req.name content
        | none => response) [is]

section Server

variable {Ω : Type} (write : Element → Outbox Server Ω → Outbox Server Ω)

def server : ServerOption (Outbox Server Ω) where
  optionCode := option
  state w := w.own.state
  setState st w := { w with own.state := st }
  write := write
  onStateChanged := id
  handleSubnegotiation data w := write (.subnegotiation ⟨option, w.own.response data⟩) w

def broadcastVariableUpdate (type : VariableType) (name content : Bytes) :
    Outbox Server Ω → Outbox Server Ω :=
  (server write).writeSubnegotiation (appendVariableValue [info] type name content)

def broadcastVariableDeletion (type : VariableType) (name : Bytes) :
    Outbox Server Ω → Outbox Server Ω :=
  (server write).writeSubnegotiation (appendVariable [info] type name)

/-- The common body of the four functions below. -/
def changeVariable (type : VariableType) (name : Bytes) (content : Option Bytes)
    (w : Outbox Server Ω) : Outbox Server Ω :=
  let w := { w with own := { w.own with
    toEnvironment := w.own.toEnvironment.write ((type, name), content) } }
  if (server write).active w then
    match content with
    | some content => broadcastVariableUpdate write type name content w
    | none => broadcastVariableDeletion write type name w
  else w

def setVariable (name content : Bytes) : Outbox Server Ω → Outbox Server Ω :=
  changeVariable write .var name (some content)

def deleteVariable (name : Bytes) : Outbox Server Ω → Outbox Server Ω :=
  changeVariable write .var name none

def setUserVariable (name content : Bytes) : Outbox Server Ω → Outbox Server Ω :=
  changeVariable write .uservar name (some content)

def deleteUserVariable (name : Bytes) : Outbox Server Ω → Outbox Server Ω :=
  changeVariable write .uservar name none

end Server

abbrev Name := { name : Bytes // name ≠ [] }

inductive ServerInput
  | call (c : Call)
  | setVariable (name : Name) (content : Bytes)
  | deleteVariable (name : Name)
  | setUserVariable (name : Name) (content : Bytes)
  | deleteUserVariable (name : Name)

def serverParty {Ω : Type} (write : Element → Outbox Server Ω → Outbox Server Ω) :
    Party ServerInput serverTraits Server Ω where
  write := write
  option := server write
  input
    | .call c => (server write).call c
    | .setVariable name content => setVariable write name content
    | .deleteVariable name => deleteVariable write name
    | .setUserVariable name content => setUserVariable write name content
    | .deleteUserVariable name => deleteUserVariable write name

/-! ## The client -/

structure Client where
  state : InternalState := .inactive
  mirror : Table Key Bytes := Table.empty

section Client

variable {Ω : Type} (write : Element → Outbox Client Ω → Outbox Client Ω)

def requestVariables (reqs : List Request) : Outbox Client Ω → Outbox Client Ω :=
  write (.subnegotiation ⟨option, reqs.foldl (fun requestContent request =>
    appendEscaped (requestContent ++ [typeToByte request.type]) request.name) [send]⟩)

/-- What the application has connected to `on_variable_changed`. -/
def onVariableChanged (w : Outbox Client Ω) (rsp : Response) : Outbox Client Ω :=
  { w with own.mirror := Function.update w.own.mirror (rsp.type, rsp.name) rsp.value }

/-- What the application has connected to `on_state_changed`. -/
def onStateChanged (w : Outbox Client Ω) : Outbox Client Ω :=
  if w.own.state == .active then
    requestVariables write [] { w with own.mirror := Table.empty }
  else w

def client : ClientOption (Outbox Client Ω) where
  optionCode := option
  state w := w.own.state
  setState st w := { w with own.state := st }
  write := write
  onStateChanged := onStateChanged write
  handleSubnegotiation data w := (forEachResponse data).foldl onVariableChanged w

end Client

def clientParty {Ω : Type} (write : Element → Outbox Client Ω → Outbox Client Ω) :
    Party Call clientTraits Client Ω where
  write := write
  option := client write
  input := (client write).call

/-! ## The parties over bytes and over elements -/

theorem renders_server : (serverParty Outbox.writeBytes).Renders
    (serverParty Outbox.writeElement) := by
  have hopt (before : Bytes) : (server Outbox.writeElement).Hom (server Outbox.writeBytes)
      (Outbox.render before) :=
    { optionCode := rfl
      state := fun _ => rfl
      setState := fun _ _ => rfl
      write := Outbox.writeBytes_render before
      onStateChanged := fun _ => rfl
      handleSubnegotiation := fun _ w => Outbox.writeBytes_render before _ w }
  have hchange (before : Bytes) (type : VariableType) (name : Bytes) (content : Option Bytes)
      (w : Outbox Server Element) :
      changeVariable Outbox.writeBytes type name content (Outbox.render before w) =
        Outbox.render before (changeVariable Outbox.writeElement type name content w) := by
    let w' : Outbox Server Element := { w with own := { w.own with
      toEnvironment := w.own.toEnvironment.write ((type, name), content) } }
    have hwrite (data : Bytes) := (hopt before).writeSubnegotiation data w'
    simp only [changeVariable]
    by_cases hactive : (server Outbox.writeElement).active w' = true
    · refine (if_pos hactive).trans (Eq.trans ?_ (congrArg _ (if_pos hactive).symm))
      cases content with
      | some content => exact hwrite _
      | none => exact hwrite _
    · refine (if_neg hactive).trans (Eq.trans ?_ (congrArg _ (if_neg hactive).symm))
      rfl
  refine ⟨Outbox.writeBytes_render, hopt, ?_⟩
  intro before i w
  cases i with
  | call c => exact (hopt before).call c w
  | _ => exact hchange before _ _ _ w

theorem renders_client : (clientParty Outbox.writeBytes).Renders
    (clientParty Outbox.writeElement) := by
  have hstate (before : Bytes) (w : Outbox Client Element) :
      onStateChanged Outbox.writeBytes (Outbox.render before w) =
        Outbox.render before (onStateChanged Outbox.writeElement w) := by
    by_cases hactive : (w.own.state == .active) = true
    · have hwrite := Outbox.writeBytes_render before
        (.subnegotiation ⟨option, [send]⟩) { w with own.mirror := Table.empty }
      exact (if_pos hactive).trans (hwrite.trans (congrArg _ (if_pos hactive).symm))
    · exact (if_neg hactive).trans (congrArg _ (if_neg hactive).symm)
  have hfold (before : Bytes) (rsps : List Response) (w : Outbox Client Element) :
      rsps.foldl onVariableChanged (Outbox.render before w) =
        Outbox.render before (rsps.foldl onVariableChanged w) := by
    induction rsps generalizing w with
    | nil => rfl
    | cons rsp rsps ih => exact ih (onVariableChanged w rsp)
  have hopt (before : Bytes) : (client Outbox.writeElement).Hom (client Outbox.writeBytes)
      (Outbox.render before) :=
    { optionCode := rfl
      state := fun _ => rfl
      setState := fun _ _ => rfl
      write := Outbox.writeBytes_render before
      onStateChanged := hstate before
      handleSubnegotiation := fun data w => hfold before (forEachResponse data) w }
  exact ⟨Outbox.writeBytes_render, hopt, fun before c w => (hopt before).call c w⟩

theorem sends_server : (serverParty Outbox.writeElement).Sends := by
  have hkeeps : (server Outbox.writeElement).Keeps Party.Writes :=
    { setState := fun _ _ hw => hw
      writePositive := fun _ hw => hw.write (Party.sendable_negotiation rfl)
      writeNegative := fun _ hw => hw.write (Party.sendable_negotiation rfl)
      onStateChanged := fun _ hw => hw
      handleSubnegotiation := fun _ _ hw => hw.write (Party.sendable_subnegotiation _) }
  have hchange (type : VariableType) (name : Bytes) (content : Option Bytes)
      (w : Outbox Server Element) (hw : Party.Writes w) :
      Party.Writes (changeVariable Outbox.writeElement type name content w) := by
    simp only [changeVariable]
    split
    · cases content with
      | some content => exact hw.write (Party.sendable_subnegotiation _)
      | none => exact hw.write (Party.sendable_subnegotiation _)
    · exact hw
  apply Party.sends_of_keeps rfl hkeeps
  intro i w hw
  cases i with
  | call c => exact hkeeps.call c hw
  | _ => exact hchange _ _ _ w hw

theorem sends_client : (clientParty Outbox.writeElement).Sends := by
  have hfold (rsps : List Response) (w : Outbox Client Element) (hw : Party.Writes w) :
      Party.Writes (rsps.foldl onVariableChanged w) := by
    induction rsps generalizing w with
    | nil => exact hw
    | cons rsp rsps ih => exact ih (onVariableChanged w rsp) hw
  have hkeeps : (client Outbox.writeElement).Keeps Party.Writes :=
    { setState := fun _ _ hw => hw
      writePositive := fun _ hw => hw.write (Party.sendable_negotiation rfl)
      writeNegative := fun _ hw => hw.write (Party.sendable_negotiation rfl)
      onStateChanged := fun w hw => by
        simp only [client, onStateChanged]
        split
        · exact Party.Writes.write hw (Party.sendable_subnegotiation _)
        · exact hw
      handleSubnegotiation := fun data w hw => hfold (forEachResponse data) w hw }
  exact Party.sends_of_keeps rfl hkeeps fun c w hw => hkeeps.call c hw

end Telnetpp.NewEnviron
