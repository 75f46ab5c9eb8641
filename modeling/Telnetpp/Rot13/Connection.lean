import Telnetpp.Naws.Options
import Telnetpp.Negotiation.Contents

/-!
# The connection of the ROT13 server

A connection asks for four options, announces the terminal type of the other
end and echoes all data, encoded. Whatever else passes between the two ends,
the other end gets back what it has sent, encoded and in order.
-/

namespace Telnetpp

namespace TerminalType

/-- `detail::option`. -/
def option : OptionType := 24

def is : Byte := 0

def send : Byte := 1

def requestTerminalType : FreeElement := .subnegotiation option [send]

/-- The type that `handle_subnegotiation` signals, if it signals one. -/
def terminalType? : Bytes → Option Bytes
  | [] => none
  | by_ :: type => if by_ = is then some type else none

end TerminalType

namespace Rot13

open Foundation SessionNet

/-- `encode_byte`, from the letters `A` and `a` on. -/
def encodeByte (datum : Byte) : Byte :=
  if 65 ≤ datum ∧ datum ≤ 90 then 65 + ((datum - 65) + 13) % 26
  else if 97 ≤ datum ∧ datum ≤ 122 then 97 + ((datum - 97) + 13) % 26
  else if datum = 0 then 10
  else datum

def rot13Encode (data : Bytes) : Bytes := data.map encodeByte

example : rot13Encode [72, 105, 0] = [85, 118, 10] := by decide

def echoServer : OptionId := ⟨.server, 1⟩

def suppressGaServer : OptionId := ⟨.server, 3⟩

def nawsClient : OptionId := ⟨.client, Naws.option⟩

def terminalTypeClient : OptionId := ⟨.client, TerminalType.option⟩

/-- The members of a connection, beside what its continuations have been called with. -/
structure Connection (γ : Type) where
  terminalType : Bytes := []
  terminalTypeRequests : List γ := []
  announced : List (γ × Bytes) := []
  windowSizes : List Naws.WindowSize := []

namespace Connection

variable {γ : Type} (c : Connection γ)

def announceTerminalType : Connection γ :=
  { c with
    announced := c.announced ++ c.terminalTypeRequests.map fun callback =>
      (callback, c.terminalType)
    terminalTypeRequests := [] }

def onTerminalTypeDetected (type : Bytes) : Connection γ :=
  { c with terminalType := type }.announceTerminalType

def onWindowSizeChanged (size : Naws.WindowSize) : Connection γ :=
  { c with windowSizes := c.windowSizes ++ [size] }

def asyncGetTerminalType (continuation : γ) : Connection γ :=
  { c with terminalTypeRequests := c.terminalTypeRequests ++ [continuation] }

/-- What is connected to the signals of the two clients. -/
def handleSubnegotiation (id : OptionId) (content : Bytes) : Connection γ :=
  if id = nawsClient then
    match Naws.windowSize? content with
    | some size => c.onWindowSizeChanged size
    | none => c
  else if id = terminalTypeClient then
    match TerminalType.terminalType? content with
    | some type => c.onTerminalTypeDetected type
    | none => c
  else c

end Connection

/-- `read_handler`: the data of a span is encoded and written at once. -/
def readHandler {γ : Type} (data : Bytes) : Handler (Connection γ) :=
  fun _ c => (c, [.text (rot13Encode data)])

/-- The connection with the read handler of the server. -/
def connection (γ : Type) : Application γ (Connection γ) where
  options := [echoServer, suppressGaServer, nawsClient, terminalTypeClient]
  onByte by_ := readHandler [by_]
  onStateChanged id states c :=
    if id = terminalTypeClient ∧ states terminalTypeClient = .active then
      (c, [TerminalType.requestTerminalType])
    else (c, [])
  handleSubnegotiation id content _ c := (c.handleSubnegotiation id content, [])
  request continuation _ c := (c.asyncGetTerminalType continuation, [])

/-- What the constructor of a connection does with its options. -/
def activations (γ : Type) : List (AppInput γ) :=
  [.call echoServer .activate, .call suppressGaServer .activate, .call nawsClient .activate,
    .call terminalTypeClient .activate]

/-- It is no matter that the application is handed a span byte by byte. -/
theorem callback_eq_readHandler (γ : Type) (data : Bytes)
    (w : Outbox (Owned (Connection γ)) Byte) :
    (connection γ).callback Outbox.writeBytes data w =
      Application.perform Outbox.writeBytes (readHandler data) w := by
  induction data generalizing w with
  | nil => simp [Application.callback, Application.perform, readHandler, FreeElement.text,
      Outbox.writeBytes_eq, rot13Encode, Element.atoms]
  | cons by_ data ih =>
      rw [Application.callback, List.foldl_cons]
      apply (ih _).trans
      simp [Application.perform, connection, readHandler, FreeElement.text, Outbox.writeBytes_eq,
        rot13Encode, Element.atoms]

/-! ## The echo -/

variable {α κ γ : Type}

/-- Data is sent in answer to data alone. -/
theorem sends_data : (connection γ).Sends dataOf (fun _ => []) fun by_ => [encodeByte by_] where
  negotiation _ := rfl
  onByte _ _ _ := rfl
  onCommand _ _ _ := rfl
  onStateChanged id states c := by
    simp only [connection]
    split <;> rfl
  handleSubnegotiation _ _ _ _ := rfl
  request _ _ _ := rfl

def encoded (a : Atom) : Option Byte := (dataOf a).map encodeByte

theorem filterMap_encoded (atoms : List Atom) :
    atoms.filterMap encoded = rot13Encode (atoms.filterMap dataOf) :=
  List.map_filterMap.symm

/-- What the connection has sent it has taken, encoded. -/
theorem takes_encoded {I : Owned (Connection γ) × List Atom → Prop} :
    (connection γ).atoms.logged.Takes encoded (fun s => s.2.filterMap dataOf) I Atom.Sendable where
  act i s _ := by
    have hact := sends_data.act i s.1
    cases i <;> simp [Process.logged, hact, AppInput.sent]
  recv _ a ha s _ := by
    have hrecv := sends_data.recv a s.1
    have hanswered : a.answered (fun by_ => [encodeByte by_]) = (encoded a).toList := by
      cases a with
      | data by_ => rfl
      | token elem =>
          cases elem with
          | bytes data => exact absurd rfl (ha.2 data)
          | _ => rfl
    change (s.2 ++ ((connection γ).atoms.recv () a s.1).2).filterMap dataOf = _
    rw [List.filterMap_append, hrecv, hanswered]

section Echo

variable (A : Application α κ) (x : κ) (c : Connection γ)

/-- What the connection has sent and will send for the data on its way to it is
what the other end has sent, encoded. -/
theorem encoded_run (es : List (NetEvent (AppInput α) Unit (AppInput γ) Unit)) :
    let m := run (Atoms.step A (connection γ)) (Atoms.start x c) es
    m.right.2.filterMap dataOf ++ rot13Encode (m.toRight.filterMap dataOf) =
      rot13Encode (m.left.2.filterMap dataOf) := by
  intro m
  obtain ⟨during, hsent, htaken⟩ := Net.Carries.conveyed_run A.keeps_absent
    (connection γ).keeps_absent.beside takes_encoded (sound_start x c) es
  rw [filterMap_encoded] at hsent htaken
  exact htaken.trans hsent.symm

/-- In every run of a connection and another end of any kind, cut and interleaved
in any way: the data that the other end has been handed, the data on its way to
it and the encoding of the data on its way to the connection are the encoding of
the data that it has sent. -/
theorem run_echoes {received : κ → Bytes} (h : A.Collects received)
    (es : List (SessionEvent α γ)) :
    let n := run (step A (connection γ)) (start x c) es
    received n.left.1.1.app ++ (n.left.1.2.reads n.toLeft).filterMap dataOf ++
        rot13Encode ((n.right.1.2.reads n.toRight).filterMap dataOf) =
      received x ++ rot13Encode (sees dataOf n.left.2) := by
  intro n
  obtain ⟨es', hreads⟩ := reads_run (A := A) (B := connection γ) (reads_start x c) es
  have hencoded := encoded_run A x c es'
  have hreceived := received_left (connection γ) h c x es'
  obtain ⟨⟨⟨hleft, htoLeft⟩, hsent, hsendable⟩, ⟨-, htoRight⟩, -⟩ := hreads
  rw [hleft, htoLeft.reads, htoRight.reads, sees, hsent, Parser.reads_flatMap hsendable,
    hreceived, List.append_assoc, hencoded]

end Echo

/-- A terminal gets back the first of two bytes while the other is on its way. -/
theorem run_echoes_terminal :
    let n := run (step (Application.terminal []) (connection Unit)) (start [] {})
      [.actLeft (.request (.text [72, 105])), .deliverRight 1, .deliverLeft 1]
    n.left.1.1.app ++ (n.left.1.2.reads n.toLeft).filterMap dataOf ++
        rot13Encode ((n.right.1.2.reads n.toRight).filterMap dataOf) = [85, 118] :=
  run_echoes (Application.terminal []) [] {} (collects_terminal [])
    [.actLeft (.request (.text [72, 105])), .deliverRight 1, .deliverLeft 1]

end Rot13

end Telnetpp
