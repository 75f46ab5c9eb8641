import Telnetpp.Streams

/-!
# The NAWS server and client

The server reports the size of its window when it becomes active and whenever
the size is set while it is active. The application of the client keeps the
last size that is signalled.
-/

namespace Telnetpp.Naws

open Foundation

/-- `detail::option`. -/
def option : OptionType := 31

abbrev WindowDimension := UInt16

abbrev WindowSize := WindowDimension × WindowDimension

/-! ## The content of a report -/

def windowContent (size : WindowSize) : Bytes :=
  [(size.1 >>> 8).toUInt8, (size.1 &&& 0xFF).toUInt8, (size.2 >>> 8).toUInt8,
    (size.2 &&& 0xFF).toUInt8]

/-- `content[0] << 8 | content[1]`. -/
def windowDimension (high low : Byte) : WindowDimension := high.toUInt16 <<< 8 ||| low.toUInt16

/-- The size that a content signals, if it signals one. -/
def windowSize? : Bytes → Option WindowSize
  | [b₀, b₁, b₂, b₃] => some (windowDimension b₀ b₁, windowDimension b₂ b₃)
  | _ => none

theorem windowDimension_bytes (w : WindowDimension) :
    windowDimension (w >>> 8).toUInt8 (w &&& 0xFF).toUInt8 = w := by
  have hw : w.toNat < 65536 := w.toNat_lt
  have hhigh : (w >>> 8).toUInt8.toUInt16.toNat = w.toNat / 256 := by
    simp [Nat.shiftRight_eq_div_pow]
    omega
  have hlow : (w &&& 0xFF).toUInt8.toUInt16.toNat = w.toNat % 256 := by
    have hmask := Nat.and_two_pow_sub_one_eq_mod (w.toNat % 256) 8
    simpa using hmask
  have hshift : (w.toNat / 256) <<< 8 = w.toNat / 256 * 256 := Nat.shiftLeft_eq _ 8
  apply UInt16.toNat_inj.mp
  calc (windowDimension (w >>> 8).toUInt8 (w &&& 0xFF).toUInt8).toNat
      = (w.toNat / 256) <<< 8 % 65536 ||| w.toNat % 256 := by
        rw [windowDimension, UInt16.toNat_or, UInt16.toNat_shiftLeft, hhigh, hlow]
        rfl
    _ = (w.toNat / 256) <<< 8 ||| w.toNat % 256 := by
        rw [hshift, Nat.mod_eq_of_lt (by omega)]
    _ = (w.toNat / 256) <<< 8 + w.toNat % 256 :=
        (Nat.shiftLeft_add_eq_or_of_lt (Nat.mod_lt _ (by decide)) _).symm
    _ = w.toNat := by
        rw [hshift]
        omega

theorem windowSize?_windowContent (size : WindowSize) :
    windowSize? (windowContent size) = some size := by
  rw [windowContent, windowSize?, windowDimension_bytes, windowDimension_bytes]

example : windowContent (255, 258) = [0, 255, 1, 2] := by decide

/-! ## The server -/

structure Server where
  state : InternalState := .inactive
  windowSize_ : Option WindowSize := none
  deriving DecidableEq, Repr

section Server

variable {Ω : Type} (write : Element → Outbox Server Ω → Outbox Server Ω)

def reportWindowSize (w : Outbox Server Ω) : Outbox Server Ω :=
  match w.own.windowSize_ with
  | some size => write (.subnegotiation ⟨option, windowContent size⟩) w
  | none => w

def server : ServerOption (Outbox Server Ω) where
  optionCode := option
  state w := w.own.state
  setState st w := { w with own.state := st }
  write := write
  onStateChanged w := if w.own.state == .active then reportWindowSize write w else w
  handleSubnegotiation _ := id

def setWindowSize (width height : WindowDimension) (w : Outbox Server Ω) : Outbox Server Ω :=
  let w := { w with own.windowSize_ := some (width, height) }
  if (server write).active w then reportWindowSize write w else w

end Server

inductive ServerInput
  | call (c : Call)
  | setWindowSize (width height : WindowDimension)
  deriving DecidableEq, Repr

def serverParty {Ω : Type} (write : Element → Outbox Server Ω → Outbox Server Ω) :
    Party ServerInput serverTraits Server Ω where
  write := write
  option := server write
  input
    | .call c => (server write).call c
    | .setWindowSize width height => setWindowSize write width height

/-! ## The client -/

/-- `signalled` is what its application keeps of `on_window_size_changed`. -/
structure Client where
  state : InternalState := .inactive
  signalled : Option WindowSize := none
  deriving DecidableEq, Repr

section Client

variable {Ω : Type} (write : Element → Outbox Client Ω → Outbox Client Ω)

/-- What the application has connected to the signal. -/
def onWindowSizeChanged (size : WindowSize) (w : Outbox Client Ω) : Outbox Client Ω :=
  { w with own.signalled := some size }

def client : ClientOption (Outbox Client Ω) where
  optionCode := option
  state w := w.own.state
  setState st w := { w with own.state := st }
  write := write
  onStateChanged := id
  handleSubnegotiation content w :=
    match windowSize? content with
    | some size => onWindowSizeChanged size w
    | none => w

end Client

def clientParty {Ω : Type} (write : Element → Outbox Client Ω → Outbox Client Ω) :
    Party Call clientTraits Client Ω where
  write := write
  option := client write
  input := (client write).call

/-! ## The parties over bytes and over elements -/

theorem reportWindowSize_render (before : Bytes) (w : Outbox Server Element) :
    reportWindowSize Outbox.writeBytes (Outbox.render before w) =
      Outbox.render before (reportWindowSize Outbox.writeElement w) := by
  rcases w with ⟨⟨state, size⟩, written⟩
  cases size with
  | none => rfl
  | some size => exact Outbox.writeBytes_render before _ _

theorem hom_server (before : Bytes) :
    (server Outbox.writeElement).Hom (server Outbox.writeBytes) (Outbox.render before) where
  optionCode := rfl
  state _ := rfl
  setState _ _ := rfl
  write := Outbox.writeBytes_render before
  onStateChanged w := by
    rcases w with ⟨⟨state, size⟩, written⟩
    cases state with
    | active => exact reportWindowSize_render before _
    | _ => rfl
  handleSubnegotiation _ _ := rfl

theorem renders_server : (serverParty Outbox.writeBytes).Renders
    (serverParty Outbox.writeElement) := by
  refine ⟨Outbox.writeBytes_render, hom_server, ?_⟩
  intro before i w
  cases i with
  | call c => exact (hom_server before).call c w
  | setWindowSize width height =>
      rcases w with ⟨⟨state, size⟩, written⟩
      cases state with
      | active => exact reportWindowSize_render before ⟨⟨.active, some (width, height)⟩, written⟩
      | _ => rfl

theorem renders_client : (clientParty Outbox.writeBytes).Renders
    (clientParty Outbox.writeElement) := by
  have hopt (before : Bytes) : (client Outbox.writeElement).Hom (client Outbox.writeBytes)
      (Outbox.render before) :=
    { optionCode := rfl
      state := fun _ => rfl
      setState := fun _ _ => rfl
      write := Outbox.writeBytes_render before
      onStateChanged := fun _ => rfl
      handleSubnegotiation := fun content w => by
        simp only [client]
        cases windowSize? content <;> rfl }
  exact ⟨Outbox.writeBytes_render, hopt, fun before c w => (hopt before).call c w⟩

theorem writes_reportWindowSize {w : Outbox Server Element} (hw : Party.Writes w) :
    Party.Writes (reportWindowSize Outbox.writeElement w) := by
  rw [reportWindowSize]
  split
  · exact hw.write (Party.sendable_subnegotiation _)
  · exact hw

theorem sends_server : (serverParty Outbox.writeElement).Sends := by
  have hkeeps : (server Outbox.writeElement).Keeps Party.Writes :=
    { setState := fun _ _ hw => hw
      writePositive := fun _ hw => hw.write (Party.sendable_negotiation rfl)
      writeNegative := fun _ hw => hw.write (Party.sendable_negotiation rfl)
      onStateChanged := fun w hw => by
        simp only [server]
        split
        · exact writes_reportWindowSize hw
        · exact hw
      handleSubnegotiation := fun _ _ hw => hw }
  apply Party.sends_of_keeps rfl hkeeps
  intro i w hw
  cases i with
  | call c => exact hkeeps.call c hw
  | setWindowSize width height =>
      have hset : Party.Writes { w with own.windowSize_ := some (width, height) } := hw
      simp only [serverParty, setWindowSize]
      split
      · exact writes_reportWindowSize hset
      · exact hset

theorem sends_client : (clientParty Outbox.writeElement).Sends := by
  have hkeeps : (client Outbox.writeElement).Keeps Party.Writes :=
    { setState := fun _ _ hw => hw
      writePositive := fun _ hw => hw.write (Party.sendable_negotiation rfl)
      writeNegative := fun _ hw => hw.write (Party.sendable_negotiation rfl)
      onStateChanged := fun _ hw => hw
      handleSubnegotiation := fun content w hw => by
        simp only [client]
        cases windowSize? content with
        | some size => exact hw
        | none => exact hw }
  exact Party.sends_of_keeps rfl hkeeps fun c w hw => hkeeps.call c hw

end Telnetpp.Naws
