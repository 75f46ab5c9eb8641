import Telnetpp.Session
import Telnetpp.Foundation.FifoNet
import Telnetpp.Foundation.Modes

/-!
# The MCCP server and client

Each option switches a codec: the server's transforms what its session
writes, and the client's what its session reads. The codecs are perfect, so
the link is taken to carry units with a note of whether they were compressed.
-/

namespace Telnetpp.Mccp

open Foundation

/-- `detail::option`. -/
def option : OptionType := 86

/-- One element as the server's codec has left it, or the mark that `finish`
puts in the stream. -/
inductive Packet
  | unit (elem : Element) (compressed : Bool)
  | endOfStream
  deriving DecidableEq, Repr

/-! ## The server -/

/-- `engaged` belongs to the codec. -/
structure Server where
  state : InternalState := .inactive
  engaged : Bool := false
  compressionActive : Bool := false
  deriving DecidableEq, Repr

/-- The server and what has passed its codec. -/
structure ServerWorld extends Server where
  sent : List Packet := []

namespace ServerWorld

/-- A text without bytes leaves nothing for the codec. -/
def write (elem : Element) (w : ServerWorld) : ServerWorld :=
  { w with sent := w.sent ++ if generate elem = [] then [] else [.unit elem w.engaged] }

def codecStart (w : ServerWorld) : ServerWorld := { w with engaged := true }

def codecFinish (w : ServerWorld) : ServerWorld :=
  { w with sent := w.sent ++ [.endOfStream], engaged := false }

def onStateChanged (w : ServerWorld) : ServerWorld :=
  if w.compressionActive then { w.codecFinish with compressionActive := false } else w

end ServerWorld

def server : ServerOption ServerWorld where
  optionCode := option
  state w := w.state
  setState st w := { w with state := st }
  write := ServerWorld.write
  onStateChanged := ServerWorld.onStateChanged
  handleSubnegotiation := fun _ => id

namespace ServerWorld

def startCompression (w : ServerWorld) : ServerWorld :=
  if server.active w then
    { (server.writeSubnegotiation [] w).codecStart with compressionActive := true }
  else w

def finishCompression (w : ServerWorld) : ServerWorld :=
  if server.active w && w.compressionActive then
    { w.codecFinish with compressionActive := false }
  else w

end ServerWorld

def serverSession : Session ServerWorld := (Session.new ServerWorld.write).installServer server

inductive ServerInput
  | call (c : Call)
  | startCompression
  | finishCompression
  | text (data : Bytes)
  deriving DecidableEq, Repr

def ServerInput.apply : ServerInput → ServerWorld → ServerWorld
  | .call c => server.call c
  | .startCompression => ServerWorld.startCompression
  | .finishCompression => ServerWorld.finishCompression
  | .text data => ServerWorld.write (.bytes data)

def serverEnd : Process ServerInput Unit Element Packet Server where
  act i s :=
    let w := i.apply { s with sent := [] }
    (w.toServer, w.sent)
  recv _ elem s :=
    let w := serverSession.tokenHandler (fun _ w => w) elem { s with sent := [] }
    (w.toServer, w.sent)

/-! ## The client -/

structure Client where
  state : InternalState := .inactive
  engaged : Bool := false
  deriving DecidableEq, Repr

structure ClientWorld extends Client where
  sent : List Element := []

namespace ClientWorld

def write (elem : Element) (w : ClientWorld) : ClientWorld :=
  { w with sent := w.sent ++ [elem] }

def codecStart (w : ClientWorld) : ClientWorld := { w with engaged := true }

/-- A decompressor that is finished has nothing to write. -/
def codecFinish (w : ClientWorld) : ClientWorld := { w with engaged := false }

def onStateChanged (w : ClientWorld) : ClientWorld :=
  if w.state == .active then w else w.codecFinish

end ClientWorld

def client : ClientOption ClientWorld where
  optionCode := option
  state w := w.state
  setState st w := { w with state := st }
  write := ClientWorld.write
  onStateChanged := ClientWorld.onStateChanged
  handleSubnegotiation := fun _ => ClientWorld.codecStart

def clientSession : Session ClientWorld := (Session.new ClientWorld.write).installClient client

/-- The client's codec in front of its session. `misread` is whatever comes
out of a unit that is read in the wrong mode. -/
def ClientWorld.read (misread : Element → ClientWorld → ClientWorld) :
    Packet → ClientWorld → ClientWorld
  | .endOfStream, w => w.codecFinish
  | .unit elem compressed, w =>
      if compressed = w.engaged then clientSession.tokenHandler (fun _ w => w) elem w
      else misread elem w

def clientEnd (misread : Element → ClientWorld → ClientWorld) :
    Process Call Unit Packet Element Client where
  act c s :=
    let w := client.call c { s with sent := [] }
    (w.toClient, w.sent)
  recv _ packet s :=
    let w := ClientWorld.read misread packet { s with sent := [] }
    (w.toClient, w.sent)

end Telnetpp.Mccp
