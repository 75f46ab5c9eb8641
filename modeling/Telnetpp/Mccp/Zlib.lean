import Telnetpp.Mccp.Codec

/-!
# The codecs over zlib

The compressor and the decompressor, over a library that offers `deflate` and
`inflate`. Each keeps a `z_stream` from the first chunk of a compressed stream
to its end, and makes one call of the library for every chunk.
-/

namespace Telnetpp.Mccp.Zlib

open Foundation

/-- The result codes that `deflate` and `inflate` are documented to return. -/
inductive Response
  | ok
  | streamEnd
  | needDict
  | streamError
  | dataError
  | memError
  | bufError
  deriving DecidableEq, Repr

/-- What one call of the library does: the code it returns, how many bytes of
its input it takes, and what it writes. -/
structure Reply (S : Type) where
  response : Response
  consumed : ℕ
  produced : Bytes
  state : S

inductive Flush
  | syncFlush
  | finish
  deriving DecidableEq, Repr

/-- `inflateInit`, and `inflate` with Z_SYNC_FLUSH, for the bytes from `next_in`
on and the room from `next_out` on. -/
structure Inflate (S : Type) where
  init : S
  inflate : S → Bytes → ℕ → Reply S

/-- `deflateInit` and `deflate`. -/
structure Deflate (S : Type) where
  init : S
  deflate : S → Flush → Bytes → ℕ → Reply S

/-- `z_stream`: the library's state, and what it has left of its input. -/
structure ZStream (S : Type) where
  state : S
  availIn : ℕ := 0

/-- `uInt` holds the numbers below 2^32. -/
abbrev uIntLimit : ℕ := 4294967296

/-- `static_cast<uInt>`. -/
def toUInt (size : ℕ) : ℕ := size % uIntLimit

variable {S : Type}

/-! ## The decompressor -/

def receiveBufferSize : ℕ := 1024

section Decompressor

variable (lib : Inflate S)

/-- The call that a chunk leads to, from a stream in the given state. -/
def inflateChunk (data : Bytes) (state : S) : Reply S :=
  lib.inflate state (data.take (toUInt data.length)) receiveBufferSize

/-- The state of the stream, which is constructed when there is none. -/
def inflating (stream : Option (ZStream S)) : S := (stream.map ZStream.state).getD lib.init

def decompressChunk (data : Bytes) (stream : Option (ZStream S)) :
    CodecProgram (Option (ZStream S)) Bytes :=
  let reply := inflateChunk lib data (inflating lib stream)
  let stream : ZStream S := ⟨reply.state, toUInt data.length - reply.consumed⟩
  if reply.response = .dataError then
    .stop (.corruptedStream "Inflation of byte in ZLib stream yielded Z_DATA_ERROR") (some stream)
  else if reply.response = .ok ∨ reply.response = .streamEnd then
    let streamEnded := reply.response == .streamEnd
    let data := data.drop (data.length - stream.availIn)
    .call ⟨reply.produced, streamEnded⟩ (if streamEnded then none else some stream) (.done data)
  else .stop .assertion (some stream)

def decompressor : Codec (Option (ZStream S)) where
  doStart := id
  doFinish _ := .done () none
  transformChunk := decompressChunk lib

end Decompressor

/-! ## The compressor -/

def outputBufferSize : ℕ := 1024

section Compressor

variable (lib : Deflate S)

def deflateChunk (data : Bytes) (state : S) : Reply S :=
  lib.deflate state .syncFlush (data.take (toUInt data.length)) outputBufferSize

def deflating (stream : Option (ZStream S)) : S := (stream.map ZStream.state).getD lib.init

/-- `avail_in` is read from the stream after the call of the continuation, and
without a stream there is nothing that it could be read from. -/
def compressChunk (data : Bytes) (stream : Option (ZStream S)) :
    CodecProgram (Option (ZStream S)) Bytes :=
  let reply := deflateChunk lib data (deflating lib stream)
  let stream : ZStream S := ⟨reply.state, toUInt data.length - reply.consumed⟩
  if reply.response = .ok then
    .call ⟨reply.produced, false⟩ (some stream) fun stream =>
      match stream with
      | some stream => .done (data.drop (data.length - stream.availIn)) (some stream)
      | none => .stop .assertion none
  else .stop .assertion (some stream)

/-- The loop of `do_finish`, given up after `fuel` rounds. -/
def finishStream : ℕ → ZStream S → CodecProgram (Option (ZStream S)) Unit
  | 0, stream => .stop .running (some stream)
  | fuel + 1, stream =>
      let reply := lib.deflate stream.state .finish [] outputBufferSize
      .call ⟨reply.produced, true⟩ (some ⟨reply.state, 0⟩) fun stream =>
        match stream with
        | none => .stop .assertion none
        | some stream =>
            if reply.response = .ok then finishStream fuel stream
            else if reply.response = .streamEnd then .done () none
            else .stop .assertion (some stream)

def compressor (fuel : ℕ) : Codec (Option (ZStream S)) where
  doStart := id
  doFinish stream := finishStream lib fuel ⟨deflating lib stream, 0⟩
  transformChunk := compressChunk lib

end Compressor

end Telnetpp.Mccp.Zlib
