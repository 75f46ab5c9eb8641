import Telnetpp.Mccp.Zlib

/-!
# The codecs with their assertions

The compressor and the decompressor with `construct_stream` and
`destroy_stream`, and their projection to the codecs that have a stream or have none.
-/

namespace Telnetpp.Mccp.Zlib

open Foundation

/-- `impl`. The flags are not part of the program. They tell whether the
assertions of `construct_stream` and `destroy_stream` have held so far: those
about the stream, and those about the results of the library. -/
structure Impl (S : Type) where
  stream_ : Option (ZStream S) := none
  asserted : Bool := true
  accepted : Bool := true

namespace Impl

variable {S : Type}

def constructStream (result : Response) (state : S) (impl : Impl S) : Impl S where
  stream_ := some ⟨state, 0⟩
  asserted := impl.asserted && impl.stream_.isNone
  accepted := impl.accepted && result == .ok

def destroyStream (result : S → Response) (accepts : Response → Bool) (impl : Impl S) :
    Impl S where
  stream_ := none
  asserted := impl.asserted && impl.stream_.isSome
  accepted := impl.accepted && impl.stream_.all fun stream => accepts (result stream.state)

end Impl

/-- With the results of `inflateInit` and `inflateEnd`. -/
structure InflateLibrary (S : Type) extends Inflate S where
  inflateInit : Response
  inflateEnd : S → Response

/-- With the results of `deflateInit` and `deflateEnd`. -/
structure DeflateLibrary (S : Type) extends Deflate S where
  deflateInit : Response
  deflateEnd : S → Response

variable {S : Type}

/-! ## The decompressor -/

namespace Decompressor

variable (lib : InflateLibrary S)

/-- `inflateInit` finds memory and its own version of the library, and `inflateEnd`
returns one of the two results that it is documented to return. -/
def Documented : Prop :=
  lib.inflateInit = .ok ∧ ∀ s, lib.inflateEnd s = .ok ∨ lib.inflateEnd s = .streamError

def constructStream : Impl S → Impl S := Impl.constructStream lib.inflateInit lib.init

def destroyStream : Impl S → Impl S :=
  Impl.destroyStream lib.inflateEnd fun result => result == .ok || result == .streamError

/-- The body of the destructor and of `do_finish`. -/
def release (impl : Impl S) : Impl S :=
  if impl.stream_.isSome then destroyStream lib impl else impl

/-- `transform_chunk` from the call of `inflate` on, in a build with assertions
or, with `ndebug`, without. -/
def inflateStream (ndebug : Bool) (data : Bytes) (impl : Impl S) (stream : ZStream S) :
    CodecProgram (Impl S) Bytes :=
  let reply := inflateChunk lib.toInflate data stream.state
  let stream : ZStream S := ⟨reply.state, toUInt data.length - reply.consumed⟩
  let impl := { impl with stream_ := some stream }
  if reply.response = .dataError then
    .stop (.corruptedStream "Inflation of byte in ZLib stream yielded Z_DATA_ERROR") impl
  else if ndebug ∨ reply.response = .ok ∨ reply.response = .streamEnd then
    let streamEnded := reply.response == .streamEnd
    let data := data.drop (data.length - stream.availIn)
    .call ⟨reply.produced, streamEnded⟩ (if streamEnded then destroyStream lib impl else impl)
      (.done data)
  else .stop .assertion impl

def transformChunk (ndebug : Bool) (data : Bytes) (impl : Impl S) : CodecProgram (Impl S) Bytes :=
  let impl := if impl.stream_.isNone then constructStream lib impl else impl
  match impl.stream_ with
  | none => .stop .assertion impl
  | some stream => inflateStream lib ndebug data impl stream

def codec (ndebug : Bool) : Codec (Impl S) where
  doStart := id
  doFinish impl := .done () (release lib impl)
  transformChunk := transformChunk lib ndebug

theorem projects_inflateStream (data : Bytes) (impl : Impl S) (stream : ZStream S) :
    Program.Projects Impl.stream_ (inflateStream lib false data impl stream)
      (decompressChunk lib.toInflate data (some stream)) := by
  cases hresponse : (inflateChunk lib.toInflate data stream.state).response with
  | dataError =>
      simp only [inflateStream, decompressChunk, inflating, Option.map_some, Option.getD_some,
        hresponse, if_true]
      exact .stop _ _
  | ok =>
      simp only [inflateStream, decompressChunk, inflating, Option.map_some, Option.getD_some,
        hresponse, reduceCtorEq, if_false, true_or, or_true, if_true, beq_iff_eq]
      exact .call _ _ fun impl => .done _ impl
  | streamEnd =>
      simp only [inflateStream, decompressChunk, inflating, Option.map_some, Option.getD_some,
        hresponse, reduceCtorEq, if_false, or_true, if_true, beq_self_eq_true]
      exact .call _ _ fun impl => .done _ impl
  | _ =>
      simp only [inflateStream, decompressChunk, inflating, Option.map_some, Option.getD_some,
        hresponse, reduceCtorEq, Bool.false_eq_true, or_self, if_false]
      exact .stop _ _

/-- With assertions, the codec is the one that has a stream or has none. -/
theorem projects : (codec lib false).Projects Impl.stream_ (decompressor lib.toInflate) where
  doStart _ := rfl
  doFinish impl := by
    rcases impl with ⟨_ | stream, asserted, accepted⟩
    · exact .done () _
    · exact .done () _
  transformChunk data impl := by
    rcases impl with ⟨_ | stream, asserted, accepted⟩
    · exact projects_inflateStream lib data _ ⟨lib.init, 0⟩
    · exact projects_inflateStream lib data _ stream

end Decompressor

/-! ## The compressor -/

namespace Compressor

variable (lib : DeflateLibrary S)

/-- `deflateInit` finds memory and its own version of the library. -/
def Documented : Prop := lib.deflateInit = .ok

def constructStream : Impl S → Impl S := Impl.constructStream lib.deflateInit lib.init

/-- The last disjunct of the assertion is the constant Z_DATA_ERROR, which is not zero. -/
def destroyStream : Impl S → Impl S :=
  Impl.destroyStream lib.deflateEnd fun result => result == .ok || result == .streamError || true

/-- The body of the destructor. -/
def release (impl : Impl S) : Impl S :=
  if impl.stream_.isSome then destroyStream lib impl else impl

/-- `transform_chunk` from the call of `deflate` on. `avail_in` is read from the
stream after the call of the continuation. -/
def deflateStream (ndebug : Bool) (data : Bytes) (impl : Impl S) (stream : ZStream S) :
    CodecProgram (Impl S) Bytes :=
  let reply := deflateChunk lib.toDeflate data stream.state
  let impl := { impl with stream_ := some ⟨reply.state, toUInt data.length - reply.consumed⟩ }
  if ndebug ∨ reply.response = .ok then
    .call ⟨reply.produced, false⟩ impl fun impl =>
      match impl.stream_ with
      | some stream => .done (data.drop (data.length - stream.availIn)) impl
      | none => .stop .assertion impl
  else .stop .assertion impl

def transformChunk (ndebug : Bool) (data : Bytes) (impl : Impl S) : CodecProgram (Impl S) Bytes :=
  let impl := if impl.stream_.isNone then constructStream lib impl else impl
  match impl.stream_ with
  | none => .stop .assertion impl
  | some stream => deflateStream lib ndebug data impl stream

/-- The loop of `do_finish`, given up after `fuel` rounds. What follows a call
of the continuation is `deflate` or `destroy_stream`, and both need a stream. -/
def finishStream (ndebug : Bool) : ℕ → Impl S → ZStream S → CodecProgram (Impl S) Unit
  | 0, impl, _ => .stop .running impl
  | fuel + 1, impl, stream =>
      let reply := lib.deflate stream.state .finish [] outputBufferSize
      .call ⟨reply.produced, true⟩ { impl with stream_ := some ⟨reply.state, 0⟩ } fun impl =>
        match impl.stream_ with
        | none => .stop .assertion { impl with asserted := false }
        | some stream =>
            if reply.response = .ok then finishStream ndebug fuel impl stream
            else if ndebug ∨ reply.response = .streamEnd then .done () (destroyStream lib impl)
            else .stop .assertion impl

def doFinish (ndebug : Bool) (fuel : ℕ) (impl : Impl S) : CodecProgram (Impl S) Unit :=
  let impl := if impl.stream_.isNone then constructStream lib impl else impl
  match impl.stream_ with
  | none => .stop .assertion impl
  | some stream =>
      let stream : ZStream S := { stream with availIn := 0 }
      finishStream lib ndebug fuel { impl with stream_ := some stream } stream

def codec (ndebug : Bool) (fuel : ℕ) : Codec (Impl S) where
  doStart := id
  doFinish := doFinish lib ndebug fuel
  transformChunk := transformChunk lib ndebug

theorem projects_deflateStream (data : Bytes) (impl : Impl S) (stream : ZStream S) :
    Program.Projects Impl.stream_ (deflateStream lib false data impl stream)
      (compressChunk lib.toDeflate data (some stream)) := by
  cases hresponse : (deflateChunk lib.toDeflate data stream.state).response with
  | ok =>
      simp only [deflateStream, compressChunk, deflating, Option.map_some, Option.getD_some,
        hresponse, or_true, if_true]
      refine .call _ _ fun impl => ?_
      rcases impl with ⟨_ | stream, asserted, accepted⟩
      · exact .stop _ _
      · exact .done _ _
  | _ =>
      simp only [deflateStream, compressChunk, deflating, Option.map_some, Option.getD_some,
        hresponse, reduceCtorEq, Bool.false_eq_true, or_self, if_false]
      exact .stop _ _

theorem projects_finishStream (fuel : ℕ) {impl : Impl S} {stream : ZStream S}
    (himpl : impl.stream_ = some stream) :
    Program.Projects Impl.stream_ (finishStream lib false fuel impl stream)
      (Zlib.finishStream lib.toDeflate fuel stream) := by
  induction fuel generalizing impl stream with
  | zero =>
      rw [finishStream, Zlib.finishStream, ← himpl]
      exact .stop _ _
  | succ fuel ih =>
      refine .call _ _ fun impl => ?_
      rcases impl with ⟨_ | stream', asserted, accepted⟩
      · exact .stop _ _
      · simp only [Bool.false_eq_true, false_or]
        cases (lib.deflate stream.state .finish [] outputBufferSize).response with
        | ok => exact ih rfl
        | streamEnd => exact .done _ _
        | _ => exact .stop _ _

theorem projects (fuel : ℕ) :
    (codec lib false fuel).Projects Impl.stream_ (compressor lib.toDeflate fuel) where
  doStart _ := rfl
  doFinish impl := by
    rcases impl with ⟨_ | stream, asserted, accepted⟩
    · exact projects_finishStream lib fuel rfl
    · exact projects_finishStream lib fuel rfl
  transformChunk data impl := by
    rcases impl with ⟨_ | stream, asserted, accepted⟩
    · exact projects_deflateStream lib data _ ⟨lib.init, 0⟩
    · exact projects_deflateStream lib data _ stream

end Compressor

end Telnetpp.Mccp.Zlib
