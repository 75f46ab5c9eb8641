import Telnetpp.Mccp.Assertions
import Telnetpp.Mccp.Inflation
import Telnetpp.Foundation.Run

/-!
# The life of a stream

Whether a codec is engaged is written by the base class and whether it has a
stream by the derived class, each at its own moment. A stream is there only
while the codec is engaged, in every state in which a call has come back, and
in a decompressor also in every state that its continuation finds.
-/

namespace Telnetpp.Mccp

open Foundation

/-! ## Runs of calls -/

/-- A call has returned, or the exception of the codec has left it. -/
def ComesBack {σ α : Type} : Outcome Stop σ α → Prop
  | .done _ _ => True
  | .stopped (.corruptedStream _) _ => True
  | .stopped .assertion _ => False
  | .stopped .running _ => False

theorem comesBack_map {σ τ α : Type} (f : σ → τ) (o : Outcome Stop σ α) :
    ComesBack (o.map f) ↔ ComesBack o := by
  rcases o with ⟨a, w⟩ | ⟨reason, w⟩
  · rfl
  · cases reason <;> rfl

section Boundaries

variable {Z κ : Type}

/-- The states between the calls of a run, each with a continuation of its own. -/
inductive Boundary (codec : ℕ → Codec Z) (allowed : Continuation Z κ → Prop)
    (w₀ : CodecWorld Z κ) : CodecWorld Z κ → Prop
  | initial : Boundary codec allowed w₀ w₀
  | start {w : CodecWorld Z κ} (fuel : ℕ) (h : Boundary codec allowed w₀ w) :
      Boundary codec allowed w₀ ((codec fuel).start w)
  | finish {w : CodecWorld Z κ} {cont : Continuation Z κ} (fuel : ℕ) (hcont : allowed cont)
      (h : Boundary codec allowed w₀ w) (hback : ComesBack ((codec fuel).finish cont w)) :
      Boundary codec allowed w₀ ((codec fuel).finish cont w).world
  | operator {w : CodecWorld Z κ} {cont : Continuation Z κ} {data : Bytes}
      {o : Outcome Stop (CodecWorld Z κ) Unit} (fuel : ℕ) (hcont : allowed cont)
      (h : Boundary codec allowed w₀ w) (ho : (codec fuel).Transforms cont data w o)
      (hback : ComesBack o) : Boundary codec allowed w₀ o.world

/-- The continuations that do not call the codec. -/
def Passive (cont : Continuation Z κ) : Prop := ∃ take, cont = passive take

/-- What holds before every round of a call of `operator()`, and when it ends in any way. -/
def Codec.Throughout (codec : Codec Z) (cont : Continuation Z κ) (data : Bytes)
    (w : CodecWorld Z κ) (P : CodecWorld Z κ → Prop) : Prop :=
  (∀ s, Visits (codec.round cont) (data, w) s → P s.2) ∧
    ∀ o, codec.Transforms cont data w o → P o.world

variable {codec : Codec Z} {cont : Continuation Z κ} {P : CodecWorld Z κ → Prop}

theorem Codec.throughout_of_round
    (hround : ∀ data w, P w → (codec.round cont (data, w)).All (fun s => P s.2) fun o => P o.world)
    (data : Bytes) {w : CodecWorld Z κ} (hw : P w) : codec.Throughout cont data w P := by
  constructor
  · intro s hs
    refine hs.invariant (I := fun s => P s.2) ?_ hw
    intro s s' hs hnext
    have hall := hround s.1 s.2 hs
    rwa [hnext] at hall
  · intro o ho
    exact ho.satisfies_of_all (I := fun s => P s.2) (Q := fun o => P o.world)
      (fun s hs => hround s.1 s.2 hs) hw

/-- The states of a codec with more in its state, as those of the other. -/
theorem Boundary.map {Z' κ' : Type} {f : Z → Z'} {g : κ → κ'} {codec : ℕ → Codec Z}
    {codec' : ℕ → Codec Z'} {allowed : Continuation Z κ → Prop}
    {allowed' : Continuation Z' κ' → Prop} (hcodec : ∀ fuel, (codec fuel).Projects f (codec' fuel))
    (hallowed : ∀ cont, allowed cont → ∃ cont', allowed' cont' ∧ Codec.ProjectsCont f g cont cont')
    {w₀ w : CodecWorld Z κ} (h : Boundary codec allowed w₀ w) :
    Boundary codec' allowed' (w₀.map f g) (w.map f g) := by
  induction h with
  | initial => exact .initial
  | start fuel _ ih =>
      rw [(hcodec fuel).start]
      exact .start fuel ih
  | @finish w cont fuel hcont _ hback ih =>
      obtain ⟨cont', hcont', hprojects⟩ := hallowed cont hcont
      have hfinish := (hcodec fuel).finish hprojects w
      rw [← Outcome.world_map (CodecWorld.map f g), hfinish]
      refine .finish fuel hcont' ih ?_
      rw [← hfinish]
      exact (comesBack_map _ _).mpr hback
  | @operator w cont data o fuel hcont _ ho hback ih =>
      obtain ⟨cont', hcont', hprojects⟩ := hallowed cont hcont
      rw [← Outcome.world_map (CodecWorld.map f g)]
      exact .operator fuel hcont' ih ((hcodec fuel).transforms hprojects ho)
        ((comesBack_map _ o).mpr hback)

end Boundaries

namespace Zlib

variable {S κ : Type}

/-! ## What every state of a codec satisfies -/

/-- The assertions about the stream have held, and those about the results if
the library does as documented. -/
structure Impl.Kept (documented : Prop) (impl : Impl S) : Prop where
  asserted : impl.asserted = true
  accepted : documented → impl.accepted = true

structure Sound (documented : Prop) (w : CodecWorld (Impl S) κ) : Prop where
  engaged : w.inner.stream_.isSome → w.engaged = true
  kept : w.inner.Kept documented

theorem Sound.note {documented : Prop} {w : CodecWorld (Impl S) κ} (h : Sound documented w)
    (p : Passage) : Sound documented (w.note p) := ⟨h.engaged, h.kept⟩

section Streams

variable {documented : Prop} {impl : Impl S}

theorem Impl.Kept.constructStream {result : Response} {state : S} (h : impl.Kept documented)
    (hnone : impl.stream_ = none) (hresult : documented → result = .ok) :
    (impl.constructStream result state).Kept documented where
  asserted := by simp [Impl.constructStream, h.asserted, hnone]
  accepted := fun hdoc => by simp [Impl.constructStream, h.accepted hdoc, hresult hdoc]

theorem Impl.Kept.destroyStream {result : S → Response} {accepts : Response → Bool}
    (h : impl.Kept documented) (hsome : impl.stream_.isSome)
    (haccepts : documented → ∀ s, accepts (result s) = true) :
    (impl.destroyStream result accepts).Kept documented where
  asserted := by simp [Impl.destroyStream, h.asserted, hsome]
  accepted := fun hdoc => by
    cases hstream : impl.stream_ <;>
      simp [Impl.destroyStream, h.accepted hdoc, haccepts hdoc, hstream]

/-- A stream is destroyed only where there is one. -/
theorem Impl.Kept.release {destroy : Impl S → Impl S} (h : impl.Kept documented)
    (hdestroy : impl.stream_.isSome → (destroy impl).Kept documented) :
    (if impl.stream_.isSome then destroy impl else impl).Kept documented := by
  split
  next hsome => exact hdestroy hsome
  next => exact h

theorem start_fresh {codec : Codec (Impl S)} (hstart : codec.doStart = id)
    {w : CodecWorld (Impl S) κ} (h : Sound documented w) (hengaged : w.engaged = false) :
    (codec.start w).inner.stream_ = none := by
  have hnone : w.inner.stream_ = none := by
    by_contra hsome
    have := h.engaged (Option.isSome_iff_ne_none.mpr hsome)
    simp [hengaged] at this
  rw [Codec.start, hstart]
  exact hnone

end Streams

/-! ## The decompressor -/

/-- What the continuation can reach. `seen` is not part of the program: whether
the codec was engaged and whether it had a stream, at every entry of the
continuation and after every call that it has made. -/
structure Watched (κ : Type) where
  app : κ
  seen : List (Bool × Bool) := []

def watch (w : CodecWorld (Impl S) (Watched κ)) : CodecWorld (Impl S) (Watched κ) :=
  { w with outer.seen := w.outer.seen ++ [(w.engaged, w.inner.stream_.isSome)] }

/-- Also everything that the continuation has found. -/
structure Watches (documented : Prop) (w : CodecWorld (Impl S) (Watched κ)) : Prop
    extends Sound documented w where
  seen : ∀ found ∈ w.outer.seen, found.2 = true → found.1 = true

theorem Watches.watch {documented : Prop} {w : CodecWorld (Impl S) (Watched κ)}
    (h : Watches documented w) : Watches documented (watch w) where
  engaged := h.engaged
  kept := h.kept
  seen := by
    intro found hfound
    rcases List.mem_append.mp hfound with hfound | hfound
    · exact h.seen found hfound
    · obtain rfl := List.mem_singleton.mp hfound
      exact h.engaged

theorem Watches.note {documented : Prop} {w : CodecWorld (Impl S) (Watched κ)}
    (h : Watches documented w) (p : Passage) : Watches documented (w.note p) :=
  ⟨h.toSound.note p, h.seen⟩

namespace Decompressor

variable (lib : InflateLibrary S) (ndebug : Bool)

def call (w : CodecWorld (Impl S) (Watched κ)) : CodecCall → CodecWorld (Impl S) (Watched κ)
  | .start => (codec lib ndebug).start w
  | .finish => { w with inner := release lib w.inner, engaged := false }

/-- The continuation of `finish` is not called. -/
theorem finish_eq (cont : Continuation (Impl S) (Watched κ)) (w : CodecWorld (Impl S) (Watched κ)) :
    (codec lib ndebug).finish cont w = .done () (call lib ndebug w .finish) := rfl

/-- A continuation that calls the codec as the host says. -/
def hosted (host : Host κ) : Continuation (Impl S) (Watched κ) := fun chunk w =>
  let r := host chunk w.outer.app
  .done () (r.2.foldl (fun w c => watch (call lib ndebug w c))
    { watch w with outer.app := r.1 })

/-- The continuations that call `start()` and `finish()` in any order, and not `operator()`. -/
def CallsCodec (cont : Continuation (Impl S) (Watched κ)) : Prop :=
  ∃ host, cont = hosted lib ndebug host

variable {lib ndebug} {w : CodecWorld (Impl S) (Watched κ)} {impl : Impl S} {data : Bytes}

theorem release_none (impl : Impl S) : (release lib impl).stream_ = none := by
  rcases impl with ⟨_ | stream, asserted, accepted⟩ <;> rfl

theorem kept_destroyStream (h : impl.Kept (Documented lib)) (hsome : impl.stream_.isSome) :
    (destroyStream lib impl).Kept (Documented lib) := by
  refine h.destroyStream hsome fun hdoc s => ?_
  rcases hdoc.2 s with hs | hs <;> simp [hs]

theorem kept_release (h : impl.Kept (Documented lib)) :
    (release lib impl).Kept (Documented lib) :=
  h.release fun hsome => kept_destroyStream h hsome

theorem watches_call (ndebug : Bool) (h : Watches (Documented lib) w) (c : CodecCall) :
    Watches (Documented lib) (call lib ndebug w c) := by
  cases c with
  | start => exact ⟨⟨fun _ => rfl, h.kept⟩, h.seen⟩
  | finish =>
      refine ⟨⟨fun hsome => ?_, kept_release h.kept⟩, h.seen⟩
      simp only [call, release_none, Option.isSome_none, Bool.false_eq_true] at hsome

theorem watches_hosted (ndebug : Bool) (host : Host κ) (chunk : Chunk)
    (h : Watches (Documented lib) w) :
    ∃ w', hosted lib ndebug host chunk w = .done () w' ∧ Watches (Documented lib) w' := by
  refine ⟨_, rfl, ?_⟩
  have hentry : Watches (Documented lib) { watch w with
      outer.app := (host chunk w.outer.app).1 } := ⟨⟨h.engaged, h.kept⟩, h.watch.seen⟩
  exact run_invariant (fun w c => watch (call lib ndebug w c))
    (fun w c (h : Watches (Documented lib) w) => (watches_call ndebug h c).watch) hentry
    (host chunk w.outer.app).2

/-- A chunk ends before the continuation is called, with nothing undone, or it calls the
continuation once, and the stream has been destroyed if that is told of its end. -/
theorem inflateStream_cases (stream : ZStream S) (h : impl.Kept (Documented lib)) :
    (∃ reason impl', inflateStream lib ndebug data impl stream = .stop reason impl' ∧
        impl'.Kept (Documented lib)) ∨
      ∃ chunk impl' rest, inflateStream lib ndebug data impl stream =
          .call chunk impl' (.done rest) ∧ impl'.Kept (Documented lib) ∧
        (impl'.stream_.isSome → chunk.ended = false) := by
  let reply := inflateChunk lib.toInflate data stream.state
  let impl₁ : Impl S := { impl with
    stream_ := some ⟨reply.state, toUInt data.length - reply.consumed⟩ }
  have hkept : impl₁.Kept (Documented lib) := ⟨h.asserted, h.accepted⟩
  by_cases herror : reply.response = .dataError
  · exact .inl ⟨_, impl₁, if_pos herror, hkept⟩
  by_cases hgoes : ndebug ∨ reply.response = .ok ∨ reply.response = .streamEnd
  · refine .inr ⟨_, _, _, (if_neg herror).trans (if_pos hgoes), ?_, ?_⟩
    · split
      next => exact kept_destroyStream hkept rfl
      next => exact hkept
    · intro hsome
      by_contra hended
      simp only [Bool.not_eq_false] at hended
      rw [if_pos hended] at hsome
      exact absurd hsome Bool.false_ne_true
  · exact .inl ⟨_, impl₁, (if_neg herror).trans (if_neg hgoes), hkept⟩

theorem transformChunk_cases (ndebug : Bool) (data : Bytes) (h : impl.Kept (Documented lib)) :
    (∃ reason impl', transformChunk lib ndebug data impl = .stop reason impl' ∧
        impl'.Kept (Documented lib)) ∨
      ∃ chunk impl' rest, transformChunk lib ndebug data impl =
          .call chunk impl' (.done rest) ∧ impl'.Kept (Documented lib) ∧
        (impl'.stream_.isSome → chunk.ended = false) := by
  rcases impl with ⟨_ | stream, asserted, accepted⟩
  · exact inflateStream_cases ⟨lib.init, 0⟩ (h.constructStream rfl fun hdoc => hdoc.1)
  · exact inflateStream_cases stream h

theorem watches_chunk (host : Host κ) (data : Bytes) (h : Watches (Documented lib) w)
    (hengaged : w.engaged = true) :
    Watches (Documented lib) (Codec.run (Codec.forward (hosted lib ndebug host))
      ((codec lib ndebug).transformChunk data w.inner) w).world := by
  show Watches _ (Codec.run _ (transformChunk lib ndebug data w.inner) w).world
  rcases transformChunk_cases ndebug data h.kept with
    ⟨reason, impl', hchunk, hkept⟩ | ⟨chunk, impl', rest, hchunk, hkept, hended⟩
  · rw [hchunk]
    exact ⟨⟨fun _ => hengaged, hkept⟩, h.seen⟩
  · -- the loop writes `engaged_` before the continuation is called
    have hentry : Watches (Documented lib)
        { (w.put impl').note (.output chunk.data) with engaged := !chunk.ended } := by
      refine ⟨⟨fun hsome => ?_, hkept⟩, h.seen⟩
      rw [hended hsome]
      rfl
    obtain ⟨w', hw', hwatches⟩ := watches_hosted ndebug host chunk hentry
    rw [hchunk, Codec.run_call_done hw']
    exact hwatches

theorem watches_round (host : Host κ) (data : Bytes) (w : CodecWorld (Impl S) (Watched κ))
    (h : Watches (Documented lib) w) :
    ((codec lib ndebug).round (hosted lib ndebug host) (data, w)).All
      (fun s => Watches (Documented lib) s.2) fun o => Watches (Documented lib) o.world := by
  refine Codec.round_all h (watches_chunk host data h) (fun _ _ h => h.note _) fun _ => ?_
  obtain ⟨w', hw', hwatches⟩ :=
    watches_hosted ndebug host ⟨data.take 1, false⟩ (h.note (.passed (data.take 1)))
  rw [hw']
  exact hwatches

theorem watches_boundary {x : κ}
    (h : Boundary (fun _ => codec lib ndebug) (CallsCodec lib ndebug)
      { inner := {}, outer := { app := x } } w) : Watches (Documented lib) w := by
  induction h with
  | initial => exact ⟨⟨nofun, ⟨rfl, fun _ => rfl⟩⟩, nofun⟩
  | start _ _ ih => exact watches_call ndebug ih .start
  | finish _ _ _ _ ih =>
      rw [finish_eq]
      exact watches_call ndebug ih .finish
  | operator _ hcont _ ho _ ih =>
      obtain ⟨host, rfl⟩ := hcont
      exact (Codec.throughout_of_round (watches_round host) _ ih).2 _ ho

/-- The run of the decompressor that has a stream or has none. -/
theorem boundary_decompressor {x : κ}
    (h : Boundary (fun _ => codec lib false) (CallsCodec lib false)
      { inner := {}, outer := { app := x } } w) :
    Boundary (fun _ => decompressor lib.toInflate)
      (fun cont => ∃ host, cont = Zlib.hosted lib.toInflate host) { inner := none, outer := x }
      (w.map Impl.stream_ Watched.app) := by
  have hcall (w : CodecWorld (Impl S) (Watched κ)) (c : CodecCall) :
      c.apply lib.toInflate (w.map Impl.stream_ Watched.app) =
        (watch (call lib false w c)).map Impl.stream_ Watched.app := by
    cases c with
    | start => rfl
    | finish => simp only [CodecCall.apply, CodecWorld.map, watch, call, release_none]
  have hprojects (host : Host κ) : Codec.ProjectsCont Impl.stream_ Watched.app
      (hosted lib false host) (Zlib.hosted lib.toInflate host) := fun chunk w =>
    congrArg (Outcome.done ()) (List.foldl_hom (CodecWorld.map Impl.stream_ Watched.app) hcall).symm
  refine h.map (fun _ => projects lib) (g := Watched.app) ?_
  rintro _ ⟨host, rfl⟩
  exact ⟨_, ⟨host, rfl⟩, hprojects host⟩

end Decompressor

/-! ## The compressor -/

namespace Compressor

variable {lib : DeflateLibrary S} {ndebug : Bool} {w : CodecWorld (Impl S) κ} {impl : Impl S}
  {data : Bytes}

theorem kept_destroyStream (h : impl.Kept (Documented lib)) (hsome : impl.stream_.isSome) :
    (destroyStream lib impl).Kept (Documented lib) :=
  h.destroyStream hsome fun _ _ => Bool.or_true _

theorem kept_release (h : impl.Kept (Documented lib)) :
    (release lib impl).Kept (Documented lib) :=
  h.release fun hsome => kept_destroyStream h hsome

theorem kept_deflateStream (stream : ZStream S) (h : impl.Kept (Documented lib)) :
    (deflateStream lib ndebug data impl stream).alone.2.world.Kept (Documented lib) := by
  rw [deflateStream]
  split
  next => exact ⟨h.asserted, h.accepted⟩
  next => exact ⟨h.asserted, h.accepted⟩

theorem kept_transformChunk (h : impl.Kept (Documented lib)) :
    (transformChunk lib ndebug data impl).alone.2.world.Kept (Documented lib) := by
  rcases impl with ⟨_ | stream, asserted, accepted⟩
  · exact kept_deflateStream ⟨lib.init, 0⟩ (h.constructStream rfl fun hdoc => hdoc)
  · exact kept_deflateStream stream h

/-- The stream is destroyed when `do_finish` returns. -/
theorem finishStream_ends (fuel : ℕ) (stream : ZStream S) (h : impl.Kept (Documented lib)) :
    let o := (finishStream lib ndebug fuel impl stream).alone.2
    o.world.Kept (Documented lib) ∧ (ComesBack o → o.world.stream_ = none) := by
  induction fuel generalizing impl stream with
  | zero => exact ⟨h, False.elim⟩
  | succ fuel ih =>
      let reply := lib.deflate stream.state .finish [] outputBufferSize
      let impl₁ : Impl S := { impl with stream_ := some ⟨reply.state, 0⟩ }
      have hkept : impl₁.Kept (Documented lib) := ⟨h.asserted, h.accepted⟩
      simp only [finishStream, Program.alone]
      split
      next => exact ih ⟨reply.state, 0⟩ hkept
      next =>
        split
        next => exact ⟨kept_destroyStream hkept rfl, fun _ => rfl⟩
        next => exact ⟨hkept, False.elim⟩

theorem doFinish_ends (ndebug : Bool) (fuel : ℕ) (h : impl.Kept (Documented lib)) :
    let o := (doFinish lib ndebug fuel impl).alone.2
    o.world.Kept (Documented lib) ∧ (ComesBack o → o.world.stream_ = none) := by
  rcases impl with ⟨_ | stream, asserted, accepted⟩
  · exact finishStream_ends fuel _ (h.constructStream rfl fun hdoc => hdoc)
  · exact finishStream_ends fuel _ ⟨h.asserted, h.accepted⟩

theorem unending (fuel : ℕ) : (codec lib ndebug fuel).Unending := by
  intro data impl
  have hdeflate (impl : Impl S) (stream : ZStream S) :
      (deflateStream lib ndebug data impl stream).AllCalls fun chunk => chunk.ended = false := by
    rw [deflateStream]
    split
    next =>
      refine ⟨rfl, fun impl => ?_⟩
      rcases impl with ⟨_ | stream, asserted, accepted⟩ <;> trivial
    next => trivial
  rcases impl with ⟨_ | stream, asserted, accepted⟩ <;> exact hdeflate _ _

theorem sound_chunk (take : Chunk → κ → κ) (fuel : ℕ) (data : Bytes)
    (h : Sound (Documented lib) w) (hengaged : w.engaged = true) :
    Sound (Documented lib) (Codec.run (Codec.forward (passive take))
      ((codec lib ndebug fuel).transformChunk data w.inner) w).world := by
  let cont : Continuation (Impl S) κ := Codec.forward (passive take)
  let o := Codec.run cont ((codec lib ndebug fuel).transformChunk data w.inner) w
  have hcont (chunk : Chunk) (w : CodecWorld (Impl S) κ) :
      ∃ w', cont chunk w = .done () w' ∧ w'.inner = w.inner := ⟨_, rfl, rfl⟩
  have hend : o.map CodecWorld.inner = (transformChunk lib ndebug data w.inner).alone.2 :=
    Codec.map_run hcont _ w
  have hkept : o.world.inner.Kept (Documented lib) := by
    rw [← Outcome.world_map CodecWorld.inner, hend]
    exact kept_transformChunk h.kept
  let I (w : CodecWorld (Impl S) κ) : Prop := w.engaged = true
  have hput (impl : Impl S) (w : CodecWorld (Impl S) κ) (hw : I w) : I (w.put impl) := hw
  have hcall (chunk : Chunk) (w : CodecWorld (Impl S) κ) (hchunk : chunk.ended = false)
      (_ : I w) : I (cont chunk w).world := by
    show (!chunk.ended) = true
    rw [hchunk]
    rfl
  have hstays : I o.world :=
    Program.run_invariant_of_allCalls hput hcall (unending fuel data w.inner) hengaged
  exact ⟨fun _ => hstays, hkept⟩

theorem sound_round (take : Chunk → κ → κ) (fuel : ℕ) (data : Bytes) (w : CodecWorld (Impl S) κ)
    (h : Sound (Documented lib) w) :
    ((codec lib ndebug fuel).round (passive take) (data, w)).All
      (fun s => Sound (Documented lib) s.2) fun o => Sound (Documented lib) o.world :=
  Codec.round_all h (sound_chunk take fuel data h) (fun _ _ h => h.note _)
    fun _ => ⟨h.engaged, h.kept⟩

/-- Whether or not the codec was engaged when `finish()` was called. -/
theorem sound_finish (take : Chunk → κ → κ) (fuel : ℕ) (h : w.inner.Kept (Documented lib)) :
    let o := (codec lib ndebug fuel).finish (passive take) w
    o.world.inner.Kept (Documented lib) ∧ (ComesBack o → Sound (Documented lib) o.world) := by
  intro o
  have hcont (chunk : Chunk) (w : CodecWorld (Impl S) κ) :
      ∃ w', passive take chunk w = .done () w' ∧ w'.inner = w.inner := ⟨_, rfl, rfl⟩
  have hend : o.map CodecWorld.inner = (doFinish lib ndebug fuel w.inner).alone.2 :=
    Codec.map_finish hcont w
  obtain ⟨hkept, hnone⟩ := doFinish_ends ndebug fuel h
  rw [← hend, Outcome.world_map] at hkept hnone
  refine ⟨hkept, fun hback => ⟨fun hsome => ?_, hkept⟩⟩
  rw [hnone ((comesBack_map _ o).mpr hback)] at hsome
  exact absurd hsome Bool.false_ne_true

theorem sound_boundary {x : κ}
    (h : Boundary (codec lib ndebug) Passive
      { inner := {}, outer := x } w) : Sound (Documented lib) w := by
  induction h with
  | initial => exact ⟨nofun, ⟨rfl, fun _ => rfl⟩⟩
  | start _ _ ih => exact ⟨fun _ => rfl, ih.kept⟩
  | finish fuel hcont _ hback ih =>
      obtain ⟨take, rfl⟩ := hcont
      exact (sound_finish take fuel ih.kept).2 hback
  | operator fuel hcont _ ho _ ih =>
      obtain ⟨take, rfl⟩ := hcont
      exact (Codec.throughout_of_round (sound_round take fuel) _ ih).2 _ ho

theorem boundary_compressor {x : κ}
    (h : Boundary (codec lib false) Passive
      { inner := {}, outer := x } w) :
    Boundary (compressor lib.toDeflate) Passive
      { inner := none, outer := x } (w.map Impl.stream_ id) := by
  refine h.map (projects lib) (g := id) ?_
  rintro _ ⟨take, rfl⟩
  exact ⟨_, ⟨take, rfl⟩, fun chunk w => rfl⟩

end Compressor

/-! ## Every run -/

/-- A stream is there only while the codec is engaged, at every call boundary and, in a
decompressor, whenever the continuation has been called or has called the codec; no
assertion of `construct_stream` and `destroy_stream` fails there, in the destructor, or
in a call that is still going on. -/
theorem stream_engaged :
    (∀ (lib : InflateLibrary S) (ndebug : Bool) (x : κ) (w : CodecWorld (Impl S) (Watched κ)),
      Boundary (fun _ => Decompressor.codec lib ndebug) (Decompressor.CallsCodec lib ndebug)
        { inner := {}, outer := { app := x } } w →
      Watches (Decompressor.Documented lib) w ∧
        (w.engaged = false → ((Decompressor.codec lib ndebug).start w).inner.stream_ = none) ∧
        (Decompressor.release lib w.inner).Kept (Decompressor.Documented lib) ∧
        ∀ host data, (Decompressor.codec lib ndebug).Throughout
          (Decompressor.hosted lib ndebug host) data w (Watches (Decompressor.Documented lib))) ∧
    ∀ (lib : DeflateLibrary S) (ndebug : Bool) (x : κ) (w : CodecWorld (Impl S) κ),
      Boundary (Compressor.codec lib ndebug) Passive
        { inner := {}, outer := x } w →
      Sound (Compressor.Documented lib) w ∧
        (Compressor.release lib w.inner).Kept (Compressor.Documented lib) ∧
        ∀ fuel, (w.engaged = false →
            ((Compressor.codec lib ndebug fuel).start w).inner.stream_ = none) ∧
          ∀ take, ((Compressor.codec lib ndebug fuel).finish (passive take) w).world.inner.Kept
              (Compressor.Documented lib) ∧
            ∀ data, (Compressor.codec lib ndebug fuel).Throughout (passive take) data w
              (Sound (Compressor.Documented lib)) := by
  constructor
  · intro lib ndebug x w h
    have hw := Decompressor.watches_boundary h
    exact ⟨hw, start_fresh rfl hw.toSound, Decompressor.kept_release hw.kept, fun host data =>
      Codec.throughout_of_round (Decompressor.watches_round host) data hw⟩
  · intro lib ndebug x w h
    have hw := Compressor.sound_boundary h
    exact ⟨hw, Compressor.kept_release hw.kept, fun fuel => ⟨start_fresh rfl hw, fun take =>
      ⟨(Compressor.sound_finish take fuel hw.kept).1, fun data =>
        Codec.throughout_of_round (Compressor.sound_round take fuel) data hw⟩⟩⟩

/-- A library that finds every stream corrupt, as zlib does with a stream that begins 00 00. -/
def corruptInflate : InflateLibrary Unit where
  init := ()
  inflate _ data _ := ⟨.dataError, data.length, [], ()⟩
  inflateInit := .ok
  inflateEnd _ := .ok

/-- What zlib makes of a stream without content. -/
def emptyDeflate : DeflateLibrary Unit where
  init := ()
  deflate _ _ _ _ := ⟨.streamEnd, 0, [0x78, 0x9C, 0x03, 0x00, 0x00, 0x00, 0x00, 0x01], ()⟩
  deflateInit := .ok
  deflateEnd _ := .ok

/-- The exception leaves a stream in a codec that stays engaged, and `finish()` without
`start()` leaves none. -/
theorem stream_engaged_corrupted :
    Watches (Decompressor.Documented corruptInflate)
        { engaged := true, inner := { stream_ := some ⟨(), 0⟩ }, outer := { app := () } } ∧
      Sound (Compressor.Documented emptyDeflate)
        ((Compressor.codec emptyDeflate false 1).finish (passive fun _ => id)
          { inner := {}, outer := () }).world := by
  constructor
  · have ho : (Decompressor.codec corruptInflate false).Transforms
        (Decompressor.hosted corruptInflate false fun _ x => (x, [])) [0, 0]
        ((Decompressor.codec corruptInflate false).start { inner := {}, outer := { app := () } })
        (.stopped (.corruptedStream "Inflation of byte in ZLib stream yielded Z_DATA_ERROR")
          { engaged := true, inner := { stream_ := some ⟨(), 0⟩ }, outer := { app := () } }) :=
      ⟨1, rfl⟩
    exact (stream_engaged.1 corruptInflate false () _
      (.operator 0 ⟨_, rfl⟩ (.start 0 .initial) ho trivial)).1
  · exact (stream_engaged.2 emptyDeflate false () _
      (.finish 1 ⟨fun _ => id, rfl⟩ .initial trivial)).1

end Zlib

end Telnetpp.Mccp
