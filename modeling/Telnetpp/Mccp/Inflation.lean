import Telnetpp.Mccp.Inflate

/-!
# Decompressing whatever arrives

The decompressor over any library that keeps the documented contract of
`inflate`, behind any continuation. Every call of `operator()` comes back with
all of its data gone through or with the exception for a corrupted stream,
except where a stream asks for a preset dictionary.
-/

namespace Telnetpp.Mccp.Zlib

open Foundation

variable {S κ : Type}

/-! ## Continuations that call the codec -/

inductive CodecCall
  | start
  | finish
  deriving DecidableEq, Repr

/-- What a continuation does with a chunk, and its calls on the codec. -/
abbrev Host (κ : Type) := Chunk → κ → κ × List CodecCall

abbrev DecompressorWorld (S κ : Type) := CodecWorld (Option (ZStream S)) κ

def CodecCall.apply (lib : Inflate S) (w : DecompressorWorld S κ) :
    CodecCall → DecompressorWorld S κ
  | .start => (decompressor lib).start w
  | .finish => { w with inner := none, engaged := false }

/-- Finishing a decompressor calls no continuation. -/
theorem finish_decompressor (lib : Inflate S) (cont : Continuation (Option (ZStream S)) κ)
    (w : DecompressorWorld S κ) :
    (decompressor lib).finish cont w = .done () (CodecCall.finish.apply lib w) := rfl

/-- What becomes of the codec while the continuation has a chunk. -/
def Host.handle (host : Host κ) (lib : Inflate S) (chunk : Chunk) (w : DecompressorWorld S κ) :
    DecompressorWorld S κ :=
  let r := host chunk w.outer
  r.2.foldl (CodecCall.apply lib) { w with outer := r.1 }

def hosted (lib : Inflate S) (host : Host κ) : Continuation (Option (ZStream S)) κ :=
  fun chunk w => .done () (host.handle lib chunk w)

/-- Whatever the continuation calls, the record stays and the stream stays or is destroyed. -/
theorem foldl_apply (lib : Inflate S) (calls : List CodecCall) (w : DecompressorWorld S κ) :
    (calls.foldl (CodecCall.apply lib) w).record = w.record ∧
      ((calls.foldl (CodecCall.apply lib) w).inner = w.inner ∨
        (calls.foldl (CodecCall.apply lib) w).inner = none) := by
  induction calls generalizing w with
  | nil => exact ⟨rfl, Or.inl rfl⟩
  | cons call calls ih =>
      obtain ⟨hrecord, hinner⟩ := ih (call.apply lib w)
      cases call with
      | start => exact ⟨hrecord, hinner⟩
      | finish => exact ⟨hrecord, Or.inr (hinner.elim id id)⟩

theorem recorded_handle (host : Host κ) (lib : Inflate S) (chunk : Chunk)
    (w : DecompressorWorld S κ) (kind : Passage → Option Bytes) :
    (host.handle lib chunk w).recorded kind = w.recorded kind := by
  have hrecord := (foldl_apply lib (host chunk w.outer).2
    { w with outer := (host chunk w.outer).1 }).1
  exact congrArg (fun record => (record.filterMap kind).flatten) hrecord

theorem inner_handle (host : Host κ) (lib : Inflate S) (chunk : Chunk)
    (w : DecompressorWorld S κ) :
    (host.handle lib chunk w).inner = w.inner ∨ (host.handle lib chunk w).inner = none :=
  (foldl_apply lib (host chunk w.outer).2 { w with outer := (host chunk w.outer).1 }).2

/-! ## One round -/

section Rounds

variable {lib : Inflate S} {host : Host κ} {data : Bytes} {w : DecompressorWorld S κ}

abbrev decompressRound (lib : Inflate S) (host : Host κ) :=
  (decompressor lib).round (hosted lib host)

/-- The reply of the library in a round. -/
abbrev roundReply (lib : Inflate S) (data : Bytes) (w : DecompressorWorld S κ) : Reply S :=
  inflateChunk lib data (inflating lib w.inner)

theorem toUInt_of_lt {size : ℕ} (h : size < uIntLimit) : toUInt size = size := Nat.mod_eq_of_lt h

theorem inflateChunk_of_lt (lib : Inflate S) (h : data.length < uIntLimit) (state : S) :
    inflateChunk lib data state = lib.inflate state data receiveBufferSize := by
  rw [inflateChunk, toUInt_of_lt h, List.take_length]

/-- The codec when the continuation is called with what the library has written. -/
def afterReply (data : Bytes) (r : Reply S) (w : DecompressorWorld S κ) :
    DecompressorWorld S κ :=
  { w.note (.output r.produced) with
    engaged := r.response != .streamEnd
    inner := if r.response = .streamEnd then none
      else some ⟨r.state, data.length - r.consumed⟩ }

/-- The codec after a round that the library takes part in. -/
def afterRound (lib : Inflate S) (host : Host κ) (data : Bytes) (w : DecompressorWorld S κ) :
    DecompressorWorld S κ :=
  let r := roundReply lib data w
  (host.handle lib ⟨r.produced, r.response == .streamEnd⟩ (afterReply data r w)).note
    (.transformed (data.take r.consumed))

section Replies

variable {stream : Option (ZStream S)}

theorem decompressChunk_inflated (hlen : data.length < uIntLimit)
    (hconsumed : (inflateChunk lib data (inflating lib stream)).consumed ≤ data.length)
    (hresponse : (inflateChunk lib data (inflating lib stream)).response = .ok ∨
      (inflateChunk lib data (inflating lib stream)).response = .streamEnd) :
    decompressChunk lib data stream =
      let r := inflateChunk lib data (inflating lib stream)
      .call ⟨r.produced, r.response == .streamEnd⟩
        (if r.response = .streamEnd then none else some ⟨r.state, data.length - r.consumed⟩)
        (.done (data.drop r.consumed)) := by
  have herror : (inflateChunk lib data (inflating lib stream)).response ≠ .dataError := by
    rcases hresponse with h | h <;> simp [h]
  simp only [decompressChunk, if_neg herror, if_pos hresponse, toUInt_of_lt hlen,
    Nat.sub_sub_self hconsumed, beq_iff_eq]

theorem decompressChunk_corrupted
    (hresponse : (inflateChunk lib data (inflating lib stream)).response = .dataError) :
    ∃ whatArg availIn, decompressChunk lib data stream =
      .stop (.corruptedStream whatArg)
        (some ⟨(inflateChunk lib data (inflating lib stream)).state, availIn⟩) := by
  simp only [decompressChunk, if_pos hresponse]
  exact ⟨_, _, rfl⟩

theorem decompressChunk_needDict
    (hresponse : (inflateChunk lib data (inflating lib stream)).response = .needDict) :
    ∃ availIn, decompressChunk lib data stream =
      .stop .assertion
        (some ⟨(inflateChunk lib data (inflating lib stream)).state, availIn⟩) := by
  have herror : (inflateChunk lib data (inflating lib stream)).response ≠ .dataError := by
    simp [hresponse]
  have hok : ¬ ((inflateChunk lib data (inflating lib stream)).response = .ok ∨
      (inflateChunk lib data (inflating lib stream)).response = .streamEnd) := by
    simp [hresponse]
  simp only [decompressChunk, if_neg herror, if_neg hok]
  exact ⟨_, rfl⟩

end Replies

section Engaged

variable (hdata : data ≠ []) (hw : w.engaged = true)

include hdata hw

theorem round_inflated (hlen : data.length < uIntLimit)
    (hconsumed : (roundReply lib data w).consumed ≤ data.length)
    (hresponse : (roundReply lib data w).response = .ok ∨
      (roundReply lib data w).response = .streamEnd) :
    decompressRound lib host (data, w) =
      .next (data.drop (roundReply lib data w).consumed, afterRound lib host data w) := by
  have hrest : data.length - (data.drop (roundReply lib data w).consumed).length =
      (roundReply lib data w).consumed := by
    rw [List.length_drop, Nat.sub_sub_self hconsumed]
  have hchunk := decompressChunk_inflated hlen hconsumed hresponse
  have hrun : Codec.run (Codec.forward (hosted lib host)) (decompressChunk lib data w.inner) w =
      .done (data.drop (roundReply lib data w).consumed)
        (host.handle lib ⟨(roundReply lib data w).produced,
          (roundReply lib data w).response == .streamEnd⟩
          (afterReply data (roundReply lib data w) w)) := by
    rw [hchunk]
    rfl
  have hround : decompressRound lib host (data, w) = _ := Codec.round_of_done hdata hw hrun
  rw [hrest] at hround
  exact hround

theorem round_corrupted (hresponse : (roundReply lib data w).response = .dataError) :
    ∃ whatArg availIn, decompressRound lib host (data, w) =
      .exit (.stopped (.corruptedStream whatArg)
        (w.put (some ⟨(roundReply lib data w).state, availIn⟩))) := by
  obtain ⟨whatArg, availIn, hchunk⟩ := decompressChunk_corrupted hresponse
  have hrun : Codec.run (Codec.forward (hosted lib host)) (decompressChunk lib data w.inner) w =
      .stopped (.corruptedStream whatArg)
        (w.put (some ⟨(roundReply lib data w).state, availIn⟩)) := by
    rw [hchunk]
    rfl
  exact ⟨whatArg, availIn, Codec.round_of_stopped hdata hw hrun⟩

theorem round_needDict (hresponse : (roundReply lib data w).response = .needDict) :
    ∃ availIn, decompressRound lib host (data, w) = .exit (.stopped .assertion
      (w.put (some ⟨(roundReply lib data w).state, availIn⟩))) := by
  obtain ⟨availIn, hchunk⟩ := decompressChunk_needDict hresponse
  have hrun : Codec.run (Codec.forward (hosted lib host)) (decompressChunk lib data w.inner) w =
      .stopped .assertion (w.put (some ⟨(roundReply lib data w).state, availIn⟩)) := by
    rw [hchunk]
    rfl
  exact ⟨availIn, Codec.round_of_stopped hdata hw hrun⟩

end Engaged

theorem round_passed (hdata : data ≠ []) (hw : w.engaged = false) :
    decompressRound lib host (data, w) = .next (data.drop 1,
      host.handle lib ⟨data.take 1, false⟩ (w.note (.passed (data.take 1)))) :=
  Codec.round_disengaged hdata hw

/-! ## Every call comes back -/

/-- The bytes that have been passed on or taken by the library. -/
abbrev input (w : DecompressorWorld S κ) : Bytes := w.recorded Passage.input?

theorem input_afterRound (lib : Inflate S) (host : Host κ) (data : Bytes)
    (w : DecompressorWorld S κ) :
    input (afterRound lib host data w) =
      input w ++ data.take (roundReply lib data w).consumed := by
  have hreply : input (afterReply data (roundReply lib data w) w) = input w :=
    (CodecWorld.recorded_note _ _ w).trans (List.append_nil _)
  rw [input, afterRound, CodecWorld.recorded_note, recorded_handle]
  exact congrArg (· ++ _) hreply

theorem input_passed (lib : Inflate S) (host : Host κ) (data : Bytes)
    (w : DecompressorWorld S κ) :
    input (host.handle lib ⟨data.take 1, false⟩ (w.note (.passed (data.take 1)))) =
      input w ++ data.take 1 := by
  rw [input, recorded_handle, CodecWorld.recorded_note]
  rfl

/-- How much output is determined by what the stream has taken, and not yet written. -/
def owed (R : Reading S) : Option (ZStream S) → ℕ
  | none => 0
  | some stream => (R.content (R.taken stream.state)).length - (R.written stream.state).length

/-- The stream can be read further. -/
def Open (R : Reading S) (stream : Option (ZStream S)) : Prop :=
  ∀ st ∈ stream, R.Valid st.state ∧ ¬ R.Ended st.state

theorem open_none (R : Reading S) : Open R none := nofun

/-- The stream has been given `x` and has written `y`. -/
structure Inflating (R : Reading S) (lib : Inflate S) (x y : Bytes)
    (stream : Option (ZStream S)) : Prop where
  stays : Open R stream
  taken : R.taken (inflating lib stream) = x
  written : R.written (inflating lib stream) = y
  determined : y <+: R.content x

/-- With some of the data the stream has been given a header that asks for a preset
dictionary. -/
def Asks (R : Reading S) (lib : Inflate S) (data : Bytes) (stream : Option (ZStream S)) : Prop :=
  ∃ k ≤ data.length, R.AsksDictionary (R.taken (inflating lib stream) ++ data.take k)

/-- A round takes some of the data, or some of the output that is owed. -/
structure Advances (R : Reading S) (data : Bytes) (w : DecompressorWorld S κ) (n : ℕ)
    (w' : DecompressorWorld S κ) : Prop where
  input : input w' = input w ++ data.take n
  stays : Open R w'.inner
  progress : 0 < n ∨ owed R w'.inner < owed R w.inner

variable {R : Reading S}

theorem advances_passed (hopen : Open R w.inner) :
    Advances R data w 1
      (host.handle lib ⟨data.take 1, false⟩ (w.note (.passed (data.take 1)))) := by
  refine ⟨input_passed lib host data w, ?_, Or.inl Nat.zero_lt_one⟩
  rcases inner_handle host lib ⟨data.take 1, false⟩ (w.note (.passed (data.take 1))) with
    hinner | hinner
  · rw [hinner]
    exact hopen
  · rw [hinner]
    exact open_none R

variable (hlib : InflateLaws lib R)

include hlib

theorem owed_eq (stream : Option (ZStream S)) : owed R stream =
    (R.content (R.taken (inflating lib stream))).length -
      (R.written (inflating lib stream)).length := by
  cases stream with
  | none => simp [owed, inflating, hlib.taken_init, hlib.written_init, hlib.content_nil]
  | some stream => rfl

theorem open_inflating {stream : Option (ZStream S)} (hopen : Open R stream) :
    R.Valid (inflating lib stream) ∧ ¬ R.Ended (inflating lib stream) := by
  cases hstream : stream with
  | none =>
      refine ⟨hlib.valid_init, ?_⟩
      rintro ⟨hcomplete, -⟩
      rw [inflating, Option.map_none, Option.getD_none, hlib.taken_init] at hcomplete
      exact hlib.incomplete_nil hcomplete
  | some stream' => exact hopen stream' hstream

variable (hopen : Open R w.inner)

include hopen

theorem lawful_roundReply (hdata : data ≠ []) (hlen : data.length < uIntLimit) :
    LawfulReply R (inflating lib w.inner) data receiveBufferSize (roundReply lib data w) := by
  rw [roundReply, inflateChunk_of_lt lib hlen]
  exact hlib.call _ _ _ (open_inflating hlib hopen).1 hdata (by decide)

/-- A call that the library accepts takes input or writes output. -/
theorem progress_roundReply (hdata : data ≠ []) (hlen : data.length < uIntLimit)
    (hresponse : (roundReply lib data w).response = .ok ∨
      (roundReply lib data w).response = .streamEnd) :
    0 < (roundReply lib data w).consumed ∨ (roundReply lib data w).produced ≠ [] := by
  have hlawful := lawful_roundReply hlib hopen hdata hlen
  rcases hresponse with hok | hend
  · exact hlawful.progress hok
  · by_contra hnone
    obtain ⟨hconsumed, hproduced⟩ := not_or.mp hnone
    have htaken := hlawful.taken
    have hwritten := hlawful.written
    rw [Nat.eq_zero_of_not_pos hconsumed, List.take_zero, List.append_nil] at htaken
    rw [not_not.mp hproduced, List.append_nil] at hwritten
    have hended := hlawful.streamEnd hend
    rw [Reading.Ended, htaken, hwritten] at hended
    exact (open_inflating hlib hopen).2 hended

/-- Output that is written without taking input was owed before. -/
theorem owed_roundReply (hdata : data ≠ []) (hlen : data.length < uIntLimit)
    (hconsumed : (roundReply lib data w).consumed = 0)
    (hproduced : (roundReply lib data w).produced ≠ []) :
    (R.content (R.taken (roundReply lib data w).state)).length -
      (R.written (roundReply lib data w).state).length < owed R w.inner := by
  have hlawful := lawful_roundReply hlib hopen hdata hlen
  have htaken := hlawful.taken
  rw [hconsumed, List.take_zero, List.append_nil] at htaken
  have hle := hlawful.determined.length_le
  have hpos := List.length_pos_of_ne_nil hproduced
  rw [owed_eq hlib, htaken, hlawful.written, List.length_append]
  rw [htaken, hlawful.written, List.length_append] at hle
  omega

theorem advances_afterRound (hdata : data ≠ []) (hlen : data.length < uIntLimit)
    (hresponse : (roundReply lib data w).response = .ok ∨
      (roundReply lib data w).response = .streamEnd) :
    Advances R data w (roundReply lib data w).consumed (afterRound lib host data w) := by
  have hlawful := lawful_roundReply hlib hopen hdata hlen
  have hprogress := progress_roundReply hlib hopen hdata hlen hresponse
  have hreply : Open R (afterReply data (roundReply lib data w) w).inner ∧
      (0 < (roundReply lib data w).consumed ∨
        owed R (afterReply data (roundReply lib data w) w).inner < owed R w.inner) := by
    have howed (hconsumed : ¬ 0 < (roundReply lib data w).consumed) :=
      owed_roundReply hlib hopen hdata hlen (Nat.eq_zero_of_not_pos hconsumed)
        (hprogress.resolve_left hconsumed)
    rcases hresponse with hok | hend
    · have hinner : (afterReply data (roundReply lib data w) w).inner =
          some ⟨(roundReply lib data w).state, data.length - (roundReply lib data w).consumed⟩ :=
        if_neg (by simp [hok])
      rw [hinner]
      refine ⟨?_, or_iff_not_imp_left.mpr howed⟩
      rintro st ⟨⟩
      exact ⟨hlawful.valid, hlawful.notEnd (by simp [hok])⟩
    · have hinner : (afterReply data (roundReply lib data w) w).inner = none := if_pos hend
      rw [hinner]
      refine ⟨open_none R, or_iff_not_imp_left.mpr ?_⟩
      intro hconsumed
      exact Nat.zero_lt_of_lt (howed hconsumed)
  have hinner : (afterRound lib host data w).inner =
        (afterReply data (roundReply lib data w) w).inner ∨
      (afterRound lib host data w).inner = none := inner_handle host lib _ _
  refine ⟨input_afterRound lib host data w, ?_, ?_⟩
  · rcases hinner with hinner | hinner
    · rw [hinner]
      exact hreply.1
    · rw [hinner]
      exact open_none R
  · rcases hinner with hinner | hinner
    · rw [hinner]
      exact hreply.2
    · rw [hinner]
      exact hreply.2.imp_right fun hlt => Nat.zero_lt_of_lt hlt

/-- In a round the data advances, the exception is thrown, or a dictionary is
asked for, which violates the assertion. -/
theorem round_cases (hdata : data ≠ []) (hlen : data.length < uIntLimit) :
    (∃ n w', decompressRound lib host (data, w) = .next (data.drop n, w') ∧
        Advances R data w n w') ∨
      (∃ whatArg w', decompressRound lib host (data, w) =
        .exit (.stopped (.corruptedStream whatArg) w') ∧ Open R w'.inner) ∨
      (w.engaged = true ∧ Asks R lib data w.inner) ∧
        ∃ w', decompressRound lib host (data, w) = .exit (.stopped .assertion w') ∧
          Open R w'.inner := by
  cases hw : w.engaged with
  | false =>
      exact Or.inl ⟨1, _, round_passed hdata hw, advances_passed hopen⟩
  | true =>
      have hlawful := lawful_roundReply hlib hopen hdata hlen
      have hinflated (hresponse : (roundReply lib data w).response = .ok ∨
          (roundReply lib data w).response = .streamEnd) :
          ∃ n w', decompressRound lib host (data, w) = .next (data.drop n, w') ∧
            Advances R data w n w' :=
        ⟨_, _, round_inflated hdata hw hlen hlawful.consumed_le hresponse,
          advances_afterRound hlib hopen hdata hlen hresponse⟩
      have hstopped (hnot : (roundReply lib data w).response ≠ .streamEnd) (availIn : ℕ) :
          Open R (some ⟨(roundReply lib data w).state, availIn⟩) := by
        rintro st ⟨⟩
        exact ⟨hlawful.valid, hlawful.notEnd hnot⟩
      rcases hlawful.response with hok | hend | herror | hneed
      · exact Or.inl (hinflated (Or.inl hok))
      · exact Or.inl (hinflated (Or.inr hend))
      · obtain ⟨whatArg, availIn, hround⟩ := round_corrupted hdata hw herror
        exact Or.inr (Or.inl ⟨whatArg, _, hround, hstopped (by simp [herror]) availIn⟩)
      · obtain ⟨availIn, hround⟩ := round_needDict hdata hw hneed
        exact Or.inr (Or.inr ⟨⟨rfl, hlawful.needDict.mp hneed⟩, _, hround,
          hstopped (by simp [hneed]) availIn⟩)

theorem round_asking (hdata : data ≠ []) (hlen : data.length < uIntLimit) (hw : w.engaged = true)
    (hasks : Asks R lib data w.inner) :
    ∃ w', decompressRound lib host (data, w) = .exit (.stopped .assertion w') := by
  have hneed := (lawful_roundReply hlib hopen hdata hlen).needDict.mpr hasks
  obtain ⟨availIn, hround⟩ := round_needDict hdata hw hneed
  exact ⟨_, hround⟩

end Rounds

/-! ## Calls -/

/-- `operator()` comes back with all of the data passed on or taken, or with
the exception for a corrupted stream. -/
def Handles (lib : Inflate S) (host : Host κ) (data : Bytes) (w : DecompressorWorld S κ) : Prop :=
  ∃ o, (decompressor lib).Transforms (hosted lib host) data w o ∧
    ((∃ w', o = .done () w' ∧ input w' = input w ++ data) ∨
      ∃ whatArg w', o = .stopped (.corruptedStream whatArg) w')

/-- In no round of the call what the stream has taken and some of the data that is left
are a header that asks for a preset dictionary. -/
def NoDictionary (R : Reading S) (lib : Inflate S) (host : Host κ) (data : Bytes)
    (w : DecompressorWorld S κ) : Prop :=
  ∀ d w', Visits (decompressRound lib host) (data, w) (d, w') → d ≠ [] → w'.engaged = true →
    ¬ Asks R lib d w'.inner

/-- What holds before every round of a call. -/
structure Midway (R : Reading S) (lib : Inflate S) (host : Host κ) (data : Bytes)
    (w : DecompressorWorld S κ) (s : Bytes × DecompressorWorld S κ) : Prop where
  visits : Visits (decompressRound lib host) (data, w) s
  stays : Open R s.2.inner
  length : s.1.length < uIntLimit
  input : input s.2 ++ s.1 = Zlib.input w ++ data

section Calls

variable {R : Reading S} {lib : Inflate S} {host : Host κ} {data : Bytes}
  {w : DecompressorWorld S κ}

theorem Midway.next {d : Bytes} {w' w'' : DecompressorWorld S κ} {n : ℕ}
    (h : Midway R lib host data w (d, w'))
    (hround : decompressRound lib host (d, w') = .next (d.drop n, w''))
    (hadvances : Advances R d w' n w'') : Midway R lib host data w (d.drop n, w'') := by
  refine ⟨h.visits.trans (.next hround (.refl _)), hadvances.stays, ?_, ?_⟩
  · exact Nat.lt_of_le_of_lt (d.drop_sublist n).length_le h.length
  · show Zlib.input w'' ++ d.drop n = _
    rw [hadvances.input, List.append_assoc, List.take_append_drop]
    exact h.input

/-- The measure of the loop: data first, then the output that is owed for it. -/
theorem Advances.decreases {d : Bytes} {w' w'' : DecompressorWorld S κ} {n : ℕ} (hd : d ≠ [])
    (h : Advances R d w' n w'') :
    WellFoundedRelation.rel ((d.drop n).length, owed R w''.inner) (d.length, owed R w'.inner) := by
  have hpos := List.length_pos_of_ne_nil hd
  by_cases hn : n = 0
  · subst hn
    exact Prod.Lex.right _ (h.progress.resolve_left (Nat.lt_irrefl 0))
  · apply Prod.Lex.left
    rw [List.length_drop]
    exact Nat.sub_lt hpos (Nat.pos_of_ne_zero hn)

theorem midway_start (hopen : Open R w.inner) (hlen : data.length < uIntLimit) :
    Midway R lib host data w (data, w) := ⟨.refl _, hopen, hlen, rfl⟩

variable (hlib : InflateLaws lib R)

include hlib

theorem Midway.cases {s s' : Bytes × DecompressorWorld S κ} (h : Midway R lib host data w s)
    (hnext : decompressRound lib host s = .next s') :
    Midway R lib host data w s' ∧
      WellFoundedRelation.rel (s'.1.length, owed R s'.2.inner) (s.1.length, owed R s.2.inner) := by
  rcases s with ⟨d, w'⟩
  have hd : d ≠ [] := Codec.ne_nil_of_round_next hnext
  rcases round_cases hlib h.stays hd h.length with
    ⟨n, w'', hround, hadvances⟩ | ⟨whatArg, w'', hround, -⟩ | ⟨-, w'', hround, -⟩
  · obtain rfl := Round.next.inj (hround.symm.trans hnext)
    exact ⟨h.next hround hadvances, hadvances.decreases hd⟩
  · exact nomatch hround.symm.trans hnext
  · exact nomatch hround.symm.trans hnext

theorem midway_of_visits (hopen : Open R w.inner) (hlen : data.length < uIntLimit)
    {s : Bytes × DecompressorWorld S κ} (h : Visits (decompressRound lib host) (data, w) s) :
    Midway R lib host data w s :=
  h.invariant (fun _ _ h hnext => (h.cases hlib hnext).1) (midway_start hopen hlen)

/-- Every call comes back, if only with a violated assertion. -/
theorem exists_transforms (hopen : Open R w.inner) (hlen : data.length < uIntLimit) :
    ∃ o, (decompressor lib).Transforms (hosted lib host) data w o := by
  apply returns_of_measure (I := Midway R lib host data w)
    (m := fun s : Bytes × DecompressorWorld S κ => (s.1.length, owed R s.2.inner))
  · intro s s' h hnext
    exact Midway.cases hlib h hnext
  · exact midway_start hopen hlen

/-- How a call comes back. -/
theorem transforms_cases (hopen : Open R w.inner) (hlen : data.length < uIntLimit)
    {o : Outcome Stop (DecompressorWorld S κ) Unit}
    (ho : (decompressor lib).Transforms (hosted lib host) data w o) :
    Open R o.world.inner ∧
      ((∃ w', o = .done () w' ∧ input w' = input w ++ data) ∨
        (∃ whatArg w', o = .stopped (.corruptedStream whatArg) w') ∨
        ∃ d w', Visits (decompressRound lib host) (data, w) (d, w') ∧ d ≠ [] ∧
          w'.engaged = true ∧ Asks R lib d w'.inner) := by
  obtain ⟨⟨d, w'⟩, hvisits, hexit⟩ := ho.visits
  have hmidway := midway_of_visits hlib hopen hlen hvisits
  by_cases hd : d = []
  · subst hd
    rw [Codec.round_nil] at hexit
    have hinput := hmidway.input
    rw [List.append_nil] at hinput
    obtain rfl := Round.exit.inj hexit
    exact ⟨hmidway.stays, Or.inl ⟨w', rfl, hinput⟩⟩
  · rcases round_cases hlib hmidway.stays hd hmidway.length with
      ⟨n, w'', hround, -⟩ | ⟨whatArg, w'', hround, hstays⟩ | ⟨hasks, w'', hround, hstays⟩
    · exact nomatch hround.symm.trans hexit
    · obtain rfl := Round.exit.inj (hround.symm.trans hexit)
      exact ⟨hstays, Or.inr (Or.inl ⟨whatArg, w'', rfl⟩)⟩
    · obtain rfl := Round.exit.inj (hround.symm.trans hexit)
      exact ⟨hstays, Or.inr (Or.inr ⟨d, w', hvisits, hd, hasks⟩)⟩

/-- A call handles its data exactly when no dictionary is asked for in it. -/
theorem handles_iff (hopen : Open R w.inner) (hlen : data.length < uIntLimit) :
    Handles lib host data w ↔ NoDictionary R lib host data w := by
  constructor
  · rintro ⟨o, ho, hresult⟩ d w' hvisits hd hengaged hasks
    have hmidway := midway_of_visits hlib hopen hlen hvisits
    obtain ⟨w'', hround⟩ := round_asking hlib hmidway.stays hd hmidway.length
      hengaged hasks
    obtain rfl := (returns_of_exit hround).mp ((returns_of_visits hvisits).mp ho)
    rcases hresult with ⟨w₁, hdone, -⟩ | ⟨whatArg, w₁, hstopped⟩
    · exact nomatch hdone
    · exact nomatch hstopped
  · intro hnone
    obtain ⟨o, ho⟩ := exists_transforms hlib hopen hlen
    refine ⟨o, ho, ?_⟩
    rcases (transforms_cases hlib hopen hlen ho).2 with hdone | hthrown | hasks
    · exact Or.inl hdone
    · exact Or.inr hthrown
    · obtain ⟨d, w', hvisits, hd, hengaged, hasks⟩ := hasks
      exact absurd hasks (hnone d w' hvisits hd hengaged)

/-- Whatever arrives, in spans of less than 2^32 bytes, and whatever the
continuation calls: every call passes on or takes its span, or throws, exactly
as long as no stream asks for a preset dictionary. -/
theorem everyCall_handles_iff (hopen : Open R w.inner) {spans : List Bytes}
    (hspans : ∀ span ∈ spans, span.length < uIntLimit) :
    (decompressor lib).EveryCall (hosted lib host) (fun _ => True) (Handles lib host) w spans ↔
      (decompressor lib).EveryCall (hosted lib host) (fun _ => True)
        (NoDictionary R lib host) w spans := by
  apply Codec.everyCall_congr (I := fun w => Open R w.inner)
    (S := fun data => data.length < uIntLimit)
  · intro data w hlen hopen
    exact handles_iff hlib hopen hlen
  · intro data w o hlen hopen _ ho _
    exact (transforms_cases hlib hopen hlen ho).1
  · exact hopen
  · exact hspans

end Calls

/-! ## Two streams -/

/-- The host that takes whatever it is given. -/
def quiet : Host Unit := fun _ app => (app, [])

/-- An empty stream, and its trailer. -/
def emptyTape : Tape where
  cells := [0x78, 0x9C, 0x03, 0x00, 0x00, 0x00, 0x00, 0x01].map (·, [])

/-- A header for a preset dictionary, and the dictionary's identifier. -/
def dictionaryTape : Tape where
  cells := [0x78, 0xBB, 0x06, 0x2C, 0x02, 0x15].map (·, [])
  asksDictionary := true

def engagedWorld : DecompressorWorld Tape.Position Unit :=
  { engaged := true, inner := none, outer := () }

/-- A stream that is cut between its header and its trailer asks for nothing. -/
theorem everyCall_handles_emptyTape :
    (decompressor emptyTape.library).EveryCall (hosted emptyTape.library quiet) (fun _ => True)
      (Handles emptyTape.library quiet) engagedWorld [[0x78, 0x9C, 0x03], [0x00, 0x00]] :=
  have hnone (data : Bytes) (w : DecompressorWorld Tape.Position Unit) :
      NoDictionary emptyTape.reading emptyTape.library quiet data w :=
    fun _ _ _ _ _ ⟨_, _, hasks⟩ => Bool.false_ne_true hasks.1
  (everyCall_handles_iff emptyTape.laws (open_none emptyTape.reading) (by decide)).mpr
    ⟨hnone _ _, fun _ _ _ => ⟨hnone _ _, fun _ _ _ => trivial⟩⟩

/-- When a stream asks for a dictionary, the call neither goes through its data
nor throws. -/
theorem dictionary_not_handled : InflateLaws dictionaryTape.library dictionaryTape.reading ∧
    ¬ Handles dictionaryTape.library quiet [0x78, 0xBB, 0x06, 0x2C, 0x02, 0x15]
      engagedWorld := by
  refine ⟨dictionaryTape.laws, ?_⟩
  rintro ⟨o, ho, hresult⟩
  have hstopped : ∃ w', (decompressor dictionaryTape.library).Transforms
      (hosted dictionaryTape.library quiet) [0x78, 0xBB, 0x06, 0x2C, 0x02, 0x15]
      engagedWorld (.stopped .assertion w') := ⟨_, 1, rfl⟩
  obtain ⟨w', hw'⟩ := hstopped
  obtain rfl := ho.unique hw'
  rcases hresult with ⟨w'', hdone, -⟩ | ⟨whatArg, w'', hthrown⟩
  · exact nomatch hdone
  · exact nomatch hthrown

end Telnetpp.Mccp.Zlib
