import Telnetpp.Mccp.Deflate
import Telnetpp.Mccp.Inflation

/-!
# What a call hands on

Whether the codecs over zlib have handed on all that the data so far comes to
when a call returns. The library is called once for every chunk, with room for
1024 bytes, and the loop of `operator()` stops with the last of the input.
-/

namespace Telnetpp.Mccp.Zlib

open Foundation

variable {S κ : Type}

/-! ## The decompressor -/

/-- What the bytes received determine: the content of a stream as far as they
go, and after a complete stream the bytes themselves. -/
def Determines (R : Reading S) (received output : Bytes) : Prop :=
  (∃ z rest, R.Complete z ∧ received = z ++ rest ∧ output = R.content z ++ rest) ∨
    (∀ z, z <+: received → ¬ R.Complete z) ∧ output = R.content received

abbrev delivered (w : DecompressorWorld S κ) : Bytes := w.recorded Passage.delivered?

/-- The host of a continuation that does not call the codec. -/
def silent (take : Chunk → κ → κ) : Host κ := fun chunk x => (take chunk x, [])

theorem hosted_silent (lib : Inflate S) (take : Chunk → κ → κ) :
    hosted lib (silent take) = passive take := rfl

/-- If the call returns, all that is determined has been handed on. -/
def Delivers (R : Reading S) (lib : Inflate S) (take : Chunk → κ → κ) (data : Bytes)
    (w : DecompressorWorld S κ) : Prop :=
  ∀ w', (decompressor lib).Transforms (passive take) data w (.done () w') →
    Determines R (input w ++ data) (delivered w')

/-- The output that is still to be written once the data has been taken. -/
def due (R : Reading S) (lib : Inflate S) (data : Bytes) (w : DecompressorWorld S κ) : ℕ :=
  (R.content (R.taken (inflating lib w.inner) ++ data)).length -
    (R.written (inflating lib w.inner)).length

/-- The round in which the library takes the rest of the data has room for all
the output that is due then. -/
def Fits (R : Reading S) (lib : Inflate S) (take : Chunk → κ → κ) (data : Bytes)
    (w : DecompressorWorld S κ) : Prop :=
  ∀ d w' w'', Visits (decompressRound lib (silent take)) (data, w) (d, w') →
    d ≠ [] → w'.engaged = true →
    decompressRound lib (silent take) (d, w') = .next ([], w'') →
    due R lib d w' ≤ receiveBufferSize

/-- The record and the stream tell the same, within a stream and beyond it. -/
inductive Intact (R : Reading S) (lib : Inflate S) (w : DecompressorWorld S κ) : Prop
  | within (engaged : w.engaged = true) (stays : Open R w.inner)
      (taken : input w = R.taken (inflating lib w.inner))
      (written : delivered w = R.written (inflating lib w.inner))
      (first : ∀ z, z <+: input w → z ≠ input w → ¬ R.Complete z)
  | beyond (engaged : w.engaged = false) (inner : w.inner = none) (z rest : Bytes)
      (complete : R.Complete z) (received : input w = z ++ rest)
      (passed : delivered w = R.content z ++ rest)

/-- Nothing is held back inside the stream. -/
def Caught (R : Reading S) (lib : Inflate S) (w : DecompressorWorld S κ) : Prop :=
  w.engaged = true → R.written (inflating lib w.inner) = R.content (R.taken (inflating lib w.inner))

section Decompression

variable {R : Reading S} {lib : Inflate S} {take : Chunk → κ → κ} {data : Bytes}
  {w w' : DecompressorWorld S κ}

theorem Intact.open (h : Intact R lib w) : Open R w.inner := by
  cases h with
  | within _ stays _ _ _ => exact stays
  | beyond _ inner _ _ _ _ _ =>
      rw [inner]
      exact open_none R

theorem Intact.determines_iff (hlib : InflateLaws lib R) (h : Intact R lib w) :
    Determines R (input w) (delivered w) ↔ Caught R lib w := by
  cases h with
  | beyond engaged inner z rest complete received passed =>
      constructor
      · intro _ hengaged
        exact absurd (engaged.symm.trans hengaged) Bool.false_ne_true
      · intro _
        exact Or.inl ⟨z, rest, complete, received, passed⟩
  | within engaged stays taken written first =>
      have hend := (open_inflating hlib stays).2
      rw [Reading.Ended, ← taken, ← written] at hend
      rw [Caught, ← taken, ← written]
      constructor
      · rintro (⟨z, rest, hcomplete, hreceived, houtput⟩ | ⟨-, houtput⟩) _
        · have hwhole : z = input w := by
            by_contra hne
            exact first z ⟨rest, hreceived.symm⟩ hne hcomplete
          have hrest : rest = [] := by
            rw [← hwhole] at hreceived
            exact List.self_eq_append_right.mp hreceived
          rw [houtput, hrest, List.append_nil, hwhole]
        · exact houtput
      · intro hcaught
        refine Or.inr ⟨?_, hcaught engaged⟩
        intro z hz hcomplete
        by_cases hwhole : z = input w
        · exact hend ⟨hwhole ▸ hcomplete, hcaught engaged⟩
        · exact first z hz hwhole hcomplete

/-- A proper prefix of what a stream has taken ends before the last part, or in it. -/
theorem proper_prefix_append_take {x z data : Bytes} {n : ℕ} (hz : z <+: x ++ data.take n)
    (hne : z ≠ x ++ data.take n) : (z <+: x ∧ z ≠ x) ∨ ∃ k < n, z = x ++ data.take k := by
  by_cases hlength : z.length < x.length
  · refine Or.inl ⟨List.prefix_of_prefix_length_le hz (List.prefix_append _ _)
      (Nat.le_of_lt hlength), ?_⟩
    rintro rfl
    exact Nat.lt_irrefl _ hlength
  · have hsplit : z = x ++ data.take (min (z.length - x.length) n) := by
      have htake := List.prefix_iff_eq_take.mp hz
      rw [List.take_append, List.take_of_length_le (Nat.le_of_not_lt hlength),
        List.take_take] at htake
      exact htake
    refine Or.inr ⟨_, ?_, hsplit⟩
    by_contra hall
    rw [Nat.min_eq_right (by omega)] at hsplit
    exact hne hsplit

/-- The rounds that go on: the library answers Z_OK or Z_STREAM_END, or takes no part. -/
theorem round_next (hlib : InflateLaws lib R) (hopen : Open R w.inner) (hdata : data ≠ [])
    (hlen : data.length < uIntLimit) {host : Host κ} {rest : Bytes}
    (hround : decompressRound lib host (data, w) = .next (rest, w')) :
    (w.engaged = false ∧ rest = data.drop 1 ∧
        w' = host.handle lib ⟨data.take 1, false⟩ (w.note (.passed (data.take 1)))) ∨
      (w.engaged = true ∧ rest = data.drop (roundReply lib data w).consumed ∧
        w' = afterRound lib host data w ∧
        ((roundReply lib data w).response = .ok ∨
          (roundReply lib data w).response = .streamEnd)) := by
  cases hw : w.engaged with
  | false =>
      have hpassed := Round.next.inj (hround.symm.trans (round_passed hdata hw))
      obtain ⟨hrest, hw'⟩ := Prod.mk.inj hpassed
      exact Or.inl ⟨rfl, hrest, hw'⟩
  | true =>
      have hlawful := lawful_roundReply hlib hopen hdata hlen
      have hgoes (hresponse : (roundReply lib data w).response = .ok ∨
          (roundReply lib data w).response = .streamEnd) :
          rest = data.drop (roundReply lib data w).consumed ∧ w' = afterRound lib host data w := by
        have hinflated : decompressRound lib host (data, w) = _ :=
          round_inflated hdata hw hlen hlawful.consumed_le hresponse
        exact Prod.mk.inj (Round.next.inj (hround.symm.trans hinflated))
      rcases hlawful.response with hok | hend | herror | hneed
      · exact Or.inr ⟨rfl, (hgoes (Or.inl hok)).1, (hgoes (Or.inl hok)).2, Or.inl hok⟩
      · exact Or.inr ⟨rfl, (hgoes (Or.inr hend)).1, (hgoes (Or.inr hend)).2, Or.inr hend⟩
      · obtain ⟨whatArg, availIn, hstopped⟩ := round_corrupted hdata hw herror
        exact nomatch hround.symm.trans hstopped
      · obtain ⟨availIn, hstopped⟩ := round_needDict hdata hw hneed
        exact nomatch hround.symm.trans hstopped

theorem delivered_passed (lib : Inflate S) (host : Host κ) (data : Bytes)
    (w : DecompressorWorld S κ) :
    delivered (host.handle lib ⟨data.take 1, false⟩ (w.note (.passed (data.take 1)))) =
      delivered w ++ data.take 1 := by
  rw [delivered, recorded_handle, CodecWorld.recorded_note]
  rfl

/-- The world after a round of an engaged decompressor, whose continuation does
not call it. -/
theorem afterRound_silent (lib : Inflate S) (take : Chunk → κ → κ) (data : Bytes)
    (w : DecompressorWorld S κ) :
    let r := roundReply lib data w
    (afterRound lib (silent take) data w).engaged = (r.response != .streamEnd) ∧
      (afterRound lib (silent take) data w).inner =
        (if r.response = .streamEnd then none else some ⟨r.state, data.length - r.consumed⟩) ∧
      input (afterRound lib (silent take) data w) = input w ++ data.take r.consumed ∧
      delivered (afterRound lib (silent take) data w) = delivered w ++ r.produced := by
  refine ⟨rfl, rfl, input_afterRound lib _ data w, ?_⟩
  have hreply : delivered (afterReply data (roundReply lib data w) w) =
      delivered w ++ (roundReply lib data w).produced := CodecWorld.recorded_note _ _ w
  rw [delivered, afterRound, CodecWorld.recorded_note, recorded_handle]
  exact (List.append_nil _).trans hreply

section Round

variable (hlib : InflateLaws lib R) (h : Intact R lib w) (hdata : data ≠ [])
  (hlen : data.length < uIntLimit)

include hlib h hdata hlen

theorem intact_afterRound (hw : w.engaged = true)
    (hresponse : (roundReply lib data w).response = .ok ∨
      (roundReply lib data w).response = .streamEnd) :
    Intact R lib (afterRound lib (silent take) data w) := by
  have hlawful := lawful_roundReply hlib h.open hdata hlen
  obtain ⟨hengaged, hinner, hinput, hdelivered⟩ := afterRound_silent lib take data w
  cases h with
  | beyond engaged _ _ _ _ _ _ =>
      exact absurd (engaged.symm.trans hw) Bool.false_ne_true
  | within engaged stays taken written first =>
      have htaken : input (afterRound lib (silent take) data w) =
          R.taken (roundReply lib data w).state := by
        rw [hinput, taken, hlawful.taken]
      have hwritten : delivered (afterRound lib (silent take) data w) =
          R.written (roundReply lib data w).state := by
        rw [hdelivered, written, hlawful.written]
      rcases hresponse with hok | hend
      · rw [hok] at hengaged
        rw [if_neg (by simp [hok])] at hinner
        have hstate : inflating lib (afterRound lib (silent take) data w).inner =
            (roundReply lib data w).state := by
          rw [hinner]
          rfl
        refine .within hengaged ?_ (hstate ▸ htaken) (hstate ▸ hwritten) ?_
        · rw [hinner]
          rintro st ⟨⟩
          exact ⟨hlawful.valid, hlawful.notEnd (by simp [hok])⟩
        · rw [hinput, taken]
          intro z hz hne
          rcases proper_prefix_append_take hz hne with ⟨hbefore, hproper⟩ | ⟨k, hk, rfl⟩
          · exact first z (taken ▸ hbefore) (taken ▸ hproper)
          · exact hlawful.withinStream k hk
      · rw [hend] at hengaged
        rw [if_pos hend] at hinner
        obtain ⟨hcomplete, hall⟩ := hlawful.streamEnd hend
        refine .beyond hengaged hinner _ [] hcomplete ?_ ?_
        · rw [htaken, List.append_nil]
        · rw [hwritten, hall, List.append_nil]

theorem intact_round {rest : Bytes}
    (hround : decompressRound lib (silent take) (data, w) = .next (rest, w')) :
    Intact R lib w' := by
  rcases round_next hlib h.open hdata hlen hround with
    ⟨hw, -, rfl⟩ | ⟨hw, -, rfl, hresponse⟩
  · cases h with
    | within engaged _ _ _ _ =>
        exact absurd (hw.symm.trans engaged) Bool.false_ne_true
    | beyond engaged inner z rest complete received passed =>
        refine .beyond engaged inner z (rest ++ data.take 1) complete ?_ ?_
        · rw [input_passed, received, List.append_assoc]
        · rw [delivered_passed, passed, List.append_assoc]
  · exact intact_afterRound hlib h hdata hlen hw hresponse

/-- The round that takes the rest of the data leaves nothing behind exactly
when the output that is due fits into the buffer. -/
theorem caught_iff_due (hw : w.engaged = true)
    (hround : decompressRound lib (silent take) (data, w) = .next ([], w')) :
    Caught R lib w' ↔ due R lib data w ≤ receiveBufferSize := by
  have hlawful := lawful_roundReply hlib h.open hdata hlen
  rcases round_next hlib h.open hdata hlen hround with
    ⟨hw', -, -⟩ | ⟨-, hrest, rfl, hresponse⟩
  · exact absurd (hw'.symm.trans hw) Bool.false_ne_true
  · have hall : data.take (roundReply lib data w).consumed = data :=
      List.take_of_length_le (List.drop_eq_nil_iff.mp hrest.symm)
    have htaken := hlawful.taken
    rw [hall] at htaken
    have hle := hlawful.determined.length_le
    have hlength := congrArg List.length hlawful.written
    rw [List.length_append] at hlength
    have hroom := hlawful.produced_le
    obtain ⟨hengaged, hinner, -, -⟩ := afterRound_silent lib take data w
    rw [due, ← htaken]
    rcases hresponse with hok | hend
    · rw [if_neg (by simp [hok])] at hinner
      have hstate : inflating lib (afterRound lib (silent take) data w).inner =
          (roundReply lib data w).state := by
        rw [hinner]
        rfl
      rw [hok] at hengaged
      rw [Caught, hstate]
      constructor
      · intro hcaught
        have hsame := congrArg List.length (hcaught hengaged)
        omega
      · intro hdue _
        by_cases hfull : (roundReply lib data w).produced.length < receiveBufferSize
        · exact hlawful.roomLeft hok hfull
        · exact hlawful.determined.eq_of_length_le (by omega)
    · have hsame := congrArg List.length (hlawful.streamEnd hend).2
      constructor
      · intro _
        omega
      · intro _ hengaged'
        rw [hengaged, hend] at hengaged'
        exact nomatch hengaged'

end Round

/-! ### Calls -/

section Calls

variable (hlib : InflateLaws lib R)

include hlib

theorem intact_of_visits (h : Intact R lib w) (hlen : data.length < uIntLimit)
    {s : Bytes × DecompressorWorld S κ}
    (hvisits : Visits (decompressRound lib (silent take)) (data, w) s) :
    Intact R lib s.2 ∧ s.1.length < uIntLimit := by
  apply hvisits.invariant (I := fun s => Intact R lib s.2 ∧ s.1.length < uIntLimit)
  · rintro ⟨d, w₁⟩ ⟨d', w₂⟩ ⟨hintact, hd⟩ hnext
    have hdata : d ≠ [] := Codec.ne_nil_of_round_next hnext
    refine ⟨intact_round hlib hintact hdata hd hnext, ?_⟩
    have hshort : d' = d.drop 1 ∨ d' = d.drop (roundReply lib d w₁).consumed :=
      (round_next hlib hintact.open hdata hd hnext).imp (fun h => h.2.1) (fun h => h.2.1)
    rcases hshort with rfl | rfl
    · exact Nat.lt_of_le_of_lt (List.drop_sublist _ _).length_le hd
    · exact Nat.lt_of_le_of_lt (List.drop_sublist _ _).length_le hd
  · exact ⟨h, hlen⟩

/-- A call that returns has kept the record and the stream together. -/
theorem intact_of_transforms (h : Intact R lib w) (hlen : data.length < uIntLimit)
    (hreturns : (decompressor lib).Transforms (passive take) data w (.done () w')) :
    Visits (decompressRound lib (silent take)) (data, w) ([], w') ∧ Intact R lib w' ∧
      input w' = input w ++ data := by
  obtain ⟨⟨d, w₁⟩, hvisits, hexit⟩ := hreturns.visits
  obtain ⟨rfl, rfl⟩ := Codec.nil_of_round_done hexit
  have hmidway : Midway R lib (silent take) data w ([], w₁) :=
    midway_of_visits hlib h.open hlen hvisits
  have hinput := hmidway.input
  rw [List.append_nil] at hinput
  exact ⟨hvisits, (intact_of_visits hlib h hlen hvisits).1, hinput⟩

/-- A call hands on all that is determined exactly when its last output fits. -/
theorem delivers_iff_fits (h : Intact R lib w) (hcaught : Caught R lib w)
    (hlen : data.length < uIntLimit) :
    Delivers R lib take data w ↔ Fits R lib take data w := by
  constructor
  · intro hdelivers d w₁ w₂ hvisits hd hengaged hround
    obtain ⟨hintact, hshort⟩ := intact_of_visits hlib h hlen hvisits
    have hreturns : (decompressor lib).Transforms (passive take) data w (.done () w₂) :=
      (returns_of_visits (hvisits.trans (.next hround (.refl _)))).mpr
        ((returns_of_exit Codec.round_nil).mpr rfl)
    obtain ⟨-, hintact', hinput⟩ := intact_of_transforms hlib h hlen hreturns
    have hdetermines := hdelivers w₂ hreturns
    rw [← hinput] at hdetermines
    exact (caught_iff_due hlib hintact hd hshort hengaged hround).mp
      ((hintact'.determines_iff hlib).mp hdetermines)
  · intro hfits w₂ hreturns
    obtain ⟨hvisits, hintact', hinput⟩ := intact_of_transforms hlib h hlen hreturns
    rw [← hinput]
    apply (hintact'.determines_iff hlib).mpr
    rcases hvisits.last with hsame | ⟨⟨d, w₁⟩, hlast, hround⟩
    · obtain ⟨-, rfl⟩ := Prod.mk.inj hsame
      exact hcaught
    · obtain ⟨hintact, hshort⟩ := intact_of_visits hlib h hlen hlast
      have hd : d ≠ [] := Codec.ne_nil_of_round_next hround
      cases hengaged : w₁.engaged with
      | true =>
          exact (caught_iff_due hlib hintact hd hshort hengaged hround).mpr
            (hfits d w₁ w₂ hlast hd hengaged hround)
      | false =>
          rcases round_next hlib hintact.open hd hshort hround with
            ⟨-, -, rfl⟩ | ⟨hw, -, -, -⟩
          · intro hw
            have hkept : w₁.engaged = true := hw
            exact absurd (hengaged.symm.trans hkept) Bool.false_ne_true
          · exact absurd (hengaged.symm.trans hw) Bool.false_ne_true

end Calls

/-- A decompressor that has just been started. -/
def startedDecompressor (S : Type) (x : κ) : DecompressorWorld S κ :=
  { engaged := true, inner := none, outer := x }

theorem intact_started (hlib : InflateLaws lib R) (x : κ) :
    Intact R lib (startedDecompressor S x) ∧ Caught R lib (startedDecompressor S x) := by
  refine ⟨.within rfl (open_none R) hlib.taken_init.symm hlib.written_init.symm ?_, ?_⟩
  · intro z hz hne
    exact absurd (List.prefix_nil.mp hz) hne
  · intro _
    show R.written lib.init = R.content (R.taken lib.init)
    rw [hlib.taken_init, hlib.written_init, hlib.content_nil]

/-- Over all the calls that follow a start, the decompressor hands on what is
determined exactly as long as the output of each last round fits. -/
theorem everyCall_delivers_iff (hlib : InflateLaws lib R) (x : κ) {spans : List Bytes}
    (hspans : ∀ span ∈ spans, span.length < uIntLimit) :
    (decompressor lib).EveryCall (passive take) Outcome.Returned (Delivers R lib take)
        (startedDecompressor S x) spans ↔
      (decompressor lib).EveryCall (passive take) Outcome.Returned (Fits R lib take)
        (startedDecompressor S x) spans := by
  apply Codec.everyCall_congr (I := fun w => Intact R lib w ∧ Caught R lib w)
    (S := fun data => data.length < uIntLimit)
  · rintro data w hlen ⟨hintact, hcaught⟩
    exact delivers_iff_fits hlib hintact hcaught hlen
  · rintro data w (⟨_, w'⟩ | ⟨reason, w'⟩) hlen ⟨hintact, -⟩ hdelivers hreturns haccept
    · obtain ⟨-, hintact', hinput⟩ := intact_of_transforms hlib hintact hlen hreturns
      have hdetermines := hdelivers w' hreturns
      rw [← hinput] at hdetermines
      exact ⟨hintact', (hintact'.determines_iff hlib).mp hdetermines⟩
    · exact haccept.elim
  · exact intact_started hlib x
  · exact hspans

end Decompression

/-! ## The compressor -/

abbrev CompressorWorld (S κ : Type) := CodecWorld (Option (ZStream S)) κ

/-- If the call returns, the output so far decodes to the data so far. -/
def DeliversData (W : Writing S) (lib : Deflate S) (fuel : ℕ) (take : Chunk → κ → κ)
    (data : Bytes) (w : CompressorWorld S κ) : Prop :=
  ∀ w', (compressor lib fuel).Transforms (passive take) data w (.done () w') →
    W.Decodes (w'.recorded Passage.output?) (w.recorded Passage.transformed? ++ data)

/-- The round in which the library takes the rest of the data has room for all
that the flush comes to. -/
def FlushFits (W : Writing S) (lib : Deflate S) (fuel : ℕ) (take : Chunk → κ → κ)
    (data : Bytes) (w : CompressorWorld S κ) : Prop :=
  ∀ d w' w'', Visits ((compressor lib fuel).round (passive take)) (data, w) (d, w') → d ≠ [] →
    (compressor lib fuel).round (passive take) (d, w') = .next ([], w'') →
    (W.flushed (deflating lib w'.inner) d).length ≤ outputBufferSize

/-- The record and the stream of an engaged compressor tell the same. -/
structure Compressing (W : Writing S) (lib : Deflate S) (w : CompressorWorld S κ) : Prop where
  engaged : w.engaged = true
  valid : W.Valid (deflating lib w.inner)
  taken : w.recorded Passage.transformed? = W.taken (deflating lib w.inner)
  written : w.recorded Passage.output? = W.written (deflating lib w.inner)

section Compression

variable {W : Writing S} {lib : Deflate S} {fuel : ℕ} {take : Chunk → κ → κ} {data : Bytes}
  {w w' : CompressorWorld S κ}

/-- The reply of the library in a round. -/
abbrev flushReply (lib : Deflate S) (data : Bytes) (w : CompressorWorld S κ) : Reply S :=
  lib.deflate (deflating lib w.inner) .syncFlush data outputBufferSize

/-- The world after a round of an engaged compressor. -/
def afterFlush (lib : Deflate S) (take : Chunk → κ → κ) (data : Bytes)
    (w : CompressorWorld S κ) : CompressorWorld S κ :=
  let r := flushReply lib data w
  CodecWorld.note (.transformed (data.take r.consumed))
    { w.note (.output r.produced) with
      engaged := true
      inner := some ⟨r.state, data.length - r.consumed⟩
      outer := take ⟨r.produced, false⟩ w.outer }

theorem round_compressed (fuel : ℕ) (take : Chunk → κ → κ) (hw : w.engaged = true)
    (hdata : data ≠ []) (hlen : data.length < uIntLimit)
    (hflush : LawfulFlush W (deflating lib w.inner) data outputBufferSize (flushReply lib data w)) :
    (compressor lib fuel).round (passive take) (data, w) =
      .next (data.drop (flushReply lib data w).consumed, afterFlush lib take data w) := by
  have hreply : deflateChunk lib data (deflating lib w.inner) = flushReply lib data w := by
    rw [deflateChunk, toUInt_of_lt hlen, List.take_length]
  have hrest : data.length - (data.drop (flushReply lib data w).consumed).length =
      (flushReply lib data w).consumed := by
    rw [List.length_drop, Nat.sub_sub_self hflush.consumed_le]
  have hrun : Codec.run (Codec.forward (passive take)) (compressChunk lib data w.inner) w =
      .done (data.drop (data.length - (data.length - (flushReply lib data w).consumed)))
        { w.note (.output (flushReply lib data w).produced) with
          engaged := true
          inner := some ⟨(flushReply lib data w).state,
            data.length - (flushReply lib data w).consumed⟩
          outer := take ⟨(flushReply lib data w).produced, false⟩ w.outer } := by
    simp only [compressChunk, hreply, if_pos hflush.response, toUInt_of_lt hlen]
    rfl
  rw [Nat.sub_sub_self hflush.consumed_le] at hrun
  have hround : (compressor lib fuel).round (passive take) (data, w) = _ :=
    Codec.round_of_done hdata hw hrun
  rw [hrest] at hround
  exact hround

theorem transformed_afterFlush (lib : Deflate S) (take : Chunk → κ → κ) (data : Bytes)
    (w : CompressorWorld S κ) : (afterFlush lib take data w).recorded Passage.transformed? =
      w.recorded Passage.transformed? ++ data.take (flushReply lib data w).consumed := by
  have hnote : (w.note (.output (flushReply lib data w).produced)).recorded
      Passage.transformed? = w.recorded Passage.transformed? :=
    (CodecWorld.recorded_note _ _ w).trans (List.append_nil _)
  rw [afterFlush, CodecWorld.recorded_note]
  exact congrArg (· ++ _) hnote

theorem output_afterFlush (lib : Deflate S) (take : Chunk → κ → κ) (data : Bytes)
    (w : CompressorWorld S κ) : (afterFlush lib take data w).recorded Passage.output? =
      w.recorded Passage.output? ++ (flushReply lib data w).produced := by
  rw [afterFlush, CodecWorld.recorded_note]
  exact (List.append_nil _).trans (CodecWorld.recorded_note _ _ w)

section Round

variable (hlib : DeflateLaws lib W)

include hlib

theorem lawful_flushReply (h : Compressing W lib w) (hdata : data ≠ []) :
    LawfulFlush W (deflating lib w.inner) data outputBufferSize (flushReply lib data w) :=
  hlib.call _ _ _ h.valid hdata (by decide)

theorem next_eq_afterFlush (h : Compressing W lib w) (hdata : data ≠ [])
    (hlen : data.length < uIntLimit) {rest : Bytes}
    (hround : (compressor lib fuel).round (passive take) (data, w) = .next (rest, w')) :
    rest = data.drop (flushReply lib data w).consumed ∧ w' = afterFlush lib take data w := by
  have hflush := lawful_flushReply hlib h hdata
  have hcompressed := round_compressed fuel take h.engaged hdata hlen hflush
  exact Prod.mk.inj (Round.next.inj (hround.symm.trans hcompressed))

theorem compressing_afterFlush (h : Compressing W lib w) (hdata : data ≠ []) :
    Compressing W lib (afterFlush lib take data w) := by
  have hflush := lawful_flushReply hlib h hdata
  refine ⟨rfl, hflush.valid, ?_, ?_⟩
  · rw [transformed_afterFlush, h.taken]
    exact hflush.taken.symm
  · rw [output_afterFlush, h.written]
    exact hflush.written.symm

/-- A flush that fits leaves nothing pending. -/
theorem decodes_afterFlush (h : Compressing W lib w) (hdata : data ≠ [])
    (hall : data.drop (flushReply lib data w).consumed = [])
    (hfits : (W.flushed (deflating lib w.inner) data).length ≤ outputBufferSize) :
    W.Decodes ((afterFlush lib take data w).recorded Passage.output?)
      ((afterFlush lib take data w).recorded Passage.transformed?) := by
  have hflush := lawful_flushReply hlib h hdata
  have hcompressing : Compressing W lib (afterFlush lib take data w) :=
    compressing_afterFlush hlib h hdata
  rw [hcompressing.taken, hcompressing.written]
  have hconsumed : (flushReply lib data w).consumed = data.length :=
    Nat.le_antisymm hflush.consumed_le (List.drop_eq_nil_iff.mp hall)
  apply hflush.decodes hconsumed
  by_contra hpending
  have hfull := hflush.full (Or.inr hpending)
  have hlength := congrArg List.length (hflush.flushed hconsumed)
  have hpos := List.length_pos_of_ne_nil hpending
  rw [List.length_append] at hlength
  omega

theorem compressing_of_visits (h : Compressing W lib w) (hlen : data.length < uIntLimit)
    {s : Bytes × CompressorWorld S κ}
    (hvisits : Visits ((compressor lib fuel).round (passive take)) (data, w) s) :
    Compressing W lib s.2 ∧ s.1.length < uIntLimit ∧
      s.2.recorded Passage.transformed? ++ s.1 = w.recorded Passage.transformed? ++ data := by
  apply hvisits.invariant (I := fun s => Compressing W lib s.2 ∧ s.1.length < uIntLimit ∧
      s.2.recorded Passage.transformed? ++ s.1 = w.recorded Passage.transformed? ++ data)
  · rintro ⟨d, w₁⟩ ⟨d', w₂⟩ ⟨hcompressing, hd, htransformed⟩ hnext
    have hdata : d ≠ [] := Codec.ne_nil_of_round_next hnext
    obtain ⟨rfl, rfl⟩ := next_eq_afterFlush hlib hcompressing hdata hd hnext
    refine ⟨compressing_afterFlush hlib hcompressing hdata,
      Nat.lt_of_le_of_lt (List.drop_sublist _ _).length_le hd, ?_⟩
    rw [transformed_afterFlush, List.append_assoc, List.take_append_drop]
    exact htransformed
  · exact ⟨h, hlen, rfl⟩

theorem compressing_of_transforms (h : Compressing W lib w) (hlen : data.length < uIntLimit)
    (hreturns : (compressor lib fuel).Transforms (passive take) data w (.done () w')) :
    Visits ((compressor lib fuel).round (passive take)) (data, w) ([], w') ∧
      Compressing W lib w' ∧
      w'.recorded Passage.transformed? = w.recorded Passage.transformed? ++ data := by
  obtain ⟨⟨d, w₁⟩, hvisits, hexit⟩ := hreturns.visits
  obtain ⟨rfl, rfl⟩ := Codec.nil_of_round_done hexit
  obtain ⟨hcompressing, -, htransformed⟩ := compressing_of_visits hlib h hlen hvisits
  rw [List.append_nil] at htransformed
  exact ⟨hvisits, hcompressing, htransformed⟩

theorem deliversData_of_flushFits (h : Compressing W lib w)
    (hdecodes : W.Decodes (w.recorded Passage.output?) (w.recorded Passage.transformed?))
    (hlen : data.length < uIntLimit) (hfits : FlushFits W lib fuel take data w) :
    DeliversData W lib fuel take data w := by
  intro w₂ hreturns
  obtain ⟨hvisits, -, htransformed⟩ := compressing_of_transforms hlib h hlen hreturns
  rw [← htransformed]
  rcases hvisits.last with hsame | ⟨⟨d, w₁⟩, hlast, hround⟩
  · obtain ⟨-, rfl⟩ := Prod.mk.inj hsame
    exact hdecodes
  · obtain ⟨hcompressing, hshort, -⟩ := compressing_of_visits hlib h hlen hlast
    have hd : d ≠ [] := Codec.ne_nil_of_round_next hround
    obtain ⟨hall, rfl⟩ := next_eq_afterFlush hlib hcompressing hd hshort hround
    exact decodes_afterFlush hlib hcompressing hd hall.symm (hfits d w₁ _ hlast hd hround)

end Round

end Compression

/-- A compressor that has just been started. -/
def startedCompressor (S : Type) (x : κ) : CompressorWorld S κ :=
  { engaged := true, inner := none, outer := x }

section Codecs

variable {T : Type} {R : Reading S} {W : Writing T} {inflater : Inflate S}
  {deflater : Deflate T} {take : Chunk → κ → κ}

/-- Over all the calls that follow a start, the output of the compressor
decodes to its data as long as the flush of each last round fits. -/
theorem everyCall_deliversData (hlib : DeflateLaws deflater W) (fuel : ℕ) (x : κ)
    {spans : List Bytes} (hspans : ∀ span ∈ spans, span.length < uIntLimit)
    (h : (compressor deflater fuel).EveryCall (passive take) Outcome.Returned
      (FlushFits W deflater fuel take) (startedCompressor T x) spans) :
    (compressor deflater fuel).EveryCall (passive take) Outcome.Returned
      (DeliversData W deflater fuel take) (startedCompressor T x) spans := by
  apply h.imp (I := fun w => Compressing W deflater w ∧
      W.Decodes (w.recorded Passage.output?) (w.recorded Passage.transformed?))
    (S := fun data => data.length < uIntLimit)
  · rintro data w hlen ⟨hcompressing, hdecodes⟩ hfits
    exact deliversData_of_flushFits hlib hcompressing hdecodes hlen hfits
  · rintro data w (⟨_, w'⟩ | ⟨reason, w'⟩) hlen ⟨hcompressing, hdecodes⟩ hfits hreturns haccept
    · obtain ⟨-, hcompressing', htransformed⟩ :=
        compressing_of_transforms hlib hcompressing hlen hreturns
      have hdelivers := deliversData_of_flushFits hlib hcompressing hdecodes hlen hfits w' hreturns
      rw [← htransformed] at hdelivers
      exact ⟨hcompressing', hdelivers⟩
    · exact haccept.elim
  · exact ⟨⟨rfl, hlib.valid_init, hlib.taken_init.symm, hlib.written_init.symm⟩, hlib.decodes_nil⟩
  · exact hspans

/-- Nothing is held back: by the decompressor exactly as long as the output of
each last round fits into its buffer, and by the compressor as long as each
flush does. -/
theorem codecs_deliver (hinflate : InflateLaws inflater R) (hdeflate : DeflateLaws deflater W)
    (fuel : ℕ) (x : κ) {spans : List Bytes} (hspans : ∀ span ∈ spans, span.length < uIntLimit) :
    ((decompressor inflater).EveryCall (passive take) Outcome.Returned
          (Delivers R inflater take) (startedDecompressor S x) spans ↔
        (decompressor inflater).EveryCall (passive take) Outcome.Returned
          (Fits R inflater take) (startedDecompressor S x) spans) ∧
      ((compressor deflater fuel).EveryCall (passive take) Outcome.Returned
          (FlushFits W deflater fuel take) (startedCompressor T x) spans →
        (compressor deflater fuel).EveryCall (passive take) Outcome.Returned
          (DeliversData W deflater fuel take) (startedCompressor T x) spans) :=
  ⟨everyCall_delivers_iff hinflate x hspans, everyCall_deliversData hdeflate fuel x hspans⟩

end Codecs

/-! ## Data that does not fit -/

/-- 5000 bytes of one value, as zlib compresses them. -/
def repeatedTape : Tape where
  cells := List.map (fun cell => (cell.1, List.replicate cell.2 0x61))
    [(0x78, 0), (0x9C, 0), (0xED, 0), (0xC1, 0), (0x31, 0), (0x01, 0), (0x00, 0), (0x00, 0),
      (0x00, 0), (0xC2, 0), (0xA0, 0), (0xAC, 0), (0xEB, 0), (0x5F, 0), (0xC2, 0), (0x14, 0),
      (0x7E, 0), (0x40, 1), (0x01, 775), (0x00, 1032), (0x00, 1032), (0x00, 1032),
      (0x00, 1032), (0x6F, 96), (0x03, 0), (0x4B, 0), (0x6F, 0), (0x66, 0), (0xF2, 0)]

/-- Bytes that zlib does not compress. -/
def noise : ℕ → ℕ → Bytes
  | 0, _ => []
  | n + 1, seed =>
      let seed := (seed * 1103515245 + 12345) % 2147483648
      UInt8.ofNat (seed / 65536) :: noise n seed

theorem noise_length (n seed : ℕ) : (noise n seed).length = n := by
  induction n generalizing seed with
  | zero => rfl
  | succ n ih => rw [noise, List.length_cons, ih]

theorem codecs_deliver_short :
    ((decompressor repeatedTape.library).EveryCall (passive fun _ x => x) Outcome.Returned
          (Delivers repeatedTape.reading repeatedTape.library fun _ x => x)
          (startedDecompressor Tape.Position ()) [[0x78, 0x9C], [0xED]] ↔
        (decompressor repeatedTape.library).EveryCall (passive fun _ x => x) Outcome.Returned
          (Fits repeatedTape.reading repeatedTape.library fun _ x => x)
          (startedDecompressor Tape.Position ()) [[0x78, 0x9C], [0xED]]) ∧
      ((compressor Stored.library 1).EveryCall (passive fun _ x => x) Outcome.Returned
          (FlushFits Stored.writing Stored.library 1 fun _ x => x)
          (startedCompressor Stored.Store ()) [[0x78, 0x9C], [0xED]] →
        (compressor Stored.library 1).EveryCall (passive fun _ x => x) Outcome.Returned
          (DeliversData Stored.writing Stored.library 1 fun _ x => x)
          (startedCompressor Stored.Store ()) [[0x78, 0x9C], [0xED]]) :=
  codecs_deliver repeatedTape.laws Stored.laws 1 ()
    (by decide : ∀ span ∈ ([[0x78, 0x9C], [0xED]] : List Bytes), span.length < uIntLimit)

/-- Data that is stored and does not fit into the buffer is held back. -/
theorem not_deliversData_of_long {take : Chunk → κ → κ} (fuel : ℕ) (x : κ) {data : Bytes}
    (hlong : outputBufferSize < data.length) (hlen : data.length < uIntLimit) :
    ¬ DeliversData Stored.writing Stored.library fuel take data
      (startedCompressor Stored.Store x) := by
  have hdata : data ≠ [] := List.ne_nil_of_length_pos (Nat.zero_lt_of_lt hlong)
  have hcompressing : Compressing Stored.writing Stored.library
      (startedCompressor Stored.Store x) := ⟨rfl, Stored.laws.valid_init, rfl, rfl⟩
  have hflush := lawful_flushReply Stored.laws hcompressing hdata
  have hround := round_compressed fuel take hcompressing.engaged hdata hlen hflush
  have hrest : data.drop (flushReply Stored.library data
      (startedCompressor Stored.Store x)).consumed = [] := List.drop_length
  rw [hrest] at hround
  intro hdelivers
  have hdecodes := hdelivers _
    ((returns_of_next hround).mpr ((returns_of_exit Codec.round_nil).mpr rfl))
  rw [output_afterFlush] at hdecodes
  exact absurd (Nat.le_trans (Stored.length_le_of_decodes hdecodes) hflush.produced_le)
    (Nat.not_le.mpr hlong)

theorem codecs_withhold :
    ¬ Delivers repeatedTape.reading repeatedTape.library (fun _ x => x)
        (repeatedTape.bytes.take 20) (startedDecompressor Tape.Position ()) ∧
      ¬ DeliversData Stored.writing Stored.library 1 (fun _ x => x) (noise 2000 1)
        (startedCompressor Stored.Store ()) := by
  constructor
  · have hstarted := intact_started repeatedTape.laws ()
    rw [delivers_iff_fits repeatedTape.laws hstarted.1 hstarted.2 (by decide)]
    intro hfits
    have hround : decompressRound repeatedTape.library (silent fun _ x => x)
        (repeatedTape.bytes.take 20, startedDecompressor Tape.Position ()) = _ :=
      round_inflated (by decide) rfl (by decide) (by decide +kernel) (by decide +kernel)
    have hall : (repeatedTape.bytes.take 20).drop (roundReply repeatedTape.library
        (repeatedTape.bytes.take 20) (startedDecompressor Tape.Position ())).consumed = [] := by
      decide +kernel
    rw [hall] at hround
    have hdue := hfits _ _ _ (.refl _) (by decide) rfl hround
    exact absurd hdue (by decide +kernel)
  · apply not_deliversData_of_long
    · rw [noise_length]
      decide
    · rw [noise_length]
      decide

end Telnetpp.Mccp.Zlib
