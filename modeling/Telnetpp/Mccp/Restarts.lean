import Mathlib.Data.List.Infix
import Telnetpp.Mccp.Inflation
import Telnetpp.Mccp.Switching

/-!
# Starts inside a compressed stream

A compressed stream may itself contain the subnegotiation that starts the
codec. The client starts it from inside the continuation, after `operator()`
has noted that the stream has ended, if both come with one call.
-/

namespace Telnetpp.Mccp

open Foundation

/-! ## Codecs that may hand on their output later -/

/-- How the states of a codec inside a stream are read: by what has been taken
of it and what has been handed on for it. -/
structure Streaming (Z : Type) where
  Has : Bytes → Bytes → Z → Prop
  content : Bytes → Bytes
  Complete : Bytes → Prop

/-- One call of `transform_chunk`, with data that agrees with the rest of a
complete stream. Either it gets further in the stream, or it reports the end,
with all of the stream taken and all of its content handed on. -/
structure Proceeds {Z : Type} (R : Streaming Z) (x tail handed data : Bytes) (n : ℕ)
    (chunks : List Chunk) (s : Z) : Prop where
  le_data : n ≤ data.length
  le_tail : n ≤ tail.length
  output : handed ++ chunks.flatMap Chunk.data <+: R.content (x ++ tail)
  outcome : (R.Has (x ++ data.take n) (handed ++ chunks.flatMap Chunk.data) s ∧
      (∀ chunk ∈ chunks, chunk.ended = false) ∧ (0 < n ∨ chunks.flatMap Chunk.data ≠ [])) ∨
    n = tail.length ∧ handed ++ chunks.flatMap Chunk.data = R.content (x ++ tail) ∧
      ∃ earlier last, chunks = earlier ++ [⟨last, true⟩]

/-- A call that gets further leaves less to take or less to hand on. -/
theorem Proceeds.measure_lt {Z : Type} {R : Streaming Z} {x tail handed data : Bytes} {n : ℕ}
    {chunks : List Chunk} {s : Z} (h : Proceeds R x tail handed data n chunks s)
    (hdata : data ≠ []) (hprogress : 0 < n ∨ chunks.flatMap Chunk.data ≠ []) :
    (data.drop n).length +
        ((R.content (x ++ tail)).length - (handed ++ chunks.flatMap Chunk.data).length) <
      data.length + ((R.content (x ++ tail)).length - handed.length) := by
  have hle := h.output.length_le
  have hpos := List.length_pos_of_ne_nil hdata
  rw [List.length_append] at hle ⊢
  rw [List.length_drop]
  rcases hprogress with htaken | hwritten
  · omega
  · have hpos' := List.length_pos_of_ne_nil hwritten
    omega

/-- A codec that goes through complete streams in spans that zlib can count. A
start inside a stream has no effect, and a codec that has taken all of one
without having reported its end still owes a part of the content. -/
structure StreamCodec {Z : Type} (codec : Codec Z) (R : Streaming Z) : Prop where
  start : ∀ s, codec.doStart s = s
  owes : ∀ z handed s, R.Has z handed s → R.Complete z → handed ≠ R.content z
  transform : ∀ x tail handed data s, R.Has x handed s → R.Complete (x ++ tail) → data ≠ [] →
    data.length < Zlib.uIntLimit → (data <+: tail ∨ tail <+: data) →
      ∃ n chunks s', (codec.transformChunk data s).alone = (chunks, .done (data.drop n) s') ∧
        Proceeds R x tail handed data n chunks s'

namespace Zlib

variable {S : Type} {lib : Inflate S} {R : Reading S}

def Reading.streaming (R : Reading S) (lib : Inflate S) : Streaming (Option (ZStream S)) where
  Has := Inflating R lib
  content := R.content
  Complete := R.Complete

/-- No call takes more than the rest of a complete stream. -/
theorem consumed_le_tail {s : S} {tail data : Bytes} {room : ℕ} {r : Reply S}
    (hlawful : LawfulReply R s data room r) (hcomplete : R.Complete (R.taken s ++ tail))
    (hagrees : data <+: tail ∨ tail <+: data) : r.consumed ≤ tail.length := by
  have hdata := hlawful.consumed_le
  by_contra hbeyond
  rcases hagrees with hpart | hall
  · have hle := hpart.length_le
    omega
  · apply hlawful.withinStream tail.length (Nat.lt_of_not_le hbeyond)
    rwa [← List.prefix_iff_eq_take.mp hall]

theorem streamCodec_decompressor (hlib : InflateLaws lib R) (hstreams : StreamLaws lib R) :
    StreamCodec (decompressor lib) (R.streaming lib) where
  start _ := rfl
  owes := by
    rintro z handed stream h hcomplete rfl
    have hend := (open_inflating hlib h.stays).2
    rw [Reading.Ended, h.taken, h.written] at hend
    exact hend ⟨hcomplete, rfl⟩
  transform := by
    intro x tail handed data stream h hcomplete hdata hlen hagrees
    let r := inflateChunk lib data (inflating lib stream)
    have hchunk : r = lib.inflate (inflating lib stream) data receiveBufferSize :=
      inflateChunk_of_lt lib hlen _
    have hvalid : R.Valid (inflating lib stream) :=
      (open_inflating hlib h.stays).1
    have hlawful : LawfulReply R (inflating lib stream) data receiveBufferSize r :=
      hchunk ▸ hlib.call _ _ _ hvalid hdata (by decide)
    have hwhole : R.Complete (R.taken (inflating lib stream) ++ tail) := h.taken ▸ hcomplete
    have hresponse : r.response = .ok ∨ r.response = .streamEnd :=
      hchunk ▸ hstreams.accepts _ tail data _ hvalid hwhole hdata (by decide) hagrees
    have hn : r.consumed ≤ tail.length := consumed_le_tail hlawful hwhole hagrees
    have htake := Receiver.take_eq_of_agrees hagrees hlawful.consumed_le hn
    have htaken : R.taken r.state = x ++ data.take r.consumed := by
      rw [hlawful.taken, h.taken]
    have hwritten : R.written r.state = handed ++ r.produced := by
      rw [hlawful.written, h.written]
    have hdetermined : handed ++ r.produced <+: R.content (x ++ data.take r.consumed) := by
      rw [← htaken, ← hwritten]
      exact hlawful.determined
    have hpart : x ++ tail = (x ++ data.take r.consumed) ++ tail.drop r.consumed := by
      rw [htake, List.append_assoc, List.take_append_drop]
    refine ⟨r.consumed, [⟨r.produced, r.response == .streamEnd⟩],
      if r.response = .streamEnd then none else some ⟨r.state, data.length - r.consumed⟩, ?_,
      hlawful.consumed_le, hn, ?_, ?_⟩
    · change (decompressChunk lib data stream).alone = _
      rw [decompressChunk_inflated hlen hlawful.consumed_le hresponse]
      rfl
    · rw [List.flatMap_singleton]
      exact hdetermined.trans (hpart ▸ hstreams.content_append _ _)
    · rw [List.flatMap_singleton]
      rcases hresponse with hok | hend
      · refine Or.inl ⟨⟨?_, ?_, ?_, hdetermined⟩, by simp [hok], hlawful.progress hok⟩
        · rw [if_neg (by simp [hok])]
          rintro st ⟨⟩
          exact ⟨hlawful.valid, hlawful.notEnd (by simp [hok])⟩
        · rw [if_neg (by simp [hok])]
          exact htaken
        · rw [if_neg (by simp [hok])]
          exact hwritten
      · obtain ⟨hended, hall⟩ := hlawful.streamEnd hend
        rw [htaken] at hended
        have hnone : tail.drop r.consumed = [] :=
          hstreams.complete_append _ _ hended (hpart ▸ hcomplete)
        refine Or.inr ⟨Nat.le_antisymm hn (List.drop_eq_nil_iff.mp hnone), ?_, [], r.produced,
          by simp [hend]⟩
        change _ = R.content (x ++ tail)
        rw [hpart, hnone, List.append_nil, ← htaken, ← hwritten]
        exact hall

end Zlib

namespace Receiver

variable {Z κ : Type}

/-- The codec has been started and is inside the stream. -/
structure Within (R : Streaming Z) (p : Parser) (z x handed : Bytes) (w : ReaderWorld Z κ) :
    Prop where
  active : w.outer.state = .active
  plainData : w.outer.parser.plainData = []
  engaged : w.engaged = true
  has : R.Has x handed w.inner
  parser : w.outer.parser = p.after handed
  received : w.outer.received.flatten = handed
  part : handed <+: R.content z

/-- With the last part of the content, behind the others, the client is handed
no subnegotiation. -/
def EndsQuietly (p : Parser) (before last : Bytes) : Prop :=
  ∀ atom ∈ (p.after before).reads last, isRestart atom = false

instance (p : Parser) (before last : Bytes) : Decidable (EndsQuietly p before last) :=
  inferInstanceAs (Decidable (∀ atom ∈ _, _))

/-- The round that reports the end of a stream, in a call that began in the
world `w`: `before` and `last` make up the content, `last` being what is handed
on with the report, and the round leaves the world `w'` and the data `rest`. -/
structure LastRound (codec : Codec Z) (cont : Continuation Z (Reader κ)) (content span : Bytes)
    (w : ReaderWorld Z κ) (before last rest : Bytes) (w' : ReaderWorld Z κ) : Prop where
  content : before ++ last = content
  round : ∃ data w₁ chunks s, Visits (codec.round cont) (span, w) (data, w₁) ∧ data ≠ [] ∧
    w₁.engaged = true ∧
    (codec.transformChunk data w₁.inner).alone = (chunks ++ [⟨last, true⟩], .done rest s) ∧
    codec.round cont (data, w₁) = .next (rest, w')

section Rounds

variable {codec : Codec Z} {R : Streaming Z} {send : Element → κ → κ} {others : Session κ}
  {callback : Bytes → κ → κ} {w : ReaderWorld Z κ} {p : Parser} {x tail handed data : Bytes}

/-- A round of an engaged codec inside a stream, whatever the stream starts. -/
theorem within_round (hcodec : StreamCodec codec R) (hp : p.plainData = [])
    (hcomplete : R.Complete (x ++ tail))
    (hquiet : ∀ atom ∈ p.reads (R.content (x ++ tail)), ¬ Deactivates atom) (hdata : data ≠ [])
    (hlen : data.length < Zlib.uIntLimit) (hagrees : data <+: tail ∨ tail <+: data)
    (hw : Within R p (x ++ tail) x handed w) :
    ∃ n chunks s w', (codec.transformChunk data w.inner).alone = (chunks, .done (data.drop n) s) ∧
      Proceeds R x tail handed data n chunks s ∧
      codec.round (deliver codec send others callback) (data, w) = .next (data.drop n, w') ∧
      w'.engaged = engagedAfter w.outer.parser chunks true ∧ w'.inner = s ∧
      w'.outer.state = .active ∧
      w'.outer.parser = p.after (handed ++ chunks.flatMap Chunk.data) ∧
      w'.outer.received.flatten = handed ++ chunks.flatMap Chunk.data := by
  obtain ⟨n, chunks, s, halone, hproceeds⟩ :=
    hcodec.transform x tail handed data w.inner hw.has hcomplete hdata hlen hagrees
  have hquietNow : ∀ atom ∈ w.outer.parser.reads (chunks.flatMap Chunk.data),
      ¬ Deactivates atom := by
    obtain ⟨later, hlater⟩ := hproceeds.output
    rw [← hlater, List.append_assoc, Parser.reads_append hp,
      Parser.reads_append (Parser.plainData_after _ _)] at hquiet
    intro atom hatom
    rw [hw.parser] at hatom
    exact hquiet atom (List.mem_append_right _ (List.mem_append_left _ hatom))
  have hrounds : ∃ w', codec.round (deliver codec send others callback) (data, w) = _ ∧ _ :=
    round_engaged hdata hproceeds.le_data hw.active hw.plainData hw.engaged halone hquietNow
      (Or.inl hcodec.start)
  obtain ⟨w', hround, hinner, hengaged, hactive, hparser, hreceived, -, -⟩ := hrounds
  refine ⟨n, chunks, s, w', halone, hproceeds, hround, hengaged, hinner, hactive, ?_, ?_⟩
  · rw [hparser, hw.parser, Parser.after_append hp]
  · rw [hreceived, hw.received]

/-- A round of data that is left either gets further in the stream, with less
to do, or reports the end. -/
theorem round_cases (hcodec : StreamCodec codec R) (hp : p.plainData = []) {z : Bytes}
    (hz : R.Complete z) (hquiet : ∀ atom ∈ p.reads (R.content z), ¬ Deactivates atom)
    (hdata : data ≠ []) (hlen : data.length < Zlib.uIntLimit) (hx : x ++ tail = z)
    (hagrees : data <+: tail ∨ tail <+: data) (hw : Within R p z x handed w) :
    (∃ n handed' w', codec.round (deliver codec send others callback) (data, w) =
          .next (data.drop n, w') ∧ data.take n = tail.take n ∧
        Within R p z (x ++ data.take n) handed' w' ∧
        (data.drop n).length + ((R.content z).length - handed'.length) <
          data.length + ((R.content z).length - handed.length)) ∨
      ∃ rest before last w', data = tail ++ rest ∧
        LastRound codec (deliver codec send others callback) (R.content z) data w before last rest
          w' ∧ (w'.engaged = false ↔ EndsQuietly p before last) := by
  subst hx
  have hrounds : ∃ n chunks s w', _ ∧ _ ∧ codec.round (deliver codec send others callback)
      (data, w) = _ ∧ _ := within_round hcodec hp hz hquiet hdata hlen hagrees hw
  obtain ⟨n, chunks, s, w', halone, hproceeds, hround, hengaged, hinner, hactive, hparser,
    hreceived⟩ := hrounds
  have htake := Receiver.take_eq_of_agrees hagrees hproceeds.le_data hproceeds.le_tail
  rcases hproceeds.outcome with ⟨hhas, hwithin, hprogress⟩ | ⟨hn, hall, earlier, last, rfl⟩
  · refine Or.inl ⟨n, _, w', hround, htake, ⟨hactive, ?_, ?_, hinner ▸ hhas, hparser, hreceived,
      hproceeds.output⟩, hproceeds.measure_lt hdata hprogress⟩
    · rw [hparser]
      exact Parser.plainData_after _ _
    · rw [hengaged, engagedAfter_within _ hwithin]
  · subst hn
    rw [List.take_length] at htake
    refine Or.inr ⟨data.drop tail.length, handed ++ earlier.flatMap Chunk.data, last, w', ?_,
      ⟨?_, data, w, earlier, s, .refl _, hdata, hw.engaged, halone, hround⟩, ?_⟩
    · have hsplit := List.take_append_drop tail.length data
      rw [htake] at hsplit
      exact hsplit.symm
    · rw [← hall, List.flatMap_append, List.append_assoc]
      simp
    · rw [hengaged, engagedAfter_ends hw.plainData, hw.parser, ← Parser.after_append hp,
        decide_eq_false_iff_not, not_not, restarts, List.countP_eq_zero]
      simp only [EndsQuietly, Bool.not_eq_true]

/-- The last round of a call that begins with a round that gets further. -/
theorem LastRound.next {cont : Continuation Z (Reader κ)} {content span before last left : Bytes}
    {n : ℕ} {w₁ w' : ReaderWorld Z κ}
    (hround : codec.round cont (span, w) = .next (span.drop n, w₁))
    (h : LastRound codec cont content (span.drop n) w₁ before last left w') :
    LastRound codec cont content span w before last left w' := by
  obtain ⟨hcontent, d, w₂, chunks, s, hvisits, hlast⟩ := h
  exact ⟨hcontent, d, w₂, chunks, s, .next hround hvisits, hlast⟩

/-- A call inside a stream either takes all of its data and does not reach the
end, or has a round that reports the end, with the bytes behind the stream left. -/
theorem call_cases (hcodec : StreamCodec codec R) (hp : p.plainData = []) {z : Bytes}
    (hz : R.Complete z) (hquiet : ∀ atom ∈ p.reads (R.content z), ¬ Deactivates atom)
    (hlen : data.length < Zlib.uIntLimit) (hx : x ++ tail = z)
    (hagrees : data <+: tail ∨ tail <+: data) (hw : Within R p z x handed w) :
    (∃ tail' handed' w',
      codec.Transforms (deliver codec send others callback) data w (.done () w') ∧
        tail = data ++ tail' ∧ Within R p z (x ++ data) handed' w') ∨
      ∃ rest before last w', data = tail ++ rest ∧
        LastRound codec (deliver codec send others callback) (R.content z) data w before last rest
          w' ∧ (w'.engaged = false ↔ EndsQuietly p before last) := by
  -- a round that takes nothing hands on content that it has held back
  induction hmeasure : data.length + ((R.content z).length - handed.length) using
    Nat.strongRecOn generalizing data handed x tail w with
  | ind measure ih =>
      by_cases hdata : data = []
      · subst hdata
        exact Or.inl ⟨tail, handed, w, (returns_of_exit Codec.round_nil).mpr rfl, rfl,
          by rwa [List.append_nil]⟩
      have hrounds : (∃ n handed' w', codec.round (deliver codec send others callback)
          (data, w) = _ ∧ _) ∨ _ := round_cases hcodec hp hz hquiet hdata hlen hx hagrees hw
      rcases hrounds with ⟨n, handed₁, w₁, hround, htake, hw₁, hless⟩ | hends
      · have hrest : (x ++ data.take n) ++ tail.drop n = z := by
          rw [htake, List.append_assoc, List.take_append_drop]
          exact hx
        have hagrees' : data.drop n <+: tail.drop n ∨ tail.drop n <+: data.drop n :=
          hagrees.imp (List.IsPrefix.drop · n) (List.IsPrefix.drop · n)
        have hlen' := Nat.lt_of_le_of_lt (List.drop_sublist n data).length_le hlen
        rcases ih _ (hmeasure ▸ hless) hlen' hrest hagrees' hw₁ rfl with
          ⟨tail', handed', w', hreturns, htail, hw'⟩ | ⟨rest, before, last, w', hdata', hlast, hiff⟩
        · refine Or.inl ⟨tail', handed', w', (returns_of_next hround).mpr hreturns, ?_, ?_⟩
          · rw [← List.take_append_drop n tail, htail, ← List.append_assoc, ← htake,
              List.take_append_drop]
          · rw [List.append_assoc, List.take_append_drop] at hw'
            exact hw'
        · refine Or.inr ⟨rest, before, last, w', ?_, hlast.next hround, hiff⟩
          rw [← List.take_append_drop n data, hdata', htake, ← List.append_assoc,
            List.take_append_drop]
      · exact Or.inr hends

/-- The end of a stream in a run: the call in which it is reported, with the
bytes behind the stream still to come. -/
structure Ends (codec : Codec Z) (cont : Continuation Z (Reader κ)) (content : Bytes)
    (w : ReaderWorld Z κ) (spans : List Bytes) (rest before last : Bytes)
    (w' : ReaderWorld Z κ) : Prop where
  call : ∃ earlier span future w₁ left, spans = earlier ++ span :: future ∧
    codec.Processes cont w earlier w₁ ∧ left ++ future.flatten = rest ∧
    LastRound codec cont content span w₁ before last left w'

theorem ends_of_within (hcodec : StreamCodec codec R) (hp : p.plainData = []) {z rest : Bytes}
    (hz : R.Complete z) (hquiet : ∀ atom ∈ p.reads (R.content z), ¬ Deactivates atom)
    {spans : List Bytes} (hshort : ∀ span ∈ spans, span.length < Zlib.uIntLimit)
    (hx : x ++ tail = z) (hspans : spans.flatten = tail ++ rest) (hw : Within R p z x handed w) :
    (rest = [] ∧ ∃ w', codec.Processes (deliver codec send others callback) w spans w' ∧
        w'.engaged = true ∧ w'.outer.received.flatten <+: R.content z ∧
        w'.outer.received.flatten ≠ R.content z) ∨
      ∃ before last w', Ends codec (deliver codec send others callback) (R.content z) w spans rest
        before last w' ∧ (w'.engaged = false ↔ EndsQuietly p before last) := by
  induction spans generalizing x tail handed w with
  | nil =>
      obtain ⟨rfl, rfl⟩ := List.append_eq_nil_iff.mp hspans.symm
      rw [List.append_nil] at hx
      subst hx
      refine Or.inl ⟨rfl, w, rfl, hw.engaged, hw.received ▸ hw.part, ?_⟩
      rw [hw.received]
      exact hcodec.owes _ handed w.inner hw.has hz
  | cons span spans ih =>
      obtain ⟨hlen, hshort⟩ := List.forall_mem_cons.mp hshort
      rw [List.flatten_cons] at hspans
      have hagrees : span <+: tail ∨ tail <+: span :=
        List.prefix_or_prefix_of_prefix (List.prefix_append span spans.flatten)
          (hspans ▸ List.prefix_append tail rest)
      have hcall : (∃ tail' handed' w', codec.Transforms (deliver codec send others callback) span w
          (.done () w') ∧ _) ∨ _ := call_cases hcodec hp hz hquiet hlen hx hagrees hw
      rcases hcall with ⟨tail', handed', w₁, hreturns, rfl, hw₁⟩ |
        ⟨left, before, last, w', rfl, hlast, hiff⟩
      · rw [List.append_assoc] at hspans
        have hx' : (x ++ span) ++ tail' = z := by rw [List.append_assoc, hx]
        rcases ih hshort hx' (List.append_cancel_left hspans) hw₁ with
          ⟨hrest, w', hprocesses, howes⟩ |
          ⟨before, last, w', ⟨earlier, span', future, w₂, left, rfl, hprocesses, hlater⟩, hiff⟩
        · exact Or.inl ⟨hrest, w', ⟨w₁, hreturns, hprocesses⟩, howes⟩
        · exact Or.inr ⟨before, last, w', ⟨span :: earlier, span', future, w₂, left, rfl,
            ⟨w₁, hreturns, hprocesses⟩, hlater⟩, hiff⟩
      · rw [List.append_assoc] at hspans
        exact Or.inr ⟨before, last, w', ⟨[], tail ++ left, spans, w, left, rfl, rfl,
          List.append_cancel_left hspans, hlast⟩, hiff⟩

end Rounds

/-- The world in which a stream begins: the codec has been started, and the
client is active. -/
def started (p : Parser) (s : Z) (x : κ) : ReaderWorld Z κ :=
  { engaged := true, inner := s, outer := { parser := p, state := .active, app := x } }

/-- Whatever a compressed stream contains, however it is split and however its
content is grouped into calls: the codec is disengaged behind the round that
reports the end exactly when the call with that report hands the client no
subnegotiation. There is such a round unless nothing has been received behind
the stream and a part of the content has not been handed on yet. -/
theorem processes_disengages_iff {S : Type} {lib : Zlib.Inflate S} {R : Zlib.Reading S}
    (hlib : Zlib.InflateLaws lib R) (hstreams : Zlib.StreamLaws lib R) (send : Element → κ → κ)
    (others : Session κ) (callback : Bytes → κ → κ) (x : κ) {p : Parser} (hp : p.plainData = [])
    {z : Bytes} (hz : R.Complete z)
    (hquiet : ∀ atom ∈ p.reads (R.content z), ¬ Deactivates atom) {spans : List Bytes}
    (hshort : ∀ span ∈ spans, span.length < Zlib.uIntLimit) {rest : Bytes}
    (hspans : spans.flatten = z ++ rest) :
    let codec := Zlib.decompressor lib
    let cont := deliver codec send others callback
    (rest = [] ∧ ∃ w', codec.Processes cont (started p none x) spans w' ∧ w'.engaged = true ∧
        w'.outer.received.flatten <+: R.content z ∧ w'.outer.received.flatten ≠ R.content z) ∨
      ∃ before last w', Ends codec cont (R.content z) (started p none x) spans rest before last w' ∧
        (w'.engaged = false ↔ EndsQuietly p before last) := by
  have hbegin : Within (R.streaming lib) p z [] [] (started p none x) :=
    ⟨rfl, hp, rfl, ⟨Zlib.open_none R, hlib.taken_init, hlib.written_init, List.nil_prefix⟩,
      (Parser.after_nil hp).symm, rfl, List.nil_prefix⟩
  exact ends_of_within (Zlib.streamCodec_decompressor hlib hstreams) hp hz hquiet hshort
    (List.nil_append z) hspans hbegin

/-! ## A stream that contains the mark -/

/-- The start subnegotiation, as zlib stores it. -/
def restartTape : Zlib.Tape where
  cells := [(0x78, []), (0x01, []), (0x01, []), (0x05, []), (0x00, []), (0xFA, []), (0xFF, []),
    (0xFF, [0xFF]), (0xFA, [0xFA]), (0x56, [0x56]), (0xFF, [0xFF]), (0xF0, [0xF0]), (0x0C, []),
    (0xD8, []), (0x04, []), (0x3F, [])]

/-- All of the content is handed on before the last byte of the stream, which
comes with a byte behind it. -/
theorem processes_disengages_late :
    let codec := Zlib.decompressor restartTape.library
    let cont := deliver codec (fun (_ : Element) (n : ℕ) => n) {} fun _ n => n
    ∃ before last w', Ends codec cont [0xFF, 0xFA, 0x56, 0xFF, 0xF0] (started {} none 0)
      [restartTape.bytes.take 15, [0x3F, 0x42]] [0x42] before last w' ∧
      (w'.engaged = false ↔ EndsQuietly {} before last) :=
  (processes_disengages_iff restartTape.laws restartTape.streamLaws (fun _ n => n) {}
    (fun _ n => n) 0 rfl ⟨rfl, rfl⟩ (by decide) (by decide) rfl).resolve_left
      fun howes => List.cons_ne_nil _ _ howes.1

/-- Taken in one call, the content is handed on with the report of the end, and
the codec is engaged for the bytes behind it. -/
theorem restart_stays_engaged :
    ∃ w', (Zlib.decompressor restartTape.library).round
        (deliver (Zlib.decompressor restartTape.library) (fun _ n => n) {} fun _ n => n)
        (restartTape.bytes ++ [0x42], started {} none (0 : ℕ)) = .next ([0x42], w') ∧
      w'.outer.received = [[0xFF, 0xFA, 0x56, 0xFF, 0xF0]] ∧ w'.engaged = true :=
  ⟨_, rfl, rfl, rfl⟩

end Receiver

end Telnetpp.Mccp
