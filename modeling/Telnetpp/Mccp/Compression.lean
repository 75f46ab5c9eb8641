import Telnetpp.Foundation.Fuel
import Telnetpp.Mccp.Delivery
import Telnetpp.Mccp.RoundTrip
import Telnetpp.Mccp.Transport

/-!
# Compression with zlib from end to end

A session writes through the compressor, and the decompressor of another
session reads what comes out. Either may hold output back when a call returns,
so what is heard is a part of what was written, and all of it when neither does.
-/

namespace Telnetpp.Mccp.Zlib

open Foundation Sender Receiver

variable {S T κ : Type}

/-! ## The end that writes -/

section Writes

variable {deflater : Deflate T} {W : Writing T} {base data span : Bytes}
  {w : LineWorld (Option (ZStream T))}

/-- A write of the channel comes to what the call of the codec does. -/
theorem settles_channelWrite {Z : Type} {codec : Codec Z} {w w' : LineWorld Z}
    (hfailure : w.outer.failure = none)
    (h : codec.Transforms toSocket span w (.done () w')) :
    Settles (fun fuel => channelWrite codec fuel span w) w' := by
  obtain ⟨enough, hloop⟩ := h
  refine ⟨enough, ?_⟩
  intro fuel hle
  have hend := loop_of_le hloop (by omega : enough ≤ fuel + span.length + 1)
  change attempt _ w = w'
  rw [attempt, if_pos hfailure, Codec.operator, hend]
  rfl

theorem transforms_plain {Z : Type} (codec : Codec Z) {y : Z} {w : LineWorld Z}
    (h : Plain y base w) (span : Bytes) :
    ∃ w', codec.Transforms toSocket span w (.done () w') ∧ Plain y (base ++ span) w' := by
  have hcall : ∃ w', codec.Transforms toSocket span w (.done () w') ∧
      ∃ sent, sent ++ [] = span ∧ Plain y (base ++ sent) w' := by
    apply Codec.transforms_of_rounds
      (I := fun rest w' => ∃ sent, sent ++ rest = span ∧ Plain y (base ++ sent) w')
    · rintro rest w' hrest ⟨sent, hsent, hw'⟩
      refine ⟨1, _, Nat.one_pos, Codec.round_of_passed hrest hw'.engaged rfl,
        sent ++ rest.take 1, ?_, hw'.engaged, hw'.failure, hw'.inner, ?_⟩
      · rw [List.append_assoc, List.take_append_drop, hsent]
      · change w'.outer.socket ++ rest.take 1 = _
        rw [hw'.socket, List.append_assoc]
    · exact ⟨[], rfl, by rwa [List.append_nil]⟩
  obtain ⟨w', hreturns, sent, hsent, hw'⟩ := hcall
  rw [List.append_nil] at hsent
  exact ⟨w', hreturns, hsent ▸ hw'⟩

/-- The compressor has been given the data, and behind `base` the socket has what
the library has written. -/
structure Deflating (W : Writing T) (deflater : Deflate T) (base data : Bytes)
    (w : LineWorld (Option (ZStream T))) : Prop where
  engaged : w.engaged = true
  failure : w.outer.failure = none
  valid : W.Valid (deflating deflater w.inner)
  taken : W.taken (deflating deflater w.inner) = data
  socket : w.outer.socket = base ++ W.written (deflating deflater w.inner)

/-- If nothing is pending, the output decodes to the data. -/
def Flushed (W : Writing T) (deflater : Deflate T) (w : LineWorld (Option (ZStream T))) : Prop :=
  W.pending (deflating deflater w.inner) = [] →
    W.Decodes (W.written (deflating deflater w.inner)) (W.taken (deflating deflater w.inner))

theorem Deflating.round (hlib : DeflateLaws deflater W) (fuel : ℕ)
    (h : Deflating W deflater base data w) (hspan : span ≠ []) (hlen : span.length < uIntLimit) :
    let r := flushReply deflater span w
    ∃ w', (compressor deflater fuel).round toSocket (span, w) = .next (span.drop r.consumed, w') ∧
      deflating deflater w'.inner = r.state ∧
      Deflating W deflater base (data ++ span.take r.consumed) w' ∧
      (span.drop r.consumed = [] → Flushed W deflater w') := by
  intro r
  have hflush : LawfulFlush W (deflating deflater w.inner) span outputBufferSize r :=
    hlib.call _ _ _ h.valid hspan (by decide)
  refine ⟨_, round_compressed fuel _ h.engaged hspan hlen hflush, rfl,
    ⟨rfl, h.failure, hflush.valid, ?_, ?_⟩, ?_⟩
  · exact hflush.taken.trans (congrArg (· ++ _) h.taken)
  · change w.outer.socket ++ r.produced = base ++ W.written r.state
    rw [h.socket, hflush.written, List.append_assoc]
  · intro hall hpending
    apply hflush.decodes _ hpending
    exact Nat.le_antisymm hflush.consumed_le (List.drop_eq_nil_iff.mp hall)

theorem Deflating.transforms (hlib : DeflateLaws deflater W) (fuel : ℕ) {backlog : T → ℕ}
    (hdrains : Drains deflater W backlog) (h : Deflating W deflater base data w)
    (hflushed : Flushed W deflater w) (hlen : span.length < uIntLimit) :
    ∃ w', (compressor deflater fuel).Transforms toSocket span w (.done () w') ∧
      Deflating W deflater base (data ++ span) w' ∧ Flushed W deflater w' := by
  let I (s : Bytes × LineWorld (Option (ZStream T))) : Prop := s.1.length < uIntLimit ∧
    (∃ before, before ++ s.1 = span ∧ Deflating W deflater base (data ++ before) s.2) ∧
    (s.1 = [] → Flushed W deflater s.2)
  have hstart : I (span, w) := by
    refine ⟨hlen, ⟨[], rfl, ?_⟩, fun _ => hflushed⟩
    rwa [List.append_nil]
  have hnext (s s' : Bytes × LineWorld (Option (ZStream T))) (hs : I s)
      (hround : (compressor deflater fuel).round toSocket s = .next s') :
      I s' ∧ WellFoundedRelation.rel (s'.1.length, backlog (deflating deflater s'.2.inner))
        (s.1.length, backlog (deflating deflater s.2.inner)) := by
    obtain ⟨rest, w₁⟩ := s
    obtain ⟨hshort, ⟨before, hbefore, hw₁⟩, -⟩ := hs
    have hrest : rest ≠ [] := Codec.ne_nil_of_round_next hround
    obtain ⟨w₂, hround', hstate, hw₂, hdone⟩ := hw₁.round hlib fuel hrest hshort
    obtain rfl := Round.next.inj (hround.symm.trans hround')
    refine ⟨⟨?_, ⟨before ++ rest.take (flushReply deflater rest w₁).consumed, ?_, ?_⟩, hdone⟩, ?_⟩
    · exact Nat.lt_of_le_of_lt (List.drop_sublist _ _).length_le hshort
    · rw [List.append_assoc, List.take_append_drop, hbefore]
    · rwa [← List.append_assoc]
    · rcases Nat.eq_zero_or_pos (flushReply deflater rest w₁).consumed with hnone | htaken
      · have hless := hdrains _ _ _ hw₁.valid hrest (by decide) hnone
        rw [hstate, hnone, List.drop_zero]
        exact Prod.Lex.right _ hless
      · have hpos := List.length_pos_of_ne_nil hrest
        apply Prod.Lex.left
        change (rest.drop (flushReply deflater rest w₁).consumed).length < rest.length
        rw [List.length_drop]
        omega
  obtain ⟨o, hreturns⟩ := returns_of_measure (I := I)
    (m := fun s => (s.1.length, backlog (deflating deflater s.2.inner))) hnext hstart
  have hsatisfies : ∃ w', o = .done () w' ∧ Deflating W deflater base (data ++ span) w' ∧
      Flushed W deflater w' := by
    apply hreturns.satisfies (Q := fun o => ∃ w', o = .done () w' ∧
      Deflating W deflater base (data ++ span) w' ∧ Flushed W deflater w')
      (fun s s' hs hround => (hnext s s' hs hround).1) _ hstart
    rintro ⟨rest, w₁⟩ o ⟨hshort, ⟨before, hbefore, hw₁⟩, hdone⟩ hexit
    by_cases hrest : rest = []
    · subst hrest
      rw [Codec.round_nil] at hexit
      rw [List.append_nil] at hbefore
      exact ⟨w₁, (Round.exit.inj hexit).symm, hbefore ▸ hw₁, hdone rfl⟩
    · obtain ⟨w₂, hround, -⟩ := hw₁.round hlib fuel hrest hshort
      exact nomatch hround.symm.trans hexit
  obtain ⟨w', rfl, hw', hflushed'⟩ := hsatisfies
  exact ⟨w', hreturns, hw', hflushed'⟩

/-- What is on the socket once compression has been started and elements written. -/
theorem settles_startCompression (hlib : DeflateLaws deflater W) (fuel : ℕ)
    (hactive : w.outer.state = .active) (hplain : Plain none w.outer.socket w) :
    ∃ w', Settles (fun n => startCompression (compressor deflater fuel) n w) w' ∧
      Deflating W deflater (w.outer.socket ++ startMark) [] w' ∧ Flushed W deflater w' := by
  obtain ⟨w₁, hcall₁, hw₁⟩ :=
    transforms_plain (compressor deflater fuel) hplain [iac, sb, option]
  obtain ⟨w₂, hcall₂, hw₂⟩ := transforms_plain (compressor deflater fuel) hw₁ [iac, se]
  have hmark : Settles (fun n =>
      (Sender.server (compressor deflater fuel) n).writeSubnegotiation [] w) w₂ :=
    (settles_channelWrite hplain.failure hcall₁).bind
      (g := fun n w => channelWrite (compressor deflater fuel) n [iac, se] w)
      (settles_channelWrite hw₁.failure hcall₂)
  have hserver (n : ℕ) : (Sender.server (compressor deflater fuel) n).active w = true := by
    rw [TelnetOption.active, beq_iff_eq]
    exact hactive
  obtain ⟨enough, hmark⟩ := hmark
  refine ⟨setCompressionActive true ((compressor deflater fuel).start w₂), ⟨enough, ?_⟩, ?_⟩
  · intro n hle
    have hsent : (Sender.server (compressor deflater fuel) n).writeSubnegotiation [] w = w₂ :=
      hmark n hle
    change startCompression (compressor deflater fuel) n w = _
    rw [startCompression, if_pos (hserver n), hsent, attempt, if_pos hw₂.failure]
  · have hfresh : deflating deflater w₂.inner = deflater.init := by
      rw [hw₂.inner]
      rfl
    refine ⟨⟨rfl, hw₂.failure, ?_, ?_, ?_⟩, ?_⟩
    · exact hfresh ▸ hlib.valid_init
    · exact hfresh ▸ hlib.taken_init
    · change w₂.outer.socket = _ ++ W.written (deflating deflater w₂.inner)
      rw [hfresh, hlib.written_init, hw₂.socket, List.append_nil, List.append_assoc]
      rfl
    · intro _
      change W.Decodes (W.written (deflating deflater w₂.inner))
        (W.taken (deflating deflater w₂.inner))
      rw [hfresh, hlib.written_init, hlib.taken_init]
      exact hlib.decodes_nil

/-- The spans that a session writes for an element are not too long for zlib. -/
def Short (elem : Element) : Prop := ∀ span ∈ generate elem, span.length < uIntLimit

theorem settles_writes (hlib : DeflateLaws deflater W) (fuel : ℕ) {backlog : T → ℕ}
    (hdrains : Drains deflater W backlog) (h : Deflating W deflater base data w)
    (hflushed : Flushed W deflater w) {elems : List Element} (helems : ∀ elem ∈ elems, Short elem) :
    ∃ w', Settles (fun n => writes (compressor deflater fuel) n elems w) w' ∧
      Deflating W deflater base (data ++ elems.flatMap wire) w' ∧ Flushed W deflater w' := by
  let I (data : Bytes) (w : LineWorld (Option (ZStream T))) : Prop :=
    Deflating W deflater base data w ∧ Flushed W deflater w
  have hspan {data span : Bytes} {w : LineWorld (Option (ZStream T))}
      (hlen : span.length < uIntLimit) (hw : I data w) :
      ∃ w', Settles (fun n => channelWrite (compressor deflater fuel) n span w) w' ∧
        I (data ++ id span) w' := by
    obtain ⟨w', hcall, hw'⟩ := hw.1.transforms hlib fuel hdrains hw.2 hlen
    exact ⟨w', settles_channelWrite hw.1.failure hcall, hw'⟩
  have helem {data : Bytes} {elem : Element} {w : LineWorld (Option (ZStream T))}
      (hshort : Short elem) (hw : I data w) :
      ∃ w', Settles (fun n => write (compressor deflater fuel) n elem w) w' ∧
        I (data ++ wire elem) w' := by
    have hspans : ∃ w', Settles (fun n => write (compressor deflater fuel) n elem w) w' ∧
        I (data ++ (generate elem).flatMap id) w' := settles_run hspan hshort hw
    rwa [List.flatMap_id] at hspans
  have hall : ∃ w', Settles (fun n => writes (compressor deflater fuel) n elems w) w' ∧
      I (data ++ elems.flatMap wire) w' := settles_run helem helems ⟨h, hflushed⟩
  exact hall

end Writes

/-! ## The end that reads -/

section Reads

variable {deflater : Deflate T} {W : Writing T} {inflater : Inflate S} {R : Reading S}

/-- The decompressor decodes what the library on the other side has written. -/
theorem decodes_decompressor (hinflate : InflateLaws inflater R)
    (hpair : RoundTrip deflater W inflater R) {t : T} (ht : W.Valid t) :
    Decodes (decompressor inflater) (fun stream => stream = none) (Inflating R inflater)
      (fun data => data.length < uIntLimit) (W.written t) (W.taken t) where
  start := by
    rintro _ rfl
    refine ⟨open_none R, hinflate.taken_init, hinflate.written_init, List.nil_prefix⟩
  transform := by
    rintro x rest y data stream h hsplit ⟨future, rfl⟩ hdata hlen
    obtain ⟨trailer, htrailer, hcomplete, -⟩ := hpair.finishes t ht
    let r := inflater.inflate (inflating inflater stream) data receiveBufferSize
    have hchunk : inflateChunk inflater data (inflating inflater stream) = r :=
      inflateChunk_of_lt inflater hlen _
    have hvalid : R.Valid (inflating inflater stream) :=
      (open_inflating hinflate h.stays).1
    have hlawful : LawfulReply R (inflating inflater stream) data receiveBufferSize r :=
      hinflate.call _ _ _ hvalid hdata (by decide)
    have hok : r.response = .ok := by
      apply hpair.accepts _ _ (future ++ trailer) _ hvalid hdata (by decide)
      · exact List.append_ne_nil_of_right_ne_nil _ htrailer
      · rw [h.taken]
        simpa only [← hsplit, List.append_assoc] using hcomplete
    have hinflated : decompressChunk inflater data stream = _ := decompressChunk_inflated hlen
      (hchunk ▸ hlawful.consumed_le) (Or.inl (hchunk ▸ hok))
    rw [hchunk] at hinflated
    refine ⟨r.consumed, [⟨r.produced, false⟩], some ⟨r.state, data.length - r.consumed⟩, ?_,
      hlawful.consumed_le, ?_, ?_, ?_⟩
    · change (decompressChunk inflater data stream).alone = _
      rw [hinflated]
      simp [hok, Program.alone]
    · simpa using hlawful.progress hok
    · exact List.forall_mem_singleton.mpr rfl
    · refine ⟨?_, ?_, ?_, ?_⟩
      · rintro st ⟨⟩
        exact ⟨hlawful.valid, hlawful.notEnd (by simp [hok])⟩
      · change R.taken r.state = _
        rw [hlawful.taken, h.taken]
      · change R.written r.state = _
        rw [hlawful.written, h.written, List.flatMap_singleton]
      · rw [List.flatMap_singleton, ← h.written, ← h.taken, ← hlawful.written, ← hlawful.taken]
        exact hlawful.determined
  within := by
    rintro x rest y stream h hsplit
    obtain ⟨trailer, -, -, hcontent⟩ := hpair.finishes t ht
    rw [← hcontent, ← hsplit, List.append_assoc]
    exact h.determined.trans (hpair.content_append x (rest ++ trailer))

/-- Nothing is owed exactly when all of the content has been handed on. -/
theorem Inflating.owed_eq_zero_iff (hinflate : InflateLaws inflater R) {x y : Bytes}
    {stream : Option (ZStream S)} (h : Inflating R inflater x y stream) :
    owed R stream = 0 ↔ y = R.content x := by
  rw [owed_eq hinflate, h.taken, h.written, Nat.sub_eq_zero_iff_le]
  constructor
  · exact h.determined.eq_of_length_le
  · rintro rfl
    exact Nat.le_refl _

end Reads

/-! ## Both ends -/

/-- Compression is started with zlib and elements are written that do not
concern the option. With enough rounds every write comes back, and behind what
was on the socket before there is a stream that a session with an active client
behind the decompressor hears as far as it has come, however it is cut, with the
decompressor engaged from the end of the mark on. Once
all has come and the compressor holds nothing back, all of it has been heard
exactly if the decompressor holds nothing back either. -/
theorem zlib_heard {deflater : Deflate T} {W : Writing T} {inflater : Inflate S} {R : Reading S}
    (hdeflate : DeflateLaws deflater W) (hinflate : InflateLaws inflater R)
    (hpair : RoundTrip deflater W inflater R) {w : LineWorld (Option (ZStream T))}
    (hstate : w.outer.state = .active) (hengaged : w.engaged = false) (hstream : w.inner = none)
    (hfailure : w.outer.failure = none) (fuel : ℕ) {elems : List Element}
    (hforeign : ∀ elem ∈ elems, Foreign elem) (hshort : ∀ elem ∈ elems, Short elem)
    (send : Element → κ → κ) (others : Session κ) (callback : Bytes → κ → κ) (x : κ) :
    ∃ enough, ∀ n, enough ≤ n →
      let w' := writes (compressor deflater fuel) n elems
        (startCompression (compressor deflater fuel) n w)
      w'.outer.failure = none ∧ ∃ sent, w'.outer.socket = w.outer.socket ++ sent ∧
        ∀ (spans : List Bytes) (future : Bytes), (∀ span ∈ spans, span.length < uIntLimit) →
          spans.flatten ++ future = sent →
          ∃ r, (decompressor inflater).Processes
              (deliver (decompressor inflater) send others callback) (receiving {} none x) spans r ∧
            r.outer.received.flatten <+: startMark ++ elems.flatMap wire ∧
            r.outer.events.flatMap Element.atoms = ({} : Parser).reads r.outer.received.flatten ∧
            (startMark.length ≤ spans.flatten.length → r.engaged = true) ∧
            (future = [] → W.pending (deflating deflater w'.inner) = [] →
              (owed R r.inner = 0 ↔
                r.outer.received.flatten = startMark ++ elems.flatMap wire)) ∧
            (r.outer.received.flatten = startMark ++ elems.flatMap wire →
              coalesce r.outer.events = coalesce (.subnegotiation ⟨option, []⟩ :: elems)) := by
  obtain ⟨backlog, hdrains⟩ := hpair.drains
  obtain ⟨w₁, hstarts, hw₁, hflushed₁⟩ := settles_startCompression hdeflate fuel hstate
    ⟨hengaged, hfailure, hstream, rfl⟩
  obtain ⟨w₂, hwrites, hw₂, hflushed₂⟩ :=
    settles_writes hdeflate fuel hdrains hw₁ hflushed₁ hshort
  obtain ⟨enough, hsettles⟩ := hstarts.bind
    (g := fun n w => writes (compressor deflater fuel) n elems w) hwrites
  refine ⟨enough, ?_⟩
  intro n hle w'
  obtain rfl : w' = w₂ := hsettles n hle
  refine ⟨hw₂.failure, startMark ++ W.written (deflating deflater w'.inner), ?_, ?_⟩
  · rw [hw₂.socket, List.append_assoc]
  intro spans future hspans hall
  have hdata : W.taken (deflating deflater w'.inner) = elems.flatMap wire := hw₂.taken
  have hdecodes := decodes_decompressor hinflate hpair hw₂.valid
  rw [hdata] at hdecodes
  obtain ⟨r, hprocesses, hstage⟩ := processes_open hdecodes send others callback x rfl
    (calm_wire hforeign) (fun _ _ hlen => Nat.lt_of_le_of_lt (List.drop_sublist _ _).length_le hlen)
    hspans hall
  obtain ⟨data, hheard, hprefix, hend⟩ := hstage.heard hdecodes
  obtain rfl := hheard.received
  refine ⟨r, hprocesses, hprefix, hheard.events, hstage.engaged hall, ?_, ?_⟩
  · intro hfuture hpending
    obtain ⟨-, y, hy, hreceived⟩ := hend hfuture
    have hcontent := hpair.decodes _ hw₂.valid (hflushed₂ hpending)
    rw [hy.owed_eq_zero_iff hinflate, hcontent, hdata, hreceived, List.append_cancel_left_eq]
  · intro hreceived
    rw [coalesce_eq_iff, hheard.events, hreceived,
      (reads_behind_mark fun elem helem => (hforeign elem helem).1).2]

/-- Bytes that zlib stores. -/
theorem zlib_heard_stored :
    let elems : List Element := [.bytes [0x91, 0xE4, 0xA2, 0xC7, 0xF3, 0x9B, 0xD8, 0xB5, 0xEE, 0x97,
      0xC1, 0xAD, 0xF9, 0xD2, 0x9E, 0xB8, 0xE7, 0xA6, 0xCC, 0xF0, 0x94, 0xDB, 0xB1, 0xEA]]
    ∃ enough, ∀ n, enough ≤ n →
      let w' := writes (compressor Stored.library 1) n elems
        (startCompression (compressor Stored.library 1) n
          ⟨false, none, { state := .active, socket := [104, 105] }, []⟩)
      w'.outer.failure = none ∧ ∃ sent, w'.outer.socket = [104, 105] ++ sent ∧
        ∀ (spans : List Bytes) (future : Bytes), (∀ span ∈ spans, span.length < uIntLimit) →
          spans.flatten ++ future = sent →
          ∃ r, (decompressor Stored.format.library).Processes
              (deliver (decompressor Stored.format.library) (fun _ n => n) {} fun _ n => n + 1)
              (receiving {} none 0) spans r ∧
            r.outer.received.flatten <+: startMark ++ elems.flatMap wire ∧
            r.outer.events.flatMap Element.atoms = ({} : Parser).reads r.outer.received.flatten ∧
            (startMark.length ≤ spans.flatten.length → r.engaged = true) ∧
            (future = [] → Stored.readable.pending (deflating Stored.library w'.inner) = [] →
              (owed Stored.format.reading r.inner = 0 ↔
                r.outer.received.flatten = startMark ++ elems.flatMap wire)) ∧
            (r.outer.received.flatten = startMark ++ elems.flatMap wire →
              coalesce r.outer.events = coalesce (.subnegotiation ⟨option, []⟩ :: elems)) :=
  zlib_heard Stored.laws_readable Stored.format.laws Stored.roundTrip rfl rfl rfl rfl 1
    (by simp [Foreign, Element.WellFormed]) (by simp [Short]; decide) (fun _ n => n) {}
    (fun _ n => n + 1) 0

end Telnetpp.Mccp.Zlib
