import Telnetpp.Ends
import Telnetpp.Mccp.Sender
import Telnetpp.Mccp.Switching

/-!
# Compression from end to end

A session writes through its codec, and what comes out of it goes through the
codec of another session. If one codec undoes the other, then from the start
mark on the one session hears what the other has written, wherever the stream
is cut.
-/

namespace Telnetpp.Mccp

open Foundation

/-- A compressor for streams that are read in this way. `Made data out y` says
that the codec has come to the state `y` with the data of a stream and has put
out its bytes so far; no data is withheld, and the stream is still open. -/
structure Encodes {Y Z : Type} (codec : Codec Y) (R : Transforming Z)
    (Made : Bytes → Bytes → Y → Prop) : Prop where
  transform : ∀ {data out y}, Made data out y → ∀ span, span ≠ [] →
    ∃ n chunks y', (codec.transformChunk span y).alone = (chunks, .done (span.drop n) y') ∧
      0 < n ∧ (∀ chunk ∈ chunks, chunk.ended = false) ∧
      Made (data ++ span.take n) (out ++ chunks.flatMap Chunk.data) y'
  content : ∀ {data out y}, Made data out y → R.content out = data
  further : ∀ {data out y}, Made data out y → ∃ later, later ≠ [] ∧ R.Complete (out ++ later)

/-- A call whose every round advances comes back within a round for every byte. -/
theorem Codec.operator_of_rounds {Z κ : Type} {codec : Codec Z} {cont : Continuation Z κ}
    {I : Bytes → CodecWorld Z κ → Prop}
    (hround : ∀ data w, data ≠ [] → I data w →
      ∃ n w', 0 < n ∧ codec.round cont (data, w) = .next (data.drop n, w') ∧ I (data.drop n) w')
    {fuel : ℕ} {data : Bytes} (hfuel : data.length < fuel) {w : CodecWorld Z κ} (hw : I data w) :
    ∃ w', codec.operator cont fuel data w = .done () w' ∧ I [] w' := by
  have hloop : ∃ w', loop (codec.round cont) fuel (data, w) = some (.done () w') ∧ I [] w' := by
    induction fuel generalizing data w with
    | zero => exact absurd hfuel (Nat.not_lt_zero _)
    | succ fuel ih =>
        rw [loop]
        by_cases hdata : data = []
        · subst hdata
          rw [Codec.round_nil]
          exact ⟨w, rfl, hw⟩
        · obtain ⟨n, w₁, hn, hnext, hw₁⟩ := hround data w hdata hw
          have hpos := List.length_pos_of_ne_nil hdata
          rw [hnext]
          apply ih _ hw₁
          rw [List.length_drop]
          omega
  obtain ⟨w', hw', hI⟩ := hloop
  refine ⟨w', ?_, hI⟩
  rw [Codec.operator, hw', Option.getD_some]

/-- Calls whose every round uses up data, or decreases a measure, come back. -/
theorem Codec.processes_of_measure {Z κ : Type} {codec : Codec Z} {cont : Continuation Z κ}
    {S : Bytes → Prop} {I : Bytes → CodecWorld Z κ → Prop} (m : CodecWorld Z κ → ℕ)
    (hdrop : ∀ data n, S data → S (data.drop n))
    (hround : ∀ data future w, data ≠ [] → S data → I (data ++ future) w →
      ∃ n w', (data.drop n).length + m w' < data.length + m w ∧
        codec.round cont (data, w) = .next (data.drop n, w') ∧ I (data.drop n ++ future) w')
    {spans : List Bytes} (hspans : ∀ span ∈ spans, S span) {w : CodecWorld Z κ}
    (hw : I spans.flatten w) : ∃ w', codec.Processes cont w spans w' ∧ I [] w' := by
  have hcall (data future : Bytes) (w : CodecWorld Z κ) (hS : S data) (hw : I (data ++ future) w) :
      ∃ w', codec.Transforms cont data w (.done () w') ∧ I future w' := by
    induction hmeasure : data.length + m w using Nat.strongRecOn generalizing data w with
    | ind bound ih =>
        by_cases hdata : data = []
        · subst hdata
          exact ⟨w, (returns_of_exit Codec.round_nil).mpr rfl, hw⟩
        · obtain ⟨n, w₁, hless, hnext, hw₁⟩ := hround data future w hdata hS hw
          obtain ⟨w', hreturns, hw'⟩ := ih _ (hmeasure ▸ hless) _ _ (hdrop _ n hS) hw₁ rfl
          exact ⟨w', (returns_of_next hnext).mpr hreturns, hw'⟩
  induction spans generalizing w with
  | nil => exact ⟨w, rfl, hw⟩
  | cons data spans ih =>
      obtain ⟨hdata, hspans⟩ := List.forall_mem_cons.mp hspans
      obtain ⟨w₁, hreturns, hw₁⟩ := hcall data spans.flatten w hdata hw
      obtain ⟨w', hprocesses, hw'⟩ := ih hspans hw₁
      exact ⟨w', ⟨w₁, hreturns, hprocesses⟩, hw'⟩

/-! ## The end that writes -/

namespace Sender

variable {Y Z : Type} {codec : Codec Y} {R : Transforming Z} {Made : Bytes → Bytes → Y → Prop}
  {base data : Bytes} {w : LineWorld Y}

/-- The codec is disengaged, and the socket has the bytes. -/
structure Plain (y : Y) (socket : Bytes) (w : LineWorld Y) : Prop where
  engaged : w.engaged = false
  failure : w.outer.failure = none
  inner : w.inner = y
  socket : w.outer.socket = socket

/-- The codec is engaged and has been given the data, and behind `base` the
socket has what the codec has made of it. -/
structure Compressed (Made : Bytes → Bytes → Y → Prop) (base data : Bytes) (w : LineWorld Y) :
    Prop where
  engaged : w.engaged = true
  failure : w.outer.failure = none
  made : ∃ out, Made data out w.inner ∧ w.outer.socket = base ++ out

theorem Plain.channelWrite {y : Y} {socket : Bytes} (h : Plain y socket w) (codec : Codec Y)
    (fuel : ℕ) (span : Bytes) :
    Plain y (socket ++ span) (channelWrite codec fuel span w) := by
  let I (rest : Bytes) (w' : LineWorld Y) : Prop := ∃ sent, sent ++ rest = span ∧
    Plain y (socket ++ sent) w'
  have hoperator : ∃ w', codec.operator toSocket (fuel + span.length + 1) span w = .done () w' ∧
      I [] w' := by
    apply Codec.operator_of_rounds (I := I) _ (by omega) ⟨[], rfl, by rwa [List.append_nil]⟩
    rintro rest w' hrest ⟨sent, hsent, hw'⟩
    refine ⟨1, _, Nat.one_pos, Codec.round_of_passed hrest hw'.engaged rfl,
      sent ++ rest.take 1, ?_, hw'.engaged, hw'.failure, hw'.inner, ?_⟩
    · rw [List.append_assoc, List.take_append_drop, hsent]
    · change w'.outer.socket ++ rest.take 1 = _
      rw [hw'.socket, List.append_assoc]
  obtain ⟨w', hw', sent, hsent, hplain⟩ := hoperator
  rw [List.append_nil] at hsent
  rw [Sender.channelWrite, attempt, if_pos h.failure, hw', ← hsent]
  exact hplain

theorem Compressed.round (hC : Encodes codec R Made) (h : Compressed Made base data w)
    {span : Bytes} (hspan : span ≠ []) :
    ∃ n w', 0 < n ∧ codec.round toSocket (span, w) = .next (span.drop n, w') ∧
      Compressed Made base (data ++ span.take n) w' := by
  obtain ⟨out, hmade, hsocket⟩ := h.made
  obtain ⟨n, chunks, y', halone, hn, hopen, hmade'⟩ := hC.transform hmade span hspan
  let I (left : List Chunk) (w' : LineWorld Y) : Prop := w'.engaged = true ∧
    w'.outer.failure = none ∧ (∀ chunk ∈ left, chunk.ended = false) ∧
      w'.outer.socket ++ left.flatMap Chunk.data = base ++ (out ++ chunks.flatMap Chunk.data)
  have hruns : ∃ w', Codec.run (Codec.forward toSocket) (codec.transformChunk span w.inner) w =
      .done (span.drop n) w' ∧ w'.inner = y' ∧ I [] w' := by
    apply Program.run_alone (I := I) _ _ _ halone
    · refine ⟨h.engaged, h.failure, hopen, ?_⟩
      rw [hsocket, List.append_assoc]
    · exact fun _ _ => rfl
    · exact fun _ _ _ hw => hw
    · rintro chunk left w' ⟨-, hfailure, hleft, hall⟩
      obtain ⟨hchunk, hleft⟩ := List.forall_mem_cons.mp hleft
      refine ⟨_, rfl, rfl, ?_, hfailure, hleft, ?_⟩
      · change (!chunk.ended) = true
        rw [hchunk]
        rfl
      · rw [← hall, List.flatMap_cons, ← List.append_assoc]
        rfl
  obtain ⟨w', hrun, hinner, hengaged, hfailure, -, hall⟩ := hruns
  rw [List.flatMap_nil, List.append_nil] at hall
  exact ⟨n, _, hn, Codec.round_of_done hspan h.engaged hrun, hengaged, hfailure, _,
    hinner ▸ hmade', hall⟩

theorem Compressed.channelWrite (hC : Encodes codec R Made) (h : Compressed Made base data w)
    (fuel : ℕ) (span : Bytes) :
    Compressed Made base (data ++ span) (channelWrite codec fuel span w) := by
  let I (rest : Bytes) (w' : LineWorld Y) : Prop := ∃ taken, taken ++ rest = span ∧
    Compressed Made base (data ++ taken) w'
  have hoperator : ∃ w', codec.operator toSocket (fuel + span.length + 1) span w = .done () w' ∧
      I [] w' := by
    apply Codec.operator_of_rounds (I := I) _ (by omega) ⟨[], rfl, by rwa [List.append_nil]⟩
    rintro rest w' hrest ⟨taken, htaken, hw'⟩
    obtain ⟨n, w'', hn, hnext, hw''⟩ := hw'.round hC hrest
    refine ⟨n, w'', hn, hnext, taken ++ rest.take n, ?_, ?_⟩
    · rw [List.append_assoc, List.take_append_drop, htaken]
    · rwa [← List.append_assoc]
  obtain ⟨w', hw', taken, htaken, hcompressed⟩ := hoperator
  rw [List.append_nil] at htaken
  rw [Sender.channelWrite, attempt, if_pos h.failure, hw', ← htaken]
  exact hcompressed

theorem Compressed.write (hC : Encodes codec R Made) (h : Compressed Made base data w)
    (fuel : ℕ) (elem : Element) :
    Compressed Made base (data ++ wire elem) (write codec fuel elem w) := by
  have hspans (spans : List Bytes) {data : Bytes} {w : LineWorld Y}
      (h : Compressed Made base data w) : Compressed Made base (data ++ spans.flatten)
        (run (fun w span => Sender.channelWrite codec fuel span w) w spans) := by
    induction spans generalizing data w with
    | nil => simpa using h
    | cons span spans ih =>
        have hrest := ih (h.channelWrite hC fuel span)
        rwa [List.append_assoc] at hrest
  exact hspans (generate elem) h

theorem Compressed.writes (hC : Encodes codec R Made) (h : Compressed Made base data w)
    (fuel : ℕ) (elems : List Element) :
    Compressed Made base (data ++ elems.flatMap wire) (writes codec fuel elems w) := by
  induction elems generalizing data w with
  | nil =>
      rw [List.flatMap_nil, List.append_nil]
      exact h
  | cons elem elems ih =>
      have hrest := ih (h.write hC fuel elem)
      rwa [List.append_assoc] at hrest

/-- The start mark is on the socket as it is, and all that follows is compressed. -/
theorem compressed_startCompression (fuel : ℕ) (hactive : w.outer.state = .active)
    (hplain : Plain w.inner w.outer.socket w) (hstart : Made [] [] (codec.doStart w.inner)) :
    Compressed Made (w.outer.socket ++ Receiver.startMark) []
      (startCompression codec fuel w) := by
  have hserver : (server codec fuel).active w = true := by
    rw [TelnetOption.active, beq_iff_eq]
    exact hactive
  have hmark : Plain w.inner (w.outer.socket ++ Receiver.startMark)
      ((server codec fuel).writeSubnegotiation [] w) := by
    have hwritten := (hplain.channelWrite codec fuel [iac, sb, option]).channelWrite codec fuel
      [iac, se]
    rwa [List.append_assoc] at hwritten
  rw [startCompression, if_pos hserver, attempt, if_pos hmark.failure]
  refine ⟨rfl, hmark.failure, [], ?_, ?_⟩
  · change Made [] [] (codec.doStart ((server codec fuel).writeSubnegotiation [] w).inner)
    rw [hmark.inner]
    exact hstart
  · rw [List.append_nil]
    exact hmark.socket

end Sender

/-! ## The end that reads -/

namespace Receiver

variable {Z κ : Type} {codec : Codec Z} {R : Transforming Z} {send : Element → κ → κ}
  {others : Session κ} {callback : Bytes → κ → κ} {w : ReaderWorld Z κ} {out : Bytes}

/-- The session has heard the bytes, and its client is still active. -/
structure Heard (data : Bytes) (w : ReaderWorld Z κ) : Prop where
  active : w.outer.state = .active
  parser : w.outer.parser = ({} : Parser).after data
  received : w.outer.received.flatten = data
  events : w.outer.events.flatMap Element.atoms = ({} : Parser).reads data

theorem Heard.append {data more : Bytes} (h : Heard data w) {w' : ReaderWorld Z κ}
    (hactive : w'.outer.state = .active) (hparser : w'.outer.parser = w.outer.parser.after more)
    (hreceived : w'.outer.received.flatten = w.outer.received.flatten ++ more)
    (hevents : w'.outer.events.flatMap Element.atoms =
      w.outer.events.flatMap Element.atoms ++ w.outer.parser.reads more) :
    Heard (data ++ more) w' := by
  have hp : ({} : Parser).plainData = [] := rfl
  refine ⟨hactive, ?_, ?_, ?_⟩
  · rw [hparser, h.parser, Parser.after_append hp data]
  · rw [hreceived, h.received]
  · rw [hevents, h.events, h.parser, Parser.reads_append hp data]

/-- A decoder that has been given a part of a stream and will be given the rest
of `out`. `Has x y` says that it has taken `x` and handed on `y` for it. -/
structure Decodes (codec : Codec Z) (Idle : Z → Prop) (Has : Bytes → Bytes → Z → Prop)
    (S : Bytes → Prop) (out content : Bytes) : Prop where
  start : ∀ s, Idle s → Has [] [] (codec.doStart s)
  transform : ∀ {x rest y data s}, Has x y s → x ++ rest = out → data <+: rest → data ≠ [] →
    S data → ∃ n chunks s', (codec.transformChunk data s).alone =
        (chunks, .done (data.drop n) s') ∧ n ≤ data.length ∧
      (0 < n ∨ chunks.flatMap Chunk.data ≠ []) ∧ (∀ chunk ∈ chunks, chunk.ended = false) ∧
      Has (x ++ data.take n) (y ++ chunks.flatMap Chunk.data) s'
  within : ∀ {x rest y s}, Has x y s → x ++ rest = out → y <+: content

/-- How far a mark and the compressed bytes behind it have come: some bytes of
the mark have been passed on, or all of it, and some compressed bytes transformed. -/
inductive Stage (Idle : Z → Prop) (Has : Bytes → Bytes → Z → Prop) (out : Bytes) :
    Bytes → ReaderWorld Z κ → Prop
  | mark {w : ReaderWorld Z κ} (n : ℕ) (hn : n < startMark.length) (engaged : w.engaged = false)
      (idle : Idle w.inner) (heard : Heard (startMark.take n) w) :
      Stage Idle Has out (startMark.drop n ++ out) w
  | stream {w : ReaderWorld Z κ} {x y rest : Bytes} (split : x ++ rest = out)
      (engaged : w.engaged = true) (has : Has x y w.inner) (heard : Heard (startMark ++ y) w) :
      Stage Idle Has out rest w

/-- Only the last byte of the mark completes anything: the subnegotiation. -/
theorem reads_mark : ∀ (n : ℕ) (hn : n < startMark.length),
    (∀ atom ∈ (({} : Parser).after (startMark.take n)).reads [startMark[n]], ¬ Deactivates atom) ∧
      restarts ((({} : Parser).after (startMark.take n)).reads [startMark[n]]) =
        if n + 1 = startMark.length then 1 else 0 := by
  decide

section Stages

variable {Idle : Z → Prop} {Has : Bytes → Bytes → Z → Prop} {S : Bytes → Prop} {content : Bytes}
  (hD : Decodes codec Idle Has S out content)

include hD

theorem stage_mark {n : ℕ} (hn : n < startMark.length) (hengaged : w.engaged = false)
    (hidle : Idle w.inner) (h : Heard (startMark.take n) w) {by_ : Byte}
    (hby : startMark[n] = by_) (data : Bytes) :
    ∃ w', codec.round (deliver codec send others callback) (by_ :: data, w) = .next (data, w') ∧
      Stage Idle Has out (startMark.drop (n + 1) ++ out) w' ∧
      w'.outer.received.flatten = w.outer.received.flatten ++ [by_] := by
  obtain ⟨hquiet, hrestarts⟩ := reads_mark n hn
  have hpassed : ∃ w', codec.round (deliver codec send others callback) (by_ :: data, w) = _ ∧ _ :=
    round_passing hengaged h.active (by
      rw [h.parser, ← hby]
      exact hquiet)
  obtain ⟨w', hround, hinner, hengaged', hactive, hparser, hreceived, hevents, -⟩ := hpassed
  have htake : startMark.take (n + 1) = startMark.take n ++ [by_] := by
    rw [List.take_add_one, List.getElem?_eq_getElem hn, hby]
    rfl
  have hheard : Heard (startMark.take (n + 1)) w' :=
    htake ▸ h.append hactive hparser hreceived hevents
  rw [h.parser, ← hby, hrestarts] at hinner hengaged'
  refine ⟨w', hround, ?_, hreceived⟩
  by_cases hlast : n + 1 = startMark.length
  · rw [if_pos hlast] at hinner hengaged'
    rw [hlast, List.drop_length, List.nil_append]
    rw [hlast, List.take_length] at hheard
    refine .stream (x := []) (y := []) rfl hengaged' ?_ ?_
    · rw [hinner]
      exact hD.start _ hidle
    · rw [List.append_nil]
      exact hheard
  · rw [if_neg hlast] at hinner hengaged'
    exact .mark (n + 1) (by omega) hengaged' (hinner ▸ hidle) hheard

/-- Inside the stream a round takes data, or hands on more of the content. -/
theorem stage_stream {x y rest future data : Bytes} (hsplit : x ++ rest = out)
    (hcalm : Calm (({} : Parser).after startMark) content) (hdata : data ≠ []) (hS : S data)
    (hrest : data ++ future = rest) (hengaged : w.engaged = true) (hhas : Has x y w.inner)
    (h : Heard (startMark ++ y) w) :
    ∃ n w', codec.round (deliver codec send others callback) (data, w) = .next (data.drop n, w') ∧
      Stage Idle Has out (data.drop n ++ future) w' ∧
      ∃ more, w'.outer.received.flatten = w.outer.received.flatten ++ more ∧
        (0 < n ∨ more ≠ []) := by
  obtain ⟨n, chunks, s', halone, hle, hprogress, hopen, hhas'⟩ :=
    hD.transform hhas hsplit ⟨future, hrest⟩ hdata hS
  have hsplit' : x ++ data.take n ++ (data.drop n ++ future) = out := by
    rw [List.append_assoc, ← List.append_assoc _ _ future, List.take_append_drop, hrest, hsplit]
  -- the content so far is a part of all of it, and is calm as that is
  have hcalmNow : Calm w.outer.parser (chunks.flatMap Chunk.data) := by
    obtain ⟨unread, hunread⟩ := hD.within hhas' hsplit'
    have hafter := Parser.plainData_after ({} : Parser) startMark
    rw [← hunread, calm_append hafter, calm_append hafter] at hcalm
    rw [h.parser, Parser.after_append (p := {}) rfl]
    exact hcalm.1.2
  have hplainData : w.outer.parser.plainData = [] := by
    rw [h.parser]
    exact Parser.plainData_after _ _
  have hrounds : ∃ w', codec.round (deliver codec send others callback) (data, w) = _ ∧ _ :=
    round_engaged hdata hle h.active hplainData hengaged halone
      (fun atom hatom => (hcalmNow atom hatom).2) (Or.inr (restarts_of_calm hcalmNow))
  obtain ⟨w', hround, hinner, hengaged', hactive, hparser, hreceived, hevents, -⟩ := hrounds
  refine ⟨n, w', hround, .stream hsplit' ?_ (hinner ▸ hhas') ?_, _, hreceived, hprogress⟩
  · rw [hengaged']
    exact engagedAfter_within _ hopen
  · rw [← List.append_assoc]
    exact h.append hactive hparser hreceived hevents

/-- What has been heard is a part of the content, and what the decoder has made
of all of the stream once all has come. -/
theorem Stage.heard {future : Bytes} (h : Stage Idle Has out future w) :
    ∃ data, Heard data w ∧ data <+: startMark ++ content ∧
      (future = [] → w.engaged = true ∧ ∃ y, Has out y w.inner ∧ data = startMark ++ y) := by
  cases h with
  | mark n hn engaged idle heard =>
      refine ⟨_, heard, (List.take_prefix n startMark).trans (List.prefix_append _ _), ?_⟩
      intro hnil
      have hlength := congrArg List.length hnil
      rw [List.length_append, List.length_drop, List.length_nil] at hlength
      omega
  | @stream _ x y _ split engaged has heard =>
      refine ⟨_, heard, ?_, ?_⟩
      · rw [List.prefix_append_right_inj]
        exact hD.within has split
      · rintro rfl
        rw [List.append_nil] at split
        exact ⟨engaged, y, split ▸ has, rfl⟩

omit hD in
/-- The decoder is engaged from the end of the mark on. -/
theorem Stage.engaged {future come : Bytes} (h : Stage Idle Has out future w)
    (hcome : come ++ future = startMark ++ out) (hmark : startMark.length ≤ come.length) :
    w.engaged = true := by
  cases h with
  | mark n hn engaged idle heard =>
      have hlength := congrArg List.length hcome
      simp only [List.length_append, List.length_drop] at hlength
      omega
  | stream split engaged has heard => exact engaged

/-- What has been put out behind the mark is heard as far as it has come,
wherever it is cut. -/
theorem processes_open (send : Element → κ → κ) (others : Session κ) (callback : Bytes → κ → κ)
    (x : κ) {s : Z} (hs : Idle s) (hcalm : Calm (({} : Parser).after startMark) content)
    (hdrop : ∀ data n, S data → S (data.drop n)) {spans : List Bytes}
    (hspans : ∀ span ∈ spans, S span) {future : Bytes}
    (hall : spans.flatten ++ future = startMark ++ out) :
    ∃ w', codec.Processes (deliver codec send others callback) (receiving {} s x) spans w' ∧
      Stage Idle Has out future w' := by
  have hstart : Stage Idle Has out (spans.flatten ++ future) (receiving {} s x) := by
    rw [hall]
    exact .mark 0 (by decide) rfl hs ⟨rfl, rfl, rfl, rfl⟩
  have hround (data rest : Bytes) (w : ReaderWorld Z κ) (hdata : data ≠ []) (hS : S data)
      (h : Stage Idle Has out (data ++ rest ++ future) w) :
      ∃ n w', codec.round (deliver codec send others callback) (data, w) =
        .next (data.drop n, w') ∧ Stage Idle Has out (data.drop n ++ rest ++ future) w' ∧
        ∃ more, w'.outer.received.flatten = w.outer.received.flatten ++ more ∧
          (0 < n ∨ more ≠ []) := by
    rw [List.append_assoc] at h
    generalize hwire : data ++ (rest ++ future) = wire at h
    cases h with
    | mark n hn engaged idle heard =>
        obtain ⟨by_, data, rfl⟩ := List.exists_cons_of_ne_nil hdata
        rw [List.drop_eq_getElem_cons hn, List.cons_append, List.cons_append] at hwire
        obtain ⟨hby, hrest⟩ := List.cons.inj hwire
        have hmark : ∃ w', codec.round (deliver codec send others callback) (by_ :: data, w) = _ ∧
            Stage Idle Has out (startMark.drop (n + 1) ++ out) w' ∧ _ :=
          stage_mark hD hn engaged idle heard hby.symm data
        obtain ⟨w', hround, hstage, hreceived⟩ := hmark
        rw [← hrest, ← List.append_assoc] at hstage
        exact ⟨1, w', hround, hstage, _, hreceived, Or.inl Nat.one_pos⟩
    | stream split engaged has heard =>
        have hstream : ∃ n w', codec.round (deliver codec send others callback) (data, w) =
            .next (data.drop n, w') ∧ Stage Idle Has out (data.drop n ++ (rest ++ future)) w' ∧ _ :=
          stage_stream hD split hcalm hdata hS hwire engaged has heard
        simpa only [List.append_assoc] using hstream
  -- what is still to be heard bounds the rounds that take nothing
  apply Codec.processes_of_measure (S := S)
    (I := fun wire w => Stage Idle Has out (wire ++ future) w)
    (m := fun w => (startMark ++ content).length - w.outer.received.flatten.length) hdrop
  · intro data rest w hdata hS h
    obtain ⟨n, w', hnext, hstage, more, hreceived, hprogress⟩ := hround data rest w hdata hS h
    refine ⟨n, w', ?_, hnext, hstage⟩
    obtain ⟨heard, hheard, hprefix, -⟩ := hstage.heard hD
    have hle := hprefix.length_le
    have hpos := List.length_pos_of_ne_nil hdata
    rw [← hheard.received, hreceived] at hle
    rw [hreceived]
    simp only [List.length_append, List.length_drop] at hle ⊢
    rcases hprogress with htaken | hmore
    · omega
    · have hpos' := List.length_pos_of_ne_nil hmore
      omega
  · exact hspans
  · exact hstart

end Stages

/-- A codec that undoes another byte by byte decodes a stream that goes on. -/
theorem decodes_of_transducer (hB : ByteTransducer codec R) {later : Bytes} (hlater : later ≠ [])
    (hcomplete : R.Complete (out ++ later)) :
    Decodes codec R.Idle (fun x y s => R.Has x s ∧ y = R.content x) (fun _ => True) out
      (R.content out) where
  start s hs := ⟨hB.start s hs, hB.content_nil.symm⟩
  transform := by
    rintro x rest y data s ⟨hhas, rfl⟩ hsplit hrest hdata -
    have hwhole : R.Complete (x ++ (rest ++ later)) := by
      rw [← List.append_assoc, hsplit]
      exact hcomplete
    obtain ⟨n, chunks, s', halone, htakes⟩ := hB.transform x (rest ++ later) data s hhas hwhole
      (List.append_ne_nil_of_right_ne_nil _ hlater) hdata
      (Or.inl (hrest.trans (List.prefix_append _ later)))
    have hwithin : n < (rest ++ later).length := by
      have hlength := hrest.length_le
      have hpos := List.length_pos_of_ne_nil hlater
      have hle := htakes.le_data
      rw [List.length_append]
      omega
    obtain ⟨hhas', hopen⟩ := htakes.within hwithin
    exact ⟨n, chunks, s', halone, htakes.le_data, Or.inl htakes.pos, hopen, hhas',
      htakes.output.symm⟩
  within := by
    rintro x rest y s ⟨-, rfl⟩ rfl
    exact hB.content_append x rest

end Receiver

/-! ## Both ends -/

open Sender Receiver

/-- What a session may write that does not concern the option. -/
def Foreign (elem : Element) : Prop :=
  elem.WellFormed ∧ (∀ sub, elem = .subnegotiation sub → sub.option ≠ option) ∧
    elem ≠ .negotiation ⟨wont, option⟩

/-- Behind the mark the parser reads the elements as they were written. -/
theorem reads_behind_mark {elems : List Element} (helems : ∀ elem ∈ elems, elem.WellFormed) :
    (({} : Parser).after startMark).reads (elems.flatMap wire) = elems.flatMap Element.atoms ∧
      ({} : Parser).reads (startMark ++ elems.flatMap wire) =
        (Element.subnegotiation ⟨option, []⟩ :: elems).flatMap Element.atoms := by
  let all := Element.subnegotiation ⟨option, []⟩ :: elems
  have hsendable : ∀ a ∈ all.flatMap Element.atoms, a.Sendable := by
    intro a ha
    obtain ⟨elem, helem, ha⟩ := List.mem_flatMap.mp ha
    have hwell : elem.WellFormed := by
      rcases List.mem_cons.mp helem with rfl | helem
      · trivial
      · exact helems elem helem
    exact hwell.sendable a ha
  have hmark : ({} : Parser).reads startMark = [.token (.subnegotiation ⟨option, []⟩)] := rfl
  have hall : ({} : Parser).reads (startMark ++ elems.flatMap wire) =
      all.flatMap Element.atoms := by
    rw [← Parser.reads_flatMap hsendable, Parser.flatMap_atomWire]
    rfl
  have hsplit := Parser.reads_append (p := {}) rfl startMark (elems.flatMap wire)
  refine ⟨?_, hall⟩
  rw [hall, hmark] at hsplit
  exact (List.append_cancel_left hsplit).symm

theorem calm_wire {elems : List Element} (helems : ∀ elem ∈ elems, Foreign elem) :
    Calm (({} : Parser).after startMark) (elems.flatMap wire) := by
  rw [Calm, (reads_behind_mark fun elem helem => (helems elem helem).1).1]
  intro atom hatom
  obtain ⟨elem, helem, hatom⟩ := List.mem_flatMap.mp hatom
  obtain ⟨-, hsub, hwont⟩ := helems elem helem
  cases elem with
  | bytes data =>
      obtain ⟨by_, -, rfl⟩ := List.mem_map.mp hatom
      exact ⟨rfl, by simp [Deactivates]⟩
  | subnegotiation sub =>
      obtain rfl := List.mem_singleton.mp hatom
      exact ⟨by simpa [isRestart] using hsub sub rfl, by simp [Deactivates]⟩
  | negotiation neg =>
      obtain rfl := List.mem_singleton.mp hatom
      refine ⟨rfl, ?_⟩
      intro hsame
      exact hwont (Atom.token.inj hsame)
  | command cmd =>
      obtain rfl := List.mem_singleton.mp hatom
      exact ⟨rfl, by simp [Deactivates]⟩

/-- Compression is started and elements are written that do not concern the
option. Behind what was on the socket before there is then a stream that a
session with an active client, behind a codec that undoes the one that made
it, hears as far as it has come, however it is cut: in the end, as the start of
compression and those elements. -/
theorem compressed_heard {Y Z κ : Type} {codec : Codec Y} {decoder : Codec Z} {R : Transforming Z}
    {Made : Bytes → Bytes → Y → Prop} (hC : Encodes codec R Made) (hD : ByteTransducer decoder R)
    {w : LineWorld Y} (hstate : w.outer.state = .active) (hengaged : w.engaged = false)
    (hfailure : w.outer.failure = none) (hstart : Made [] [] (codec.doStart w.inner)) (fuel : ℕ)
    {elems : List Element} (helems : ∀ elem ∈ elems, Foreign elem) (send : Element → κ → κ)
    (others : Session κ) (callback : Bytes → κ → κ) (x : κ) {s : Z} (hs : R.Idle s) :
    let w' := writes codec fuel elems (startCompression codec fuel w)
    w'.outer.failure = none ∧ ∃ sent, w'.outer.socket = w.outer.socket ++ sent ∧
      ∀ (spans : List Bytes) (future : Bytes), spans.flatten ++ future = sent →
        ∃ r, decoder.Processes (deliver decoder send others callback) (receiving {} s x) spans r ∧
          r.outer.received.flatten <+: startMark ++ elems.flatMap wire ∧
          r.outer.events.flatMap Element.atoms = ({} : Parser).reads r.outer.received.flatten ∧
          (future = [] → r.engaged = true ∧
            coalesce r.outer.events = coalesce (.subnegotiation ⟨option, []⟩ :: elems)) := by
  intro w'
  have hwell : ∀ elem ∈ elems, elem.WellFormed := fun elem helem => (helems elem helem).1
  have hw' : Compressed Made (w.outer.socket ++ startMark) ([] ++ elems.flatMap wire) w' :=
    (compressed_startCompression fuel hstate ⟨hengaged, hfailure, rfl, rfl⟩ hstart).writes hC fuel
      elems
  obtain ⟨out, hmade, hsocket⟩ := hw'.made
  have hcontent : R.content out = elems.flatMap wire := hC.content hmade
  obtain ⟨later, hlater, hcomplete⟩ := hC.further hmade
  refine ⟨hw'.failure, startMark ++ out, by rw [hsocket, List.append_assoc], ?_⟩
  intro spans future hspans
  have hdecodes := decodes_of_transducer hD hlater hcomplete
  obtain ⟨r, hprocesses, hstage⟩ := processes_open hdecodes send others callback x hs
    (hcontent ▸ calm_wire helems) (fun _ _ => id) (fun _ _ => trivial) hspans
  obtain ⟨data, hheard, hprefix, hall⟩ := hstage.heard hdecodes
  rw [hcontent] at hprefix
  refine ⟨r, hprocesses, hheard.received ▸ hprefix, hheard.received ▸ hheard.events, ?_⟩
  intro hfuture
  obtain ⟨hr, y, ⟨-, rfl⟩, rfl⟩ := hall hfuture
  refine ⟨hr, ?_⟩
  rw [coalesce_eq_iff, hheard.events, hcontent, (reads_behind_mark hwell).2]

/-! ## A pair of codecs -/

/-- Before each byte of the data it puts a zero. -/
def padding : Codec Unit where
  doStart := id
  doFinish z := .done () z
  transformChunk data z := .call ⟨data.flatMap fun by_ => [0, by_], false⟩ z fun z => .done [] z

/-- It takes the zeros out again. What stands where a zero is expected ends the
stream if it is none. -/
def unpadding : Codec Bool where
  doStart _ := false
  doFinish _ := .done () false
  transformChunk data odd :=
    match data with
    | [] => .done [] odd
    | by_ :: rest =>
        if odd then .call ⟨[by_], false⟩ false (.done rest)
        else if by_ = 0 then .done rest true
        else .call ⟨[], true⟩ false (.done rest)

def unpad : Bytes → Bytes
  | by_ :: by_' :: rest => if by_ = 0 then by_' :: unpad rest else []
  | _ => []

def pad (data : Bytes) : Bytes := data.flatMap fun by_ => [0, by_]

def padded : Transforming Bool where
  Idle odd := odd = false
  Has x odd := ∃ data, x = pad data ++ if odd then [0] else []
  content := unpad
  Complete x := ∃ data, x = pad data ++ [1]

theorem pad_append (data data' : Bytes) : pad (data ++ data') = pad data ++ pad data' :=
  List.flatMap_append

theorem length_pad (data : Bytes) : (pad data).length = 2 * data.length := by
  induction data with
  | nil => rfl
  | cons by_ data ih =>
      change (pad data).length + 1 + 1 = 2 * (data.length + 1)
      omega

theorem unpad_pad (data rest : Bytes) : unpad (pad data ++ rest) = data ++ unpad rest := by
  induction data with
  | nil => rfl
  | cons by_ data ih => exact congrArg (by_ :: ·) ih

theorem unpad_append (x y : Bytes) : unpad x <+: unpad (x ++ y) := by
  fun_induction unpad x with
  | case1 by_' rest ih =>
      change by_' :: unpad rest <+: by_' :: unpad (rest ++ y)
      exact List.cons_prefix_cons.mpr ⟨rfl, ih⟩
  | _ => exact List.nil_prefix

/-- Where a zero is expected, another byte is the last one. -/
theorem pad_position {data data' rest : Bytes} {by_ : Byte}
    (h : pad data ++ by_ :: rest = pad data' ++ [1]) :
    (by_ = 0 ∧ rest ≠ []) ∨ (by_ ≠ 0 ∧ rest = []) := by
  induction data generalizing data' with
  | nil =>
      cases data' with
      | nil =>
          obtain ⟨rfl, rfl⟩ := List.cons.inj h
          exact Or.inr ⟨by decide, rfl⟩
      | cons b data' =>
          obtain ⟨rfl, rfl⟩ := List.cons.inj h
          exact Or.inl ⟨rfl, List.cons_ne_nil _ _⟩
  | cons b data ih =>
      cases data' with
      | nil => exact absurd (List.cons.inj h).1 (by decide)
      | cons b' data' => exact ih (List.cons.inj (List.cons.inj h).2).2

theorem encodes_padding :
    Encodes padding padded fun data out _ => out = pad data where
  transform := by
    rintro data out ⟨⟩ rfl span hspan
    refine ⟨span.length, [⟨pad span, false⟩], (), ?_, List.length_pos_of_ne_nil hspan, ?_, ?_⟩
    · rw [List.drop_length]
      rfl
    · exact List.forall_mem_singleton.mpr rfl
    · rw [List.take_length, pad_append, List.flatMap_singleton]
  content := by
    rintro data _ _ rfl
    have hunpad := unpad_pad data []
    rw [List.append_nil] at hunpad
    exact hunpad.trans (List.append_nil data)
  further := by
    rintro data _ _ rfl
    exact ⟨[1], List.cons_ne_nil _ _, data, rfl⟩

theorem byteTransducer_unpadding : ByteTransducer unpadding padded where
  content_nil := rfl
  content_append := unpad_append
  complete_ne_nil := by
    rintro _ ⟨data, rfl⟩
    exact List.append_ne_nil_of_right_ne_nil _ (List.cons_ne_nil _ _)
  start s _ := ⟨[], rfl⟩
  transform := by
    rintro x tail data odd ⟨before, rfl⟩ ⟨all, hall⟩ hmore hdata hagrees
    obtain ⟨by_, tail, rfl⟩ := List.exists_cons_of_ne_nil hmore
    obtain ⟨by_', rest, rfl⟩ := List.exists_cons_of_ne_nil hdata
    obtain rfl : by_' = by_ := by
      rcases hagrees with h | h
      · exact (List.cons_prefix_cons.mp h).1
      · exact (List.cons_prefix_cons.mp h).1.symm
    cases odd with
    | true =>
        have hparity := congrArg List.length hall
        simp only [List.length_append, length_pad, List.length_cons, if_true] at hparity
        refine ⟨1, [⟨[by_'], false⟩], false, rfl, ?_⟩
        constructor
        case pos => exact Nat.one_pos
        case le_data => simp
        case le_tail => simp
        case output =>
          change unpad ((pad before ++ [0]) ++ [by_']) = unpad (pad before ++ [0]) ++ [by_']
          rw [List.append_assoc, unpad_pad, unpad_pad]
          simp [unpad]
        case within =>
          intro _
          refine ⟨⟨before ++ [by_'], ?_⟩, List.forall_mem_singleton.mpr rfl⟩
          rw [pad_append]
          simp [pad]
        case ends =>
          intro hlast
          rw [List.length_cons] at hlast
          omega
    | false =>
        simp only [Bool.false_eq_true, if_false, List.append_nil] at hall ⊢
        rcases pad_position hall with ⟨rfl, hgoes⟩ | ⟨hne, rfl⟩
        · refine ⟨1, [], true, rfl, ?_⟩
          constructor
          case pos => exact Nat.one_pos
          case le_data => simp
          case le_tail => simp
          case output =>
            change unpad (pad before ++ [0]) = unpad (pad before) ++ []
            have hbefore := unpad_pad before []
            rw [List.append_nil] at hbefore
            rw [unpad_pad, hbefore, List.append_nil]
            rfl
          case within =>
            intro _
            exact ⟨⟨before, rfl⟩, List.forall_mem_nil _⟩
          case ends =>
            intro hlast
            have hpos := List.length_pos_of_ne_nil hgoes
            rw [List.length_cons] at hlast
            omega
        · refine ⟨1, [⟨[], true⟩], false, ?_, ?_⟩
          · simp [unpadding, hne, Program.alone]
          constructor
          case pos => exact Nat.one_pos
          case le_data => simp
          case le_tail => simp
          case output =>
            change unpad (pad before ++ [by_']) = unpad (pad before) ++ []
            have hbefore := unpad_pad before []
            rw [List.append_nil] at hbefore
            rw [unpad_pad, hbefore, List.append_nil]
            simp [unpad]
          case within =>
            intro hmore
            exact absurd hmore (Nat.lt_irrefl 1)
          case ends =>
            intro _
            exact ⟨rfl, [], [], rfl⟩

/-- A byte 0xFF, a command and a subnegotiation of another option. -/
theorem compressed_heard_padding :
    let elems : List Element := [.bytes [65, 255], .command ⟨249⟩, .subnegotiation ⟨24, [1]⟩]
    let w := writes padding 0 elems
      (startCompression padding 0 ⟨false, (), { state := .active, socket := [104, 105] }, []⟩)
    w.outer.failure = none ∧ ∃ sent, w.outer.socket = [104, 105] ++ sent ∧
      ∀ (spans : List Bytes) (future : Bytes), spans.flatten ++ future = sent →
        ∃ r, unpadding.Processes (deliver unpadding (fun _ n => n) {} fun _ n => n + 1)
            (receiving {} false 0) spans r ∧
          r.outer.received.flatten <+: startMark ++ elems.flatMap wire ∧
          r.outer.events.flatMap Element.atoms = ({} : Parser).reads r.outer.received.flatten ∧
          (future = [] → r.engaged = true ∧
            coalesce r.outer.events = coalesce (.subnegotiation ⟨option, []⟩ :: elems)) :=
  have helems : ∀ elem ∈ ([.bytes [65, 255], .command ⟨249⟩, .subnegotiation ⟨24, [1]⟩] :
      List Element), Foreign elem := by
    simp [Foreign, Element.WellFormed, isNegotiationType, option]
    decide
  compressed_heard encodes_padding byteTransducer_unpadding rfl rfl rfl rfl 0 helems
    (fun _ n => n) {} (fun _ n => n + 1) 0 rfl

end Telnetpp.Mccp
