import Telnetpp.Mccp.Inflate
import Telnetpp.Mccp.Receiver

/-!
# Switching between plain and compressed bytes

The rounds of a codec whose output goes to the session that starts it, and
what a whole stream comes to that starts the codec any number of times:
however it is split, the session hears the stream with every compressed part
replaced by its content.
-/

namespace Telnetpp.Mccp

open Foundation

/-! ## Codecs that transform byte by byte -/

/-- How the states of a codec are read: whether it is between two streams or
has taken a part of one, and what a part of a stream determines. -/
structure Transforming (Z : Type) where
  Idle : Z → Prop
  Has : Bytes → Z → Prop
  content : Bytes → Bytes
  Complete : Bytes → Prop

/-- One call of `transform_chunk`, with data that agrees with the rest of a
complete stream: it takes a part of the data that does not go beyond that
stream, and reports the end if it takes the last byte. -/
structure TakesPart {Z : Type} (R : Transforming Z) (x tail data : Bytes) (n : ℕ)
    (chunks : List Chunk) (s : Z) : Prop where
  pos : 0 < n
  le_data : n ≤ data.length
  le_tail : n ≤ tail.length
  output : R.content (x ++ data.take n) = R.content x ++ chunks.flatMap Chunk.data
  within : n < tail.length → R.Has (x ++ data.take n) s ∧ ∀ chunk ∈ chunks, chunk.ended = false
  ends : n = tail.length → R.Idle s ∧ ∃ earlier last, chunks = earlier ++ [⟨last, true⟩]

structure ByteTransducer {Z : Type} (codec : Codec Z) (R : Transforming Z) : Prop where
  content_nil : R.content [] = []
  content_append : ∀ x y, R.content x <+: R.content (x ++ y)
  complete_ne_nil : ∀ z, R.Complete z → z ≠ []
  start : ∀ s, R.Idle s → R.Has [] (codec.doStart s)
  transform : ∀ x tail data s, R.Has x s → R.Complete (x ++ tail) → tail ≠ [] → data ≠ [] →
    (data <+: tail ∨ tail <+: data) →
      ∃ n chunks s', (codec.transformChunk data s).alone = (chunks, .done (data.drop n) s') ∧
        TakesPart R x tail data n chunks s'

namespace Receiver

variable {Z κ : Type}

/-! ## The calls of the continuation in one round -/

/-- Whether the codec is engaged after the calls: each call sets it from its
end flag, and then the client may start it. -/
def engagedAfter : Parser → List Chunk → Bool → Bool
  | _, [], engaged => engaged
  | p, chunk :: chunks, _ =>
      engagedAfter (p.after chunk.data) chunks (!chunk.ended || restarts (p.reads chunk.data) ≠ 0)

theorem engagedAfter_within (p : Parser) {chunks : List Chunk}
    (h : ∀ chunk ∈ chunks, chunk.ended = false) : engagedAfter p chunks true = true := by
  induction chunks generalizing p with
  | nil => rfl
  | cons chunk chunks ih =>
      obtain ⟨hchunk, hchunks⟩ := List.forall_mem_cons.mp h
      rw [engagedAfter, hchunk]
      exact ih _ hchunks

theorem engagedAfter_ends {p : Parser} (hp : p.plainData = []) (earlier : List Chunk)
    (last : Bytes) (engaged : Bool) : engagedAfter p (earlier ++ [⟨last, true⟩]) engaged =
      decide (restarts ((p.after (earlier.flatMap Chunk.data)).reads last) ≠ 0) := by
  induction earlier generalizing p engaged with
  | nil =>
      rw [List.flatMap_nil, Parser.after_nil hp]
      exact Bool.false_or _
  | cons chunk earlier ih =>
      rw [List.cons_append, engagedAfter, ih (p.plainData_after chunk.data), List.flatMap_cons,
        Parser.after_append hp]

/-- What holds in a round that began in the world `w₀` with the calls `all`,
while the calls `chunks` are still to be made. -/
structure Hears (codec : Codec Z) (w₀ : ReaderWorld Z κ) (all chunks : List Chunk)
    (w : ReaderWorld Z κ) : Prop where
  active : w.outer.state = .active
  plainData : w.outer.parser.plainData = []
  quiet : ∀ atom ∈ w.outer.parser.reads (chunks.flatMap Chunk.data), ¬ Deactivates atom
  keeps : (∀ s, codec.doStart s = s) ∨
    restarts (w.outer.parser.reads (chunks.flatMap Chunk.data)) = 0
  parser : w.outer.parser.after (chunks.flatMap Chunk.data) =
    w₀.outer.parser.after (all.flatMap Chunk.data)
  received : w.outer.received.flatten ++ chunks.flatMap Chunk.data =
    w₀.outer.received.flatten ++ all.flatMap Chunk.data
  heard : w.outer.events.flatMap Element.atoms ++
      w.outer.parser.reads (chunks.flatMap Chunk.data) =
    w₀.outer.events.flatMap Element.atoms ++ w₀.outer.parser.reads (all.flatMap Chunk.data)
  transformed : w.recorded Passage.transformed? = w₀.recorded Passage.transformed?
  engaged : engagedAfter w.outer.parser chunks w.engaged =
    engagedAfter w₀.outer.parser all w₀.engaged

section Rounds

variable {codec : Codec Z} {send : Element → κ → κ} {others : Session κ}
  {callback : Bytes → κ → κ} {w : ReaderWorld Z κ}

theorem Hears.call {w₀ : ReaderWorld Z κ} {chunk : Chunk} {all chunks : List Chunk}
    (h : Hears codec w₀ all (chunk :: chunks) w) :
    ∃ w', Codec.forward (deliver codec send others callback) chunk w = .done () w' ∧
      w'.inner = w.inner ∧ Hears codec w₀ all chunks w' := by
  have hsplit := Parser.reads_append h.plainData chunk.data (chunks.flatMap Chunk.data)
  have hquiet := h.quiet
  have hkeeps := h.keeps
  have hheard := h.heard
  have hparser := h.parser
  rw [List.flatMap_cons, hsplit] at hquiet hkeeps hheard
  rw [List.flatMap_cons, Parser.after_append h.plainData] at hparser
  obtain ⟨hfirst, hrest⟩ := List.forall_mem_append.mp hquiet
  rw [restarts_append] at hkeeps
  have hdelivered : ∃ elems x, deliver codec send others callback chunk
      { w.note (.output chunk.data) with engaged := !chunk.ended } = _ ∧ _ :=
    deliver_eq h.active hfirst
  obtain ⟨elems, x, hcall, helems⟩ := hdelivered
  refine ⟨_, hcall, ?_, ?_⟩
  · rcases hkeeps with hkeeps | hkeeps
    · exact Function.iterate_fixed (hkeeps w.inner) _
    · exact congrArg (fun n => codec.doStart^[n] w.inner) (Nat.add_eq_zero_iff.mp hkeeps).1
  · constructor
    case active => exact h.active
    case plainData => exact Parser.plainData_after _ _
    case quiet => exact hrest
    case keeps => exact hkeeps.imp_right fun h => (Nat.add_eq_zero_iff.mp h).2
    case parser => exact hparser
    case received =>
      show (w.outer.received ++ [chunk.data]).flatten ++ _ = _
      rw [List.flatten_append, List.flatten_singleton, List.append_assoc]
      exact h.received
    case heard =>
      show (w.outer.events ++ elems).flatMap Element.atoms ++ _ = _
      rw [List.flatMap_append, helems, List.append_assoc]
      exact hheard
    case transformed =>
      have hnote : (w.note (.output chunk.data)).recorded Passage.transformed? =
          w.recorded Passage.transformed? :=
        (CodecWorld.recorded_note _ _ w).trans (List.append_nil _)
      exact hnote.trans h.transformed
    case engaged => exact h.engaged

/-- A round in which the codec is engaged, and the client either leaves it
alone or starts it to no effect. -/
theorem round_engaged {data : Bytes} {n : ℕ} {chunks : List Chunk} {s' : Z} (hdata : data ≠ [])
    (hn : n ≤ data.length) (hactive : w.outer.state = .active)
    (hplainData : w.outer.parser.plainData = []) (hengaged : w.engaged = true)
    (halone : (codec.transformChunk data w.inner).alone = (chunks, .done (data.drop n) s'))
    (hquiet : ∀ atom ∈ w.outer.parser.reads (chunks.flatMap Chunk.data), ¬ Deactivates atom)
    (hkeeps : (∀ s, codec.doStart s = s) ∨
      restarts (w.outer.parser.reads (chunks.flatMap Chunk.data)) = 0) :
    ∃ w', codec.round (deliver codec send others callback) (data, w) = .next (data.drop n, w') ∧
      w'.inner = s' ∧ w'.engaged = engagedAfter w.outer.parser chunks true ∧
      w'.outer.state = .active ∧
      w'.outer.parser = w.outer.parser.after (chunks.flatMap Chunk.data) ∧
      w'.outer.received.flatten = w.outer.received.flatten ++ chunks.flatMap Chunk.data ∧
      w'.outer.events.flatMap Element.atoms = w.outer.events.flatMap Element.atoms ++
        w.outer.parser.reads (chunks.flatMap Chunk.data) ∧
      w'.recorded Passage.transformed? = w.recorded Passage.transformed? ++ data.take n := by
  have hstart : Hears codec w chunks chunks w :=
    ⟨hactive, hplainData, hquiet, hkeeps, rfl, rfl, rfl, rfl, rfl⟩
  have hruns : ∃ w', Codec.run (Codec.forward (deliver codec send others callback))
      (codec.transformChunk data w.inner) w = .done (data.drop n) w' ∧ w'.inner = s' ∧
        Hears codec w chunks [] w' := by
    apply Program.run_alone (I := Hears codec w chunks) _ _ _ halone hstart
    · intro s w
      rfl
    · intro chunks s w hw
      exact ⟨hw.active, hw.plainData, hw.quiet, hw.keeps, hw.parser, hw.received, hw.heard,
        hw.transformed, hw.engaged⟩
    · intro chunk chunks w hw
      exact hw.call
  obtain ⟨w', hrun, hinner, hw'⟩ := hruns
  have hround := Codec.round_of_done hdata hengaged hrun
  rw [List.length_drop, Nat.sub_sub_self hn] at hround
  refine ⟨_, hround, hinner, hengaged ▸ hw'.engaged, hw'.active, ?_, ?_, ?_, ?_⟩
  · exact (Parser.after_nil hw'.plainData).symm.trans hw'.parser
  · exact (List.append_nil _).symm.trans hw'.received
  · have hheard := hw'.heard
    rw [List.flatMap_nil, Parser.reads_nil hw'.plainData, List.append_nil] at hheard
    exact hheard
  · rw [CodecWorld.recorded_note, hw'.transformed]
    rfl

/-- A round that passes a byte on. -/
theorem round_passing {by_ : Byte} {data : Bytes} (hengaged : w.engaged = false)
    (hactive : w.outer.state = .active)
    (hquiet : ∀ atom ∈ w.outer.parser.reads [by_], ¬ Deactivates atom) :
    ∃ w', codec.round (deliver codec send others callback) (by_ :: data, w) = .next (data, w') ∧
      w'.inner = codec.doStart^[restarts (w.outer.parser.reads [by_])] w.inner ∧
      w'.engaged = decide (restarts (w.outer.parser.reads [by_]) ≠ 0) ∧
      w'.outer.state = .active ∧ w'.outer.parser = w.outer.parser.after [by_] ∧
      w'.outer.received.flatten = w.outer.received.flatten ++ [by_] ∧
      w'.outer.events.flatMap Element.atoms =
        w.outer.events.flatMap Element.atoms ++ w.outer.parser.reads [by_] ∧
      w'.recorded Passage.transformed? = w.recorded Passage.transformed? := by
  have hdelivered : ∃ elems x, deliver codec send others callback ⟨[by_], false⟩
      (w.note (.passed [by_])) = _ ∧ _ := deliver_eq hactive hquiet
  obtain ⟨elems, x, hcall, helems⟩ := hdelivered
  have hround : codec.round (deliver codec send others callback) (by_ :: data, w) = _ :=
    Codec.round_of_passed (List.cons_ne_nil _ _) hengaged hcall
  refine ⟨_, hround, rfl, ?_, hactive, rfl, ?_, ?_, ?_⟩
  · show (w.engaged || _) = _
    rw [hengaged, Bool.false_or]
    rfl
  · show (w.outer.received ++ [[by_]]).flatten = _
    rw [List.flatten_append, List.flatten_singleton]
  · show (w.outer.events ++ elems).flatMap Element.atoms = _
    rw [List.flatMap_append, helems]
    rfl
  · exact (CodecWorld.recorded_note _ _ w).trans (List.append_nil _)

end Rounds

/-! ## Streams that start the codec -/

/-- IAC SB 86 IAC SE. -/
def startMark : Bytes := [iac, sb, option, iac, se]

/-- Reading the bytes leaves the client alone. -/
def Calm (p : Parser) (data : Bytes) : Prop :=
  ∀ atom ∈ p.reads data, isRestart atom = false ∧ ¬ Deactivates atom

instance (p : Parser) (data : Bytes) : Decidable (Calm p data) :=
  inferInstanceAs (Decidable (∀ atom ∈ _, _ ∧ ¬ atom = _))

/-- What is still to come, in the state that a stream has been read to: the
bytes as they are sent, as they would be sent without compression, and the
compressed ones among them. -/
inductive Script (R : Transforming Z) : Option Bytes → Parser → Bytes → Bytes → Bytes → Prop
  | done (p : Parser) : Script R none p [] [] []
  | pass {p : Parser} {by_ : Byte} {wire plain streams : Bytes} (calm : Calm p [by_])
      (rest : Script R none (p.after [by_]) wire plain streams) :
      Script R none p (by_ :: wire) (by_ :: plain) streams
  | start {p : Parser} {by_ : Byte} {wire plain streams : Bytes}
      (quiet : ∀ atom ∈ p.reads [by_], ¬ Deactivates atom) (starts : restarts (p.reads [by_]) = 1)
      (rest : Script R (some []) (p.after [by_]) wire plain streams) :
      Script R none p (by_ :: wire) (by_ :: plain) streams
  | read {p : Parser} {x tail content wire plain streams : Bytes}
      (complete : R.Complete (x ++ tail)) (more : tail ≠ [])
      (output : R.content (x ++ tail) = R.content x ++ content) (calm : Calm p content)
      (rest : Script R none (p.after content) wire plain streams) :
      Script R (some x) p (tail ++ wire) (content ++ plain) (tail ++ streams)

/-- The codec is in the state that a script is for. -/
def At (R : Transforming Z) (w : ReaderWorld Z κ) : Option Bytes → Prop
  | none => w.engaged = false ∧ R.Idle w.inner
  | some x => w.engaged = true ∧ R.Has x w.inner

/-- What has been done and what the script holds make up the whole. -/
structure Follows (R : Transforming Z) (plain : Bytes) (atoms : List Atom) (streams wire : Bytes)
    (w : ReaderWorld Z κ) : Prop where
  active : w.outer.state = .active
  plainData : w.outer.parser.plainData = []
  script : ∃ mode plain' streams', Script R mode w.outer.parser wire plain' streams' ∧
    At R w mode ∧ w.outer.received.flatten ++ plain' = plain ∧
    w.outer.events.flatMap Element.atoms ++ w.outer.parser.reads plain' = atoms ∧
    w.recorded Passage.transformed? ++ streams' = streams

section Scripts

variable {codec : Codec Z} {R : Transforming Z} {send : Element → κ → κ} {others : Session κ}
  {callback : Bytes → κ → κ} {w : ReaderWorld Z κ}

theorem restarts_of_calm {p : Parser} {data : Bytes} (h : Calm p data) :
    restarts (p.reads data) = 0 := by
  apply List.countP_eq_zero.mpr
  intro atom hatom
  exact Bool.eq_false_iff.mp (h atom hatom).1

theorem calm_append {p : Parser} (hp : p.plainData = []) (data data' : Bytes) :
    Calm p (data ++ data') ↔ Calm p data ∧ Calm (p.after data) data' := by
  rw [Calm, Parser.reads_append hp]
  exact List.forall_mem_append

theorem follows_passing {plain : Bytes} {atoms : List Atom} {streams : Bytes} {by_ : Byte}
    {data wire plain' streams' : Bytes} {mode : Option Bytes}
    (hactive : w.outer.state = .active) (hengaged : w.engaged = false)
    (hquiet : ∀ atom ∈ w.outer.parser.reads [by_], ¬ Deactivates atom)
    (hmode : ∀ w' : ReaderWorld Z κ,
      w'.inner = codec.doStart^[restarts (w.outer.parser.reads [by_])] w.inner →
      w'.engaged = decide (restarts (w.outer.parser.reads [by_]) ≠ 0) → At R w' mode)
    (hplainData : w.outer.parser.plainData = [])
    (hscript : Script R mode (w.outer.parser.after [by_]) wire plain' streams')
    (hplain : w.outer.received.flatten ++ by_ :: plain' = plain)
    (hatoms : w.outer.events.flatMap Element.atoms ++ w.outer.parser.reads (by_ :: plain') = atoms)
    (hstreams : w.recorded Passage.transformed? ++ streams' = streams) :
    ∃ w', codec.round (deliver codec send others callback) (by_ :: data, w) = .next (data, w') ∧
      Follows R plain atoms streams wire w' := by
  have hpassed : ∃ w', codec.round (deliver codec send others callback) (by_ :: data, w) = _ ∧ _ :=
    round_passing hengaged hactive hquiet
  obtain ⟨w', hround, hinner, hengaged', hactive', hparser, hreceived, hevents, htransformed⟩ :=
    hpassed
  refine ⟨w', hround, hactive', ?_, mode, plain', streams', ?_, ?_, ?_, ?_, ?_⟩
  · rw [hparser]
    exact Parser.plainData_after _ _
  · rw [hparser]
    exact hscript
  · exact hmode w' hinner hengaged'
  · rw [hreceived, List.append_assoc]
    exact hplain
  · rw [hevents, hparser, List.append_assoc, ← Parser.reads_append hplainData]
    exact hatoms
  · rw [htransformed]
    exact hstreams

theorem take_eq_of_agrees {data tail : Bytes} {n : ℕ} (h : data <+: tail ∨ tail <+: data)
    (hdata : n ≤ data.length) (htail : n ≤ tail.length) : data.take n = tail.take n := by
  rcases h with ⟨rest, rfl⟩ | ⟨rest, rfl⟩
  · exact (List.take_append_of_le_length hdata).symm
  · exact List.take_append_of_le_length htail

/-- After a call that takes a part of a stream, the script goes on with the rest
of that stream, or behind it. -/
theorem script_of_takesPart {p : Parser} {x tail data : Bytes} {n : ℕ} {chunks : List Chunk} {s : Z}
    {later wire plain' streams' : Bytes} (h : TakesPart R x tail data n chunks s)
    (htake : data.take n = tail.take n) (hplainData : p.plainData = [])
    (hcomplete : R.Complete (x ++ tail))
    (houtput : R.content (x ++ tail) = R.content x ++ (chunks.flatMap Chunk.data ++ later))
    (hcalm : Calm p (chunks.flatMap Chunk.data ++ later))
    (hscript : Script R none (p.after (chunks.flatMap Chunk.data ++ later)) wire plain'
      streams') :
    ∃ mode, Script R mode (p.after (chunks.flatMap Chunk.data)) (tail.drop n ++ wire)
        (later ++ plain') (tail.drop n ++ streams') ∧
      ∀ w' : ReaderWorld Z κ, w'.inner = s → w'.engaged = engagedAfter p chunks true →
        At R w' mode := by
  have hpart : x ++ tail = (x ++ data.take n) ++ tail.drop n := by
    rw [htake, List.append_assoc, List.take_append_drop]
  have hrest : R.content ((x ++ data.take n) ++ tail.drop n) =
      R.content (x ++ data.take n) ++ later := by
    rw [← hpart, houtput, h.output, List.append_assoc]
  obtain ⟨hcalmNow, hcalmLater⟩ := (calm_append hplainData _ _).mp hcalm
  rw [Parser.after_append hplainData] at hscript
  rcases Nat.lt_or_eq_of_le h.le_tail with hn | hn
  · obtain ⟨hhas, hwithin⟩ := h.within hn
    have hleft : tail.drop n ≠ [] := fun hnil => Nat.not_lt.mpr (List.drop_eq_nil_iff.mp hnil) hn
    refine ⟨some (x ++ data.take n), ?_, ?_⟩
    · exact .read (hpart ▸ hcomplete) hleft hrest hcalmLater hscript
    · rintro w' rfl hengaged
      refine ⟨?_, hhas⟩
      rw [hengaged, engagedAfter_within _ hwithin]
  · obtain ⟨hidle, earlier, last, rfl⟩ := h.ends hn
    have hleft : tail.drop n = [] := List.drop_eq_nil_iff.mpr (Nat.le_of_eq hn.symm)
    rw [hleft, List.append_nil] at hrest
    have hnone : later = [] := List.self_eq_append_right.mp hrest
    subst hnone
    rw [hleft]
    rw [Parser.after_nil (Parser.plainData_after _ _)] at hscript
    refine ⟨none, hscript, ?_⟩
    rintro w' rfl hengaged
    rw [List.flatMap_append, calm_append hplainData] at hcalmNow
    have hlast : restarts ((p.after (earlier.flatMap Chunk.data)).reads last) = 0 :=
      restarts_of_calm (by simpa using hcalmNow.2)
    refine ⟨?_, hidle⟩
    rw [hengaged, engagedAfter_ends hplainData, hlast]
    rfl

/-- The rounds of an engaged codec follow the script of its stream. -/
theorem follows_reading (hB : ByteTransducer codec R) {plain : Bytes} {atoms : List Atom}
    {streams data future x tail content wire plain' streams' : Bytes} (hdata : data ≠ [])
    (hwire : tail ++ wire = data ++ future) (hactive : w.outer.state = .active)
    (hplainData : w.outer.parser.plainData = []) (hengaged : w.engaged = true)
    (hhas : R.Has x w.inner) (hcomplete : R.Complete (x ++ tail)) (hmore : tail ≠ [])
    (houtput : R.content (x ++ tail) = R.content x ++ content)
    (hcalm : Calm w.outer.parser content)
    (hscript : Script R none (w.outer.parser.after content) wire plain' streams')
    (hplain : w.outer.received.flatten ++ (content ++ plain') = plain)
    (hatoms : w.outer.events.flatMap Element.atoms ++
      w.outer.parser.reads (content ++ plain') = atoms)
    (hstreams : w.recorded Passage.transformed? ++ (tail ++ streams') = streams) :
    ∃ n w', 0 < n ∧ codec.round (deliver codec send others callback) (data, w) =
      .next (data.drop n, w') ∧ Follows R plain atoms streams (data.drop n ++ future) w' := by
  have hagrees : data <+: tail ∨ tail <+: data :=
    List.prefix_or_prefix_of_prefix (List.prefix_append data future)
      (hwire ▸ List.prefix_append tail wire)
  obtain ⟨n, chunks, s', halone, htakes⟩ :=
    hB.transform x tail data w.inner hhas hcomplete hmore hdata hagrees
  have htake := take_eq_of_agrees hagrees htakes.le_data htakes.le_tail
  have hdrop : data.drop n ++ future = tail.drop n ++ wire := by
    have hsame := congrArg (List.drop n) hwire
    rw [List.drop_append_of_le_length htakes.le_tail,
      List.drop_append_of_le_length htakes.le_data] at hsame
    exact hsame.symm
  obtain ⟨later, hlater⟩ : chunks.flatMap Chunk.data <+: content := by
    have hprefix := hB.content_append (x ++ tail.take n) (tail.drop n)
    rw [List.append_assoc, List.take_append_drop, houtput, ← htake, htakes.output] at hprefix
    exact (List.prefix_append_right_inj _).mp hprefix
  subst hlater
  have hcalmNow := ((calm_append hplainData _ _).mp hcalm).1
  have hrounds : ∃ w', codec.round (deliver codec send others callback) (data, w) = _ ∧ _ :=
    round_engaged hdata htakes.le_data hactive hplainData hengaged halone
      (fun atom hatom => (hcalmNow atom hatom).2) (Or.inr (restarts_of_calm hcalmNow))
  obtain ⟨w', hround, hinner, hengaged', hactive', hparser, hreceived, hevents, htransformed⟩ :=
    hrounds
  obtain ⟨mode, hscript', hat⟩ :=
    script_of_takesPart htakes htake hplainData hcomplete houtput hcalm hscript
  refine ⟨n, w', htakes.pos, hround, hactive', ?_, mode, later ++ plain',
    tail.drop n ++ streams', ?_, hat w' hinner hengaged', ?_, ?_, ?_⟩
  · rw [hparser]
    exact Parser.plainData_after _ _
  · rw [hdrop, hparser]
    exact hscript'
  · rw [hreceived, List.append_assoc, ← List.append_assoc _ later]
    exact hplain
  · rw [hevents, hparser, List.append_assoc, ← Parser.reads_append hplainData,
      ← List.append_assoc _ later]
    exact hatoms
  · rw [htransformed, htake, List.append_assoc, ← List.append_assoc _ _ streams',
      List.take_append_drop]
    exact hstreams

/-- Every round advances in the script. -/
theorem follows_round (hB : ByteTransducer codec R) {plain : Bytes} {atoms : List Atom}
    {streams data future : Bytes} (hdata : data ≠ [])
    (h : Follows R plain atoms streams (data ++ future) w) :
    ∃ n w', 0 < n ∧ codec.round (deliver codec send others callback) (data, w) =
      .next (data.drop n, w') ∧ Follows R plain atoms streams (data.drop n ++ future) w' := by
  obtain ⟨hactive, hplainData, mode, plain', streams', hscript, hat, hplain, hatoms, hstreams⟩ := h
  obtain ⟨by_, data', rfl⟩ := List.exists_cons_of_ne_nil hdata
  generalize hparser : w.outer.parser = p at hscript hatoms hplainData
  generalize hwire : by_ :: data' ++ future = wire at hscript
  cases hscript with
  | done => simp at hwire
  | @pass _ by_' wire plain' streams' calm rest =>
      obtain ⟨rfl, rfl⟩ := List.cons.inj hwire
      subst hparser
      have hmode (w' : ReaderWorld Z κ)
          (hinner : w'.inner = codec.doStart^[restarts (w.outer.parser.reads [by_])] w.inner)
          (hengaged : w'.engaged = decide (restarts (w.outer.parser.reads [by_]) ≠ 0)) :
          At R w' none := by
        rw [restarts_of_calm calm] at hinner hengaged
        exact ⟨hengaged, hinner ▸ hat.2⟩
      obtain ⟨w', hround, hfollows⟩ := follows_passing hactive hat.1
        (fun atom hatom => (calm atom hatom).2) hmode hplainData rest hplain hatoms hstreams
      exact ⟨1, w', Nat.zero_lt_one, hround, hfollows⟩
  | @start _ by_' wire plain' streams' quiet starts rest =>
      obtain ⟨rfl, rfl⟩ := List.cons.inj hwire
      subst hparser
      have hmode (w' : ReaderWorld Z κ)
          (hinner : w'.inner = codec.doStart^[restarts (w.outer.parser.reads [by_])] w.inner)
          (hengaged : w'.engaged = decide (restarts (w.outer.parser.reads [by_]) ≠ 0)) :
          At R w' (some []) := by
        rw [starts] at hinner hengaged
        exact ⟨hengaged, hinner ▸ hB.start _ hat.2⟩
      obtain ⟨w', hround, hfollows⟩ := follows_passing hactive hat.1 quiet hmode hplainData rest
        hplain hatoms hstreams
      exact ⟨1, w', Nat.zero_lt_one, hround, hfollows⟩
  | @read _ x tail content wire plain' streams' complete more output calm rest =>
      subst hparser
      exact follows_reading hB hdata hwire.symm hactive hplainData hat.1 hat.2 complete more
        output calm rest hplain hatoms hstreams

theorem Script.nothing_left {mode : Option Bytes} {p : Parser} {plain streams : Bytes}
    (h : Script R mode p [] plain streams) : plain = [] ∧ streams = [] := by
  generalize hwire : ([] : Bytes) = wire at h
  cases h with
  | done => exact ⟨rfl, rfl⟩
  | pass => simp at hwire
  | start => simp at hwire
  | read _ more _ _ _ => exact absurd (List.append_eq_nil_iff.mp hwire.symm).1 more

/-! ## Whole streams -/

theorem script_pass {p : Parser} (hp : p.plainData = []) {data wire plain streams : Bytes}
    (hcalm : Calm p data) (h : Script R none (p.after data) wire plain streams) :
    Script R none p (data ++ wire) (data ++ plain) streams := by
  induction data generalizing p with
  | nil =>
      rw [Parser.after_nil hp] at h
      exact h
  | cons by_ data ih =>
      have hsplit : by_ :: data = [by_] ++ data := rfl
      rw [hsplit, Parser.after_append hp] at h
      rw [hsplit, calm_append hp] at hcalm
      exact .pass hcalm.1 (ih (Parser.plainData_after _ _) hcalm.2 h)

/-- An idle parser reads the mark as one subnegotiation without content, with
its last byte. -/
theorem reads_startMark {p : Parser} (hstate : p.state = .idle) (hp : p.plainData = []) :
    p.reads [iac, sb, option, iac] = [] ∧
      (p.after [iac, sb, option, iac]).reads [se] = [.token (.subnegotiation ⟨option, []⟩)] := by
  obtain ⟨state, plainData, content, request, code⟩ := p
  subst hstate hp
  exact ⟨rfl, rfl⟩

theorem script_startMark {p : Parser} (hstate : p.state = .idle) (hp : p.plainData = [])
    {wire plain streams : Bytes} (h : Script R (some []) (p.after startMark) wire plain streams) :
    Script R none p (startMark ++ wire) (startMark ++ plain) streams := by
  obtain ⟨hbefore, hlast⟩ := reads_startMark hstate hp
  have hsplit : startMark = [iac, sb, option, iac] ++ [se] := rfl
  have hcalm : Calm p [iac, sb, option, iac] := by
    rw [Calm, hbefore]
    exact List.forall_mem_nil _
  rw [hsplit, Parser.after_append hp] at h
  rw [hsplit, List.append_assoc, List.append_assoc]
  apply script_pass hp hcalm
  apply Script.start _ _ h
  · rw [hlast]
    simp [Deactivates]
  · rw [hlast]
    rfl

/-- A stream that starts the codec: each segment is a compressed stream and the
bytes that follow it. -/
def wireOf (first : Bytes) (segments : List (Bytes × Bytes)) : Bytes :=
  first ++ segments.flatMap fun segment => startMark ++ (segment.1 ++ segment.2)

/-- The same stream with the content of the compressed streams in their place. -/
def plainOf (R : Transforming Z) (first : Bytes) (segments : List (Bytes × Bytes)) : Bytes :=
  first ++ segments.flatMap fun segment => startMark ++ (R.content segment.1 ++ segment.2)

/-- Every mark is found by an idle parser and followed by a complete stream,
and parsing the bytes between the marks leaves the client alone. -/
def Regular (R : Transforming Z) : Parser → Bytes → List (Bytes × Bytes) → Prop
  | p, data, [] => Calm p data
  | p, data, (z, post) :: segments =>
      Calm p data ∧ (p.after data).state = .idle ∧ R.Complete z ∧
        Regular R ((p.after data).after startMark) (R.content z ++ post) segments

theorem regular_append {p : Parser} (hp : p.plainData = []) (data post : Bytes)
    (segments : List (Bytes × Bytes)) :
    Regular R p (data ++ post) segments ↔ Calm p data ∧ Regular R (p.after data) post segments := by
  cases segments with
  | nil => exact calm_append hp data post
  | cons segment segments =>
      rw [Regular, Regular, calm_append hp, Parser.after_append hp, and_assoc]

theorem wireOf_cons (first z post : Bytes) (segments : List (Bytes × Bytes)) :
    wireOf first ((z, post) :: segments) = first ++ (startMark ++ (z ++ wireOf post segments)) := by
  simp [wireOf]

theorem plainOf_cons (first z post : Bytes) (segments : List (Bytes × Bytes)) :
    plainOf R first ((z, post) :: segments) =
      first ++ (startMark ++ (R.content z ++ plainOf R post segments)) := by
  simp [plainOf]

theorem Regular.script (hB : ByteTransducer codec R) {p : Parser} (hp : p.plainData = [])
    {first : Bytes} {segments : List (Bytes × Bytes)} (h : Regular R p first segments) :
    Script R none p (wireOf first segments) (plainOf R first segments)
      (segments.map Prod.fst).flatten := by
  induction segments generalizing p first with
  | nil => exact script_pass hp h (.done _)
  | cons segment segments ih =>
      obtain ⟨z, post⟩ := segment
      obtain ⟨hcalm, hidle, hz, hrest⟩ := h
      have hafter := Parser.plainData_after p first
      obtain ⟨hcontent, hpost⟩ := (regular_append (Parser.plainData_after _ _) _ _ _).mp hrest
      have houtput : R.content ([] ++ z) = R.content [] ++ R.content z := by
        rw [hB.content_nil, List.nil_append, List.nil_append]
      have hread := Script.read (x := []) hz (hB.complete_ne_nil z hz) houtput hcontent
        (ih (Parser.plainData_after _ _) hpost)
      rw [wireOf_cons, plainOf_cons, List.map_cons, List.flatten_cons]
      exact script_pass hp hcalm (script_startMark hidle hafter hread)

end Scripts

/-- The world before the first delivery: the client is active, the codec is not
engaged and nothing has been received yet. -/
def receiving (p : Parser) (s : Z) (x : κ) : ReaderWorld Z κ :=
  { inner := s, outer := { parser := p, state := .active, app := x } }

/-- However a stream that starts the codec again and again is split, every call
comes back; the codec transforms exactly the compressed streams, and the
session hears the stream with their content in their place. -/
theorem processes_switching {codec : Codec Z} {R : Transforming Z} (hB : ByteTransducer codec R)
    (send : Element → κ → κ) (others : Session κ) (callback : Bytes → κ → κ) (x : κ)
    {p : Parser} (hp : p.plainData = []) {s : Z} (hs : R.Idle s) {first : Bytes}
    {segments : List (Bytes × Bytes)} (hregular : Regular R p first segments)
    {spans : List Bytes} (hspans : spans.flatten = wireOf first segments) :
    ∃ w', codec.Processes (deliver codec send others callback) (receiving p s x) spans w' ∧
      w'.recorded Passage.transformed? = (segments.map Prod.fst).flatten ∧
      w'.outer.received.flatten = plainOf R first segments ∧
      coalesce w'.outer.events = coalesce (p.feed (plainOf R first segments)).2 := by
  have hstart : Follows R (plainOf R first segments) (p.reads (plainOf R first segments))
      (segments.map Prod.fst).flatten spans.flatten (receiving p s x) := by
    rw [hspans]
    exact ⟨rfl, hp, none, _, _, hregular.script hB hp, ⟨rfl, hs⟩, rfl, rfl, rfl⟩
  obtain ⟨w', hprocesses, hw'⟩ := Codec.processes_of_rounds
    (I := fun wire w => Follows R (plainOf R first segments) (p.reads (plainOf R first segments))
      (segments.map Prod.fst).flatten wire w)
    (fun data future w hdata h => follows_round hB hdata h) hstart
  obtain ⟨-, hplainData, mode, plain', streams', hscript, -, hplain, hatoms, hstreams⟩ := hw'
  obtain ⟨rfl, rfl⟩ := hscript.nothing_left
  rw [List.append_nil] at hplain hstreams
  rw [Parser.reads_nil hplainData, List.append_nil] at hatoms
  exact ⟨w', hprocesses, hstreams, hplain, (coalesce_eq_iff _ _).mpr hatoms⟩

/-! ## A codec that knows one stream -/

open Zlib (Tape)

/-- It takes one byte of the stream at a time, and starts again behind its end. -/
def replay (tape : Tape) : Codec ℕ where
  doStart := id
  doFinish _ := .done () 0
  transformChunk data k :=
    match data, tape.cells[k]? with
    | by_ :: rest, some (byte, output) =>
        if by_ = byte then
          let ended := k + 1 = tape.cells.length
          .call ⟨output, ended⟩ (if ended then 0 else k + 1) (.done rest)
        else .stop (.corruptedStream "unexpected byte") k
    | _, _ => .stop .assertion k

def replaying (tape : Tape) : Transforming ℕ where
  Idle k := k = 0
  Has x k := k = x.length
  content := tape.content
  Complete x := x = tape.bytes

theorem byteTransducer_replay (tape : Tape) : ByteTransducer (replay tape) (replaying tape) where
  content_nil := rfl
  content_append x y := Tape.content_mono (List.prefix_append x y)
  complete_ne_nil z hz := hz ▸ Tape.bytes_ne_nil
  start k hk := hk
  transform := by
    rintro x tail data k rfl hcomplete hmore hdata hagrees
    obtain ⟨byte, tail', rfl⟩ := List.exists_cons_of_ne_nil hmore
    obtain ⟨by_, rest, rfl⟩ := List.exists_cons_of_ne_nil hdata
    have hsame : by_ = byte := by
      rcases hagrees with h | h
      · exact (List.cons_prefix_cons.mp h).1
      · exact (List.cons_prefix_cons.mp h).1.symm
    subst hsame
    have hbyte : tape.bytes[x.length]? = some by_ := by
      rw [← (hcomplete : x ++ by_ :: tail' = tape.bytes)]
      simp
    rw [Tape.bytes, List.getElem?_map] at hbyte
    obtain ⟨cell, hcell, rfl⟩ := Option.map_eq_some_iff.mp hbyte
    have hlength : x.length + (tail'.length + 1) = tape.cells.length := by
      have hwhole := congrArg List.length (hcomplete : x ++ cell.1 :: tail' = tape.bytes)
      rw [List.length_append, List.length_cons, Tape.bytes, List.length_map] at hwhole
      exact hwhole
    refine ⟨1, [⟨cell.2, x.length + 1 = tape.cells.length⟩],
      if x.length + 1 = tape.cells.length then 0 else x.length + 1, ?_, ?_⟩
    · simp [replay, hcell, Program.alone]
    · constructor
      case pos => exact Nat.one_pos
      case le_data => simp
      case le_tail => simp
      case output =>
        show (tape.cells.take (x ++ [cell.1]).length).flatMap Prod.snd = _
        rw [List.length_append, List.length_singleton, List.take_add_one, hcell,
          List.flatMap_append]
        rfl
      case within =>
        intro hmore
        have hgoes : x.length + 1 ≠ tape.cells.length := by
          rw [List.length_cons] at hmore
          omega
        rw [if_neg hgoes]
        exact ⟨by simp [replaying], by simp [hgoes]⟩
      case ends =>
        intro hlast
        have hends : x.length + 1 = tape.cells.length := by
          rw [List.length_cons] at hlast
          omega
        rw [if_pos hends]
        exact ⟨rfl, [], cell.2, by simp [hends]⟩

/-- "hi", as zlib compresses it. -/
def greetingTape : Tape where
  cells := [(0x78, []), (0x9C, []), (0xCB, []), (0xC8, [0x68]), (0x04, [0x69]), (0x00, []),
    (0x01, []), (0x3B, []), (0x00, []), (0xD2, [])]

/-- A byte, the mark in two spans, the stream in spans of one byte, and a byte. -/
theorem processes_switching_greeting :
    ∃ w', (replay greetingTape).Processes (deliver (replay greetingTape) (fun _ n => n) {}
        fun _ n => n + 1) (receiving {} 0 (0 : ℕ))
        [[0x41, 0xFF, 0xFA], [0x56, 0xFF, 0xF0], [0x78], [0x9C], [0xCB], [0xC8], [0x04], [0x00],
          [0x01], [0x3B], [0x00], [0xD2], [0x42]] w' ∧
      w'.recorded Passage.transformed? = greetingTape.bytes ∧
      w'.outer.received.flatten = [0x41, 0xFF, 0xFA, 0x56, 0xFF, 0xF0, 0x68, 0x69, 0x42] ∧
      coalesce w'.outer.events = coalesce (({} : Parser).feed
        [0x41, 0xFF, 0xFA, 0x56, 0xFF, 0xF0, 0x68, 0x69, 0x42]).2 :=
  have hregular : Regular (replaying greetingTape) {} [0x41] [(greetingTape.bytes, [0x42])] :=
    ⟨by decide, rfl, rfl, (by decide : Calm _ _)⟩
  processes_switching (byteTransducer_replay greetingTape) (fun _ n => n) {} (fun _ n => n + 1) 0
    rfl rfl hregular rfl

end Receiver

end Telnetpp.Mccp
