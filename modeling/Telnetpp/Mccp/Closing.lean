import Telnetpp.Mccp.Deflate
import Telnetpp.Mccp.Sender

/-!
# The end of the compressed stream

While compression is active all that is written is transformed, and the socket
gets what the codec puts out. So does what the codec puts out as it finishes,
which is not on the socket yet when it comes out of the codec: it is escaped,
and transformed again. The stream arrives as the codec has produced it only if
the codec finishes without a byte.
-/

namespace Telnetpp.Mccp.Sender

open Foundation

variable {Z : Type} {codec : Codec Z} {fuel : ℕ} {base : Bytes} {w : LineWorld Z}

/-! ## The socket -/

/-- What is on the socket when no byte has been passed on since `base`. -/
structure Compressing (base : Bytes) (w : LineWorld Z) : Prop where
  engaged : w.engaged = true
  passed : w.recorded Passage.passed? = []
  socket : w.outer.socket = base ++ w.recorded Passage.output?

/-- What is on the socket when nothing more is going to be transformed. -/
structure Finished (base : Bytes) (w : LineWorld Z) : Prop where
  engaged : w.engaged = false
  failure : w.outer.failure = none
  socket : w.outer.socket =
    base ++ w.recorded Passage.output? ++ w.recorded Passage.passed?

theorem Compressing.note (h : Compressing base w) {p : Passage} (hpassed : p.passed? = none)
    (houtput : p.output? = none) : Compressing base (w.note p) where
  engaged := h.engaged
  passed := by
    rw [CodecWorld.recorded_note, h.passed, hpassed]
    rfl
  socket := by
    rw [CodecWorld.recorded_note, houtput, Option.getD_none, List.append_nil]
    exact h.socket

theorem Compressing.channelWrite (hcodec : codec.Unending) (h : Compressing base w)
    (data : Bytes) : Compressing base (channelWrite codec fuel data w) := by
  apply attempt_invariant (I := Compressing base) _ _ h
  · intro reason w h
    exact ⟨h.engaged, h.passed, h.socket⟩
  · intro w h
    apply Codec.operator_invariant (I := Compressing base) hcodec _ _ _ _ _ _ h
    · intro z w h
      exact ⟨h.engaged, h.passed, h.socket⟩
    · rintro ⟨data, ended⟩ w rfl h
      refine ⟨rfl, ?_, ?_⟩
      · show (w.note (.output data)).recorded Passage.passed? = []
        rw [CodecWorld.recorded_note, h.passed]
        rfl
      · show w.outer.socket ++ data = base ++ (w.note (.output data)).recorded Passage.output?
        rw [CodecWorld.recorded_note, h.socket, List.append_assoc]
        rfl
    · intro data w h
      exact h.note rfl rfl
    · intro data w hengaged h
      exact absurd (hengaged.symm.trans h.engaged) Bool.false_ne_true

theorem Finished.channelWrite (h : Finished base w) (data : Bytes) :
    Finished base (channelWrite codec fuel data w) := by
  have hpass : ∃ w', codec.operator toSocket (fuel + data.length + 1) data w = .done () w' ∧
      Finished base w' := by
    apply Codec.operator_disengaged (I := Finished base) (fun _ h => h.engaged) _ (by omega) h
    intro data w h
    refine ⟨_, rfl, h.engaged, h.failure, ?_⟩
    show w.outer.socket ++ data = base ++ (w.note (.passed data)).recorded Passage.output? ++
      (w.note (.passed data)).recorded Passage.passed?
    rw [CodecWorld.recorded_note, CodecWorld.recorded_note, h.socket]
    simp [Passage.output?, Passage.passed?]
  obtain ⟨w', hw', hfinished⟩ := hpass
  rw [Sender.channelWrite, attempt, if_pos h.failure, hw']
  exact hfinished

/-! ## The codec as it finishes -/

/-- What `finish` is handed goes through the codec again. -/
def closing (codec : Codec Z) (fuel : ℕ) : Continuation Z Line := fun chunk w =>
  writeText codec fuel chunk (w.note (.closing chunk.data))

/-- `do_finish`, with all that comes of it. -/
def closed (codec : Codec Z) (fuel : ℕ) (w : LineWorld Z) : Outcome Stop (LineWorld Z) Unit :=
  Codec.run (closing codec fuel) (codec.doFinish w.inner) w

/-- Alone, the codec finishes, and does so without a byte. -/
def SilentEnd (codec : Codec Z) (w : LineWorld Z) : Prop :=
  w.outer.failure = none ∧ (∀ chunk ∈ (codec.doFinish w.inner).alone.1, chunk.data = []) ∧
    (codec.doFinish w.inner).alone.2.Returned

theorem writeText_world (chunk : Chunk) :
    (writeText codec fuel chunk w).world = write codec fuel (.bytes chunk.data) w := by
  rw [writeText]
  cases (Sender.write codec fuel (.bytes chunk.data) w).outer.failure <;> rfl

theorem recorded_closing (chunk : Chunk) :
    (closing codec fuel chunk w).world.recorded Passage.closing? =
      w.recorded Passage.closing? ++ chunk.data := by
  rw [closing, writeText_world, (untouched_write _).closing]
  exact CodecWorld.recorded_note _ _ _

theorem closing_nil {chunk : Chunk} (hchunk : chunk.data = []) (hw : w.outer.failure = none) :
    closing codec fuel chunk w = .done () (w.note (.closing [])) := by
  have hnote : (w.note (.closing [])).outer.failure = none := hw
  rw [closing, writeText, hchunk, write_nil]
  simp only [hnote]

theorem Compressing.closed (hcodec : codec.Unending) (h : Compressing base w) :
    Compressing base (closed codec fuel w).world := by
  apply Program.run_invariant (I := Compressing base) _ _ _ h
  · intro z w h
    exact ⟨h.engaged, h.passed, h.socket⟩
  · intro chunk w h
    rw [closing, writeText_world]
    exact write_invariant (fun data _ h => h.channelWrite hcodec data) _ (h.note rfl rfl)

theorem finish_done (hw : w.outer.failure = none) {w' : LineWorld Z}
    (h : closed codec fuel w = .done () w') :
    finish codec fuel w = setCompressionActive false { w' with engaged := false } := by
  have hrun : Codec.run (fun chunk w => writeText codec fuel chunk (w.note (.closing chunk.data)))
      (codec.doFinish w.inner) w = .done () w' := h
  rw [finish, attempt, if_pos hw, Codec.finish, hrun]

theorem finish_stopped (hw : w.outer.failure = none) {reason : Stop} {w' : LineWorld Z}
    (h : closed codec fuel w = .stopped reason w') : finish codec fuel w = fail reason w' := by
  have hrun : Codec.run (fun chunk w => writeText codec fuel chunk (w.note (.closing chunk.data)))
      (codec.doFinish w.inner) w = .stopped reason w' := h
  rw [finish, attempt, if_pos hw, Codec.finish, hrun]

/-- A finish that comes back leaves the codec disengaged, and on the socket
what it has put out before. -/
theorem Compressing.finish (hcodec : codec.Unending) (h : Compressing base w)
    (hw : w.outer.failure = none) (hfinish : (finish codec fuel w).outer.failure = none) :
    Finished base (finish codec fuel w) := by
  have hkept : Compressing base (Sender.closed codec fuel w).world := h.closed hcodec
  cases hclosed : Sender.closed codec fuel w with
  | done _ w' =>
      rw [hclosed] at hkept
      have hkept : Compressing base w' := hkept
      rw [finish_done hw hclosed] at hfinish ⊢
      refine ⟨rfl, hfinish, ?_⟩
      show w'.outer.socket = base ++ w'.recorded Passage.output? ++ w'.recorded Passage.passed?
      rw [hkept.passed, List.append_nil]
      exact hkept.socket
  | stopped reason w' =>
      rw [finish_stopped hw hclosed] at hfinish
      exact absurd hfinish (Option.some_ne_none reason)

theorem silentEnd_of_closed (hw : w.outer.failure = none) {w' : LineWorld Z}
    (hclosed : closed codec fuel w = .done () w') (hw' : w'.recorded Passage.closing? = []) :
    SilentEnd codec w := by
  refine ⟨hw, ?_⟩
  apply Program.alone_of_run (B := fun w => w.recorded Passage.closing? ≠ []) _ _ _ _ hclosed
    (not_not.mpr hw')
  · intro z w
    rfl
  · intro z w h
    exact h
  · intro chunk w h
    rw [recorded_closing]
    exact List.append_ne_nil_of_left_ne_nil h chunk.data
  · intro chunk w h
    rw [recorded_closing] at h
    obtain ⟨-, hchunk⟩ := List.append_eq_nil_iff.mp (not_not.mp h)
    refine ⟨hchunk, ?_⟩
    rw [closing, writeText_world, hchunk, write_nil]
    rfl

theorem closed_of_silentEnd (h : SilentEnd codec w) (hw : w.recorded Passage.closing? = []) :
    ∃ w', closed codec fuel w = .done () w' ∧ w'.outer.failure = none ∧
      w'.recorded Passage.closing? = [] := by
  obtain ⟨hfailure, hsilent, hreturned⟩ := h
  cases hend : (codec.doFinish w.inner).alone.2 with
  | stopped reason z =>
      rw [hend] at hreturned
      exact hreturned.elim
  | done u z =>
      let Silent (chunks : List Chunk) (w : LineWorld Z) : Prop :=
        (∀ chunk ∈ chunks, chunk.data = []) ∧ w.outer.failure = none ∧
          w.recorded Passage.closing? = []
      have hcall : ∀ chunk chunks w, Silent (chunk :: chunks) w →
          ∃ w', closing codec fuel chunk w = .done () w' ∧ w'.inner = w.inner ∧
            Silent chunks w' := by
        rintro chunk chunks w ⟨hall, hfailure, hclosing⟩
        obtain ⟨hchunk, hall⟩ := List.forall_mem_cons.mp hall
        refine ⟨_, closing_nil hchunk hfailure, rfl, hall, hfailure, ?_⟩
        rw [CodecWorld.recorded_note, hclosing]
        rfl
      have hget : ∀ z (w : LineWorld Z), (w.put z).inner = z := fun _ _ => rfl
      have hput : ∀ chunks z w, Silent chunks w → Silent chunks (w.put z) := fun _ _ _ h => h
      have hrun : ∃ w', closed codec fuel w = .done u w' ∧ w'.inner = z ∧ Silent [] w' :=
        Program.run_alone hget hput hcall (Prod.ext rfl hend) ⟨hsilent, hfailure, hw⟩
      obtain ⟨w', hw', -, -, hfailure', hclosing⟩ := hrun
      exact ⟨w', hw', hfailure', hclosing⟩

/-- The codec finishes without a byte exactly when it does so alone. -/
theorem finish_silent_iff (hfailure : w.outer.failure = none)
    (hw : w.recorded Passage.closing? = []) :
    ((finish codec fuel w).outer.failure = none ∧
      (finish codec fuel w).recorded Passage.closing? = []) ↔ SilentEnd codec w := by
  constructor
  · rintro ⟨hfinish, hclosing⟩
    cases hclosed : closed codec fuel w with
    | done _ w' =>
        rw [finish_done hfailure hclosed] at hclosing
        exact silentEnd_of_closed hfailure hclosed hclosing
    | stopped reason w' =>
        rw [finish_stopped hfailure hclosed] at hfinish
        exact absurd hfinish (Option.some_ne_none reason)
  · intro h
    have hclosed : ∃ w', closed codec fuel w = .done () w' ∧ _ := closed_of_silentEnd h hw
    obtain ⟨w', hw', hfailure', hclosing⟩ := hclosed
    rw [finish_done hfailure hw']
    exact ⟨hfailure', hclosing⟩

/-! ## The whole of a compressed stream -/

/-- Compression is active, and has not begun to end. -/
structure Active (base : Bytes) (w : LineWorld Z) : Prop extends Compressing base w where
  state : Running w.outer.state
  compressionActive : w.outer.compressionActive = true
  closing : w.recorded Passage.closing? = []

theorem Active.of_untouched {w' : LineWorld Z} (h : Active base w) (hw' : Compressing base w')
    (hsame : Untouched w w') : Active base w' := by
  refine ⟨hw', ?_, ?_, ?_⟩
  · rw [hsame.state]
    exact h.state
  · rw [hsame.compressionActive]
    exact h.compressionActive
  · rw [hsame.closing]
    exact h.closing

theorem Active.goesOn (hcodec : codec.Unending) (h : Active base w) {st : InternalState}
    (hst : Running st) (elems : List Element) :
    Active base (writes codec fuel elems (setState st w)) := by
  have hset : Active base (setState st w) :=
    ⟨⟨h.engaged, h.passed, h.socket⟩, hst, h.compressionActive, h.closing⟩
  apply hset.of_untouched _ (untouched_writes elems)
  exact writes_invariant (fun data _ h => h.channelWrite hcodec data) elems hset.toCompressing

/-- The world in which compression has just been started, with nothing on record. -/
def started (codec : Codec Z) (fuel : ℕ) (w : LineWorld Z) : LineWorld Z :=
  { startCompression codec fuel w with record := [] }

theorem active_started (hstate : w.outer.state = .active)
    (hfailure : (started codec fuel w).outer.failure = none) :
    Active (started codec fuel w).outer.socket (started codec fuel w) := by
  have hsame : Untouched w ((server codec fuel).writeSubnegotiation [] w) := untouched_write _
  have hactive : (server codec fuel).active w = true := by
    rw [TelnetOption.active, beq_iff_eq]
    exact hstate
  by_cases hsent : ((server codec fuel).writeSubnegotiation [] w).outer.failure = none
  · rw [started, startCompression, if_pos hactive, attempt, if_pos hsent]
    exact ⟨⟨rfl, rfl, (List.append_nil _).symm⟩, Or.inl (hsame.state.trans hstate), rfl, rfl⟩
  · rw [started, startCompression, if_pos hactive, attempt_failed hsent] at hfailure
    exact absurd hfailure hsent

theorem finish_inactive (hw : w.outer.failure = none)
    (hfinish : (finish codec fuel w).outer.failure = none) :
    (finish codec fuel w).outer.compressionActive = false := by
  cases hclosed : closed codec fuel w with
  | done _ w' =>
      rw [finish_done hw hclosed]
      rfl
  | stopped reason w' =>
      rw [finish_stopped hw hclosed] at hfinish
      exact absurd hfinish (Option.some_ne_none reason)

/-- While compression is active, and nothing has failed, it has not begun to end. -/
theorem active_step (hcodec : codec.Unending)
    (h : w.outer.failure = none → w.outer.compressionActive = true → Active base w) (i : Input)
    (hfailure : (step codec fuel w i).outer.failure = none)
    (hactive : (step codec fuel w i).outer.compressionActive = true) :
    Active base (step codec fuel w i) := by
  by_cases hnone : w.outer.failure = none
  · rw [step, if_pos hnone] at hfailure hactive ⊢
    have hbefore : w.outer.compressionActive = true := by
      by_contra hinactive
      rw [apply_inactive (Bool.eq_false_iff.mpr hinactive) i] at hactive
      exact Bool.false_ne_true hactive
    have hw := h hnone hbefore
    have heffect : Effect codec fuel (i.Ends w) w (i.apply codec fuel w) :=
      effect_apply hw.state hbefore i
    generalize i.apply codec fuel w = w' at heffect hfailure hactive ⊢
    cases heffect with
    | goesOn _ st hst elems => exact hw.goesOn hcodec hst elems
    | finishes _ st elems =>
        have hset : (setState st w).outer.failure = none := hnone
        by_cases hfinish : (finish codec fuel (setState st w)).outer.failure = none
        · rw [(untouched_writes elems).compressionActive, finish_inactive hset hfinish] at hactive
          exact absurd hactive Bool.false_ne_true
        · rw [writes_failed hfinish] at hfailure
          exact absurd hfailure hfinish
  · rw [step, if_neg hnone] at hfailure
    exact absurd hfailure hnone

/-- The stream stands on the socket as the codec has produced it: what it has
made of the data, what it has finished with, and what has been passed on since. -/
def Intact (base : Bytes) (w : LineWorld Z) : Prop :=
  w.outer.failure = none ∧
    w.outer.socket = base ++ w.recorded Passage.output? ++ w.recorded Passage.closing? ++
      w.recorded Passage.passed?

instance (base : Bytes) (w : LineWorld Z) : Decidable (Intact base w) :=
  inferInstanceAs (Decidable (_ ∧ _))

theorem Finished.intact_iff (h : Finished base w) :
    Intact base w ↔ w.recorded Passage.closing? = [] := by
  rw [Intact, h.socket]
  constructor
  · rintro ⟨-, hsocket⟩
    have hlength := congrArg List.length hsocket
    simp only [List.length_append] at hlength
    apply List.eq_nil_of_length_eq_zero
    omega
  · intro hclosing
    refine ⟨h.failure, ?_⟩
    rw [hclosing, List.append_nil]

theorem active_run (hcodec : codec.Unending) (hstate : w.outer.state = .active)
    (is : List Input) :
    let w' := run (step codec fuel) (started codec fuel w) is
    w'.outer.failure = none → w'.outer.compressionActive = true →
      Active (started codec fuel w).outer.socket w' :=
  run_invariant
    (R := fun w' => w'.outer.failure = none → w'.outer.compressionActive = true →
      Active (started codec fuel w).outer.socket w')
    (step codec fuel) (fun _ i h => active_step hcodec h i)
    (fun hfailure _ => active_started hstate hfailure) is

/-- The input with which compression ends leaves the stream intact exactly
when the codec finishes without a byte. -/
theorem Active.ends_intact_iff (hcodec : codec.Unending) (h : Active base w)
    (hfailure : w.outer.failure = none) {i : Input} (hends : i.Ends w) :
    Intact base (i.apply codec fuel w) ↔ SilentEnd codec w := by
  have heffect : Effect codec fuel (i.Ends w) w (i.apply codec fuel w) :=
    effect_apply h.state h.compressionActive i
  generalize i.apply codec fuel w = w' at heffect ⊢
  cases heffect with
  | goesOn hgoes => exact absurd hends hgoes
  | finishes _ st elems =>
      let w₂ := setState st w
      have hsilent : ((finish codec fuel w₂).outer.failure = none ∧
          (finish codec fuel w₂).recorded Passage.closing? = []) ↔ SilentEnd codec w :=
        finish_silent_iff hfailure h.closing
      have hset : Compressing base w₂ := ⟨h.engaged, h.passed, h.socket⟩
      by_cases hfinish : (finish codec fuel w₂).outer.failure = none
      · have hfinished : Finished base (writes codec fuel elems (finish codec fuel w₂)) :=
          writes_invariant (fun data _ h => h.channelWrite data) elems
            (hset.finish hcodec hfailure hfinish)
        rw [hfinished.intact_iff, (untouched_writes elems).closing, ← hsilent]
        simp only [hfinish, true_and]
      · rw [writes_failed hfinish, ← hsilent]
        exact ⟨fun hintact => absurd hintact.1 hfinish, fun hboth => absurd hboth.1 hfinish⟩

theorem run_intact_iff (hcodec : codec.Unending) (fuel : ℕ) (hstate : w.outer.state = .active)
    (before : List Input) {last : Input} :
    let w₀ := started codec fuel w
    let w₁ := run (step codec fuel) w₀ before
    w₁.outer.compressionActive = true → last.Ends w₁ →
      (Intact w₀.outer.socket (run (step codec fuel) w₀ (before ++ [last])) ↔
        SilentEnd codec w₁) := by
  intro w₀ w₁ hactive hends
  rw [run_append, run_cons, run_nil, step]
  by_cases hfailure : w₁.outer.failure = none
  · rw [if_pos hfailure]
    exact (active_run hcodec hstate before hfailure hactive).ends_intact_iff hcodec hfailure hends
  · rw [if_neg hfailure]
    exact ⟨fun h => absurd h.1 hfailure, fun h => absurd h.1 hfailure⟩

/-- The compressor of the server's tests, without their mark at the end. -/
def flipping : Codec Unit where
  doStart := id
  doFinish z := .done () z
  transformChunk data z := .call ⟨data.map (· ^^^ 0x20), false⟩ z fun z => .done [] z

theorem unending_flipping : flipping.Unending := fun _ _ => And.intro rfl fun _ => trivial

theorem run_intact_iff_flipping :
    Intact (started flipping 1 ⟨false, (), { state := .active }, []⟩).outer.socket
        (run (step flipping 1) (started flipping 1 ⟨false, (), { state := .active }, []⟩)
          ([.text [97, 255], .call .deactivate] ++ [.receive (.negotiation ⟨dont, option⟩)])) ↔
      SilentEnd flipping
        (run (step flipping 1) (started flipping 1 ⟨false, (), { state := .active }, []⟩)
          [.text [97, 255], .call .deactivate]) :=
  run_intact_iff unending_flipping 1 rfl [.text [97, 255], .call .deactivate]
    rfl (by decide)

/-! ## The compressor -/

open Zlib

variable {S : Type} {lib : Deflate S} {W : Writing S}

theorem unending_compressor (lib : Deflate S) (n : ℕ) : (compressor lib n).Unending := by
  intro data stream
  simp only [compressor, compressChunk]
  split
  · refine ⟨rfl, ?_⟩
    rintro (_ | stream) <;> trivial
  · trivial

theorem compressor_not_silent (hlib : WritesTrailer lib W) {w : LineWorld (Option (ZStream S))}
    (hvalid : W.Valid (deflating lib w.inner)) (n : ℕ) : ¬ SilentEnd (compressor lib n) w := by
  rintro ⟨-, hsilent, hreturned⟩
  cases n with
  | zero => exact hreturned
  | succ n =>
      apply hlib _ outputBufferSize hvalid (by decide)
      exact hsilent _ (List.mem_cons_self ..)

/-- Over zlib no compressed stream arrives as it has been produced. -/
theorem compressor_not_intact (hlib : WritesTrailer lib W) (n : ℕ)
    {w : LineWorld (Option (ZStream S))} (h : Active base w)
    (hvalid : W.Valid (deflating lib w.inner)) (hfailure : w.outer.failure = none) {i : Input}
    (hends : i.Ends w) : ¬ Intact base (i.apply (compressor lib n) fuel w) := by
  rw [h.ends_intact_iff (unending_compressor lib n) hfailure hends]
  exact compressor_not_silent hlib hvalid n

/-- A byte is written and compression is finished. The stream is complete when
its trailer is handed back to it. -/
theorem trailer_not_intact :
    let codec := compressor Stored.library 1
    let w₀ := started codec 8 ⟨false, none, { state := .active }, []⟩
    let w := run (step codec 8) w₀ [.text [97], .finish]
    w.outer.failure = some .assertion ∧ ¬ Intact w₀.outer.socket w := by
  decide +kernel

end Telnetpp.Mccp.Sender
