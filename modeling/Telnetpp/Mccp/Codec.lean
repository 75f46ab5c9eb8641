import Telnetpp.Core
import Telnetpp.Foundation.Callback
import Telnetpp.Foundation.Loop

/-!
# Codecs

A codec transforms what passes through it while it is engaged. Whether it is
engaged is written by its own loop, by `start` and by `finish`, and the last
two may be called from inside the continuation that the loop hands the data to.
-/

namespace Telnetpp.Mccp

open Foundation

/-- Why a call of a codec does not come back. `running` is for a call that has
not come back within the rounds that it was given. -/
inductive Stop
  | corruptedStream (whatArg : String)
  | assertion
  | running
  deriving DecidableEq, Repr

/-- What a continuation is called with. -/
structure Chunk where
  data : Bytes
  ended : Bool
  deriving DecidableEq, Repr

abbrev CodecProgram (Z α : Type) := Program Stop Chunk Z α

/-- The virtual functions, over what a derived class adds to the state of a codec. -/
structure Codec (Z : Type) where
  doStart : Z → Z
  doFinish : Z → CodecProgram Z Unit
  transformChunk : Bytes → Z → CodecProgram Z Bytes

/-- What becomes of the data at a codec, for the record. -/
inductive Passage
  | passed (data : Bytes)
  | transformed (data : Bytes)
  | output (data : Bytes)
  | closing (data : Bytes)
  deriving DecidableEq, Repr

namespace Passage

def passed? : Passage → Option Bytes
  | .passed data => some data
  | _ => none

def transformed? : Passage → Option Bytes
  | .transformed data => some data
  | _ => none

def output? : Passage → Option Bytes
  | .output data => some data
  | _ => none

def closing? : Passage → Option Bytes
  | .closing data => some data
  | _ => none

/-- The bytes that `operator()` has handed on. -/
def delivered? : Passage → Option Bytes
  | .passed data => some data
  | .output data => some data
  | _ => none

/-- The input that has been passed on or transformed. -/
def input? : Passage → Option Bytes
  | .passed data => some data
  | .transformed data => some data
  | _ => none

end Passage

/-- The codec and all that its continuation can reach. `record` is not part of
the program. -/
structure CodecWorld (Z κ : Type) where
  engaged : Bool := false
  inner : Z
  outer : κ
  record : List Passage := []

namespace CodecWorld

variable {Z κ : Type}

def put (z : Z) (w : CodecWorld Z κ) : CodecWorld Z κ := { w with inner := z }

def note (p : Passage) (w : CodecWorld Z κ) : CodecWorld Z κ :=
  { w with record := w.record ++ [p] }

/-- The bytes of one kind in the record. -/
def recorded (kind : Passage → Option Bytes) (w : CodecWorld Z κ) : Bytes :=
  (w.record.filterMap kind).flatten

@[simp] theorem recorded_note (kind : Passage → Option Bytes) (p : Passage)
    (w : CodecWorld Z κ) :
    (w.note p).recorded kind = w.recorded kind ++ (kind p).getD [] := by
  cases h : kind p <;> simp [recorded, note, h]

end CodecWorld

abbrev Continuation (Z κ : Type) := Chunk → CodecWorld Z κ → Outcome Stop (CodecWorld Z κ) Unit

/-- A continuation that does not call the codec. -/
def passive {Z κ : Type} (take : Chunk → κ → κ) : Continuation Z κ := fun chunk w =>
  .done () { w with outer := take chunk w.outer }

namespace Codec

variable {Z κ : Type} (codec : Codec Z)

def start (w : CodecWorld Z κ) : CodecWorld Z κ :=
  { w with engaged := true, inner := codec.doStart w.inner }

def run {α : Type} (cont : Continuation Z κ) :
    CodecProgram Z α → CodecWorld Z κ → Outcome Stop (CodecWorld Z κ) α :=
  Program.run CodecWorld.inner CodecWorld.put cont

def finish (cont : Continuation Z κ) (w : CodecWorld Z κ) :
    Outcome Stop (CodecWorld Z κ) Unit :=
  match run (fun chunk w => cont chunk (w.note (.closing chunk.data)))
      (codec.doFinish w.inner) w with
  | .done _ w' => .done () { w' with engaged := false }
  | .stopped reason w' => .stopped reason w'

/-- What `operator()` hands to `transform_chunk`. -/
def forward (cont : Continuation Z κ) : Continuation Z κ := fun chunk w =>
  cont chunk { w.note (.output chunk.data) with engaged := !chunk.ended }

/-- One round of the loop in `operator()`. -/
def round (cont : Continuation Z κ) :
    Bytes × CodecWorld Z κ →
      Round (Bytes × CodecWorld Z κ) (Outcome Stop (CodecWorld Z κ) Unit)
  | (data, w) =>
      if data = [] then .exit (.done () w)
      else if w.engaged then
        match run (forward cont) (codec.transformChunk data w.inner) w with
        | .done rest w' =>
            .next (rest, w'.note (.transformed (data.take (data.length - rest.length))))
        | .stopped reason w' => .exit (.stopped reason w')
      else
        -- every byte might engage the codec
        match cont ⟨data.take 1, false⟩ (w.note (.passed (data.take 1))) with
        | .done _ w' => .next (data.drop 1, w')
        | .stopped reason w' => .exit (.stopped reason w')

/-- `operator()` comes back in this way. -/
def Transforms (cont : Continuation Z κ) (data : Bytes) (w : CodecWorld Z κ)
    (o : Outcome Stop (CodecWorld Z κ) Unit) : Prop :=
  Returns (codec.round cont) (data, w) o

/-- `operator()`, given up after `fuel` rounds. -/
def operator (cont : Continuation Z κ) (fuel : ℕ) (data : Bytes) (w : CodecWorld Z κ) :
    Outcome Stop (CodecWorld Z κ) Unit :=
  (loop (codec.round cont) fuel (data, w)).getD (.stopped .running w)

/-- The end of the stream is left to `finish`. -/
def Unending : Prop :=
  ∀ data z, (codec.transformChunk data z).AllCalls fun chunk => chunk.ended = false

/-- A property of every call, when `operator()` is called with one span after
another for as long as the outcomes are accepted. -/
def EveryCall (cont : Continuation Z κ) (accept : Outcome Stop (CodecWorld Z κ) Unit → Prop)
    (P : Bytes → CodecWorld Z κ → Prop) : CodecWorld Z κ → List Bytes → Prop
  | _, [] => True
  | w, data :: spans => P data w ∧ ∀ o, codec.Transforms cont data w o → accept o →
      EveryCall cont accept P o.world spans

/-- `operator()` comes back from one span after another. -/
def Processes (cont : Continuation Z κ) : CodecWorld Z κ → List Bytes → CodecWorld Z κ → Prop
  | w, [], w' => w = w'
  | w, data :: spans, w' => ∃ w₁, codec.Transforms cont data w (.done () w₁) ∧
      Processes cont w₁ spans w'

variable {codec} {cont : Continuation Z κ} {data : Bytes} {w : CodecWorld Z κ}

/-- A program that makes one call and then returns. -/
theorem run_call_done {α : Type} {a : α} {chunk : Chunk} {z : Z} {w' : CodecWorld Z κ}
    (h : cont chunk (w.put z) = .done () w') :
    run cont (.call chunk z (.done a)) w = .done a w' := by
  rw [run, Program.run, h]
  rfl

/-- A continuation that leaves the derived class alone. -/
theorem map_run {α : Type}
    (hcont : ∀ chunk w, ∃ w', cont chunk w = .done () w' ∧ w'.inner = w.inner)
    (p : CodecProgram Z α) (w : CodecWorld Z κ) :
    (run cont p w).map CodecWorld.inner = p.alone.2 :=
  Program.map_run (fun _ _ => rfl) hcont p w

theorem map_finish
    (hcont : ∀ chunk w, ∃ w', cont chunk w = .done () w' ∧ w'.inner = w.inner)
    (w : CodecWorld Z κ) :
    (codec.finish cont w).map CodecWorld.inner = (codec.doFinish w.inner).alone.2 := by
  have hclosing := map_run (fun chunk w => hcont chunk (w.note (.closing chunk.data)))
    (codec.doFinish w.inner) w
  rw [← hclosing, finish]
  cases run (fun chunk w => cont chunk (w.note (.closing chunk.data)))
    (codec.doFinish w.inner) w <;> rfl

theorem round_nil : codec.round cont ([], w) = .exit (.done () w) := by
  rw [round, if_pos rfl]

theorem round_of_done {rest : Bytes} {w' : CodecWorld Z κ} (hdata : data ≠ [])
    (hw : w.engaged = true)
    (hrun : run (forward cont) (codec.transformChunk data w.inner) w = .done rest w') :
    codec.round cont (data, w) =
      .next (rest, w'.note (.transformed (data.take (data.length - rest.length)))) := by
  rw [round, if_neg hdata, if_pos hw, hrun]

theorem round_of_stopped {reason : Stop} {w' : CodecWorld Z κ} (hdata : data ≠ [])
    (hw : w.engaged = true)
    (hrun : run (forward cont) (codec.transformChunk data w.inner) w = .stopped reason w') :
    codec.round cont (data, w) = .exit (.stopped reason w') := by
  rw [round, if_neg hdata, if_pos hw, hrun]

theorem round_disengaged (hdata : data ≠ []) (hw : w.engaged = false) :
    codec.round cont (data, w) =
      match cont ⟨data.take 1, false⟩ (w.note (.passed (data.take 1))) with
      | .done _ w' => .next (data.drop 1, w')
      | .stopped reason w' => .exit (.stopped reason w') := by
  rw [round, if_neg hdata, if_neg (by simp [hw])]

theorem round_of_passed {w' : CodecWorld Z κ} (hdata : data ≠ []) (hw : w.engaged = false)
    (hcont : cont ⟨data.take 1, false⟩ (w.note (.passed (data.take 1))) = .done () w') :
    codec.round cont (data, w) = .next (data.drop 1, w') := by
  rw [round_disengaged hdata hw, hcont]

theorem ne_nil_of_round_next {s : Bytes × CodecWorld Z κ}
    (h : codec.round cont (data, w) = .next s) : data ≠ [] := by
  rintro rfl
  rw [round_nil] at h
  simp at h

/-- A call that comes back has gone through all of its data. -/
theorem nil_of_round_done {data : Bytes} {w w' : CodecWorld Z κ}
    (h : codec.round cont (data, w) = .exit (.done () w')) : data = [] ∧ w = w' := by
  by_cases hdata : data = []
  · rw [hdata, round_nil] at h
    exact ⟨hdata, (Outcome.done.inj (Round.exit.inj h)).2⟩
  · exfalso
    rw [round, if_neg hdata] at h
    split at h
    · split at h <;> simp at h
    · split at h <;> simp at h

/-- A call whose every round advances and keeps an invariant comes back. -/
theorem transforms_of_rounds {I : Bytes → CodecWorld Z κ → Prop}
    (hround : ∀ data w, data ≠ [] → I data w →
      ∃ n w', 0 < n ∧ codec.round cont (data, w) = .next (data.drop n, w') ∧ I (data.drop n) w')
    {data : Bytes} {w : CodecWorld Z κ} (hw : I data w) :
    ∃ w', codec.Transforms cont data w (.done () w') ∧ I [] w' := by
  induction hlength : data.length using Nat.strongRecOn generalizing data w with
  | ind length ih =>
      by_cases hdata : data = []
      · subst hdata
        exact ⟨w, (returns_of_exit round_nil).mpr rfl, hw⟩
      · obtain ⟨n, w₁, hn, hnext, hw₁⟩ := hround data w hdata hw
        have hpos := List.length_pos_of_ne_nil hdata
        have hshorter : (data.drop n).length < length := by
          rw [List.length_drop]
          omega
        obtain ⟨w', hreturns, hw'⟩ := ih _ hshorter hw₁ rfl
        exact ⟨w', (returns_of_next hnext).mpr hreturns, hw'⟩

/-- What a round leaves has what the chunk that it transforms, or the byte that it passes
on, leaves. -/
theorem round_all {I : CodecWorld Z κ → Prop} (hw : I w)
    (hchunk : w.engaged = true →
      I (run (forward cont) (codec.transformChunk data w.inner) w).world)
    (htransformed : ∀ data w, I w → I (w.note (.transformed data)))
    (hpass : w.engaged = false →
      I (cont ⟨data.take 1, false⟩ (w.note (.passed (data.take 1)))).world) :
    (codec.round cont (data, w)).All (fun s => I s.2) fun o => I o.world := by
  by_cases hdata : data = []
  · rw [hdata, round_nil]
    exact hw
  · cases hengaged : w.engaged with
    | true =>
        have hrun := hchunk hengaged
        cases hend : run (forward cont) (codec.transformChunk data w.inner) w with
        | done rest w' =>
            rw [round_of_done hdata hengaged hend]
            rw [hend] at hrun
            exact htransformed _ w' hrun
        | stopped reason w' =>
            rw [round_of_stopped hdata hengaged hend]
            rw [hend] at hrun
            exact hrun
    | false =>
        have hpassed := hpass hengaged
        rw [round_disengaged hdata hengaged]
        cases hend : cont ⟨data.take 1, false⟩ (w.note (.passed (data.take 1))) with
        | done _ w' =>
            rw [hend] at hpassed
            exact hpassed
        | stopped reason w' =>
            rw [hend] at hpassed
            exact hpassed

/-- What every round keeps, and every way out of the loop, is kept by `operator()`. -/
theorem operator_invariant {I : CodecWorld Z κ → Prop} {P : Chunk → Prop}
    (hcodec : ∀ data z, (codec.transformChunk data z).AllCalls P)
    (hput : ∀ z w, I w → I (w.put z))
    (hforward : ∀ chunk w, P chunk → I w → I (forward cont chunk w).world)
    (htransformed : ∀ data w, I w → I (w.note (.transformed data)))
    (hpass : ∀ data w, w.engaged = false → I w →
      I (cont ⟨data, false⟩ (w.note (.passed data))).world)
    (fuel : ℕ) (data : Bytes) {w : CodecWorld Z κ} (hw : I w) :
    I (codec.operator cont fuel data w).world := by
  have hround : ∀ s : Bytes × CodecWorld Z κ, I s.2 →
      (codec.round cont s).All (fun s => I s.2) fun o => I o.world := by
    rintro ⟨data, w⟩ hw
    refine round_all hw (fun _ => ?_) htransformed fun hengaged => hpass _ w hengaged hw
    exact Program.run_invariant_of_allCalls hput hforward (hcodec data w.inner) hw
  rw [operator]
  cases hloop : loop (codec.round cont) fuel (data, w) with
  | none => exact hw
  | some o =>
      have hreturns : Returns (codec.round cont) (data, w) o := ⟨fuel, hloop⟩
      exact hreturns.satisfies_of_all (Q := fun o => I o.world) hround hw

/-- A codec that stays disengaged passes all of the data on, in a round for every byte. -/
theorem operator_disengaged {I : CodecWorld Z κ → Prop} (hengaged : ∀ w, I w → w.engaged = false)
    (hpass : ∀ data w, I w →
      ∃ w', cont ⟨data, false⟩ (w.note (.passed data)) = .done () w' ∧ I w')
    {fuel : ℕ} {data : Bytes} (hfuel : data.length < fuel) {w : CodecWorld Z κ} (hw : I w) :
    ∃ w', codec.operator cont fuel data w = .done () w' ∧ I w' := by
  have hloop : ∃ w', loop (codec.round cont) fuel (data, w) = some (.done () w') ∧ I w' := by
    induction fuel generalizing data w with
    | zero => exact absurd hfuel (Nat.not_lt_zero _)
    | succ fuel ih =>
        rw [loop]
        by_cases hdata : data = []
        · rw [hdata, round_nil]
          exact ⟨w, rfl, hw⟩
        · obtain ⟨w₁, hcont, hw₁⟩ := hpass (data.take 1) w hw
          have hpos := List.length_pos_of_ne_nil hdata
          rw [round_of_passed hdata (hengaged w hw) hcont]
          apply ih _ hw₁
          rw [List.length_drop]
          omega
  obtain ⟨w', hw', hI⟩ := hloop
  refine ⟨w', ?_, hI⟩
  rw [operator, hw', Option.getD_some]

theorem processes_of_rounds {I : Bytes → CodecWorld Z κ → Prop}
    (hround : ∀ data future w, data ≠ [] → I (data ++ future) w →
      ∃ n w', 0 < n ∧ codec.round cont (data, w) = .next (data.drop n, w') ∧
        I (data.drop n ++ future) w')
    {spans : List Bytes} {w : CodecWorld Z κ} (hw : I spans.flatten w) :
    ∃ w', codec.Processes cont w spans w' ∧ I [] w' := by
  induction spans generalizing w with
  | nil => exact ⟨w, rfl, hw⟩
  | cons data spans ih =>
      obtain ⟨w₁, hreturns, hw₁⟩ := transforms_of_rounds
        (I := fun data w => I (data ++ spans.flatten) w)
        (fun data w => hround data spans.flatten w) hw
      obtain ⟨w', hprocesses, hw'⟩ := ih hw₁
      exact ⟨w', ⟨w₁, hreturns, hprocesses⟩, hw'⟩

section EveryCall

variable {accept : Outcome Stop (CodecWorld Z κ) Unit → Prop} {P Q : Bytes → CodecWorld Z κ → Prop}
  {I : CodecWorld Z κ → Prop} {S : Bytes → Prop}

/-- What follows for one call that finds an invariant follows for every call of
a run, if the invariant is found again. -/
theorem EveryCall.imp (hPQ : ∀ data w, S data → I w → P data w → Q data w)
    (hI : ∀ data w o, S data → I w → P data w → codec.Transforms cont data w o → accept o →
      I o.world)
    {w : CodecWorld Z κ} (hw : I w) {spans : List Bytes} (hspans : ∀ data ∈ spans, S data)
    (h : codec.EveryCall cont accept P w spans) : codec.EveryCall cont accept Q w spans := by
  induction spans generalizing w with
  | nil => trivial
  | cons data spans ih =>
      obtain ⟨hdata, hspans⟩ := List.forall_mem_cons.mp hspans
      obtain ⟨hP, hall⟩ := h
      refine ⟨hPQ data w hdata hw hP, ?_⟩
      intro o ho haccept
      exact ih (hI data w o hdata hw hP ho haccept) hspans (hall o ho haccept)

/-- Properties that agree on the calls of a run, and go on agreeing after
every call that has them, are properties of every call alike. -/
theorem everyCall_congr (hPQ : ∀ data w, S data → I w → (P data w ↔ Q data w))
    (hI : ∀ data w o, S data → I w → P data w → codec.Transforms cont data w o → accept o →
      I o.world)
    {w : CodecWorld Z κ} (hw : I w) {spans : List Bytes} (hspans : ∀ data ∈ spans, S data) :
    codec.EveryCall cont accept P w spans ↔ codec.EveryCall cont accept Q w spans := by
  constructor
  · apply EveryCall.imp (I := I) (S := S) _ hI hw hspans
    intro data w hdata hw
    exact (hPQ data w hdata hw).mp
  · apply EveryCall.imp (I := I) (S := S) _ _ hw hspans
    · intro data w hdata hw
      exact (hPQ data w hdata hw).mpr
    · intro data w o hdata hw hQ
      exact hI data w o hdata hw ((hPQ data w hdata hw).mpr hQ)

end EveryCall

end Codec

/-! ## Codecs on a larger state -/

def CodecWorld.map {Z Z' κ κ' : Type} (f : Z → Z') (g : κ → κ') (w : CodecWorld Z κ) :
    CodecWorld Z' κ' :=
  ⟨w.engaged, f w.inner, g w.outer, w.record⟩

/-- The codec is the other one on a state that has more in it. -/
structure Codec.Projects {Z Z' : Type} (f : Z → Z') (codec : Codec Z) (codec' : Codec Z') :
    Prop where
  doStart : ∀ z, f (codec.doStart z) = codec'.doStart (f z)
  doFinish : ∀ z, Program.Projects f (codec.doFinish z) (codec'.doFinish (f z))
  transformChunk : ∀ data z,
    Program.Projects f (codec.transformChunk data z) (codec'.transformChunk data (f z))

namespace Codec

variable {Z Z' κ κ' : Type} {f : Z → Z'} {g : κ → κ'} {codec : Codec Z} {codec' : Codec Z'}
  {cont : Continuation Z κ} {cont' : Continuation Z' κ'}

/-- One continuation does to the smaller state what the other does to the larger. -/
def ProjectsCont (f : Z → Z') (g : κ → κ') (cont : Continuation Z κ)
    (cont' : Continuation Z' κ') : Prop :=
  ∀ chunk w, (cont chunk w).map (CodecWorld.map f g) = cont' chunk (w.map f g)

theorem ProjectsCont.forward (h : ProjectsCont f g cont cont') :
    ProjectsCont f g (forward cont) (forward cont') :=
  fun chunk w => h chunk { w.note (.output chunk.data) with engaged := !chunk.ended }

theorem ProjectsCont.closing (h : ProjectsCont f g cont cont') :
    ProjectsCont f g (fun chunk w => cont chunk (w.note (.closing chunk.data)))
      fun chunk w => cont' chunk (w.note (.closing chunk.data)) :=
  fun chunk w => h chunk (w.note (.closing chunk.data))

theorem ProjectsCont.run {α : Type} (h : ProjectsCont f g cont cont') {p : CodecProgram Z α}
    {p' : CodecProgram Z' α} (hp : Program.Projects f p p') (w : CodecWorld Z κ) :
    (Codec.run cont p w).map (CodecWorld.map f g) = Codec.run cont' p' (w.map f g) := by
  have hget (w : CodecWorld Z κ) : f w.inner = (w.map f g).inner := rfl
  have hput (z : Z) (w : CodecWorld Z κ) : (w.put z).map f g = (w.map f g).put (f z) := rfl
  exact hp.run hget hput h w

theorem Projects.start (h : codec.Projects f codec') (w : CodecWorld Z κ) :
    (codec.start w).map f g = codec'.start (w.map f g) :=
  congrArg (fun z => (⟨true, z, g w.outer, w.record⟩ : CodecWorld Z' κ')) (h.doStart w.inner)

theorem Projects.finish (h : codec.Projects f codec') (hcont : ProjectsCont f g cont cont')
    (w : CodecWorld Z κ) :
    (codec.finish cont w).map (CodecWorld.map f g) = codec'.finish cont' (w.map f g) := by
  have hrun := hcont.closing.run (h.doFinish w.inner) w
  rw [Codec.finish, Codec.finish]
  change _ = match Codec.run _ (codec'.doFinish (f w.inner)) (w.map f g) with
    | .done _ w' => _
    | .stopped reason w' => _
  rw [← hrun]
  cases Codec.run _ (codec.doFinish w.inner) w <;> rfl

theorem Projects.round (h : codec.Projects f codec') (hcont : ProjectsCont f g cont cont')
    (s : Bytes × CodecWorld Z κ) :
    (codec.round cont s).map (fun s => (s.1, s.2.map f g)) (Outcome.map (CodecWorld.map f g)) =
      codec'.round cont' (s.1, s.2.map f g) := by
  rcases s with ⟨data, w⟩
  by_cases hdata : data = []
  · rw [hdata, round_nil, round_nil]
    rfl
  · show _ = codec'.round cont' (data, w.map f g)
    cases hengaged : w.engaged with
    | true =>
        have hrun := hcont.forward.run (h.transformChunk data w.inner) w
        cases hend : Codec.run (Codec.forward cont) (codec.transformChunk data w.inner) w with
        | done rest w' =>
            rw [hend] at hrun
            rw [round_of_done hdata hengaged hend]
            exact (round_of_done (w := w.map f g) hdata hengaged hrun.symm).symm
        | stopped reason w' =>
            rw [hend] at hrun
            rw [round_of_stopped hdata hengaged hend]
            exact (round_of_stopped (w := w.map f g) hdata hengaged hrun.symm).symm
    | false =>
        have hpassed := hcont ⟨data.take 1, false⟩ (w.note (.passed (data.take 1)))
        rw [round_disengaged hdata hengaged, round_disengaged (w := w.map f g) hdata hengaged]
        change _ = cont' _ ((w.map f g).note (.passed (data.take 1))) at hpassed
        rw [← hpassed]
        cases cont ⟨data.take 1, false⟩ (w.note (.passed (data.take 1))) <;> rfl

theorem Projects.transforms (h : codec.Projects f codec') (hcont : ProjectsCont f g cont cont')
    {data : Bytes} {w : CodecWorld Z κ} {o : Outcome Stop (CodecWorld Z κ) Unit}
    (ho : codec.Transforms cont data w o) :
    codec'.Transforms cont' data (w.map f g) (o.map (CodecWorld.map f g)) := by
  have hreturns := Returns.map (h.round hcont) ho
  exact hreturns

end Codec

end Telnetpp.Mccp
