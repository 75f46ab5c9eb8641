import Telnetpp.Mccp.Zlib

/-!
# The contract of deflate

What is documented of `deflate` with Z_SYNC_FLUSH, and a library that keeps to
it: one that stores its input, as zlib does with input that it cannot compress.
-/

namespace Telnetpp.Mccp.Zlib

variable {S : Type}

/-! ## The contract of the library -/

/-- How the states of the library are read: the input that a stream has taken,
the output that it has written and what is pending inside it; what a flush
comes to; and which output decodes to which data. -/
structure Writing (S : Type) where
  Valid : S → Prop
  taken : S → Bytes
  written : S → Bytes
  pending : S → Bytes
  flushed : S → Bytes → Bytes
  Decodes : Bytes → Bytes → Prop

/-- What is documented of one call with Z_SYNC_FLUSH, input and room. -/
structure LawfulFlush (W : Writing S) (s : S) (input : Bytes) (room : ℕ) (r : Reply S) :
    Prop where
  valid : W.Valid r.state
  response : r.response = .ok
  consumed_le : r.consumed ≤ input.length
  produced_le : r.produced.length ≤ room
  taken : W.taken r.state = W.taken s ++ input.take r.consumed
  written : W.written r.state = W.written s ++ r.produced
  progress : 0 < r.consumed ∨ r.produced ≠ []
  flushed : r.consumed = input.length → r.produced ++ W.pending r.state = W.flushed s input
  full : r.consumed < input.length ∨ W.pending r.state ≠ [] → r.produced.length = room
  decodes : r.consumed = input.length → W.pending r.state = [] →
    W.Decodes (W.written r.state) (W.taken r.state)

structure DeflateLaws (lib : Deflate S) (W : Writing S) : Prop where
  valid_init : W.Valid lib.init
  taken_init : W.taken lib.init = []
  written_init : W.written lib.init = []
  decodes_nil : W.Decodes [] []
  call : ∀ s input room, W.Valid s → input ≠ [] → 0 < room →
    LawfulFlush W s input room (lib.deflate s .syncFlush input room)

/-- What is documented of Z_FINISH: a stream that is not being finished yet
has at least a trailer to write. -/
def WritesTrailer (lib : Deflate S) (W : Writing S) : Prop :=
  ∀ s room, W.Valid s → 0 < room → (lib.deflate s .finish [] room).produced ≠ []

/-! ## A library that stores -/

namespace Stored

/-- The state of a stream: what it has taken and written, and the output that
it has not had room for. -/
structure Store where
  taken : Bytes := []
  written : Bytes := []
  pending : Bytes := [0x78, 0x9C]
  finished : Bool := false

/-- A stored block. -/
def block (data : Bytes) : Bytes :=
  let low := UInt8.ofNat data.length
  let high := UInt8.ofNat (data.length / 256)
  [0x00, low, high, 255 - low, 255 - high] ++ data

/-- The input in pieces that fit a stored block. -/
def pieces (data : Bytes) : List Bytes :=
  if data.length ≤ 65535 then [data] else data.take 65535 :: pieces (data.drop 65535)
termination_by data.length

/-- What a flush adds: the input, and an empty block that aligns it. -/
def flush (input : Bytes) : Bytes := (pieces input ++ [[]]).flatMap block

/-- The checksum of a stream, as it stands in the trailer. -/
def adler32 (data : Bytes) : Bytes :=
  let step := fun (s : ℕ × ℕ) (byte : Byte) =>
    let low := (s.1 + byte.toNat) % 65521
    (low, (s.2 + low) % 65521)
  let s := data.foldl step (1, 0)
  [UInt8.ofNat (s.2 / 256), UInt8.ofNat s.2, UInt8.ofNat (s.1 / 256), UInt8.ofNat s.1]

/-- The last block, which is empty, and the trailer. -/
def trailer (s : Store) : Bytes := [0x03, 0x00] ++ adler32 s.taken

def deflate (s : Store) (kind : Flush) (input : Bytes) (room : ℕ) : Reply Store :=
  match kind with
  | .syncFlush =>
      -- a stream that is being finished takes no more input
      if s.finished then ⟨.streamError, 0, [], s⟩
      else
        let output := s.pending ++ flush input
        ⟨.ok, input.length, output.take room,
          { s with
            taken := s.taken ++ input
            written := s.written ++ output.take room
            pending := output.drop room }⟩
  | .finish =>
      let output := s.pending ++ if s.finished then [] else trailer s
      ⟨if output.length ≤ room then .streamEnd else .ok, 0, output.take room,
        { s with
          written := s.written ++ output.take room
          pending := output.drop room
          finished := true }⟩

def library : Deflate Store := ⟨{}, deflate⟩

/-- A header, and stored blocks that hold the data. -/
def Decodes (output data : Bytes) : Prop :=
  (output = [] ∧ data = []) ∨
    ∃ parts : List Bytes, output = [0x78, 0x9C] ++ parts.flatMap block ∧ data = parts.flatten

def writing : Writing Store where
  Valid s := Decodes (s.written ++ s.pending) s.taken ∧ s.written ++ s.pending ≠ [] ∧
    s.finished = false
  taken := Store.taken
  written := Store.written
  pending := Store.pending
  flushed s input := s.pending ++ flush input
  Decodes := Decodes

theorem pieces_flatten (data : Bytes) : (pieces data).flatten = data := by
  fun_induction pieces data with
  | case1 data h => simp
  | case2 data h ih =>
      rw [List.flatten_cons, ih]
      exact List.take_append_drop 65535 data

/-- What decodes goes on decoding after a flush. -/
theorem decodes_flush {output data : Bytes} (h : Decodes output data) (houtput : output ≠ [])
    (input : Bytes) : Decodes (output ++ flush input) (data ++ input) := by
  rcases h with ⟨hnil, -⟩ | ⟨parts, rfl, rfl⟩
  · exact absurd hnil houtput
  · refine Or.inr ⟨parts ++ (pieces input ++ [[]]), ?_, ?_⟩
    · rw [List.flatMap_append, ← List.append_assoc]
      rfl
    · rw [List.flatten_append, List.flatten_append, pieces_flatten]
      simp

theorem deflate_syncFlush {s : Store} (h : s.finished = false) (input : Bytes) (room : ℕ) :
    deflate s .syncFlush input room =
      ⟨.ok, input.length, (s.pending ++ flush input).take room,
        { s with
          taken := s.taken ++ input
          written := s.written ++ (s.pending ++ flush input).take room
          pending := (s.pending ++ flush input).drop room }⟩ := by
  rw [deflate, if_neg (by simp [h])]

theorem lawful_flush {s : Store} {input : Bytes} {room : ℕ} (hvalid : writing.Valid s)
    (hinput : input ≠ []) :
    LawfulFlush writing s input room (deflate s .syncFlush input room) := by
  have hsplit : (s.written ++ (s.pending ++ flush input).take room) ++
      (s.pending ++ flush input).drop room = (s.written ++ s.pending) ++ flush input := by
    rw [List.append_assoc, List.take_append_drop, List.append_assoc]
  obtain ⟨hwritten, hne, hfinished⟩ := hvalid
  have hdecodes := decodes_flush hwritten hne input
  rw [← hsplit] at hdecodes
  rw [deflate_syncFlush hfinished]
  constructor
  case valid =>
    refine ⟨hdecodes, ?_, hfinished⟩
    intro hnil
    exact hne (List.append_eq_nil_iff.mp (hsplit.symm.trans hnil)).1
  case response => rfl
  case consumed_le => exact Nat.le_refl _
  case produced_le => exact List.length_take_le _ _
  case taken => exact (congrArg (s.taken ++ ·) (List.take_length ..)).symm
  case written => rfl
  case progress => exact Or.inl (List.length_pos_of_ne_nil hinput)
  case flushed =>
    intro _
    exact List.take_append_drop _ _
  case full =>
    rintro (hlt | hpending)
    · exact absurd hlt (Nat.lt_irrefl _)
    · have hlong := List.length_pos_of_ne_nil hpending
      rw [writing, List.length_drop] at hlong
      rw [List.length_take]
      omega
  case decodes =>
    intro _ hpending
    have hnone : (s.pending ++ flush input).drop room = [] := hpending
    rw [hnone, List.append_nil] at hdecodes
    exact hdecodes

theorem laws : DeflateLaws library writing where
  valid_init := ⟨Or.inr ⟨[], rfl, rfl⟩, List.cons_ne_nil _ _, rfl⟩
  taken_init := rfl
  written_init := rfl
  decodes_nil := Or.inl ⟨rfl, rfl⟩
  call _ _ _ hvalid hinput _ := lawful_flush hvalid hinput

theorem writesTrailer : WritesTrailer library writing := by
  rintro s room ⟨-, -, hfinished⟩ hroom hnil
  have hproduced : (s.pending ++ if s.finished then [] else trailer s).take room = [] := hnil
  rw [hfinished, if_neg Bool.false_ne_true] at hproduced
  rcases List.take_eq_nil_iff.mp hproduced with hzero | hnone
  · exact absurd hzero (Nat.ne_of_gt hroom)
  · exact absurd (List.append_eq_nil_iff.mp hnone).2 (List.cons_ne_nil _ _)

/-- Stored data is not shortened. -/
theorem length_le_of_decodes {output data : Bytes} (h : Decodes output data) :
    data.length ≤ output.length := by
  rcases h with ⟨rfl, rfl⟩ | ⟨parts, rfl, rfl⟩
  · exact Nat.le_refl _
  · have hparts : parts.flatten.length ≤ (parts.flatMap block).length := by
      induction parts with
      | nil => exact Nat.le_refl _
      | cons part parts ih =>
          rw [List.flatten_cons, List.flatMap_cons, List.length_append, List.length_append]
          have hblock : part.length ≤ (block part).length := (List.suffix_append _ part).length_le
          exact Nat.add_le_add hblock ih
    rw [List.length_append]
    exact Nat.le_add_left_of_le hparts

end Stored

end Telnetpp.Mccp.Zlib
