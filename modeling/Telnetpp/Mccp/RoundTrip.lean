import Telnetpp.Mccp.Deflate
import Telnetpp.Mccp.Format

/-!
# The contract of deflate and inflate

What is documented of the two together, and a pair that keeps to it: the
library that stores its input, and one that reads the streams that it writes, a
header, stored blocks, an empty last block and the checksum of the content.
-/

namespace Telnetpp.Mccp.Zlib

section Contract

variable {S T : Type}

/-- A call that takes no input leaves less to be written. -/
def Drains (deflater : Deflate T) (W : Writing T) (backlog : T → ℕ) : Prop :=
  ∀ t input room, W.Valid t → input ≠ [] → 0 < room →
    (deflater.deflate t .syncFlush input room).consumed = 0 →
      backlog (deflater.deflate t .syncFlush input room).state < backlog t

/-- What is documented of `deflate` and `inflate` together: `inflate` goes on
inside a complete stream, `deflate` can complete its stream with what it has
taken, and a flush comes to an end. -/
structure RoundTrip (deflater : Deflate T) (W : Writing T) (inflater : Inflate S)
    (R : Reading S) : Prop where
  content_append : ∀ x y, R.content x <+: R.content (x ++ y)
  accepts : ∀ s input later room, R.Valid s → input ≠ [] → 0 < room → later ≠ [] →
    R.Complete (R.taken s ++ input ++ later) → (inflater.inflate s input room).response = .ok
  finishes : ∀ t, W.Valid t → ∃ trailer, trailer ≠ [] ∧ R.Complete (W.written t ++ trailer) ∧
    R.content (W.written t ++ trailer) = W.taken t
  decodes : ∀ t, W.Valid t → W.Decodes (W.written t) (W.taken t) →
    R.content (W.written t) = W.taken t
  drains : ∃ backlog, Drains deflater W backlog

end Contract

namespace Stored

/-- What is expected next. -/
inductive Phase
  | header (expected : Bytes)
  | block
  | low
  | high (low : Byte)
  | lowComplement (low high : Byte)
  | highComplement (low high : Byte)
  | data (left : ℕ)
  | trailer (expected : Bytes)
  deriving DecidableEq, Repr

/-- A stream that has been read so far, with the content of its blocks. -/
structure Reader where
  phase : Phase := .header [0x78, 0x9C]
  content : Bytes := []
  deriving DecidableEq, Repr

namespace Reader

def ended (r : Reader) : Bool := r.phase = .trailer []

/-- What follows when some bytes of a block are left. -/
def awaiting : ℕ → Phase
  | 0 => .block
  | left + 1 => .data (left + 1)

def next (r : Reader) (by_ : Byte) : Option (Reader × Bytes) :=
  let expect (byte : Byte) (phase : Phase) : Option (Reader × Bytes) :=
    if by_ = byte then some ({ r with phase }, []) else none
  match r.phase with
  | .header [] => none
  | .header (byte :: rest) => expect byte (if rest = [] then .block else .header rest)
  | .block =>
      -- a block that is not stored can only be the last one, which is empty
      if by_ = 0x03 then some ({ r with phase := .trailer (0x00 :: adler32 r.content) }, [])
      else expect 0x00 .low
  | .low => some ({ r with phase := .high by_ }, [])
  | .high low => some ({ r with phase := .lowComplement low by_ }, [])
  | .lowComplement low high => expect (255 - low) (.highComplement low high)
  | .highComplement low high => expect (255 - high) (awaiting (low.toNat + 256 * high.toNat))
  | .data left => some (⟨awaiting (left - 1), r.content ++ [by_]⟩, [by_])
  | .trailer [] => none
  | .trailer (byte :: rest) => expect byte (.trailer rest)

end Reader

def format : Format Reader where
  start := {}
  next := Reader.next
  ended := Reader.ended
  start_open := rfl
  next_of_ended := by
    rintro ⟨phase, content⟩ hended by_
    obtain rfl : phase = .trailer [] := of_decide_eq_true hended
    rfl

/-! ## Reading what is written -/

theorem follow_data (content data : Bytes) :
    format.follow ⟨Reader.awaiting data.length, content⟩ data =
      some (⟨.block, content ++ data⟩, data) := by
  induction data generalizing content with
  | nil => simp [Format.follow, Reader.awaiting]
  | cons by_ data ih =>
      have hnext : format.next ⟨Reader.awaiting (by_ :: data).length, content⟩ by_ =
          some (⟨Reader.awaiting data.length, content ++ [by_]⟩, [by_]) := rfl
      rw [Format.follow, hnext]
      simp only [ih, Option.map_some, List.append_assoc, List.singleton_append]

theorem follow_block (content : Bytes) {data : Bytes} (hlen : data.length ≤ 65535) :
    format.follow ⟨.block, content⟩ (block data) = some (⟨.block, content ++ data⟩, data) := by
  have hlength : (UInt8.ofNat data.length).toNat + 256 * (UInt8.ofNat (data.length / 256)).toNat =
      data.length := by
    rw [UInt8.toNat_ofNat', UInt8.toNat_ofNat']
    omega
  have hdata := follow_data content data
  rw [← hlength] at hdata
  let low := UInt8.ofNat data.length
  let high := UInt8.ofNat (data.length / 256)
  calc format.follow ⟨.block, content⟩ (block data)
    _ = format.follow ⟨.low, content⟩ (low :: high :: (255 - low) :: (255 - high) :: data) :=
      Format.follow_silent rfl _
    _ = format.follow ⟨.high low, content⟩ (high :: (255 - low) :: (255 - high) :: data) :=
      Format.follow_silent rfl _
    _ = format.follow ⟨.lowComplement low high, content⟩ ((255 - low) :: (255 - high) :: data) :=
      Format.follow_silent rfl _
    _ = format.follow ⟨.highComplement low high, content⟩ ((255 - high) :: data) :=
      Format.follow_silent (if_pos rfl) _
    _ = format.follow ⟨Reader.awaiting (low.toNat + 256 * high.toNat), content⟩ data :=
      Format.follow_silent (if_pos rfl) _
    _ = some (⟨.block, content ++ data⟩, data) := hdata

theorem follow_blocks (content : Bytes) {parts : List Bytes}
    (hparts : ∀ part ∈ parts, part.length ≤ 65535) :
    format.follow ⟨.block, content⟩ (parts.flatMap block) =
      some (⟨.block, content ++ parts.flatten⟩, parts.flatten) := by
  induction parts generalizing content with
  | nil => simp [Format.follow]
  | cons part parts ih =>
      obtain ⟨hpart, hparts⟩ := List.forall_mem_cons.mp hparts
      rw [List.flatMap_cons, List.flatten_cons, Format.follow_append (follow_block content hpart),
        ih _ hparts]
      simp

theorem length_of_mem_pieces (data : Bytes) : ∀ part ∈ pieces data, part.length ≤ 65535 := by
  fun_induction pieces data with
  | case1 data h => simpa using h
  | case2 data h ih =>
      exact List.forall_mem_cons.mpr ⟨List.length_take_le _ _, ih⟩

theorem follow_flush (content input : Bytes) :
    format.follow ⟨.block, content⟩ (flush input) = some (⟨.block, content ++ input⟩, input) := by
  have hparts : ∀ part ∈ pieces input ++ [[]], part.length ≤ 65535 :=
    List.forall_mem_append.mpr ⟨length_of_mem_pieces input, by simp⟩
  have hflatten : (pieces input ++ [[]]).flatten = input := by
    rw [List.flatten_append, pieces_flatten]
    simp
  rw [flush, follow_blocks content hparts, hflatten]

theorem follow_trailer (content : Bytes) (bytes : Bytes) :
    format.follow ⟨.trailer bytes, content⟩ bytes = some (⟨.trailer [], content⟩, []) := by
  induction bytes with
  | nil => rfl
  | cons byte bytes ih =>
      have hnext : format.next ⟨.trailer (byte :: bytes), content⟩ byte =
          some (⟨.trailer bytes, content⟩, []) := if_pos rfl
      rw [Format.follow_silent hnext, ih]

theorem follow_last (s : Store) :
    format.follow ⟨.block, s.taken⟩ (trailer s) = some (⟨.trailer [], s.taken⟩, []) := by
  have hlast : format.next ⟨.block, s.taken⟩ 0x03 =
      some (⟨.trailer (0x00 :: adler32 s.taken), s.taken⟩, []) := rfl
  have htrailer : trailer s = 0x03 :: 0x00 :: adler32 s.taken := rfl
  rw [htrailer, Format.follow_silent hlast, follow_trailer]

/-! ## The round trip -/

/-- The output of the library, as it is read back. -/
def readable : Writing Store :=
  { writing with
    Valid := fun s => format.follow format.start (s.written ++ s.pending) =
      some (⟨.block, s.taken⟩, s.taken) ∧ s.finished = false
    Decodes := fun output data => format.output format.start output = data }

theorem lawful_readable {s : Store} {input : Bytes} {room : ℕ} (hvalid : readable.Valid s)
    (hinput : input ≠ []) :
    LawfulFlush readable s input room (library.deflate s .syncFlush input room) := by
  obtain ⟨hfollow, hfinished⟩ := hvalid
  have hsplit : (s.written ++ (s.pending ++ flush input).take room) ++
      (s.pending ++ flush input).drop room = (s.written ++ s.pending) ++ flush input := by
    rw [List.append_assoc, List.take_append_drop, List.append_assoc]
  have hread : format.follow format.start ((s.written ++ (s.pending ++ flush input).take room) ++
      (s.pending ++ flush input).drop room) =
        some (⟨.block, s.taken ++ input⟩, s.taken ++ input) := by
    rw [hsplit, Format.follow_append hfollow, follow_flush]
    rfl
  change LawfulFlush readable s input room (deflate s .syncFlush input room)
  rw [deflate_syncFlush hfinished]
  constructor
  case valid => exact ⟨hread, hfinished⟩
  case response => rfl
  case consumed_le => exact Nat.le_refl _
  case produced_le => exact List.length_take_le _ _
  case taken => exact (congrArg (s.taken ++ ·) (List.take_length ..)).symm
  case written => rfl
  case progress => exact Or.inl (List.length_pos_of_ne_nil hinput)
  case flushed =>
    intro _
    exact List.take_append_drop _ _
  case full =>
    rintro (hlt | hpending)
    · exact absurd hlt (Nat.lt_irrefl _)
    · have hlong := List.length_pos_of_ne_nil hpending
      rw [readable, writing, List.length_drop] at hlong
      rw [List.length_take]
      omega
  case decodes =>
    intro _ hpending
    have hnone : (s.pending ++ flush input).drop room = [] := hpending
    rw [hnone, List.append_nil] at hread
    exact Format.output_of_follow hread

theorem laws_readable : DeflateLaws library readable where
  valid_init := ⟨by decide, rfl⟩
  taken_init := rfl
  written_init := rfl
  decodes_nil := rfl
  call _ _ _ hvalid hinput _ := lawful_readable hvalid hinput

/-- What has been taken can be completed with what is pending and the trailer. -/
theorem finishes_readable {s : Store} (hvalid : readable.Valid s) :
    ∃ rest, rest ≠ [] ∧ format.reading.Complete (s.written ++ rest) ∧
      format.reading.content (s.written ++ rest) = s.taken := by
  have hread : format.follow format.start (s.written ++ (s.pending ++ trailer s)) =
      some (⟨.trailer [], s.taken⟩, s.taken) := by
    rw [← List.append_assoc, Format.follow_append hvalid.1, follow_last]
    simp
  refine ⟨s.pending ++ trailer s, List.append_ne_nil_of_right_ne_nil _ (List.cons_ne_nil _ _),
    ⟨_, _, hread, rfl⟩, Format.output_of_follow hread⟩

theorem roundTrip : RoundTrip library readable format.library format.reading where
  content_append := format.output_append format.start
  accepts _ _ _ _ hvalid _ _ hlater hcomplete :=
    Format.response_of_complete hvalid hlater hcomplete
  finishes _ hvalid := finishes_readable hvalid
  decodes _ _ hdecodes := hdecodes
  drains := by
    refine ⟨fun _ => 0, ?_⟩
    intro s input room hvalid hinput _ hnone
    have htaken : (deflate s .syncFlush input room).consumed = input.length := by
      rw [deflate_syncFlush hvalid.2]
    have hzero : (deflate s .syncFlush input room).consumed = 0 := hnone
    exact absurd (List.length_eq_zero_iff.mp (htaken.symm.trans hzero)) hinput

end Stored

end Telnetpp.Mccp.Zlib
