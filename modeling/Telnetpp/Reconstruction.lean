import Telnetpp.Generator
import Telnetpp.Parser
import Telnetpp.Foundation.Run

/-!
# Writing out what was parsed

The other direction of the round trip: the elements that a parser emits, with
the bytes of the sequence that it has not finished, are the stream it has
read. Only the parser's leniency inside subnegotiations is in the way, where
an IAC before any byte but SE is dropped.
-/

namespace Telnetpp
namespace Parser

open Foundation

/-! ## Every element is well formed -/

/-- A negotiation that has begun has one of the four requests. -/
def Requests (p : Parser) : Prop :=
  p.state = .negotiation → isNegotiationType p.negotiationType = true

/-- An element that the parser may emit. -/
def Emits (elem : Element) : Prop := elem.WellFormed ∧ elem ≠ .bytes []

theorem emitPlainData_emits (p : Parser) : ∀ elem ∈ p.emitPlainData.2, Emits elem := by
  by_cases h : p.plainData = []
  · simp [emitPlainData, h]
  · simp [emitPlainData, h, Emits, Element.WellFormed]

theorem requests_of_idle {p : Parser} (h : p.state = .idle) : p.Requests := by
  intro hnegotiation
  rw [h] at hnegotiation
  simp at hnegotiation

theorem requests_of_subnegotiation {p : Parser} (h : p.state = .subnegotiation) :
    p.Requests := by
  intro hnegotiation
  rw [h] at hnegotiation
  simp at hnegotiation

theorem parseIac_emits (p : Parser) (by_ : Byte) :
    (p.parseIac by_).1.Requests ∧ ∀ elem ∈ (p.parseIac by_).2, Emits elem := by
  rw [parseIac]
  split
  · exact ⟨requests_of_idle rfl, List.forall_mem_nil _⟩
  · next hiac =>
    split
    · next hneg => exact ⟨fun _ => hneg, emitPlainData_emits p⟩
    · next hneg =>
      split
      · exact ⟨requests_of_subnegotiation rfl, emitPlainData_emits p⟩
      · next hsb =>
        have hcommand : Emits (.command ⟨by_⟩) :=
          ⟨⟨hiac, hsb, Bool.eq_false_iff.mpr hneg⟩, by simp⟩
        have hall : ∀ elem ∈ p.emitPlainData.2 ++ [.command ⟨by_⟩], Emits elem :=
          List.forall_mem_append.mpr
            ⟨emitPlainData_emits p, List.forall_mem_singleton.mpr hcommand⟩
        exact ⟨requests_of_idle rfl, hall⟩

theorem parseByte_emits (p : Parser) (by_ : Byte) (hp : p.Requests) :
    (p.parseByte by_).1.Requests ∧ ∀ elem ∈ (p.parseByte by_).2, Emits elem := by
  cases hs : p.state with
  | iac =>
      simp only [parseByte, hs]
      exact parseIac_emits p by_
  | negotiation =>
      have hemits : Emits (.negotiation ⟨p.negotiationType, by_⟩) := ⟨hp hs, by simp⟩
      simp only [parseByte, hs, parseNegotiation]
      exact ⟨requests_of_idle rfl, List.forall_mem_singleton.mpr hemits⟩
  | _ =>
      simp only [parseByte, hs, parseIdle, parseSubnegotiation, parseSubnegotiationContent,
        parseSubnegotiationContentIac]
      try split
      all_goals simp [Requests, Emits, Element.WellFormed]

theorem emitPlainData_requests {p : Parser} (hp : p.Requests) : p.emitPlainData.1.Requests := by
  rw [emitPlainData_state]
  exact hp

theorem feedAll_emits (chunks : List Bytes) :
    ∀ elem ∈ (({} : Parser).feedAll chunks).2, Emits elem := by
  have hfresh : ({} : Parser).Requests := nofun
  rw [feedAll_eq]
  exact (buffered.feedAll_invariant parseByte_emits
    (fun p hp => ⟨emitPlainData_requests hp, emitPlainData_emits p⟩) hfresh chunks).2

/-! ## No byte is lost, duplicated or reordered -/

/-- The bytes of the sequence that has begun. -/
def unfinished (p : Parser) : Bytes :=
  match p.state with
  | .idle => []
  | .iac => [iac]
  | .negotiation => [iac, p.negotiationType]
  | .subnegotiation => [iac, sb]
  | .subnegotiationContent =>
      [iac, sb, p.subnegotiationOption] ++ p.subnegotiationContent.flatMap escapeByte
  | .subnegotiationContentIac =>
      [iac, sb, p.subnegotiationOption] ++ p.subnegotiationContent.flatMap escapeByte ++ [iac]

/-- Inside a subnegotiation IAC is followed only by IAC or SE. -/
def Doubles (p : Parser) (by_ : Byte) : Prop :=
  p.state = .subnegotiationContentIac → by_ = iac ∨ by_ = se

/-- All bytes that have been read and not been emitted. -/
def held (p : Parser) : Bytes := p.plainData.flatMap escapeByte ++ p.unfinished

theorem emitPlainData_wire (p : Parser) :
    p.emitPlainData.2.flatMap wire = p.plainData.flatMap escapeByte := by
  by_cases h : p.plainData = []
  · simp [emitPlainData, h]
  · simp [emitPlainData, h]

theorem parseIac_wire {p : Parser} (hp : p.state = .iac) (by_ : Byte) :
    (p.parseIac by_).2.flatMap wire ++ (p.parseIac by_).1.held = p.held ++ [by_] := by
  rw [parseIac]
  split
  · next h => simp [held, unfinished, hp, h, escapeByte]
  · split
    · simp [held, unfinished, hp, emitPlainData_wire, emitPlainData_state]
    · split
      · next h => simp [held, unfinished, hp, h, emitPlainData_wire, emitPlainData_state]
      · simp [held, unfinished, hp, emitPlainData_wire, emitPlainData_state]

theorem parseByte_wire {p : Parser} {by_ : Byte} (hp : p.Settled) (h : Doubles p by_) :
    (p.parseByte by_).2.flatMap wire ++ (p.parseByte by_).1.held = p.held ++ [by_] := by
  cases hs : p.state with
  | idle =>
      simp only [parseByte, hs, parseIdle]
      split
      · next hiac => simp [held, unfinished, hs, hiac]
      · next hiac => simp [held, unfinished, hs, escapeByte, hiac]
  | iac =>
      simp only [parseByte, hs]
      exact parseIac_wire hs by_
  | negotiation =>
      have hplain : p.plainData = [] := by simpa [Settled, hs] using hp
      simp [parseByte, parseNegotiation, held, unfinished, hs, hplain]
  | subnegotiation =>
      have hplain : p.plainData = [] := by simpa [Settled, hs] using hp
      simp [parseByte, parseSubnegotiation, held, unfinished, hs, hplain]
  | subnegotiationContent =>
      simp only [parseByte, hs, parseSubnegotiationContent]
      split
      · next hiac => simp [held, unfinished, hs, hiac]
      · next hiac => simp [held, unfinished, hs, escapeByte, hiac]
  | subnegotiationContentIac =>
      have hplain : p.plainData = [] := by simpa [Settled, hs] using hp
      simp only [parseByte, hs, parseSubnegotiationContentIac]
      split
      · next hse => simp [held, unfinished, hs, hplain, hse]
      · next hse =>
        have hiac : by_ = iac := (h hs).resolve_right hse
        simp [held, unfinished, hs, hplain, hiac, escapeByte]

theorem outputs_wire {p : Parser} (hp : p.Settled) {stream : Bytes}
    (h : Along (fun p by_ => (parseByte p by_).1) Doubles p stream) :
    (machine.outputs p stream).flatMap wire ++ (machine.final p stream).held =
      p.held ++ stream := by
  induction stream generalizing p with
  | nil => simp
  | cons by_ stream ih =>
      have hstep := parseByte_wire hp h.1
      have hrest := ih (settled_parseByte p by_ hp) h.2
      calc (machine.outputs p (by_ :: stream)).flatMap wire ++
            (machine.final p (by_ :: stream)).held
          = (p.parseByte by_).2.flatMap wire ++
              ((machine.outputs (p.parseByte by_).1 stream).flatMap wire ++
                (machine.final (p.parseByte by_).1 stream).held) := by
            rw [Transducer.outputs_cons, Transducer.final_cons, List.flatMap_append,
              List.append_assoc]
            rfl
        _ = ((p.parseByte by_).2.flatMap wire ++ (p.parseByte by_).1.held) ++ stream := by
            rw [hrest, List.append_assoc]
        _ = p.held ++ by_ :: stream := by rw [hstep, List.append_assoc, List.singleton_append]

/-! ## Deliveries -/

/-- The bytes of an atom. -/
def atomWire : Atom → Bytes
  | .data by_ => escapeByte by_
  | .token elem => wire elem

theorem atomWire_atoms (elem : Element) : elem.atoms.flatMap atomWire = wire elem := by
  cases elem with
  | bytes data => rw [Element.atoms_bytes, List.flatMap_map, wire_bytes]; rfl
  | _ => simp [Element.atoms, atomWire]

theorem flatMap_atomWire (elems : List Element) :
    (elems.flatMap Element.atoms).flatMap atomWire = elems.flatMap wire := by
  rw [List.flatMap_assoc]
  simp only [atomWire_atoms]

theorem feedAll_wire (chunks : List Bytes) :
    (({} : Parser).feedAll chunks).2.flatMap wire ++
        (({} : Parser).feedAll chunks).1.unfinished =
      (machine.outputs {} chunks.flatten).flatMap wire ++
        (machine.final {} chunks.flatten).held := by
  have hvalid : buffered.Valid {} := Or.inl rfl
  have hatoms := congrArg (List.flatMap atomWire) (buffered.feedAll_atoms hvalid rfl chunks)
  have hcore := congrArg unfinished (buffered.core_feedAll hvalid chunks)
  have hpending (q : Parser) :
      (buffered.pending q).flatMap atomWire = q.plainData.flatMap escapeByte := by
    simp only [buffered, List.flatMap_map]
    rfl
  rw [Buffered.content, List.flatMap_append, hpending] at hatoms
  rw [← feedAll_eq] at hatoms hcore
  calc (({} : Parser).feedAll chunks).2.flatMap wire ++
        (({} : Parser).feedAll chunks).1.unfinished
      = ((machine.outputs {} chunks.flatten).flatMap wire ++
          (machine.final {} chunks.flatten).plainData.flatMap escapeByte) ++
            (machine.final {} chunks.flatten).unfinished := by
        rw [← flatMap_atomWire, ← flatMap_atomWire]
        exact congrArg₂ _ hatoms hcore
    _ = (machine.outputs {} chunks.flatten).flatMap wire ++
          (machine.final {} chunks.flatten).held := List.append_assoc ..

/-- However a stream is cut into deliveries, every element that a fresh parser
emits is well formed; and if IAC is doubled inside subnegotiations, the
elements and the unfinished sequence give the stream back. -/
theorem feedAll_reconstructs (chunks : List Bytes) :
    let r := ({} : Parser).feedAll chunks
    (∀ elem ∈ r.2, elem.WellFormed ∧ elem ≠ .bytes []) ∧
      (Along (fun p by_ => (parseByte p by_).1) Doubles {} chunks.flatten →
        (r.2.flatMap generate).flatten ++ r.1.unfinished = chunks.flatten) := by
  refine ⟨feedAll_emits chunks, ?_⟩
  intro h
  have hwire : ((({} : Parser).feedAll chunks).2.flatMap generate).flatten =
      (({} : Parser).feedAll chunks).2.flatMap wire := by
    rw [List.flatMap_def, List.flatten_flatten, List.map_map]
    rfl
  rw [hwire, feedAll_wire, outputs_wire (Or.inl rfl) h]
  rfl

instance (p : Parser) (by_ : Byte) : Decidable (Doubles p by_) :=
  inferInstanceAs (Decidable (p.state = _ → _))

/-- A command that is no command, an SB and an SE inside a subnegotiation that
is cut after an IAC, and plain data that ends with one. -/
theorem feedAll_reconstructs_cut :
    let chunks : List Bytes := [[255], [255, 65, 255, 240, 66, 255, 250], [7, 250, 240, 255],
      [255, 240, 255]]
    let r := ({} : Parser).feedAll chunks
    (r.2.flatMap generate).flatten ++ r.1.unfinished = chunks.flatten :=
  (feedAll_reconstructs [[255], [255, 65, 255, 240, 66, 255, 250], [7, 250, 240, 255],
    [255, 240, 255]]).2 (by decide)

end Parser
end Telnetpp
