import Telnetpp.Generator
import Telnetpp.Parser

/-!
# Parsing what the generator wrote

From an idle parser the bytes of an element are read back as that element.
The escape of 0xFF is undone by the pair of states `idle` and `iac` in plain
data and by the pair `subnegotiationContent` and `subnegotiationContentIac`
in a subnegotiation.
-/

namespace Telnetpp
namespace Parser

open Foundation

theorem machine_final_cons (p : Parser) (by_ : Byte) (rest : Bytes) :
    machine.final p (by_ :: rest) = machine.final (p.parseByte by_).1 rest := rfl

theorem machine_outputs_cons (p : Parser) (by_ : Byte) (rest : Bytes) :
    machine.outputs p (by_ :: rest) =
      (p.parseByte by_).2 ++ machine.outputs (p.parseByte by_).1 rest := rfl

theorem parseByte_idle {p : Parser} (hp : p.state = .idle) (by_ : Byte) :
    p.parseByte by_ = p.parseIdle by_ := by simp only [parseByte, hp]

theorem parseByte_idle_iac {p : Parser} (hp : p.state = .idle) :
    p.parseByte iac = ({ p with state := .iac }, []) := by
  rw [parseByte_idle hp, parseIdle, if_pos rfl]

theorem read_escapeByte {p : Parser} (hp : p.state = .idle) (by_ : Byte) :
    machine.final p (escapeByte by_) = { p with plainData := p.plainData ++ [by_] } ∧
      machine.outputs p (escapeByte by_) = [] := by
  rcases p with ⟨state, plain, content, negotiation, option⟩
  obtain rfl : state = .idle := hp
  by_cases h : by_ = iac
  · subst h
    exact ⟨rfl, rfl⟩
  · simp [escapeByte, h, machine_final_cons, machine_outputs_cons, parseByte, parseIdle]

theorem read_escaped {p : Parser} (hp : p.state = .idle) (data : Bytes) :
    machine.final p (data.flatMap escapeByte) = { p with plainData := p.plainData ++ data } ∧
      machine.outputs p (data.flatMap escapeByte) = [] := by
  induction data generalizing p with
  | nil => simp
  | cons by_ data ih =>
      obtain ⟨hfinal, hout⟩ := read_escapeByte hp by_
      obtain ⟨hfinals, houts⟩ := ih (p := { p with plainData := p.plainData ++ [by_] }) hp
      simp [hfinal, hout, hfinals, houts]

theorem read_content_escapeByte {p : Parser} (hp : p.state = .subnegotiationContent)
    (by_ : Byte) :
    machine.final p (escapeByte by_) =
        { p with subnegotiationContent := p.subnegotiationContent ++ [by_] } ∧
      machine.outputs p (escapeByte by_) = [] := by
  rcases p with ⟨state, plain, content, negotiation, option⟩
  obtain rfl : state = .subnegotiationContent := hp
  by_cases h : by_ = iac
  · subst h
    exact ⟨rfl, rfl⟩
  · simp [escapeByte, h, machine_final_cons, machine_outputs_cons, parseByte,
      parseSubnegotiationContent]

theorem read_content {p : Parser} (hp : p.state = .subnegotiationContent) (data : Bytes) :
    machine.final p (data.flatMap escapeByte) =
        { p with subnegotiationContent := p.subnegotiationContent ++ data } ∧
      machine.outputs p (data.flatMap escapeByte) = [] := by
  induction data generalizing p with
  | nil => simp
  | cons by_ data ih =>
      obtain ⟨hfinal, hout⟩ := read_content_escapeByte hp by_
      obtain ⟨hfinals, houts⟩ := ih
        (p := { p with subnegotiationContent := p.subnegotiationContent ++ [by_] }) hp
      simp [hfinal, hout, hfinals, houts]

/-- The parser after an IAC, its plain data emitted. -/
def afterIac (p : Parser) : Parser := { p with plainData := [], state := .iac }

theorem afterIac_plainData (p : Parser) : p.afterIac.plainData = [] := rfl

/-- The byte after IAC, when it is not IAC, comes after the plain data. -/
theorem read_iac {p : Parser} (hp : p.state = .idle) {by_ : Byte} (h : by_ ≠ iac) :
    machine.final p [iac, by_] = (p.afterIac.parseIac by_).1 ∧
      machine.outputs p [iac, by_] = p.emitPlainData.2 ++ (p.afterIac.parseIac by_).2 := by
  have hread := parseIac_eq { p with state := .iac } by_
  rw [if_neg h] at hread
  have hemit : ({ p with state := .iac } : Parser).emitPlainData.2 = p.emitPlainData.2 := by
    unfold emitPlainData
    split <;> rfl
  rw [machine_final_cons, machine_outputs_cons, machine_final_cons, machine_outputs_cons,
    parseByte_idle_iac hp]
  simp only [parseByte, hread, hemit]
  exact ⟨rfl, by simp [core, afterIac]⟩

/-- What an idle parser makes of the bytes of an element that is not plain data. -/
structure ReadsToken (p : Parser) (elem : Element) : Prop where
  state : (machine.final p (wire elem)).state = .idle
  plainData : (machine.final p (wire elem)).plainData = []
  outputs : machine.outputs p (wire elem) = p.emitPlainData.2 ++ [elem]

theorem read_command {p : Parser} (hp : p.state = .idle) {cmd : Command}
    (h : (Element.command cmd).WellFormed) : ReadsToken p (.command cmd) := by
  obtain ⟨hiac, hsb, hneg⟩ := h
  obtain ⟨hfinal, hout⟩ := read_iac hp hiac
  have hparse (q : Parser) (hq : q.plainData = []) :
      q.parseIac cmd.value = ({ q with state := .idle }, [.command cmd]) := by
    simp [parseIac, hiac, hneg, hsb, emitPlainData, hq]
  rw [hparse _ p.afterIac_plainData] at hfinal hout
  exact ⟨by rw [wire_command, hfinal], by rw [wire_command, hfinal, afterIac_plainData], hout⟩

theorem read_negotiation {p : Parser} (hp : p.state = .idle) {neg : Negotiation}
    (h : (Element.negotiation neg).WellFormed) : ReadsToken p (.negotiation neg) := by
  have hneg : isNegotiationType neg.request = true := h
  have hiac : neg.request ≠ iac := by
    intro hiac
    rw [hiac] at hneg
    exact absurd hneg (by decide)
  obtain ⟨hfinal, hout⟩ := read_iac hp hiac
  have hparse (q : Parser) (hq : q.plainData = []) : q.parseIac neg.request =
      ({ q with negotiationType := neg.request, state := .negotiation }, []) := by
    simp [parseIac, hiac, hneg, emitPlainData, hq]
  rw [hparse _ p.afterIac_plainData] at hfinal hout
  have hwire : wire (.negotiation neg) = [iac, neg.request] ++ [neg.optionCode] := rfl
  refine ⟨?_, ?_, ?_⟩
  · rw [hwire, Transducer.final_append, hfinal]
    rfl
  · rw [hwire, Transducer.final_append, hfinal]
    rfl
  · rw [hwire, Transducer.outputs_append, hfinal, hout]
    simp [machine_outputs_cons, parseByte, parseNegotiation]

theorem read_subnegotiation {p : Parser} (hp : p.state = .idle) (sub : Subnegotiation) :
    ReadsToken p (.subnegotiation sub) := by
  obtain ⟨hfinal, hout⟩ := read_iac hp (show sb ≠ iac by decide)
  have hparse (q : Parser) (hq : q.plainData = []) :
      q.parseIac sb = ({ q with state := .subnegotiation }, []) := by
    have hsb : sb ≠ iac ∧ isNegotiationType sb = false := by decide
    simp [parseIac, hsb, emitPlainData, hq]
  rw [hparse _ p.afterIac_plainData, List.append_nil] at hout
  rw [hparse _ p.afterIac_plainData] at hfinal
  -- the parser once the option code has been read
  let q : Parser :=
    { p.afterIac with subnegotiationOption := sub.option, subnegotiationContent := [],
                      state := .subnegotiationContent }
  have hopen : machine.final p [iac, sb, sub.option] = q ∧
      machine.outputs p [iac, sb, sub.option] = p.emitPlainData.2 := by
    rw [show [iac, sb, sub.option] = [iac, sb] ++ [sub.option] from rfl,
      Transducer.final_append, Transducer.outputs_append, hfinal, hout]
    exact ⟨rfl, List.append_nil _⟩
  obtain ⟨hcontent, hsilent⟩ := read_content (p := q) rfl sub.content
  have hclose (r : Parser) (hr : r.state = .subnegotiationContent) :
      machine.final r [iac, se] = { r with state := .idle } ∧ machine.outputs r [iac, se] =
        [.subnegotiation ⟨r.subnegotiationOption, r.subnegotiationContent⟩] := by
    rcases r with ⟨state, plain, content, negotiation, option⟩
    obtain rfl : state = .subnegotiationContent := hr
    exact ⟨rfl, rfl⟩
  obtain ⟨hend, hemit⟩ := hclose { q with subnegotiationContent := [] ++ sub.content } rfl
  have hall : machine.final p (wire (.subnegotiation sub)) =
      { q with subnegotiationContent := [] ++ sub.content, state := .idle } := by
    rw [wire_subnegotiation, Transducer.final_append, Transducer.final_append, hopen.1, hcontent,
      hend]
  refine ⟨by rw [hall], by rw [hall, afterIac_plainData], ?_⟩
  rw [wire_subnegotiation, Transducer.outputs_append, Transducer.outputs_append,
    Transducer.final_append, hopen.1, hopen.2, hsilent, hcontent, hemit]
  simp [q]

theorem read_token {p : Parser} (hp : p.state = .idle) {elem : Element} (h : elem.WellFormed)
    (hbytes : ∀ data, elem ≠ .bytes data) : ReadsToken p elem := by
  cases elem with
  | bytes data => exact absurd rfl (hbytes data)
  | negotiation neg => exact read_negotiation hp h
  | subnegotiation sub => exact read_subnegotiation hp sub
  | command cmd => exact read_command hp h

theorem Element.atoms_token {elem : Element} (h : ∀ data, elem ≠ .bytes data) :
    elem.atoms = [.token elem] := by
  cases elem with
  | bytes data => exact absurd rfl (h data)
  | _ => rfl

/-- From an idle parser the bytes of well-formed elements are read back as
those elements, and the parser is idle again. -/
theorem content_wire (elems : List Element) (h : ∀ elem ∈ elems, elem.WellFormed)
    {p : Parser} (hp : p.state = .idle) :
    (machine.final p (elems.flatMap wire)).state = .idle ∧
      buffered.content p (elems.flatMap wire) =
        p.plainData.map .data ++ elems.flatMap Element.atoms := by
  induction elems generalizing p with
  | nil => exact ⟨hp, by simp [buffered]⟩
  | cons elem elems ih =>
      have helems : ∀ e ∈ elems, e.WellFormed := fun e he => h e (List.mem_cons_of_mem _ he)
      rw [List.flatMap_cons, List.flatMap_cons, Transducer.final_append, Buffered.content_append]
      by_cases hbytes : ∀ data, elem ≠ .bytes data
      · obtain ⟨hstate, hplain, hout⟩ := read_token hp (h elem (by simp)) hbytes
        obtain ⟨hfinal, hcontent⟩ := ih helems hstate
        refine ⟨hfinal, ?_⟩
        rw [hcontent, hplain, hout]
        simp [buffered, emitPlainData_atoms, Element.atoms_token hbytes]
      · obtain ⟨data, rfl⟩ : ∃ data, elem = .bytes data := by simpa using hbytes
        obtain ⟨hread, hsilent⟩ := read_escaped hp data
        obtain ⟨hfinal, hcontent⟩ := ih helems (p := { p with plainData := p.plainData ++ data }) hp
        rw [wire_bytes, hread, hsilent]
        refine ⟨hfinal, ?_⟩
        rw [hcontent]
        simp

end Parser

/-- What a fresh parser makes of the output of the generator, however that
output is cut into deliveries. Reading it leaves a parser that is idle, holds
nothing back and answers any further deliveries as a fresh one. -/
theorem parse_generate (elems : List Element) (h : ∀ elem ∈ elems, elem.WellFormed)
    (chunks : List Bytes) (hchunks : chunks.flatten = (elems.flatMap generate).flatten) :
    let r := ({} : Parser).feedAll chunks
    coalesce r.2 = coalesce elems ∧ r.1.state = .idle ∧ r.1.plainData = [] ∧
      ∀ later : List Bytes, (r.1.feedAll later).2 = (({} : Parser).feedAll later).2 := by
  have hwire : chunks.flatten = elems.flatMap wire := by
    rw [hchunks, List.flatMap_def, List.flatten_flatten, List.map_map]
    rfl
  have hvalid : Parser.buffered.Valid {} := Or.inl rfl
  obtain ⟨hfinal, hcontent⟩ := Parser.content_wire elems h (p := {}) rfl
  have hcore := Parser.buffered.core_feedAll hvalid chunks
  have hatoms := Parser.buffered.feedAll_atoms hvalid rfl chunks
  have hpending := Parser.buffered.pending_feedAll (s := {}) rfl chunks
  rw [hwire] at hcore hatoms
  rw [← Parser.feedAll_eq] at hcore hatoms hpending
  have hstate : (({} : Parser).feedAll chunks).1.state = .idle :=
    (congrArg Parser.state hcore).trans hfinal
  have hplain : (({} : Parser).feedAll chunks).1.plainData = [] := by
    simpa [Parser.buffered] using hpending
  refine ⟨?_, hstate, hplain, (Parser.alike_fresh hstate hplain).feedAll⟩
  rw [coalesce_eq_iff]
  exact hatoms.trans (by simpa using hcontent)

/-- 0xFF at both ends of plain data, as an option code and next to a byte SE
in the content, cut inside two escapes. -/
theorem parse_generate_escapes :
    let elems : List Element := [.bytes [255, 65, 255], .negotiation ⟨253, 255⟩,
      .subnegotiation ⟨255, [240, 255, 240]⟩]
    let r := ({} : Parser).feedAll
      [[255, 255, 65, 255], [255, 255, 253, 255, 255, 250, 255, 240, 255], [255, 240, 255, 240]]
    coalesce r.2 = coalesce elems ∧ r.1.state = .idle ∧ r.1.plainData = [] ∧
      ∀ later : List Bytes, (r.1.feedAll later).2 = (({} : Parser).feedAll later).2 :=
  parse_generate _ (by decide) _ (by decide)

end Telnetpp
