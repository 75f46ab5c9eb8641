import Telnetpp.Core
import Telnetpp.Foundation.Transducer

/-!
# The parser

`Parser` is the state of the incremental parser; each `parse` function
returns the next state and the elements handed to the continuation, in
order. `operator()` is `Parser.feed`: it parses every byte of a delivery and
then emits the plain data collected so far.
-/

namespace Telnetpp

open Foundation

inductive ParsingState
  | idle
  | iac
  | negotiation
  | subnegotiation
  | subnegotiationContent
  | subnegotiationContentIac
  deriving DecidableEq, Repr

/-- The last two fields have no initialiser in the source and are written
before they are read; they start as zero here. -/
@[ext]
structure Parser where
  state : ParsingState := .idle
  plainData : Bytes := []
  subnegotiationContent : Bytes := []
  negotiationType : NegotiationType := 0
  subnegotiationOption : OptionType := 0
  deriving DecidableEq, Repr

namespace Parser

def emitPlainData (p : Parser) : Parser × List Element :=
  if p.plainData = [] then (p, [])
  else ({ p with plainData := [] }, [.bytes p.plainData])

def parseIdle (p : Parser) (by_ : Byte) : Parser × List Element :=
  if by_ = iac then ({ p with state := .iac }, [])
  else ({ p with plainData := p.plainData ++ [by_] }, [])

def parseIac (p : Parser) (by_ : Byte) : Parser × List Element :=
  if by_ = iac then ({ p with plainData := p.plainData ++ [by_], state := .idle }, [])
  else if isNegotiationType by_ then
    let (q, elems) := p.emitPlainData
    ({ q with negotiationType := by_, state := .negotiation }, elems)
  else if by_ = sb then
    let (q, elems) := p.emitPlainData
    ({ q with state := .subnegotiation }, elems)
  else
    let (q, elems) := p.emitPlainData
    ({ q with state := .idle }, elems ++ [.command ⟨by_⟩])

def parseNegotiation (p : Parser) (by_ : Byte) : Parser × List Element :=
  ({ p with state := .idle }, [.negotiation ⟨p.negotiationType, by_⟩])

def parseSubnegotiation (p : Parser) (by_ : Byte) : Parser × List Element :=
  ({ p with subnegotiationOption := by_, subnegotiationContent := [],
            state := .subnegotiationContent }, [])

def parseSubnegotiationContent (p : Parser) (by_ : Byte) : Parser × List Element :=
  if by_ = iac then ({ p with state := .subnegotiationContentIac }, [])
  else ({ p with subnegotiationContent := p.subnegotiationContent ++ [by_] }, [])

def parseSubnegotiationContentIac (p : Parser) (by_ : Byte) : Parser × List Element :=
  if by_ = se then
    ({ p with state := .idle },
      [.subnegotiation ⟨p.subnegotiationOption, p.subnegotiationContent⟩])
  else
    ({ p with subnegotiationContent := p.subnegotiationContent ++ [by_],
              state := .subnegotiationContent }, [])

def parseByte (p : Parser) (by_ : Byte) : Parser × List Element :=
  match p.state with
  | .idle => p.parseIdle by_
  | .iac => p.parseIac by_
  | .negotiation => p.parseNegotiation by_
  | .subnegotiation => p.parseSubnegotiation by_
  | .subnegotiationContent => p.parseSubnegotiationContent by_
  | .subnegotiationContentIac => p.parseSubnegotiationContentIac by_

def machine : Transducer Parser Byte Element := ⟨parseByte⟩

/-- The parser with its plain data forgotten. -/
def core (p : Parser) : Parser := { p with plainData := [] }

@[simp] theorem core_state (p : Parser) : p.core.state = p.state := rfl

@[simp] theorem core_plainData (p : Parser) : p.core.plainData = [] := rfl

theorem emitPlainData_state (p : Parser) : p.emitPlainData.1 = p.core := by
  by_cases h : p.plainData = []
  · rw [emitPlainData, if_pos h, core, ← h]
  · rw [emitPlainData, if_neg h, core]

theorem emitPlainData_atoms (p : Parser) :
    p.emitPlainData.2.flatMap Element.atoms = p.plainData.map .data := by
  by_cases h : p.plainData = []
  · simp [emitPlainData, h]
  · simp [emitPlainData, h]

theorem emitPlainData_core (p : Parser) : p.core.emitPlainData = (p.core, []) := by
  simp [emitPlainData]

/-- A byte after IAC either is plain data itself or flushes the plain data
that came before. -/
theorem parseIac_eq (p : Parser) (by_ : Byte) :
    p.parseIac by_ =
      if by_ = iac then ({ p with plainData := p.plainData ++ [by_], state := .idle }, [])
      else ((p.core.parseIac by_).1, p.emitPlainData.2 ++ (p.core.parseIac by_).2) := by
  by_cases hiac : by_ = iac
  · simp [parseIac, hiac]
  · simp only [parseIac, hiac, if_false, emitPlainData_core, emitPlainData_state]
    split
    · simp
    · split <;> simp

theorem core_parseByte (p : Parser) (by_ : Byte) :
    (p.parseByte by_).1.core = (p.core.parseByte by_).1.core := by
  cases hs : p.state with
  | idle =>
      simp only [parseByte, core_state, hs, parseIdle]
      split <;> rfl
  | iac =>
      simp only [parseByte, core_state, hs]
      rw [parseIac_eq]
      split
      · next h => simp [parseIac, h, core]
      · rfl
  | negotiation => simp [parseByte, hs, parseNegotiation, core]
  | subnegotiation => simp [parseByte, hs, parseSubnegotiation, core]
  | subnegotiationContent =>
      simp only [parseByte, core_state, hs, parseSubnegotiationContent]
      split <;> rfl
  | subnegotiationContentIac =>
      simp only [parseByte, core_state, hs, parseSubnegotiationContentIac]
      split <;> rfl

/-- Inside a negotiation or a subnegotiation no plain data is held back: it
was emitted when the sequence began. -/
def Settled (p : Parser) : Prop :=
  p.state = .idle ∨ p.state = .iac ∨ p.plainData = []

theorem settled_parseByte (p : Parser) (by_ : Byte) (hp : p.Settled) :
    (p.parseByte by_).1.Settled := by
  cases hs : p.state with
  | idle =>
      simp only [parseByte, hs, parseIdle]
      split <;> simp [Settled]
  | iac =>
      simp only [parseByte, hs]
      rw [parseIac_eq]
      split
      · simp [Settled]
      · simp only [parseIac, emitPlainData_core, Settled]
        grind [core_plainData]
  | _ =>
      have hplain : p.plainData = [] := by simpa [Settled, hs] using hp
      simp only [parseByte, hs, parseNegotiation, parseSubnegotiation,
        parseSubnegotiationContent, parseSubnegotiationContentIac]
      try split
      all_goals simp [Settled, hplain]

/-- What a byte emits, read together with the plain data it leaves behind. -/
theorem parseByte_atoms (p : Parser) (by_ : Byte) (hp : p.Settled) :
    (p.parseByte by_).2.flatMap Element.atoms ++ (p.parseByte by_).1.plainData.map .data =
      p.plainData.map .data ++ ((p.core.parseByte by_).2.flatMap Element.atoms ++
        (p.core.parseByte by_).1.plainData.map .data) := by
  cases hs : p.state with
  | idle =>
      simp only [parseByte, core_state, hs, parseIdle]
      split <;> simp
  | iac =>
      simp only [parseByte, core_state, hs]
      rw [parseIac_eq]
      split
      · next h => simp [parseIac, h]
      · simp [emitPlainData_atoms]
  | _ =>
      have hcore : p.core = p := by
        have hplain : p.plainData = [] := by simpa [Settled, hs] using hp
        rw [core, ← hplain]
      have hplain : p.plainData = [] := by rw [← hcore, core_plainData]
      rw [hcore, hplain]
      rfl

/-- The parser as a machine that holds plain data back. -/
def buffered : Buffered machine Atom where
  Valid := Settled
  core := core
  pending p := p.plainData.map .data
  atoms := Element.atoms
  flush := emitPlainData
  step_valid := settled_parseByte
  core_valid := fun p _ => Or.inr (Or.inr (core_plainData p))
  core_core := fun _ => rfl
  pending_core := fun _ => rfl
  step_core := fun p by_ _ => core_parseByte p by_
  step_atoms := parseByte_atoms
  flush_state := emitPlainData_state
  flush_atoms := emitPlainData_atoms

/-- `operator()`: one delivery. -/
def feed (p : Parser) (data : Bytes) : Parser × List Element :=
  let q := machine.final p data
  (q.emitPlainData.1, machine.outputs p data ++ q.emitPlainData.2)

def feedAll (p : Parser) : List Bytes → Parser × List Element
  | [] => (p, [])
  | data :: chunks =>
      let r := p.feed data
      ((feedAll r.1 chunks).1, r.2 ++ (feedAll r.1 chunks).2)

theorem feedAll_eq (p : Parser) (chunks : List Bytes) :
    p.feedAll chunks = buffered.feedAll p chunks := by
  induction chunks generalizing p with
  | nil => rfl
  | cons data chunks ih =>
      simp only [feedAll, Buffered.feedAll, ih]
      rfl

theorem feed_bytes_ne_nil (p : Parser) (data : Bytes) :
    ∀ span, .bytes span ∈ (p.feed data).2 → span ≠ [] := by
  have hemit (q : Parser) : ∀ span, .bytes span ∈ q.emitPlainData.2 → span ≠ [] := by
    intro span hspan
    by_cases h : q.plainData = []
    · simp [emitPlainData, h] at hspan
    · have heq : span = q.plainData := by simpa [emitPlainData, h] using hspan
      exact heq ▸ h
  have hbyte (q : Parser) (by_ : Byte) :
      ∀ span, .bytes span ∈ (q.parseByte by_).2 → span ≠ [] := by
    intro span hspan
    cases hs : q.state <;> simp only [parseByte, hs, parseIdle, parseIac, parseNegotiation,
      parseSubnegotiation, parseSubnegotiationContent, parseSubnegotiationContentIac] at hspan
    all_goals grind
  intro span hspan
  rcases List.mem_append.mp hspan with h | h
  · have hall := machine.outputs_invariant (R := fun _ => True)
      (Q := fun e => ∀ span, e = .bytes span → span ≠ []) (fun _ _ _ => trivial)
      (fun q by_ _ e he span hspan => hbyte q by_ span (hspan ▸ he)) (s := p) trivial data
    exact hall _ h span rfl
  · exact hemit _ span h

/-! ## Joining deliveries -/

/-- What one delivery comes to, with its plain data taken byte by byte. -/
def reads (p : Parser) (data : Bytes) : List Atom := (p.feed data).2.flatMap Element.atoms

/-- The parser after one delivery. -/
def after (p : Parser) (data : Bytes) : Parser := (p.feed data).1

theorem after_eq_core (p : Parser) (data : Bytes) : p.after data = (machine.final p data).core :=
  emitPlainData_state _

theorem plainData_after (p : Parser) (data : Bytes) : (p.after data).plainData = [] := by
  rw [after_eq_core, core_plainData]

theorem after_nil {p : Parser} (hp : p.plainData = []) : p.after [] = p := by
  rw [after_eq_core, Transducer.final_nil, core, ← hp]

theorem reads_eq_content (p : Parser) (data : Bytes) : p.reads data = buffered.content p data :=
  buffered.feed_atoms p data

theorem after_append {p : Parser} (hp : p.plainData = []) (data data' : Bytes) :
    p.after (data ++ data') = (p.after data).after data' := by
  have hfinal : buffered.Valid (machine.final p data) :=
    buffered.final_valid (Or.inr (Or.inr hp)) data
  rw [after_eq_core, after_eq_core, after_eq_core, Transducer.final_append]
  exact buffered.core_final hfinal data'

theorem reads_append {p : Parser} (hp : p.plainData = []) (data data' : Bytes) :
    p.reads (data ++ data') = p.reads data ++ (p.after data).reads data' := by
  have hfinal : buffered.Valid (machine.final p data) :=
    buffered.final_valid (Or.inr (Or.inr hp)) data
  have hrest : buffered.content (machine.final p data) data' =
      buffered.pending (machine.final p data) ++ (p.after data).reads data' := by
    rw [buffered.content_eq hfinal, reads_eq_content, after_eq_core]
    rfl
  rw [reads_eq_content p (data ++ data'), buffered.content_append, hrest, ← List.append_assoc]
  exact congrArg (· ++ _) (reads_eq_content p data).symm

theorem reads_nil {p : Parser} (hp : p.plainData = []) : p.reads [] = [] := by
  rw [reads_eq_content, buffered.content_nil]
  exact congrArg (List.map Atom.data) hp

/-! ## Parsers that read alike -/

/-- The two parsers differ at most in the fields that the next byte of a
sequence overwrites before they are read. -/
structure Alike (p q : Parser) : Prop where
  state : p.state = q.state
  plainData : p.plainData = q.plainData
  negotiationType : p.state = .negotiation → p.negotiationType = q.negotiationType
  subnegotiation : p.state = .subnegotiationContent ∨ p.state = .subnegotiationContentIac →
    p.subnegotiationOption = q.subnegotiationOption ∧
      p.subnegotiationContent = q.subnegotiationContent

theorem Alike.emitPlainData {p q : Parser} (h : Alike p q) :
    Alike p.emitPlainData.1 q.emitPlainData.1 ∧ p.emitPlainData.2 = q.emitPlainData.2 := by
  obtain ⟨hstate, hplain, hneg, hsub⟩ := h
  unfold Parser.emitPlainData
  rw [hplain]
  split
  · exact ⟨⟨hstate, hplain, hneg, hsub⟩, rfl⟩
  · exact ⟨⟨hstate, rfl, hneg, hsub⟩, rfl⟩

theorem Alike.parseByte {p q : Parser} (h : Alike p q) (by_ : Byte) :
    Alike (p.parseByte by_).1 (q.parseByte by_).1 ∧
      (p.parseByte by_).2 = (q.parseByte by_).2 := by
  obtain ⟨hemit, helems⟩ := h.emitPlainData
  obtain ⟨hstate, hplain, hneg, hsub⟩ := h
  cases hs : p.state <;>
    have hq := hs ▸ hstate.symm <;>
    simp only [Parser.parseByte, hs, hq, parseIdle, parseIac, parseNegotiation,
      parseSubnegotiation, parseSubnegotiationContent, parseSubnegotiationContentIac]
  all_goals grind [Alike]

theorem Alike.feed {p q : Parser} (h : Alike p q) (data : Bytes) :
    Alike (p.feed data).1 (q.feed data).1 ∧ (p.feed data).2 = (q.feed data).2 := by
  have hrun : Alike (machine.final p data) (machine.final q data) ∧
      machine.outputs p data = machine.outputs q data := by
    induction data generalizing p q with
    | nil => exact ⟨h, rfl⟩
    | cons by_ data ih =>
        obtain ⟨hnext, hout⟩ := h.parseByte by_
        obtain ⟨hfinal, houts⟩ := ih hnext
        refine ⟨hfinal, ?_⟩
        rw [Transducer.outputs_cons, Transducer.outputs_cons]
        exact congrArg₂ _ hout houts
  obtain ⟨hemit, helems⟩ := hrun.1.emitPlainData
  exact ⟨hemit, congrArg₂ _ hrun.2 helems⟩

theorem Alike.feedAll {p q : Parser} (h : Alike p q) (chunks : List Bytes) :
    (p.feedAll chunks).2 = (q.feedAll chunks).2 := by
  induction chunks generalizing p q with
  | nil => rfl
  | cons data chunks ih =>
      obtain ⟨hnext, hout⟩ := h.feed data
      exact congrArg₂ _ hout (ih hnext)

theorem alike_fresh {p : Parser} (hstate : p.state = .idle) (hplain : p.plainData = []) :
    Alike p {} :=
  ⟨hstate, hplain, by simp [hstate], by simp [hstate]⟩

end Parser

end Telnetpp
