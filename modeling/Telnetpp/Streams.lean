import Telnetpp.RoundTrip
import Telnetpp.Session
import Telnetpp.Foundation.Streams

/-!
# Sessions over streams of bytes

A party owns a session with one option. Taken over bytes it reads its stream
with `asyncRead`, cut anywhere, and writes what the generator makes of each
element; taken over elements it is handed them one by one. The first frames
the second.
-/

namespace Telnetpp

open Foundation

/-! ## The elements still to come from a stream -/

namespace Parser

/-- The parser, holding nothing back, reads the bytes as these elements, none
of which is plain data, and is idle after them. -/
structure Pending (p : Parser) (data : Bytes) (elems : List Element) : Prop where
  plainData : p.plainData = []
  state : (machine.final p data).state = .idle
  content : buffered.content p data = elems.map .token

theorem Pending.nil {p : Parser} {elems : List Element} (h : p.Pending [] elems) :
    elems = [] := by
  have hcontent := h.content
  simpa [buffered, h.plainData] using hcontent.symm

theorem pending_fresh : ({} : Parser).Pending [] [] := ⟨rfl, rfl, rfl⟩

/-- The elements that make up the given tokens, with no empty span, are those tokens. -/
theorem eq_of_atoms_eq_tokens {elems elems' : List Element}
    (hspans : ∀ span, .bytes span ∈ elems → span ≠ [])
    (h : elems.flatMap Element.atoms = elems'.map .token) : elems = elems' := by
  induction elems generalizing elems' with
  | nil => simpa using h.symm
  | cons elem elems ih =>
      have htoken (he : elem.atoms = [.token elem]) : elem :: elems = elems' := by
        rw [List.flatMap_cons, he, List.singleton_append] at h
        cases elems' with
        | nil => simp at h
        | cons elem' elems' =>
            obtain ⟨heq, hrest⟩ := List.cons.inj h
            rw [Atom.token.inj heq,
              ih (fun span hspan => hspans span (List.mem_cons_of_mem _ hspan)) hrest]
      cases elem with
      | bytes span =>
          obtain ⟨by_, span', rfl⟩ := List.exists_cons_of_ne_nil (hspans span (by simp))
          cases elems' <;> simp at h
      | _ => exact htoken rfl

/-- A chunk of the stream is read as the first of the pending elements. -/
theorem Pending.feed {p : Parser} {chunk data : Bytes} {elems : List Element}
    (h : p.Pending (chunk ++ data) elems) :
    ∃ later, elems = (p.feed chunk).2 ++ later ∧ (p.feed chunk).1.Pending data later := by
  have hvalid : buffered.Valid p := Or.inr (Or.inr h.plainData)
  have hfinal := buffered.final_valid hvalid chunk
  have hstate : (p.feed chunk).1 = (machine.final p chunk).core := emitPlainData_state _
  have hcontent : buffered.content p chunk ++ buffered.content (p.feed chunk).1 data =
      elems.map .token := by
    rw [← h.content, buffered.content_append, buffered.content_eq hfinal data, hstate,
      Buffered.content, List.append_assoc]
    rfl
  obtain ⟨first, later, rfl, hfirst, hlater⟩ := List.append_eq_map_iff.mp hcontent
  have hread : (p.feed chunk).2 = first :=
    eq_of_atoms_eq_tokens (p.feed_bytes_ne_nil chunk)
      ((buffered.feed_atoms p chunk).trans hfirst.symm)
  refine ⟨later, by rw [hread], ?_, ?_, hlater.symm⟩
  · rw [hstate, core_plainData]
  · have hcore := buffered.core_final hfinal data
    rw [hstate, ← h.state, Transducer.final_append]
    exact (congrArg Parser.state hcore).symm

/-- The elements whose bytes can be put on a stream that carries no plain data. -/
def Sendable (elem : Element) : Prop := elem.WellFormed ∧ ∀ data, elem ≠ .bytes data

theorem Pending.send {p : Parser} {data : Bytes} {elems : List Element} {elem : Element}
    (h : p.Pending data elems) (helem : Sendable elem) :
    p.Pending (data ++ wire elem) (elems ++ [elem]) := by
  obtain ⟨hstate, hcontent⟩ := content_wire [elem] (by simpa using helem.1) h.state
  rw [List.flatMap_singleton] at hstate hcontent
  rw [List.flatMap_singleton, Element.atoms_token helem.2] at hcontent
  refine ⟨h.plainData, ?_, ?_⟩
  · rw [Transducer.final_append]
    exact hstate
  · rw [buffered.content_append, hcontent, ← List.append_assoc, List.map_append, ← h.content]
    rfl

theorem Pending.sendAll {p : Parser} {data : Bytes} {elems later : List Element}
    (h : p.Pending data elems) (hlater : ∀ elem ∈ later, Sendable elem) :
    p.Pending (data ++ later.flatMap wire) (elems ++ later) := by
  induction later generalizing data elems with
  | nil => simpa using h
  | cons elem later ih =>
      obtain ⟨helem, hlater⟩ := List.forall_mem_cons.mp hlater
      simpa using ih (h.send helem) hlater

/-- A fresh parser reads from all of a stream what has been put on it. -/
theorem feed_wire {elems : List Element} (helems : ∀ elem ∈ elems, Sendable elem) :
    (({} : Parser).feed (elems.flatMap wire)).2 = elems := by
  have hpending := pending_fresh.sendAll helems
  rw [List.nil_append, List.nil_append, ← List.append_nil (elems.flatMap wire)] at hpending
  obtain ⟨later, hread, hlater⟩ := hpending.feed
  rw [hlater.nil, List.append_nil] at hread
  exact hread.symm

end Parser

/-! ## Maps and properties of worlds -/

/-- A map of worlds that commutes with all that an option reaches. -/
structure TelnetOption.Hom {traits : OptionTraits} {σ τ : Type*} (opt : TelnetOption traits σ)
    (opt' : TelnetOption traits τ) (f : σ → τ) : Prop where
  optionCode : opt'.optionCode = opt.optionCode
  state : ∀ w, opt'.state (f w) = opt.state w
  setState : ∀ st w, opt'.setState st (f w) = f (opt.setState st w)
  write : ∀ elem w, opt'.write elem (f w) = f (opt.write elem w)
  onStateChanged : ∀ w, opt'.onStateChanged (f w) = f (opt.onStateChanged w)
  handleSubnegotiation : ∀ content w,
    opt'.handleSubnegotiation content (f w) = f (opt.handleSubnegotiation content w)

namespace TelnetOption.Hom

variable {traits : OptionTraits} {σ τ : Type*} {opt : TelnetOption traits σ}
  {opt' : TelnetOption traits τ} {f : σ → τ}

theorem writeNegotiation (h : opt.Hom opt' f) (neg : NegotiationType) (w : σ) :
    opt'.writeNegotiation neg (f w) = f (opt.writeNegotiation neg w) := by
  simp only [TelnetOption.writeNegotiation, h.optionCode, h.write]

theorem writeSubnegotiation (h : opt.Hom opt' f) (content : Bytes) (w : σ) :
    opt'.writeSubnegotiation content (f w) = f (opt.writeSubnegotiation content w) := by
  simp only [TelnetOption.writeSubnegotiation, h.optionCode, h.write]

theorem call (h : opt.Hom opt' f) (c : Call) (w : σ) :
    opt'.call c (f w) = f (opt.call c w) := by
  cases c <;> cases hs : opt.state w <;>
    simp only [TelnetOption.call, TelnetOption.activate, TelnetOption.deactivate, h.state, hs,
      h.setState, h.writeNegotiation, h.onStateChanged]

theorem negotiate (h : opt.Hom opt' f) (neg : NegotiationType) (w : σ) :
    opt'.negotiate neg (f w) = f (opt.negotiate neg w) := by
  cases hs : opt.state w <;> by_cases hneg : neg = traits.remotePositive <;>
    simp only [TelnetOption.negotiate, h.state, hs, hneg, if_true, if_false, h.setState,
      h.writeNegotiation, h.onStateChanged]

theorem subnegotiate (h : opt.Hom opt' f) (content : Bytes) (w : σ) :
    opt'.subnegotiate content (f w) = f (opt.subnegotiate content w) := by
  by_cases hs : opt.state w = .active <;>
    simp only [TelnetOption.subnegotiate, h.state, hs, if_true, if_false, h.handleSubnegotiation]

end TelnetOption.Hom

/-- A property of worlds that every member function of an option keeps. -/
structure TelnetOption.Keeps {traits : OptionTraits} {σ : Type*} (opt : TelnetOption traits σ)
    (I : σ → Prop) : Prop where
  setState : ∀ st w, I w → I (opt.setState st w)
  writePositive : ∀ w, I w → I (opt.writeNegotiation traits.localPositive w)
  writeNegative : ∀ w, I w → I (opt.writeNegotiation traits.localNegative w)
  onStateChanged : ∀ w, I w → I (opt.onStateChanged w)
  handleSubnegotiation : ∀ content w, I w → I (opt.handleSubnegotiation content w)

namespace TelnetOption.Keeps

variable {traits : OptionTraits} {σ : Type*} {opt : TelnetOption traits σ} {I : σ → Prop}

theorem call (h : opt.Keeps I) (c : Call) {w : σ} (hw : I w) : I (opt.call c w) := by
  cases c <;> cases hs : opt.state w <;>
    simp only [TelnetOption.call, TelnetOption.activate, TelnetOption.deactivate, hs] <;>
    first
      | exact hw
      | exact h.onStateChanged w hw
      | exact h.writePositive _ (h.setState _ w hw)
      | exact h.writeNegative _ (h.setState _ w hw)

theorem negotiate (h : opt.Keeps I) (neg : NegotiationType) {w : σ} (hw : I w) :
    I (opt.negotiate neg w) := by
  have hset (st : InternalState) : I (opt.setState st w) := h.setState st w hw
  cases hs : opt.state w <;> by_cases hneg : neg = traits.remotePositive <;>
    simp only [TelnetOption.negotiate, hs, hneg, if_true, if_false]
  · exact h.onStateChanged _ (h.writePositive _ (hset _))
  · exact h.writeNegative w hw
  · exact h.onStateChanged _ (hset _)
  · exact h.onStateChanged _ (hset _)
  · exact h.writePositive w hw
  · exact h.writeNegative _ (h.onStateChanged _ (hset _))
  · exact h.onStateChanged _ (hset _)
  · exact h.onStateChanged _ (hset _)

theorem subnegotiate (h : opt.Keeps I) (content : Bytes) {w : σ} (hw : I w) :
    I (opt.subnegotiate content w) := by
  by_cases hs : opt.state w = .active
  · rw [TelnetOption.subnegotiate, if_pos hs]
    exact h.handleSubnegotiation content w hw
  · rwa [TelnetOption.subnegotiate, if_neg hs]

end TelnetOption.Keeps

/-! ## Parties -/

/-- What a party owns and what it has written, as elements or as bytes. -/
structure Outbox (σ Ω : Type*) where
  own : σ
  written : List Ω := []

namespace Outbox

variable {σ : Type*}

def writeElement (elem : Element) (w : Outbox σ Element) : Outbox σ Element :=
  { w with written := w.written ++ [elem] }

/-- The session's `write`, over a channel that keeps all it is given. -/
def writeBytes : Element → Outbox σ Byte → Outbox σ Byte :=
  Session.write fun data w => { w with written := w.written ++ data }

/-- The same outbox with its elements generated, behind bytes written before. -/
def render (before : Bytes) (w : Outbox σ Element) : Outbox σ Byte :=
  ⟨w.own, before ++ w.written.flatMap wire⟩

theorem writeBytes_eq (elem : Element) (w : Outbox σ Byte) :
    writeBytes elem w = ⟨w.own, w.written ++ wire elem⟩ := by
  have hfold (spans : List Bytes) (w : Outbox σ Byte) :
      spans.foldl (fun w data => { w with written := w.written ++ data }) w =
        ⟨w.own, w.written ++ spans.flatten⟩ := by
    induction spans generalizing w with
    | nil => simp
    | cons span spans ih => simp [ih]
  exact hfold (generate elem) w

theorem writeBytes_render (before : Bytes) (elem : Element) (w : Outbox σ Element) :
    writeBytes elem (render before w) = render before (writeElement elem w) := by
  simp [writeBytes_eq, render, writeElement]

end Outbox

/-- An option, the `write` of its session, and what its owner may do. -/
structure Party (ι : Type*) (traits : OptionTraits) (σ Ω : Type*) where
  write : Element → Outbox σ Ω → Outbox σ Ω
  option : TelnetOption traits (Outbox σ Ω)
  input : ι → Outbox σ Ω → Outbox σ Ω

namespace Party

variable {ι : Type*} {traits : OptionTraits} {σ Ω : Type*}

def session (P : Party ι traits σ Ω) : Session (Outbox σ Ω) :=
  (Session.new P.write).installOption P.option

def elements (P : Party ι traits σ Element) : Process ι Unit Element Element σ where
  act i s :=
    let w := P.input i ⟨s, []⟩
    (w.own, w.written)
  recv _ elem s :=
    let w := P.session.tokenHandler (fun _ w => w) elem ⟨s, []⟩
    (w.own, w.written)

/-- The parser of the session is kept beside what the party owns. -/
def bytes (P : Party ι traits σ Byte) : Process ι Unit Bytes Byte (σ × Parser) where
  act i s :=
    let w := P.input i ⟨s.1, []⟩
    ((w.own, s.2), w.written)
  recv _ data s :=
    let r := ({ P.session with parser := s.2 } : Session _).asyncRead (fun _ w => w) data ⟨s.1, []⟩
    ((r.2.own, r.1.parser), r.2.written)

/-- The two parties do the same, one over bytes and one over elements. -/
structure Renders (P' : Party ι traits σ Byte) (P : Party ι traits σ Element) : Prop where
  write : ∀ before elem w, P'.write elem (Outbox.render before w) =
    Outbox.render before (P.write elem w)
  option : ∀ before, P.option.Hom P'.option (Outbox.render before)
  input : ∀ before i w, P'.input i (Outbox.render before w) =
    Outbox.render before (P.input i w)

theorem Renders.tokenHandler {P' : Party ι traits σ Byte} {P : Party ι traits σ Element}
    (h : P'.Renders P) (before : Bytes) (elem : Element) (w : Outbox σ Element) :
    P'.session.tokenHandler (fun _ w => w) elem (Outbox.render before w) =
      Outbox.render before (P.session.tokenHandler (fun _ w => w) elem w) := by
  have hopt := h.option before
  cases elem with
  | bytes data => rfl
  | command cmd => rfl
  | negotiation neg =>
      simp only [Session.tokenHandler, Router.route, session, id,
        Session.negotiationRouter_installOption, hopt.optionCode]
      split_ifs
      · exact hopt.negotiate _ w
      · exact hopt.negotiate _ w
      · exact h.write before _ w
  | subnegotiation sub =>
      simp only [Session.tokenHandler, Router.route, session,
        Session.subnegotiationRouter_installOption, hopt.optionCode]
      split_ifs
      · exact hopt.subnegotiate _ w
      · rfl

theorem Renders.foldl_tokenHandler {P' : Party ι traits σ Byte} {P : Party ι traits σ Element}
    (h : P'.Renders P) (elems : List Element) (s : σ) (before : Bytes) :
    elems.foldl (fun w elem => P'.session.tokenHandler (fun _ w => w) elem w) ⟨s, before⟩ =
      ⟨(P.elements.recvAll elems s).1,
        before ++ (P.elements.recvAll elems s).2.flatMap wire⟩ := by
  induction elems generalizing s before with
  | nil => simp [Process.recvAll]
  | cons elem elems ih =>
      have hfirst := h.tokenHandler before elem ⟨s, []⟩
      rw [show Outbox.render before ⟨s, []⟩ = ⟨s, before⟩ by simp [Outbox.render]] at hfirst
      rw [List.foldl_cons, hfirst, Outbox.render, ih]
      simp [Process.recvAll, elements]

/-- What has been written is without plain data and has a meaning on the wire. -/
def Writes (w : Outbox σ Element) : Prop := ∀ elem ∈ w.written, Parser.Sendable elem

theorem Writes.write {w : Outbox σ Element} (h : Writes w) {elem : Element}
    (helem : Parser.Sendable elem) : Writes (w.writeElement elem) :=
  List.forall_mem_append.mpr ⟨h, List.forall_mem_singleton.mpr helem⟩

theorem sendable_negotiation {neg : Negotiation} (h : isNegotiationType neg.request = true) :
    Parser.Sendable (.negotiation neg) := ⟨h, nofun⟩

theorem sendable_subnegotiation (sub : Subnegotiation) :
    Parser.Sendable (.subnegotiation sub) := ⟨trivial, nofun⟩

theorem writes_tokenHandler {P : Party ι traits σ Element} (hwrite : P.write = Outbox.writeElement)
    (h : P.option.Keeps Writes) (elem : Element) {w : Outbox σ Element} (hw : Writes w) :
    Writes (P.session.tokenHandler (fun _ w => w) elem w) := by
  apply Session.tokenHandler_installOption P.write P.option elem w
  · intro _
    refine ⟨hw, fun neg => ?_⟩
    have hrefusal : isNegotiationType (refusal neg).request = true := by
      simp only [refusal]
      split <;> decide
    rw [hwrite]
    exact hw.write (sendable_negotiation hrefusal)
  · exact fun request _ _ => h.negotiate request hw
  · exact fun content _ => h.subnegotiate content hw

/-- All that the party ever writes can be put on a stream. -/
structure Sends (P : Party ι traits σ Element) : Prop where
  act : ∀ i s, ∀ elem ∈ (P.elements.act i s).2, Parser.Sendable elem
  recv : ∀ elem' s, ∀ elem ∈ (P.elements.recv () elem' s).2, Parser.Sendable elem

theorem sends_of_keeps {P : Party ι traits σ Element} (hwrite : P.write = Outbox.writeElement)
    (h : P.option.Keeps Writes) (hinput : ∀ i w, Writes w → Writes (P.input i w)) : P.Sends :=
  ⟨fun i s => hinput i ⟨s, []⟩ (by simp [Writes]),
    fun elem _ => writes_tokenHandler hwrite h elem (by simp [Writes])⟩

theorem Renders.frames {P' : Party ι traits σ Byte} {P : Party ι traits σ Element}
    (h : P'.Renders P) (hP : P.Sends) :
    Frames P'.bytes P.elements wire wire Parser.Sendable Parser.Sendable
      fun s' data s elems => s'.1 = s ∧ s'.2.Pending data elems where
  nil := fun hreads => hreads.2.nil
  act := by
    rintro i ⟨s', p⟩ data s elems ⟨rfl, hpending⟩
    have hinput := h.input [] i ⟨s', []⟩
    rw [show Outbox.render [] ⟨s', []⟩ = ⟨s', []⟩ from rfl] at hinput
    simp only [bytes, elements, hinput]
    exact ⟨rfl, rfl, hpending⟩
  recv := by
    rintro chunk ⟨s', p⟩ data s elems ⟨rfl, hpending⟩
    obtain ⟨later, rfl, hlater⟩ := hpending.feed
    have hread : P'.bytes.recv () chunk (s', p) =
        (((P.elements.recvAll (p.feed chunk).2 s').1, (p.feed chunk).1),
          (P.elements.recvAll (p.feed chunk).2 s').2.flatMap wire) := by
      have hfold := h.foldl_tokenHandler (p.feed chunk).2 s' []
      have htoken (elem : Element) (w : Outbox σ Byte) :
          ({ P'.session with parser := p } : Session _).tokenHandler (fun _ w => w) elem w =
            P'.session.tokenHandler (fun _ w => w) elem w := by cases elem <;> rfl
      simp only [bytes, Session.asyncRead, Session.calls, List.foldl_append, htoken, hfold]
      rfl
    exact ⟨_, later, rfl, by rw [hread], by rw [hread], by rw [hread]; exact hlater⟩
  send := fun helem hreads => ⟨hreads.1, hreads.2.send helem⟩
  sent_act := hP.act
  sent_recv := hP.recv

end Party

end Telnetpp
