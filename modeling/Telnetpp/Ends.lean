import Telnetpp.Application
import Telnetpp.Reconstruction
import Telnetpp.Foundation.Streams

/-!
# Applications joined by streams of bytes

Over bytes an application reads its stream with `asyncRead`, cut anywhere; over
atoms it is handed single bytes of data and whole elements. The first frames
the second, with plain data between the elements.
-/

namespace Telnetpp

open Foundation

/-- What the token handler is called with for an atom. -/
def Atom.element : Atom → Element
  | .data by_ => .bytes [by_]
  | .token elem => elem

/-- The atoms that can be put on a stream. -/
def Atom.Sendable : Atom → Prop
  | .data _ => True
  | .token elem => Parser.Sendable elem

theorem Element.WellFormed.sendable {elem : Element} (h : elem.WellFormed) :
    ∀ a ∈ elem.atoms, a.Sendable := by
  cases elem with
  | bytes data =>
      intro a ha
      obtain ⟨by_, -, rfl⟩ := List.mem_map.mp ha
      trivial
  | _ => exact List.forall_mem_singleton.mpr ⟨h, nofun⟩

/-! ## The atoms still to come from a stream -/

namespace Parser

/-- The parser, holding nothing back, reads the bytes as these atoms, and is
idle after them. -/
structure Continues (p : Parser) (data : Bytes) (atoms : List Atom) : Prop where
  plainData : p.plainData = []
  state : (p.after data).state = .idle
  reads : p.reads data = atoms

theorem continues_fresh : ({} : Parser).Continues [] [] := ⟨rfl, rfl, rfl⟩

theorem Continues.nil {p : Parser} {atoms : List Atom} (h : p.Continues [] atoms) :
    atoms = [] :=
  h.reads.symm.trans (reads_nil h.plainData)

theorem Continues.feed {p : Parser} {chunk data : Bytes} {atoms : List Atom}
    (h : p.Continues (chunk ++ data) atoms) :
    ∃ later, atoms = p.reads chunk ++ later ∧ (p.after chunk).Continues data later := by
  refine ⟨(p.after chunk).reads data, ?_, p.plainData_after chunk, ?_, rfl⟩
  · rw [← h.reads, reads_append h.plainData]
  · rw [← after_append h.plainData]
    exact h.state

theorem Continues.send {p : Parser} {data : Bytes} {atoms : List Atom} {a : Atom}
    (h : p.Continues data atoms) (ha : a.Sendable) :
    p.Continues (data ++ atomWire a) (atoms ++ [a]) := by
  have helem : a.element.WellFormed := by
    cases a with
    | data by_ => trivial
    | token elem => exact ha.1
  have hatoms : a.element.atoms = [a] := by
    cases a with
    | data by_ => rfl
    | token elem => exact Element.atoms_token ha.2
  have hwire : wire a.element = atomWire a := by
    rw [← atomWire_atoms, hatoms, List.flatMap_singleton]
  obtain ⟨hstate, hcontent⟩ := content_wire [a.element] (by simpa using helem) h.state
  rw [List.flatMap_singleton, hwire] at hstate hcontent
  refine ⟨h.plainData, ?_, ?_⟩
  · rw [after_append h.plainData, after_eq_core]
    exact hstate
  · rw [reads_append h.plainData, h.reads, reads_eq_content, hcontent, plainData_after,
      List.flatMap_singleton, hatoms]
    rfl

theorem Continues.sendAll {p : Parser} {data : Bytes} {before atoms : List Atom}
    (h : p.Continues data before) (hatoms : ∀ a ∈ atoms, a.Sendable) :
    p.Continues (data ++ atoms.flatMap atomWire) (before ++ atoms) := by
  induction atoms generalizing data before with
  | nil => simpa using h
  | cons a atoms ih =>
      obtain ⟨ha, hatoms⟩ := List.forall_mem_cons.mp hatoms
      simpa using ih (h.send ha) hatoms

theorem reads_flatMap {atoms : List Atom} (h : ∀ a ∈ atoms, a.Sendable) :
    ({} : Parser).reads (atoms.flatMap atomWire) = atoms :=
  (continues_fresh.sendAll h).reads

end Parser

/-! ## What is written, in other words -/

namespace Outbox

variable {σ Ω Ω' : Type*}

def mapWritten (f : List Ω → List Ω') (w : Outbox σ Ω) : Outbox σ Ω' := ⟨w.own, f w.written⟩

def writeAtoms (elem : Element) (w : Outbox σ Atom) : Outbox σ Atom :=
  { w with written := w.written ++ elem.atoms }

/-- The bytes of the atoms, behind bytes written before. -/
def frame (before : Bytes) (atoms : List Atom) : Bytes := before ++ atoms.flatMap Parser.atomWire

theorem writeBytes_frame (before : Bytes) (elem : Element) (w : Outbox σ Atom) :
    writeBytes elem (mapWritten (frame before) w) =
      mapWritten (frame before) (writeAtoms elem w) := by
  simp [writeBytes_eq, mapWritten, frame, writeAtoms, Parser.atomWire_atoms]

theorem writeAtoms_append (log : List Atom) (elem : Element) (w : Outbox σ Atom) :
    writeAtoms elem (mapWritten (log ++ ·) w) = mapWritten (log ++ ·) (writeAtoms elem w) := by
  simp [mapWritten, writeAtoms]

end Outbox

namespace Application

variable {α κ : Type} (A : Application α κ)

section MapWritten

variable {Ω Ω' : Type} {write : Element → Outbox (Owned κ) Ω → Outbox (Owned κ) Ω}
variable {write' : Element → Outbox (Owned κ) Ω' → Outbox (Owned κ) Ω'} {f : List Ω → List Ω'}
variable (hwrite : ∀ elem w, write' elem (w.mapWritten f) = (write elem w).mapWritten f)

include hwrite

theorem perform_mapWritten (handler : Handler κ) (w : Outbox (Owned κ) Ω) :
    perform write' handler (w.mapWritten f) = (perform write handler w).mapWritten f := by
  have hfold (ms : List FreeElement) (w : Outbox (Owned κ) Ω) :
      ms.foldl (fun w m => write' m.elem w) (w.mapWritten f) =
        (ms.foldl (fun w m => write m.elem w) w).mapWritten f := by
    induction ms generalizing w with
    | nil => rfl
    | cons m ms ih => rw [List.foldl_cons, hwrite, ih, List.foldl_cons]
  let r := handler w.own.state w.own.app
  let atoms := r.2.flatMap fun m : FreeElement => m.elem.atoms
  exact hfold r.2 { w with own.app := r.1, own.wrote := w.own.wrote ++ atoms }

theorem hom_option (id : OptionId) :
    (A.option write id).Hom (A.option write' id) (Outbox.mapWritten f) where
  optionCode := rfl
  state _ := rfl
  setState _ _ := rfl
  write := hwrite
  onStateChanged := perform_mapWritten hwrite (A.onStateChanged id)
  handleSubnegotiation content w :=
    perform_mapWritten hwrite (A.handleSubnegotiation id content)
      { w with own.handled := w.own.handled ++ [(id, content)] }

theorem callback_mapWritten (data : Bytes) (w : Outbox (Owned κ) Ω) :
    A.callback write' data (w.mapWritten f) = (A.callback write data w).mapWritten f := by
  induction data generalizing w with
  | nil => rfl
  | cons by_ data ih =>
      simp only [callback, List.foldl_cons] at ih ⊢
      rw [perform_mapWritten hwrite, ih]

theorem receive_mapWritten (elem : Element) (w : Outbox (Owned κ) Ω) :
    A.receive write' elem (w.mapWritten f) = (A.receive write elem w).mapWritten f := by
  cases elem with
  | bytes data => exact A.callback_mapWritten hwrite data w
  | command cmd =>
      rw [receive_command, receive_command, perform_mapWritten hwrite]
      split <;> rfl
  | negotiation neg =>
      by_cases howned : ∃ id ∈ A.options, id.Owns neg
      · obtain ⟨id, hid, howns⟩ := howned
        rw [A.receive_owned write' _ hid howns, A.receive_owned write _ hid howns]
        exact (A.hom_option hwrite id).negotiate neg.request w
      · push Not at howned
        rw [A.receive_unowned write' _ howned, A.receive_unowned write _ howned, hwrite]
  | subnegotiation sub =>
      rw [receive_subnegotiation, receive_subnegotiation]
      cases A.lastInstalled sub.option with
      | none => rfl
      | some id => exact (A.hom_option hwrite id).subnegotiate sub.content w

theorem input_mapWritten (i : AppInput α) (w : Outbox (Owned κ) Ω) :
    A.input write' i (w.mapWritten f) = (A.input write i w).mapWritten f := by
  cases i with
  | call id c =>
      simp only [input, (A.hom_option hwrite id).call]
      split <;> rfl
  | request i => exact perform_mapWritten hwrite (A.request i) w

end MapWritten

/-- What can come of an atom. -/
theorem receive_atom_cases {Ω : Type} (write : Element → Outbox (Owned κ) Ω → Outbox (Owned κ) Ω)
    (w : Outbox (Owned κ) Ω) {P : Outbox (Owned κ) Ω → Prop} {a : Atom} (ha : a.Sendable)
    (hnothing : P w) (hdata : ∀ by_, a = .data by_ → P (perform write (A.onByte by_) w))
    (hcommand : ∀ cmd, a = .token (.command cmd) → P (perform write (A.onCommand cmd) w))
    (howned : ∀ id ∈ A.options, ∀ neg, a = .token (.negotiation neg) → id.Owns neg →
      P ((A.option write id).negotiate neg.request w))
    (hunowned : ∀ neg, a = .token (.negotiation neg) → (∀ id ∈ A.options, ¬ id.Owns neg) →
      P (write (.negotiation (refusal neg)) w))
    (hsubnegotiation : ∀ id sub, a = .token (.subnegotiation sub) →
      A.lastInstalled sub.option = some id → P ((A.option write id).subnegotiate sub.content w)) :
    P (A.receive write a.element w) := by
  cases a with
  | data by_ => exact hdata by_ rfl
  | token elem =>
      exact A.receive_cases write w elem hnothing (fun data helem => absurd helem (ha.2 data))
        (fun cmd helem => hcommand cmd (congrArg _ helem))
        (fun id hid neg helem => howned id hid neg (congrArg _ helem))
        (fun neg helem => hunowned neg (congrArg _ helem))
        fun id sub helem => hsubnegotiation id sub (congrArg _ helem)

/-! ## What the operations keep -/

section Lasting

variable {Ω : Type} {write : Element → Outbox (Owned κ) Ω → Outbox (Owned κ) Ω}

/-- A property that what the application keeps and the messages that it writes
have no bearing on. -/
structure Lasting (write : Element → Outbox (Owned κ) Ω → Outbox (Owned κ) Ω)
    (I : Outbox (Owned κ) Ω → Prop) : Prop where
  app : ∀ (w : Outbox (Owned κ) Ω) (app : κ) (wrote : List Atom), I w →
    I { w with own.app := app, own.wrote := wrote }
  message : ∀ (m : FreeElement) w, I w → I (write m.elem w)

variable {I : Outbox (Owned κ) Ω → Prop}

theorem Lasting.perform (h : Lasting write I) (handler : Handler κ) {w : Outbox (Owned κ) Ω}
    (hw : I w) : I (perform write handler w) := by
  have hfold (ms : List FreeElement) (w : Outbox (Owned κ) Ω) (hw : I w) :
      I (ms.foldl (fun w m => write m.elem w) w) := by
    induction ms generalizing w with
    | nil => exact hw
    | cons m ms ih => exact ih _ (h.message m w hw)
  exact hfold _ _ (h.app w _ _ hw)

theorem Lasting.callback (h : Lasting write I) (data : Bytes) {w : Outbox (Owned κ) Ω}
    (hw : I w) : I (A.callback write data w) := by
  induction data generalizing w with
  | nil => exact hw
  | cons by_ data ih => exact ih (h.perform _ hw)

theorem Lasting.keeps (h : Lasting write I) (id : OptionId)
    (hset : ∀ st w, I w → I ((A.option write id).setState st w))
    (hpositive : ∀ w, I w → I (write (.negotiation ⟨id.half.traits.localPositive, id.code⟩) w))
    (hnegative : ∀ w, I w → I (write (.negotiation ⟨id.half.traits.localNegative, id.code⟩) w))
    (hhandled : ∀ (w : Outbox (Owned κ) Ω) handled, I w → I { w with own.handled := handled }) :
    (A.option write id).Keeps I where
  setState := hset
  writePositive := hpositive
  writeNegative := hnegative
  onStateChanged _ hw := h.perform _ hw
  handleSubnegotiation _ w hw := h.perform _ (hhandled w _ hw)

/-- Nothing that the application does of its own makes the property false: neither
what it does upon a request, nor what it does with data, is said to keep it. -/
structure Preserves (A : Application α κ)
    (write : Element → Outbox (Owned κ) Ω → Outbox (Owned κ) Ω)
    (I : Outbox (Owned κ) Ω → Prop) : Prop where
  option : ∀ id, (A.option write id).Keeps I
  onCommand : ∀ cmd {w}, I w → I (perform write (A.onCommand cmd) w)
  refuse : ∀ neg {w}, I w → I (write (.negotiation (refusal neg)) w)

variable {A} in
theorem Preserves.input_call (h : A.Preserves write I) (id : OptionId) (c : Call)
    {w : Outbox (Owned κ) Ω} (hw : I w) : I (A.input write (.call id c) w) := by
  rw [Application.input]
  split
  · exact (h.option id).call c hw
  · exact hw

variable {A} in
theorem Preserves.input (h : A.Preserves write I)
    (hrequest : ∀ i {w}, I w → I (perform write (A.request i) w)) (i : AppInput α)
    {w : Outbox (Owned κ) Ω} (hw : I w) : I (A.input write i w) := by
  cases i with
  | call id c => exact h.input_call id c hw
  | request i => exact hrequest i hw

variable {A} in
theorem Preserves.receive (h : A.Preserves write I) {elem : Element}
    (helem : ∀ data, elem ≠ .bytes data) {w : Outbox (Owned κ) Ω} (hw : I w) :
    I (A.receive write elem w) :=
  A.receive_cases write w elem hw (fun data hdata => absurd hdata (helem data))
    (fun cmd _ => h.onCommand cmd hw) (fun id _ neg _ _ => (h.option id).negotiate neg.request hw)
    (fun neg _ _ => h.refuse neg hw) fun id sub _ _ => (h.option id).subnegotiate sub.content hw

variable {A} in
theorem Preserves.receive_all (h : A.Preserves write I)
    (honByte : ∀ by_ {w}, I w → I (perform write (A.onByte by_) w)) (elem : Element)
    {w : Outbox (Owned κ) Ω} (hw : I w) : I (A.receive write elem w) := by
  by_cases hbytes : ∃ data, elem = .bytes data
  · obtain ⟨data, rfl⟩ := hbytes
    rw [receive_bytes]
    induction data generalizing w with
    | nil => exact hw
    | cons by_ data ih => exact ih (honByte by_ hw)
  · exact h.receive (fun data helem => hbytes ⟨data, helem⟩) hw

end Lasting

/-! ## The two kinds of end -/

def atoms : Process (AppInput α) Unit Atom Atom (Owned κ) where
  act i own :=
    let w := A.input Outbox.writeAtoms i ⟨own, []⟩
    (w.own, w.written)
  recv _ a own :=
    let w := A.receive Outbox.writeAtoms a.element ⟨own, []⟩
    (w.own, w.written)

/-- The parser of the session is kept beside what the application owns. -/
def bytes : Process (AppInput α) Unit Bytes Byte (Owned κ × Parser) where
  act i s :=
    let w := A.input Outbox.writeBytes i ⟨s.1, []⟩
    ((w.own, s.2), w.written)
  recv _ data s :=
    let r := ({ A.session Outbox.writeBytes with parser := s.2 } : Session _).asyncRead
      (A.callback Outbox.writeBytes) data ⟨s.1, []⟩
    ((r.2.own, r.1.parser), r.2.written)

theorem recvAll_append (as bs : List Atom) (own : Owned κ) :
    A.atoms.recvAll (as ++ bs) own =
      ((A.atoms.recvAll bs (A.atoms.recvAll as own).1).1,
        (A.atoms.recvAll as own).2 ++ (A.atoms.recvAll bs (A.atoms.recvAll as own).1).2) := by
  induction as generalizing own with
  | nil => rfl
  | cons a as ih => simp only [List.cons_append, Process.recvAll, ih, List.append_assoc]

theorem receive_atom (a : Atom) (own : Owned κ) (log : List Atom) :
    A.receive Outbox.writeAtoms a.element ⟨own, log⟩ =
      ⟨(A.atoms.recv () a own).1, log ++ (A.atoms.recv () a own).2⟩ := by
  have h := A.receive_mapWritten (Outbox.writeAtoms_append log) a.element ⟨own, []⟩
  rw [Outbox.mapWritten, List.append_nil] at h
  exact h

/-- An element comes to its atoms, one after another. -/
theorem receive_atoms (elem : Element) (own : Owned κ) (log : List Atom) :
    A.receive Outbox.writeAtoms elem ⟨own, log⟩ =
      ⟨(A.atoms.recvAll elem.atoms own).1, log ++ (A.atoms.recvAll elem.atoms own).2⟩ := by
  have htoken (helem : elem.atoms = [.token elem]) :
      A.receive Outbox.writeAtoms elem ⟨own, log⟩ =
        ⟨(A.atoms.recvAll elem.atoms own).1, log ++ (A.atoms.recvAll elem.atoms own).2⟩ := by
    rw [helem, Process.recvAll, Process.recvAll, List.append_nil]
    exact A.receive_atom (.token elem) own log
  cases elem with
  | bytes data =>
      clear htoken
      induction data generalizing own log with
      | nil => simp [receive_bytes, callback, Process.recvAll]
      | cons by_ data ih =>
          have hfirst : A.receive Outbox.writeAtoms (.bytes (by_ :: data)) ⟨own, log⟩ =
              A.receive Outbox.writeAtoms (.bytes data)
                (A.receive Outbox.writeAtoms (Atom.data by_).element ⟨own, log⟩) := rfl
          rw [hfirst, receive_atom, ih, List.append_assoc]
          rfl
  | _ => exact htoken rfl

theorem foldl_receive (elems : List Element) (own : Owned κ) (before : Bytes) :
    elems.foldl (fun w elem => A.receive Outbox.writeBytes elem w) ⟨own, before⟩ =
      ⟨(A.atoms.recvAll (elems.flatMap Element.atoms) own).1,
        before ++ (A.atoms.recvAll (elems.flatMap Element.atoms) own).2.flatMap
          Parser.atomWire⟩ := by
  induction elems generalizing own before with
  | nil => simp [Process.recvAll]
  | cons elem elems ih =>
      have hfirst := A.receive_mapWritten (Outbox.writeBytes_frame before) elem ⟨own, []⟩
      rw [A.receive_atoms, show Outbox.mapWritten (Outbox.frame before) ⟨own, []⟩ =
        ⟨own, before⟩ by simp [Outbox.mapWritten, Outbox.frame]] at hfirst
      rw [List.foldl_cons, hfirst, Outbox.mapWritten, ih, List.flatMap_cons, recvAll_append]
      simp [Outbox.frame]

/-- Over bytes the application does what it does over the atoms that its parser reads. -/
theorem bytes_recv (data : Bytes) (own : Owned κ) (p : Parser) :
    A.bytes.recv () data (own, p) =
      (((A.atoms.recvAll (p.reads data) own).1, p.after data),
        (A.atoms.recvAll (p.reads data) own).2.flatMap Parser.atomWire) := by
  have htoken (elem : Element) (w : Outbox (Owned κ) Byte) :
      ({ A.session Outbox.writeBytes with parser := p } : Session _).tokenHandler
        (A.callback Outbox.writeBytes) elem w = A.receive Outbox.writeBytes elem w := by
    cases elem <;> rfl
  have hfold := A.foldl_receive (p.feed data).2 own []
  simp only [bytes, Session.asyncRead, Session.calls, htoken, List.foldl_append, hfold,
    List.nil_append]
  rfl

/-- What is written over bytes is what is written over atoms. -/
theorem bytes_act (i : AppInput α) (own : Owned κ) (p : Parser) :
    A.bytes.act i (own, p) =
      (((A.atoms.act i own).1, p), (A.atoms.act i own).2.flatMap Parser.atomWire) := by
  have hinput := A.input_mapWritten (Outbox.writeBytes_frame []) i ⟨own, []⟩
  rw [show Outbox.mapWritten (Outbox.frame []) ⟨own, []⟩ = ⟨own, []⟩ from rfl] at hinput
  simp only [bytes, hinput]
  rfl

/-! ## What an application writes -/

theorem sendable_written {w : Outbox (Owned κ) Atom} (hw : ∀ a ∈ w.written, a.Sendable)
    {elem : Element} (helem : elem.WellFormed) :
    ∀ a ∈ (Outbox.writeAtoms elem w).written, a.Sendable :=
  List.forall_mem_append.mpr ⟨hw, helem.sendable⟩

theorem lasting_sendable : Lasting (κ := κ) Outbox.writeAtoms
    fun w => ∀ a ∈ w.written, a.Sendable :=
  ⟨fun _ _ _ hw => hw, fun m _ hw => sendable_written hw m.wellFormed⟩

theorem keeps_sendable (id : OptionId) :
    (A.option Outbox.writeAtoms id).Keeps fun w => ∀ a ∈ w.written, a.Sendable :=
  lasting_sendable.keeps A id (fun _ _ hw => hw)
    (fun _ hw => sendable_written hw (Endpoint.localPositive_wellFormed id.half id.code))
    (fun _ hw => sendable_written hw (Endpoint.localNegative_wellFormed id.half id.code))
    (fun _ _ hw => hw)

theorem preserves_sendable :
    A.Preserves Outbox.writeAtoms fun w => ∀ a ∈ w.written, a.Sendable where
  option := A.keeps_sendable
  onCommand cmd _ hw := lasting_sendable.perform (A.onCommand cmd) hw
  refuse neg _ hw := sendable_written hw (Endpoint.refusal_wellFormed neg)

theorem frames : Frames A.bytes A.atoms Parser.atomWire Parser.atomWire Atom.Sendable
    Atom.Sendable fun s' data own atoms => s'.1 = own ∧ s'.2.Continues data atoms where
  nil hreads := hreads.2.nil
  act := by
    rintro i ⟨own, p⟩ data _ atoms ⟨rfl, hcontinues⟩
    rw [bytes_act]
    exact ⟨rfl, rfl, hcontinues⟩
  recv := by
    rintro chunk ⟨own, p⟩ data _ atoms ⟨rfl, hcontinues⟩
    obtain ⟨later, rfl, hlater⟩ := hcontinues.feed
    refine ⟨_, later, rfl, ?_⟩
    rw [bytes_recv]
    exact ⟨rfl, rfl, hlater⟩
  send ha hreads := ⟨hreads.1, hreads.2.send ha⟩
  sent_act i _ := A.preserves_sendable.input
    (fun i _ hw => lasting_sendable.perform (A.request i) hw) i (List.forall_mem_nil _)
  sent_recv a _ := A.preserves_sendable.receive_all
    (fun by_ _ hw => lasting_sendable.perform (A.onByte by_) hw) a.element (List.forall_mem_nil _)

end Application

end Telnetpp
