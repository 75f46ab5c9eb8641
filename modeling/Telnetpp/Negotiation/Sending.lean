import Telnetpp.Foundation.Conduit
import Telnetpp.Negotiation.Sessions

/-!
# What two sessions send

Of what an application writes only some is looked at: the contents of one code,
or the data. An application that writes it upon requests and in answer to data
alone has sent what its requests and the data it was handed come to. All data
that is sent is handed over once and in order, whatever else is sent with it.
-/

namespace Telnetpp

open Foundation

/-- The content of a subnegotiation of the code. -/
def contentOf (code : OptionType) : Atom → Option Bytes
  | .token (.subnegotiation sub) => if sub.option = code then some sub.content else none
  | _ => none

/-- A byte of data. -/
def dataOf : Atom → Option Byte
  | .data by_ => some by_
  | .token _ => none

/-- What is seen through `u` of the messages. -/
def FreeElement.seen {C : Type} (u : Atom → Option C) (ms : List FreeElement) : List C :=
  (ms.flatMap fun m => m.elem.atoms).filterMap u

theorem FreeElement.seen_append {C : Type} (u : Atom → Option C) (ms ms' : List FreeElement) :
    FreeElement.seen u (ms ++ ms') = FreeElement.seen u ms ++ FreeElement.seen u ms' := by
  rw [FreeElement.seen, List.flatMap_append, List.filterMap_append, FreeElement.seen,
    FreeElement.seen]

/-- What is answered to an atom, if only data is answered. -/
def Atom.answered {C : Type} (answer : Byte → List C) : Atom → List C
  | .data by_ => answer by_
  | .token (.bytes span) => span.flatMap answer
  | .token _ => []

theorem Atom.answered_nothing {C : Type} (a : Atom) :
    a.answered (fun _ => []) = ([] : List C) := by
  cases a with
  | data by_ => rfl
  | token elem =>
      cases elem with
      | bytes span => exact List.flatMap_eq_nil_iff.mpr fun _ _ => rfl
      | _ => rfl

/-- Requests are restricted to those that are allowed. -/
def AppInput.Within {α : Type} (Allowed : α → Prop) : AppInput α → Prop
  | .call _ _ => True
  | .request i => Allowed i

/-- What is sent upon an input, if only requests are answered. -/
def AppInput.sent {α C : Type} (sent : α → List C) : AppInput α → List C
  | .call _ _ => []
  | .request i => sent i

namespace Application

variable {α κ C : Type} {A : Application α κ}

/-- The application keeps all data that it is handed, and nothing else there. -/
structure Collects (A : Application α κ) (received : κ → Bytes) : Prop where
  onByte : ∀ by_ states app, received (A.onByte by_ states app).1 = received app ++ [by_]
  onCommand : ∀ cmd states app, received (A.onCommand cmd states app).1 = received app
  onStateChanged : ∀ id states app, received (A.onStateChanged id states app).1 = received app
  handleSubnegotiation : ∀ id content states app,
    received (A.handleSubnegotiation id content states app).1 = received app
  request : ∀ i states app, received (A.request i states app).1 = received app

/-- What is seen through `u` of what the application writes: `sent` upon a
request, `answer` to a byte of data, and nothing at any other time. -/
structure Sends (A : Application α κ) (u : Atom → Option C) (sent : α → List C)
    (answer : Byte → List C) : Prop where
  negotiation : ∀ neg, u (.token (.negotiation neg)) = none
  onByte : ∀ by_ states app, FreeElement.seen u (A.onByte by_ states app).2 = answer by_
  onCommand : ∀ cmd states app, FreeElement.seen u (A.onCommand cmd states app).2 = []
  onStateChanged : ∀ id states app, FreeElement.seen u (A.onStateChanged id states app).2 = []
  handleSubnegotiation : ∀ id content states app,
    FreeElement.seen u (A.handleSubnegotiation id content states app).2 = []
  request : ∀ i states app, FreeElement.seen u (A.request i states app).2 = sent i

/-- All that is seen through `u` of what the application writes is of one kind, as
long as its requests are allowed. -/
structure SendsOnly (A : Application α κ) (u : Atom → Option C) (P : C → Prop)
    (Allowed : α → Prop) : Prop where
  negotiation : ∀ neg, u (.token (.negotiation neg)) = none
  onByte : ∀ by_ states app, ∀ c ∈ FreeElement.seen u (A.onByte by_ states app).2, P c
  onCommand : ∀ cmd states app, ∀ c ∈ FreeElement.seen u (A.onCommand cmd states app).2, P c
  onStateChanged : ∀ id states app,
    ∀ c ∈ FreeElement.seen u (A.onStateChanged id states app).2, P c
  handleSubnegotiation : ∀ id content states app,
    ∀ c ∈ FreeElement.seen u (A.handleSubnegotiation id content states app).2, P c
  request : ∀ i, Allowed i → ∀ states app,
    ∀ c ∈ FreeElement.seen u (A.request i states app).2, P c

/-- But for requests, what the application keeps is changed by
`handle_subnegotiation` alone. -/
structure Records (A : Application α κ) (record : κ → OptionId × Bytes → κ) : Prop where
  onByte : ∀ by_ states app, (A.onByte by_ states app).1 = app
  onCommand : ∀ cmd states app, (A.onCommand cmd states app).1 = app
  onStateChanged : ∀ id states app, (A.onStateChanged id states app).1 = app
  handleSubnegotiation : ∀ id content states app,
    (A.handleSubnegotiation id content states app).1 = record app (id, content)

theorem perform_writeAtoms (handler : Handler κ) (w : Outbox (Owned κ) Atom) :
    perform Outbox.writeAtoms handler w =
      ⟨{ w.own with
          app := (handler w.own.state w.own.app).1
          wrote := w.own.wrote ++
            (handler w.own.state w.own.app).2.flatMap fun m => m.elem.atoms },
        w.written ++ (handler w.own.state w.own.app).2.flatMap fun m => m.elem.atoms⟩ := by
  have hfold (ms : List FreeElement) (w : Outbox (Owned κ) Atom) :
      ms.foldl (fun w m => Outbox.writeAtoms m.elem w) w =
        ⟨w.own, w.written ++ ms.flatMap fun m => m.elem.atoms⟩ := by
    induction ms generalizing w with
    | nil => simp
    | cons m ms ih => rw [List.foldl_cons, ih, List.flatMap_cons, Outbox.writeAtoms,
        List.append_assoc]
  exact hfold _ _

theorem filterMap_negotiation {u : Atom → Option C} {neg : Negotiation}
    (hu : u (.token (.negotiation neg)) = none) (w : Outbox (Owned κ) Atom) :
    (Outbox.writeAtoms (.negotiation neg) w).written.filterMap u = w.written.filterMap u := by
  have hunseen : (Element.negotiation neg).atoms.filterMap u = [] := List.filterMap_cons_none hu
  rw [Outbox.writeAtoms, List.filterMap_append, hunseen, List.append_nil]

section Wrote

variable {u : Atom → Option C} {before : List C} {w : Outbox (Owned κ) Atom}

/-- What has been seen through `u`, `before` and in this step, is what handlers have written. -/
def Accounted (u : Atom → Option C) (before : List C) (w : Outbox (Owned κ) Atom) : Prop :=
  before ++ w.written.filterMap u = w.own.wrote.filterMap u

theorem Accounted.perform (handler : Handler κ) (hw : Accounted u before w) :
    Accounted u before (perform Outbox.writeAtoms handler w) := by
  rw [perform_writeAtoms, Accounted, List.filterMap_append, List.filterMap_append,
    ← List.append_assoc]
  exact congrArg (· ++ _) hw

variable (hu : ∀ neg, u (.token (.negotiation neg)) = none)

include hu

theorem Accounted.negotiate (neg : Negotiation) (hw : Accounted u before w) :
    Accounted u before (Outbox.writeAtoms (.negotiation neg) w) := by
  rw [Accounted, filterMap_negotiation (hu neg)]
  exact hw

theorem preserves_accounted (before : List C) :
    A.Preserves Outbox.writeAtoms (Accounted u before) where
  option id := {
    setState := fun _ _ hw => hw
    writePositive := fun _ hw => hw.negotiate hu _
    writeNegative := fun _ hw => hw.negotiate hu _
    onStateChanged := fun _ hw => hw.perform _
    handleSubnegotiation := fun content w hw =>
      Accounted.perform (w := { w with own.handled := w.own.handled ++ [(id, content)] }) _ hw }
  onCommand _ _ hw := hw.perform _
  refuse _ _ hw := hw.negotiate hu _

/-- But for the negotiations, what the application has sent is what its handlers have written. -/
theorem keeps_accounted :
    A.atoms.logged.Keeps (fun s => s.2.filterMap u = s.1.wrote.filterMap u) Atom.Sendable
      Atom.Sendable where
  act i s hs := by
    have hwritten := (preserves_accounted (A := A) hu (s.2.filterMap u)).input (w := ⟨s.1, []⟩)
      (fun i _ hw => hw.perform (A.request i)) i ((List.append_nil _).trans hs)
    exact ⟨List.filterMap_append.trans hwritten, A.frames.sent_act i s.1⟩
  recv _ a _ s hs := by
    have hwritten := (preserves_accounted (A := A) hu (s.2.filterMap u)).receive_all
      (w := ⟨s.1, []⟩) (fun by_ _ hw => hw.perform (A.onByte by_)) a.element
      ((List.append_nil _).trans hs)
    exact ⟨List.filterMap_append.trans hwritten, A.frames.sent_recv a s.1⟩

end Wrote

/-- What is preserved of what the application keeps is kept. -/
theorem Preserves.keeps_own {I : Owned κ → Prop}
    (h : A.Preserves Outbox.writeAtoms fun w => I w.own)
    (honByte : ∀ by_ {w}, I w.own → I (perform Outbox.writeAtoms (A.onByte by_) w).own)
    {Allowed : α → Prop}
    (hrequest : ∀ i, Allowed i → ∀ {w}, I w.own →
      I (perform Outbox.writeAtoms (A.request i) w).own) :
    (A.atoms.limit (AppInput.Within Allowed)).Keeps I (fun _ => True) fun _ => True where
  act i own hown := by
    refine ⟨?_, fun _ _ => trivial⟩
    rcases i with ⟨id | i, hi⟩
    · exact h.input_call id _ hown
    · exact hrequest i hi (w := ⟨own, []⟩) hown
  recv _ a _ own hown :=
    ⟨h.receive_all (fun by_ _ hw => honByte by_ hw) a.element (w := ⟨own, []⟩) hown,
      fun _ _ => trivial⟩

section Collects

variable {received : κ → Bytes} {data : Bytes}

theorem received_perform {handler : Handler κ} {w : Outbox (Owned κ) Atom}
    (hhandler : received (handler w.own.state w.own.app).1 = received w.own.app)
    (hw : received w.own.app = data) :
    received (perform Outbox.writeAtoms handler w).own.app = data := by
  rw [perform_writeAtoms]
  exact hhandler.trans hw

variable (h : A.Collects received)

include h

theorem Collects.preserves (data : Bytes) :
    A.Preserves Outbox.writeAtoms fun w => received w.own.app = data where
  option id := {
    setState := fun _ _ hw => hw
    writePositive := fun _ hw => hw
    writeNegative := fun _ hw => hw
    onStateChanged := fun _ hw => received_perform (h.onStateChanged id _ _) hw
    handleSubnegotiation := fun c _ hw => received_perform (h.handleSubnegotiation id c _ _) hw }
  onCommand cmd _ hw := received_perform (h.onCommand cmd _ _) hw
  refuse _ _ hw := hw

theorem Collects.takes {I : Owned κ → Prop} :
    A.atoms.Takes dataOf (fun own => received own.app) I Atom.Sendable where
  act i own _ := (h.preserves (received own.app)).input (w := ⟨own, []⟩)
    (fun i _ hw => received_perform (h.request i _ _) hw) i rfl
  recv _ a ha own _ := by
    cases a with
    | data by_ =>
        change received (perform Outbox.writeAtoms (A.onByte by_) ⟨own, []⟩).own.app = _
        rw [perform_writeAtoms]
        exact h.onByte by_ _ _
    | token elem =>
        have helem := (h.preserves (received own.app)).receive ha.2 (w := ⟨own, []⟩) rfl
        exact helem.trans (List.append_nil _).symm

end Collects

section Records

variable {record : κ → OptionId × Bytes → κ} {x : κ}

/-- The application keeps the record of what has been handed over. -/
def Recorded (record : κ → OptionId × Bytes → κ) (x : κ) (own : Owned κ) : Prop :=
  own.app = own.handled.foldl record x

theorem recorded_perform {handler : Handler κ} {w : Outbox (Owned κ) Atom}
    (hhandler : (handler w.own.state w.own.app).1 = w.own.app) (hw : Recorded record x w.own) :
    Recorded record x (perform Outbox.writeAtoms handler w).own := by
  rw [perform_writeAtoms]
  exact hhandler.trans hw

variable (h : A.Records record)

include h

theorem Records.keeps_option (id : OptionId) :
    (A.option Outbox.writeAtoms id).Keeps fun w => Recorded record x w.own where
  setState _ _ hw := hw
  writePositive _ hw := hw
  writeNegative _ hw := hw
  onStateChanged _ hw := recorded_perform (h.onStateChanged id _ _) hw
  handleSubnegotiation content w hw := by
    simp only [option, perform_writeAtoms, Recorded, h.handleSubnegotiation, List.foldl_append]
    exact congrArg (fun app => record app (id, content)) hw

theorem Records.preserves :
    A.Preserves Outbox.writeAtoms fun w => Recorded record x w.own where
  option := h.keeps_option
  onCommand cmd _ hw := recorded_perform (h.onCommand cmd _ _) hw
  refuse _ _ hw := hw

theorem Records.keeps {Allowed : α → Prop}
    (hrequest : ∀ i, Allowed i → ∀ states app, (A.request i states app).1 = app) :
    (A.atoms.limit (AppInput.Within Allowed)).Keeps (Recorded record x) (fun _ => True)
      fun _ => True :=
  h.preserves.keeps_own (fun by_ _ hw => recorded_perform (h.onByte by_ _ _) hw)
    fun i hi _ hw => recorded_perform (hrequest i hi _ _) hw

end Records

section Sends

variable {u : Atom → Option C} {sent : α → List C} {answer : Byte → List C}
variable {handler : Handler κ} {w : Outbox (Owned κ) Atom} {cs : List C}

theorem seen_perform (hhandler : FreeElement.seen u (handler w.own.state w.own.app).2 = cs) :
    (perform Outbox.writeAtoms handler w).written.filterMap u = w.written.filterMap u ++ cs := by
  rw [perform_writeAtoms, List.filterMap_append]
  exact congrArg (_ ++ ·) hhandler

theorem seen_silent (hhandler : FreeElement.seen u (handler w.own.state w.own.app).2 = [])
    (hw : w.written.filterMap u = cs) :
    (perform Outbox.writeAtoms handler w).written.filterMap u = cs := by
  rw [seen_perform hhandler, hw, List.append_nil]

variable (h : A.Sends u sent answer)

include h

theorem Sends.negotiate (neg : Negotiation) (hw : w.written.filterMap u = cs) :
    (Outbox.writeAtoms (.negotiation neg) w).written.filterMap u = cs := by
  rw [filterMap_negotiation (h.negotiation neg), hw]

theorem Sends.preserves (cs : List C) :
    A.Preserves Outbox.writeAtoms fun w => w.written.filterMap u = cs where
  option id := {
    setState := fun _ _ hw => hw
    writePositive := fun _ hw => h.negotiate _ hw
    writeNegative := fun _ hw => h.negotiate _ hw
    onStateChanged := fun _ hw => seen_silent (h.onStateChanged id _ _) hw
    handleSubnegotiation := fun c _ hw => seen_silent (h.handleSubnegotiation id c _ _) hw }
  onCommand cmd _ hw := seen_silent (h.onCommand cmd _ _) hw
  refuse _ _ hw := h.negotiate _ hw

/-- What is seen of what is written upon an input. -/
theorem Sends.act (i : AppInput α) (own : Owned κ) :
    (A.atoms.act i own).2.filterMap u = i.sent sent := by
  cases i with
  | call id c =>
      exact (h.preserves []).input_call id c (w := ⟨own, []⟩) rfl
  | request i => exact seen_perform (h.request i _ _)

theorem Sends.callback (data : Bytes) (w : Outbox (Owned κ) Atom) :
    (A.callback Outbox.writeAtoms data w).written.filterMap u =
      w.written.filterMap u ++ data.flatMap answer := by
  induction data generalizing w with
  | nil => exact (List.append_nil _).symm
  | cons by_ data ih =>
      have hfirst := seen_perform (w := w) (h.onByte by_ _ _)
      rw [List.flatMap_cons, ← List.append_assoc, ← hfirst]
      exact ih _

/-- What is seen of what is written in answer to an atom. -/
theorem Sends.recv (a : Atom) (own : Owned κ) :
    (A.atoms.recv () a own).2.filterMap u = a.answered answer := by
  cases a with
  | data by_ => exact (h.callback [by_] ⟨own, []⟩).trans (List.append_nil _)
  | token elem =>
      cases elem with
      | bytes data => exact h.callback data ⟨own, []⟩
      | _ => exact (h.preserves []).receive (w := ⟨own, []⟩) (by simp [Atom.element]) rfl

theorem Sends.recvAll (as : List Atom) (own : Owned κ) :
    (A.atoms.recvAll as own).2.filterMap u = as.flatMap (Atom.answered answer) := by
  induction as generalizing own with
  | nil => rfl
  | cons a as ih =>
      rw [Process.recvAll, List.filterMap_append, ih, h.recv, List.flatMap_cons]

end Sends

theorem Sends.only {u : Atom → Option C} {sent : α → List C} {P : C → Prop} {Allowed : α → Prop}
    (h : A.Sends u sent fun _ => [])
    (hsent : ∀ i, Allowed i → ∀ c ∈ sent i, P c) : A.SendsOnly u P Allowed where
  negotiation := h.negotiation
  onByte by_ states app := by
    rw [h.onByte]
    exact List.forall_mem_nil P
  onCommand cmd states app := by
    rw [h.onCommand]
    exact List.forall_mem_nil P
  onStateChanged id states app := by
    rw [h.onStateChanged]
    exact List.forall_mem_nil P
  handleSubnegotiation id content states app := by
    rw [h.handleSubnegotiation]
    exact List.forall_mem_nil P
  request i hi states app := by
    rw [h.request]
    exact hsent i hi

section SendsOnly

variable {u : Atom → Option C} {P : C → Prop} {Allowed : α → Prop}

/-- What is seen through `u` of the atoms is of one kind. -/
def AllOf (u : Atom → Option C) (P : C → Prop) (atoms : List Atom) : Prop :=
  ∀ c ∈ atoms.filterMap u, P c

theorem allOf_perform {handler : Handler κ} {w : Outbox (Owned κ) Atom}
    (hhandler : ∀ c ∈ FreeElement.seen u (handler w.own.state w.own.app).2, P c)
    (hw : AllOf u P w.written) : AllOf u P (perform Outbox.writeAtoms handler w).written := by
  rw [perform_writeAtoms, AllOf, List.filterMap_append]
  exact List.forall_mem_append.mpr ⟨hw, hhandler⟩

variable (h : A.SendsOnly u P Allowed)

include h

theorem SendsOnly.negotiate (neg : Negotiation) {w : Outbox (Owned κ) Atom}
    (hw : AllOf u P w.written) :
    AllOf u P (Outbox.writeAtoms (.negotiation neg) w).written := by
  rw [AllOf, filterMap_negotiation (h.negotiation neg)]
  exact hw

theorem SendsOnly.preserves : A.Preserves Outbox.writeAtoms fun w => AllOf u P w.written where
  option id := {
    setState := fun _ _ hw => hw
    writePositive := fun _ hw => h.negotiate _ hw
    writeNegative := fun _ hw => h.negotiate _ hw
    onStateChanged := fun _ hw => allOf_perform (h.onStateChanged id _ _) hw
    handleSubnegotiation := fun c _ hw => allOf_perform (h.handleSubnegotiation id c _ _) hw }
  onCommand cmd _ hw := allOf_perform (h.onCommand cmd _ _) hw
  refuse _ _ hw := h.negotiate _ hw

theorem SendsOnly.act {i : AppInput α} (hi : i.Within Allowed) (own : Owned κ) :
    AllOf u P (A.atoms.act i own).2 := by
  have hnil : AllOf u P [] := List.forall_mem_nil _
  cases i with
  | call id c => exact h.preserves.input_call id c hnil
  | request i => exact allOf_perform (h.request i hi _ _) hnil

theorem SendsOnly.recv (a : Atom) (own : Owned κ) : AllOf u P (A.atoms.recv () a own).2 :=
  h.preserves.receive_all (fun by_ _ hw => allOf_perform (h.onByte by_ _ _) hw) a.element
    (List.forall_mem_nil _)

end SendsOnly

end Application

/-! ## The streams of two sessions -/

namespace SessionNet

variable {α β κ κ' C : Type}

/-- What is seen through `u` of a stream that a fresh parser reads. -/
def sees (u : Atom → Option C) (data : Bytes) : List C := (({} : Parser).reads data).filterMap u

/-- What the left application sends in an event, if it answers nothing. -/
def sentLeft (sent : α → List C) : SessionEvent α β → List C
  | .actLeft i => i.sent sent
  | _ => []

def sentRight (sent : β → List C) : SessionEvent α β → List C
  | .actRight i => i.sent sent
  | _ => []

theorem sees_append {u : Atom → Option C} {log : Bytes} {before atoms : List Atom}
    (hlog : log = before.flatMap Parser.atomWire) (hbefore : ∀ a ∈ before, a.Sendable)
    (hatoms : ∀ a ∈ atoms, a.Sendable) :
    sees u (log ++ atoms.flatMap Parser.atomWire) = sees u log ++ atoms.filterMap u := by
  rw [sees, sees, hlog, ← List.flatMap_append,
    Parser.reads_flatMap (List.forall_mem_append.mpr ⟨hbefore, hatoms⟩),
    Parser.reads_flatMap hbefore, List.filterMap_append]

variable {A : Application α κ} {u : Atom → Option C} {sent : α → List C}

theorem sees_step (h : A.Sends u sent fun _ => []) (B : Application β κ') {n : SessionNet κ κ'}
    {m : Atoms κ κ'} (hreads : n.Reads m) (e : SessionEvent α β) :
    sees u (step A B n e).left.2 = sees u n.left.2 ++ sentLeft sent e := by
  obtain ⟨⟨⟨hown, hcontinues⟩, hsent, hsendable⟩, -⟩ := hreads
  rcases n with ⟨⟨⟨own, p⟩, log⟩, r, toLeft, toRight⟩
  cases e with
  | actRight i => exact (List.append_nil _).symm
  | deliverRight k => exact (List.append_nil _).symm
  | actLeft i =>
      change sees u (log ++ (A.bytes.act i (own, p)).2) = _
      rw [A.bytes_act, sees_append hsent hsendable (A.frames.sent_act i own), h.act]
      rfl
  | deliverLeft k =>
      let as := p.reads (toLeft.take k)
      have hnothing : (A.atoms.recvAll as own).2.filterMap u = [] := by
        rw [h.recvAll, List.flatMap_eq_nil_iff]
        exact fun a _ => a.answered_nothing
      change sees u (log ++ (A.bytes.recv () (toLeft.take k) (own, p)).2) = _
      rw [A.bytes_recv, sees_append hsent hsendable (A.frames.sent_recvAll as own), hnothing]
      rfl

/-- An application that answers nothing has sent what its requests come to. -/
theorem sees_run (h : A.Sends u sent fun _ => []) (B : Application β κ') {n : SessionNet κ κ'}
    {m : Atoms κ κ'} (hreads : n.Reads m) (es : List (SessionEvent α β)) :
    sees u (run (step A B) n es).left.2 = sees u n.left.2 ++ es.flatMap (sentLeft sent) := by
  induction es generalizing n m with
  | nil => exact (List.append_nil _).symm
  | cons e es ih =>
      obtain ⟨es', hnext⟩ := reads_run (A := A) (B := B) hreads [e]
      rw [run_cons, run_nil] at hnext
      rw [run_cons, ih hnext, sees_step h B hreads, List.flatMap_cons, List.append_assoc]

/-! ## What every run keeps -/

/-- What holds of either end, and of all atoms that are on their way to it. -/
structure Carries (I : Owned κ → Prop) (J : Owned κ' → Prop) (QA QB : Atom → Prop)
    (n : SessionNet κ κ') : Prop where
  left : I n.left.1.1
  right : J n.right.1.1
  toLeft : ∀ a ∈ n.left.1.2.reads n.toLeft, QA a
  toRight : ∀ a ∈ n.right.1.2.reads n.toRight, QB a

section Carries

variable {A : Application α κ} {B : Application β κ'} {L : AppInput α → Prop}
variable {R : AppInput β → Prop} {I : Owned κ → Prop} {J : Owned κ' → Prop}
variable {QA QB : Atom → Prop}

/-- What each application keeps as long as the other does holds throughout. -/
theorem Carries.run_keeps {n : SessionNet κ κ'} {m : Atoms κ κ'} (h : n.Carries I J QA QB)
    (hreads : n.Reads m) (hA : (A.atoms.limit L).Keeps I QA QB)
    (hB : (B.atoms.limit R).Keeps J QB QA) {es : List (SessionEvent α β)}
    (hes : ∀ e ∈ es, e.Meets L R) : (run (step A B) n es).Carries I J QA QB := by
  obtain ⟨es, rfl⟩ := NetEvent.exists_widen hes
  have hatoms : Net.Carries (fun s => I s.1) (fun s => J s.1) QA QB m := by
    obtain ⟨⟨⟨hleft, htoLeft⟩, -⟩, ⟨hright, htoRight⟩, -⟩ := hreads
    exact ⟨hleft ▸ h.left, hright ▸ h.right, htoLeft.reads ▸ h.toLeft, htoRight.reads ▸ h.toRight⟩
  obtain ⟨es', hreads'⟩ := framed_run A.frames.logged.limit B.frames.logged.limit hreads es
  rw [← Net.run_streamStep_widen] at hreads'
  have hrun := hatoms.throughout hA.beside hB.beside es'
  obtain ⟨⟨⟨hleft, htoLeft⟩, -⟩, ⟨hright, htoRight⟩, -⟩ := hreads'
  exact ⟨hleft ▸ hrun.left, hright ▸ hrun.right, htoLeft.reads ▸ hrun.toLeft,
    htoRight.reads ▸ hrun.toRight⟩

theorem carries_run (hA : (A.atoms.limit L).Keeps I QA QB) (hB : (B.atoms.limit R).Keeps J QB QA)
    {x : κ} {y : κ'} (hI : I { app := x }) (hJ : J { app := y }) {es : List (SessionEvent α β)}
    (hes : ∀ e ∈ es, e.Meets L R) :
    (run (step A B) (start x y) es).Carries I J QA QB :=
  Carries.run_keeps ⟨hI, hJ, List.forall_mem_nil _, List.forall_mem_nil _⟩ (reads_start x y) hA hB
    hes

end Carries

/-- An application that is asked nothing of. -/
theorem keeps_true (B : Application β κ') (R : AppInput β → Prop) :
    (B.atoms.limit R).Keeps (fun _ => True) (fun _ => True) fun _ => True :=
  ⟨fun _ _ _ => ⟨trivial, fun _ _ => trivial⟩, fun _ _ _ _ _ => ⟨trivial, fun _ _ => trivial⟩⟩

/-- What the right application keeps is the record of what has been handed to it. -/
theorem recorded_right (A : Application α κ) {B : Application β κ'}
    {record : κ' → OptionId × Bytes → κ'} (h : B.Records record) {Allowed : β → Prop}
    (hrequest : ∀ i, Allowed i → ∀ states app, (B.request i states app).1 = app) (x : κ) (y : κ')
    {es : List (SessionEvent α β)}
    (hes : ∀ e ∈ es, e.Meets (fun _ => True) (AppInput.Within Allowed)) :
    Application.Recorded record y (run (step A B) (start x y) es).right.1.1 :=
  (carries_run (keeps_true A fun _ => True) (h.keeps hrequest) trivial rfl hes).right

/-- What is seen of the left end is what its handlers have written. -/
theorem sees_wrote (A : Application α κ) (B : Application β κ') {u : Atom → Option C}
    (hu : ∀ neg, u (.token (.negotiation neg)) = none) (x : κ) (y : κ')
    (es : List (SessionEvent α β)) :
    let n := run (step A B) (start x y) es
    sees u n.left.2 = n.left.1.1.wrote.filterMap u := by
  intro n
  obtain ⟨es', ⟨⟨hleft, -⟩, hsent, hsendable⟩, -⟩ :=
    reads_run (A := A) (B := B) (reads_start x y) es
  have hstart : Net.Carries (fun s => s.2.filterMap u = s.1.wrote.filterMap u)
      (fun s => B.Absent s.1) Atom.Sendable Atom.Sendable (Atoms.start x y) :=
    ⟨rfl, fun _ _ => rfl, List.forall_mem_nil _, List.forall_mem_nil _⟩
  have hwrote := hstart.throughout (A.keeps_accounted hu) B.keeps_absent.beside es'
  rw [sees, hsent, Parser.reads_flatMap hsendable, hleft]
  exact hwrote.left

/-! ## The other end -/

theorem Reads.swap {n : SessionNet κ κ'} {m : Atoms κ κ'} (h : n.Reads m) :
    Reads (Net.swap n) (Net.swap m) := ⟨h.2, h.1⟩

theorem step_swap (A : Application α κ) (B : Application β κ') (n : SessionNet κ κ')
    (e : SessionEvent α β) : step B A (Net.swap n) e.swap = Net.swap (step A B n e) := by
  cases e <;> rfl

theorem run_swap (A : Application α κ) (B : Application β κ') (n : SessionNet κ κ')
    (es : List (SessionEvent α β)) :
    run (step B A) (Net.swap n) (es.map NetEvent.swap) = Net.swap (run (step A B) n es) := by
  induction es generalizing n with
  | nil => rfl
  | cons e es ih => rw [List.map_cons, run_cons, step_swap, ih, run_cons]

theorem sentLeft_swap (sent : β → List C) (e : SessionEvent α β) :
    sentLeft sent e.swap = sentRight sent e := by
  cases e <;> rfl

theorem sees_wrote_right (A : Application α κ) (B : Application β κ') {u : Atom → Option C}
    (hu : ∀ neg, u (.token (.negotiation neg)) = none) (x : κ) (y : κ')
    (es : List (SessionEvent α β)) :
    let n := run (step A B) (start x y) es
    sees u n.right.2 = n.right.1.1.wrote.filterMap u := by
  have hswap := sees_wrote B A hu y x (es.map NetEvent.swap)
  have hrun : run (step B A) (start y x) (es.map NetEvent.swap) =
      Net.swap (run (step A B) (start x y) es) := run_swap A B (start x y) es
  rwa [hrun] at hswap

/-! ## Data -/

section Data

variable (A : Application α κ) {B : Application β κ'} {received : κ' → Bytes}
variable (h : B.Collects received) (x : κ) (y : κ')

include h

/-- Over atoms, the data received and the data on its way are the data sent. -/
theorem received_right (es : List (NetEvent (AppInput α) Unit (AppInput β) Unit)) :
    let m := run (Atoms.step A B) (Atoms.start x y) es
    received m.right.1.app ++ m.toRight.filterMap dataOf =
      received y ++ m.left.2.filterMap dataOf := by
  intro m
  obtain ⟨during, hsent, htaken⟩ := Net.Carries.conveyed_run A.keeps_absent
    B.keeps_absent.beside h.takes.logged (sound_start (A := A) (B := B) x y) es
  have hduring : during = m.left.2.filterMap dataOf := hsent.symm
  rw [hduring] at htaken
  exact htaken.trans (congrArg (· ++ _) (List.append_nil (received y)))

theorem received_left (es : List (NetEvent (AppInput β) Unit (AppInput α) Unit)) :
    let m := run (Atoms.step B A) (Atoms.start y x) es
    received m.left.1.app ++ m.toLeft.filterMap dataOf =
      received y ++ m.right.2.filterMap dataOf := by
  intro m
  have hright := received_right A h x y (es.map NetEvent.swap)
  have hswap : run (Atoms.step A B) (Atoms.start x y) (es.map NetEvent.swap) = Net.swap m :=
    Net.run_swap (Atoms.start y x) es
  rw [hswap] at hright
  exact hright

/-- In every run of two applications, cut and interleaved in any way: the data that the
right one has been handed, and then the data on its way to it, are the data on the wire of
the left one, which its handlers have written; and if it writes data upon requests alone,
they are what its requests have come to. -/
theorem run_hears (es : List (SessionEvent α β)) :
    let n := run (step A B) (start x y) es
    received n.right.1.1.app ++ (n.right.1.2.reads n.toRight).filterMap dataOf =
        received y ++ sees dataOf n.left.2 ∧
      sees dataOf n.left.2 = n.left.1.1.wrote.filterMap dataOf ∧
      ∀ sent, A.Sends dataOf sent (fun _ => []) →
        sees dataOf n.left.2 = es.flatMap (sentLeft sent) := by
  intro n
  refine ⟨?_, sees_wrote A B (fun _ => rfl) x y es,
    fun sent hsends => sees_run hsends B (reads_start x y) es⟩
  obtain ⟨es', hreads⟩ := reads_run (A := A) (B := B) (reads_start x y) es
  have hreceived := received_right A h x y es'
  obtain ⟨⟨-, hsent, hsendable⟩, ⟨hright, htoRight⟩, -⟩ := hreads
  rw [hright, htoRight.reads, sees, hsent, Parser.reads_flatMap hsendable]
  exact hreceived

end Data

theorem collects_terminal (options : List OptionId) :
    (Application.terminal options).Collects id where
  onByte _ _ _ := rfl
  onCommand _ _ _ := rfl
  onStateChanged _ _ _ := rfl
  handleSubnegotiation _ _ _ _ := rfl
  request _ _ _ := rfl

theorem sends_terminal (options : List OptionId) :
    (Application.terminal options).Sends dataOf (fun m => FreeElement.seen dataOf [m])
      fun _ => [] where
  negotiation _ := rfl
  onByte _ _ _ := rfl
  onCommand _ _ _ := rfl
  onStateChanged _ _ _ := rfl
  handleSubnegotiation _ _ _ _ := rfl
  request _ _ _ := rfl

/-- Data around a subnegotiation of an option that is being activated, with a delivery cut
between the two bytes that stand for 255. -/
def cutData : List (SessionEvent FreeElement FreeElement) :=
  [.actLeft (.call ⟨.client, 24⟩ .activate), .actLeft (.request (.text [104, 255])),
    .actLeft (.request (.subnegotiation 24 [255])), .actLeft (.request (.text [105])),
    .deliverRight 5, .deliverLeft 100, .deliverRight 3]

theorem run_hears_terminal :
    let A := Application.terminal [⟨.client, 24⟩]
    let B := Application.terminal [⟨.server, 24⟩]
    let n := run (step A B) (start [] []) cutData
    n.right.1.1.app ++ (n.right.1.2.reads n.toRight).filterMap dataOf = [104, 255, 105] :=
  have h := run_hears (Application.terminal [⟨.client, 24⟩]) (collects_terminal [⟨.server, 24⟩])
    [] [] cutData
  h.1.trans (h.2.2 _ (sends_terminal [⟨.client, 24⟩]))

end SessionNet

end Telnetpp
