import Telnetpp.Charset.Options
import Telnetpp.Negotiation.Handed

/-!
# A charset is selected only when it has been offered

A session with a CHARSET server whose application selects, of every list that is
advertised to it, one of the charsets or none. Whatever the other end is and does,
each selection that it is told of answers one of its offers, and no offer is
answered twice.
-/

namespace Telnetpp.Charset

open Foundation SessionNet

/-- The list that a content offers. -/
def offered : Bytes → Option (List Bytes)
  | first :: separator :: data =>
      if first = request ∧ runs separator data ≠ [] then some (runs separator data) else none
  | _ => none

/-- The charset of a selection that is sent. -/
def selection (a : Atom) : Option Bytes :=
  match contentOf option a with
  | some (first :: charset) => if first = accepted then some charset else none
  | _ => none

example (charset : Bytes) :
    selection (.token (.subnegotiation ⟨option, selectContent charset⟩)) = some charset := rfl

/-! ## The application -/

/-- What the signals have been called with, beside what the application keeps: each list that
has been advertised and what has been selected of it, and the charsets that
`on_charset_selected` has been called with. -/
structure Desk (σ : Type) where
  app : σ
  advertised : List (List Bytes × Option Bytes) := []
  selected : List Bytes := []

/-- An application with a CHARSET server. When a list is advertised it does something,
selects a charset or does not, and does something more; `rest` is all else that it does. -/
structure Attendant (α σ : Type) where
  rest : Application α σ
  before : List Bytes → Handler σ := fun _ _ app => (app, [])
  choose : List Bytes → (OptionId → InternalState) → σ → Option Bytes
  onCharsetSelected : Bytes → Handler σ := fun _ _ app => (app, [])
  after : List Bytes → Handler σ := fun _ _ app => (app, [])

/-- What the application keeps, and what has been written so far by the handler that is
running. -/
abbrev Handling (σ : Type) := Desk σ × List FreeElement

namespace Attendant

variable {α σ : Type} (a : Attendant α σ)

/-- A handler that is called by the one that is running. -/
def act (handler : Handler σ) (states : OptionId → InternalState) (w : Handling σ) :
    Handling σ :=
  let r := handler states w.1.app
  ({ w.1 with app := r.1 }, w.2 ++ r.2)

section Server

variable (states : OptionId → InternalState)

/-- The server in a handler, which is called only while it is active, with nothing
connected to `on_charsets_advertised`. -/
def unattended : Server (Handling σ) where
  state _ := .active
  setState _ := id
  write elem w :=
    match elem with
    | .subnegotiation sub => (w.1, w.2 ++ [.subnegotiation sub.option sub.content])
    | _ => w
  onStateChanged := id
  onCharsetsAdvertised _ := id
  onCharsetSelected charset w :=
    act (a.onCharsetSelected charset) states
      ({ w.1 with selected := w.1.selected ++ [charset] }, w.2)

def onCharsetsAdvertised (names : List Bytes) (w : Handling σ) : Handling σ :=
  let w₁ := act (a.before names) states w
  let choice := a.choose names states w₁.1.app
  let w₂ : Handling σ :=
    ({ w₁.1 with advertised := w₁.1.advertised ++ [(names, choice)] }, w₁.2)
  act (a.after names) states
    (match choice with
    | some charset => (a.unattended states).selectCharset charset w₂
    | none => w₂)

def server : Server (Handling σ) :=
  { a.unattended states with onCharsetsAdvertised := a.onCharsetsAdvertised states }

end Server

/-- A handler of the rest, which knows nothing of the lists. -/
def within (handler : Handler σ) : Handler (Desk σ) :=
  fun states desk => act handler states (desk, [])

/-- The server is installed if it is among the options of the rest, at whatever place. The
charsets of the other end are requested at will. -/
def application : Application (α ⊕ Unit) (Desk σ) where
  options := a.rest.options
  commands := a.rest.commands
  onByte by_ := within (a.rest.onByte by_)
  onCommand cmd := within (a.rest.onCommand cmd)
  onStateChanged id := within (a.rest.onStateChanged id)
  handleSubnegotiation id content :=
    if id = ⟨.server, option⟩ then fun states desk =>
      (a.server states).handleSubnegotiation content (desk, [])
    else within (a.rest.handleSubnegotiation id content)
  request
    | .inl i => within (a.rest.request i)
    | .inr () => fun states desk => (a.server states).requestCharsets (desk, [])

/-- What is selected is of the list, and nothing else that is written is a selection. -/
structure Attends : Prop where
  choose : ∀ {names states app charset}, a.choose names states app = some charset →
    charset ∈ names
  rest : a.rest.Sends selection (fun _ => []) fun _ => []
  before : ∀ names states app, FreeElement.seen selection (a.before names states app).2 = []
  onCharsetSelected : ∀ charset states app,
    FreeElement.seen selection (a.onCharsetSelected charset states app).2 = []
  after : ∀ names states app, FreeElement.seen selection (a.after names states app).2 = []

end Attendant

/-! ## One handler -/

theorem advertises_of_offered {content : Bytes} {names : List Bytes}
    (h : offered content = some names) : Advertises content [names] := by
  match content with
  | first :: separator :: data =>
      rw [offered, Option.ite_none_right_eq_some] at h
      obtain ⟨⟨rfl, hruns⟩, hnames⟩ := h
      exact Option.some.inj hnames ▸ advertises_request hruns

theorem handleSubnegotiation_eq {σ : Type*} (s : Server σ) (content : Bytes) (w : σ) :
    s.handleSubnegotiation content w =
      match offered content with
      | some names => s.onCharsetsAdvertised names w
      | none => w := by
  match content with
  | [] => rfl
  | [_] => rfl
  | first :: separator :: data =>
      simp only [Server.handleSubnegotiation, offered, Charsets.read_eq_runs]
      by_cases hfirst : first = request <;> by_cases hruns : runs separator data = [] <;>
        simp [hfirst, hruns]

/-- The lists advertised are those of the contents, each charset that has been selected is
of its list, and these charsets are what has been sent. -/
structure Desk.Answers {σ : Type} (desk : Desk σ) (contents sent : List Bytes) : Prop where
  advertised : desk.advertised.map Prod.fst = contents.filterMap offered
  member : ∀ entry ∈ desk.advertised, ∀ charset ∈ entry.2, charset ∈ entry.1
  selected : desk.selected = desk.advertised.filterMap Prod.snd
  sent : sent = desk.selected

namespace Attendant

variable {α σ : Type} {a : Attendant α σ}

section Handling

variable {states : OptionId → InternalState} {w : Handling σ} {contents before : List Bytes}

/-- What has been sent, `before` and in the handler that is running, answers the contents. -/
def Answering (contents before : List Bytes) (w : Handling σ) : Prop :=
  w.1.Answers contents (before ++ FreeElement.seen selection w.2)

theorem Answering.act {handler : Handler σ} (hw : Answering contents before w)
    (hhandler : FreeElement.seen selection (handler states w.1.app).2 = []) :
    Answering contents before (act handler states w) := by
  have hseen : FreeElement.seen selection (Attendant.act handler states w).2 =
      FreeElement.seen selection w.2 := by
    rw [Attendant.act, FreeElement.seen_append, hhandler, List.append_nil]
  rw [Answering, hseen]
  exact ⟨hw.advertised, hw.member, hw.selected, hw.sent⟩

variable (h : a.Attends)

include h

/-- A charset of the list that is selected is told and sent. -/
theorem Answering.select {content : Bytes} {names : List Bytes} {charset : Bytes}
    (hw : Answering contents before w) (hoffered : offered content = some names)
    (hmem : charset ∈ names) :
    Answering (contents ++ [content]) before
      ((a.unattended states).selectCharset charset
        ({ w.1 with advertised := w.1.advertised ++ [(names, some charset)] }, w.2)) := by
  let r := a.onCharsetSelected charset states w.1.app
  have hseen : FreeElement.seen selection
      (w.2 ++ r.2 ++ [.subnegotiation option (selectContent charset)]) =
        FreeElement.seen selection w.2 ++ [charset] := by
    rw [FreeElement.seen_append, FreeElement.seen_append, h.onCharsetSelected, List.append_nil]
    rfl
  refine ⟨?_, ?_, ?_, ?_⟩
  · change (w.1.advertised ++ [(names, some charset)]).map Prod.fst = _
    simp [hw.advertised, hoffered]
  · intro entry hentry
    rcases List.mem_append.mp hentry with hentry | hentry
    · exact hw.member entry hentry
    · obtain rfl := List.mem_singleton.mp hentry
      intro charset' hcharset'
      obtain rfl := Option.mem_some.mp hcharset'
      exact hmem
  · change w.1.selected ++ [charset] = (w.1.advertised ++ [(names, some charset)]).filterMap _
    simp [hw.selected]
  · change before ++ FreeElement.seen selection
      (w.2 ++ r.2 ++ [.subnegotiation option (selectContent charset)]) = w.1.selected ++ [charset]
    rw [hseen, ← List.append_assoc, hw.sent]

theorem Answering.handle (content : Bytes) (hw : Answering contents before w) :
    Answering (contents ++ [content]) before
      ((a.server states).handleSubnegotiation content w) := by
  rw [handleSubnegotiation_eq]
  cases hoffered : offered content with
  | none =>
      refine ⟨?_, hw.member, hw.selected, hw.sent⟩
      simp [hw.advertised, hoffered]
  | some names =>
      have hbefore := hw.act (h.before names states w.1.app)
      refine Answering.act ?_ (h.after names states _)
      cases hchoice : a.choose names states (Attendant.act (a.before names) states w).1.app with
      | some charset => exact hbefore.select h hoffered (h.choose hchoice)
      | none =>
          refine ⟨?_, ?_, ?_, hbefore.sent⟩
          · simp [hbefore.advertised, hoffered]
          · intro entry hentry
            rcases List.mem_append.mp hentry with hentry | hentry
            · exact hbefore.member entry hentry
            · obtain rfl := List.mem_singleton.mp hentry
              exact fun _ hcharset => absurd hcharset (Option.not_mem_none _)
          · simp [hbefore.selected]

end Handling

/-! ## One application -/

/-- What has been selected answers all that has been handed to the server. -/
def Answered (own : Owned (Desk σ)) : Prop :=
  own.app.Answers (own.handledBy ⟨.server, option⟩) (own.wrote.filterMap selection)

section Application

variable {w : Outbox (Owned (Desk σ)) Atom}

theorem answered_perform {handler : Handler (Desk σ)}
    (hw : Answering (w.own.handledBy ⟨.server, option⟩) (w.own.wrote.filterMap selection)
      (handler w.own.state w.own.app)) :
    Answered (Application.perform Outbox.writeAtoms handler w).own := by
  rw [Application.perform_writeAtoms, Answered, List.filterMap_append]
  exact hw

theorem Answered.answering {own : Owned (Desk σ)} (hown : Answered own) :
    Answering (own.handledBy ⟨.server, option⟩) (own.wrote.filterMap selection)
      (own.app, []) := by
  rw [Answering, FreeElement.seen, List.flatMap_nil, List.filterMap_nil, List.append_nil]
  exact hown

theorem Answered.within {handler : Handler σ} (hw : Answered w.own)
    (hhandler : FreeElement.seen selection (handler w.own.state w.own.app.app).2 = []) :
    Answered (Application.perform Outbox.writeAtoms (within handler) w).own :=
  answered_perform (hw.answering.act hhandler)

variable (h : a.Attends)

include h

theorem Answered.handle (id : OptionId) (content : Bytes) (hw : Answered w.own) :
    Answered ((a.application.option Outbox.writeAtoms id).handleSubnegotiation content w).own := by
  let w' : Outbox (Owned (Desk σ)) Atom :=
    { w with own.handled := w.own.handled ++ [(id, content)] }
  change Answered (Application.perform Outbox.writeAtoms
    (a.application.handleSubnegotiation id content) w').own
  by_cases hid : id = ⟨.server, option⟩
  · have hcontents : w'.own.handledBy ⟨.server, option⟩ =
        w.own.handledBy ⟨.server, option⟩ ++ [content] := by
      simp [w', Owned.handledBy, hid]
    have hhandler : a.application.handleSubnegotiation id content = fun states desk =>
        (a.server states).handleSubnegotiation content (desk, []) := if_pos hid
    apply answered_perform
    rw [hcontents, hhandler]
    exact hw.answering.handle h content
  · have hcontents : w'.own.handledBy ⟨.server, option⟩ = w.own.handledBy ⟨.server, option⟩ := by
      simp [w', Owned.handledBy, hid]
    have hw' : Answered w'.own := by
      rw [Answered, hcontents]
      exact hw
    have hhandler : a.application.handleSubnegotiation id content =
        Attendant.within (a.rest.handleSubnegotiation id content) := if_neg hid
    rw [hhandler]
    exact hw'.within (h.rest.handleSubnegotiation id content _ _)

theorem preserves_answered :
    a.application.Preserves Outbox.writeAtoms fun w => Answered w.own where
  option id := {
    setState := fun _ _ hw => hw
    writePositive := fun _ hw => hw
    writeNegative := fun _ hw => hw
    onStateChanged := fun _ hw => hw.within (h.rest.onStateChanged id _ _)
    handleSubnegotiation := fun content _ hw => hw.handle h id content }
  onCommand cmd _ hw := hw.within (h.rest.onCommand cmd _ _)
  refuse _ _ hw := hw

theorem answered_request (i : α ⊕ Unit) (hw : Answered w.own) :
    Answered (Application.perform Outbox.writeAtoms (a.application.request i) w).own := by
  cases i with
  | inl i => exact hw.within (h.rest.request i _ _)
  | inr =>
      have hasked : Answering (w.own.handledBy ⟨.server, option⟩)
          (w.own.wrote.filterMap selection)
          (w.own.app, [.subnegotiation option requestContent]) := by
        have hseen : FreeElement.seen selection [.subnegotiation option requestContent] = [] := rfl
        rw [Answering, hseen, List.append_nil]
        exact hw
      exact answered_perform hasked

theorem keeps_answered :
    (a.application.atoms.limit (AppInput.Within fun _ => True)).Keeps Answered (fun _ => True)
      fun _ => True :=
  (preserves_answered h).keeps_own (fun by_ _ hw => hw.within (h.rest.onByte by_ _ _))
    fun i _ _ hw => answered_request h i hw

end Application

end Attendant

theorem meets_true {α β : Type} (e : SessionEvent α β) :
    e.Meets (fun _ => True) (AppInput.Within fun _ => True) := by
  cases e with
  | actRight i => cases i <;> trivial
  | _ => trivial

/-- In every run of a session with such an application and any other one: the lists that
have been advertised are a part of those that the other end has offered, in order; the
charsets that have been selected of them are all that is signalled and sent, each once; and
what is selected has been offered by the other end. -/
theorem run_selects {α β κ σ : Type} (A : Application α κ) (x : κ) {a : Attendant β σ}
    (h : a.Attends) (y : σ) (es : List (SessionEvent α (β ⊕ Unit))) :
    let n := run (step A a.application) (start x { app := y }) es
    let desk := n.right.1.1.app
    let offers := (sees (contentOf option) n.left.2).filterMap offered
    (desk.advertised.map Prod.fst).Sublist offers ∧
      desk.selected = desk.advertised.filterMap Prod.snd ∧
      sees selection n.right.2 = desk.selected ∧
      ∀ charset ∈ sees selection n.right.2, ∃ content ∈ sees (contentOf option) n.left.2,
        ∃ names, Advertises content [names] ∧ charset ∈ names := by
  intro n desk offers
  have hanswered : Attendant.Answered n.right.1.1 :=
    (carries_run (keeps_true A fun _ => True) (Attendant.keeps_answered h) trivial
      ⟨rfl, List.forall_mem_nil _, rfl, rfl⟩ fun e _ => meets_true e).right
  have hsent : sees selection n.right.2 = desk.selected :=
    (sees_wrote_right A a.application (fun _ => rfl) x { app := y } es).trans hanswered.sent
  have hhands : (n.right.1.1.handledBy ⟨.server, option⟩).Sublist
      (sees (contentOf option) n.left.2) := (List.sublist_append_left _ _).trans
    (handsRight_run A a.application x { app := y } ⟨.server, option⟩ es)
  have hoffers : (desk.advertised.map Prod.fst).Sublist offers :=
    hanswered.advertised ▸ hhands.filterMap offered
  refine ⟨hoffers, hanswered.selected, hsent, fun charset hcharset => ?_⟩
  rw [hsent, hanswered.selected] at hcharset
  obtain ⟨entry, hentry, hchosen⟩ := List.mem_filterMap.mp hcharset
  obtain ⟨content, hcontent, hoffered⟩ :=
    List.mem_filterMap.mp (hoffers.subset (List.mem_map_of_mem hentry))
  exact ⟨content, hcontent, entry.1, advertises_of_offered hoffered,
    hanswered.member entry hentry charset hchosen⟩

/-! ## One that selects once -/

/-- A program that selects the first charset of a list that it knows, and having selected
one selects no other. -/
def once (known : List Bytes) : Attendant Unit (Option Bytes) where
  rest := { options := [⟨.server, option⟩, ⟨.server, 3⟩], request := fun _ _ app => (app, []) }
  choose names _ inUse := if inUse = none then names.find? (· ∈ known) else none
  onCharsetSelected charset _ _ := (some charset, [])

theorem attends_once (known : List Bytes) : (once known).Attends where
  choose h := List.mem_of_find?_eq_some (Option.ite_none_right_eq_some.mp h).2
  rest := ⟨fun _ => rfl, fun _ _ _ => rfl, fun _ _ _ => rfl, fun _ _ _ => rfl,
    fun _ _ _ _ => rfl, fun _ _ _ => rfl⟩
  before _ _ _ := rfl
  onCharsetSelected _ _ _ := rfl
  after _ _ _ := rfl

/-- A list is offered twice once the option is active. -/
def offeredTwice : List (SessionEvent FreeElement (Unit ⊕ Unit)) :=
  let offer : FreeElement := .subnegotiation option [request, 59, 65, 59, 66]
  [.actLeft (.call ⟨.client, option⟩ .activate), .deliverRight 3, .actLeft (.request offer),
    .actLeft (.request offer), .deliverRight 7, .deliverRight 13]

/-- Of equal lists something is selected once. -/
theorem run_selects_once :
    let n := run (step (Application.terminal [⟨.client, option⟩]) (once [[66]]).application)
      (start [] { app := none }) offeredTwice
    n.right.1.1.app.advertised = [([[65], [66]], some [66]), ([[65], [66]], none)] ∧
      sees selection n.right.2 = [[66]] :=
  have h := run_selects (Application.terminal [⟨.client, option⟩]) [] (attends_once [[66]]) none
    offeredTwice
  ⟨rfl, h.2.2.1.trans rfl⟩

end Telnetpp.Charset
