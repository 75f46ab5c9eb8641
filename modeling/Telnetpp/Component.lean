import Telnetpp.Negotiation.Contents

/-!
# An option among others

An option whose handlers write nothing but contents of its own code can be part
of any application. Seen through the option, whatever else the session does is
nothing, and what it does for the option is what the option does by itself.
-/

namespace Telnetpp

open Foundation

/-! ## An option that does as another does -/

/-- A map of worlds under which one option does as the other. Of the elements that they
write, only the negotiations of the option itself are compared. -/
structure TelnetOption.Follows {traits : OptionTraits} {σ τ : Type*} (opt : TelnetOption traits σ)
    (opt' : TelnetOption traits τ) (f : σ → τ) : Prop where
  state : ∀ w, opt'.state (f w) = opt.state w
  setState : ∀ st w, f (opt.setState st w) = opt'.setState st (f w)
  writePositive : ∀ w, f (opt.writeNegotiation traits.localPositive w) =
    opt'.writeNegotiation traits.localPositive (f w)
  writeNegative : ∀ w, f (opt.writeNegotiation traits.localNegative w) =
    opt'.writeNegotiation traits.localNegative (f w)
  onStateChanged : ∀ w, f (opt.onStateChanged w) = opt'.onStateChanged (f w)
  handleSubnegotiation : ∀ content w,
    f (opt.handleSubnegotiation content w) = opt'.handleSubnegotiation content (f w)

namespace TelnetOption.Follows

variable {traits : OptionTraits} {σ τ : Type*} {opt : TelnetOption traits σ}
  {opt' : TelnetOption traits τ} {f : σ → τ}

theorem call (h : opt.Follows opt' f) (c : Call) (w : σ) :
    f (opt.call c w) = opt'.call c (f w) := by
  cases c <;> cases hs : opt.state w <;>
    simp only [TelnetOption.call, TelnetOption.activate, TelnetOption.deactivate, h.state, hs,
      h.setState, h.writePositive, h.writeNegative, h.onStateChanged]

theorem negotiate (h : opt.Follows opt' f) (neg : NegotiationType) (w : σ) :
    f (opt.negotiate neg w) = opt'.negotiate neg (f w) := by
  cases hs : opt.state w <;> by_cases hneg : neg = traits.remotePositive <;>
    simp only [TelnetOption.negotiate, h.state, hs, hneg, if_true, if_false, h.setState,
      h.writePositive, h.writeNegative, h.onStateChanged]

theorem subnegotiate (h : opt.Follows opt' f) (content : Bytes) (w : σ) :
    f (opt.subnegotiate content w) = opt'.subnegotiate content (f w) := by
  by_cases hs : opt.state w = .active <;>
    simp only [TelnetOption.subnegotiate, h.state, hs, if_true, if_false, h.handleSubnegotiation]

end TelnetOption.Follows

/-! ## What an option hears -/

/-- The negotiations that the option owns, and the subnegotiations of its code. -/
def OptionId.heard (id : OptionId) : Atom → Option Element
  | .token (.negotiation neg) => if id.Owns neg then some (.negotiation neg) else none
  | .token (.subnegotiation sub) =>
      if sub.option = id.code then some (.subnegotiation sub) else none
  | _ => none

namespace OptionId

variable (id : OptionId)

variable {id} in
theorem heard_eq_some {a : Atom} {elem : Element} (h : id.heard a = some elem) :
    a = .token elem ∧ ((∃ neg, elem = .negotiation neg ∧ id.Owns neg) ∨
      ∃ content, elem = .subnegotiation ⟨id.code, content⟩) := by
  unfold heard at h
  split at h
  · next neg =>
      obtain ⟨howns, ⟨⟩⟩ := Option.ite_none_right_eq_some.mp h
      exact ⟨rfl, Or.inl ⟨neg, rfl, howns⟩⟩
  · next sub =>
      obtain ⟨hcode, ⟨⟩⟩ := Option.ite_none_right_eq_some.mp h
      exact ⟨rfl, Or.inr ⟨sub.content, by rw [← hcode]⟩⟩
  · exact absurd h (Option.some_ne_none elem).symm

theorem heard_written {neg : Negotiation} (h : id.Writes (.negotiation neg)) :
    id.peer.heard (.token (.negotiation neg)) = some (.negotiation neg) :=
  if_pos ((id.writes_iff neg).mp h)

theorem filterMap_heard_negotiation {neg : Negotiation} (h : ¬ id.Writes (.negotiation neg)) :
    (Element.negotiation neg).atoms.filterMap id.peer.heard = [] :=
  List.filterMap_cons_none (if_neg fun howns => h ((id.writes_iff neg).mpr howns))

/-- Of what a handler writes, the contents of the code are heard. -/
theorem filterMap_heard_messages (ms : List FreeElement) :
    (ms.flatMap fun m => m.elem.atoms).filterMap id.heard =
      (FreeElement.seen (contentOf id.code) ms).map fun content =>
        .subnegotiation ⟨id.code, content⟩ := by
  have hmessage (m : FreeElement) : m.elem.atoms.filterMap id.heard =
      (m.elem.atoms.filterMap (contentOf id.code)).map fun content =>
        .subnegotiation ⟨id.code, content⟩ := by
    rcases m with ⟨elem, hwf, hneg⟩
    cases elem with
    | bytes data => simp [heard, contentOf, Function.comp_def]
    | command cmd => rfl
    | negotiation neg => exact absurd rfl (hneg neg)
    | subnegotiation sub =>
        rcases sub with ⟨code, content⟩
        by_cases hcode : code = id.code
        · simp [Element.atoms, heard, contentOf, hcode]
        · simp [Element.atoms, heard, contentOf, hcode]
  induction ms with
  | nil => rfl
  | cons m ms ih =>
      rw [List.flatMap_cons, List.filterMap_append, ih, hmessage, FreeElement.seen,
        FreeElement.seen, List.flatMap_cons, List.filterMap_append, List.map_append]

end OptionId

/-! ## Components -/

/-- What a handler makes of the state of its option and of what is kept for it, and the
contents that it writes. -/
abbrev Part (σ : Type) := InternalState → σ → σ × List Bytes

def Part.idle {σ : Type} : Part σ := fun _ kept => (kept, [])

/-- An option and its program, whose requests are `ι`. -/
structure Component (ι σ : Type) where
  id : OptionId
  onStateChanged : Part σ := Part.idle
  handleSubnegotiation : Bytes → Part σ := fun _ => Part.idle
  request : ι → Part σ

namespace Component

variable {ι ι' σ τ κ Ω : Type} (C : Component ι σ)

/-- What is kept and written by then, and the outcome of a handler. -/
def outcome (own : InternalState → σ → τ) (st : InternalState) (written : List Element)
    (r : σ × List Bytes) : Outbox τ Element :=
  ⟨own st r.1, written ++ r.2.map fun content => .subnegotiation ⟨C.id.code, content⟩⟩

/-- The party is the component by itself, with its state and what is kept for it in one. -/
structure Alone (P : Party ι' C.id.half.traits τ Element) (own : InternalState → σ → τ) :
    Prop where
  optionCode : P.option.optionCode = C.id.code
  write : P.option.write = Outbox.writeElement
  state : ∀ st kept written, P.option.state ⟨own st kept, written⟩ = st
  setState : ∀ st' st kept written,
    P.option.setState st' ⟨own st kept, written⟩ = ⟨own st' kept, written⟩
  onStateChanged : ∀ st kept written, P.option.onStateChanged ⟨own st kept, written⟩ =
    C.outcome own st written (C.onStateChanged st kept)
  handleSubnegotiation : ∀ content st kept written,
    P.option.handleSubnegotiation content ⟨own st kept, written⟩ =
      C.outcome own st written (C.handleSubnegotiation content st kept)
  call : ∀ c, ∃ i, P.input i = P.option.call c
  request : ∀ j, ∃ i, ∀ st kept,
    P.input i ⟨own st kept, []⟩ = C.outcome own st [] (C.request j st kept)

/-- The handler does for the component what `p` does, whatever else it does. -/
def Serves (part : κ → σ) (handler : Handler κ) (p : Part σ) : Prop :=
  ∀ states app, (part (handler states app).1,
    FreeElement.seen (contentOf C.id.code) (handler states app).2) = p (states C.id) (part app)

/-- What is seen of an application through the component. -/
def view (own : InternalState → σ → τ) (part : κ → σ) (w : Outbox (Owned κ) Atom) :
    Outbox τ Element :=
  ⟨own (w.own.state C.id) (part w.own.app), w.written.filterMap C.id.peer.heard⟩

end Component

/-- The component is a part of the application, with no other option of its code. -/
structure Application.Hosts {α κ ι σ : Type} (A : Application α κ) (C : Component ι σ)
    (part : κ → σ) : Prop where
  installed : C.id ∈ A.options
  unique : ∀ id ∈ A.options, id.code = C.id.code → id = C.id
  onByte : ∀ by_, C.Serves part (A.onByte by_) Part.idle
  onCommand : ∀ cmd, C.Serves part (A.onCommand cmd) Part.idle
  onStateChanged : ∀ id, C.Serves part (A.onStateChanged id)
    (if id = C.id then C.onStateChanged else Part.idle)
  handleSubnegotiation : ∀ id content, C.Serves part (A.handleSubnegotiation id content)
    (if id = C.id then C.handleSubnegotiation content else Part.idle)
  request : ∀ i, C.Serves part (A.request i) Part.idle ∨
    ∃ j, C.Serves part (A.request i) (C.request j)

/-! ## What is seen through a component -/

namespace Component

variable {ι ι' σ τ κ : Type} {C : Component ι σ} {own : InternalState → σ → τ} {part : κ → σ}

theorem view_perform {handler : Handler κ} {p : Part σ} (h : C.Serves part handler p)
    (w : Outbox (Owned κ) Atom) :
    C.view own part (Application.perform Outbox.writeAtoms handler w) =
      C.outcome own (w.own.state C.id) (w.written.filterMap C.id.peer.heard)
        (p (w.own.state C.id) (part w.own.app)) := by
  rw [Application.perform_writeAtoms, ← h w.own.state w.own.app, view, List.filterMap_append,
    OptionId.filterMap_heard_messages]
  rfl

theorem view_idle {handler : Handler κ} (h : C.Serves part handler Part.idle)
    (w : Outbox (Owned κ) Atom) :
    C.view own part (Application.perform Outbox.writeAtoms handler w) = C.view own part w := by
  rw [view_perform h, outcome, Part.idle, List.map_nil, List.append_nil]
  rfl

theorem view_written {neg : Negotiation} (h : C.id.Writes (.negotiation neg))
    (w : Outbox (Owned κ) Atom) :
    C.view own part (Outbox.writeAtoms (.negotiation neg) w) =
      Outbox.writeElement (.negotiation neg) (C.view own part w) := by
  have hseen : (Element.negotiation neg).atoms.filterMap C.id.peer.heard = [.negotiation neg] :=
    List.filterMap_cons_some (C.id.heard_written h)
  rw [view, Outbox.writeAtoms, List.filterMap_append, hseen]
  rfl

theorem view_unwritten {neg : Negotiation} (h : ¬ C.id.Writes (.negotiation neg))
    (w : Outbox (Owned κ) Atom) :
    C.view own part (Outbox.writeAtoms (.negotiation neg) w) = C.view own part w := by
  rw [view, Outbox.writeAtoms, List.filterMap_append, C.id.filterMap_heard_negotiation h,
    List.append_nil]
  rfl

variable {α : Type} {A : Application α κ} {P : Party ι' C.id.half.traits τ Element}

theorem Alone.writeNegotiation (hP : C.Alone P own) (neg : NegotiationType)
    (w : Outbox τ Element) :
    P.option.writeNegotiation neg w = Outbox.writeElement (.negotiation ⟨neg, C.id.code⟩) w := by
  rw [TelnetOption.writeNegotiation, hP.write, hP.optionCode]

/-- The option of the component does what the party does. -/
theorem Alone.follows (hP : C.Alone P own) (hA : A.Hosts C part) :
    (A.option Outbox.writeAtoms C.id).Follows P.option (C.view own part) where
  state _ := hP.state _ _ _
  setState st w := by
    apply Eq.trans _ (hP.setState st _ _ _).symm
    simp [view, Application.option]
  writePositive w := (view_written (Or.inl rfl) w).trans (hP.writeNegotiation _ _).symm
  writeNegative w := (view_written (Or.inr rfl) w).trans (hP.writeNegotiation _ _).symm
  onStateChanged w := by
    have hserves := hA.onStateChanged C.id
    rw [if_pos rfl] at hserves
    exact (view_perform hserves w).trans (hP.onStateChanged _ _ _).symm
  handleSubnegotiation content w := by
    have hserves := hA.handleSubnegotiation C.id content
    rw [if_pos rfl] at hserves
    exact (view_perform hserves _).trans (hP.handleSubnegotiation content _ _ _).symm

/-- What another option does is not seen. -/
theorem keeps_view (hA : A.Hosts C part) {id : OptionId} (hne : id ≠ C.id)
    (v : Outbox τ Element) :
    (A.option Outbox.writeAtoms id).Keeps fun w => C.view own part w = v where
  setState st w hw := by
    rw [← hw]
    simp [view, Application.option, hne.symm]
  writePositive w hw :=
    (view_unwritten (fun h => hne (OptionId.writes_unique (Or.inl rfl) h)) w).trans hw
  writeNegative w hw :=
    (view_unwritten (fun h => hne (OptionId.writes_unique (Or.inr rfl) h)) w).trans hw
  onStateChanged w hw := by
    have hserves := hA.onStateChanged id
    rw [if_neg hne] at hserves
    exact (view_idle hserves w).trans hw
  handleSubnegotiation content w hw := by
    have hserves := hA.handleSubnegotiation id content
    rw [if_neg hne] at hserves
    exact (view_idle hserves _).trans hw

/-! ## What is done with an element -/

theorem lastInstalled_code (hA : A.Hosts C part) : A.lastInstalled C.id.code = some C.id := by
  cases hlast : A.lastInstalled C.id.code with
  | none =>
      rw [Application.lastInstalled, List.find?_eq_none] at hlast
      exact absurd (decide_eq_true rfl) (hlast C.id (List.mem_reverse.mpr hA.installed))
  | some id =>
      have hmem : id ∈ A.options := List.mem_reverse.mp (List.mem_of_find?_eq_some hlast)
      rw [hA.unique id hmem (A.code_of_lastInstalled hlast)]

/-- An element that the option does not hear is not seen. -/
theorem view_unheard (hA : A.Hosts C part) {a : Atom} (ha : a.Sendable) (h : C.id.heard a = none)
    (s : Owned κ) :
    C.view own part (A.receive Outbox.writeAtoms a.element ⟨s, []⟩) = C.view own part ⟨s, []⟩ := by
  have howns {neg : Negotiation} (hneg : a = .token (.negotiation neg)) : ¬ C.id.Owns neg := by
    rintro howns
    simp [hneg, OptionId.heard, howns] at h
  apply A.receive_atom_cases Outbox.writeAtoms ⟨s, []⟩ ha
    (P := fun w => C.view own part w = C.view own part ⟨s, []⟩) rfl
  · exact fun by_ _ => view_idle (hA.onByte by_) ⟨s, []⟩
  · exact fun cmd _ => view_idle (hA.onCommand cmd) ⟨s, []⟩
  · intro id _ neg hneg howns'
    have hne : id ≠ C.id := by
      rintro rfl
      exact howns hneg howns'
    exact (keeps_view hA hne _).negotiate neg.request rfl
  · rintro neg rfl _
    exact view_unwritten
      (fun hwrites => howns rfl (OptionId.owns_of_writes_refusal ha.1 hwrites)) _
  · rintro id sub rfl hlast
    have hne : id ≠ C.id := by
      rintro rfl
      simp [OptionId.heard, A.code_of_lastInstalled hlast] at h
    exact (keeps_view hA hne _).subnegotiate sub.content rfl

/-- What is done with an element that the option hears is what the party does with it. -/
theorem Alone.view_receive (hP : C.Alone P own) (hA : A.Hosts C part) {a : Atom} {elem : Element}
    (h : C.id.heard a = some elem) (s : Owned κ) :
    C.view own part (A.receive Outbox.writeAtoms a.element ⟨s, []⟩) =
      P.session.tokenHandler (fun _ w => w) elem (C.view own part ⟨s, []⟩) := by
  have hfollows := hP.follows hA
  obtain ⟨rfl, ⟨neg, rfl, howns⟩ | ⟨content, rfl⟩⟩ := OptionId.heard_eq_some h
  · have hreceive := A.receive_owned Outbox.writeAtoms ⟨s, []⟩ hA.installed howns
    have hdistinct := Endpoint.remotePositive_ne C.id.half
    apply (congrArg (C.view own part) hreceive).trans
    apply (hfollows.negotiate neg.request ⟨s, []⟩).trans
    simp only [Session.tokenHandler, Router.route, Party.session, id_eq,
      Session.negotiationRouter_installOption, hP.optionCode]
    rcases howns with rfl | rfl
    · rw [if_neg (by simp [hdistinct]), if_pos rfl]
    · rw [if_pos rfl]
  · have hreceive := A.receive_subnegotiation Outbox.writeAtoms ⟨s, []⟩ ⟨C.id.code, content⟩
    rw [lastInstalled_code hA] at hreceive
    apply (congrArg (C.view own part) hreceive).trans
    apply (hfollows.subnegotiate content ⟨s, []⟩).trans
    simp only [Session.tokenHandler, Router.route, Party.session,
      Session.subnegotiationRouter_installOption, hP.optionCode, if_true]

/-- An input is nothing to the component, or an input of the party. -/
theorem Alone.view_input (hP : C.Alone P own) (hA : A.Hosts C part) (i : AppInput α)
    (s : Owned κ) :
    C.view own part (A.input Outbox.writeAtoms i ⟨s, []⟩) = C.view own part ⟨s, []⟩ ∨
      ∃ i', C.view own part (A.input Outbox.writeAtoms i ⟨s, []⟩) =
        P.input i' (C.view own part ⟨s, []⟩) := by
  cases i with
  | call id c =>
      by_cases hid : id = C.id
      · obtain rfl := hid
        obtain ⟨i', hi'⟩ := hP.call c
        have hinput : A.input Outbox.writeAtoms (.call C.id c) ⟨s, []⟩ =
            (A.option Outbox.writeAtoms C.id).call c ⟨s, []⟩ := if_pos hA.installed
        rw [hinput]
        exact Or.inr ⟨i', ((hP.follows hA).call c ⟨s, []⟩).trans (congrFun hi' _).symm⟩
      · left
        rw [Application.input]
        split
        · exact (keeps_view hA hid _).call c rfl
        · rfl
  | request i =>
      rcases hA.request i with hidle | ⟨j, hserves⟩
      · exact Or.inl (view_idle hidle ⟨s, []⟩)
      · obtain ⟨i', hi'⟩ := hP.request j
        exact Or.inr ⟨i', (view_perform hserves ⟨s, []⟩).trans (hi' _ _).symm⟩

/-- What is seen of an application through a component is the component by itself. -/
theorem Alone.projects (hP : C.Alone P own) (hA : A.Hosts C part) {I : Owned κ → Prop} :
    A.atoms.Projects P.elements (fun s => own (s.state C.id) (part s.app)) C.id.heard
      C.id.peer.heard I Atom.Sendable where
  act i s _ := by
    rcases hP.view_input hA i s with hview | ⟨i', hview⟩
    · exact Or.inl ⟨congrArg Outbox.own hview, congrArg Outbox.written hview⟩
    · exact Or.inr ⟨i', congrArg (fun w => (w.own, w.written)) hview.symm⟩
  unseen _ a ha hnone s _ := by
    have hview : C.view own part (A.receive Outbox.writeAtoms a.element ⟨s, []⟩) =
        C.view own part ⟨s, []⟩ := view_unheard hA ha hnone s
    exact ⟨congrArg Outbox.own hview, congrArg Outbox.written hview⟩
  seen _ a elem _ hsome s _ :=
    ⟨(), congrArg (fun w => (w.own, w.written)) (hP.view_receive hA hsome s).symm⟩

end Component

/-! ## An application with a component added -/

namespace Application

variable {α κ ι σ : Type}

/-- The handler of an application that keeps something else as well. -/
def ofRest (handler : Handler κ) : Handler (κ × σ) := fun states app =>
  let r := handler states app.1
  ((r.1, app.2), r.2)

def ofPart (C : Component ι σ) (p : Part σ) : Handler (κ × σ) := fun states app =>
  let r := p (states C.id) app.2
  ((app.1, r.1), r.2.map (FreeElement.subnegotiation C.id.code))

/-- The component is installed after all other options. -/
def beside (A : Application α κ) (C : Component ι σ) : Application (α ⊕ ι) (κ × σ) where
  options := A.options ++ [C.id]
  commands := A.commands
  onByte by_ := ofRest (A.onByte by_)
  onCommand cmd := ofRest (A.onCommand cmd)
  onStateChanged id :=
    if id = C.id then ofPart C C.onStateChanged else ofRest (A.onStateChanged id)
  handleSubnegotiation id content :=
    if id = C.id then ofPart C (C.handleSubnegotiation content)
    else ofRest (A.handleSubnegotiation id content)
  request := Sum.elim (fun i => ofRest (A.request i)) fun j => ofPart C (C.request j)

/-- The application has no option of the code and writes no content of it. -/
structure Ignores (A : Application α κ) (code : OptionType) : Prop where
  options : ∀ id ∈ A.options, id.code ≠ code
  sends : A.Sends (contentOf code) (fun _ => []) fun _ => []

variable {A : Application α κ} {C : Component ι σ}

theorem seen_contents (code code' : OptionType) (contents : List Bytes) :
    FreeElement.seen (contentOf code) (contents.map (FreeElement.subnegotiation code')) =
      if code' = code then contents else [] := by
  induction contents with
  | nil => exact (ite_self _).symm
  | cons content contents ih =>
      rw [FreeElement.seen, List.map_cons, List.flatMap_cons, List.filterMap_append]
      apply (congrArg _ ih).trans
      by_cases hcode : code' = code <;>
        simp [FreeElement.subnegotiation, Element.atoms, contentOf, hcode]

theorem serves_ofPart (p : Part σ) : C.Serves (Prod.snd : κ × σ → σ) (ofPart C p) p :=
  fun _ _ => Prod.ext rfl ((seen_contents ..).trans (if_pos rfl))

theorem serves_ofRest {handler : Handler κ} (h : ∀ states app,
    FreeElement.seen (contentOf C.id.code) (handler states app).2 = []) :
    C.Serves (Prod.snd : κ × σ → σ) (ofRest handler) Part.idle :=
  fun states app => Prod.ext rfl (h states app.1)

/-- What is added leaves other codes alone. -/
theorem Ignores.beside {code : OptionType} (h : A.Ignores code) (hne : C.id.code ≠ code) :
    (A.beside C).Ignores code where
  options id hid := by
    rcases List.mem_append.mp hid with hid | hid
    · exact h.options id hid
    · rwa [List.mem_singleton.mp hid]
  sends := {
    negotiation := fun _ => rfl
    onByte := fun by_ states app => h.sends.onByte by_ states app.1
    onCommand := fun cmd states app => h.sends.onCommand cmd states app.1
    onStateChanged := fun id states app => by
      simp only [Application.beside]
      split
      · exact (seen_contents ..).trans (if_neg hne)
      · exact h.sends.onStateChanged id states app.1
    handleSubnegotiation := fun id content states app => by
      simp only [Application.beside]
      split
      · exact (seen_contents ..).trans (if_neg hne)
      · exact h.sends.handleSubnegotiation id content states app.1
    request := fun i states app => by
      cases i with
      | inl i => exact h.sends.request i states app.1
      | inr j => exact (seen_contents ..).trans (if_neg hne) }

/-- Any component can be added to an application that leaves its code alone. -/
theorem Ignores.hosts_beside (h : A.Ignores C.id.code) : (A.beside C).Hosts C Prod.snd where
  installed := List.mem_append_right _ (List.mem_singleton_self _)
  unique id hid hcode := by
    rcases List.mem_append.mp hid with hid | hid
    · exact absurd hcode (h.options id hid)
    · exact List.mem_singleton.mp hid
  onByte by_ := serves_ofRest (h.sends.onByte by_)
  onCommand cmd := serves_ofRest (h.sends.onCommand cmd)
  onStateChanged id := by
    simp only [Application.beside]
    split
    · exact serves_ofPart _
    · exact serves_ofRest (h.sends.onStateChanged id)
  handleSubnegotiation id content := by
    simp only [Application.beside]
    split
    · exact serves_ofPart _
    · exact serves_ofRest (h.sends.handleSubnegotiation id content)
  request i := by
    cases i with
    | inl i => exact Or.inl (serves_ofRest (h.sends.request i))
    | inr j => exact Or.inr ⟨j, serves_ofPart _⟩

end Application

/-! ## Components of two sessions -/

namespace SessionNet

variable {α β κ κ' : Type}

/-- What both ends keep, and what they have sent and what is on its way to them as atoms. -/
def read (n : SessionNet κ κ') : Atoms κ κ' :=
  ⟨(n.left.1.1, ({} : Parser).reads n.left.2), (n.right.1.1, ({} : Parser).reads n.right.2),
    n.left.1.2.reads n.toLeft, n.right.1.2.reads n.toRight⟩

theorem Reads.read_eq {n : SessionNet κ κ'} {m : Atoms κ κ'} (h : n.Reads m) : n.read = m := by
  obtain ⟨⟨⟨hleft, htoLeft⟩, hsent, hsendable⟩, ⟨hright, htoRight⟩, hsent', hsendable'⟩ := h
  rw [read, hleft, hright, hsent, hsent', Parser.reads_flatMap hsendable,
    Parser.reads_flatMap hsendable', htoLeft.reads, htoRight.reads]

variable {A : Application α κ} {B : Application β κ'}
variable {ι₁ κ₁ ι₁' κ₁' A₁ B₁ σ₁ τ₁ : Type}
variable {P₁ : Process ι₁ κ₁ A₁ B₁ σ₁} {Q₁ : Process ι₁' κ₁' B₁ A₁ τ₁}
variable {f : Owned κ × List Atom → σ₁} {g : Owned κ' × List Atom → τ₁}
variable {u : Atom → Option A₁} {v : Atom → Option B₁}

/-- What is seen of a run of two sessions is a run of what is seen of them. -/
theorem project_run
    (hA : A.atoms.logged.Projects P₁ f u v (fun s => A.Absent s.1) Atom.Sendable)
    (hB : B.atoms.logged.Projects Q₁ g v u (fun s => B.Absent s.1) Atom.Sendable)
    (x : κ) (y : κ') (es : List (SessionEvent α β)) :
    ∃ es₁, (run (step A B) (start x y) es).read.project f g u v =
      run (Net.step P₁ Q₁) ((Atoms.start x y).project f g u v) es₁ := by
  obtain ⟨es', hreads⟩ := reads_run (A := A) (B := B) (reads_start x y) es
  obtain ⟨es₁, hes₁⟩ := Net.Carries.project_run hA hB A.keeps_absent.beside B.keeps_absent.beside
    (sound_start x y) es'
  exact ⟨es₁, (congrArg (Net.project f g u v) hreads.read_eq).trans hes₁⟩

end SessionNet

end Telnetpp
