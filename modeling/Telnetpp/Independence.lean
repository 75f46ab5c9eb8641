import Telnetpp.InstalledOptions
import Telnetpp.Negotiation.Endpoint
import Telnetpp.Streams

/-!
# The options of one session do not interfere

Seen from one of the installed options, a session that negotiates is a
session with that option alone: whatever is called on the others and whatever
is negotiated for them leaves its state and what is written for it unchanged.
-/

namespace Telnetpp

open Foundation

namespace OptionId

/-- WILL and WONT of its code for a client option, DO and DONT for a server option. -/
def Owns (id : OptionId) (neg : Negotiation) : Prop :=
  neg = ⟨id.half.traits.remotePositive, id.code⟩ ∨ neg = ⟨id.half.traits.remoteNegative, id.code⟩

instance (id : OptionId) (neg : Negotiation) : Decidable (id.Owns neg) :=
  inferInstanceAs (Decidable (_ ∨ _))

/-- The element is a negotiation that the option, or a refusal in its place, writes. -/
def Writes (id : OptionId) (elem : Element) : Prop :=
  elem = .negotiation ⟨id.half.traits.localPositive, id.code⟩ ∨
    elem = .negotiation ⟨id.half.traits.localNegative, id.code⟩

instance (id : OptionId) (elem : Element) : Decidable (id.Writes elem) :=
  inferInstanceAs (Decidable (_ ∨ _))

variable {id id' : OptionId}

theorem owns_unique {neg : Negotiation} (h : id.Owns neg) (h' : id'.Owns neg) : id = id' := by
  rcases id with ⟨half, code⟩
  rcases id' with ⟨half', code'⟩
  have hdistinct : will ≠ do_ ∧ will ≠ dont ∧ wont ≠ do_ ∧ wont ≠ dont := by decide
  cases half <;> cases half' <;>
    simp only [Owns, Half.traits, clientTraits, serverTraits, Negotiation.ext_iff,
      OptionId.mk.injEq] at h h' ⊢ <;> grind

theorem writes_unique {elem : Element} (h : id.Writes elem) (h' : id'.Writes elem) :
    id = id' := by
  rcases id with ⟨half, code⟩
  rcases id' with ⟨half', code'⟩
  have hdistinct : will ≠ do_ ∧ will ≠ dont ∧ wont ≠ do_ ∧ wont ≠ dont := by decide
  cases half <;> cases half' <;>
    simp only [Writes, Half.traits, clientTraits, serverTraits, OptionId.mk.injEq] at h h' ⊢ <;>
    grind

/-- The refusal of a negotiation is written in the place of the option that owns it. -/
theorem owns_of_writes_refusal {neg : Negotiation} (hneg : isNegotiationType neg.request = true)
    (h : id.Writes (.negotiation (refusal neg))) : id.Owns neg := by
  rcases id with ⟨half, code⟩
  rcases neg with ⟨request, code'⟩
  have hrequest : request = will ∨ request = wont ∨ request = do_ ∨ request = dont := by
    simpa [isNegotiationType, or_assoc] using hneg
  have hdistinct : will ≠ wont ∧ will ≠ do_ ∧ will ≠ dont ∧ wont ≠ do_ ∧ wont ≠ dont ∧
      do_ ≠ dont := by decide
  cases half <;>
    simp only [Owns, Writes, refusal, Half.traits, clientTraits, serverTraits,
      Element.negotiation.injEq, Negotiation.mk.injEq] at h ⊢ <;> grind

end OptionId

/-- A call on an option, or a negotiation from the remote. -/
inductive NegotiationEvent
  | call (id : OptionId) (c : Call)
  | receive (neg : Negotiation) (h : isNegotiationType neg.request = true)

/-- The option's own calls and its own negotiations. -/
def NegotiationEvent.concerns (id : OptionId) : NegotiationEvent → Bool
  | .call id' _ => id' = id
  | .receive neg _ => id.Owns neg

namespace OptionSession

/-- One event, with handlers that make no calls. -/
def negotiationStep (s : OptionSession) : NegotiationEvent → OptionSession
  | .call id c => s.step (fun _ w => w) (.call id c)
  | .receive neg _ => s.step (fun _ w => w) (.receive (.negotiation neg))

/-- A new session with the given options installed. -/
def withOptions (ids : List OptionId) : OptionSession :=
  run (step fun _ w => w) {} (ids.map .install)

abbrev quietOption (id : OptionId) : TelnetOption id.half.traits OptionWorld :=
  optionOf (fun _ w => w) id

/-! ## Routes -/

/-- Negotiations are routed to the installed option that owns them, and all
others are refused. -/
structure RoutesToOwner (s : OptionSession) : Prop where
  owned : ∀ id ∈ s.installed, ∀ neg, id.Owns neg →
    s.session.negotiationRouter.registeredFunctions neg =
      some fun _ => (quietOption id).negotiate neg.request
  unowned : ∀ neg, (∀ id ∈ s.installed, ¬ id.Owns neg) →
    s.session.negotiationRouter.registeredFunctions neg = none
  unregistered : s.session.negotiationRouter.unregisteredRoute =
    some fun neg w => { w with written := w.written ++ [.negotiation (refusal neg)] }

theorem RoutesToOwner.install {s : OptionSession} (h : s.RoutesToOwner) (id : OptionId) :
    (s.step (fun _ w => w) (.install id)).RoutesToOwner := by
  have hroute := Session.negotiationRouter_installOption (s := s.session) (quietOption id)
  have hcode : (quietOption id).optionCode = id.code := rfl
  have hdistinct := Endpoint.remotePositive_ne id.half
  rw [hcode] at hroute
  refine ⟨?_, ?_, h.unregistered⟩
  · intro id' hid' neg howns
    apply (hroute neg).trans
    by_cases hnew : id.Owns neg
    · obtain rfl := OptionId.owns_unique hnew howns
      rcases hnew with rfl | rfl
      · rw [if_neg (by simp [hdistinct]), if_pos rfl]
      · rw [if_pos rfl]
    · simp only [OptionId.Owns, not_or] at hnew
      rw [if_neg hnew.2, if_neg hnew.1]
      have hne : id' ≠ id := by
        rintro rfl
        exact howns.elim hnew.1 hnew.2
      exact h.owned id' ((List.mem_cons.mp hid').resolve_left hne) neg howns
  · intro neg hunowned
    obtain ⟨hnew, hold⟩ := List.forall_mem_cons.mp hunowned
    simp only [OptionId.Owns, not_or] at hnew
    apply (hroute neg).trans
    rw [if_neg hnew.2, if_neg hnew.1]
    exact h.unowned neg hold

theorem routesToOwner_withOptions (ids : List OptionId) : (withOptions ids).RoutesToOwner := by
  have hstart : ({} : OptionSession).RoutesToOwner := ⟨by simp, fun _ _ => rfl, rfl⟩
  have hrun (s : OptionSession) (hs : s.RoutesToOwner) :
      (run (step fun _ w => w) s (ids.map .install)).RoutesToOwner := by
    induction ids generalizing s with
    | nil => exact hs
    | cons id ids ih => exact ih _ (hs.install id)
  exact hrun {} hstart

theorem mem_installed_withOptions (ids : List OptionId) (id : OptionId) :
    id ∈ (withOptions ids).installed ↔ id ∈ ids := by
  have hrun (s : OptionSession) : id ∈ (run (step fun _ w => w) s (ids.map .install)).installed ↔
      id ∈ ids ∨ id ∈ s.installed := by
    induction ids generalizing s with
    | nil => simp
    | cons id' ids ih =>
        rw [List.map_cons, run_cons, ih]
        simp only [step, List.mem_cons]
        grind
  exact (hrun {}).trans (or_iff_left List.not_mem_nil)

theorem RoutesToOwner.negotiationStep {s : OptionSession} (h : s.RoutesToOwner)
    (e : NegotiationEvent) : (s.negotiationStep e).RoutesToOwner := by
  cases e with
  | call id c => exact ⟨h.owned, h.unowned, h.unregistered⟩
  | receive neg hneg => exact ⟨h.owned, h.unowned, h.unregistered⟩

theorem installed_negotiationStep (s : OptionSession) (e : NegotiationEvent) :
    (s.negotiationStep e).installed = s.installed := by
  cases e <;> rfl

section Receive

variable {s : OptionSession} (h : s.RoutesToOwner) (neg : Negotiation)

include h

theorem RoutesToOwner.receive_owned {id : OptionId} (hid : id ∈ s.installed)
    (howns : id.Owns neg) : (s.receive (.negotiation neg)).world =
      (quietOption id).negotiate neg.request s.world := by
  have hroute := h.owned id hid neg howns
  simp [receive, Session.tokenHandler, Router.route, hroute]

theorem RoutesToOwner.receive_unowned (hunowned : ∀ id ∈ s.installed, ¬ id.Owns neg) :
    (s.receive (.negotiation neg)).world =
      { s.world with written := s.world.written ++ [.negotiation (refusal neg)] } := by
  have hroute := h.unowned neg hunowned
  simp [receive, Session.tokenHandler, Router.route, hroute, h.unregistered]

end Receive

/-! ## One option's view -/

/-- The state of an option and what has been written in its place. -/
def view (id : OptionId) (w : OptionWorld) : Endpoint :=
  ⟨w.state id, w.written.filter id.Writes⟩

/-- An option that writes only what is its own to write. -/
def viewedOption (id : OptionId) : TelnetOption id.half.traits Endpoint :=
  { Endpoint.quietOption id.half id.code with
    write := fun elem w => if id.Writes elem then w.write elem else w }

def viewStep (id : OptionId) (w : Endpoint) : NegotiationEvent → Endpoint
  | .call _ c => (viewedOption id).call c w
  | .receive neg _ => (viewedOption id).negotiate neg.request w

theorem hom_view (id : OptionId) : (quietOption id).Hom (viewedOption id) (view id) where
  optionCode := rfl
  state := fun _ => rfl
  setState := by
    intro st w
    simp [view, viewedOption, quietOption, optionOf, Endpoint.quietOption]
  write := by
    intro elem w
    by_cases h : id.Writes elem <;>
      simp [view, viewedOption, quietOption, optionOf, Endpoint.write, h]
  onStateChanged := fun _ => rfl
  handleSubnegotiation := fun _ _ => rfl

theorem view_write {id : OptionId} {elem : Element} (h : ¬ id.Writes elem) (w : OptionWorld) :
    view id { w with written := w.written ++ [elem] } = view id w := by
  simp [view, h]

/-- What another option does is not seen. -/
theorem keeps_view {id id' : OptionId} (hne : id' ≠ id) (v : Endpoint) :
    (quietOption id').Keeps fun w => view id w = v := by
  have hwrite {elem : Element} (h : id'.Writes elem) : ¬ id.Writes elem :=
    fun h' => hne (OptionId.writes_unique h h')
  constructor
  · intro st w hw
    rw [← hw]
    simp [view, quietOption, optionOf, hne.symm]
  · intro w hw
    exact (view_write (hwrite (Or.inl rfl)) w).trans hw
  · intro w hw
    exact (view_write (hwrite (Or.inr rfl)) w).trans hw
  · exact fun _ hw => hw
  · exact fun _ _ hw => hw

section Step

variable {s : OptionSession} (h : s.RoutesToOwner) {id : OptionId} (hid : id ∈ s.installed)
  (e : NegotiationEvent)

include h hid

theorem view_own (he : e.concerns id = true) :
    view id (s.negotiationStep e).world = viewStep id (view id s.world) e := by
  cases e with
  | call id' c =>
      obtain rfl : id' = id := of_decide_eq_true he
      exact ((hom_view id').call c s.world).symm
  | receive neg hneg =>
      have howns : id.Owns neg := of_decide_eq_true he
      have hreceive := h.receive_owned neg hid howns
      exact (congrArg (view id) hreceive).trans ((hom_view id).negotiate neg.request s.world).symm

theorem view_other (he : e.concerns id = false) :
    view id (s.negotiationStep e).world = view id s.world := by
  cases e with
  | call id' c =>
      have hne : id' ≠ id := of_decide_eq_false he
      exact (keeps_view hne (view id s.world)).call c rfl
  | receive neg hneg =>
      have howns : ¬ id.Owns neg := of_decide_eq_false he
      by_cases howned : ∃ id' ∈ s.installed, id'.Owns neg
      · obtain ⟨id', hid', howns'⟩ := howned
        have hne : id' ≠ id := by
          rintro rfl
          exact howns howns'
        have hkept := (keeps_view hne (view id s.world)).negotiate neg.request rfl
        exact (congrArg (view id) (h.receive_owned neg hid' howns')).trans hkept
      · push Not at howned
        have hwrites : ¬ id.Writes (.negotiation (refusal neg)) :=
          fun hw => howns (OptionId.owns_of_writes_refusal hneg hw)
        exact (congrArg (view id) (h.receive_unowned neg howned)).trans
          (view_write hwrites s.world)

end Step

/-- A run is seen by an installed option as the option's own events. -/
theorem view_run {ids : List OptionId} {id : OptionId} (hid : id ∈ ids)
    (es : List NegotiationEvent) :
    view id (run negotiationStep (withOptions ids) es).world =
      run (viewStep id) (view id (withOptions ids).world)
        (es.filter (NegotiationEvent.concerns id)) := by
  apply run_view negotiationStep (fun s : OptionSession => view id s.world) (viewStep id)
    (R := fun s => s.RoutesToOwner ∧ id ∈ s.installed)
  · intro s e hs
    refine ⟨hs.1.negotiationStep e, ?_⟩
    rw [installed_negotiationStep]
    exact hs.2
  · intro s e hs he
    exact view_own hs.1 hs.2 e he
  · intro s e hs he
    exact view_other hs.1 hs.2 e he
  · exact ⟨routesToOwner_withOptions ids, (mem_installed_withOptions ids id).mpr hid⟩

/-! ## An option alone -/

theorem world_withOptions (ids : List OptionId) : (withOptions ids).world = {} := by
  have hrun (s : OptionSession) :
      (run (step fun _ w => w) s (ids.map .install)).world = s.world := by
    induction ids generalizing s with
    | nil => rfl
    | cons id ids ih => exact ih _
  exact hrun {}

theorem keeps_writes (id : OptionId) :
    (quietOption id).Keeps fun w => ∀ elem ∈ w.written, id.Writes elem := by
  have hwrite (w : OptionWorld) (hw : ∀ elem ∈ w.written, id.Writes elem) {elem : Element}
      (helem : id.Writes elem) : ∀ elem' ∈ w.written ++ [elem], id.Writes elem' :=
    List.forall_mem_append.mpr ⟨hw, List.forall_mem_singleton.mpr helem⟩
  constructor
  · exact fun _ _ hw => hw
  · exact fun w hw => hwrite w hw (Or.inl rfl)
  · exact fun w hw => hwrite w hw (Or.inr rfl)
  · exact fun _ hw => hw
  · exact fun _ _ hw => hw

/-- An option alone writes nothing but what is its own to write. -/
theorem written_alone (id : OptionId) {es : List NegotiationEvent}
    (hes : ∀ e ∈ es, e.concerns id = true) :
    ∀ elem ∈ (run negotiationStep (withOptions [id]) es).world.written, id.Writes elem := by
  have hrun (s : OptionSession) (hs : s.RoutesToOwner) (hid : id ∈ s.installed)
      (hw : ∀ elem ∈ s.world.written, id.Writes elem) :
      ∀ elem ∈ (run negotiationStep s es).world.written, id.Writes elem := by
    induction es generalizing s with
    | nil => exact hw
    | cons e es ih =>
        obtain ⟨he, hes⟩ := List.forall_mem_cons.mp hes
        apply ih hes _ (hs.negotiationStep e)
        · rwa [installed_negotiationStep]
        · cases e with
          | call id' c =>
              obtain rfl : id' = id := of_decide_eq_true he
              exact (keeps_writes id').call c hw
          | receive neg hneg =>
              have hreceive := hs.receive_owned neg hid (of_decide_eq_true he)
              have hkept := (keeps_writes id).negotiate neg.request hw
              rw [← hreceive] at hkept
              exact hkept
  apply hrun _ (routesToOwner_withOptions [id])
  · exact (mem_installed_withOptions [id] id).mpr (List.mem_singleton_self id)
  · rw [world_withOptions]
    exact List.forall_mem_nil _

/-- In every run, each installed option is in the state, and has had written
for it the negotiations, that it would have alone; and a negotiation that no
installed option owns is answered with one refusal and changes no option. -/
theorem run_independent (ids : List OptionId) (es : List NegotiationEvent) :
    let s := run negotiationStep (withOptions ids) es
    (∀ id ∈ ids,
      let alone := run negotiationStep (withOptions [id]) (es.filter (·.concerns id))
      s.world.state id = alone.world.state id ∧
        s.world.written.filter id.Writes = alone.world.written) ∧
    ∀ neg : Negotiation, (∀ id ∈ ids, ¬ id.Owns neg) →
      (s.receive (.negotiation neg)).world =
        { s.world with
          written := s.world.written ++ [.negotiation
            ⟨if neg.request = will ∨ neg.request = wont then dont else wont,
              neg.optionCode⟩] } := by
  intro s
  constructor
  · intro id hid alone
    have hseen := view_run hid es
    have halone := view_run (List.mem_singleton_self id) (es.filter (·.concerns id))
    rw [List.filter_filter, world_withOptions] at halone
    simp only [Bool.and_self] at halone
    rw [world_withOptions, ← halone] at hseen
    have hwritten : ∀ elem ∈ alone.world.written, id.Writes elem :=
      written_alone id fun e he => (List.mem_filter.mp he).2
    have hfilter : alone.world.written.filter id.Writes = alone.world.written :=
      List.filter_eq_self.mpr fun elem helem => decide_eq_true (hwritten elem helem)
    refine ⟨congrArg Endpoint.state hseen, ?_⟩
    exact (congrArg Endpoint.written hseen).trans hfilter
  · intro neg hunowned
    have hroutes : s.RoutesToOwner :=
      run_invariant _ (fun _ e h => h.negotiationStep e) (routesToOwner_withOptions ids) es
    have hinstalled : ∀ id ∈ s.installed, id ∈ ids := by
      have hrun : s.installed = (withOptions ids).installed :=
        run_invariant (R := fun t => t.installed = (withOptions ids).installed) _
          (fun t e ht => (installed_negotiationStep t e).trans ht) rfl es
      intro id hid
      exact (mem_installed_withOptions ids id).mp (hrun ▸ hid)
    exact hroutes.receive_unowned neg fun id hid => hunowned id (hinstalled id hid)

end OptionSession

end Telnetpp
