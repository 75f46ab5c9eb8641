import Telnetpp.Negotiation.Sending

/-!
# What is sent for an active option is handled

Once an option and its counterpart are both active, and as long as neither is
deactivated, the contents that one application writes for the code are handed
to the option of the other, each once and in order.
-/

namespace Telnetpp

open Foundation ModeAgreement

/-- What has been handed to the option. -/
def Owned.handledBy {κ : Type} (own : Owned κ) (id : OptionId) : List Bytes :=
  (own.handled.filter fun h => h.1 = id).map Prod.snd

namespace Application

variable {α κ : Type} (A : Application α κ)

/-! ## What has been handed over -/

theorem lasting_handled (handled : List (OptionId × Bytes)) :
    Lasting (κ := κ) Outbox.writeAtoms fun w => w.own.handled = handled :=
  ⟨fun _ _ _ hw => hw, fun _ _ hw => hw⟩

section Handled

variable (id : OptionId) (handled : List (OptionId × Bytes))

/-- The option with nothing in the place of its `handle_subnegotiation`. -/
theorem keeps_handled :
    ({ A.option Outbox.writeAtoms id with handleSubnegotiation := fun _ w => w } :
      TelnetOption id.half.traits (Outbox (Owned κ) Atom)).Keeps
        fun w => w.own.handled = handled where
  setState _ _ hw := hw
  writePositive _ hw := hw
  writeNegative _ hw := hw
  onStateChanged _ hw := (lasting_handled handled).perform _ hw
  handleSubnegotiation _ _ hw := hw

theorem handled_input (i : AppInput α) (own : Owned κ) :
    (A.input Outbox.writeAtoms i ⟨own, []⟩).own.handled = own.handled := by
  cases i with
  | call id c =>
      rw [input]
      split
      · exact (A.keeps_handled id own.handled).call c rfl
      · rfl
  | request i => exact (lasting_handled own.handled).perform _ rfl

theorem handled_subnegotiate (content : Bytes) (own : Owned κ) :
    ((A.option Outbox.writeAtoms id).subnegotiate content ⟨own, []⟩).own.handled =
      own.handled ++ if own.state id = .active then [(id, content)] else [] := by
  by_cases hactive : own.state id = .active
  · have hsub : (A.option Outbox.writeAtoms id).subnegotiate content ⟨own, []⟩ =
        perform Outbox.writeAtoms (A.handleSubnegotiation id content)
          ⟨{ own with handled := own.handled ++ [(id, content)] }, []⟩ := if_pos hactive
    rw [hsub, if_pos hactive]
    exact (lasting_handled _).perform _ rfl
  · have hsub : (A.option Outbox.writeAtoms id).subnegotiate content ⟨own, []⟩ = ⟨own, []⟩ :=
      if_neg hactive
    rw [hsub, if_neg hactive, List.append_nil]

/-- What is handed over of an atom: the content of a subnegotiation, to the option
that the code is routed to if that is active. -/
def hands (own : Owned κ) : Atom → List (OptionId × Bytes)
  | .token (.subnegotiation sub) =>
      ((A.lastInstalled sub.option).filter fun id => own.state id = .active).toList.map
        fun id => (id, sub.content)
  | _ => []

theorem handled_receive (a : Atom) (own : Owned κ) :
    (A.receive Outbox.writeAtoms a.element ⟨own, []⟩).own.handled =
      own.handled ++ A.hands own a := by
  have hlasting := lasting_handled (κ := κ) own.handled
  cases a with
  | data by_ =>
      exact (hlasting.callback A [by_] rfl).trans (List.append_nil _).symm
  | token elem =>
      cases elem with
      | bytes data =>
          exact (hlasting.callback A data rfl).trans (List.append_nil _).symm
      | command cmd =>
          apply Eq.trans _ (List.append_nil _).symm
          rw [Atom.element, receive_command]
          split
          · exact hlasting.perform _ rfl
          · rfl
      | negotiation neg =>
          apply Eq.trans _ (List.append_nil _).symm
          rw [Atom.element]
          by_cases howned : ∃ id ∈ A.options, id.Owns neg
          · obtain ⟨id, hid, howns⟩ := howned
            rw [A.receive_owned _ _ hid howns]
            exact (A.keeps_handled id own.handled).negotiate neg.request rfl
          · push Not at howned
            rw [A.receive_unowned _ _ howned]
            rfl
      | subnegotiation sub =>
          rw [Atom.element, receive_subnegotiation]
          cases hlast : A.lastInstalled sub.option with
          | none => simp [hands, hlast]
          | some id =>
              apply (A.handled_subnegotiate id sub.content own).trans
              by_cases hactive : own.state id = .active <;>
                simp [hands, hlast, Option.filter, hactive]

/-- What is handed over to one option of an atom. -/
def handsTo (own : Owned κ) (a : Atom) : List Bytes :=
  ((A.hands own a).filter fun h => h.1 = id).map Prod.snd

theorem handedBy_input (i : AppInput α) (own : Owned κ) :
    (A.input Outbox.writeAtoms i ⟨own, []⟩).own.handledBy id = own.handledBy id := by
  rw [Owned.handledBy, A.handled_input i own]
  rfl

theorem handedBy_receive (a : Atom) (own : Owned κ) :
    (A.receive Outbox.writeAtoms a.element ⟨own, []⟩).own.handledBy id =
      own.handledBy id ++ A.handsTo id own a := by
  rw [Owned.handledBy, A.handled_receive a own, List.filter_append, List.map_append]
  rfl

end Handled

/-! ## An option that stays active -/

/-- The inputs with which an active option stays active. -/
def Stays (id : OptionId) (i : AppInput α) : Prop := i ≠ .call id .deactivate

section Active

variable (id : OptionId)

theorem aspect_stays {i : AppInput α} (hi : Stays id i) {own : Owned κ}
    (hactive : own.state id = .active) :
    aspect id (A.input Outbox.writeAtoms i ⟨own, []⟩) = (.active, []) := by
  rw [← hactive]
  by_cases hcall : ∃ c, i = .call id c
  · obtain ⟨c, rfl⟩ := hcall
    cases c with
    | deactivate => exact absurd rfl hi
    | activate =>
        rw [input]
        split
        · have hcall : (A.option Outbox.writeAtoms id).call .activate ⟨own, []⟩ =
              (A.option Outbox.writeAtoms id).onStateChanged ⟨own, []⟩ := by
            simp only [TelnetOption.call, TelnetOption.activate, option, hactive]
          exact (congrArg (aspect id) hcall).trans (A.aspect_onStateChanged id ⟨own, []⟩)
        · rfl
  · exact A.aspect_input id own i fun c hc => absurd ⟨c, hc⟩ hcall

/-- An option that is active after an input was active before, and has written no
negotiation. -/
theorem active_of_input (i : AppInput α) (own : Owned κ)
    (hactive : (A.input Outbox.writeAtoms i ⟨own, []⟩).own.state id = .active) :
    aspect id (A.input Outbox.writeAtoms i ⟨own, []⟩) = (own.state id, []) ∧
      own.state id = .active := by
  by_cases hcall : ∃ c, i = .call id c ∧ id ∈ A.options
  · obtain ⟨c, rfl, hid⟩ := hcall
    have hinput : A.input Outbox.writeAtoms (.call id c) ⟨own, []⟩ =
        (A.option Outbox.writeAtoms id).call c ⟨own, []⟩ := if_pos hid
    rw [hinput] at hactive ⊢
    have hafter : (aspect id ((A.option Outbox.writeAtoms id).call c ⟨own, []⟩)).1 = .active :=
      hactive
    rcases A.aspect_call id c own with ⟨hstance, hsent⟩ | hrequest
    · rw [hafter] at hstance
      have hbefore : own.state id = .active := by
        cases hs : own.state id <;> simp [hs, Endpoint.stance] at hstance
        rfl
      exact ⟨Prod.ext (hafter.trans hbefore.symm) hsent, hbefore⟩
    · rw [hafter] at hrequest
      cases hs : own.state id <;>
        simp [hs, Endpoint.stance, ModeAgreement.request] at hrequest
  · push Not at hcall
    have hinput := A.aspect_input id own i hcall
    exact ⟨hinput, (congrArg Prod.fst hinput).symm.trans hactive⟩

/-- An active option that is sent no negotiation stays active and writes none. -/
theorem keeps_active : (A.atoms.limit (Stays id)).Keeps (fun own => own.state id = .active)
    (fun a => a.Sendable ∧ id.notice a = none) (fun a => a.Sendable ∧ id.peer.notice a = none) where
  act i own hown := by
    have hinput := A.aspect_stays id i.2 hown
    refine ⟨congrArg Prod.fst hinput, fun b hb => ⟨A.frames.sent_act i own b hb, ?_⟩⟩
    exact List.filterMap_eq_nil_iff.mp (congrArg Prod.snd hinput) b hb
  recv _ a ha own hown := by
    have hrecv := A.aspect_receive id own ha.1 ha.2
    refine ⟨(congrArg Prod.fst hrecv).trans hown, fun b hb => ⟨A.frames.sent_recv a own b hb, ?_⟩⟩
    exact List.filterMap_eq_nil_iff.mp (congrArg Prod.snd hrecv) b hb

theorem code_of_lastInstalled {code : OptionType} {id : OptionId}
    (h : A.lastInstalled code = some id) : id.code = code := by
  rw [lastInstalled] at h
  simpa using List.find?_some h

theorem contentOf_hands {own : Owned κ} {a : Atom} {entry : OptionId × Bytes}
    (h : entry ∈ A.hands own a) : contentOf entry.1.code a = some entry.2 := by
  cases a with
  | data by_ => exact absurd h List.not_mem_nil
  | token elem =>
      cases elem with
      | subnegotiation sub =>
          obtain ⟨id, hid, rfl⟩ := List.mem_map.mp h
          rw [Option.mem_toList, Option.filter_eq_some_iff] at hid
          exact if_pos (A.code_of_lastInstalled hid.1).symm
      | _ => exact absurd h List.not_mem_nil

/-- An active option that its code is routed to is handed the contents of that code. -/
theorem handsTo_active (hlast : A.lastInstalled id.code = some id) {own : Owned κ}
    (hactive : own.state id = .active) (a : Atom) :
    A.handsTo id own a = (contentOf id.code a).toList := by
  cases a with
  | data by_ => rfl
  | token elem =>
      cases elem with
      | subnegotiation sub =>
          by_cases hcode : sub.option = id.code
          · simp [handsTo, hands, contentOf, hcode, hlast, Option.filter, hactive]
          · cases hlast' : A.lastInstalled sub.option with
            | none => simp [handsTo, hands, contentOf, hcode, hlast']
            | some id' =>
                have hne : id' ≠ id := by
                  rintro rfl
                  exact hcode (A.code_of_lastInstalled hlast').symm
                by_cases hactive' : own.state id' = .active <;>
                  simp [handsTo, hands, contentOf, hcode, hlast', Option.filter, hactive', hne]
      | _ => rfl

/-- While it is active the option that a code is routed to takes its contents. -/
theorem takes_contents (hlast : A.lastInstalled id.code = some id) :
    (A.atoms.limit (Stays id)).Takes (contentOf id.code) (fun own => own.handledBy id)
      (fun own => own.state id = .active) (fun a => a.Sendable ∧ id.notice a = none) where
  act i own _ := A.handedBy_input id i.1 own
  recv _ a _ own hown := by
    rw [← A.handsTo_active id hlast hown a]
    exact A.handedBy_receive id a own

end Active

/-! ## Contents of one kind -/

/-- The atom can be sent, and if it is a content of the code it is of one kind. -/
def Only (code : OptionType) (P : Bytes → Prop) (a : Atom) : Prop :=
  a.Sendable ∧ ∀ c, contentOf code a = some c → P c

/-- What has been handed over for the code is of one kind. -/
def HandledOnly (code : OptionType) (P : Bytes → Prop) (own : Owned κ) : Prop :=
  ∀ h ∈ own.handled, h.1.code = code → P h.2

variable {A} in
/-- If only contents of one kind are sent for a code, only those are handed over. -/
theorem SendsOnly.keeps_only {code : OptionType} {P : Bytes → Prop} {Allowed : α → Prop}
    (h : A.SendsOnly (contentOf code) P Allowed) (P' : Bytes → Prop) :
    (A.atoms.limit (AppInput.Within Allowed)).Keeps (HandledOnly code P') (Only code P')
      (Only code P) where
  act i own hown := by
    refine ⟨?_, fun b hb => ⟨A.frames.sent_act i.1 own b hb, fun c hc => ?_⟩⟩
    · intro entry hentry
      exact hown entry (A.handled_input i.1 own ▸ hentry)
    · exact h.act i.2 own c (List.mem_filterMap.mpr ⟨b, hb, hc⟩)
  recv _ a ha own hown := by
    refine ⟨?_, fun b hb => ⟨A.frames.sent_recv a own b hb, fun c hc => ?_⟩⟩
    · intro entry hentry hcode
      have hentry : entry ∈ (A.receive Outbox.writeAtoms a.element ⟨own, []⟩).own.handled := hentry
      rw [handled_receive, List.mem_append] at hentry
      rcases hentry with hentry | hentry
      · exact hown entry hentry hcode
      · exact ha.2 entry.2 (hcode ▸ A.contentOf_hands hentry)
    · exact h.recv a own c (List.mem_filterMap.mpr ⟨b, hb, hc⟩)

end Application

/-! ## Two applications -/

namespace SessionNet

variable {α β κ κ' : Type}

/-- What the left application has sent from one net to the other has been handed to
the option at the right, or has come to be on its way to it. -/
def ConveysRight {κ κ' : Type} (id : OptionId) (n m : SessionNet κ κ') : Prop :=
  ∃ during, sees (contentOf id.code) m.left.2 = sees (contentOf id.code) n.left.2 ++ during ∧
    m.right.1.1.handledBy id ++ (m.right.1.2.reads m.toRight).filterMap (contentOf id.code) =
      n.right.1.1.handledBy id ++ (n.right.1.2.reads n.toRight).filterMap (contentOf id.code) ++
        during

def ConveysLeft (id : OptionId) (n m : SessionNet κ κ') : Prop :=
  ConveysRight id (Net.swap n) (Net.swap m)

theorem Reads.conveysRight {n m : SessionNet κ κ'} {n' m' : Atoms κ κ'} (hn : n.Reads n')
    (hm : m.Reads m') {id : OptionId}
    (h : Net.Conveyed (contentOf id.code) Prod.snd (fun s => s.1.handledBy id) n' m') :
    n.ConveysRight id m := by
  obtain ⟨⟨-, hsent, hsendable⟩, ⟨hright, htoRight⟩, -⟩ := hn
  obtain ⟨⟨-, hsent', hsendable'⟩, ⟨hright', htoRight'⟩, -⟩ := hm
  rw [ConveysRight, sees, sees, hsent, hsent', Parser.reads_flatMap hsendable,
    Parser.reads_flatMap hsendable', hright, hright', htoRight.reads, htoRight'.reads]
  exact h

/-- An option and its counterpart are both active, and no negotiation between them is
in flight. -/
def BothActive (id : OptionId) (m : Atoms κ κ') : Prop :=
  m.Carries (fun s => s.1.state id = .active) (fun s => s.1.state id.peer = .active)
    (fun a => a.Sendable ∧ id.notice a = none) (fun a => a.Sendable ∧ id.peer.notice a = none)

theorem BothActive.swap {id : OptionId} {m : Atoms κ κ'} (h : BothActive id m) :
    BothActive id.peer (Net.swap m) := by
  rw [BothActive, id.peer_peer]
  exact Net.Carries.swap h

section Run

variable (A : Application α κ) (B : Application β κ')

/-- Over atoms, from two active options between which no negotiation is in flight. -/
theorem conveyed_run {m : Atoms κ κ'} {id : OptionId} (hstart : BothActive id m)
    (hlast : B.lastInstalled id.code = some id.peer)
    (es : List (NetEvent {i : AppInput α // Application.Stays id i} Unit
      {i : AppInput β // Application.Stays id.peer i} Unit)) :
    Net.Conveyed (contentOf id.peer.code) Prod.snd (fun s => s.1.handledBy id.peer) m
      (run (Net.step (A.atoms.limit (Application.Stays id)).logged
        (B.atoms.limit (Application.Stays id.peer)).logged) m es) := by
  have hkeeps := B.keeps_active id.peer
  have htakes := B.takes_contents id.peer hlast
  rw [id.peer_peer] at hkeeps
  exact Net.Carries.conveyed_run (A.keeps_active id) hkeeps.beside htakes.logged hstart es

theorem conveyed_run_left {m : Atoms κ κ'} {id : OptionId} (hstart : BothActive id m)
    (hlast : A.lastInstalled id.code = some id)
    (es : List (NetEvent {i : AppInput α // Application.Stays id i} Unit
      {i : AppInput β // Application.Stays id.peer i} Unit)) :
    Net.Conveyed (contentOf id.code) Prod.snd (fun s => s.1.handledBy id) m.swap
      (run (Net.step (A.atoms.limit (Application.Stays id)).logged
        (B.atoms.limit (Application.Stays id.peer)).logged) m es).swap := by
  have h := conveyed_run B A hstart.swap
  rw [id.peer_peer] at h
  rw [← Net.run_swap]
  exact h hlast (es.map NetEvent.swap)

variable {A B} in
/-- Between an option and its counterpart that are both active no negotiation is in flight. -/
theorem bothActive_of_state {m : Atoms κ κ'} (hsound : Sound A B m) {id : OptionId}
    (hagreed : Agreed (peers A B id m)) (hleft : m.left.1.state id = .active)
    (hright : m.right.1.state id.peer = .active) :
    BothActive id m := by
  have hmodeLeft : (peers A B id m).left.mode? = some true :=
    (Endpoint.mode?_stance (fun h => hsound.left id (of_decide_eq_false h)) true).mpr hleft
  have hmodeRight : (peers A B id m).right.mode? = some true :=
    (Endpoint.mode?_stance (fun h => hsound.right id.peer (of_decide_eq_false h)) true).mpr hright
  obtain ⟨htoLeft, htoRight⟩ := hagreed.settled hmodeLeft hmodeRight
  exact ⟨hleft, hright,
    fun a ha => ⟨hsound.toLeft a ha, List.filterMap_eq_nil_iff.mp htoLeft a ha⟩,
    fun a ha => ⟨hsound.toRight a ha, List.filterMap_eq_nil_iff.mp htoRight a ha⟩⟩

section BothActive

variable {x : κ} {y : κ'} {es₁ es₂ : List (SessionEvent α β)} {id : OptionId}
variable (hleft : (run (step A B) (start x y) es₁).left.1.1.state id = .active)
variable (hright : (run (step A B) (start x y) es₁).right.1.1.state id.peer = .active)
variable (hstays : ∀ e ∈ es₂, e.Meets (Application.Stays id) (Application.Stays id.peer))

include hleft hright hstays

/-- Two active options that are not deactivated, over atoms. -/
theorem exists_bothActive :
    let n := run (step A B) (start x y) es₁
    ∃ (m : Atoms κ κ') (es : List (NetEvent {i : AppInput α // Application.Stays id i} Unit
        {i : AppInput β // Application.Stays id.peer i} Unit)),
      let m' := run (Net.step (A.atoms.limit (Application.Stays id)).logged
        (B.atoms.limit (Application.Stays id.peer)).logged) m es
      n.Reads m ∧ Reads (run (step A B) n es₂) m' ∧ BothActive id m ∧ BothActive id m' := by
  intro n
  obtain ⟨es, hn⟩ := reads_run (A := A) (B := B) (reads_start x y) es₁
  let m := run (Atoms.step A B) (Atoms.start x y) es
  have hsound : Sound A B m := run_invariant _ (fun _ e h => h.step e) (sound_start x y) es
  have hagreed : Agreed (peers A B id m) := agreed_run (sound_start x y) (agreed_start x y id) es
  have hactive := bothActive_of_state hsound hagreed (hn.1.1.1 ▸ hleft) (hn.2.1.1 ▸ hright)
  obtain ⟨es₂', rfl⟩ := NetEvent.exists_widen hstays
  obtain ⟨es', hm⟩ := framed_run
    (A.frames.logged.limit (L := Application.Stays id))
    (B.frames.logged.limit (L := Application.Stays id.peer)) hn es₂'
  rw [← Net.run_streamStep_widen] at hm
  have hkeeps := B.keeps_active id.peer
  rw [id.peer_peer] at hkeeps
  have hend : BothActive id _ :=
    Net.Carries.throughout (A.keeps_active id).beside hkeeps.beside hactive es'
  exact ⟨m, es', hn, hm, hactive, hend⟩

theorem stays_active :
    let m := run (step A B) (run (step A B) (start x y) es₁) es₂
    m.left.1.1.state id = .active ∧ m.right.1.1.state id.peer = .active := by
  obtain ⟨n', es, -, hm, -, hend⟩ := exists_bothActive A B hleft hright hstays
  exact ⟨(congrArg (fun own => own.state id) hm.1.1.1).trans hend.left,
    (congrArg (fun own => own.state id.peer) hm.2.1.1).trans hend.right⟩

theorem conveysRight_of_bothActive (hlast : B.lastInstalled id.code = some id.peer) :
    let n := run (step A B) (start x y) es₁
    ConveysRight id.peer n (run (step A B) n es₂) := by
  obtain ⟨n', es, hn, hm, hactive, -⟩ := exists_bothActive A B hleft hright hstays
  exact hn.conveysRight hm (conveyed_run A B hactive hlast es)

theorem conveysLeft_of_bothActive (hlast : A.lastInstalled id.code = some id) :
    let n := run (step A B) (start x y) es₁
    ConveysLeft id n (run (step A B) n es₂) := by
  obtain ⟨n', es, hn, hm, hactive, -⟩ := exists_bothActive A B hleft hright hstays
  exact hn.swap.conveysRight hm.swap (conveyed_run_left A B hactive hlast es)

end BothActive

variable {A B} in
/-- Contents of the code that are on their way or have been handed over are of the
kind that is sent. -/
theorem only_run {code : OptionType} {P P' : Bytes → Prop} {L : α → Prop} {R : β → Prop}
    (hA : A.SendsOnly (contentOf code) P L) (hB : B.SendsOnly (contentOf code) P' R)
    (x : κ) (y : κ') {es : List (SessionEvent α β)}
    (hes : ∀ e ∈ es, e.Meets (AppInput.Within L) (AppInput.Within R)) :
    (run (step A B) (start x y) es).Carries (Application.HandledOnly code P')
      (Application.HandledOnly code P) (Application.Only code P') (Application.Only code P) :=
  carries_run (hA.keeps_only P') (hB.keeps_only P) (List.forall_mem_nil _) (List.forall_mem_nil _)
    hes

/-- In every run of two applications, from a state in which an option and its
counterpart are both active on, as long as neither is deactivated: both stay
active, and what is written for their code at one end is handed to the option
that it is routed to at the other, each content once and in order. -/
theorem run_conveys (x : κ) (y : κ') (es₁ es₂ : List (SessionEvent α β)) (id : OptionId)
    (hleft : (run (step A B) (start x y) es₁).left.1.1.state id = .active)
    (hright : (run (step A B) (start x y) es₁).right.1.1.state id.peer = .active)
    (hstays : ∀ e ∈ es₂, e.Meets (Application.Stays id) (Application.Stays id.peer)) :
    let n := run (step A B) (start x y) es₁
    let m := run (step A B) n es₂
    (m.left.1.1.state id = .active ∧ m.right.1.1.state id.peer = .active) ∧
      (B.lastInstalled id.code = some id.peer → ConveysRight id.peer n m) ∧
      (A.lastInstalled id.code = some id → ConveysLeft id n m) :=
  ⟨stays_active A B hleft hright hstays, conveysRight_of_bothActive A B hleft hright hstays,
    conveysLeft_of_bothActive A B hleft hright hstays⟩

end Run

/-- A content is sent to an option that has been activated and accepted. -/
theorem run_conveys_content :
    let A := Application.terminal [⟨.client, 24⟩]
    let B := Application.terminal [⟨.server, 24⟩]
    let n := run (step A B) (start [] [])
      [.actLeft (.call ⟨.client, 24⟩ .activate), .deliverRight 3, .deliverLeft 3]
    ConveysRight ⟨.server, 24⟩ n (run (step A B) n
      [.actLeft (.request (.subnegotiation 24 [1])), .deliverRight 6]) :=
  (run_conveys (Application.terminal [⟨.client, 24⟩]) (Application.terminal [⟨.server, 24⟩]) [] []
    [.actLeft (.call ⟨.client, 24⟩ .activate), .deliverRight 3, .deliverLeft 3]
    [.actLeft (.request (.subnegotiation 24 [1])), .deliverRight 6] ⟨.client, 24⟩ rfl rfl
    (by simp [NetEvent.Meets, Application.Stays])).2.1 rfl

end SessionNet

end Telnetpp
