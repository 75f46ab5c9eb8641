import Telnetpp.Ends
import Telnetpp.Foundation.Budget
import Telnetpp.Negotiation.Agreement

/-!
# Whole sessions agree on every option

Two applications with any options and any handlers, joined by two streams of
bytes. Of the elements that pass between them those of one option at one end
and of its counterpart at the other are a negotiation of their own, so what
holds of two ends of one option holds of every option of two sessions.
-/

namespace Telnetpp

open Foundation ModeAgreement

namespace OptionId

/-- The option at the other end of the link. -/
def peer (id : OptionId) : OptionId := ⟨id.half.other, id.code⟩

@[simp] theorem peer_peer (id : OptionId) : id.peer.peer = id := by
  rcases id with ⟨half, code⟩
  cases half <;> rfl

/-- What the option writes is what its counterpart owns. -/
theorem writes_iff (id : OptionId) (neg : Negotiation) :
    id.Writes (.negotiation neg) ↔ id.peer.Owns neg := by
  rcases id with ⟨half, code⟩
  cases half <;>
    simp [Writes, Owns, peer, Half.other, Half.traits, clientTraits, serverTraits]

theorem owns_modeRequest (id : OptionId) (m : Bool) :
    id.Owns ⟨Endpoint.modeRequest id.half m, id.code⟩ := by
  cases m with
  | false => exact Or.inr rfl
  | true => exact Or.inl rfl

/-- What an atom means to the option, if it is one of its negotiations. -/
def notice (id : OptionId) : Atom → Option Notice
  | .token (.negotiation neg) =>
      if id.Owns neg then some (Endpoint.notice id.half id.code (.negotiation neg)) else none
  | _ => none

theorem notice_eq_some {id : OptionId} {a : Atom} {m : Notice} (h : id.notice a = some m) :
    ∃ mode, m = .mode mode ∧
      a = .token (.negotiation ⟨Endpoint.modeRequest id.half mode, id.code⟩) := by
  unfold notice at h
  split at h
  · next neg =>
      split at h
      · next howns =>
          rcases howns with rfl | rfl
          · refine ⟨true, ?_, rfl⟩
            rw [← Option.some.inj h, Endpoint.notice_remotePositive]
          · refine ⟨false, ?_, rfl⟩
            rw [← Option.some.inj h, Endpoint.notice_remoteNegative]
      · exact absurd h (by simp)
  · exact absurd h (by simp)

theorem notice_negotiation {id : OptionId} {neg : Negotiation} (h : id.Owns neg) :
    id.notice (.token (.negotiation neg)) =
      some (Endpoint.notice id.half id.code (.negotiation neg)) := if_pos h

theorem notice_eq_none {id : OptionId} {neg : Negotiation} (h : ¬ id.Owns neg) :
    id.notice (.token (.negotiation neg)) = none := if_neg h

theorem notice_localPositive (id : OptionId) :
    id.peer.notice (.token (.negotiation ⟨id.half.traits.localPositive, id.code⟩)) =
      some (.mode true) := by
  rw [notice_negotiation ((id.writes_iff _).mp (Or.inl rfl))]
  exact congrArg some (Endpoint.notice_localPositive id.half id.code)

theorem notice_localNegative (id : OptionId) :
    id.peer.notice (.token (.negotiation ⟨id.half.traits.localNegative, id.code⟩)) =
      some (.mode false) := by
  rw [notice_negotiation ((id.writes_iff _).mp (Or.inr rfl))]
  exact congrArg some (Endpoint.notice_localNegative id.half id.code)

end OptionId

def AppInput.isCallOn {α : Type} (id : OptionId) : AppInput α → Bool
  | .call id' _ => decide (id' = id)
  | .request _ => false

namespace Application

variable {α κ : Type} (A : Application α κ)

/-! ## One option of an application -/

/-- The state of an option, and its counterpart's notices of what has been written. -/
def aspect (id : OptionId) (w : Outbox (Owned κ) Atom) : InternalState × List Notice :=
  (w.own.state id, w.written.filterMap id.peer.notice)

theorem aspect_write (id : OptionId) (elem : Element) (w : Outbox (Owned κ) Atom) :
    aspect id (Outbox.writeAtoms elem w) =
      (w.own.state id, w.written.filterMap id.peer.notice ++
        elem.atoms.filterMap id.peer.notice) := by
  rw [aspect, Outbox.writeAtoms, List.filterMap_append]

/-- An element is seen by the counterpart only if the option writes it. -/
theorem filterMap_notice {id : OptionId} {elem : Element} (h : ¬ id.Writes elem) :
    elem.atoms.filterMap id.peer.notice = [] := by
  cases elem with
  | bytes data => simp [OptionId.notice]
  | negotiation neg =>
      rw [id.writes_iff] at h
      simp [Element.atoms, OptionId.notice_eq_none h]
  | _ => simp [Element.atoms, OptionId.notice]

theorem aspect_write_unseen {id : OptionId} {elem : Element} (h : ¬ id.Writes elem)
    (w : Outbox (Owned κ) Atom) : aspect id (Outbox.writeAtoms elem w) = aspect id w := by
  rw [aspect_write, filterMap_notice h, List.append_nil]
  rfl

theorem lasting_aspect (id : OptionId) (v : InternalState × List Notice) :
    Lasting (κ := κ) Outbox.writeAtoms fun w => aspect id w = v where
  app _ _ _ hw := hw
  message m w hw := by
    have hwrites : ¬ id.Writes m.elem := by
      rintro (h | h)
      · exact m.notNegotiation _ h
      · exact m.notNegotiation _ h
    exact (aspect_write_unseen hwrites w).trans hw

/-- What another option does is not seen. -/
theorem keeps_aspect {id id' : OptionId} (hne : id' ≠ id) (v : InternalState × List Notice) :
    (A.option Outbox.writeAtoms id').Keeps fun w => aspect id w = v := by
  have hunseen {elem : Element} (h : id'.Writes elem) : ¬ id.Writes elem :=
    fun h' => hne (OptionId.writes_unique h h')
  apply (lasting_aspect id v).keeps
  · intro st w hw
    rw [← hw]
    simp [aspect, option, hne.symm]
  · exact fun w hw => (aspect_write_unseen (hunseen (Or.inl rfl)) w).trans hw
  · exact fun w hw => (aspect_write_unseen (hunseen (Or.inr rfl)) w).trans hw
  · exact fun _ _ hw => hw

section Own

variable (id : OptionId) (w : Outbox (Owned κ) Atom)

theorem aspect_perform (handler : Handler κ) :
    aspect id (perform Outbox.writeAtoms handler w) = aspect id w :=
  (lasting_aspect id (aspect id w)).perform handler rfl

theorem aspect_onStateChanged :
    aspect id ((A.option Outbox.writeAtoms id).onStateChanged w) = aspect id w :=
  aspect_perform id w _

theorem aspect_setState (st : InternalState) :
    aspect id ((A.option Outbox.writeAtoms id).setState st w) = (st, (aspect id w).2) := by
  simp [aspect, option]

theorem aspect_writePositive :
    aspect id ((A.option Outbox.writeAtoms id).writeNegotiation id.half.traits.localPositive w) =
      ((aspect id w).1, (aspect id w).2 ++ [.mode true]) := by
  have hseen : (Element.negotiation ⟨id.half.traits.localPositive, id.code⟩).atoms.filterMap
      id.peer.notice = [.mode true] := List.filterMap_cons_some (OptionId.notice_localPositive id)
  apply (aspect_write id _ w).trans
  exact congrArg (fun notices => (_, _ ++ notices)) hseen

theorem aspect_writeNegative :
    aspect id ((A.option Outbox.writeAtoms id).writeNegotiation id.half.traits.localNegative w) =
      ((aspect id w).1, (aspect id w).2 ++ [.mode false]) := by
  have hseen : (Element.negotiation ⟨id.half.traits.localNegative, id.code⟩).atoms.filterMap
      id.peer.notice = [.mode false] := List.filterMap_cons_some (OptionId.notice_localNegative id)
  apply (aspect_write id _ w).trans
  exact congrArg (fun notices => (_, _ ++ notices)) hseen

/-- The option takes a request for a mode as a peer does. -/
theorem aspect_negotiate (m : Bool) (own : Owned κ) :
    let r := aspect id ((A.option Outbox.writeAtoms id).negotiate
      (Endpoint.modeRequest id.half m) ⟨own, []⟩)
    ModeAgreement.receive .quiet (.mode m) (Endpoint.stance true (own.state id)) =
      (Endpoint.stance true r.1, r.2) := by
  intro r
  have hne := (Endpoint.remotePositive_ne id.half).symm
  have hstart : aspect id ⟨own, []⟩ = (own.state id, []) := rfl
  have hstate : (A.option Outbox.writeAtoms id).state ⟨own, []⟩ = own.state id := rfl
  cases m <;> cases hs : own.state id <;>
    simp [r, TelnetOption.negotiate, hstate, hs, Endpoint.modeRequest, hne, hstart,
      aspect_onStateChanged, aspect_setState, aspect_writePositive, aspect_writeNegative,
      Endpoint.stance, ModeAgreement.receive]

/-- A call is a request of the peer, or nothing. -/
theorem aspect_call (c : Call) (own : Owned κ) :
    let r := aspect id ((A.option Outbox.writeAtoms id).call c ⟨own, []⟩)
    (Endpoint.stance true r.1 = Endpoint.stance true (own.state id) ∧ r.2 = []) ∨
      ModeAgreement.request (Endpoint.stance true (own.state id)) =
        (Endpoint.stance true r.1, r.2) := by
  intro r
  have hstart : aspect id ⟨own, []⟩ = (own.state id, []) := rfl
  have hstate : (A.option Outbox.writeAtoms id).state ⟨own, []⟩ = own.state id := rfl
  cases c <;> cases hs : own.state id <;>
    simp [r, TelnetOption.call, TelnetOption.activate, TelnetOption.deactivate, hstate, hs, hstart,
      aspect_onStateChanged, aspect_setState, aspect_writePositive, aspect_writeNegative,
      Endpoint.stance, ModeAgreement.request]

end Own

section Seen

variable (id : OptionId) (own : Owned κ)

/-- An input that is no call on the option is not seen. -/
theorem aspect_input (i : AppInput α) (h : ∀ c, i = .call id c → id ∉ A.options) :
    aspect id (A.input Outbox.writeAtoms i ⟨own, []⟩) = (own.state id, []) := by
  cases i with
  | call id' c =>
      rw [input]
      split
      · next hid' =>
          have hne : id' ≠ id := by
            rintro rfl
            exact h c rfl hid'
          exact (A.keeps_aspect hne _).call c rfl
      · rfl
  | request i => exact aspect_perform id _ _

/-- Nor is an element that is not a negotiation of the option. -/
theorem aspect_receive {a : Atom} (ha : a.Sendable) (h : id.notice a = none) :
    aspect id (A.receive Outbox.writeAtoms a.element ⟨own, []⟩) = (own.state id, []) := by
  have hlasting := lasting_aspect (κ := κ) id (own.state id, [])
  have howns {neg : Negotiation} (hneg : a = .token (.negotiation neg)) : ¬ id.Owns neg := by
    intro howns
    rw [hneg, OptionId.notice_negotiation howns] at h
    exact Option.some_ne_none _ h
  apply A.receive_atom_cases Outbox.writeAtoms ⟨own, []⟩ ha
    (P := fun w => aspect id w = (own.state id, [])) rfl
  · exact fun _ _ => hlasting.perform _ rfl
  · exact fun _ _ => hlasting.perform _ rfl
  · intro id' _ neg hneg howns'
    have hne : id' ≠ id := by
      rintro rfl
      exact howns hneg howns'
    exact (A.keeps_aspect hne _).negotiate neg.request rfl
  · rintro neg rfl _
    exact aspect_write_unseen
      (fun hwrites => howns rfl (OptionId.owns_of_writes_refusal ha.1 hwrites)) _
  · intro id' sub _ _
    rw [TelnetOption.subnegotiate]
    split
    · exact hlasting.perform _ rfl
    · rfl

/-- A session without the option refuses for it. -/
theorem aspect_refusal (hid : id ∉ A.options) (m : Bool) :
    aspect id (A.receive Outbox.writeAtoms
        (.negotiation ⟨Endpoint.modeRequest id.half m, id.code⟩) ⟨own, []⟩) =
      (own.state id, [.mode false]) := by
  have hunowned : ∀ id' ∈ A.options, ¬ id'.Owns ⟨Endpoint.modeRequest id.half m, id.code⟩ :=
    fun id' hid' howns' => hid (OptionId.owns_unique (id.owns_modeRequest m) howns' ▸ hid')
  rw [A.receive_unowned _ _ hunowned, Endpoint.refusal_modeRequest]
  exact A.aspect_writeNegative id ⟨own, []⟩

/-- What is seen of an application through one option is one end of a negotiation. -/
theorem projects_peer : A.atoms.Projects quietPeer
    (fun own => Endpoint.stance (decide (id ∈ A.options)) (own.state id)) id.notice id.peer.notice
    (fun _ => True) Atom.Sendable where
  act i own _ := by
    by_cases hcall : ∃ c, i = .call id c ∧ id ∈ A.options
    · obtain ⟨c, rfl, hid⟩ := hcall
      have hact := A.aspect_call id c own
      have hinput : A.input Outbox.writeAtoms (.call id c) ⟨own, []⟩ =
          (A.option Outbox.writeAtoms id).call c ⟨own, []⟩ := if_pos hid
      rw [← hinput] at hact
      rw [decide_eq_true hid]
      rcases hact with hnothing | hrequest
      · exact Or.inl hnothing
      · exact Or.inr ⟨(), hrequest⟩
    · push Not at hcall
      have hinput := A.aspect_input id own i hcall
      left
      exact ⟨congrArg (fun v => Endpoint.stance _ v.1) hinput, congrArg Prod.snd hinput⟩
  unseen _ a ha hnone own _ := by
    have hrecv := A.aspect_receive id own ha hnone
    exact ⟨congrArg (fun v => Endpoint.stance _ v.1) hrecv, congrArg Prod.snd hrecv⟩
  seen _ a m _ hsome own _ := by
    obtain ⟨mode, rfl, rfl⟩ := OptionId.notice_eq_some hsome
    refine ⟨(), ?_⟩
    by_cases hid : id ∈ A.options
    · have hrecv := A.receive_owned Outbox.writeAtoms ⟨own, []⟩ hid (id.owns_modeRequest mode)
      have hnegotiate := A.aspect_negotiate id mode own
      rw [← hrecv] at hnegotiate
      rw [decide_eq_true hid]
      exact hnegotiate
    · have hrefusal := A.aspect_refusal id own hid mode
      have hrefuse : quietPeer.recv () (.mode mode) (Endpoint.stance false (own.state id)) =
          (Endpoint.stance false (own.state id), [.mode false]) := rfl
      rw [decide_eq_false hid]
      apply hrefuse.trans
      exact congrArg (fun v => (Endpoint.stance false v.1, v.2)) hrefusal.symm

theorem ignores {id : OptionId} {i : AppInput α} (hi : i.isCallOn id = false) :
    A.atoms.Ignores (fun own => Endpoint.stance (decide (id ∈ A.options)) (own.state id))
      id.peer.notice (fun _ => True) i := by
  intro own _
  have hinput := A.aspect_input id own i fun c hc => absurd hi (by simp [hc, AppInput.isCallOn])
  exact ⟨congrArg (fun v => Endpoint.stance _ v.1) hinput, congrArg Prod.snd hinput⟩

/-- Options that are not installed stay inactive. -/
def Absent (own : Owned κ) : Prop := ∀ id ∉ A.options, own.state id = .inactive

theorem keeps_absent : A.atoms.Keeps A.Absent Atom.Sendable Atom.Sendable where
  act i own hown := by
    refine ⟨fun id hid => ?_, A.frames.sent_act i own⟩
    have hinput := A.aspect_input id own i fun _ _ => hid
    exact (congrArg Prod.fst hinput).trans (hown id hid)
  recv _ a ha own hown := by
    refine ⟨fun id hid => ?_, A.frames.sent_recv a own⟩
    cases hnotice : id.notice a with
    | none => exact (congrArg Prod.fst (A.aspect_receive id own ha hnotice)).trans (hown id hid)
    | some m =>
        obtain ⟨mode, -, rfl⟩ := OptionId.notice_eq_some hnotice
        exact (congrArg Prod.fst (A.aspect_refusal id own hid mode)).trans (hown id hid)

end Seen

end Application

/-! ## Two applications -/

/-- All bytes that an application has sent are kept beside it. -/
abbrev SessionNet (κ κ' : Type) :=
  Net Byte Byte ((Owned κ × Parser) × Bytes) ((Owned κ' × Parser) × Bytes)

/-- A delivery is of some number of bytes. -/
abbrev SessionEvent (α β : Type) := NetEvent (AppInput α) ℕ (AppInput β) ℕ

namespace SessionNet

variable {α β κ κ' : Type} (A : Application α κ) (B : Application β κ')

def step (n : SessionNet κ κ') (e : SessionEvent α β) : SessionNet κ κ' :=
  n.streamStep A.bytes.logged B.bytes.logged e

def start (x : κ) (y : κ') : SessionNet κ κ' :=
  ⟨(({ app := x }, {}), []), (({ app := y }, {}), []), [], []⟩

/-- The same net over atoms. -/
abbrev Atoms (κ κ' : Type) := Net Atom Atom (Owned κ × List Atom) (Owned κ' × List Atom)

def Atoms.start (x : κ) (y : κ') : Atoms κ κ' := ⟨({ app := x }, []), ({ app := y }, []), [], []⟩

def Atoms.step (m : Atoms κ κ') (e : NetEvent (AppInput α) Unit (AppInput β) Unit) : Atoms κ κ' :=
  Net.step A.atoms.logged B.atoms.logged m e

/-- An end owns the same over bytes and over atoms, its stream is read as the
atoms on their way to it, and what it has sent is what it has sent as atoms. -/
def Follows (s' : (Owned κ × Parser) × Bytes) (data : Bytes) (s : Owned κ × List Atom)
    (atoms : List Atom) : Prop :=
  (s'.1.1 = s.1 ∧ s'.1.2.Continues data atoms) ∧ s'.2 = s.2.flatMap Parser.atomWire ∧
    ∀ a ∈ s.2, a.Sendable

def Reads (n : SessionNet κ κ') (m : Atoms κ κ') : Prop := Framed Follows Follows n m

theorem reads_start (x : κ) (y : κ') : (start x y).Reads (Atoms.start x y) := by
  have hempty : ∀ a ∈ ([] : List Atom), a.Sendable := List.forall_mem_nil _
  exact ⟨⟨⟨rfl, Parser.continues_fresh⟩, rfl, hempty⟩, ⟨rfl, Parser.continues_fresh⟩, rfl, hempty⟩

theorem reads_run {n : SessionNet κ κ'} {m : Atoms κ κ'} (h : n.Reads m)
    (es : List (SessionEvent α β)) :
    ∃ es', (run (step A B) n es).Reads (run (Atoms.step A B) m es') :=
  framed_run A.frames.logged B.frames.logged h es

/-! ## One option of two applications -/

def Sound (m : Atoms κ κ') : Prop :=
  m.Carries (fun s => A.Absent s.1) (fun s => B.Absent s.1) Atom.Sendable Atom.Sendable

variable {A B}

theorem sound_start (x : κ) (y : κ') : Sound A B (Atoms.start x y) :=
  ⟨fun _ _ => rfl, fun _ _ => rfl, List.forall_mem_nil _, List.forall_mem_nil _⟩

theorem Sound.step {m : Atoms κ κ'} (h : Sound A B m)
    (e : NetEvent (AppInput α) Unit (AppInput β) Unit) : Sound A B (Atoms.step A B m e) :=
  Net.Carries.step A.keeps_absent.beside B.keeps_absent.beside h e

variable (A B) in
/-- What is seen of the net through an option and its counterpart. -/
def peers (id : OptionId) (m : Atoms κ κ') : PeerNet :=
  m.project (fun s => Endpoint.stance (decide (id ∈ A.options)) (s.1.state id))
    (fun s => Endpoint.stance (decide (id.peer ∈ B.options)) (s.1.state id.peer))
    id.notice id.peer.notice

theorem peers_run {m : Atoms κ κ'} (h : Sound A B m) (id : OptionId)
    (es : List (NetEvent (AppInput α) Unit (AppInput β) Unit)) :
    ∃ es₁ : List (NetEvent Unit Unit Unit Unit), es₁.countP NetEvent.isAct ≤
        es.countP (NetEvent.isInput (AppInput.isCallOn id) (AppInput.isCallOn id.peer)) ∧
      peers A B id (run (Atoms.step A B) m es) = run quietStep (peers A B id m) es₁ := by
  have hleft := (A.projects_peer id).logged (J := fun s => A.Absent s.1) fun _ _ => trivial
  have hright := (B.projects_peer id.peer).logged (J := fun s => B.Absent s.1) fun _ _ => trivial
  have hignored (i : AppInput β) (hi : i.isCallOn id.peer = false) := B.ignores hi
  simp only [id.peer_peer] at hright hignored
  exact Net.Carries.project_run_counted hleft hright A.keeps_absent.beside
    B.keeps_absent.beside (fun i hi s _ => A.ignores hi s.1 trivial)
    (fun i hi s _ => hignored i hi s.1 trivial) h es

theorem agreed_run {m : Atoms κ κ'} (h : Sound A B m) {id : OptionId}
    (hagreed : Agreed (peers A B id m)) (es : List (NetEvent (AppInput α) Unit (AppInput β) Unit)) :
    Agreed (peers A B id (run (Atoms.step A B) m es)) := by
  obtain ⟨es₁, -, hpeers⟩ := peers_run h id es
  rw [hpeers]
  exact run_invariant quietStep (fun _ e h => h.quiet_step e) hagreed es₁

theorem agreed_start (x : κ) (y : κ') (id : OptionId) :
    Agreed (peers A B id (Atoms.start x y)) := by
  simp only [peers, Net.project, Atoms.start]
  cases decide (id ∈ A.options) <;> cases decide (id.peer ∈ B.options) <;> exact ⟨rfl, rfl, rfl⟩

end SessionNet

/-- The negotiations among the atoms that are bound for the option. -/
def OptionId.bound (id : OptionId) (atoms : List Atom) : List Notice := atoms.filterMap id.notice

namespace SessionNet

open Endpoint

variable {α β κ κ' : Type}

/-- The negotiations in flight towards the option. -/
def noticesLeft (id : OptionId) (n : SessionNet κ κ') : List Notice :=
  id.bound (n.left.1.2.reads n.toLeft)

/-- The negotiations in flight towards its counterpart. -/
def noticesRight (id : OptionId) (n : SessionNet κ κ') : List Notice :=
  id.peer.bound (n.right.1.2.reads n.toRight)

section Observed

variable {A : Application α κ} {B : Application β κ'} {id : OptionId}

/-- What is seen of the bytes through an option and its counterpart is two ends that agree. -/
def Observed (A : Application α κ) (B : Application β κ') (id : OptionId) (n : SessionNet κ κ')
    (p : PeerNet) : Prop :=
  ∃ m, n.Reads m ∧ Sound A B m ∧ peers A B id m = p ∧ Agreed p

theorem observed_start (A : Application α κ) (B : Application β κ') (id : OptionId) (x : κ)
    (y : κ') : Observed A B id (start x y) (peers A B id (Atoms.start x y)) :=
  ⟨_, reads_start x y, sound_start x y, rfl, agreed_start x y id⟩

variable {n : SessionNet κ κ'} {p : PeerNet}

theorem Observed.agreed (h : Observed A B id n p) : Agreed p := by
  obtain ⟨m, -, -, -, hagreed⟩ := h
  exact hagreed

/-- Only a call on the option is an input of what is seen. -/
theorem Observed.run (h : Observed A B id n p) (es : List (SessionEvent α β)) :
    ∃ es₁ : List (NetEvent Unit Unit Unit Unit), es₁.countP NetEvent.isAct ≤
        es.countP (NetEvent.isInput (AppInput.isCallOn id) (AppInput.isCallOn id.peer)) ∧
      Observed A B id (run (step A B) n es) (run quietStep p es₁) := by
  obtain ⟨m, hreads, hsound, rfl, hagreed⟩ := h
  obtain ⟨es', hcount, hreads'⟩ := framed_run_counted A.frames.logged B.frames.logged hreads
    (AppInput.isCallOn id) (AppInput.isCallOn id.peer) es
  obtain ⟨es₁, hcount₁, hpeers⟩ := peers_run hsound id es'
  have hagreed' := agreed_run hsound hagreed es'
  refine ⟨es₁, Nat.le_trans hcount₁ hcount, _, hreads', ?_, hpeers, hpeers ▸ hagreed'⟩
  exact run_invariant _ (fun _ e h => h.step e) hsound es'

theorem Observed.toLeft (h : Observed A B id n p) : noticesLeft id n = p.toLeft := by
  obtain ⟨m, ⟨⟨⟨-, htoLeft⟩, -⟩, -⟩, -, rfl, -⟩ := h
  exact congrArg id.bound htoLeft.reads

theorem Observed.toRight (h : Observed A B id n p) : noticesRight id n = p.toRight := by
  obtain ⟨m, ⟨-, ⟨-, htoRight⟩, -⟩, -, rfl, -⟩ := h
  exact congrArg id.peer.bound htoRight.reads

theorem Observed.sendable (h : Observed A B id n p) :
    (∀ a ∈ n.left.1.2.reads n.toLeft, a.Sendable) ∧
      ∀ a ∈ n.right.1.2.reads n.toRight, a.Sendable := by
  obtain ⟨m, ⟨⟨⟨-, htoLeft⟩, -⟩, ⟨-, htoRight⟩, -⟩, hsound, -, -⟩ := h
  rw [htoLeft.reads, htoRight.reads]
  exact ⟨hsound.toLeft, hsound.toRight⟩

theorem Observed.left_mode (h : Observed A B id n p) (mode : Bool) :
    p.left.mode? = some mode ↔ n.left.1.1.state id = settledState mode := by
  obtain ⟨m, ⟨⟨⟨hleft, -⟩, -⟩, -⟩, hsound, rfl, -⟩ := h
  rw [hleft]
  exact mode?_stance (fun habsent => hsound.left id (of_decide_eq_false habsent)) mode

theorem Observed.right_mode (h : Observed A B id n p) (mode : Bool) :
    p.right.mode? = some mode ↔ n.right.1.1.state id.peer = settledState mode := by
  obtain ⟨m, ⟨-, ⟨hright, -⟩, -⟩, hsound, rfl, -⟩ := h
  rw [hright]
  exact mode?_stance (fun habsent => hsound.right id.peer (of_decide_eq_false habsent)) mode

theorem Observed.installed (h : Observed A B id n p) :
    (n.left.1.1.state id = .active → id ∈ A.options) ∧
      (n.right.1.1.state id.peer = .active → id.peer ∈ B.options) := by
  obtain ⟨m, ⟨⟨⟨hleft, -⟩, -⟩, ⟨hright, -⟩, -⟩, hsound, -, -⟩ := h
  have hne : InternalState.active ≠ .inactive := by decide
  rw [hleft, hright]
  constructor
  · intro hactive
    by_contra habsent
    exact hne (hactive.symm.trans (hsound.left id habsent))
  · intro hactive
    by_contra habsent
    exact hne (hactive.symm.trans (hsound.right id.peer habsent))

/-- When no negotiation is in flight, both options are settled on one mode. -/
theorem Observed.settled (h : Observed A B id n p) (htoLeft : noticesLeft id n = [])
    (htoRight : noticesRight id n = []) :
    ∃ mode, n.left.1.1.state id = settledState mode ∧
      n.right.1.1.state id.peer = settledState mode := by
  rw [h.toLeft] at htoLeft
  rw [h.toRight] at htoRight
  obtain ⟨mode, hmode, hmode'⟩ := h.agreed.quiescent htoLeft htoRight
  exact ⟨mode, (h.left_mode mode).mp hmode, (h.right_mode mode).mp hmode'⟩

end Observed

/-- In every run of two applications, cut and interleaved in any way, and for
every option and its counterpart: at most two of their negotiations are in
flight; when none is, both are inactive or both are active and installed; and
neither is asked for the state that it is in. -/
theorem run_agreed (A : Application α κ) (B : Application β κ') (x : κ) (y : κ')
    (es : List (SessionEvent α β)) (id : OptionId) :
    let n := run (step A B) (start x y) es
    let toLeft := id.bound (n.left.1.2.reads n.toLeft)
    let toRight := id.peer.bound (n.right.1.2.reads n.toRight)
    toLeft.length + toRight.length ≤ 2 ∧
      (toLeft = [] → toRight = [] →
        (n.left.1.1.state id = .inactive ∧ n.right.1.1.state id.peer = .inactive) ∨
          (n.left.1.1.state id = .active ∧ n.right.1.1.state id.peer = .active ∧
            id ∈ A.options ∧ id.peer ∈ B.options)) ∧
      (∀ m, n.left.1.1.state id = settledState m → toLeft.head? ≠ some (.mode m)) ∧
      ∀ m, n.right.1.1.state id.peer = settledState m → toRight.head? ≠ some (.mode m) := by
  intro n toLeft toRight
  obtain ⟨es', -, h⟩ := (observed_start A B id x y).run es
  have hlinkLeft : toLeft = _ := h.toLeft
  have hlinkRight : toRight = _ := h.toRight
  refine ⟨?_, ?_, ?_⟩
  · rw [hlinkLeft, hlinkRight]
    exact h.agreed.length_inFlight
  · intro hl hr
    obtain ⟨mode, hleft, hright⟩ := h.settled hl hr
    cases mode with
    | false => exact Or.inl ⟨hleft, hright⟩
    | true => exact Or.inr ⟨hleft, hright, h.installed.1 hleft, h.installed.2 hright⟩
  rw [hlinkLeft, hlinkRight]
  refine ⟨?_, ?_⟩
  · exact fun mode hmode => h.agreed.not_asked_left ((h.left_mode mode).mpr hmode)
  · exact fun mode hmode => h.agreed.not_asked_right ((h.right_mode mode).mpr hmode)

end SessionNet

end Telnetpp
