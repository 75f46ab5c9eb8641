import Telnetpp.Rot13.Connection

/-!
# The terminal type is announced

A connection asks for the terminal type whenever its option becomes active.
Beside an end that answers, everything that waits for the type is called with
it, once, whatever else happens on the way.
-/

namespace Telnetpp.Rot13

open Foundation ModeAgreement SessionNet

def terminalTypeServer : OptionId := ⟨.server, TerminalType.option⟩

/-- The content of a message about the terminal type. -/
def typeContent : Atom → Option Bytes := contentOf TerminalType.option

/-- The type that a message announces, if it announces one. -/
def announcement (a : Atom) : Option Bytes := (typeContent a).bind TerminalType.terminalType?

/-- A content that announces a type announces this one. -/
def NamesOnly (name content : Bytes) : Prop :=
  ∀ type, TerminalType.terminalType? content = some type → type = name

/-- The application answers to a request for its terminal type, and announces no other type. -/
structure Names {α κ : Type} (A : Application α κ) (name : Bytes) : Prop where
  installed : A.lastInstalled TerminalType.option = some terminalTypeServer
  sends : A.SendsOnly typeContent (NamesOnly name) fun _ => True
  answers : ∀ states app, TerminalType.is :: name ∈ FreeElement.seen typeContent
    (A.handleSubnegotiation terminalTypeServer [TerminalType.send] states app).2

/-- The request of the connection, as it is sent. -/
def asked : Atom := .token (.subnegotiation ⟨TerminalType.option, [TerminalType.send]⟩)

/-- A request is on its way that no negotiation of the option follows. -/
def Asked (atoms : List Atom) : Prop :=
  ∃ before after, atoms = before ++ asked :: after ∧
    after.filterMap terminalTypeServer.notice = []

theorem Asked.append {atoms sent : List Atom} (h : Asked atoms)
    (hsent : sent.filterMap terminalTypeServer.notice = []) : Asked (atoms ++ sent) := by
  obtain ⟨before, after, rfl, hafter⟩ := h
  refine ⟨before, after ++ sent, by simp, ?_⟩
  rw [List.filterMap_append, hafter, hsent]
  rfl

theorem Asked.tail {a : Atom} {atoms : List Atom} (h : Asked (a :: atoms)) :
    Asked atoms ∨ (a = asked ∧ atoms.filterMap terminalTypeServer.notice = []) := by
  obtain ⟨before, after, heq, hafter⟩ := h
  cases before with
  | nil =>
      obtain ⟨rfl, rfl⟩ := List.cons.inj heq
      exact Or.inr ⟨rfl, hafter⟩
  | cons b before =>
      obtain ⟨-, rfl⟩ := List.cons.inj heq
      exact Or.inl ⟨before, after, rfl, hafter⟩

theorem Names.answer {α κ : Type} {A : Application α κ} {name : Bytes} (hA : Names A name)
    {own : Owned κ} (h : own.state terminalTypeServer = .active) :
    (A.atoms.recv () asked own).2.filterMap announcement ≠ [] := by
  have hreceive : A.receive Outbox.writeAtoms asked.element ⟨own, []⟩ =
      Application.perform Outbox.writeAtoms
        (A.handleSubnegotiation terminalTypeServer [TerminalType.send])
        ⟨{ own with
          handled := own.handled ++ [(terminalTypeServer, [TerminalType.send])] }, []⟩ := by
    rw [asked, Atom.element, Application.receive_subnegotiation, hA.installed]
    exact if_pos h
  obtain ⟨a, ha, hcontent⟩ := List.mem_filterMap.mp (hA.answers own.state own.app)
  apply List.ne_nil_of_mem (a := name)
  change name ∈ (A.receive Outbox.writeAtoms asked.element ⟨own, []⟩).written.filterMap announcement
  rw [hreceive, Application.perform_writeAtoms]
  exact List.mem_filterMap.mpr ⟨a, ha, by rw [announcement, hcontent]; rfl⟩

/-! ## The connection -/

section Connection

variable {γ : Type}

theorem sends_request : (connection γ).SendsOnly typeContent (· = [TerminalType.send])
    fun _ => True where
  negotiation _ := rfl
  onByte _ _ _ := List.forall_mem_nil _
  onCommand _ _ _ := List.forall_mem_nil _
  onStateChanged id states c := by
    simp only [connection]
    split
    · exact List.forall_mem_singleton.mpr rfl
    · exact List.forall_mem_nil _
  handleSubnegotiation _ _ _ _ := List.forall_mem_nil _
  request _ _ _ _ := List.forall_mem_nil _

theorem terminalTypeClient_mem : terminalTypeClient ∈ (connection γ).options := by
  simp [connection]

theorem lastInstalled_terminalType :
    (connection γ).lastInstalled TerminalType.option = some terminalTypeClient := rfl

theorem onStateChanged_active {w : Outbox (Owned (Connection γ)) Atom}
    (h : w.own.state terminalTypeClient = .active) :
    (((connection γ).option Outbox.writeAtoms terminalTypeClient).onStateChanged w).written =
      w.written ++ [asked] := by
  have hhandler : ((connection γ).onStateChanged terminalTypeClient w.own.state w.own.app).2 =
      [TerminalType.requestTerminalType] := by
    simp only [connection, h, and_self, if_true]
  change (Application.perform Outbox.writeAtoms ((connection γ).onStateChanged terminalTypeClient)
    w).written = _
  rw [Application.perform_writeAtoms, hhandler]
  rfl

/-- The option asks for the type last of all when it becomes active. -/
theorem asks_when_activated {own : Owned (Connection γ)}
    (h : own.state terminalTypeClient ≠ .active) :
    ∃ before, (((connection γ).option Outbox.writeAtoms terminalTypeClient).negotiate
      (Endpoint.modeRequest .client true) ⟨own, []⟩).written = before ++ [asked] := by
  let opt := (connection γ).option Outbox.writeAtoms terminalTypeClient
  let w : Outbox (Owned (Connection γ)) Atom := opt.setState .active ⟨own, []⟩
  have hw : w.own.state terminalTypeClient = .active := by simp [w, opt, Application.option]
  have hstate : opt.state ⟨own, []⟩ = own.state terminalTypeClient := rfl
  cases hs : own.state terminalTypeClient with
  | active => exact absurd hs h
  | inactive =>
      have hnegotiate : opt.negotiate (Endpoint.modeRequest .client true) ⟨own, []⟩ =
          opt.onStateChanged (opt.writeNegotiation clientTraits.localPositive w) := by
        simp only [TelnetOption.negotiate, hstate, hs]
        rfl
      exact ⟨_, (congrArg Outbox.written hnegotiate).trans (onStateChanged_active hw)⟩
  | _ =>
      have hnegotiate : opt.negotiate (Endpoint.modeRequest .client true) ⟨own, []⟩ =
          opt.onStateChanged w := by
        simp only [TelnetOption.negotiate, hstate, hs]
        rfl
      exact ⟨_, (congrArg Outbox.written hnegotiate).trans (onStateChanged_active hw)⟩

/-- A negotiation that leaves the option active has activated it, unless it asks an
active option to be active. -/
theorem negotiate_active {own : Owned (Connection γ)} {mode : Bool}
    (hasked : own.state terminalTypeClient = .active → mode ≠ true)
    (hactive : (((connection γ).option Outbox.writeAtoms terminalTypeClient).negotiate
      (Endpoint.modeRequest terminalTypeClient.half mode) ⟨own, []⟩).own.state terminalTypeClient =
        .active) :
    own.state terminalTypeClient ≠ .active ∧ mode = true := by
  have hstance := congrArg Prod.fst
    ((connection γ).aspect_negotiate terminalTypeClient mode own)
  have hafter : (Application.aspect terminalTypeClient
      (((connection γ).option Outbox.writeAtoms terminalTypeClient).negotiate
        (Endpoint.modeRequest terminalTypeClient.half mode) ⟨own, []⟩)).1 = .active := hactive
  rw [hafter] at hstance
  cases mode <;> cases hs : own.state terminalTypeClient <;>
    simp_all [Endpoint.stance, ModeAgreement.receive]

end Connection

/-! ## What an active connection waits for -/

section Due

variable {α κ γ : Type}

/-- An active option has been told a type, is about to be deactivated, or waits
for an answer. -/
def Due (m : Atoms κ (Connection γ)) : Prop :=
  m.right.1.state terminalTypeClient = .active →
    (m.right.1.handledBy terminalTypeClient).filterMap TerminalType.terminalType? ≠ [] ∨
      m.toRight.filterMap terminalTypeClient.notice ≠ [] ∨
        Asked m.toLeft ∨ m.toRight.filterMap announcement ≠ []

/-- The option was active before, and nothing that it waits for has been taken away. -/
structure Extends (m m' : Atoms κ (Connection γ)) : Prop where
  state : m.right.1.state terminalTypeClient = .active
  handled : ∃ more, m'.right.1.handledBy terminalTypeClient =
    m.right.1.handledBy terminalTypeClient ++ more
  toRight : ∃ sent, m'.toRight = m.toRight ++ sent
  toLeft : ∃ sent, m'.toLeft = m.toLeft ++ sent ∧
    sent.filterMap terminalTypeServer.notice = []

theorem Due.extend {m m' : Atoms κ (Connection γ)} (h : Due m)
    (hextends : m'.right.1.state terminalTypeClient = .active → Extends m m') : Due m' := by
  intro hactive
  obtain ⟨hstate, ⟨more, hhandled⟩, ⟨sent, htoRight⟩, sent', htoLeft, hunseen⟩ := hextends hactive
  rw [hhandled, htoRight, htoLeft, List.filterMap_append, List.filterMap_append,
    List.filterMap_append]
  rcases h hstate with htold | hnotice | hasked | hanswer
  · exact Or.inl (List.append_ne_nil_of_left_ne_nil htold _)
  · exact Or.inr (Or.inl (List.append_ne_nil_of_left_ne_nil hnotice _))
  · exact Or.inr (Or.inr (Or.inl (hasked.append hunseen)))
  · exact Or.inr (Or.inr (Or.inr (List.append_ne_nil_of_left_ne_nil hanswer _)))

variable {A : Application α κ}

theorem Due.actLeft {m : Atoms κ (Connection γ)} (h : Due m) (i : AppInput α) :
    Due (Atoms.step A (connection γ) m (.actLeft i)) :=
  h.extend fun hactive => ⟨hactive, ⟨[], (List.append_nil _).symm⟩, ⟨_, rfl⟩,
    ⟨[], (List.append_nil _).symm, rfl⟩⟩

theorem Due.actRight {m : Atoms κ (Connection γ)} (h : Due m) (i : AppInput γ) :
    Due (Atoms.step A (connection γ) m (.actRight i)) := by
  apply h.extend
  intro hactive
  obtain ⟨haspect, hbefore⟩ :=
    (connection γ).active_of_input terminalTypeClient i m.right.1 hactive
  refine ⟨hbefore, ⟨[], ?_⟩, ⟨[], (List.append_nil _).symm⟩, ⟨_, rfl, congrArg Prod.snd haspect⟩⟩
  rw [List.append_nil]
  exact (connection γ).handedBy_input terminalTypeClient i m.right.1

/-- Neither option is asked of anything, and no negotiation is on its way to the
connection, so the option at the other end is active. -/
theorem active_left {m : Atoms κ (Connection γ)} (hsound : Sound A (connection γ) m)
    (hagreed : Agreed (peers A (connection γ) terminalTypeServer m))
    (hactive : m.right.1.state terminalTypeClient = .active)
    (hleft : m.toLeft.filterMap terminalTypeServer.notice = [])
    (hright : m.toRight.filterMap terminalTypeClient.notice = []) :
    m.left.1.state terminalTypeServer = .active := by
  obtain ⟨mode, hmode, hmode'⟩ := hagreed.quiescent hleft hright
  have habsent (h : decide (terminalTypeServer ∈ A.options) = false) :
      m.left.1.state terminalTypeServer = .inactive :=
    hsound.left terminalTypeServer (of_decide_eq_false h)
  have habsent' (h : decide (terminalTypeServer.peer ∈ (connection γ).options) = false) :
      m.right.1.state terminalTypeServer.peer = .inactive :=
    hsound.right terminalTypeServer.peer (of_decide_eq_false h)
  have hl := (Endpoint.mode?_stance habsent mode).mp hmode
  have hr := (Endpoint.mode?_stance habsent' mode).mp hmode'
  rw [hl, ← hactive]
  exact hr.symm

theorem Due.deliverLeft {name : Bytes} (hA : Names A name) {m : Atoms κ (Connection γ)}
    (hsound : Sound A (connection γ) m)
    (hagreed : Agreed (peers A (connection γ) terminalTypeServer m)) (h : Due m) (k : Unit) :
    Due (Atoms.step A (connection γ) m (.deliverLeft k)) := by
  rcases m with ⟨l, r, as, bs⟩
  cases as with
  | nil => exact h
  | cons a as =>
      intro hactive
      have htoRight {C : Type} {u : Atom → Option C} (hu : bs.filterMap u ≠ []) :
          (bs ++ (A.atoms.recv () a l.1).2).filterMap u ≠ [] := by
        rw [List.filterMap_append]
        exact List.append_ne_nil_of_left_ne_nil hu _
      rcases h hactive with htold | hnotice | hasked | hanswer
      · exact Or.inl htold
      · exact Or.inr (Or.inl (htoRight hnotice))
      · rcases hasked.tail with hasked | ⟨rfl, hunseen⟩
        · exact Or.inr (Or.inr (Or.inl hasked))
        · by_cases hnotice : bs.filterMap terminalTypeClient.notice = []
          · have hleft := active_left hsound hagreed hactive hunseen hnotice
            refine Or.inr (Or.inr (Or.inr ?_))
            change (bs ++ (A.atoms.recv () asked l.1).2).filterMap announcement ≠ []
            rw [List.filterMap_append]
            exact List.append_ne_nil_of_right_ne_nil _ (hA.answer hleft)
          · exact Or.inr (Or.inl (htoRight hnotice))
      · exact Or.inr (Or.inr (Or.inr (htoRight hanswer)))

theorem Due.deliverRight {m : Atoms κ (Connection γ)} (hsound : Sound A (connection γ) m)
    (hagreed : Agreed (peers A (connection γ) terminalTypeServer m)) (h : Due m) (k : Unit) :
    Due (Atoms.step A (connection γ) m (.deliverRight k)) := by
  rcases m with ⟨l, r, as, bs⟩
  cases bs with
  | nil => exact h
  | cons a bs =>
      have ha : a.Sendable := hsound.toRight a (List.mem_cons_self ..)
      cases hnotice : terminalTypeClient.notice a with
      | some notice =>
          intro hactive
          obtain ⟨mode, rfl, rfl⟩ := OptionId.notice_eq_some hnotice
          have hreceive := (connection γ).receive_owned Outbox.writeAtoms ⟨r.1, []⟩
            terminalTypeClient_mem (terminalTypeClient.owns_modeRequest mode)
          have hasked : r.1.state terminalTypeClient = .active → mode ≠ true := by
            rintro hbefore rfl
            have habsent (h : decide (terminalTypeServer.peer ∈ (connection γ).options) = false) :
                r.1.state terminalTypeServer.peer = .inactive :=
              hsound.right terminalTypeServer.peer (of_decide_eq_false h)
            have hmode := (Endpoint.mode?_stance habsent true).mpr hbefore
            refine hagreed.not_asked_right hmode ?_
            exact congrArg List.head? (List.filterMap_cons_some hnotice)
          obtain ⟨hbefore, rfl⟩ := negotiate_active hasked (hreceive ▸ hactive)
          obtain ⟨before, hwritten⟩ := asks_when_activated hbefore
          refine Or.inr (Or.inr (Or.inl ⟨as ++ before, [], ?_, rfl⟩))
          have hsent := congrArg Outbox.written hreceive
          rw [List.append_assoc]
          exact congrArg (as ++ ·) (hsent.trans hwritten)
      | none =>
          have haspect := (connection γ).aspect_receive terminalTypeClient r.1 ha hnotice
          have htakes := (connection γ).takes_contents terminalTypeClient lastInstalled_terminalType
          cases hannounced : announcement a with
          | some type =>
              intro hactive
              obtain ⟨content, hcontent, htype⟩ := Option.bind_eq_some_iff.mp hannounced
              have hbefore := (congrArg Prod.fst haspect).symm.trans hactive
              have hhandled := htakes.recv k ⟨ha, hnotice⟩ hbefore
              rw [show contentOf terminalTypeClient.code a = some content from hcontent] at hhandled
              left
              apply ne_of_eq_of_ne (congrArg (List.filterMap TerminalType.terminalType?) hhandled)
              simp [htype]
          | none =>
              have hrest : Due ⟨l, r, as, bs⟩ := by
                intro hactive
                simpa [hnotice, hannounced] using h hactive
              apply hrest.extend
              intro hactive
              have hbefore := (congrArg Prod.fst haspect).symm.trans hactive
              exact ⟨hbefore, ⟨_, htakes.recv k ⟨ha, hnotice⟩ hbefore⟩,
                ⟨[], (List.append_nil _).symm⟩, ⟨_, rfl, congrArg Prod.snd haspect⟩⟩

theorem Due.step {name : Bytes} (hA : Names A name) {m : Atoms κ (Connection γ)}
    (hsound : Sound A (connection γ) m)
    (hagreed : Agreed (peers A (connection γ) terminalTypeServer m)) (h : Due m)
    (e : NetEvent (AppInput α) Unit (AppInput γ) Unit) :
    Due (Atoms.step A (connection γ) m e) := by
  cases e with
  | actLeft i => exact h.actLeft i
  | actRight i => exact h.actRight i
  | deliverLeft k => exact h.deliverLeft hA hsound hagreed k
  | deliverRight k => exact h.deliverRight hsound hagreed k

theorem due_run {name : Bytes} (hA : Names A name) (x : κ) (c : Connection γ)
    (es : List (NetEvent (AppInput α) Unit (AppInput γ) Unit)) :
    Due (run (Atoms.step A (connection γ)) (Atoms.start x c) es) := by
  let R (m : Atoms κ (Connection γ)) : Prop :=
    Sound A (connection γ) m ∧ Agreed (peers A (connection γ) terminalTypeServer m) ∧ Due m
  have hstart : R (Atoms.start x c) :=
    ⟨sound_start x c, agreed_start x c terminalTypeServer, fun hactive => nomatch hactive⟩
  have hstep (m : Atoms κ (Connection γ)) (e : NetEvent (AppInput α) Unit (AppInput γ) Unit)
      (h : R m) : R (Atoms.step A (connection γ) m e) :=
    ⟨h.1.step e, agreed_run h.1 h.2.1 [e], h.2.2.step hA h.1 h.2.1 e⟩
  exact (run_invariant _ hstep hstart es).2.2

/-- Between two active options no negotiation is in flight, so an option that has
not been told waits for a message about the type. -/
theorem Due.told {m : Atoms κ (Connection γ)} (h : Due m)
    (hagreed : BothActive terminalTypeServer m)
    (htoLeft : m.toLeft.filterMap typeContent = [])
    (htoRight : m.toRight.filterMap typeContent = []) :
    (m.right.1.handledBy terminalTypeClient).filterMap TerminalType.terminalType? ≠ [] := by
  rcases h hagreed.right with htold | hnotice | ⟨before, after, heq, -⟩ | hanswer
  · exact htold
  · refine absurd (List.filterMap_eq_nil_iff.mpr fun a ha => ?_) hnotice
    exact (hagreed.toRight a ha).2
  · rw [List.filterMap_eq_nil_iff] at htoLeft
    have hasked := htoLeft asked (heq ▸ by simp)
    exact absurd hasked (by simp [asked, typeContent, contentOf])
  · rw [List.filterMap_eq_nil_iff] at htoRight
    refine absurd (List.filterMap_eq_nil_iff.mpr fun a ha => ?_) hanswer
    rw [announcement, htoRight a ha, Option.bind_none]

end Due

/-! ## What the continuations are called with -/

namespace Connection

variable {γ : Type} (c : Connection γ)

def record (c : Connection γ) (h : OptionId × Bytes) : Connection γ :=
  c.handleSubnegotiation h.1 h.2

theorem record_content (content : Bytes) :
    c.record (terminalTypeClient, content) =
      match TerminalType.terminalType? content with
      | some type => c.onTerminalTypeDetected type
      | none => c := rfl

theorem record_other {h : OptionId × Bytes} (hid : h.1 ≠ terminalTypeClient) :
    (c.record h).announced = c.announced ∧
      (c.record h).terminalTypeRequests = c.terminalTypeRequests := by
  simp only [record, handleSubnegotiation, hid, if_false]
  split
  · split <;> exact ⟨rfl, rfl⟩
  · exact ⟨rfl, rfl⟩

/-- The first type is announced to everything that waits, and later ones to nothing. -/
theorem foldl_record {name : Bytes} {handled : List (OptionId × Bytes)}
    (h : ∀ entry ∈ handled, entry.1.code = TerminalType.option → NamesOnly name entry.2) :
    let told := ((handled.filter fun entry => entry.1 = terminalTypeClient).map Prod.snd).filterMap
      TerminalType.terminalType?
    let c' := handled.foldl record c
    (told = [] → c'.announced = c.announced ∧
        c'.terminalTypeRequests = c.terminalTypeRequests) ∧
      (told ≠ [] → c'.announced = c.announced ++ c.terminalTypeRequests.map (fun callback =>
        (callback, name)) ∧ c'.terminalTypeRequests = []) := by
  induction handled generalizing c with
  | nil => exact ⟨fun _ => ⟨rfl, rfl⟩, fun h => absurd rfl h⟩
  | cons entry handled ih =>
      obtain ⟨hentry, hhandled⟩ := List.forall_mem_cons.mp h
      by_cases hid : entry.1 = terminalTypeClient
      · obtain ⟨id, content⟩ := entry
        obtain rfl : id = terminalTypeClient := hid
        rw [List.foldl_cons, record_content]
        cases htype : TerminalType.terminalType? content with
        | none => simpa [htype] using ih c hhandled
        | some type =>
            obtain rfl := hentry rfl type htype
            have hrest := ih (c.onTerminalTypeDetected type) hhandled
            refine ⟨fun hnone => absurd hnone (by simp [htype]), fun _ => ?_⟩
            by_cases hlater : ((handled.filter fun entry => entry.1 = terminalTypeClient).map
                Prod.snd).filterMap TerminalType.terminalType? = []
            · exact hrest.1 hlater
            · obtain ⟨hannounced, hrequests⟩ := hrest.2 hlater
              exact ⟨hannounced.trans (List.append_nil _), hrequests⟩
      · obtain ⟨hannounced, hrequests⟩ := c.record_other hid
        have hrest := ih (c.record entry) hhandled
        rw [hannounced, hrequests] at hrest
        simpa [hid] using hrest

end Connection

theorem records {γ : Type} : (connection γ).Records Connection.record where
  onByte _ _ _ := rfl
  onCommand _ _ _ := rfl
  onStateChanged id states c := by
    simp only [connection]
    split <;> rfl
  handleSubnegotiation _ _ _ _ := rfl

/-- In every run of a connection, with its continuations registered beforehand, and
another end that answers with its terminal type: no continuation has been called, or
each has been called with the type, once and in order; and once both options are
active and no message about the type is in flight, they have been called. -/
theorem run_announces {α κ γ : Type} {A : Application α κ} {name : Bytes} (hA : Names A name)
    (x : κ) (callbacks : List γ) (es : List (SessionEvent α γ))
    (hes : ∀ e ∈ es, e.Meets (fun _ => True) (AppInput.Within fun _ => False)) :
    let n := run (step A (connection γ)) (start x { terminalTypeRequests := callbacks }) es
    let c := n.right.1.1.app
    let told := callbacks.map fun callback => (callback, name)
    ((c.announced = [] ∧ c.terminalTypeRequests = callbacks) ∨
        (c.announced = told ∧ c.terminalTypeRequests = [])) ∧
      (n.left.1.1.state terminalTypeServer = .active →
        n.right.1.1.state terminalTypeClient = .active →
          (n.left.1.2.reads n.toLeft).filterMap typeContent = [] →
            (n.right.1.2.reads n.toRight).filterMap typeContent = [] →
              c.announced = told ∧ c.terminalTypeRequests = []) := by
  intro n c told
  have hrecorded := recorded_right A records (fun _ hi => absurd hi id) x
    { terminalTypeRequests := callbacks } hes
  have honly := only_run hA.sends sends_request x { terminalTypeRequests := callbacks }
    fun e he => (hes e he).imp (fun i _ => by cases i <;> trivial) fun i _ => by cases i <;> trivial
  obtain ⟨hsilent, htold⟩ := Connection.foldl_record { terminalTypeRequests := callbacks }
    honly.right
  rw [← hrecorded] at hsilent htold
  refine ⟨?_, fun hleft hright htoLeft htoRight => ?_⟩
  · by_cases hnone : (n.right.1.1.handledBy terminalTypeClient).filterMap
        TerminalType.terminalType? = []
    · exact Or.inl (hsilent hnone)
    · exact Or.inr (htold hnone)
  · obtain ⟨es', hreads⟩ := reads_run (A := A) (B := connection γ)
      (reads_start x { terminalTypeRequests := callbacks }) es
    let m := run (Atoms.step A (connection γ))
      (Atoms.start x { terminalTypeRequests := callbacks }) es'
    have hsound : Sound A (connection γ) m :=
      run_invariant _ (fun _ e h => h.step e) (sound_start _ _) es'
    have hagreed := agreed_run (sound_start (A := A) (B := connection γ) x
      { terminalTypeRequests := callbacks }) (agreed_start _ _ terminalTypeServer) es'
    obtain ⟨⟨⟨hown, hcontinues⟩, -⟩, ⟨hown', hcontinues'⟩, -⟩ := hreads
    have hactive := bothActive_of_state hsound hagreed (hown ▸ hleft) (hown' ▸ hright)
    have hhandled := (due_run hA x _ es').told hactive (hcontinues.reads ▸ htoLeft)
      (hcontinues'.reads ▸ htoRight)
    apply htold
    rw [← hown'] at hhandled
    exact hhandled

/-- An end that answers whatever it is asked with its terminal type. -/
def answering (name : Bytes) : Application Unit Unit where
  options := [terminalTypeServer]
  handleSubnegotiation _ _ _ app :=
    (app, [.subnegotiation TerminalType.option (TerminalType.is :: name)])
  request _ _ app := (app, [])

theorem names_answering (name : Bytes) : Names (answering name) name where
  installed := rfl
  sends := {
    negotiation := fun _ => rfl
    onByte := fun _ _ _ => List.forall_mem_nil _
    onCommand := fun _ _ _ => List.forall_mem_nil _
    onStateChanged := fun _ _ _ => List.forall_mem_nil _
    handleSubnegotiation := fun _ _ _ _ =>
      List.forall_mem_singleton.mpr fun _ htype => (Option.some.inj htype).symm
    request := fun _ _ _ _ => List.forall_mem_nil _ }
  answers _ _ := List.mem_singleton.mpr rfl

/-- A connection that has been answered has called its continuation. -/
theorem run_announces_answered :
    let n := run (step (answering [118]) (connection Unit))
      (start () { terminalTypeRequests := [()] }) [.actRight (.call terminalTypeClient .activate),
        .deliverLeft 3, .deliverRight 3, .deliverLeft 6, .deliverRight 7]
    n.right.1.1.app.announced = [((), [118])] :=
  ((run_announces (names_answering [118]) () [()]
    [.actRight (.call terminalTypeClient .activate), .deliverLeft 3, .deliverRight 3,
      .deliverLeft 6, .deliverRight 7]
    (by simp [NetEvent.Meets, AppInput.Within])).2 rfl rfl rfl rfl).1

end Telnetpp.Rot13
