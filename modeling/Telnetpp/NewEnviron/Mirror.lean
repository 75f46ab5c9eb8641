import Telnetpp.NewEnviron.Options
import Telnetpp.Negotiation.Endpoint
import Telnetpp.Foundation.Replication

/-!
# The mirror of the environment

A server and a client joined by two streams of bytes. Read through the
parsers of both sessions, they are the source and the replica of a
replicated table, so that the client's mirror is the server's environment
whenever both are active and nothing is in flight.
-/

namespace Telnetpp.NewEnviron

open Foundation Replication

/-! ## The environment as a store -/

theorem getElem?_assign (storage : VariableStorage) (name : Bytes) (content : Option Bytes)
    (name' : Bytes) :
    (assign name content storage)[name']? = if name' = name then content else storage[name']? := by
  by_cases h : name' = name
  · subst h
    cases content <;> simp [assign]
  · have hcompare : compare name name' ≠ .eq :=
      fun heq => h (Std.LawfulEqOrd.eq_of_compare heq).symm
    cases content <;>
      simp [assign, Std.TreeMap.getElem?_insert, Std.TreeMap.getElem?_erase, hcompare, h]

theorem lookup_write (u : Update Key Bytes) (env : Environment) :
    (env.write u).lookup = Function.update env.lookup u.1 u.2 := by
  rcases u with ⟨⟨type, name⟩, content⟩
  funext ⟨type', name'⟩
  rw [Function.update_apply]
  cases type <;> cases type' <;>
    simp [Environment.write, Environment.lookup, Environment.storage, getElem?_assign]

/-- What a request for everything is answered with. -/
def listing (env : Environment) : List Response :=
  env.variables_.toList.map (fun entry => ⟨.var, entry.1, some entry.2⟩) ++
    env.userVariables_.toList.map fun entry => ⟨.uservar, entry.1, some entry.2⟩

def toUpdate (rsp : Response) : Update Key Bytes := ((rsp.type, rsp.name), rsp.value)

theorem mem_listing {env : Environment} {rsp : Response} :
    rsp ∈ listing env ↔ ∃ content, rsp.value = some content ∧
      env.lookup (rsp.type, rsp.name) = some content := by
  rcases rsp with ⟨type, name, content⟩
  cases type <;> cases content <;>
    simp [listing, Environment.lookup, Environment.storage,
      Std.TreeMap.mem_toList_iff_getElem?_eq_some]

def store : Store Environment Key Bytes where
  lookup := Environment.lookup
  write := Environment.write
  listing env := (listing env).map toUpdate
  lookup_write := lookup_write
  lists := by
    intro env
    constructor
    · intro u hu
      obtain ⟨rsp, hrsp, rfl⟩ := List.mem_map.mp hu
      obtain ⟨content, hvalue, hlookup⟩ := mem_listing.mp hrsp
      exact hvalue.trans hlookup.symm
    · rintro ⟨type, name⟩ hne
      obtain ⟨content, hcontent⟩ := Option.ne_none_iff_exists'.mp hne
      exact ⟨toUpdate ⟨type, name, some content⟩,
        List.mem_map_of_mem (mem_listing.mpr ⟨content, rfl, hcontent⟩), rfl⟩

/-! ## The parties as source and replica -/

abbrev serverElements : Process ServerInput Unit Element Element Server :=
  (serverParty Outbox.writeElement).elements

abbrev clientElements : Process Call Unit Element Element Client :=
  (clientParty Outbox.writeElement).elements

def sourceOf (s : Server) : Source Environment := ⟨Endpoint.stance true s.state, s.toEnvironment⟩

def replicaOf (s : Client) : Replica Key Bytes := ⟨Endpoint.stance true s.state, s.mirror⟩

/-- What an element means to the server. -/
def asked : Element → Message Key Bytes
  | .negotiation neg => .mode (neg.request = do_)
  | _ => .request

/-- What an element means to the client. -/
def told : Element → Message Key Bytes
  | .negotiation neg => .mode (neg.request = will)
  | .subnegotiation sub => .updates ((forEachResponse sub.content).map toUpdate)
  | _ => .updates []

/-- The elements that the client sends. -/
def Asks (elem : Element) : Prop :=
  elem = .negotiation ⟨do_, option⟩ ∨ elem = .negotiation ⟨dont, option⟩ ∨
    elem = .subnegotiation ⟨option, [send]⟩

/-- The elements that the server sends. -/
def Tells (elem : Element) : Prop :=
  elem = .negotiation ⟨will, option⟩ ∨ elem = .negotiation ⟨wont, option⟩ ∨
    ∃ content, elem = .subnegotiation ⟨option, content⟩

/-- No variable has an empty name. -/
def Environment.Named (env : Environment) : Prop := ∀ key, env.lookup key ≠ none → key.2 ≠ []

theorem named_empty : Environment.Named {} := by
  rintro ⟨type, name⟩ hne
  cases type <;> simp [Environment.lookup, Environment.storage] at hne

theorem told_encode (command : Byte) (rsps : List Response) (h : ∀ r ∈ rsps, r.name ≠ []) :
    told (.subnegotiation ⟨option, command :: rsps.flatMap encode⟩) =
      .updates (rsps.map toUpdate) := by
  simp only [told, forEachResponse_encode command rsps h]

theorem Environment.Named.write {env : Environment} (h : env.Named) {type : VariableType}
    {name : Bytes} (hname : name ≠ []) (content : Option Bytes) :
    (env.write ((type, name), content)).Named := by
  intro key hkey
  rw [lookup_write, Function.update_apply] at hkey
  by_cases heq : key = (type, name)
  · rwa [heq]
  · rw [if_neg heq] at hkey
    exact h key hkey

theorem response_send (s : Server) :
    s.response [send] = is :: (listing s.toEnvironment).flatMap encode := by
  have hfold (type : VariableType) (entries : List (Bytes × Bytes)) (response : Bytes) :
      entries.foldl (fun response entry => appendVariableValue response type entry.1 entry.2)
          response =
        response ++ (entries.map fun entry => (⟨type, entry.1, some entry.2⟩ : Response)).flatMap
          encode := by
    induction entries generalizing response with
    | nil => simp
    | cons entry entries ih =>
        rw [List.foldl_cons, ih, appendVariableValue_eq, List.map_cons, List.flatMap_cons,
          List.append_assoc]
  simp only [Server.response, List.length_singleton, if_true, hfold]
  simp [listing]

/-- A step of the server that keeps its names and sends what a server sends. -/
structure ServerStep (s : Server) (r : Server × List Element) : Prop where
  named : r.1.Named
  tells : ∀ elem ∈ r.2, Tells elem

section Server

variable {s : Server} (hs : s.Named)

include hs

theorem serverStep_silent {st : InternalState} : ServerStep s (⟨s.toEnvironment, st⟩, []) :=
  ⟨hs, by simp⟩

theorem serverStep_tell {st : InternalState} {elem : Element} (h : Tells elem) :
    ServerStep s (⟨s.toEnvironment, st⟩, [elem]) := ⟨hs, List.forall_mem_singleton.mpr h⟩

/-- A call is a request of the source, or nothing. -/
theorem server_call (c : Call) :
    let r := serverElements.act (.call c) s
    ServerStep s r ∧ (r = (s, []) ∨
      (source store).act .ask (sourceOf s) = (sourceOf r.1, r.2.map told)) := by
  rcases s with ⟨env, state⟩
  cases state with
  | inactive =>
      cases c with
      | activate => exact ⟨serverStep_tell hs (Or.inl rfl), Or.inr rfl⟩
      | deactivate => exact ⟨serverStep_silent hs, Or.inl rfl⟩
  | activating => cases c <;> exact ⟨serverStep_silent hs, Or.inl rfl⟩
  | active =>
      cases c with
      | activate => exact ⟨serverStep_silent hs, Or.inl rfl⟩
      | deactivate => exact ⟨serverStep_tell hs (Or.inr (Or.inl rfl)), Or.inr rfl⟩
  | deactivating => cases c <;> exact ⟨serverStep_silent hs, Or.inl rfl⟩

/-- A change of a variable is a write to the source. -/
theorem server_change (type : VariableType) {name : Bytes} (hname : name ≠ [])
    (content : Option Bytes) :
    let w := changeVariable Outbox.writeElement type name content ⟨s, []⟩
    ServerStep s (w.own, w.written) ∧
      (source store).act (.write ((type, name), content)) (sourceOf s) =
        (sourceOf w.own, w.written.map told) := by
  have hnamed : (s.toEnvironment.write ((type, name), content)).Named := hs.write hname content
  rcases s with ⟨env, state⟩
  have htold := told_encode info [⟨type, name, content⟩] (by simpa using hname)
  cases state with
  | active =>
      have hsent : changeVariable Outbox.writeElement type name content ⟨⟨env, .active⟩, []⟩ =
          ⟨⟨env.write ((type, name), content), .active⟩,
            [.subnegotiation ⟨option, info :: [⟨type, name, content⟩].flatMap encode⟩]⟩ := by
        rw [List.flatMap_singleton]
        cases content with
        | some content =>
            exact congrArg (fun data => Outbox.mk _ [Element.subnegotiation ⟨option, data⟩])
              (appendVariableValue_eq [info] type name content)
        | none =>
            exact congrArg (fun data => Outbox.mk _ [Element.subnegotiation ⟨option, data⟩])
              (appendVariable_eq [info] type name)
      rw [hsent]
      refine ⟨⟨hnamed, List.forall_mem_singleton.mpr (Or.inr (Or.inr ⟨_, rfl⟩))⟩, ?_⟩
      rw [List.map_singleton, htold]
      rfl
  | _ => exact ⟨⟨hnamed, List.forall_mem_nil _⟩, rfl⟩

theorem server_input (i : ServerInput) :
    let r := serverElements.act i s
    ServerStep s r ∧ (r = (s, []) ∨
      ∃ i', (source store).act i' (sourceOf s) = (sourceOf r.1, r.2.map told)) := by
  have hchange (type : VariableType) (name : Name) (content : Option Bytes) :=
    server_change hs type name.2 content
  cases i with
  | call c =>
      obtain ⟨hstep, hsame | hask⟩ := server_call hs c
      · exact ⟨hstep, Or.inl hsame⟩
      · exact ⟨hstep, Or.inr ⟨_, hask⟩⟩
  | _ => exact ⟨(hchange _ _ _).1, Or.inr ⟨_, (hchange _ _ _).2⟩⟩

theorem server_negotiate {neg : NegotiationType} (hneg : neg = do_ ∨ neg = dont) :
    let r := serverElements.recv () (.negotiation ⟨neg, option⟩) s
    ServerStep s r ∧ (source store).recv () (asked (.negotiation ⟨neg, option⟩)) (sourceOf s) =
      (sourceOf r.1, r.2.map told) := by
  rcases s with ⟨env, state⟩
  rcases hneg with rfl | rfl
  · cases state with
    | inactive => exact ⟨serverStep_tell hs (Or.inl rfl), rfl⟩
    | active => exact ⟨serverStep_tell hs (Or.inl rfl), rfl⟩
    | _ => exact ⟨serverStep_silent hs, rfl⟩
  · cases state with
    | inactive => exact ⟨serverStep_tell hs (Or.inr (Or.inl rfl)), rfl⟩
    | active => exact ⟨serverStep_tell hs (Or.inr (Or.inl rfl)), rfl⟩
    | _ => exact ⟨serverStep_silent hs, rfl⟩

/-- A request for everything is answered with a listing of the store. -/
theorem server_send :
    let r := serverElements.recv () (.subnegotiation ⟨option, [send]⟩) s
    ServerStep s r ∧ (source store).recv () .request (sourceOf s) =
      (sourceOf r.1, r.2.map told) := by
  rcases s with ⟨env, state⟩
  cases state with
  | active =>
      have hnames : ∀ rsp ∈ listing env, rsp.name ≠ [] := by
        intro rsp hrsp
        obtain ⟨content, -, hlookup⟩ := mem_listing.mp hrsp
        exact hs (rsp.type, rsp.name) (by simp [hlookup])
      have hrecv : serverElements.recv () (.subnegotiation ⟨option, [send]⟩) ⟨env, .active⟩ =
          (⟨env, .active⟩, [.subnegotiation ⟨option, is :: (listing env).flatMap encode⟩]) := by
        rw [← response_send ⟨env, .active⟩]
        rfl
      rw [hrecv]
      refine ⟨serverStep_tell hs (Or.inr (Or.inr ⟨_, rfl⟩)), ?_⟩
      rw [List.map_singleton, told_encode is (listing env) hnames]
      rfl
  | _ => exact ⟨serverStep_silent hs, rfl⟩

theorem server_recv {elem : Element} (helem : Asks elem) :
    let r := serverElements.recv () elem s
    ServerStep s r ∧ (source store).recv () (asked elem) (sourceOf s) =
      (sourceOf r.1, r.2.map told) := by
  rcases helem with rfl | rfl | rfl
  · exact server_negotiate hs (Or.inl rfl)
  · exact server_negotiate hs (Or.inr rfl)
  · exact server_send hs

end Server

section Client

variable {s : Client}

theorem client_call (c : Call) :
    let r := clientElements.act c s
    (∀ elem ∈ r.2, Asks elem) ∧ (r = (s, []) ∨
      ∃ i', replica.act i' (replicaOf s) = (replicaOf r.1, r.2.map asked)) := by
  rcases s with ⟨state, mirror⟩
  cases state with
  | inactive =>
      cases c with
      | activate => exact ⟨List.forall_mem_singleton.mpr (Or.inl rfl), Or.inr ⟨.ask, rfl⟩⟩
      | deactivate => exact ⟨List.forall_mem_nil _, Or.inl rfl⟩
  | activating => cases c <;> exact ⟨List.forall_mem_nil _, Or.inl rfl⟩
  | active =>
      cases c with
      | activate =>
          exact ⟨List.forall_mem_singleton.mpr (Or.inr (Or.inr rfl)), Or.inr ⟨.refresh, rfl⟩⟩
      | deactivate =>
          exact ⟨List.forall_mem_singleton.mpr (Or.inr (Or.inl rfl)), Or.inr ⟨.ask, rfl⟩⟩
  | deactivating => cases c <;> exact ⟨List.forall_mem_nil _, Or.inl rfl⟩

theorem foldl_onVariableChanged (rsps : List Response) (w : Outbox Client Element) :
    rsps.foldl onVariableChanged w =
      { w with own.mirror := Table.patch (rsps.map toUpdate) w.own.mirror } := by
  induction rsps generalizing w with
  | nil => rfl
  | cons rsp rsps ih => exact ih (onVariableChanged w rsp)

theorem client_recv {elem : Element} (helem : Tells elem) :
    let r := clientElements.recv () elem s
    (∀ elem' ∈ r.2, Asks elem') ∧
      replica.recv () (told elem) (replicaOf s) = (replicaOf r.1, r.2.map asked) := by
  rcases s with ⟨state, mirror⟩
  rcases helem with rfl | rfl | ⟨content, rfl⟩
  · have hsend : Asks (.subnegotiation ⟨option, [send]⟩) := Or.inr (Or.inr rfl)
    cases state with
    | inactive =>
        exact ⟨List.forall_mem_cons.mpr ⟨Or.inl rfl, List.forall_mem_singleton.mpr hsend⟩, rfl⟩
    | active => exact ⟨List.forall_mem_singleton.mpr (Or.inl rfl), rfl⟩
    | _ => exact ⟨List.forall_mem_singleton.mpr hsend, rfl⟩
  · cases state with
    | inactive => exact ⟨List.forall_mem_singleton.mpr (Or.inr (Or.inl rfl)), rfl⟩
    | active => exact ⟨List.forall_mem_singleton.mpr (Or.inr (Or.inl rfl)), rfl⟩
    | _ => exact ⟨List.forall_mem_nil _, rfl⟩
  · cases state with
    | active =>
        have hrecv : clientElements.recv () (.subnegotiation ⟨option, content⟩)
              ⟨.active, mirror⟩ =
            (⟨.active, Table.patch ((forEachResponse content).map toUpdate) mirror⟩, []) := by
          have hfold := foldl_onVariableChanged (forEachResponse content) ⟨⟨.active, mirror⟩, []⟩
          exact congrArg (fun w => (w.own, w.written)) hfold
        rw [hrecv]
        exact ⟨List.forall_mem_nil _, rfl⟩
    | _ => exact ⟨List.forall_mem_nil _, rfl⟩

end Client

/-! ## The net of the parties -/

abbrev ElementNet := Net Element Element Server Client

abbrev ElementEvent := NetEvent ServerInput Unit Call Unit

def elementStep (n : ElementNet) (e : ElementEvent) : ElementNet :=
  Net.step serverElements clientElements n e

def replication (n : ElementNet) : ReplicaNet Environment Key Bytes :=
  n.map sourceOf replicaOf asked told

structure Traffic (n : ElementNet) : Prop where
  named : n.left.Named
  asks : ∀ elem ∈ n.toLeft, Asks elem
  tells : ∀ elem ∈ n.toRight, Tells elem

theorem keeps_server : serverElements.Keeps (·.Named) Asks Tells where
  act i _ hs := ⟨(server_input hs i).1.named, (server_input hs i).1.tells⟩
  recv _ _ helem _ hs := ⟨(server_recv hs helem).1.named, (server_recv hs helem).1.tells⟩

theorem keeps_client : clientElements.Keeps (fun _ => True) Tells Asks where
  act c _ _ := ⟨trivial, (client_call c).1⟩
  recv _ _ helem _ _ := ⟨trivial, (client_recv helem).1⟩

theorem Traffic.step {n : ElementNet} (h : Traffic n) (e : ElementEvent) :
    Traffic (elementStep n e) := by
  obtain ⟨hnamed, -, hasks, htells⟩ := Net.Carries.step keeps_server keeps_client
    ⟨h.named, trivial, h.asks, h.tells⟩ e
  exact ⟨hnamed, hasks, htells⟩

theorem simulates_server :
    serverElements.Simulates (source store) sourceOf asked told (·.Named) Asks where
  act i _ hs := by
    obtain ⟨-, hsame | hinput⟩ := server_input hs i
    · exact Or.inl ⟨congrArg (fun r => sourceOf r.1) hsame, congrArg Prod.snd hsame⟩
    · exact Or.inr hinput
  recv _ _ helem _ hs := ⟨(), (server_recv hs helem).2⟩

theorem simulates_client :
    clientElements.Simulates replica replicaOf told asked (fun _ => True) Tells where
  act c _ _ := by
    obtain ⟨-, hsame | hinput⟩ := client_call c
    · exact Or.inl ⟨congrArg (fun r => replicaOf r.1) hsame, congrArg Prod.snd hsame⟩
    · exact Or.inr hinput
  recv _ _ helem _ _ := ⟨(), (client_recv helem).2⟩

theorem replication_step {n : ElementNet} (h : Traffic n) (e : ElementEvent) :
    replication (elementStep n e) = replication n ∨
      ∃ e', replication (elementStep n e) = Replication.step store (replication n) e' :=
  Net.Carries.map_step simulates_server simulates_client ⟨h.named, trivial, h.asks, h.tells⟩ e

theorem synced_elements (es : List ElementEvent) :
    Synced store (replication (run elementStep ⟨{}, {}, [], []⟩ es)) := by
  have hstart : Traffic ⟨{}, {}, [], []⟩ := ⟨named_empty, by simp, by simp⟩
  obtain ⟨es', hes'⟩ := run_simulates elementStep (Replication.step store) replication
    (fun _ e h => h.step e) (fun _ e h => replication_step h e) hstart es
  rw [hes']
  exact synced_run store {} Table.empty es'

/-! ## The net of byte streams -/

abbrev MirrorNet := Net Byte Byte (Server × Parser) (Client × Parser)

/-- A delivery is of some number of bytes. -/
abbrev Event := NetEvent ServerInput ℕ Call ℕ

namespace MirrorNet

def step (n : MirrorNet) (e : Event) : MirrorNet :=
  n.streamStep (serverParty Outbox.writeBytes).bytes (clientParty Outbox.writeBytes).bytes e

def start : MirrorNet := ⟨({}, {}), ({}, {}), [], []⟩

/-- In every run, once no byte is in flight and both options are active, the
mirror is the server's two maps. -/
theorem run_mirror (es : List Event) :
    let n := run step start es
    n.toLeft = [] → n.toRight = [] → n.left.1.state = .active → n.right.1.state = .active →
      ∀ name, n.right.1.mirror (.var, name) = n.left.1.variables_[name]? ∧
        n.right.1.mirror (.uservar, name) = n.left.1.userVariables_[name]? := by
  intro n hleft hright hl hr
  obtain ⟨es', ⟨hserver, hasks⟩, hclient, htells⟩ :=
    framed_run (renders_server.frames sends_server) (renders_client.frames sends_client)
      (show Framed _ _ start ⟨{}, {}, [], []⟩ from
        ⟨⟨rfl, Parser.pending_fresh⟩, rfl, Parser.pending_fresh⟩) es
  let m : ElementNet := run elementStep ⟨{}, {}, [], []⟩ es'
  have hserver : n.left.1 = m.left := hserver
  have hclient : n.right.1 = m.right := hclient
  have hasks : m.toLeft = [] := by
    have hpending : n.left.2.Pending n.toLeft m.toLeft := hasks
    rw [hleft] at hpending
    exact hpending.nil
  have htells : m.toRight = [] := by
    have hpending : n.right.2.Pending n.toRight m.toRight := htells
    rw [hright] at hpending
    exact hpending.nil
  have hmirror : m.right.mirror = m.left.lookup := by
    apply (synced_elements es').quiescent
    · exact congrArg (List.map asked) hasks
    · exact congrArg (List.map told) htells
    · exact congrArg (Endpoint.stance true) (hserver ▸ hl)
    · exact congrArg (Endpoint.stance true) (hclient ▸ hr)
  intro name
  rw [hserver, hclient, hmirror]
  exact ⟨rfl, rfl⟩

/-- Variables set before the activation, deleted while the answer to the first
request is on its way, and set in between, with control bytes and 0xFF in
names and values and with deliveries cut inside the escapes. -/
def crossingUpdates : List Event :=
  [.actLeft (.setVariable ⟨[0, 255], by decide⟩ [3]),
    .actLeft (.setUserVariable ⟨[1], by decide⟩ []),
    .actLeft (.call .activate), .deliverRight 2, .deliverRight 1, .deliverLeft 100,
    .actLeft (.deleteVariable ⟨[0, 255], by decide⟩),
    .actLeft (.setVariable ⟨[2], by decide⟩ [255, 255, 240]),
    .deliverRight 9, .deliverRight 8, .deliverRight 100]

theorem run_mirror_crossingUpdates :
    let n := run step start crossingUpdates
    (∀ name, n.right.1.mirror (.var, name) = n.left.1.variables_[name]? ∧
      n.right.1.mirror (.uservar, name) = n.left.1.userVariables_[name]?) ∧
      n.right.1.mirror (.var, [2]) = some [255, 255, 240] ∧
      n.right.1.mirror (.var, [0, 255]) = none ∧
      n.right.1.mirror (.uservar, [1]) = some [] :=
  have h := run_mirror crossingUpdates (by decide) (by decide) (by decide) (by decide)
  ⟨h, (h _).1.trans (by decide), (h _).1.trans (by decide), (h _).2.trans (by decide)⟩

end MirrorNet

end Telnetpp.NewEnviron
