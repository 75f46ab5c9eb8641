import Telnetpp.Session

/-!
# Cutting a stream into deliveries

The channel may cut the received bytes anywhere. The session calls the same
handlers with the same messages, and its application reads the same data
between them, wherever the cuts are.
-/

namespace Telnetpp

open Foundation

inductive Installation (σ : Type*)
  | command (cmd : CommandType) (handler : Command → σ → σ)
  | client (opt : ClientOption σ)
  | server (opt : ServerOption σ)

/-! ## Logged calls -/

/-- A world and the calls that have been made in it: those of the callback with
their spans, those of the handlers with their messages. -/
structure Logged (σ : Type*) where
  world : σ
  log : List Element := []

namespace Logged

variable {σ : Type*}

/-- Make a call, and note what it is made with. -/
def call (elem : Element) (f : σ → σ) (w : Logged σ) : Logged σ := ⟨f w.world, w.log ++ [elem]⟩

end Logged

namespace Router

variable {Key Message σ : Type*} (r : Router Key Message σ)

/-- The same routes, to handlers whose calls are logged. -/
def logged (element : Message → Element) : Router Key Message (Logged σ) where
  registeredFunctions key :=
    (r.registeredFunctions key).map fun f message => Logged.call (element message) (f message)
  unregisteredRoute :=
    r.unregisteredRoute.map fun f message => Logged.call (element message) (f message)

/-- A message with this key is handed to a handler. -/
def handles (key : Key) : Bool := (r.registeredFunctions key).isSome || r.unregisteredRoute.isSome

variable {r}

theorem route_logged (element : Message → Element) (keyFromMessage : Message → Key)
    (message : Message) (w : Logged σ) :
    (r.logged element).route keyFromMessage message w =
      ⟨r.route keyFromMessage message w.world,
        w.log ++ bif r.handles (keyFromMessage message) then [element message] else []⟩ := by
  cases hf : r.registeredFunctions (keyFromMessage message) with
  | some f => simp [route, logged, handles, hf, Logged.call]
  | none => cases hr : r.unregisteredRoute <;> simp [route, logged, handles, hf, hr, Logged.call]

theorem route_of_not_handles (keyFromMessage : Message → Key) {message : Message}
    (h : r.handles (keyFromMessage message) = false) (w : σ) :
    r.route keyFromMessage message w = w := by
  rw [handles, Bool.or_eq_false_iff, Option.isSome_eq_false_iff, Option.isSome_eq_false_iff,
    Option.isNone_iff_eq_none, Option.isNone_iff_eq_none] at h
  simp only [route, h.1, h.2]

end Router

namespace Session

variable {σ : Type*} (callback : Bytes → σ → σ)

/-! ## Deliveries -/

def install (s : Session σ) : Installation σ → Session σ
  | .command cmd handler => s.installCommand cmd handler
  | .client opt => s.installClient opt
  | .server opt => s.installServer opt

def installAll (s : Session σ) (installs : List (Installation σ)) : Session σ :=
  installs.foldl install s

theorem parser_installAll (s : Session σ) (installs : List (Installation σ)) :
    (s.installAll installs).parser = s.parser := by
  induction installs generalizing s with
  | nil => rfl
  | cons i installs ih =>
      have hi : (s.install i).parser = s.parser := by cases i <;> rfl
      exact (ih (s.install i)).trans hi

/-- Successive deliveries, each followed by the next `async_read`. -/
def asyncReads (s : Session σ) (w : σ) : List Bytes → Session σ × σ
  | [] => (s, w)
  | content :: chunks =>
      let r := s.asyncRead callback content w
      asyncReads r.1 r.2 chunks

/-- The session with its parser, from then on, in another state. -/
def withParser (s : Session σ) (p : Parser) : Session σ := { s with parser := p }

/-- The elements of every delivery, and the empty span at its end. -/
def deliveries (s : Session σ) : List Bytes → List (List Element)
  | [] => []
  | content :: chunks =>
      s.calls content :: deliveries (s.withParser (s.parser.feed content).1) chunks

theorem tokenHandler_withParser (s : Session σ) (p : Parser) (elem : Element) :
    (s.withParser p).tokenHandler callback elem = s.tokenHandler callback elem := by
  cases elem <;> rfl

/-- The deliveries act on the world through these calls and nothing else. -/
theorem asyncReads_eq_foldl (s : Session σ) (w : σ) (chunks : List Bytes) :
    (s.asyncReads callback w chunks).2 =
      (s.deliveries chunks).flatten.foldl (fun w elem => s.tokenHandler callback elem w) w := by
  induction chunks generalizing s w with
  | nil => rfl
  | cons content chunks ih =>
      have hread : s.asyncRead callback content w =
          (s.withParser (s.parser.feed content).1,
            (s.calls content).foldl (fun w elem => s.tokenHandler callback elem w) w) := rfl
      rw [asyncReads, hread, ih, deliveries, List.flatten_cons, List.foldl_append]
      simp only [tokenHandler_withParser]

theorem deliveries_append (s : Session σ) (chunks : List Bytes) (content : Bytes) :
    ∃ p : Parser, s.deliveries (chunks ++ [content]) =
      s.deliveries chunks ++ [(s.withParser p).calls content] := by
  induction chunks generalizing s with
  | nil => exact ⟨s.parser, rfl⟩
  | cons first chunks ih =>
      obtain ⟨p, hp⟩ := ih (s.withParser (s.parser.feed first).1)
      exact ⟨p, congrArg (s.calls first :: ·) hp⟩

theorem atoms_calls (s : Session σ) (content : Bytes) :
    (s.calls content).flatMap Element.atoms =
      (s.parser.feed content).2.flatMap Element.atoms := by simp [calls]

theorem atoms_deliveries (s : Session σ) (chunks : List Bytes) :
    (s.deliveries chunks).flatten.flatMap Element.atoms =
      (s.parser.feedAll chunks).2.flatMap Element.atoms := by
  induction chunks generalizing s with
  | nil => rfl
  | cons content chunks ih =>
      simp only [deliveries, Parser.feedAll, List.flatten_cons, List.flatMap_append,
        atoms_calls, ih]
      rfl

/-- A session that holds no plain data back makes, up to the cuts of the
plain data, the calls that the joined stream determines. -/
theorem atoms_deliveries_stream {s : Session σ} (hs : s.parser.plainData = [])
    (chunks : List Bytes) :
    (s.deliveries chunks).flatten.flatMap Element.atoms =
      Parser.buffered.content s.parser chunks.flatten := by
  have hvalid : Parser.buffered.Valid s.parser := Or.inr (Or.inr hs)
  have hpending : Parser.buffered.pending s.parser = [] := congrArg (List.map Atom.data) hs
  rw [atoms_deliveries, Parser.feedAll_eq]
  exact Parser.buffered.feedAll_atoms hvalid hpending chunks

/-! ## What is called -/

def logged (s : Session σ) : Session (Logged σ) where
  parser := s.parser
  commandRouter := s.commandRouter.logged .command
  negotiationRouter := s.negotiationRouter.logged .negotiation
  subnegotiationRouter := s.subnegotiationRouter.logged .subnegotiation

/-- Something is called with the element: the callback, or a handler that it is routed to. -/
def handles (s : Session σ) : Element → Bool
  | .bytes _ => true
  | .command cmd => s.commandRouter.handles cmd.value
  | .negotiation neg => s.negotiationRouter.handles neg
  | .subnegotiation sub => s.subnegotiationRouter.handles sub.option

def handlesAtom (s : Session σ) : Atom → Bool
  | .data _ => true
  | .token elem => s.handles elem

/-- The world after the deliveries, and all calls that were made in them. -/
def readAll (s : Session σ) (w : σ) (chunks : List Bytes) : Logged σ :=
  (s.logged.asyncReads (fun span => Logged.call (.bytes span) (callback span)) ⟨w, []⟩ chunks).2

theorem tokenHandler_logged (s : Session σ) (elem : Element) (w : Logged σ) :
    s.logged.tokenHandler (fun span => Logged.call (.bytes span) (callback span)) elem w =
      ⟨s.tokenHandler callback elem w.world, w.log ++ [elem].filter s.handles⟩ := by
  cases elem with
  | bytes span => rfl
  | command cmd =>
      rw [List.filter_singleton]
      exact Router.route_logged ..
  | negotiation neg =>
      rw [List.filter_singleton]
      exact Router.route_logged ..
  | subnegotiation sub =>
      rw [List.filter_singleton]
      exact Router.route_logged ..

theorem tokenHandler_of_not_handles {s : Session σ} {elem : Element} (h : s.handles elem = false)
    (w : σ) : s.tokenHandler callback elem w = w := by
  cases elem with
  | bytes span => exact absurd h Bool.noConfusion
  | command cmd => exact Router.route_of_not_handles Command.value h w
  | negotiation neg => exact Router.route_of_not_handles id h w
  | subnegotiation sub => exact Router.route_of_not_handles Subnegotiation.option h w

theorem foldl_tokenHandler_logged (s : Session σ) (elems : List Element) (w : Logged σ) :
    elems.foldl (fun w elem => s.logged.tokenHandler
        (fun span => Logged.call (.bytes span) (callback span)) elem w) w =
      ⟨elems.foldl (fun w elem => s.tokenHandler callback elem w) w.world,
        w.log ++ elems.filter s.handles⟩ := by
  induction elems generalizing w with
  | nil => simp
  | cons elem elems ih =>
      rw [List.foldl_cons, List.foldl_cons, tokenHandler_logged, ih, List.append_assoc,
        ← List.filter_append, List.singleton_append]

theorem foldl_filter_handles (s : Session σ) (elems : List Element) (w : σ) :
    (elems.filter s.handles).foldl (fun w elem => s.tokenHandler callback elem w) w =
      elems.foldl (fun w elem => s.tokenHandler callback elem w) w := by
  induction elems generalizing w with
  | nil => rfl
  | cons elem elems ih =>
      by_cases h : s.handles elem = true
      · rw [List.filter_cons_of_pos h, List.foldl_cons, List.foldl_cons, ih]
      · rw [List.filter_cons_of_neg h, List.foldl_cons, ih,
          tokenHandler_of_not_handles callback (Bool.eq_false_iff.mpr h)]

theorem deliveries_logged (s : Session σ) (chunks : List Bytes) :
    s.logged.deliveries chunks = s.deliveries chunks := by
  induction chunks generalizing s with
  | nil => rfl
  | cons content chunks ih =>
      exact congrArg (s.calls content :: ·) (ih (s.withParser (s.parser.feed content).1))

theorem readAll_eq (s : Session σ) (w : σ) (chunks : List Bytes) :
    s.readAll callback w chunks =
      ⟨(s.asyncReads callback w chunks).2, (s.deliveries chunks).flatten.filter s.handles⟩ := by
  rw [readAll, asyncReads_eq_foldl, deliveries_logged, foldl_tokenHandler_logged,
    asyncReads_eq_foldl, List.nil_append]

/-- The elements of the stream that nothing is called with leave no trace. -/
theorem atoms_filter_handles (s : Session σ) (elems : List Element) :
    (elems.filter s.handles).flatMap Element.atoms =
      (elems.flatMap Element.atoms).filter s.handlesAtom := by
  induction elems with
  | nil => rfl
  | cons elem elems ih =>
      rw [List.flatMap_cons, List.filter_append, ← ih]
      cases elem with
      | bytes data =>
          have hdata : (data.map Atom.data).filter s.handlesAtom = data.map Atom.data := by
            rw [List.filter_map]
            simp [Function.comp_def, handlesAtom]
          rw [List.filter_cons_of_pos rfl, List.flatMap_cons, Element.atoms, hdata]
      | command cmd =>
          by_cases h : s.handles (.command cmd) = true <;> simp [Element.atoms, handlesAtom, h]
      | negotiation neg =>
          by_cases h : s.handles (.negotiation neg) = true <;> simp [Element.atoms, handlesAtom, h]
      | subnegotiation sub =>
          by_cases h : s.handles (.subnegotiation sub) = true <;>
            simp [Element.atoms, handlesAtom, h]

/-- Every delivery ends with the one call that has an empty span. -/
theorem log_readAll_append (s : Session σ) (w : σ) (chunks : List Bytes) (content : Bytes) :
    ∃ calls, (s.readAll callback w (chunks ++ [content])).log =
      (s.readAll callback w chunks).log ++ calls ++ [.bytes []] ∧ .bytes [] ∉ calls := by
  obtain ⟨p, hp⟩ := s.deliveries_append chunks content
  refine ⟨(p.feed content).2.filter s.handles, ?_, ?_⟩
  · rw [readAll_eq, readAll_eq, hp, List.flatten_append, List.flatten_singleton,
      List.filter_append, calls, List.filter_append, List.append_assoc]
    rfl
  · intro hspan
    exact p.feed_bytes_ne_nil content [] (List.mem_filter.mp hspan).1 rfl

/-- Whatever is installed, and whatever the handlers and the callback do, the
deliveries act on the world by their logged calls. These are, up to the cuts of
the plain data, those that the joined stream determines, and every delivery ends
with the one call of the callback that has an empty span. -/
theorem asyncReads_cut (write : Element → σ → σ) (installs : List (Installation σ)) (w : σ)
    (chunks chunks' : List Bytes) (h : chunks.flatten = chunks'.flatten) :
    let s := (Session.new write).installAll installs
    let log := (s.readAll callback w chunks).log
    (s.asyncReads callback w chunks).2 =
        log.foldl (fun w elem => s.tokenHandler callback elem w) w ∧
      coalesce log = coalesce (s.readAll callback w chunks').log ∧
      coalesce log = coalesce ((({} : Parser).feed chunks.flatten).2.filter s.handles) ∧
      ∀ before content after, chunks = before ++ content :: after →
        ∃ calls, (s.readAll callback w (before ++ [content])).log =
          (s.readAll callback w before).log ++ calls ++ [.bytes []] ∧ .bytes [] ∉ calls := by
  intro s log
  have hs : s.parser = {} := parser_installAll _ installs
  have hatoms (chunks : List Bytes) :
      ((s.readAll callback w chunks).log).flatMap Element.atoms =
        (Parser.buffered.content s.parser chunks.flatten).filter s.handlesAtom := by
    rw [readAll_eq, atoms_filter_handles, atoms_deliveries_stream (by rw [hs])]
  refine ⟨?_, ?_, ?_, fun before content _ _ => log_readAll_append callback s w before content⟩
  · change _ = (s.readAll callback w chunks).log.foldl _ w
    rw [readAll_eq, foldl_filter_handles, asyncReads_eq_foldl]
  · rw [coalesce_eq_iff, hatoms, hatoms, h]
  · have hfeed : (({} : Parser).feed chunks.flatten).2.flatMap Element.atoms =
        Parser.buffered.content s.parser chunks.flatten := by
      rw [← atoms_calls ({} : Session σ), hs]
      have hone := atoms_deliveries_stream (s := ({} : Session σ)) rfl [chunks.flatten]
      simpa [deliveries] using hone
    rw [coalesce_eq_iff, hatoms, atoms_filter_handles, hfeed]

/-- IAC GA between two bytes of data, in one delivery and cut inside the
command. -/
theorem asyncReads_cut_command :
    let s := (Session.new fun (_ : Element) (n : ℕ) => n).installAll
      [.command 249 fun _ n => n + 1]
    (s.asyncReads (fun _ n => n) 0 [[65, 255], [249, 66]]).2 = 1 ∧
      (s.readAll (fun _ n => n) 0 [[65, 255], [249, 66]]).log =
        [.bytes [65], .bytes [], .command ⟨249⟩, .bytes [66], .bytes []] ∧
      coalesce (s.readAll (fun _ n => n) 0 [[65, 255], [249, 66]]).log =
        coalesce (s.readAll (fun _ n => n) 0 [[65, 255, 249, 66]]).log :=
  ⟨rfl, rfl, (asyncReads_cut (fun _ n => n) (fun _ n => n) [.command 249 fun _ n => n + 1] 0
    [[65, 255], [249, 66]] [[65, 255, 249, 66]] (by decide)).2.1⟩

end Session

end Telnetpp
