import Telnetpp.NewEnviron.Mirror

/-!
# Requests and their answers

What a client that asks for variables is told: the content that it writes is
read by the server, the server's response is read by the client, and the
variables come back in the order in which they were asked for.
-/

namespace Telnetpp.NewEnviron

open Foundation

/-! ## The content of a request -/

def requestContent (reqs : List Request) : Bytes :=
  reqs.foldl (fun requestContent request =>
    appendEscaped (requestContent ++ [typeToByte request.type]) request.name) [send]

theorem requestContent_eq (reqs : List Request) :
    requestContent reqs = send :: reqs.flatMap encodeRequest := by
  have hfold (before : Bytes) : reqs.foldl (fun requestContent request =>
        appendEscaped (requestContent ++ [typeToByte request.type]) request.name) before =
      before ++ reqs.flatMap encodeRequest := by
    induction reqs generalizing before with
    | nil => simp
    | cons req reqs ih =>
        rw [List.foldl_cons, ih, appendEscaped_eq, List.flatMap_cons, encodeRequest]
        simp
  exact hfold [send]

/-- Only a request for everything is one byte long. -/
theorem requestContent_length (reqs : List Request) :
    (requestContent reqs).length = 1 ↔ reqs = [] := by
  rw [requestContent_eq]
  cases reqs with
  | nil => simp
  | cons req reqs => simp [encodeRequest]

theorem forEachRequest_requestContent {reqs : List Request} (h : ∀ req ∈ reqs, req.name ≠ []) :
    forEachRequest (requestContent reqs) = reqs := by
  rw [requestContent_eq]
  exact forEachRequest_encode send reqs h

/-! ## The answers -/

/-- The stored value of the variable that was asked for, if there is one. -/
def answer (env : Environment) (req : Request) : Option Response :=
  (env.lookup (req.type, req.name)).map fun content => ⟨req.type, req.name, some content⟩

/-- What a list of requests is answered with. -/
def answers (env : Environment) (reqs : List Request) : List Response :=
  if reqs = [] then listing env else reqs.filterMap (answer env)

theorem lookup_of_mem_answers {env : Environment} {reqs : List Request} {rsp : Response}
    (h : rsp ∈ answers env reqs) : env.lookup (rsp.type, rsp.name) ≠ none := by
  rw [answers] at h
  split at h
  · obtain ⟨content, -, hlookup⟩ := mem_listing.mp h
    simp [hlookup]
  · obtain ⟨req, -, hreq⟩ := List.mem_filterMap.mp h
    obtain ⟨content, hcontent, rfl⟩ := Option.map_eq_some_iff.mp hreq
    simp [hcontent]

theorem response_requestContent (s : Server) {reqs : List Request}
    (h : ∀ req ∈ reqs, req.name ≠ []) :
    s.response (requestContent reqs) =
      is :: (answers s.toEnvironment reqs).flatMap encode := by
  by_cases hreqs : reqs = []
  · subst hreqs
    exact response_send s
  · have hlength : (requestContent reqs).length ≠ 1 := by rwa [Ne, requestContent_length]
    have hfold (f : Bytes → Request → Bytes)
        (hf : ∀ response req, f response req =
          response ++ (answer s.toEnvironment req).toList.flatMap encode)
        (reqs : List Request) (response : Bytes) : reqs.foldl f response =
          response ++ (reqs.filterMap (answer s.toEnvironment)).flatMap encode := by
      induction reqs generalizing response with
      | nil => simp
      | cons req reqs ih =>
          rw [List.foldl_cons, ih, hf, List.filterMap_cons]
          cases hanswer : answer s.toEnvironment req with
          | none => simp
          | some resp => simp
    rw [Server.response, if_neg hlength, forEachRequest_requestContent h, answers, if_neg hreqs]
    apply hfold
    intro response req
    cases hlookup : s.lookup (req.type, req.name) with
    | none => simp [answer, hlookup]
    | some content => simp [answer, hlookup, appendVariableValue_eq]

/-! ## The order of a listing -/

/-- `std::map` keeps its keys in lexicographic order. -/
theorem lt_of_compare {name name' : Bytes} (h : compare name name' = .lt) : name < name' := by
  induction name generalizing name' with
  | nil =>
      cases name' with
      | nil => simp at h
      | cons by_' name' => exact List.nil_lt_cons by_' name'
  | cons by_ name ih =>
      cases name' with
      | nil => simp at h
      | cons by_' name' =>
          rw [List.compare_eq_compareLex, List.compareLex_cons_cons, ← List.compare_eq_compareLex,
            Ordering.then_eq_lt] at h
          rcases h with hlt | ⟨heq, hlt⟩
          · exact List.cons_lt_cons_iff.mpr (Or.inl (Std.compare_eq_lt.mp hlt))
          · exact List.cons_lt_cons_iff.mpr (Or.inr ⟨Std.LawfulEqOrd.eq_of_compare heq, ih hlt⟩)

/-- Every variable of a map, in name order. -/
structure InNameOrder (storage : VariableStorage) (entries : List (Bytes × Bytes)) : Prop where
  sorted : entries.Pairwise fun entry entry' => entry.1 < entry'.1
  complete : ∀ name content, (name, content) ∈ entries ↔ storage[name]? = some content

theorem inNameOrder_toList (storage : VariableStorage) : InNameOrder storage storage.toList := by
  constructor
  · exact storage.ordered_keys_toList.imp lt_of_compare
  · intro name content
    exact Std.TreeMap.mem_toList_iff_getElem?_eq_some

/-! ## A request and its response -/

/-- A client whose signals are connected to the given functions. -/
def connectedClient {σ : Type*} (state : σ → InternalState) (setState : InternalState → σ → σ)
    (write : Element → σ → σ) (onStateChanged : σ → σ) (onVariableChanged : σ → Response → σ) :
    ClientOption σ where
  optionCode := option
  state := state
  setState := setState
  write := write
  onStateChanged := onStateChanged
  handleSubnegotiation data w := (forEachResponse data).foldl onVariableChanged w

theorem client_eq_connectedClient {Ω : Type} (write : Element → Outbox Client Ω → Outbox Client Ω) :
    client write = connectedClient (fun w => w.own.state)
      (fun st w => { w with own.state := st }) write (onStateChanged write) onVariableChanged :=
  rfl

section Exchange

variable {σ : Type*} {state : σ → InternalState} {setState : InternalState → σ → σ}
  {write : Element → σ → σ} {onStateChanged : σ → σ}

/-- The server answers what the client writes, and whatever is connected to
`on_variable_changed` is called with the answers, in order. -/
theorem requestVariables_answered {env : Environment} (henv : env.Named) {reqs : List Request}
    (hreqs : ∀ req ∈ reqs, req.name ≠ []) (asking : Outbox Client Element)
    (sent : List Element) (onVariableChanged : σ → Response → σ) {w : σ}
    (hw : state w = .active) :
    ∃ request response vars uservars,
      requestVariables Outbox.writeElement reqs asking =
          asking.writeElement (.subnegotiation ⟨option, request⟩) ∧
        (server Outbox.writeElement).subnegotiate request ⟨⟨env, .active⟩, sent⟩ =
          ⟨⟨env, .active⟩, sent ++ [.subnegotiation ⟨option, response⟩]⟩ ∧
        InNameOrder env.variables_ vars ∧ InNameOrder env.userVariables_ uservars ∧
        (connectedClient state setState write onStateChanged onVariableChanged).subnegotiate
            response w =
          (if reqs = [] then
            vars.map (fun entry => (⟨.var, entry.1, some entry.2⟩ : Response)) ++
              uservars.map fun entry => ⟨.uservar, entry.1, some entry.2⟩
          else reqs.filterMap (answer env)).foldl onVariableChanged w := by
  have hnames : ∀ rsp ∈ answers env reqs, rsp.name ≠ [] := by
    intro rsp hrsp
    exact henv (rsp.type, rsp.name) (lookup_of_mem_answers hrsp)
  have hread := forEachResponse_encode is (answers env reqs) hnames
  have hresponse := response_requestContent ⟨env, .active⟩ hreqs
  refine ⟨requestContent reqs, is :: (answers env reqs).flatMap encode,
    env.variables_.toList, env.userVariables_.toList, rfl, ?_, inNameOrder_toList _,
    inNameOrder_toList _, ?_⟩
  · rw [← hresponse]
    rfl
  · apply Eq.trans (if_pos hw)
    exact congrArg (fun rsps => rsps.foldl onVariableChanged w) hread

/-- Variables of the same name in both maps, with runs of the control bytes. -/
def twinEnvironment : Environment :=
  (Environment.write ((.uservar, [2, 2, 0]), some [1, 3])
    (Environment.write ((.var, [2, 2, 0]), some [255, 2]) {}))

/-- One of the twins is asked for twice, and another name is not stored. -/
def twinRequests : List Request :=
  [⟨.uservar, [2, 2, 0]⟩, ⟨.var, [7]⟩, ⟨.var, [2, 2, 0]⟩, ⟨.uservar, [2, 2, 0]⟩]

theorem requestVariables_answered_twins :
    ∃ request response vars uservars,
      requestVariables Outbox.writeElement twinRequests ⟨{}, []⟩ =
          Outbox.writeElement (.subnegotiation ⟨option, request⟩) ⟨{}, []⟩ ∧
        (server Outbox.writeElement).subnegotiate request ⟨⟨twinEnvironment, .active⟩, []⟩ =
          ⟨⟨twinEnvironment, .active⟩, [] ++ [.subnegotiation ⟨option, response⟩]⟩ ∧
        InNameOrder twinEnvironment.variables_ vars ∧
        InNameOrder twinEnvironment.userVariables_ uservars ∧
        (connectedClient (fun _ : List Response => .active) (fun _ w => w) (fun _ w => w) id
            fun fired rsp => fired ++ [rsp]).subnegotiate response [] =
          (if twinRequests = [] then
            vars.map (fun entry => (⟨.var, entry.1, some entry.2⟩ : Response)) ++
              uservars.map fun entry => ⟨.uservar, entry.1, some entry.2⟩
          else twinRequests.filterMap (answer twinEnvironment)).foldl
            (fun fired rsp => fired ++ [rsp]) [] :=
  requestVariables_answered
    ((named_empty.write (by decide) (some [255, 2])).write (by decide) (some [1, 3]))
    (by decide) ⟨{}, []⟩ [] (fun fired rsp => fired ++ [rsp]) rfl

example : twinRequests.filterMap (answer twinEnvironment) =
    [⟨.uservar, [2, 2, 0], some [1, 3]⟩, ⟨.var, [2, 2, 0], some [255, 2]⟩,
      ⟨.uservar, [2, 2, 0], some [1, 3]⟩] := by decide

end Exchange

end Telnetpp.NewEnviron
