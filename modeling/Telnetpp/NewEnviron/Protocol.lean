import Telnetpp.Core
import Telnetpp.Foundation.Transducer

/-!
# The NEW-ENVIRON data format

Requests and responses are sequences of variables, each introduced by a byte
for its type. Names and values are escaped, so that a byte of a name or a
value is never taken for a type or for the start of a value.
-/

namespace Telnetpp.NewEnviron

open Foundation

/-- `detail::option`. -/
def option : OptionType := 39

def is : Byte := 0
def send : Byte := 1
def info : Byte := 2

def var : Byte := 0
def value : Byte := 1
def esc : Byte := 2
def uservar : Byte := 3

inductive VariableType
  | var
  | uservar
  deriving DecidableEq, Repr

/-- The type is written before it is read in the source, and starts as `var` here. -/
structure Request where
  type : VariableType := .var
  name : Bytes := []
  deriving DecidableEq, Repr

structure Response where
  type : VariableType := .var
  name : Bytes := []
  value : Option Bytes := none
  deriving DecidableEq, Repr

def typeToByte : VariableType → Byte
  | .var => var
  | .uservar => uservar

def byteToType (by_ : Byte) : VariableType := if by_ = var then .var else .uservar

def appendEscaped (storage content : Bytes) : Bytes :=
  content.foldl (fun storage ch =>
    if ch = var ∨ ch = value ∨ ch = esc ∨ ch = uservar then storage ++ [esc] ++ [ch]
    else storage ++ [ch]) storage

/-! ## Requests -/

inductive RequestParserState
  | send
  | type
  | name
  | nameEsc
  deriving DecidableEq, Repr

structure RequestParsingState where
  state : RequestParserState := .send
  req : Request := {}
  deriving DecidableEq, Repr

def parseRequestSend (state : RequestParsingState) (_current : Byte) :
    RequestParsingState × List Request :=
  ({ state with state := .type }, [])

def parseRequestType (state : RequestParsingState) (current : Byte) :
    RequestParsingState × List Request :=
  ({ state := .name, req := { state.req with type := byteToType current } }, [])

def parseRequestName (state : RequestParsingState) (current : Byte) :
    RequestParsingState × List Request :=
  if current = esc then ({ state with state := .nameEsc }, [])
  else if current = var ∨ current = uservar then
    ({ state with req := { type := byteToType current } }, [state.req])
  else ({ state with req := { state.req with name := state.req.name ++ [current] } }, [])

def parseRequestNameEsc (state : RequestParsingState) (current : Byte) :
    RequestParsingState × List Request :=
  ({ state := .name, req := { state.req with name := state.req.name ++ [current] } }, [])

def parseRequestByte (state : RequestParsingState) (current : Byte) :
    RequestParsingState × List Request :=
  match state.state with
  | .send => parseRequestSend state current
  | .type => parseRequestType state current
  | .name => parseRequestName state current
  | .nameEsc => parseRequestNameEsc state current

def parseRequestEnd (state : RequestParsingState) : List Request :=
  if state.req.name = [] then [] else [state.req]

def requestMachine : Transducer RequestParsingState Byte Request := ⟨parseRequestByte⟩

/-- The requests that `for_each_request` passes on, in order. -/
def forEachRequest (requests : Bytes) : List Request :=
  requestMachine.outputs {} requests ++ parseRequestEnd (requestMachine.final {} requests)

/-! ## Responses -/

inductive ParserState
  | isOrInfo
  | type
  | name
  | nameEsc
  | value
  | valueEsc
  deriving DecidableEq, Repr

structure ParsingState where
  state : ParserState := .isOrInfo
  rsp : Response := {}
  deriving DecidableEq, Repr

def parseIsOrInfo (state : ParsingState) (_current : Byte) : ParsingState × List Response :=
  ({ state with state := .type }, [])

def parseType (state : ParsingState) (current : Byte) : ParsingState × List Response :=
  ({ state := .name, rsp := { state.rsp with type := byteToType current } }, [])

def parseName (state : ParsingState) (current : Byte) : ParsingState × List Response :=
  if current = var ∨ current = uservar then
    ({ state := .name, rsp := { type := byteToType current } }, [state.rsp])
  else if current = esc then ({ state with state := .nameEsc }, [])
  else if current = value then
    ({ state := .value, rsp := { state.rsp with value := some [] } }, [])
  else ({ state with rsp := { state.rsp with name := state.rsp.name ++ [current] } }, [])

def parseNameEsc (state : ParsingState) (current : Byte) : ParsingState × List Response :=
  ({ state := .name, rsp := { state.rsp with name := state.rsp.name ++ [current] } }, [])

def parseValue (state : ParsingState) (current : Byte) : ParsingState × List Response :=
  if current = var ∨ current = uservar then
    ({ state := .name, rsp := { type := byteToType current } }, [state.rsp])
  else if current = esc then ({ state with state := .valueEsc }, [])
  else ({ state with
            rsp := { state.rsp with value := state.rsp.value.map (· ++ [current]) } }, [])

def parseValueEsc (state : ParsingState) (current : Byte) : ParsingState × List Response :=
  ({ state := .value,
     rsp := { state.rsp with value := state.rsp.value.map (· ++ [current]) } }, [])

def parseByte (state : ParsingState) (current : Byte) : ParsingState × List Response :=
  match state.state with
  | .isOrInfo => parseIsOrInfo state current
  | .type => parseType state current
  | .name => parseName state current
  | .nameEsc => parseNameEsc state current
  | .value => parseValue state current
  | .valueEsc => parseValueEsc state current

def parseEnd (state : ParsingState) : List Response :=
  if state.rsp.name = [] then [] else [state.rsp]

def machine : Transducer ParsingState Byte Response := ⟨parseByte⟩

/-- The responses that `for_each_response` passes on, in order. -/
def forEachResponse (content : Bytes) : List Response :=
  machine.outputs {} content ++ parseEnd (machine.final {} content)

/-! ## Writing variables -/

def appendVariable (storage : Bytes) (type : VariableType) (name : Bytes) : Bytes :=
  appendEscaped (storage ++ [typeToByte type]) name

/-- The overload of `append_variable` with a value. -/
def appendVariableValue (storage : Bytes) (type : VariableType) (name content : Bytes) : Bytes :=
  appendEscaped (appendVariable storage type name ++ [value]) content

/-! ## Responses are read back -/

def escape (by_ : Byte) : Bytes :=
  if by_ = var ∨ by_ = value ∨ by_ = esc ∨ by_ = uservar then [esc, by_] else [by_]

theorem appendEscaped_eq (storage content : Bytes) :
    appendEscaped storage content = storage ++ content.flatMap escape := by
  induction content generalizing storage with
  | nil => simp [appendEscaped]
  | cons ch content ih =>
      have hstep : appendEscaped storage (ch :: content) =
          appendEscaped (storage ++ escape ch) content := by
        simp only [appendEscaped, List.foldl_cons, escape]
        split <;> simp
      rw [hstep, ih, List.flatMap_cons, List.append_assoc]

def encode (rsp : Response) : Bytes :=
  typeToByte rsp.type :: rsp.name.flatMap escape ++
    match rsp.value with
    | none => []
    | some content => value :: content.flatMap escape

theorem appendVariable_eq (storage : Bytes) (type : VariableType) (name : Bytes) :
    appendVariable storage type name = storage ++ encode ⟨type, name, none⟩ := by
  simp [appendVariable, appendEscaped_eq, encode]

theorem appendVariableValue_eq (storage : Bytes) (type : VariableType) (name content : Bytes) :
    appendVariableValue storage type name content =
      storage ++ encode ⟨type, name, some content⟩ := by
  simp [appendVariableValue, appendVariable, appendEscaped_eq, encode]

theorem machine_final_cons (st : ParsingState) (by_ : Byte) (rest : Bytes) :
    machine.final st (by_ :: rest) = machine.final (parseByte st by_).1 rest := rfl

theorem machine_outputs_cons (st : ParsingState) (by_ : Byte) (rest : Bytes) :
    machine.outputs st (by_ :: rest) =
      (parseByte st by_).2 ++ machine.outputs (parseByte st by_).1 rest := rfl

theorem read_name (rsp : Response) (name : Bytes) :
    machine.final ⟨.name, rsp⟩ (name.flatMap escape) =
        ⟨.name, { rsp with name := rsp.name ++ name }⟩ ∧
      machine.outputs ⟨.name, rsp⟩ (name.flatMap escape) = [] := by
  induction name generalizing rsp with
  | nil => simp
  | cons by_ name ih =>
      have hbyte : machine.final ⟨.name, rsp⟩ (escape by_) =
            ⟨.name, { rsp with name := rsp.name ++ [by_] }⟩ ∧
          machine.outputs ⟨.name, rsp⟩ (escape by_) = [] := by
        by_cases h : by_ = var ∨ by_ = value ∨ by_ = esc ∨ by_ = uservar
        · rw [escape, if_pos h]
          exact ⟨rfl, rfl⟩
        · rw [escape, if_neg h]
          simp only [not_or] at h
          simp [machine_final_cons, machine_outputs_cons, parseByte, parseName, h]
      obtain ⟨hfinal, hout⟩ := ih { rsp with name := rsp.name ++ [by_] }
      simp [hbyte, hfinal, hout]

theorem read_value (rsp : Response) (before content : Bytes) :
    machine.final ⟨.value, { rsp with value := some before }⟩ (content.flatMap escape) =
        ⟨.value, { rsp with value := some (before ++ content) }⟩ ∧
      machine.outputs ⟨.value, { rsp with value := some before }⟩ (content.flatMap escape) =
        [] := by
  induction content generalizing before with
  | nil => simp
  | cons by_ content ih =>
      have hbyte : machine.final ⟨.value, { rsp with value := some before }⟩ (escape by_) =
            ⟨.value, { rsp with value := some (before ++ [by_]) }⟩ ∧
          machine.outputs ⟨.value, { rsp with value := some before }⟩ (escape by_) = [] := by
        by_cases h : by_ = var ∨ by_ = value ∨ by_ = esc ∨ by_ = uservar
        · rw [escape, if_pos h]
          exact ⟨rfl, rfl⟩
        · rw [escape, if_neg h]
          simp only [not_or] at h
          simp [machine_final_cons, machine_outputs_cons, parseByte, parseValue, h]
      obtain ⟨hfinal, hout⟩ := ih (before ++ [by_])
      simp [hbyte, hfinal, hout]

/-- The parser has read all of a variable, and the next type byte ends it. -/
def Holds (st : ParsingState) (rsp : Response) : Prop :=
  st.rsp = rsp ∧ (st.state = .name ∨ st.state = .value)

theorem byteToType_typeToByte (type : VariableType) : byteToType (typeToByte type) = type := by
  cases type <;> decide

theorem read_type {st : ParsingState} {rsp : Response} (h : Holds st rsp)
    (type : VariableType) :
    parseByte st (typeToByte type) = (⟨.name, { type := type }⟩, [rsp]) := by
  obtain ⟨rfl, hstate⟩ := h
  have htype : typeToByte type = var ∨ typeToByte type = uservar := by
    cases type <;> simp [typeToByte]
  rcases hstate with hstate | hstate <;>
    simp [parseByte, hstate, parseName, parseValue, htype, byteToType_typeToByte]

theorem read_body (rsp : Response) :
    Holds (machine.final ⟨.name, { type := rsp.type }⟩ (encode rsp).tail) rsp ∧
      machine.outputs ⟨.name, { type := rsp.type }⟩ (encode rsp).tail = [] := by
  rcases rsp with ⟨type, name, content⟩
  obtain ⟨hname, hsilent⟩ := read_name { type := type } name
  rw [List.nil_append] at hname
  cases content with
  | none =>
      have htail : (encode ⟨type, name, none⟩).tail = name.flatMap escape := by simp [encode]
      rw [htail, hname]
      exact ⟨⟨rfl, Or.inl rfl⟩, hsilent⟩
  | some content =>
      obtain ⟨hvalue, hsilent'⟩ := read_value { type := type, name := name } [] content
      rw [List.nil_append] at hvalue
      have htail : (encode ⟨type, name, some content⟩).tail =
          name.flatMap escape ++ value :: content.flatMap escape := by simp [encode]
      have hstart : parseByte ⟨.name, { type := type, name := name }⟩ value =
          (⟨.value, { type := type, name := name, value := some [] }⟩, []) := rfl
      rw [htail, Transducer.final_append, Transducer.outputs_append, hname, hsilent,
        machine_final_cons, machine_outputs_cons, hstart, hvalue, hsilent']
      exact ⟨⟨rfl, Or.inr rfl⟩, rfl⟩

theorem encode_eq (rsp : Response) : encode rsp = typeToByte rsp.type :: (encode rsp).tail := rfl

theorem read_encode {st : ParsingState} {rsp : Response} (h : Holds st rsp) (rsp' : Response) :
    Holds (machine.final st (encode rsp')) rsp' ∧ machine.outputs st (encode rsp') = [rsp] := by
  obtain ⟨hbody, hsilent⟩ := read_body rsp'
  rw [encode_eq, machine_final_cons, machine_outputs_cons, read_type h, hsilent]
  exact ⟨hbody, rfl⟩

/-- Every variable is passed on when the next begins, and the last one at the end. -/
theorem read_responses {st : ParsingState} {rsp : Response} (h : Holds st rsp)
    (hname : rsp.name ≠ []) (rsps : List Response) (hrsps : ∀ r ∈ rsps, r.name ≠ []) :
    machine.outputs st (rsps.flatMap encode) ++
      parseEnd (machine.final st (rsps.flatMap encode)) = rsp :: rsps := by
  have hread (st : ParsingState) (rsp rsp' : Response) (h : Holds st rsp) := read_encode h rsp'
  obtain ⟨last, ⟨rfl, -⟩, houts⟩ := machine.outputs_records hread h rsps
  have hall : ∀ r ∈ rsp :: rsps, r.name ≠ [] := List.forall_mem_cons.mpr ⟨hname, hrsps⟩
  rw [← houts] at hall
  have hlast := hall _ (List.mem_append_right _ (List.mem_singleton_self _))
  rw [parseEnd, if_neg hlast, houts]

/-- Any variables with names that are not empty are read back, whatever bytes
their names and values contain, and whatever the command that comes first. -/
theorem forEachResponse_encode (command : Byte) (rsps : List Response)
    (h : ∀ r ∈ rsps, r.name ≠ []) :
    forEachResponse (command :: rsps.flatMap encode) = rsps := by
  cases rsps with
  | nil => rfl
  | cons rsp rsps =>
      obtain ⟨hrsp, hrsps⟩ := List.forall_mem_cons.mp h
      obtain ⟨hbody, hsilent⟩ := read_body rsp
      have hstart : parseByte ⟨.type, {}⟩ (typeToByte rsp.type) =
          (⟨.name, { type := rsp.type }⟩, []) := by
        simp [parseByte, parseType, byteToType_typeToByte]
      have hcommand : parseByte {} command = (⟨.type, {}⟩, []) := rfl
      rw [forEachResponse, List.flatMap_cons, encode_eq, machine_outputs_cons,
        machine_final_cons, hcommand, List.cons_append, machine_outputs_cons,
        machine_final_cons, hstart, Transducer.outputs_append, Transducer.final_append, hsilent]
      exact read_responses hbody hrsp rsps hrsps

/-! ## Requests are read back -/

def encodeRequest (req : Request) : Bytes := typeToByte req.type :: req.name.flatMap escape

theorem requestMachine_final_cons (st : RequestParsingState) (by_ : Byte) (rest : Bytes) :
    requestMachine.final st (by_ :: rest) =
      requestMachine.final (parseRequestByte st by_).1 rest := rfl

theorem requestMachine_outputs_cons (st : RequestParsingState) (by_ : Byte) (rest : Bytes) :
    requestMachine.outputs st (by_ :: rest) =
      (parseRequestByte st by_).2 ++ requestMachine.outputs (parseRequestByte st by_).1 rest :=
  rfl

theorem read_requestName (req : Request) (name : Bytes) :
    requestMachine.final ⟨.name, req⟩ (name.flatMap escape) =
        ⟨.name, { req with name := req.name ++ name }⟩ ∧
      requestMachine.outputs ⟨.name, req⟩ (name.flatMap escape) = [] := by
  induction name generalizing req with
  | nil => simp
  | cons by_ name ih =>
      have hbyte : requestMachine.final ⟨.name, req⟩ (escape by_) =
            ⟨.name, { req with name := req.name ++ [by_] }⟩ ∧
          requestMachine.outputs ⟨.name, req⟩ (escape by_) = [] := by
        by_cases h : by_ = var ∨ by_ = value ∨ by_ = esc ∨ by_ = uservar
        · rw [escape, if_pos h]
          exact ⟨rfl, rfl⟩
        · rw [escape, if_neg h]
          simp only [not_or] at h
          simp [requestMachine_final_cons, requestMachine_outputs_cons, parseRequestByte,
            parseRequestName, h]
      obtain ⟨hfinal, hout⟩ := ih { req with name := req.name ++ [by_] }
      simp [hbyte, hfinal, hout]

/-- The parser has read all of a request, and the next type byte ends it. -/
def HoldsRequest (st : RequestParsingState) (req : Request) : Prop := st = ⟨.name, req⟩

theorem read_encodeRequest (st : RequestParsingState) (req req' : Request)
    (h : HoldsRequest st req) :
    HoldsRequest (requestMachine.final st (encodeRequest req')) req' ∧
      requestMachine.outputs st (encodeRequest req') = [req] := by
  have htype : parseRequestByte st (typeToByte req'.type) =
      (⟨.name, { type := req'.type }⟩, [req]) := by
    have hbyte : typeToByte req'.type ≠ esc ∧
        (typeToByte req'.type = var ∨ typeToByte req'.type = uservar) := by
      cases req'.type <;> decide
    rw [h]
    simp [parseRequestByte, parseRequestName, hbyte, byteToType_typeToByte]
  obtain ⟨hfinal, hout⟩ := read_requestName { type := req'.type } req'.name
  rw [encodeRequest, requestMachine_final_cons, requestMachine_outputs_cons, htype, hfinal, hout]
  exact ⟨rfl, rfl⟩

theorem read_firstRequest (req : Request) :
    HoldsRequest (requestMachine.final ⟨.type, {}⟩ (encodeRequest req)) req ∧
      requestMachine.outputs ⟨.type, {}⟩ (encodeRequest req) = [] := by
  have htype : parseRequestByte ⟨.type, {}⟩ (typeToByte req.type) =
      (⟨.name, { type := req.type }⟩, []) := by
    simp [parseRequestByte, parseRequestType, byteToType_typeToByte]
  obtain ⟨hfinal, hout⟩ := read_requestName { type := req.type } req.name
  rw [encodeRequest, requestMachine_final_cons, requestMachine_outputs_cons, htype, hfinal, hout]
  exact ⟨rfl, rfl⟩

/-- Any requests with names that are not empty are read back. -/
theorem forEachRequest_encode (command : Byte) (reqs : List Request)
    (h : ∀ r ∈ reqs, r.name ≠ []) :
    forEachRequest (command :: reqs.flatMap encodeRequest) = reqs := by
  cases reqs with
  | nil => rfl
  | cons req reqs =>
      have hcommand : parseRequestByte {} command = (⟨.type, {}⟩, []) := rfl
      obtain ⟨hfirst, hsilent⟩ := read_firstRequest req
      obtain ⟨last, hlast, houts⟩ := requestMachine.outputs_records read_encodeRequest hfirst reqs
      rw [← houts] at h
      have hname := h last (List.mem_append_right _ (List.mem_singleton_self _))
      rw [forEachRequest, List.flatMap_cons, requestMachine_outputs_cons,
        requestMachine_final_cons, hcommand, Transducer.outputs_append, Transducer.final_append,
        hsilent, hlast, parseRequestEnd, if_neg hname]
      exact houts

end Telnetpp.NewEnviron
