import Telnetpp.Msdp.Variable

/-!
# The MSDP decoder

The class `parser` of the decoder with its stack of pointers into the
variable under construction. What is undefined behaviour or an exception in
the source is a fault here.
-/

namespace Telnetpp.Msdp

inductive Fault
  | emptyStack
  | emptyArray
  | badVariantAccess
  | danglingPointer
  deriving DecidableEq, Repr

inductive State
  | idle
  | name
  | value
  | array
  deriving DecidableEq, Repr

/-- `current_var_` has its back first; `reported` is what `cont_` was called
with. -/
structure Decoder where
  var_ : Variable := {}
  currentVar : List Pointer := []
  state : State := .idle
  reported : List Variable := []

namespace Decoder

variable (d : Decoder)

/-- The back of the stack and what it points to. -/
def top : Except Fault (Pointer × Variable) :=
  match d.currentVar with
  | [] => .error .emptyStack
  | p :: _ =>
      match d.var_.at? p with
      | some v => .ok (p, v)
      | none => .error .danglingPointer

/-- Assigning a value to the top variable, or adding an entry to its table,
invalidates the pointers to what lies below it. -/
def setValue (value : Value Variable) : Except Fault Decoder := do
  let (p, v) ← d.top
  if d.currentVar.any fun q => p <+: q ∧ p ≠ q then .error .danglingPointer
  else .ok { d with var_ := d.var_.assign { v with value := value } p }

def openVariable : Except Fault Decoder :=
  match d.currentVar with
  | [] => .ok { d with var_ := {}, currentVar := [[]] }
  | _ => do
      let (p, v) ← d.top
      match v.value with
      | .table es => do
          let d' ← d.setValue (.table (es ++ [{}]))
          .ok { d' with currentVar := (p ++ [es.length]) :: d'.currentVar }
      | _ => .error .badVariantAccess

def closeVariable : Except Fault Decoder :=
  match d.currentVar with
  | [] => .error .emptyStack
  | [_] => .ok { d with currentVar := [], reported := d.reported ++ [d.var_], var_ := {} }
  | _ :: ps => .ok { d with currentVar := ps }

def parseIdle (data : Byte) : Except Fault Decoder :=
  if data = var then do
    let d' ← d.openVariable
    .ok { d' with state := .name }
  else if data = tableClose then do
    let d' ← d.closeVariable
    .ok { d' with state := .idle }
  else .ok d

def parseName (data : Byte) : Except Fault Decoder :=
  if data = val then { d with state := .value }.setValue (.string [])
  else do
    let (p, v) ← d.top
    .ok { d with var_ := d.var_.assign { v with name := v.name ++ [data] } p }

def parseValue (data : Byte) : Except Fault Decoder :=
  if data = arrayOpen then do
    let d' ← d.setValue (.array [])
    .ok { d' with state := .array }
  else if data = tableOpen then do
    let d' ← d.setValue (.table [])
    .ok { d' with state := .idle }
  else if data = tableClose then do
    let d' ← d.closeVariable
    .ok { d' with state := .idle }
  else if data = var then do
    let d' ← d.closeVariable
    let d'' ← d'.openVariable
    .ok { d'' with state := .name }
  else do
    let (p, v) ← d.top
    match v.value with
    | .string s => .ok { d with var_ := d.var_.assign { v with value := .string (s ++ [data]) } p }
    | _ => .error .badVariantAccess

def parseArray (data : Byte) : Except Fault Decoder :=
  if data = arrayClose then do
    let d' ← d.closeVariable
    .ok { d' with state := .idle }
  else do
    let (p, v) ← d.top
    match v.value with
    | .array items =>
        if data = val then
          .ok { d with var_ := d.var_.assign { v with value := .array (items ++ [[]]) } p }
        else
          match items.getLast? with
          | none => .error .emptyArray
          | some s =>
              let items' := items.dropLast ++ [s ++ [data]]
              .ok { d with var_ := d.var_.assign { v with value := .array items' } p }
    | _ => .error .badVariantAccess

/-- `operator()`. -/
def parse (data : Byte) : Except Fault Decoder :=
  match d.state with
  | .idle => d.parseIdle data
  | .name => d.parseName data
  | .value => d.parseValue data
  | .array => d.parseArray data

/-- Everything `cont_` has been called with when `finish` returns. -/
def finish : List Variable :=
  if d.var_.name ≠ [] then d.reported ++ [d.var_] else d.reported

end Decoder

def decode (data : Bytes) : Except Fault (List Variable) := do
  let d ← data.foldlM Decoder.parse {}
  .ok d.finish

/-- What `cont_` is called with and what goes wrong, if anything does. A byte that goes wrong
has reported nothing. -/
def Decoder.signals (d : Decoder) : Bytes → List Variable × Option Fault
  | [] => (d.finish, none)
  | byte :: data =>
      match d.parse byte with
      | .ok d' => d'.signals data
      | .error fault => (d.reported, some fault)

theorem Decoder.foldlM_parse (d : Decoder) (data : Bytes) :
    (do let d' ← data.foldlM Decoder.parse d; .ok d'.finish) =
      match d.signals data with
      | (vs, none) => .ok vs
      | (_, some fault) => .error fault := by
  induction data generalizing d with
  | nil => rfl
  | cons byte data ih =>
      rw [List.foldlM_cons, signals]
      cases d.parse byte with
      | ok d' => exact ih d'
      | error fault => rfl

/-- Nothing goes wrong in a content that is decoded, and all that is decoded is reported. -/
theorem signals_of_decode {data : Bytes} {vs : List Variable} (h : decode data = .ok vs) :
    Decoder.signals {} data = (vs, none) := by
  rw [decode, Decoder.foldlM_parse] at h
  split at h
  · next hsignals => rw [hsignals, Except.ok.inj h]
  · exact nomatch h

end Telnetpp.Msdp
