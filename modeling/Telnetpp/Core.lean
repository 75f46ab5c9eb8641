import Mathlib.Data.List.Basic
import Mathlib.Tactic.Common

/-!
# Bytes, commands and elements

The data that passes between a session and its channel: commands,
negotiations, subnegotiations and plain bytes, and the `element` that can
hold any of them.
-/

namespace Telnetpp

abbrev Byte := UInt8
abbrev OptionType := Byte
abbrev CommandType := Byte
abbrev NegotiationType := Byte

abbrev Bytes := List Byte

def se : CommandType := 240
def sb : CommandType := 250
def will : CommandType := 251
def wont : CommandType := 252
def do_ : CommandType := 253
def dont : CommandType := 254
def iac : CommandType := 255

/-- The requests for which the constructor of a negotiation asserts. -/
def isNegotiationType (by_ : Byte) : Bool :=
  by_ == will || by_ == wont || by_ == do_ || by_ == dont

@[ext]
structure Command where
  value : CommandType
  deriving DecidableEq, Repr

@[ext]
structure Negotiation where
  request : NegotiationType
  optionCode : OptionType
  deriving DecidableEq, Repr

@[ext]
structure Subnegotiation where
  option : OptionType
  content : Bytes
  deriving DecidableEq, Repr

inductive Element
  | bytes (data : Bytes)
  | negotiation (neg : Negotiation)
  | subnegotiation (sub : Subnegotiation)
  | command (cmd : Command)
  deriving DecidableEq, Repr

namespace Element

/-- The elements that have a meaning on the wire: a command must not carry a
value that the parser reads as something else, and a negotiation must carry
one of the four requests. -/
def WellFormed : Element → Prop
  | .bytes _ => True
  | .negotiation neg => isNegotiationType neg.request = true
  | .subnegotiation _ => True
  | .command cmd =>
      cmd.value ≠ iac ∧ cmd.value ≠ sb ∧ isNegotiationType cmd.value = false

instance : DecidablePred WellFormed := fun e => by
  cases e <;> unfold WellFormed <;> infer_instance

end Element

/-! ## Reading a list of elements up to the cuts of its plain data -/

/-- One byte of plain data, or one element that is not plain data. -/
inductive Atom
  | data (by_ : Byte)
  | token (elem : Element)
  deriving DecidableEq, Repr

def Element.atoms : Element → List Atom
  | .bytes data => data.map .data
  | elem => [.token elem]

/-- Put one plain span in front of a list of elements. -/
def consBytes (data : Bytes) : List Element → List Element
  | .bytes data' :: elems => .bytes (data ++ data') :: elems
  | elems => if data = [] then elems else .bytes data :: elems

/-- Drop the empty plain spans and merge the adjacent ones. -/
def coalesce : List Element → List Element
  | [] => []
  | .bytes data :: elems => consBytes data (coalesce elems)
  | elem :: elems => elem :: coalesce elems

def regroup : List Atom → List Element
  | [] => []
  | .data by_ :: as => consBytes [by_] (regroup as)
  | .token elem :: as => elem :: regroup as

@[simp] theorem Element.atoms_bytes (data : Bytes) :
    (Element.bytes data).atoms = data.map .data := rfl

theorem atoms_consBytes (data : Bytes) (elems : List Element) :
    (consBytes data elems).flatMap Element.atoms =
      data.map .data ++ elems.flatMap Element.atoms := by
  cases elems with
  | nil => by_cases h : data = [] <;> simp [consBytes, h]
  | cons elem elems => cases elem <;> by_cases h : data = [] <;> simp [consBytes, h]

theorem atoms_coalesce (elems : List Element) :
    (coalesce elems).flatMap Element.atoms = elems.flatMap Element.atoms := by
  induction elems with
  | nil => rfl
  | cons elem elems ih =>
      cases elem with
      | bytes data => simp [coalesce, atoms_consBytes, ih]
      | _ => simp [coalesce, ih]

theorem consBytes_nil (elems : List Element) : consBytes [] elems = elems := by
  cases elems with
  | nil => rfl
  | cons elem elems => cases elem <;> simp [consBytes]

theorem consBytes_consBytes (data data' : Bytes) (elems : List Element) :
    consBytes data (consBytes data' elems) = consBytes (data ++ data') elems := by
  by_cases h' : data' = []
  · simp [h', consBytes_nil]
  · cases elems with
    | nil => simp [consBytes, h']
    | cons elem elems => cases elem <;> simp [consBytes, h']

theorem regroup_data (data : Bytes) (as : List Atom) :
    regroup (data.map .data ++ as) = consBytes data (regroup as) := by
  induction data with
  | nil => exact (consBytes_nil _).symm
  | cons by_ data ih => simp [regroup, ih, consBytes_consBytes]

theorem regroup_atoms (elems : List Element) :
    regroup (elems.flatMap Element.atoms) = coalesce elems := by
  induction elems with
  | nil => rfl
  | cons elem elems ih =>
      cases elem with
      | bytes data => simp [coalesce, regroup_data, ih]
      | _ => simp [coalesce, Element.atoms, regroup, ih]

/-- Two lists of elements differ only by the cuts of their plain data exactly
when they have the same atoms. -/
theorem coalesce_eq_iff (elems elems' : List Element) :
    coalesce elems = coalesce elems' ↔
      elems.flatMap Element.atoms = elems'.flatMap Element.atoms := by
  constructor
  · intro h
    rw [← atoms_coalesce elems, h, atoms_coalesce]
  · intro h
    rw [← regroup_atoms, h, regroup_atoms]

end Telnetpp
