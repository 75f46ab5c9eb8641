import Telnetpp.Core

/-!
# The generator

`generate` turns an element into the spans of bytes it hands to its
continuation, one after another.
-/

namespace Telnetpp

/-- The loop of `generate_escaped`. `pending` are the bytes between `begin`
and `current`; after a 0xFF byte the next span begins with that byte again. -/
def generateEscapedLoop (pending : Bytes) : Bytes → List Bytes
  | [] => if pending = [] then [] else [pending]
  | by_ :: rest =>
      if by_ = iac then (pending ++ [by_]) :: generateEscapedLoop [by_] rest
      else generateEscapedLoop (pending ++ [by_]) rest

def generateEscaped (data : Bytes) : List Bytes := generateEscapedLoop [] data

def generateCommand (cmd : Command) : List Bytes := [[iac, cmd.value]]

def generateNegotiation (neg : Negotiation) : List Bytes :=
  [[iac, neg.request, neg.optionCode]]

def generateSubnegotiation (sub : Subnegotiation) : List Bytes :=
  [[iac, sb, sub.option]] ++ generateEscaped sub.content ++ [[iac, se]]

def generate : Element → List Bytes
  | .bytes data => generateEscaped data
  | .command cmd => generateCommand cmd
  | .negotiation neg => generateNegotiation neg
  | .subnegotiation sub => generateSubnegotiation sub

/-- All bytes that `generate` passes on for an element. -/
def wire (elem : Element) : Bytes := (generate elem).flatten

/-- Each 0xFF byte is sent twice. -/
def escapeByte (by_ : Byte) : Bytes := if by_ = iac then [iac, iac] else [by_]

theorem generateEscapedLoop_flatten (pending data : Bytes) :
    (generateEscapedLoop pending data).flatten = pending ++ data.flatMap escapeByte := by
  induction data generalizing pending with
  | nil => by_cases h : pending = [] <;> simp [generateEscapedLoop, h]
  | cons by_ rest ih =>
      by_cases h : by_ = iac <;> simp [generateEscapedLoop, escapeByte, h, ih]

theorem generateEscaped_flatten (data : Bytes) :
    (generateEscaped data).flatten = data.flatMap escapeByte :=
  generateEscapedLoop_flatten [] data

@[simp] theorem wire_bytes (data : Bytes) :
    wire (.bytes data) = data.flatMap escapeByte := generateEscaped_flatten data

@[simp] theorem wire_command (cmd : Command) : wire (.command cmd) = [iac, cmd.value] := rfl

@[simp] theorem wire_negotiation (neg : Negotiation) :
    wire (.negotiation neg) = [iac, neg.request, neg.optionCode] := rfl

@[simp] theorem wire_subnegotiation (sub : Subnegotiation) :
    wire (.subnegotiation sub) =
      [iac, sb, sub.option] ++ sub.content.flatMap escapeByte ++ [iac, se] := by
  simp [wire, generate, generateSubnegotiation, generateEscaped_flatten]

theorem escapeByte_ne_nil (by_ : Byte) : escapeByte by_ ≠ [] := by
  rw [escapeByte]
  split <;> exact List.cons_ne_nil _ _

/-- Nothing is passed on for an empty text only. -/
theorem generate_eq_nil {elem : Element} (h : generate elem = []) : elem = .bytes [] := by
  have hwire : wire elem = [] := by rw [wire, h, List.flatten_nil]
  cases elem with
  | bytes data =>
      rw [wire_bytes, List.flatMap_eq_nil_iff] at hwire
      rw [List.eq_nil_iff_forall_not_mem.mpr fun by_ hby => escapeByte_ne_nil by_ (hwire by_ hby)]
  | command cmd => exact absurd hwire (List.cons_ne_nil _ _)
  | negotiation neg => exact absurd hwire (List.cons_ne_nil _ _)
  | subnegotiation sub =>
      rw [wire_subnegotiation] at hwire
      exact absurd hwire (List.cons_ne_nil _ _)

example : wire (.bytes [65, 255, 66]) = [65, 255, 255, 66] := by decide

end Telnetpp
