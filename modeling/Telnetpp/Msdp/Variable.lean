import Telnetpp.Core

/-!
# MSDP variables

A variable has a name and a value, which is a string, an array of strings or
a table of variables. Lists of variables are the forests that the proofs are
by induction on.
-/

namespace Telnetpp.Msdp

def var : Byte := 1
def val : Byte := 2
def tableOpen : Byte := 3
def tableClose : Byte := 4
def arrayOpen : Byte := 5
def arrayClose : Byte := 6

/-- `value_type`, over the type of the entries of a table. -/
inductive Value (α : Type)
  | string (s : Bytes)
  | array (items : List Bytes)
  | table (entries : List α)

structure Variable where
  name : Bytes := []
  value : Value Variable := .string []

/-- How a variable begins in a message: VAR, the name, VAL. -/
def header (n : Bytes) : Bytes := var :: (n ++ [val])

/-- The induction over a list of variables and the tables below it. -/
theorem forest_induction {P : List Variable → Prop} (nil : P [])
    (string : ∀ n s vs, P vs → P (⟨n, .string s⟩ :: vs))
    (array : ∀ n items vs, P vs → P (⟨n, .array items⟩ :: vs))
    (table : ∀ n es vs, P es → P vs → P (⟨n, .table es⟩ :: vs)) (vs : List Variable) :
    P vs := by
  refine Variable.rec_2 (motive_1 := fun v => ∀ vs, P vs → P (v :: vs))
    (motive_2 := fun value => ∀ n vs, P vs → P (⟨n, value⟩ :: vs)) (motive_3 := P)
    ?_ ?_ ?_ ?_ ?_ ?_ vs
  · intro n value hvalue vs hvs
    exact hvalue n vs hvs
  · intro s n vs hvs
    exact string n s vs hvs
  · intro items n vs hvs
    exact array n items vs hvs
  · intro es hes n vs hvs
    exact table n es vs hes hvs
  · exact nil
  · intro v vs hv hvs
    exact hv vs hvs

/-! ## Pointers into a variable -/

/-- A pointer to a variable below another one: the indices of the entries
that lead to it. -/
abbrev Pointer := List ℕ

def Variable.at? (v : Variable) : Pointer → Option Variable
  | [] => some v
  | i :: p =>
      match v.value with
      | .table es => (es[i]?).bind fun w => w.at? p
      | _ => none

def Variable.assign (v : Variable) (w : Variable) : Pointer → Variable
  | [] => w
  | i :: p =>
      match v.value with
      | .table es => { v with value := .table (es.modify i fun u => u.assign w p) }
      | _ => v

/-! ## Well-formed names and strings -/

/-- The six bytes that structure a message. -/
def isControl (by_ : Byte) : Bool := 1 ≤ by_ && by_ ≤ 6

def Plain (data : Bytes) : Prop := ∀ by_ ∈ data, isControl by_ = false

theorem Plain.ne {data : Bytes} (h : Plain data) {by_ : Byte} (hby : by_ ∈ data) :
    by_ ≠ var ∧ by_ ≠ val ∧ by_ ≠ tableOpen ∧ by_ ≠ tableClose ∧ by_ ≠ arrayOpen ∧
      by_ ≠ arrayClose := by
  have hplain := h by_ hby
  refine ⟨?_, ?_, ?_, ?_, ?_, ?_⟩ <;>
    · rintro rfl
      exact absurd hplain (by decide)

theorem Plain.cons {by_ : Byte} {data : Bytes} (h : Plain (by_ :: data)) : Plain data := by
  intro b hb
  exact h b (List.mem_cons_of_mem _ hb)

/-- All names are non-empty, and no name or string holds a control byte. -/
def Clean : List Variable → Prop
  | [] => True
  | ⟨n, .string s⟩ :: vs => (n ≠ [] ∧ Plain n) ∧ Plain s ∧ Clean vs
  | ⟨n, .array items⟩ :: vs => (n ≠ [] ∧ Plain n) ∧ (∀ s ∈ items, Plain s) ∧ Clean vs
  | ⟨n, .table es⟩ :: vs => (n ≠ [] ∧ Plain n) ∧ Clean es ∧ Clean vs

/-! ## How a list of variables ends -/

/-- The last variable is a string, or a table that ends in a string. -/
def endsInString : List Variable → Bool
  | [] => false
  | [⟨_, .string _⟩] => true
  | [⟨_, .array _⟩] => false
  | [⟨_, .table es⟩] => endsInString es
  | _ :: v :: vs => endsInString (v :: vs)

theorem endsInString_cons {v : Variable} {vs : List Variable} (h : vs ≠ []) :
    endsInString (v :: vs) = endsInString vs := by
  cases vs with
  | nil => exact absurd rfl h
  | cons w vs => rcases v with ⟨n, s | items | es⟩ <;> simp only [endsInString]

end Telnetpp.Msdp
