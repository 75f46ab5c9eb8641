import Telnetpp.Foundation.Run

/-!
# Two processes joined by two FIFO links

A process reacts to inputs of its own and to received messages, each time
sending a list of messages. Two processes joined by a link in each
direction form a net, whose events are the inputs at either end and the
deliveries. A delivery from an empty link changes nothing.
-/

namespace Foundation

/-- `ι` are the inputs of the process, `κ` the choices it makes on a
delivery, `A` the messages it reads and `B` the messages it sends. -/
structure Process (ι κ A B σ : Type*) where
  act : ι → σ → σ × List B
  recv : κ → A → σ → σ × List B

/-- Started in `I` and sent messages of `QA`, the process stays in `I` and sends
messages of `QB`. -/
structure Process.Keeps {ι κ A B σ : Type*} (P : Process ι κ A B σ) (I : σ → Prop)
    (QA : A → Prop) (QB : B → Prop) : Prop where
  act : ∀ i {s}, I s → I (P.act i s).1 ∧ ∀ b ∈ (P.act i s).2, QB b
  recv : ∀ k {a}, QA a → ∀ {s}, I s → I (P.recv k a s).1 ∧ ∀ b ∈ (P.recv k a s).2, QB b

/-- Started in `I` and sent messages of `QA`, the process does what `P₁` does, with
the states read through `f` and the messages through `u` and `v`. An input may
be nothing to `P₁`. -/
structure Process.Simulates {ι κ A B σ ι₁ κ₁ A₁ B₁ σ₁ : Type*} (P : Process ι κ A B σ)
    (P₁ : Process ι₁ κ₁ A₁ B₁ σ₁) (f : σ → σ₁) (u : A → A₁) (v : B → B₁) (I : σ → Prop)
    (QA : A → Prop) : Prop where
  act : ∀ i {s}, I s → (f (P.act i s).1 = f s ∧ (P.act i s).2 = []) ∨
    ∃ i₁, P₁.act i₁ (f s) = (f (P.act i s).1, (P.act i s).2.map v)
  recv : ∀ k {a}, QA a → ∀ {s}, I s →
    ∃ k₁, P₁.recv k₁ (u a) (f s) = (f (P.recv k a s).1, (P.recv k a s).2.map v)

/-- The states of both ends and the messages in flight towards each. -/
@[ext]
structure Net (A B σ τ : Type*) where
  left : σ
  right : τ
  toLeft : List A
  toRight : List B

inductive NetEvent (ι κ ι' κ' : Type*)
  | actLeft (i : ι)
  | actRight (i : ι')
  | deliverLeft (k : κ)
  | deliverRight (k : κ')

namespace Net

variable {ι κ ι' κ' A B σ τ : Type*}
variable (P : Process ι κ A B σ) (Q : Process ι' κ' B A τ)

def step (n : Net A B σ τ) : NetEvent ι κ ι' κ' → Net A B σ τ
  | .actLeft i =>
      { n with left := (P.act i n.left).1, toRight := n.toRight ++ (P.act i n.left).2 }
  | .actRight i =>
      { n with right := (Q.act i n.right).1, toLeft := n.toLeft ++ (Q.act i n.right).2 }
  | .deliverLeft k =>
      match n.toLeft with
      | [] => n
      | m :: ms =>
          { left := (P.recv k m n.left).1
            right := n.right
            toLeft := ms
            toRight := n.toRight ++ (P.recv k m n.left).2 }
  | .deliverRight k =>
      match n.toRight with
      | [] => n
      | m :: ms =>
          { left := n.left
            right := (Q.recv k m n.right).1
            toLeft := n.toLeft ++ (Q.recv k m n.right).2
            toRight := ms }

theorem step_deliverLeft_cons {n : Net A B σ τ} {m : A} {ms : List A}
    (h : n.toLeft = m :: ms) (k : κ) :
    n.step P Q (.deliverLeft k) =
      ⟨(P.recv k m n.left).1, n.right, ms, n.toRight ++ (P.recv k m n.left).2⟩ := by
  simp only [step, h]

/-- One delivery from a link that is not empty, under the given choices. -/
inductive Delivers (k : κ) (k' : κ') : Net A B σ τ → Net A B σ τ → Prop
  | left {n : Net A B σ τ} (h : n.toLeft ≠ []) :
      Delivers k k' n (n.step P Q (.deliverLeft k))
  | right {n : Net A B σ τ} (h : n.toRight ≠ []) :
      Delivers k k' n (n.step P Q (.deliverRight k'))

/-- The net seen from its other end. -/
def swap (n : Net A B σ τ) : Net B A τ σ := ⟨n.right, n.left, n.toRight, n.toLeft⟩

theorem step_deliverRight_swap (n : Net A B σ τ) (k : κ') :
    n.step P Q (.deliverRight k) = (n.swap.step Q P (.deliverLeft k)).swap := by
  rcases n with ⟨l, r, a, b⟩
  cases b <;> rfl

variable {P Q}

/-- The ends keep `I` and `J`, and the links carry messages of `QA` and `QB`. -/
structure Carries (I : σ → Prop) (J : τ → Prop) (QA : A → Prop) (QB : B → Prop)
    (n : Net A B σ τ) : Prop where
  left : I n.left
  right : J n.right
  toLeft : ∀ a ∈ n.toLeft, QA a
  toRight : ∀ b ∈ n.toRight, QB b

section Carries

variable {I : σ → Prop} {J : τ → Prop} {QA : A → Prop} {QB : B → Prop}

/-- Each end may rely on what the other one guarantees. -/
theorem Carries.step (hP : P.Keeps I QA QB) (hQ : Q.Keeps J QB QA) {n : Net A B σ τ}
    (h : n.Carries I J QA QB) (e : NetEvent ι κ ι' κ') :
    (n.step P Q e).Carries I J QA QB := by
  rcases n with ⟨l, r, as, bs⟩
  cases e with
  | actLeft i =>
      obtain ⟨hl, hsent⟩ := hP.act i h.left
      exact ⟨hl, h.right, h.toLeft, List.forall_mem_append.mpr ⟨h.toRight, hsent⟩⟩
  | actRight i =>
      obtain ⟨hr, hsent⟩ := hQ.act i h.right
      exact ⟨h.left, hr, List.forall_mem_append.mpr ⟨h.toLeft, hsent⟩, h.toRight⟩
  | deliverLeft k =>
      cases as with
      | nil => exact h
      | cons a as =>
          obtain ⟨ha, has⟩ := List.forall_mem_cons.mp h.toLeft
          obtain ⟨hl, hsent⟩ := hP.recv k ha h.left
          exact ⟨hl, h.right, has, List.forall_mem_append.mpr ⟨h.toRight, hsent⟩⟩
  | deliverRight k =>
      cases bs with
      | nil => exact h
      | cons b bs =>
          obtain ⟨hb, hbs⟩ := List.forall_mem_cons.mp h.toRight
          obtain ⟨hr, hsent⟩ := hQ.recv k hb h.right
          exact ⟨h.left, hr, List.forall_mem_append.mpr ⟨h.toLeft, hsent⟩, hbs⟩

end Carries

section Map

variable {ι₁ κ₁ ι₁' κ₁' A₁ B₁ σ₁ τ₁ : Type*}

/-- Read the states through `f` and `g` and the messages through `u` and `v`. -/
def map (f : σ → σ₁) (g : τ → τ₁) (u : A → A₁) (v : B → B₁) (n : Net A B σ τ) :
    Net A₁ B₁ σ₁ τ₁ :=
  ⟨f n.left, g n.right, n.toLeft.map u, n.toRight.map v⟩

variable {P₁ : Process ι₁ κ₁ A₁ B₁ σ₁} {Q₁ : Process ι₁' κ₁' B₁ A₁ τ₁}
variable {f : σ → σ₁} {g : τ → τ₁} {u : A → A₁} {v : B → B₁}

theorem map_actLeft {i : ι} {i₁ : ι₁} (n : Net A B σ τ)
    (h : P₁.act i₁ (f n.left) = (f (P.act i n.left).1, (P.act i n.left).2.map v)) :
    (n.step P Q (.actLeft i)).map f g u v = (n.map f g u v).step P₁ Q₁ (.actLeft i₁) := by
  simp [step, map, h]

theorem map_deliverLeft {k : κ} {k₁ : κ₁} (n : Net A B σ τ)
    (h : ∀ m ∈ n.toLeft.head?, P₁.recv k₁ (u m) (f n.left) =
      (f (P.recv k m n.left).1, (P.recv k m n.left).2.map v)) :
    (n.step P Q (.deliverLeft k)).map f g u v =
      (n.map f g u v).step P₁ Q₁ (.deliverLeft k₁) := by
  rcases n with ⟨l, r, a, b⟩
  cases a with
  | nil => rfl
  | cons m ms => simp [step, map, h m (by simp)]

theorem map_actRight {i : ι'} {i₁ : ι₁'} (n : Net A B σ τ)
    (h : Q₁.act i₁ (g n.right) = (g (Q.act i n.right).1, (Q.act i n.right).2.map u)) :
    (n.step P Q (.actRight i)).map f g u v = (n.map f g u v).step P₁ Q₁ (.actRight i₁) := by
  simp [step, map, h]

theorem map_deliverRight {k : κ'} {k₁ : κ₁'} (n : Net A B σ τ)
    (h : ∀ m ∈ n.toRight.head?, Q₁.recv k₁ (v m) (g n.right) =
      (g (Q.recv k m n.right).1, (Q.recv k m n.right).2.map u)) :
    (n.step P Q (.deliverRight k)).map f g u v =
      (n.map f g u v).step P₁ Q₁ (.deliverRight k₁) := by
  rcases n with ⟨l, r, a, b⟩
  cases b with
  | nil => rfl
  | cons m ms => simp [step, map, h m (by simp)]

/-- A net of two processes that simulate others is a net of those, seen through
the maps. -/
theorem Carries.map_step {I : σ → Prop} {J : τ → Prop} {QA : A → Prop} {QB : B → Prop}
    (hP : P.Simulates P₁ f u v I QA) (hQ : Q.Simulates Q₁ g v u J QB) {n : Net A B σ τ}
    (h : n.Carries I J QA QB) (e : NetEvent ι κ ι' κ') :
    (n.step P Q e).map f g u v = n.map f g u v ∨
      ∃ e₁, (n.step P Q e).map f g u v = (n.map f g u v).step P₁ Q₁ e₁ := by
  rcases n with ⟨l, r, as, bs⟩
  cases e with
  | actLeft i =>
      rcases hP.act i (s := l) h.left with ⟨hstate, hsent⟩ | ⟨i₁, hact⟩
      · left
        simp [Net.step, Net.map, hstate, hsent]
      · exact Or.inr ⟨.actLeft i₁, map_actLeft _ hact⟩
  | actRight i =>
      rcases hQ.act i (s := r) h.right with ⟨hstate, hsent⟩ | ⟨i₁, hact⟩
      · left
        simp [Net.step, Net.map, hstate, hsent]
      · exact Or.inr ⟨.actRight i₁, map_actRight _ hact⟩
  | deliverLeft k =>
      cases as with
      | nil => exact Or.inl rfl
      | cons a as =>
          obtain ⟨k₁, hrecv⟩ := hP.recv k (List.forall_mem_cons.mp h.toLeft).1 h.left
          refine Or.inr ⟨.deliverLeft k₁, map_deliverLeft _ ?_⟩
          rintro m ⟨⟩
          exact hrecv
  | deliverRight k =>
      cases bs with
      | nil => exact Or.inl rfl
      | cons b bs =>
          obtain ⟨k₁, hrecv⟩ := hQ.recv k (List.forall_mem_cons.mp h.toRight).1 h.right
          refine Or.inr ⟨.deliverRight k₁, map_deliverRight _ ?_⟩
          rintro m ⟨⟩
          exact hrecv

end Map

end Net

end Foundation
