import Telnetpp.Foundation.Projection

/-!
# What is sent is taken once and in order

Among the messages of a net some carry contents of one kind. One end keeps a
log of its messages and the other takes the contents that it is delivered. As
long as it takes all of them, what has been taken and what is on its way are
together what has been sent. If it may leave some out, they are a part of it.
-/

namespace Foundation

variable {ι κ ι' κ' A B C σ τ : Type*}

theorem filterMap_cons_toList (f : A → Option C) (a : A) (as : List A) :
    (a :: as).filterMap f = (f a).toList ++ as.filterMap f := by
  simp only [List.filterMap_eq_flatMap_toList, List.flatMap_cons]

/-- The process takes the content of every message it is delivered, and takes
nothing otherwise. -/
structure Process.Takes (P : Process ι κ A B σ) (u : A → Option C) (taken : σ → List C)
    (I : σ → Prop) (QA : A → Prop) : Prop where
  act : ∀ i {s}, I s → taken (P.act i s).1 = taken s
  recv : ∀ k {a}, QA a → ∀ {s}, I s → taken (P.recv k a s).1 = taken s ++ (u a).toList

theorem Process.Takes.logged {P : Process ι κ A B σ} {u : A → Option C} {taken : σ → List C}
    {I : σ → Prop} {QA : A → Prop} (h : P.Takes u taken I QA) :
    P.logged.Takes u (fun s => taken s.1) (fun s => I s.1) QA :=
  ⟨fun i _ hs => h.act i hs, fun k _ ha _ hs => h.recv k ha hs⟩

/-- The process takes the content of a message it is delivered, or nothing, and
takes nothing otherwise. -/
structure Process.MayTake (P : Process ι κ A B σ) (u : A → Option C) (taken : σ → List C)
    (I : σ → Prop) (QA : A → Prop) : Prop where
  act : ∀ i {s}, I s → taken (P.act i s).1 = taken s
  recv : ∀ k {a}, QA a → ∀ {s}, I s →
    ∃ part, part.Sublist (u a).toList ∧ taken (P.recv k a s).1 = taken s ++ part

theorem Process.MayTake.logged {P : Process ι κ A B σ} {u : A → Option C} {taken : σ → List C}
    {I : σ → Prop} {QA : A → Prop} (h : P.MayTake u taken I QA) :
    P.logged.MayTake u (fun s => taken s.1) (fun s => I s.1) QA :=
  ⟨fun i _ hs => h.act i hs, fun k _ ha _ hs => h.recv k ha hs⟩

namespace Net

variable {P : Process ι κ A B σ} {Q : Process ι' κ' B A τ}

/-- From one net to the other, the contents sent are those that were taken or
have come to be on their way. -/
def Conveyed (v : B → Option C) (sent : σ → List B) (taken : τ → List C) (n m : Net A B σ τ) :
    Prop :=
  ∃ during, (sent m.left).filterMap v = (sent n.left).filterMap v ++ during ∧
    taken m.right ++ m.toRight.filterMap v =
      taken n.right ++ n.toRight.filterMap v ++ during

section Conveyed

variable {v : B → Option C} {sent : σ → List B} {taken : τ → List C}

theorem Conveyed.refl (n : Net A B σ τ) : Conveyed v sent taken n n := ⟨[], by simp, by simp⟩

theorem Conveyed.trans {n m k : Net A B σ τ} (h : Conveyed v sent taken n m)
    (h' : Conveyed v sent taken m k) : Conveyed v sent taken n k := by
  obtain ⟨during, hsent, htaken⟩ := h
  obtain ⟨during', hsent', htaken'⟩ := h'
  refine ⟨during ++ during', ?_, ?_⟩
  · rw [hsent', hsent, List.append_assoc]
  · rw [htaken', htaken, List.append_assoc]

variable {I : σ → Prop} {J : τ → Prop} {QA : A → Prop} {QB : B → Prop}

theorem Carries.conveyed_step (hQ : Q.Takes v taken J QB) {n : Net A B (σ × List B) τ}
    (h : n.Carries (fun s => I s.1) J QA QB) (e : NetEvent ι κ ι' κ') :
    Conveyed v Prod.snd taken n (n.step P.logged Q e) := by
  rcases n with ⟨⟨l, log⟩, r, as, bs⟩
  cases e with
  | actLeft i => exact ⟨(P.act i l).2.filterMap v, by simp [Net.step, Process.logged]⟩
  | actRight i => exact ⟨[], by simp [Net.step, hQ.act i h.right]⟩
  | deliverLeft k =>
      cases as with
      | nil => exact Conveyed.refl _
      | cons a as => exact ⟨(P.recv k a l).2.filterMap v, by simp [Net.step, Process.logged]⟩
  | deliverRight k =>
      cases bs with
      | nil => exact Conveyed.refl _
      | cons b bs =>
          have hb : QB b := h.toRight b (List.mem_cons_self ..)
          have htaken := hQ.recv k hb h.right
          refine ⟨[], by simp [Net.step], ?_⟩
          cases hv : v b <;> simp [Net.step, htaken, hv]

theorem Carries.conveyed_run (hP : P.Keeps I QA QB) (hQ : Q.Keeps J QB QA)
    (htakes : Q.Takes v taken J QB) {n : Net A B (σ × List B) τ}
    (h : n.Carries (fun s => I s.1) J QA QB) (es : List (NetEvent ι κ ι' κ')) :
    Conveyed v Prod.snd taken n (run (Net.step P.logged Q) n es) := by
  induction es generalizing n with
  | nil => exact Conveyed.refl n
  | cons e es ih => exact (h.conveyed_step htakes e).trans (ih (h.step hP.beside hQ e))

end Conveyed

section Sparing

variable {v : B → Option C} {taken : τ → List C}

/-- What has been taken and what is on its way are a part of what has been sent. -/
def Sparing (v : B → Option C) (taken : τ → List C) (n : Net A B (σ × List B) τ) : Prop :=
  (taken n.right ++ n.toRight.filterMap v).Sublist (n.left.2.filterMap v)

theorem Sparing.sent {n : Net A B (σ × List B) τ} (h : n.Sparing v taken) (l : σ)
    (as : List A) (bs : List B) :
    Sparing v taken ⟨(l, n.left.2 ++ bs), n.right, as, n.toRight ++ bs⟩ := by
  rw [Sparing, List.filterMap_append, List.filterMap_append, ← List.append_assoc]
  exact h.append (List.Sublist.refl _)

variable {I : σ → Prop} {J : τ → Prop} {QA : A → Prop} {QB : B → Prop}

theorem Carries.sparing_step (hQ : Q.MayTake v taken J QB) {n : Net A B (σ × List B) τ}
    (hn : n.Carries (fun s => I s.1) J QA QB) (h : n.Sparing v taken)
    (e : NetEvent ι κ ι' κ') : (n.step P.logged Q e).Sparing v taken := by
  rcases n with ⟨⟨l, log⟩, r, as, bs⟩
  cases e with
  | actLeft i => exact h.sent _ _ _
  | actRight i =>
      rw [Sparing] at h ⊢
      rwa [← hQ.act i hn.right] at h
  | deliverLeft k =>
      cases as with
      | nil => exact h
      | cons a as => exact h.sent _ _ _
  | deliverRight k =>
      cases bs with
      | nil => exact h
      | cons b bs =>
          obtain ⟨part, hpart, htaken⟩ :=
            hQ.recv k (hn.toRight b (List.mem_cons_self ..)) hn.right
          rw [Sparing] at h ⊢
          refine List.Sublist.trans ?_ h
          change (taken (Q.recv k b r).1 ++ bs.filterMap v).Sublist
            (taken r ++ (b :: bs).filterMap v)
          rw [htaken, filterMap_cons_toList, List.append_assoc]
          exact (hpart.append (List.Sublist.refl _)).append_left _

theorem Carries.sparing_run (hP : P.Keeps I QA QB) (hQ : Q.Keeps J QB QA)
    (htakes : Q.MayTake v taken J QB) {n : Net A B (σ × List B) τ}
    (hn : n.Carries (fun s => I s.1) J QA QB) (h : n.Sparing v taken)
    (es : List (NetEvent ι κ ι' κ')) : (run (Net.step P.logged Q) n es).Sparing v taken := by
  induction es generalizing n with
  | nil => exact h
  | cons e es ih => exact ih (hn.step hP.beside hQ e) (hn.sparing_step htakes h e)

end Sparing

theorem run_swap (n : Net A B σ τ) (es : List (NetEvent ι κ ι' κ')) :
    run (Net.step Q P) n.swap (es.map NetEvent.swap) = (run (Net.step P Q) n es).swap := by
  induction es generalizing n with
  | nil => rfl
  | cons e es ih => rw [List.map_cons, run_cons, step_swap, ih, run_cons]

end Net

/-! ## Some of the inputs -/

/-- The process with only the inputs that are allowed. -/
def Process.limit (P : Process ι κ A B σ) (Allowed : ι → Prop) :
    Process {i // Allowed i} κ A B σ where
  act i := P.act i
  recv := P.recv

namespace NetEvent

variable {L : ι → Prop} {R : ι' → Prop}

def Meets (L : ι → Prop) (R : ι' → Prop) : NetEvent ι κ ι' κ' → Prop
  | .actLeft i => L i
  | .actRight i => R i
  | _ => True

theorem Meets.imp {L' : ι → Prop} {R' : ι' → Prop} (hL : ∀ i, L i → L' i) (hR : ∀ i, R i → R' i)
    {e : NetEvent ι κ ι' κ'} (h : e.Meets L R) : e.Meets L' R' := by
  cases e with
  | actLeft i => exact hL i h
  | actRight i => exact hR i h
  | _ => trivial

def widen : NetEvent {i // L i} κ {i // R i} κ' → NetEvent ι κ ι' κ'
  | .actLeft i => .actLeft i
  | .actRight i => .actRight i
  | .deliverLeft k => .deliverLeft k
  | .deliverRight k => .deliverRight k

theorem exists_widen {es : List (NetEvent ι κ ι' κ')} (hes : ∀ e ∈ es, e.Meets L R) :
    ∃ es' : List (NetEvent {i // L i} κ {i // R i} κ'), es'.map widen = es := by
  induction es with
  | nil => exact ⟨[], rfl⟩
  | cons e es ih =>
      obtain ⟨he, hes⟩ := List.forall_mem_cons.mp hes
      obtain ⟨es', rfl⟩ := ih hes
      cases e with
      | actLeft i => exact ⟨.actLeft ⟨i, he⟩ :: es', rfl⟩
      | actRight i => exact ⟨.actRight ⟨i, he⟩ :: es', rfl⟩
      | deliverLeft k => exact ⟨.deliverLeft k :: es', rfl⟩
      | deliverRight k => exact ⟨.deliverRight k :: es', rfl⟩

end NetEvent

section Limit

variable {β σ' : Type*} {L : ι → Prop} {R : ι' → Prop}

theorem Process.recvAll_limit (P : Process ι Unit A B σ) (as : List A) (s : σ) :
    (P.limit L).recvAll as s = P.recvAll as s := by
  induction as generalizing s with
  | nil => rfl
  | cons a as ih =>
      simp only [Process.recvAll, ih]
      rfl

theorem Net.run_streamStep_widen (P : Process ι Unit (List β) β σ)
    (Q : Process ι' Unit (List β) β τ) (n : Net β β σ τ)
    (es : List (NetEvent {i // L i} ℕ {i // R i} ℕ)) :
    run (Net.streamStep P Q) n (es.map NetEvent.widen) =
      run (Net.streamStep (P.limit L) (Q.limit R)) n es := by
  induction es generalizing n with
  | nil => rfl
  | cons e es ih =>
      rw [List.map_cons, run_cons, ih, run_cons]
      cases e <;> rfl

/-- Fewer inputs are framed as all of them are. -/
theorem Frames.limit {P' : Process ι Unit (List β) β σ'} {P : Process ι Unit A B σ}
    {wireA : A → List β} {wireB : B → List β} {Good : A → Prop} {Sent : B → Prop}
    {Reads : σ' → List β → σ → List A → Prop} (h : Frames P' P wireA wireB Good Sent Reads) :
    Frames (P'.limit L) (P.limit L) wireA wireB Good Sent Reads where
  nil := h.nil
  act i _ _ _ _ hreads := h.act i hreads
  recv cs _ _ _ _ hreads := by
    obtain ⟨ms₁, ms₂, hms, hsent, hnext⟩ := h.recv cs hreads
    refine ⟨ms₁, ms₂, hms, ?_⟩
    rw [Process.recvAll_limit]
    exact ⟨hsent, hnext⟩
  send := h.send
  sent_act i := h.sent_act i
  sent_recv := h.sent_recv

end Limit

end Foundation
