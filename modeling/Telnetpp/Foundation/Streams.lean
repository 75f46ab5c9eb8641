import Telnetpp.Foundation.FifoNet
import Telnetpp.Foundation.Run

/-!
# Processes joined by streams of symbols

A process whose links carry symbols rather than messages is handed them in
chunks that are cut anywhere. `Frames` says that such a process decodes its
input into the messages of another one and encodes what that one sends; two
such processes joined by streams then behave as the two message processes
joined by links.
-/

namespace Foundation

section Streams

variable {ι ι' β A B σ τ σ' τ' : Type*}

def Process.recvAll (P : Process ι Unit A B σ) : List A → σ → σ × List B
  | [], s => (s, [])
  | a :: as, s =>
      let r := P.recv () a s
      ((recvAll P as r.1).1, r.2 ++ (recvAll P as r.1).2)

/-- The process beside all that it has sent. -/
def Process.logged {κ : Type*} (P : Process ι κ A B σ) : Process ι κ A B (σ × List B) where
  act i s := (((P.act i s.1).1, s.2 ++ (P.act i s.1).2), (P.act i s.1).2)
  recv k a s := (((P.recv k a s.1).1, s.2 ++ (P.recv k a s.1).2), (P.recv k a s.1).2)

/-- A process that keeps what it sends has sent only messages of `QB`. -/
theorem Process.Keeps.logged {κ : Type*} {P : Process ι κ A B σ} {I : σ → Prop} {QA : A → Prop}
    {QB : B → Prop} (h : P.Keeps I QA QB) :
    P.logged.Keeps (fun s => I s.1 ∧ ∀ b ∈ s.2, QB b) QA QB where
  act i _ hs := by
    obtain ⟨hkeeps, hsent⟩ := h.act i hs.1
    exact ⟨⟨hkeeps, List.forall_mem_append.mpr ⟨hs.2, hsent⟩⟩, hsent⟩
  recv k _ ha _ hs := by
    obtain ⟨hkeeps, hsent⟩ := h.recv k ha hs.1
    exact ⟨⟨hkeeps, List.forall_mem_append.mpr ⟨hs.2, hsent⟩⟩, hsent⟩

theorem Process.recvAll_logged (P : Process ι Unit A B σ) (as : List A) (s : σ) (log : List B) :
    P.logged.recvAll as (s, log) =
      (((P.recvAll as s).1, log ++ (P.recvAll as s).2), (P.recvAll as s).2) := by
  induction as generalizing s log with
  | nil => simp [recvAll]
  | cons a as ih =>
      have hfirst : P.logged.recv () a (s, log) =
          (((P.recv () a s).1, log ++ (P.recv () a s).2), (P.recv () a s).2) := rfl
      simp only [recvAll, hfirst, ih, List.append_assoc]

/-- A delivery hands over the next `k` symbols, or all there are. -/
def Net.streamStep (P : Process ι Unit (List β) β σ) (Q : Process ι' Unit (List β) β τ)
    (n : Net β β σ τ) : NetEvent ι ℕ ι' ℕ → Net β β σ τ
  | .actLeft i =>
      { n with left := (P.act i n.left).1, toRight := n.toRight ++ (P.act i n.left).2 }
  | .actRight i =>
      { n with right := (Q.act i n.right).1, toLeft := n.toLeft ++ (Q.act i n.right).2 }
  | .deliverLeft k =>
      let r := P.recv () (n.toLeft.take k) n.left
      { n with left := r.1, toLeft := n.toLeft.drop k, toRight := n.toRight ++ r.2 }
  | .deliverRight k =>
      let r := Q.recv () (n.toRight.take k) n.right
      { n with right := r.1, toRight := n.toRight.drop k, toLeft := n.toLeft ++ r.2 }

/-- `Reads s' bs s ms` relates the symbol process in state `s'` with `bs` on
their way to it to the message process in state `s` with `ms` on their way. -/
structure Frames (P' : Process ι Unit (List β) β σ') (P : Process ι Unit A B σ)
    (wireA : A → List β) (wireB : B → List β) (Good : A → Prop) (Sent : B → Prop)
    (Reads : σ' → List β → σ → List A → Prop) : Prop where
  nil : ∀ {s' s ms}, Reads s' [] s ms → ms = []
  act : ∀ i {s' bs s ms}, Reads s' bs s ms →
    (P'.act i s').2 = (P.act i s).2.flatMap wireB ∧
      Reads (P'.act i s').1 bs (P.act i s).1 ms
  recv : ∀ cs {s' bs s ms}, Reads s' (cs ++ bs) s ms → ∃ ms₁ ms₂, ms = ms₁ ++ ms₂ ∧
    (P'.recv () cs s').2 = (P.recvAll ms₁ s).2.flatMap wireB ∧
      Reads (P'.recv () cs s').1 bs (P.recvAll ms₁ s).1 ms₂
  send : ∀ {m s' bs s ms}, Good m → Reads s' bs s ms →
    Reads s' (bs ++ wireA m) s (ms ++ [m])
  sent_act : ∀ i s, ∀ b ∈ (P.act i s).2, Sent b
  sent_recv : ∀ a s, ∀ b ∈ (P.recv () a s).2, Sent b

namespace Frames

variable {P' : Process ι Unit (List β) β σ'} {P : Process ι Unit A B σ}
variable {wireA : A → List β} {wireB : B → List β} {Good : A → Prop} {Sent : B → Prop}
variable {Reads : σ' → List β → σ → List A → Prop}

theorem sendAll (h : Frames P' P wireA wireB Good Sent Reads) {s' : σ'} {bs : List β} {s : σ}
    {ms : List A} (hreads : Reads s' bs s ms) (ms' : List A) (hms' : ∀ m ∈ ms', Good m) :
    Reads s' (bs ++ ms'.flatMap wireA) s (ms ++ ms') := by
  induction ms' generalizing bs ms with
  | nil => simpa using hreads
  | cons m ms' ih =>
      obtain ⟨hm, hms'⟩ := List.forall_mem_cons.mp hms'
      have hrest := ih (h.send hm hreads) hms'
      simpa using hrest

theorem sent_recvAll (h : Frames P' P wireA wireB Good Sent Reads) (as : List A) (s : σ) :
    ∀ b ∈ (P.recvAll as s).2, Sent b := by
  induction as generalizing s with
  | nil => simp [Process.recvAll]
  | cons a as ih => exact List.forall_mem_append.mpr ⟨h.sent_recv a s, ih _⟩

/-- Processes beside what they have sent are framed as they are alone, and what
the one has sent is what the other has sent, encoded. -/
theorem logged (h : Frames P' P wireA wireB Good Sent Reads) :
    Frames P'.logged P.logged wireA wireB Good Sent fun s' bs s ms =>
      Reads s'.1 bs s.1 ms ∧ s'.2 = s.2.flatMap wireB ∧ ∀ b ∈ s.2, Sent b where
  nil hreads := h.nil hreads.1
  act := by
    rintro i ⟨s', log'⟩ bs ⟨s, log⟩ ms ⟨hreads, hlog, hgood⟩
    obtain ⟨hsent, hnext⟩ := h.act i hreads
    refine ⟨hsent, hnext, ?_, List.forall_mem_append.mpr ⟨hgood, h.sent_act i s⟩⟩
    rw [Process.logged, Process.logged, List.flatMap_append, ← hsent, ← hlog]
  recv := by
    rintro cs ⟨s', log'⟩ bs ⟨s, log⟩ ms ⟨hreads, hlog, hgood⟩
    obtain ⟨ms₁, ms₂, rfl, hsent, hnext⟩ := h.recv cs hreads
    refine ⟨ms₁, ms₂, rfl, ?_⟩
    rw [Process.recvAll_logged]
    refine ⟨hsent, hnext, ?_, List.forall_mem_append.mpr ⟨hgood, h.sent_recvAll ms₁ s⟩⟩
    rw [Process.logged, List.flatMap_append, ← hsent, ← hlog]
  send hm hreads := ⟨h.send hm hreads.1, hreads.2⟩
  sent_act i s := h.sent_act i s.1
  sent_recv a s := h.sent_recv a s.1

end Frames

namespace Net

theorem run_deliverLeft (P : Process ι Unit A B σ) (Q : Process ι' Unit B A τ) (ms ms' : List A)
    (l : σ) (r : τ) (bs : List B) :
    run (Net.step P Q) ⟨l, r, ms ++ ms', bs⟩ (List.replicate ms.length (.deliverLeft ())) =
      ⟨(P.recvAll ms l).1, r, ms', bs ++ (P.recvAll ms l).2⟩ := by
  induction ms generalizing l bs with
  | nil => simp [Process.recvAll]
  | cons m ms ih =>
      rw [List.length_cons, List.replicate_succ, run_cons]
      apply (ih _ _).trans
      simp only [Process.recvAll, List.append_assoc]

theorem run_deliverRight (P : Process ι Unit A B σ) (Q : Process ι' Unit B A τ)
    (ms ms' : List B) (l : σ) (r : τ) (as : List A) :
    run (Net.step P Q) ⟨l, r, as, ms ++ ms'⟩ (List.replicate ms.length (.deliverRight ())) =
      ⟨l, (Q.recvAll ms r).1, as ++ (Q.recvAll ms r).2, ms'⟩ := by
  induction ms generalizing r as with
  | nil => simp [Process.recvAll]
  | cons m ms ih =>
      rw [List.length_cons, List.replicate_succ, run_cons]
      apply (ih _ _).trans
      simp only [Process.recvAll, List.append_assoc]

end Net

section Refinement

variable {P' : Process ι Unit (List β) β σ'} {P : Process ι Unit A B σ}
variable {Q' : Process ι' Unit (List β) β τ'} {Q : Process ι' Unit B A τ}
variable {wireA : A → List β} {wireB : B → List β} {GoodA : A → Prop} {GoodB : B → Prop}
variable {ReadsA : σ' → List β → σ → List A → Prop}
variable {ReadsB : τ' → List β → τ → List B → Prop}

/-- Both ends read what is in flight as the messages in flight. -/
def Framed (ReadsA : σ' → List β → σ → List A → Prop) (ReadsB : τ' → List β → τ → List B → Prop)
    (n' : Net β β σ' τ') (n : Net A B σ τ) : Prop :=
  ReadsA n'.left n'.toLeft n.left n.toLeft ∧ ReadsB n'.right n'.toRight n.right n.toRight

theorem framed_step (hP : Frames P' P wireA wireB GoodA GoodB ReadsA)
    (hQ : Frames Q' Q wireB wireA GoodB GoodA ReadsB) {n' : Net β β σ' τ'} {n : Net A B σ τ}
    (h : Framed ReadsA ReadsB n' n) (e : NetEvent ι ℕ ι' ℕ) :
    ∃ es, Framed ReadsA ReadsB (n'.streamStep P' Q' e) (run (Net.step P Q) n es) := by
  rcases n' with ⟨l', r', as', bs'⟩
  rcases n with ⟨l, r, as, bs⟩
  obtain ⟨hl, hr⟩ := h
  cases e with
  | actLeft i =>
      obtain ⟨hsent, hreads⟩ := hP.act i hl
      refine ⟨[.actLeft i], hreads, ?_⟩
      have hall := hQ.sendAll hr _ (hP.sent_act i l)
      rw [← hsent] at hall
      exact hall
  | actRight i =>
      obtain ⟨hsent, hreads⟩ := hQ.act i hr
      refine ⟨[.actRight i], ?_, hreads⟩
      have hall := hP.sendAll hl _ (hQ.sent_act i r)
      rw [← hsent] at hall
      exact hall
  | deliverLeft k =>
      have hcut : ReadsA l' (as'.take k ++ as'.drop k) l as := by rwa [List.take_append_drop]
      obtain ⟨ms, ms', rfl, hsent, hreads⟩ := hP.recv _ hcut
      refine ⟨List.replicate ms.length (.deliverLeft ()), ?_⟩
      rw [Net.run_deliverLeft]
      have hall := hQ.sendAll hr _ (hP.sent_recvAll ms l)
      rw [← hsent] at hall
      exact ⟨hreads, hall⟩
  | deliverRight k =>
      have hcut : ReadsB r' (bs'.take k ++ bs'.drop k) r bs := by rwa [List.take_append_drop]
      obtain ⟨ms, ms', rfl, hsent, hreads⟩ := hQ.recv _ hcut
      refine ⟨List.replicate ms.length (.deliverRight ()), ?_⟩
      rw [Net.run_deliverRight]
      have hall := hP.sendAll hl _ (hQ.sent_recvAll ms r)
      rw [← hsent] at hall
      exact ⟨hall, hreads⟩

theorem framed_run (hP : Frames P' P wireA wireB GoodA GoodB ReadsA)
    (hQ : Frames Q' Q wireB wireA GoodB GoodA ReadsB) {n' : Net β β σ' τ'} {n : Net A B σ τ}
    (h : Framed ReadsA ReadsB n' n) (es : List (NetEvent ι ℕ ι' ℕ)) :
    ∃ es', Framed ReadsA ReadsB (run (Net.streamStep P' Q') n' es)
      (run (Net.step P Q) n es') :=
  run_refines (R := Framed ReadsA ReadsB) _ _ (fun _ _ e hn => framed_step hP hQ hn e) h es

end Refinement

end Streams

end Foundation
