import Telnetpp.Negotiation.Sending

/-!
# Negotiation is frugal

Two applications negotiate about an option only as far as they are told to: a
request and its answer for every call, however the streams are cut and whatever
else is negotiated.
-/

namespace Telnetpp

open Foundation ModeAgreement

variable {α β κ κ' : Type}

namespace SessionNet

theorem Follows.sees {C κ : Type} {s' : (Owned κ × Parser) × Bytes} {data : Bytes}
    {s : Owned κ × List Atom} {atoms : List Atom} (h : Follows s' data s atoms)
    (u : Atom → Option C) : sees u s'.2 = s.2.filterMap u := by
  rw [SessionNet.sees, h.2.1, Parser.reads_flatMap h.2.2]

/-- What is seen of the net through an option and its counterpart, beside what
they have sent each other. -/
def exchange (A : Application α κ) (B : Application β κ') (id : OptionId) (m : Atoms κ κ') :
    LoggedNet :=
  m.project
    (fun s => (Endpoint.stance (decide (id ∈ A.options)) (s.1.state id),
      s.2.filterMap id.peer.notice))
    (fun s => (Endpoint.stance (decide (id.peer ∈ B.options)) (s.1.state id.peer),
      s.2.filterMap id.notice))
    id.notice id.peer.notice

theorem exchange_run {A : Application α κ} {B : Application β κ'} {m : Atoms κ κ'}
    (h : Sound A B m) (id : OptionId)
    (es : List (NetEvent (AppInput α) Unit (AppInput β) Unit)) :
    ∃ es₁ : List (NetEvent Unit Unit Unit Unit), es₁.countP NetEvent.isAct ≤
        es.countP (NetEvent.isInput (AppInput.isCallOn id) (AppInput.isCallOn id.peer)) ∧
      exchange A B id (run (Atoms.step A B) m es) = run LoggedNet.step (exchange A B id m) es₁ := by
  have hright := (B.projects_peer id.peer).both_logged (J := fun s => B.Absent s.1)
    fun _ _ => trivial
  have hignored (i : AppInput β) (hi : i.isCallOn id.peer = false) := (B.ignores hi).logged
    (J := fun s => B.Absent s.1) fun _ _ => trivial
  simp only [id.peer_peer] at hright hignored
  exact Net.Carries.project_run_counted ((A.projects_peer id).both_logged fun _ _ => trivial)
    hright A.keeps_absent.beside B.keeps_absent.beside
    (fun i hi => (A.ignores hi).logged fun _ _ => trivial) hignored h es

theorem due_start (A : Application α κ) (B : Application β κ') (x : κ) (y : κ') (id : OptionId) :
    (exchange A B id (Atoms.start x y)).due = 0 := by
  simp only [exchange, Net.project, Atoms.start, LoggedNet.due, LoggedNet.peers, owed]
  cases decide (id ∈ A.options) <;> cases decide (id.peer ∈ B.options) <;> rfl

/-- In every run of two applications, cut and interleaved in any way, the
negotiations that both ends have sent about an option and its counterpart are at
most two for every call on either of them. -/
theorem run_negotiations_le (A : Application α κ) (B : Application β κ') (x : κ) (y : κ')
    (es : List (SessionEvent α β)) (id : OptionId) :
    let n := run (step A B) (start x y) es
    (sees id.peer.notice n.left.2).length + (sees id.notice n.right.2).length ≤
      2 * es.countP (NetEvent.isInput (AppInput.isCallOn id) (AppInput.isCallOn id.peer)) := by
  intro n
  obtain ⟨es', hcount, hleft, hright⟩ := framed_run_counted A.frames.logged B.frames.logged
    (reads_start x y) (AppInput.isCallOn id) (AppInput.isCallOn id.peer) es
  obtain ⟨es₁, hcount₁, hexchange⟩ := exchange_run (A := A) (B := B) (sound_start x y) id es'
  have hdue := LoggedNet.due_run (n := exchange A B id (Atoms.start x y)) (agreed_start x y id) es₁
  have hlogs : (sees id.peer.notice n.left.2).length + (sees id.notice n.right.2).length ≤
      (exchange A B id (run (Atoms.step A B) (Atoms.start x y) es')).due := by
    have hl : sees id.peer.notice n.left.2 = _ := Follows.sees hleft _
    have hr : sees id.notice n.right.2 = _ := Follows.sees hright _
    rw [hl, hr]
    exact Nat.le_add_right _ _
  rw [hexchange] at hlogs
  rw [due_start] at hdue
  omega

end SessionNet

end Telnetpp
