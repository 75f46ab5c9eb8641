import Telnetpp.Foundation.FifoNet

/-!
# Two ends that keep agreeing on a mode

Each end of a net is settled on a mode, or waiting for the outcome of a
request it has made, or it refuses every request. A settled end answers a
message with the mode it asks for and takes that mode; a waiting end takes
the next message as its outcome. An end whose mode has changed may ask for
the other mode at once, before or after it answers. A message that is not
about the mode is inert and goes unanswered, or is foreign to both ends and
is bounced for ever.
-/

namespace Foundation
namespace ModeAgreement

inductive Stance
  | settled (mode : Bool)
  | waiting
  | refusing
  deriving DecidableEq

inductive Notice
  | mode (m : Bool)
  | foreign
  | inert
  deriving DecidableEq

/-- What an end does when its mode changes: nothing, or ask for the other
mode after or ahead of its answer. -/
inductive Reaction
  | quiet
  | askAfter
  | askAhead
  deriving DecidableEq

def request : Stance → Stance × List Notice
  | .settled m => (.waiting, [.mode !m])
  | s => (s, [])

def receive (r : Reaction) : Notice → Stance → Stance × List Notice
  | .foreign, s => (s, [.foreign])
  | .inert, s => (s, [])
  | .mode _, .refusing => (.refusing, [.mode false])
  | .mode m, .waiting =>
      match r with
      | .quiet => (.settled m, [])
      | _ => (.waiting, [.mode !m])
  | .mode m, .settled m' =>
      if m = m' then (.settled m, [.mode m])
      else match r with
        | .quiet => (.settled m, [.mode m])
        | .askAfter => (.waiting, [.mode m, .mode !m])
        | .askAhead => (.waiting, [.mode !m, .mode m])

def peer : Process Unit Reaction Notice Notice Stance where
  act := fun _ s => request s
  recv := receive

abbrev PeerNet := Net Notice Notice Stance Stance

abbrev PeerEvent := NetEvent Unit Reaction Unit Reaction

abbrev peerStep (n : PeerNet) (e : PeerEvent) : PeerNet := n.step peer peer e

/-- The mode an end is in; `none` while it waits. -/
def Stance.mode? : Stance → Option Bool
  | .settled m => some m
  | .waiting => none
  | .refusing => some false

/-! ## The invariant of a net that starts settled -/

/-- The messages in flight once `l` and `r` wait for each other's outcome:
each side's next message is its outcome, and what is left over then asks
the side it reaches to change. -/
def Agreed (n : PeerNet) : Prop :=
  match n.left.mode?, n.right.mode? with
  | some m, some m' => m = m' ∧ n.toLeft = [] ∧ n.toRight = []
  | some m, none =>
      (n.toLeft = [.mode !m] ∧ n.toRight = []) ∨ (n.toLeft = [] ∧ n.toRight = [.mode m])
  | none, some m =>
      (n.toLeft = [] ∧ n.toRight = [.mode !m]) ∨ (n.toLeft = [.mode m] ∧ n.toRight = [])
  | none, none => ∃ m,
      (n.toLeft = [.mode m] ∧ n.toRight = [.mode m]) ∨
        (n.toLeft = [.mode m, .mode !m] ∧ n.toRight = []) ∨
          (n.toLeft = [] ∧ n.toRight = [.mode m, .mode !m])

theorem Agreed.swap {n : PeerNet} (h : Agreed n) : Agreed n.swap := by
  rcases n with ⟨l, r, a, b⟩
  cases l <;> cases r <;> simp only [Agreed, Net.swap, Stance.mode?] at h ⊢ <;> grind

theorem Agreed.request_left {n : PeerNet} (h : Agreed n) :
    Agreed (peerStep n (.actLeft ())) := by
  rcases n with ⟨l, r, a, b⟩
  cases l <;> cases r <;>
    simp only [Agreed, Stance.mode?, peerStep, Net.step, peer, request] at h ⊢ <;> grind

theorem Agreed.deliver_left {n : PeerNet} (h : Agreed n) (k : Reaction) :
    Agreed (peerStep n (.deliverLeft k)) := by
  rcases n with ⟨l, r, a, b⟩
  cases a with
  | nil => exact h
  | cons m ms =>
      cases l <;> cases r <;> cases m <;> cases k <;>
        simp only [Agreed, Stance.mode?, peerStep, Net.step, peer, receive] at h ⊢ <;> grind

theorem Agreed.step {n : PeerNet} (h : Agreed n) (e : PeerEvent) : Agreed (peerStep n e) := by
  cases e with
  | actLeft i => exact h.request_left
  | deliverLeft k => exact h.deliver_left k
  | actRight i => exact h.swap.request_left.swap
  | deliverRight k =>
      rw [peerStep, Net.step_deliverRight_swap]
      exact (h.swap.deliver_left k).swap

theorem Agreed.length_inFlight {n : PeerNet} (h : Agreed n) :
    n.toLeft.length + n.toRight.length ≤ 2 := by
  rcases n with ⟨l, r, a, b⟩
  cases l <;> cases r <;> simp only [Agreed, Stance.mode?] at h ⊢ <;> grind

/-- Once nothing is in flight neither end waits, and both are in one mode. -/
theorem Agreed.quiescent {n : PeerNet} (h : Agreed n) (hleft : n.toLeft = [])
    (hright : n.toRight = []) : ∃ m, n.left.mode? = some m ∧ n.right.mode? = some m := by
  rcases n with ⟨l, r, a, b⟩
  cases l <;> cases r <;> simp only [Agreed, Stance.mode?] at h hleft hright ⊢ <;> grind

/-- No end is asked for the mode it is in. -/
theorem Agreed.not_asked_left {n : PeerNet} (h : Agreed n) {m : Bool}
    (hm : n.left.mode? = some m) : n.toLeft.head? ≠ some (.mode m) := by
  rcases n with ⟨l, r, a, b⟩
  cases l <;> cases r <;> simp only [Agreed, Stance.mode?] at h hm ⊢ <;> grind

theorem Agreed.not_asked_right {n : PeerNet} (h : Agreed n) {m : Bool}
    (hm : n.right.mode? = some m) : n.toRight.head? ≠ some (.mode m) :=
  h.swap.not_asked_left hm

/-- A settled end that is asked for a mode is asked by an end that waits, and
nothing else is in flight. -/
theorem Agreed.asked_left {n : PeerNet} (h : Agreed n) {m m' : Bool} {ms : List Notice}
    (hl : n.left.mode? = some m) (hm : n.toLeft = .mode m' :: ms) :
    n.right.mode? = none ∧ ms = [] ∧ n.toRight = [] := by
  rcases n with ⟨l, r, a, b⟩
  cases l <;> cases r <;> simp only [Agreed, Stance.mode?] at h hl hm ⊢ <;> grind

theorem Agreed.asked_right {n : PeerNet} (h : Agreed n) {m m' : Bool} {ms : List Notice}
    (hr : n.right.mode? = some m) (hm : n.toRight = .mode m' :: ms) :
    n.left.mode? = none ∧ ms = [] ∧ n.toLeft = [] :=
  h.swap.asked_left hr hm

/-- Of two ends that wait, one that has its outcome is the first or the last to have it. -/
theorem Agreed.outcome_left {n : PeerNet} (h : Agreed n) {m : Bool} {ms : List Notice}
    (hl : n.left.mode? = none) (hr : n.right.mode? = none) (hm : n.toLeft = .mode m :: ms) :
    n.toRight = [] ∨ ms = [] ∧ n.toRight = [.mode m] := by
  rcases n with ⟨l, r, a, b⟩
  cases l <;> cases r <;> simp only [Agreed, Stance.mode?] at h hl hr hm ⊢ <;> grind

theorem Agreed.outcome_right {n : PeerNet} (h : Agreed n) {m : Bool} {ms : List Notice}
    (hl : n.left.mode? = none) (hr : n.right.mode? = none) (hm : n.toRight = .mode m :: ms) :
    n.toLeft = [] ∨ ms = [] ∧ n.toLeft = [.mode m] :=
  h.swap.outcome_left hr hl hm

theorem Agreed.settled {n : PeerNet} (h : Agreed n) {m m' : Bool}
    (hl : n.left.mode? = some m) (hr : n.right.mode? = some m') :
    n.toLeft = [] ∧ n.toRight = [] := by
  rcases n with ⟨l, r, a, b⟩
  cases l <;> cases r <;> simp only [Agreed, Stance.mode?] at h hl hr ⊢ <;> grind

/-! ## Which nets run out of messages -/

abbrev PeerDelivers : PeerNet → PeerNet → Prop := Net.Delivers peer peer .quiet .quiet

def inFlight (n : PeerNet) : List Notice := n.toLeft ++ n.toRight

/-- How many of the messages are not inert. -/
def live (ms : List Notice) : ℕ := ms.countP fun m => m ≠ .inert

@[simp] theorem live_nil : live [] = 0 := rfl

@[simp] theorem live_cons (m : Notice) (ms : List Notice) :
    live (m :: ms) = live ms + live [m] := by simp [live, List.countP_cons]

@[simp] theorem live_append (ms ms' : List Notice) : live (ms ++ ms') = live ms + live ms' :=
  List.countP_append

/-- How many outcomes an end still waits for. -/
def Stance.pending : Stance → ℕ
  | .waiting => 1
  | _ => 0

def outstanding (n : PeerNet) : ℕ := n.left.pending + n.right.pending

/-- A message that nothing will consume is in flight. -/
def Circulating (n : PeerNet) : Prop :=
  .foreign ∈ inFlight n ∨ outstanding n < live (inFlight n)

theorem Stance.pending_le_one (s : Stance) : s.pending ≤ 1 := by
  cases s <;> simp [Stance.pending]

theorem outstanding_swap (n : PeerNet) : outstanding n.swap = outstanding n :=
  Nat.add_comm _ _

theorem circulating_swap (n : PeerNet) : Circulating n.swap ↔ Circulating n := by
  rw [Circulating, Circulating, outstanding_swap]
  simp only [inFlight, Net.swap, List.mem_append, live_append,
    or_comm (a := .foreign ∈ n.toRight), Nat.add_comm (live n.toRight)]

/-- An end consumes a live message exactly when it ceases to wait for one. -/
theorem receive_quiet_balance (m : Notice) (s : Stance) :
    live (receive .quiet m s).2 + s.pending = (receive .quiet m s).1.pending + live [m] := by
  cases m <;> cases s <;> simp only [receive] <;> grind [Stance.pending, live]

theorem receive_quiet_foreign (m : Notice) (s : Stance) :
    .foreign ∈ (receive .quiet m s).2 ↔ m = .foreign := by
  cases m <;> cases s <;> simp only [receive] <;> grind

theorem receive_quiet_live (m : Notice) (s : Stance) :
    (receive .quiet m s).2.length = live (receive .quiet m s).2 := by
  cases m <;> cases s <;> simp only [receive] <;> grind [live]

/-- A delivery neither ends nor starts a circulation. -/
theorem circulating_deliverLeft {n : PeerNet} (h : n.toLeft ≠ []) :
    Circulating (peerStep n (.deliverLeft .quiet)) ↔ Circulating n := by
  obtain ⟨m, ms, hms⟩ := List.exists_cons_of_ne_nil h
  have hbalance := receive_quiet_balance m n.left
  have hforeign := receive_quiet_foreign m n.left
  rw [peerStep, Net.step_deliverLeft_cons peer peer hms]
  simp only [Circulating, inFlight, outstanding, peer, hms, List.mem_append, List.mem_cons,
    live_append, live_cons m ms, hforeign, eq_comm (a := Notice.foreign)]
  have hlength : n.left.pending + n.right.pending < live ms + live [m] + live n.toRight ↔
      (receive .quiet m n.left).1.pending + n.right.pending <
        live ms + (live n.toRight + live (receive .quiet m n.left).2) := by omega
  rw [hlength]
  tauto

theorem circulating_delivers {n t : PeerNet} (h : PeerDelivers n t) :
    Circulating t ↔ Circulating n := by
  cases h with
  | left h => exact circulating_deliverLeft h
  | right h =>
      rw [Net.step_deliverRight_swap, circulating_swap, ← circulating_swap n]
      exact circulating_deliverLeft (n := n.swap) h

/-- What a queue weighs at the end it is bound for: nothing while that end
waits for its first message. -/
def Stance.load (s : Stance) (len : ℕ) : ℕ := (1 - s.pending) * len

def weight (n : PeerNet) : ℕ :=
  4 * live (inFlight n) + n.left.load (live n.toLeft) + n.right.load (live n.toRight) +
    (inFlight n).length

theorem weight_swap (n : PeerNet) : weight n.swap = weight n := by
  simp only [weight, inFlight, Net.swap, List.length_append, live_append]
  omega

theorem weight_deliverLeft {n : PeerNet} (hn : ¬ Circulating n) (h : n.toLeft ≠ []) :
    weight (peerStep n (.deliverLeft .quiet)) < weight n := by
  obtain ⟨m, ms, hms⟩ := List.exists_cons_of_ne_nil h
  have hbalance := receive_quiet_balance m n.left
  have hlive := receive_quiet_live m n.left
  have hright := n.right.pending_le_one
  rw [Circulating, not_or, Nat.not_lt, inFlight, outstanding, hms, live_append,
    live_cons m ms] at hn
  rw [peerStep, Net.step_deliverLeft_cons peer peer hms]
  simp only [weight, inFlight, Stance.load, peer, hms, List.length_append, List.length_cons,
    live_append, live_cons m ms, hlive]
  have hm : m ≠ .foreign := fun hm => hn.1 (by simp [hm])
  by_cases hinert : m = .inert
  · have hrecv : receive .quiet m n.left = (n.left, []) := by
      rw [hinert]
      cases n.left <;> rfl
    have hzero : live [m] = 0 := by simp [live, hinert]
    simp only [hrecv, live_nil, hzero, Nat.add_zero]
    omega
  -- after the delivery the left end is not waiting, whatever it was before
  have hdone : (receive .quiet m n.left).1.pending = 0 := by
    cases m with
    | foreign => exact absurd rfl hm
    | inert => exact absurd rfl hinert
    | mode b => cases n.left <;> simp only [receive] <;> grind [Stance.pending]
  have hone : live [m] = 1 := by simp [live, hinert]
  rw [hone] at hbalance hn ⊢
  rcases Nat.le_one_iff_eq_zero_or_eq_one.mp n.left.pending_le_one with hl | hl
  · have hr : n.right.pending = 1 := by omega
    simp only [hdone, hl, hr] at hbalance ⊢
    omega
  · have hsent : live (receive .quiet m n.left).2 = 0 := by omega
    simp only [hdone, hl, hsent, Nat.add_zero]
    omega

/-- All runs of deliveries are finite exactly when no message in flight is
foreign and each one about the mode is an outcome that some end waits for. -/
theorem halts_iff (n : PeerNet) :
    Halts PeerDelivers n ↔ .foreign ∉ inFlight n ∧ live (inFlight n) ≤ outstanding n := by
  have hiff : (.foreign ∉ inFlight n ∧ live (inFlight n) ≤ outstanding n) ↔
      ¬ Circulating n := by simp [Circulating]
  rw [hiff]
  constructor
  · intro hhalts hn
    refine not_halts_of_progress (I := Circulating) ?_ hn hhalts
    intro s hs
    by_cases hleft : s.toLeft = []
    · have hright : s.toRight ≠ [] := by
        intro hright
        simp [Circulating, inFlight, hleft, hright] at hs
      exact ⟨_, .right hright, (circulating_delivers (.right hright)).mpr hs⟩
    · exact ⟨_, .left hleft, (circulating_delivers (.left hleft)).mpr hs⟩
  · intro hn
    refine halts_of_measure (I := fun s => ¬ Circulating s) weight
      (fun s t hs hst => ⟨(circulating_delivers hst).not.mpr hs, ?_⟩) hn
    cases hst with
    | left h => exact weight_deliverLeft hs h
    | right h =>
        rw [Net.step_deliverRight_swap, weight_swap, ← weight_swap s]
        exact weight_deliverLeft ((circulating_swap s).not.mpr hs) h

end ModeAgreement
end Foundation
