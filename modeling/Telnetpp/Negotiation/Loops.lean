import Telnetpp.Negotiation.Agreement

/-!
# When negotiations loop

Two ends with any states and any elements in flight, left to deliver what is
in flight and to answer it. An answer that nobody waits for is answered in
its turn, so the deliveries come to an end exactly when every negotiation in
flight is an outcome that some end waits for.
-/

namespace Telnetpp

open Foundation ModeAgreement Endpoint

namespace EndpointNet

variable (code : OptionType) (server client : Bool)

/-- One delivery, with no calls made by the applications. -/
abbrev Delivers : EndpointNet → EndpointNet → Prop :=
  Net.Delivers (endpoint .server code server) (endpoint .client code client) none none

def isNegotiation : Element → Bool
  | .negotiation _ => true
  | _ => false

/-- How many ends have the option installed and in transit. -/
def inTransit (present : Bool) (st : InternalState) : ℕ :=
  if present ∧ (st = .activating ∨ st = .deactivating) then 1 else 0

variable {code server client}

theorem wellFormed_delivers {n t : EndpointNet} (hn : n.WellFormed)
    (h : Delivers code server client n t) : t.WellFormed := by
  cases h with
  | left _ => exact WellFormed.step hn (.deliverLeft none)
  | right _ => exact WellFormed.step hn (.deliverRight none)

theorem peers_left {n : EndpointNet} (hn : n.WellFormed) :
    (n.step code server client (.deliverLeft none)).peers code server client =
      peerStep (n.peers code server client) (.deliverLeft .quiet) := by
  apply Net.map_deliverLeft
  intro elem helem
  have h := recv_simulates .server code server none
    (hn.1 elem (List.mem_of_mem_head? helem)) n.left
  rwa [reaction_none] at h

theorem peers_right {n : EndpointNet} (hn : n.WellFormed) :
    (n.step code server client (.deliverRight none)).peers code server client =
      peerStep (n.peers code server client) (.deliverRight .quiet) := by
  apply Net.map_deliverRight
  intro elem helem
  have h := recv_simulates .client code client none
    (hn.2 elem (List.mem_of_mem_head? helem)) n.right
  rwa [reaction_none] at h

theorem peers_toLeft_ne_nil {n : EndpointNet} :
    (n.peers code server client).toLeft ≠ [] ↔ n.toLeft ≠ [] := by simp [peers, Net.map]

theorem peers_toRight_ne_nil {n : EndpointNet} :
    (n.peers code server client).toRight ≠ [] ↔ n.toRight ≠ [] := by simp [peers, Net.map]

theorem halts_iff_peers {n : EndpointNet} (hn : n.WellFormed) :
    Halts (Delivers code server client) n ↔ Halts PeerDelivers (n.peers code server client) := by
  refine halts_map_iff (I := WellFormed) (peers code server client)
    (fun n t hn h => wellFormed_delivers hn h) ?_ ?_ hn
  · intro n t hn h
    cases h with
    | left hne =>
        have h : PeerDelivers (n.peers code server client)
            (peerStep (n.peers code server client) (.deliverLeft .quiet)) :=
          .left (peers_toLeft_ne_nil.mpr hne)
        rw [← peers_left hn] at h
        exact h
    | right hne =>
        have h : PeerDelivers (n.peers code server client)
            (peerStep (n.peers code server client) (.deliverRight .quiet)) :=
          .right (peers_toRight_ne_nil.mpr hne)
        rw [← peers_right hn] at h
        exact h
  · intro n t' hn h
    cases h with
    | left hne => exact ⟨_, .left (peers_toLeft_ne_nil.mp hne), peers_left hn⟩
    | right hne => exact ⟨_, .right (peers_toRight_ne_nil.mp hne), peers_right hn⟩

theorem pending_stance (present : Bool) (st : InternalState) :
    (stance present st).pending = inTransit present st := by
  cases present <;> cases st <;> rfl

theorem live_notices (code : OptionType) (half : Half) (elems : List Element) :
    live (elems.map (notice half code)) = elems.countP isNegotiation := by
  rw [live, List.countP_map]
  refine congrArg (fun p => elems.countP p) (funext ?_)
  intro elem
  cases elem with
  | negotiation neg =>
      simp only [Function.comp_apply, notice, isNegotiation]
      split
      · rfl
      · split <;> rfl
  | _ => rfl

theorem foreign_notMem_notices (code : OptionType) (half : Half) (elems : List Element) :
    .foreign ∉ elems.map (notice half code) ↔
      ∀ neg, .negotiation neg ∈ elems → neg = ⟨half.traits.remotePositive, code⟩ ∨
        neg = ⟨half.traits.remoteNegative, code⟩ := by
  constructor
  · intro h neg hneg
    by_contra hother
    rw [not_or] at hother
    refine h (List.mem_map.mpr ⟨_, hneg, ?_⟩)
    rw [notice, if_neg hother.1, if_neg hother.2]
  · intro h hforeign
    obtain ⟨elem, helem, hnotice⟩ := List.mem_map.mp hforeign
    cases elem with
    | negotiation neg =>
        rcases h neg helem with rfl | rfl
        · rw [notice_remotePositive] at hnotice
          exact Notice.noConfusion hnotice
        · rw [notice_remoteNegative] at hnotice
          exact Notice.noConfusion hnotice
    | _ => exact Notice.noConfusion hnotice

/-- Whatever the states of the ends and whatever is in flight, the deliveries
come to an end exactly when every negotiation in flight is a request to the
option at the end it is bound for, and there are no more of them than ends
with an option in transit. -/
theorem halts_delivers_iff (n : EndpointNet) (hn : n.WellFormed) :
    Halts (Delivers code server client) n ↔
      (∀ neg, .negotiation neg ∈ n.toLeft → neg = ⟨do_, code⟩ ∨ neg = ⟨dont, code⟩) ∧
      (∀ neg, .negotiation neg ∈ n.toRight → neg = ⟨will, code⟩ ∨ neg = ⟨wont, code⟩) ∧
      n.toLeft.countP isNegotiation + n.toRight.countP isNegotiation ≤
        inTransit server n.left + inTransit client n.right := by
  rw [halts_iff_peers hn, halts_iff, ← and_assoc]
  apply and_congr
  · have hleft := foreign_notMem_notices code .server n.toLeft
    have hright := foreign_notMem_notices code .client n.toRight
    rw [inFlight, List.mem_append, not_or]
    exact and_congr hleft hright
  · simp only [inFlight, outstanding, live_append, peers, Net.map, live_notices, pending_stance]

/-- Two active options, and one DO on its way to the server option. -/
def activeAndAsked : EndpointNet := ⟨.active, .active, [.negotiation ⟨do_, 1⟩], []⟩

/-- They exchange DO and WILL for ever. -/
theorem activeAndAsked_loops :
    activeAndAsked.WellFormed ∧ ¬ Halts (Delivers 1 true true) activeAndAsked := by
  refine ⟨by unfold WellFormed; decide, ?_⟩
  let answered : EndpointNet := ⟨.active, .active, [], [.negotiation ⟨will, 1⟩]⟩
  refine not_halts_of_progress (I := fun n => n = activeAndAsked ∨ n = answered) ?_ (Or.inl rfl)
  rintro n (rfl | rfl)
  · exact ⟨_, .left (by simp [activeAndAsked]), Or.inr rfl⟩
  · exact ⟨_, .right (by simp [answered]), Or.inl rfl⟩

theorem halts_delivers_crossing :
    Halts (Delivers 1 true true)
      ⟨.activating, .activating, [.negotiation ⟨do_, 1⟩], [.negotiation ⟨will, 1⟩]⟩ :=
  (halts_delivers_iff _ (by unfold WellFormed; decide)).mpr
    ⟨by simp, by simp, by decide⟩

end EndpointNet

end Telnetpp
