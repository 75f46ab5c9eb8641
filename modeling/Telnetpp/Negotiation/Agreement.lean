import Telnetpp.Negotiation.Endpoint

/-!
# Two ends of one option agree

A server option at one end of two FIFO links and a client option of the same
code at the other, or the default refusal of a session in the place of one of
them. From rest, no order of calls and deliveries lets the ends disagree or
fills the links.
-/

namespace Telnetpp

open Foundation ModeAgreement Endpoint

abbrev EndpointNet := Net Element Element InternalState InternalState

abbrev EndpointEvent :=
  NetEvent (Call × Option Call) (Option Call) (Call × Option Call) (Option Call)

namespace EndpointNet

variable (code : OptionType) (server client : Bool)

/-- One event; `server` and `client` say which of the two options is installed. -/
def step (n : EndpointNet) (e : EndpointEvent) : EndpointNet :=
  Net.step (endpoint .server code server) (endpoint .client code client) n e

def start : EndpointNet := ⟨.inactive, .inactive, [], []⟩

def peers (n : EndpointNet) : PeerNet :=
  n.map (stance server) (stance client) (notice .server code) (notice .client code)

def WellFormed (n : EndpointNet) : Prop :=
  (∀ elem ∈ n.toLeft, elem.WellFormed) ∧ ∀ elem ∈ n.toRight, elem.WellFormed

variable {code server client}

theorem WellFormed.step {n : EndpointNet} (h : n.WellFormed) (e : EndpointEvent) :
    (n.step code server client e).WellFormed := by
  have hends (half : Half) (present : Bool) : (endpoint half code present).Keeps (fun _ => True)
      Element.WellFormed Element.WellFormed :=
    ⟨fun i st _ => ⟨trivial, act_wellFormed half code present i st⟩,
      fun hook elem _ st _ => ⟨trivial, recv_wellFormed half code present hook elem st⟩⟩
  obtain ⟨-, -, hleft, hright⟩ := Net.Carries.step (hends .server server) (hends .client client)
    ⟨trivial, trivial, h.1, h.2⟩ e
  exact ⟨hleft, hright⟩

theorem simulates_endpoint (half : Half) (present : Bool) :
    (endpoint half code present).Simulates peer (stance present) (notice half code)
      (notice half.other code) (fun _ => True) Element.WellFormed where
  act i st _ := by
    rcases act_simulates half code present i st with hnothing | hreq
    · exact Or.inl hnothing
    · exact Or.inr ⟨(), hreq⟩
  recv hook elem helem st _ := ⟨_, recv_simulates half code present hook helem st⟩

theorem peers_step {n : EndpointNet} (h : n.WellFormed) (e : EndpointEvent) :
    (n.step code server client e).peers code server client = n.peers code server client ∨
      ∃ e', (n.step code server client e).peers code server client =
        peerStep (n.peers code server client) e' :=
  Net.Carries.map_step (simulates_endpoint .server server) (simulates_endpoint .client client)
    ⟨trivial, trivial, h.1, h.2⟩ e

theorem agreed_run (code : OptionType) (server client : Bool) (es : List EndpointEvent) :
    Agreed ((run (step code server client) start es).peers code server client) := by
  have hstart : start.WellFormed := by simp [start, WellFormed]
  obtain ⟨es', hes'⟩ := run_simulates (step code server client) peerStep
    (peers code server client) (fun n e h => WellFormed.step h e)
    (fun n e h => peers_step h e) hstart es
  rw [hes']
  refine run_invariant (R := Agreed) peerStep (fun _ e h => h.step e) ?_ es'
  cases server <;> cases client <;> exact ⟨rfl, rfl, rfl⟩

/-- An end without the option stays inactive. -/
theorem keeps_absent (half : Half) (present : Bool) : (endpoint half code present).Keeps
    (fun st => present = false → st = .inactive) (fun _ => True) (fun _ => True) where
  act i st hst := by
    refine ⟨?_, fun _ _ => trivial⟩
    rintro rfl
    exact hst rfl
  recv hook elem _ st hst := by
    refine ⟨?_, fun _ _ => trivial⟩
    rintro rfl
    exact (absent_recv half code hook elem st).trans (hst rfl)

theorem absent_run (code : OptionType) (server client : Bool) (es : List EndpointEvent) :
    let n := run (step code server client) start es
    (server = false → n.left = .inactive) ∧ (client = false → n.right = .inactive) := by
  intro n
  have hrun : Net.Carries (fun st => server = false → st = .inactive)
      (fun st => client = false → st = .inactive) (fun _ => True) (fun _ => True) n := by
    refine run_invariant _ (fun n e h => ?_)
      ⟨fun _ => rfl, fun _ => rfl, fun _ _ => trivial, fun _ _ => trivial⟩ es
    exact h.step (keeps_absent .server server) (keeps_absent .client client) e
  exact ⟨hrun.left, hrun.right⟩

/-- In every state reached from rest at most two negotiations are in flight,
both ends are settled in one state when none is, which is inactive unless
both have the option, and no end is delivered a request for the state it is
in. -/
theorem run_coherent (code : OptionType) (server client : Bool) (es : List EndpointEvent) :
    let n := run (step code server client) start es
    n.toLeft.length + n.toRight.length ≤ 2 ∧
      (n.toLeft = [] → n.toRight = [] →
        (n.left = .inactive ∧ n.right = .inactive) ∨
          (n.left = .active ∧ n.right = .active ∧ server ∧ client)) ∧
      (n.left = .inactive → n.toLeft.head? ≠ some (.negotiation ⟨dont, code⟩)) ∧
      (n.left = .active → n.toLeft.head? ≠ some (.negotiation ⟨do_, code⟩)) ∧
      (n.right = .inactive → n.toRight.head? ≠ some (.negotiation ⟨wont, code⟩)) ∧
      (n.right = .active → n.toRight.head? ≠ some (.negotiation ⟨will, code⟩)) := by
  intro n
  have hagreed : Agreed (n.peers code server client) := agreed_run code server client es
  obtain ⟨hserver, hclient⟩ := absent_run code server client es
  have hleft (m : Bool) (hm : n.left = settledState m) :
      n.toLeft.head? ≠ some (.negotiation ⟨modeRequest .server m, code⟩) := by
    intro hhead
    apply hagreed.not_asked_left ((mode?_stance hserver m).mpr hm)
    simp only [peers, Net.map, List.head?_map, hhead, Option.map_some, notice_modeRequest]
  have hright (m : Bool) (hm : n.right = settledState m) :
      n.toRight.head? ≠ some (.negotiation ⟨modeRequest .client m, code⟩) := by
    intro hhead
    apply hagreed.not_asked_right ((mode?_stance hclient m).mpr hm)
    simp only [peers, Net.map, List.head?_map, hhead, Option.map_some, notice_modeRequest]
  refine ⟨?_, ?_, hleft false, hleft true, hright false, hright true⟩
  · simpa [peers, Net.map] using hagreed.length_inFlight
  · intro hl hr
    obtain ⟨m, hm, hm'⟩ := hagreed.quiescent (by simp [peers, Net.map, hl])
      (by simp [peers, Net.map, hr])
    have hl' := (mode?_stance hserver m).mp hm
    have hr' := (mode?_stance hclient m).mp hm'
    cases m with
    | false => exact Or.inl ⟨hl', hr'⟩
    | true =>
        refine Or.inr ⟨hl', hr', ?_, ?_⟩
        · by_contra habsent
          have hrest := hserver (Bool.eq_false_iff.mpr habsent)
          simp [hrest, settledState] at hl'
        · by_contra habsent
          have hrest := hclient (Bool.eq_false_iff.mpr habsent)
          simp [hrest, settledState] at hr'

end EndpointNet

end Telnetpp
