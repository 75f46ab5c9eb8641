import Telnetpp.Mccp.Link

/-!
# What the server promises

The documentation of `start_compression` and `finish_compression`, as a
contract on every step of a server: a request that is made while the option is
not active is met when it becomes active, and compression that runs keeps
running. The server forgets such requests, and ends its compression whenever
the signal for a change of its state fires.
-/

namespace Telnetpp.Mccp

open Foundation

/-- What an application does with a server, and what its remote answers. -/
inductive ContractEvent
  | input (i : ServerInput)
  | receive (positive : Bool)
  deriving DecidableEq, Repr

def ContractEvent.apply : ContractEvent → ServerWorld → ServerWorld
  | .input i => i.apply
  | .receive positive => serverSession.tokenHandler (fun _ w => w)
      (.negotiation ⟨if positive then do_ else dont, option⟩)

/-- A server, what its last step has sent, and whether a request to start
compression is outstanding. -/
structure Monitor extends ServerWorld where
  requested : Bool := false

namespace Monitor

/-- A request is made by `start_compression` while the option is not active,
and is outstanding until the option is active or `finish_compression` is called. -/
def step (m : Monitor) (e : ContractEvent) : Monitor :=
  let w := e.apply { m.toServerWorld with sent := [] }
  { toServerWorld := w
    requested :=
      match e with
      | .input .startCompression => m.state != .active
      | .input .finishCompression => false
      | _ => m.requested && w.state != .active }

/-- The two promises, for one step. -/
structure Honours (m : Monitor) (e : ContractEvent) : Prop where
  starts : m.requested = true → m.state ≠ .active → (m.step e).state = .active →
    (∃ compressed, .unit (.subnegotiation ⟨option, []⟩) compressed ∈ (m.step e).sent) ∧
      (m.step e).engaged = true
  keepsRunning : m.engaged = true → m.state = .active → e ≠ .input .finishCompression →
    (m.step e).state = .active → (m.step e).engaged = true

/-- No DO arrives while a request is outstanding, and `activate` is not called
on an active option that compresses. -/
def Guard (m : Monitor) : ContractEvent → Prop
  | .receive true => m.requested = false
  | .input (.call .activate) => ¬ (m.state = .active ∧ m.engaged = true)
  | _ => True

instance (m : Monitor) (e : ContractEvent) : Decidable (m.Guard e) := by
  unfold Guard
  split <;> infer_instance

structure Sound (m : Monitor) : Prop where
  server : m.toServer.Sound
  requested : m.requested = true → m.state ≠ .active

/-! ## One step -/

theorem apply_receive (positive : Bool) (w : ServerWorld) :
    (ContractEvent.receive positive).apply w =
      Mccp.server.negotiate (if positive then do_ else dont) w := by
  cases positive <;> rfl

theorem sound_apply {s : Server} (hs : s.Sound) (e : ContractEvent) :
    (e.apply { s with sent := [] }).toServer.Sound := by
  have hahead : Ahead s s.engaged := Or.inl rfl
  cases e with
  | receive positive =>
      rw [apply_receive]
      apply ServerStep.sound (m := s.engaged)
      apply serverStep_negotiate hs hahead
      cases positive <;> simp
  | input i =>
      show (i.apply { s with sent := [] }).toServer.Sound
      cases i with
      | text data => exact hs
      | _ =>
          apply ServerStep.sound (m := s.engaged)
          apply serverStep_apply hs hahead
          intro data hdata
          cases hdata

theorem Sound.step {m : Monitor} (h : m.Sound) (e : ContractEvent) : (m.step e).Sound := by
  refine ⟨sound_apply h.server e, ?_⟩
  have hother : (m.requested && (m.step e).state != .active) = true →
      (m.step e).state ≠ .active := by
    intro hrequested
    simpa using (Bool.and_eq_true_iff.mp hrequested).2
  cases e with
  | receive positive => exact hother
  | input i =>
      cases i with
      | startCompression =>
          intro hrequested hactive
          have hidle : (m.step (.input .startCompression)).state = m.state := by
            simp only [Monitor.step, ContractEvent.apply, ServerInput.apply,
              ServerWorld.startCompression]
            split <;> rfl
          rw [hidle] at hactive
          simp [Monitor.step, hactive] at hrequested
      | finishCompression => exact nofun
      | _ => exact hother

/-- DO makes the option active, and ends any compression unless it was active already. -/
theorem step_receive_positive {m : Monitor} (h : m.Sound) :
    (m.step (.receive true)).state = .active ∧
      (m.step (.receive true)).engaged = (m.engaged && m.state == .active) := by
  rcases m with ⟨⟨⟨state, engaged, active⟩, sent⟩, requested⟩
  obtain ⟨hactive, hrunning⟩ := h.server
  obtain rfl : active = engaged := hactive
  cases state with
  | inactive =>
      obtain rfl : active = false := by simpa using hrunning
      exact ⟨rfl, rfl⟩
  | activating =>
      obtain rfl : active = false := by simpa using hrunning
      exact ⟨rfl, rfl⟩
  | active => cases active <;> exact ⟨rfl, rfl⟩
  | deactivating => cases active <;> exact ⟨rfl, rfl⟩

/-- Nothing but DO makes the option active. -/
theorem step_inactive {m : Monitor} (hm : m.state ≠ .active) {e : ContractEvent}
    (he : e ≠ .receive true) : (m.step e).state ≠ .active := by
  rcases m with ⟨⟨⟨state, engaged, active⟩, sent⟩, requested⟩
  cases e with
  | receive positive =>
      cases positive with
      | true => exact absurd rfl he
      | false => cases state <;> cases active <;> first | exact absurd rfl hm | exact nofun
  | input i =>
      cases i with
      | call c =>
          cases c <;> cases state <;> cases active <;>
            first | exact absurd rfl hm | exact nofun
      | _ => cases state <;> cases active <;> first | exact absurd rfl hm | exact nofun

/-- Of the steps that leave an active option active, only `finish_compression`
and `activate` end its compression. -/
theorem step_running {m : Monitor} (hengaged : m.engaged = true) (hm : m.state = .active)
    {e : ContractEvent} (hfinish : e ≠ .input .finishCompression)
    (hactivate : e ≠ .input (.call .activate)) (hactive : (m.step e).state = .active) :
    (m.step e).engaged = true := by
  rcases m with ⟨⟨⟨state, engaged, active⟩, sent⟩, requested⟩
  obtain rfl : engaged = true := hengaged
  obtain rfl : state = .active := hm
  cases e with
  | receive positive =>
      cases positive with
      | true => cases active <;> rfl
      | false => cases active <;> exact absurd hactive nofun
  | input i =>
      cases i with
      | call c =>
          cases c with
          | activate => exact absurd rfl hactivate
          | deactivate => rfl
      | finishCompression => exact absurd rfl hfinish
      | _ => rfl

theorem step_activate {m : Monitor} (h : m.Sound) (hm : m.state = .active) :
    (m.step (.input (.call .activate))).state = .active ∧
      (m.step (.input (.call .activate))).engaged = false := by
  rcases m with ⟨⟨⟨state, engaged, active⟩, sent⟩, requested⟩
  obtain rfl : active = engaged := h.server.compressionActive
  obtain rfl : state = .active := hm
  cases active <;> exact ⟨rfl, rfl⟩

theorem honours_iff {m : Monitor} (h : m.Sound) (e : ContractEvent) : m.Honours e ↔ m.Guard e := by
  constructor
  · rintro ⟨hstarts, hkeeps⟩
    cases e with
    | receive positive =>
        cases positive with
        | false => exact trivial
        | true =>
            obtain ⟨hactive, hengaged⟩ := step_receive_positive h
            apply Bool.eq_false_iff.mpr
            intro hrequested
            have hstate := h.requested hrequested
            have hrunning := (hstarts hrequested hstate hactive).2
            rw [hengaged] at hrunning
            simp [hstate] at hrunning
    | input i =>
        cases i with
        | call c =>
            cases c with
            | deactivate => exact trivial
            | activate =>
                rintro ⟨hstate, hrunning⟩
                obtain ⟨hactive, hended⟩ := step_activate h hstate
                have hkept := hkeeps hrunning hstate nofun hactive
                rw [hended] at hkept
                exact absurd hkept (by decide)
        | _ => exact trivial
  · intro hguard
    constructor
    · intro hrequested hstate hactive
      by_cases he : e = .receive true
      · subst he
        have hnone : m.requested = false := hguard
        rw [hnone] at hrequested
        exact absurd hrequested (by decide)
      · exact absurd hactive (step_inactive hstate he)
    · intro hrunning hstate hfinish hactive
      by_cases he : e = .input (.call .activate)
      · subst he
        exact absurd ⟨hstate, hrunning⟩ hguard
      · exact step_running hrunning hstate hfinish he hactive

/-! ## Runs -/

/-- In every run, the contract is kept exactly as long as the guard is met. -/
theorem run_contract_iff (es : List ContractEvent) :
    Along step Honours {} es ↔ Along step Guard {} es :=
  along_congr step (fun _ e h => h.step e) (fun _ e h => honours_iff h e)
    ⟨⟨rfl, by simp⟩, by simp⟩ es

/-- A request that is made before the activation is forgotten, and a second
`activate` ends the compression of an active option. -/
theorem contract_broken :
    ¬ Along step Honours {} [.input .startCompression, .receive true] ∧
      ¬ Along step Honours {}
        [.receive true, .input .startCompression, .input (.call .activate)] := by
  constructor
  · rintro ⟨-, hhonours, -⟩
    have hengaged := (hhonours.starts (by decide) (by decide) (by decide)).2
    exact absurd hengaged (by decide)
  · rintro ⟨-, -, hhonours, -⟩
    have hengaged := hhonours.keepsRunning (by decide) (by decide) (by decide) (by decide)
    exact absurd hengaged (by decide)

end Monitor

end Telnetpp.Mccp
