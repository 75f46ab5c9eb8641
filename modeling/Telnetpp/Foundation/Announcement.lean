import Telnetpp.Foundation.ModeAgreement

/-!
# A value announced over two FIFO links

Two ends agree on a mode as in `ModeAgreement`, and remember while they wait
what they have asked for. A source may hold a value, and announces it when
the mode comes on and whenever the value is set while it is on. The replica
keeps the last value that reaches it while it is on. Whenever nothing is in
flight and both ends are on, the replica has the value of the source, and
every announcement of the source comes after a message that turns the mode on,
with none that turns it off in between.
-/

namespace Foundation

/-! ## Ends that remember what they ask for -/

namespace ModeAgreement

inductive Phase
  | settled (mode : Bool)
  | asked (mode : Bool)
  deriving DecidableEq

namespace Phase

def ask : Phase → Phase × List Bool
  | .settled m => (.asked !m, [!m])
  | .asked m => (.asked m, [])

def take (m : Bool) : Phase → Phase × List Bool
  | .settled _ => (.settled m, [m])
  | .asked _ => (.settled m, [])

end Phase

def asker : Process Unit Unit Bool Bool Phase where
  act _ p := p.ask
  recv _ m p := p.take m

abbrev PhaseNet := Net Bool Bool Phase Phase

abbrev PhaseEvent := NetEvent Unit Unit Unit Unit

abbrev phaseStep (n : PhaseNet) (e : PhaseEvent) : PhaseNet := n.step asker asker e

/-- The invariant of a net that starts settled: a settled end is asked for the
other mode, and an end that waits is answered with the mode that it has asked for. -/
def Granting (n : PhaseNet) : Prop :=
  match n.left, n.right with
  | .settled m, .settled m' => m = m' ∧ n.toLeft = [] ∧ n.toRight = []
  | .settled m, .asked k =>
      (k = !m ∧ n.toLeft = [k] ∧ n.toRight = []) ∨ (k = m ∧ n.toLeft = [] ∧ n.toRight = [k])
  | .asked k, .settled m =>
      (k = !m ∧ n.toLeft = [] ∧ n.toRight = [k]) ∨ (k = m ∧ n.toLeft = [k] ∧ n.toRight = [])
  | .asked k, .asked k' =>
      (k' = k ∧ n.toLeft = [k] ∧ n.toRight = [k]) ∨
        (k' = !k ∧ n.toLeft = [k, k'] ∧ n.toRight = []) ∨
          (k' = !k ∧ n.toLeft = [] ∧ n.toRight = [k', k])

theorem Granting.swap {n : PhaseNet} (h : Granting n) : Granting n.swap := by
  rcases n with ⟨l, r, as, bs⟩
  rcases l with (_ | _) | (_ | _) <;> rcases r with (_ | _) | (_ | _) <;>
    simp only [Granting, Net.swap] at h ⊢ <;> grind

theorem Granting.ask_left {n : PhaseNet} (h : Granting n) :
    Granting (phaseStep n (.actLeft ())) := by
  rcases n with ⟨l, r, as, bs⟩
  cases l <;> cases r <;>
    simp only [Granting, phaseStep, Net.step, asker, Phase.ask] at h ⊢ <;> grind

theorem Granting.deliver_left {n : PhaseNet} (h : Granting n) :
    Granting (phaseStep n (.deliverLeft ())) := by
  rcases n with ⟨l, r, as, bs⟩
  cases as with
  | nil => exact h
  | cons m ms =>
      cases l <;> cases r <;>
        simp only [Granting, phaseStep, Net.step, asker, Phase.take] at h ⊢ <;> grind

theorem Granting.step {n : PhaseNet} (h : Granting n) (e : PhaseEvent) :
    Granting (phaseStep n e) := by
  cases e with
  | actLeft i => exact h.ask_left
  | deliverLeft k => exact h.deliver_left
  | actRight i => exact h.swap.ask_left.swap
  | deliverRight k =>
      rw [phaseStep, Net.step_deliverRight_swap]
      exact h.swap.deliver_left.swap

/-- An end that waits is answered with the mode that it has asked for. -/
theorem Granting.answered {n : PhaseNet} (h : Granting n) {k m : Bool} {ms : List Bool}
    (hl : n.left = .asked k) (hm : n.toLeft = m :: ms) : m = k := by
  rcases n with ⟨l, r, as, bs⟩
  cases l <;> cases r <;> simp only [Granting] at h hl hm ⊢ <;> grind

/-- An end that is on is not asked to come on. -/
theorem Granting.not_asked {n : PhaseNet} (h : Granting n) {m : Bool} {ms : List Bool}
    (hl : n.left = .settled true) (hm : n.toLeft = m :: ms) : m = false := by
  rcases n with ⟨l, r, as, bs⟩
  cases l <;> cases r <;> simp only [Granting] at h hl hm ⊢ <;> grind

/-- Nothing is on its way to an end that has asked an end that is on to go off. -/
theorem Granting.unanswered {n : PhaseNet} (h : Granting n) (hl : n.left = .settled true)
    (hr : n.right = .asked false) : n.toRight = [] := by
  rcases n with ⟨l, r, as, bs⟩
  cases l <;> cases r <;> simp only [Granting] at h hl hr ⊢ <;> grind

theorem Granting.not_off {n : PhaseNet} (h : Granting n) (hl : n.left = .settled true) :
    n.right ≠ .settled false := by
  rcases n with ⟨l, r, as, bs⟩
  cases l <;> cases r <;> simp only [Granting] at h hl ⊢ <;> grind

/-- The phase of an end once it has taken all that is in flight. -/
def settle (ms : List Bool) (p : Phase) : Phase := ms.foldl (fun p m => (p.take m).1) p

/-- An end comes on unless it is about to ask an end that is on to go off. -/
theorem Granting.settle_right {n : PhaseNet} (h : Granting n) (hl : n.left = .settled true)
    (hr : n.right ≠ .asked false) : settle n.toRight n.right = .settled true := by
  rcases n with ⟨l, r, as, bs⟩
  cases l <;> cases r <;>
    simp only [Granting, settle] at h hl hr ⊢ <;> grind [Phase.take]

end ModeAgreement

/-! ## The two processes -/

namespace Announcement

open ModeAgreement

inductive Message (V : Type*)
  | mode (m : Bool)
  | value (v : V)

/-- `sent` is all that the source has ever sent. -/
structure Source (V : Type*) where
  phase : Phase
  value : Option V
  sent : List (Message V)

structure Replica (V : Type*) where
  phase : Phase
  heard : Option V

inductive SourceInput (V : Type*)
  | ask
  | set (v : V)
  | announce

variable {V : Type*}

namespace Source

def announcement (s : Source V) : List (Message V) :=
  if s.phase = .settled true then s.value.toList.map .value else []

def send (s : Source V) (ms : List (Message V)) : Source V × List (Message V) :=
  ({ s with sent := s.sent ++ ms }, ms)

end Source

/-- A source that is on already only answers when it is asked to come on. -/
def source : Process (SourceInput V) Unit Bool (Message V) (Source V) where
  act
    | .ask, s => ({ s with phase := s.phase.ask.1 } : Source V).send (s.phase.ask.2.map .mode)
    | .set v, s =>
        let s := { s with value := some v }
        s.send s.announcement
    | .announce, s => s.send s.announcement
  recv _ m s :=
    let s' := { s with phase := (s.phase.take m).1 }
    s'.send ((s.phase.take m).2.map .mode ++
      if s.phase = .settled true then [] else s'.announcement)

def replica : Process Unit Unit (Message V) Bool (Replica V) where
  act _ r := ({ r with phase := r.phase.ask.1 }, r.phase.ask.2)
  recv
    | _, .mode m, r => ({ r with phase := (r.phase.take m).1 }, (r.phase.take m).2)
    | _, .value v, r =>
        (if r.phase = .settled true then { r with heard := some v } else r, [])

abbrev AnnouncementNet (V : Type*) := Net Bool (Message V) (Source V) (Replica V)

abbrev AnnouncementEvent (V : Type*) := NetEvent (SourceInput V) Unit Unit Unit

abbrev step (n : AnnouncementNet V) (e : AnnouncementEvent V) : AnnouncementNet V :=
  n.step source replica e

/-! ## The modes -/

def Message.mode? : Message V → Option Bool
  | .mode m => some m
  | .value _ => none

def modes (ms : List (Message V)) : List Bool := ms.filterMap Message.mode?

@[simp] theorem modes_nil : modes ([] : List (Message V)) = [] := rfl

@[simp] theorem modes_mode (m : Bool) (ms : List (Message V)) :
    modes (.mode m :: ms) = m :: modes ms := rfl

@[simp] theorem modes_value (v : V) (ms : List (Message V)) :
    modes (.value v :: ms) = modes ms := rfl

@[simp] theorem modes_append (ms ms' : List (Message V)) :
    modes (ms ++ ms') = modes ms ++ modes ms' := List.filterMap_append

@[simp] theorem modes_map (bs : List Bool) :
    modes (bs.map Message.mode : List (Message V)) = bs := by
  simp [modes, List.filterMap_map, Function.comp_def, Message.mode?]

@[simp] theorem modes_announcement (s : Source V) : modes s.announcement = [] := by
  rw [Source.announcement]
  split
  · cases s.value <;> rfl
  · rfl

def phases (n : AnnouncementNet V) : PhaseNet :=
  ⟨n.left.phase, n.right.phase, n.toLeft, modes n.toRight⟩

theorem phases_step (n : AnnouncementNet V) (e : AnnouncementEvent V) :
    phases (step n e) = phases n ∨ ∃ e', phases (step n e) = phaseStep (phases n) e' := by
  rcases n with ⟨l, r, as, bs⟩
  cases e with
  | actLeft i =>
      cases i with
      | ask =>
          exact Or.inr ⟨.actLeft (), by simp [phases, Net.step, source, asker, Source.send]⟩
      | set v => exact Or.inl (by simp [phases, Net.step, source, Source.send])
      | announce => exact Or.inl (by simp [phases, Net.step, source, Source.send])
  | actRight i => exact Or.inr ⟨.actRight (), rfl⟩
  | deliverLeft k =>
      cases as with
      | nil => exact Or.inl rfl
      | cons m ms =>
          refine Or.inr ⟨.deliverLeft (), ?_⟩
          by_cases hon : l.phase = .settled true <;>
            simp [phases, Net.step, source, asker, Source.send, hon]
  | deliverRight k =>
      cases bs with
      | nil => exact Or.inl rfl
      | cons b bs =>
          cases b with
          | mode m => exact Or.inr ⟨.deliverRight (), rfl⟩
          | value v =>
              left
              by_cases hon : r.phase = .settled true <;>
                simp [phases, Net.step, replica, hon]

/-! ## What is in flight -/

/-- The replica once it has read all of these. -/
def readAll (ms : List (Message V)) (r : Replica V) : Replica V :=
  ms.foldl (fun r m => (replica.recv () m r).1) r

theorem readAll_append (ms ms' : List (Message V)) (r : Replica V) :
    readAll (ms ++ ms') r = readAll ms' (readAll ms r) := List.foldl_append

theorem readAll_phase (ms : List (Message V)) (r : Replica V) :
    (readAll ms r).phase = settle (modes ms) r.phase := by
  induction ms generalizing r with
  | nil => rfl
  | cons m ms ih =>
      cases m with
      | mode m => exact ih _
      | value v =>
          apply (ih _).trans
          by_cases hon : r.phase = .settled true <;> simp [replica, hon]

/-- A replica that is on hears the value of the source, or keeps what it has
heard if there is none. -/
theorem readAll_announcement {s : Source V} (hs : s.phase = .settled true) {r : Replica V}
    (hr : r.phase = .settled true) {v : V} (hv : s.value = some v) :
    (readAll s.announcement r).heard = some v := by
  simp [Source.announcement, hs, hv, readAll, replica, hr]

/-- Everything in flight to a replica that stays on, or comes on, leads it to
the value of a source that is on. -/
def Fresh (n : AnnouncementNet V) : Prop :=
  n.left.phase = .settled true → n.right.phase ≠ .asked false →
    ∀ v, n.left.value = some v → (readAll n.toRight n.right).heard = some v

/-- A net in which the source has just announced its value. -/
theorem fresh_of_announcement {n : AnnouncementNet V} (h : Granting (phases n))
    {ms : List (Message V)} (hms : n.toRight = ms ++ n.left.announcement) : Fresh n := by
  intro hl hr v hv
  rw [hms, readAll_append]
  apply readAll_announcement hl _ hv
  have hsettle := h.settle_right hl hr
  have hmodes : (phases n).toRight = modes ms := by simp [phases, hms]
  rw [hmodes] at hsettle
  exact (readAll_phase ms n.right).trans hsettle

theorem fresh_of_off {n : AnnouncementNet V} (h : n.left.phase ≠ .settled true) : Fresh n :=
  fun hl => absurd hl h

/-! ## What has been sent -/

/-- Every value comes after a message that turns the mode on, with none that
turns it off in between. -/
inductive Announced : List (Message V) → Prop
  | nil : Announced []
  | mode {ms : List (Message V)} (h : Announced ms) (m : Bool) : Announced (ms ++ [.mode m])
  | value {ms : List (Message V)} (h : Announced ms) (hon : (modes ms).getLast? = some true)
      (v : V) : Announced (ms ++ [.value v])

theorem Announced.before {ms before after : List (Message V)} {v : V} (h : Announced ms)
    (hms : ms = before ++ .value v :: after) : (modes before).getLast? = some true := by
  induction h generalizing after with
  | nil => simp at hms
  | mode h m ih =>
      rcases List.eq_nil_or_concat after with rfl | ⟨after, last, rfl⟩
      · simp at hms
      · rw [List.concat_eq_append, ← List.cons_append, ← List.append_assoc] at hms
        exact ih (List.append_inj_left' hms rfl)
  | value h hon v' ih =>
      rcases List.eq_nil_or_concat after with rfl | ⟨after, last, rfl⟩
      · rw [← List.append_inj_left' hms rfl]
        exact hon
      · rw [List.concat_eq_append, ← List.cons_append, ← List.append_assoc] at hms
        exact ih (List.append_inj_left' hms rfl)

/-- A source that is on, or waits, has sent its mode last. -/
structure Truthful (s : Source V) : Prop where
  on : s.phase = .settled true → (modes s.sent).getLast? = some true
  asked : ∀ m, s.phase = .asked m → (modes s.sent).getLast? = some m
  announced : Announced s.sent

theorem Truthful.announce {s : Source V} (h : Truthful s) :
    Truthful (s.send s.announcement).1 := by
  have hmodes : modes (s.send s.announcement).1.sent = modes s.sent := by simp [Source.send]
  refine ⟨?_, ?_, ?_⟩
  · rw [hmodes]
    exact h.on
  · rw [hmodes]
    exact h.asked
  · by_cases hon : s.phase = .settled true
    · cases hv : s.value with
      | none =>
          have hnone : s.announcement = [] := by simp [Source.announcement, hv]
          rw [hnone, Source.send, List.append_nil]
          exact h.announced
      | some v =>
          have hone : s.announcement = [.value v] := by simp [Source.announcement, hon, hv]
          rw [hone]
          exact h.announced.value (h.on hon) v
    · have hnone : s.announcement = [] := by simp [Source.announcement, hon]
      rw [hnone, Source.send, List.append_nil]
      exact h.announced

/-- A source takes a mode and says so, or is answered with the mode that it
has sent last. -/
theorem Truthful.take {s : Source V} (h : Truthful s) {m : Bool}
    (hm : ∀ k, s.phase = .asked k → m = k) :
    Truthful (({ s with phase := (s.phase.take m).1 } : Source V).send
      ((s.phase.take m).2.map .mode)).1 := by
  rcases s with ⟨phase, value, sent⟩
  cases phase with
  | settled m' =>
      refine ⟨?_, ?_, h.announced.mode m⟩
      · rintro hon
        obtain rfl : m = true := by simpa [Phase.take, Source.send] using hon
        simp [Source.send, Phase.take]
      · simp [Source.send, Phase.take]
  | asked k =>
      obtain rfl := hm k rfl
      have hsent := h.asked m rfl
      have hkept : ({ phase := (Phase.take m (.asked m)).1, value := value, sent := sent } :
          Source V).send ((Phase.take m (.asked m)).2.map .mode) =
            (⟨.settled m, value, sent⟩, []) := by simp [Source.send, Phase.take]
      rw [hkept]
      refine ⟨?_, ?_, h.announced⟩
      · intro hon
        obtain rfl : m = true := by simpa using hon
        exact hsent
      · simp

/-! ## The invariant -/

structure Sound (n : AnnouncementNet V) : Prop where
  granting : Granting (phases n)
  truthful : Truthful n.left
  fresh : Fresh n

theorem Sound.granting_step {n : AnnouncementNet V} (h : Sound n) (e : AnnouncementEvent V) :
    Granting (phases (step n e)) := by
  rcases phases_step n e with heq | ⟨e', heq⟩
  · rw [heq]
    exact h.granting
  · rw [heq]
    exact h.granting.step e'

theorem Sound.source_act {n : AnnouncementNet V} (h : Sound n) (i : SourceInput V) :
    Sound (step n (.actLeft i)) := by
  have hgranting := h.granting_step (.actLeft i)
  cases i with
  | ask =>
      rcases n with ⟨⟨phase, value, sent⟩, r, as, bs⟩
      cases phase with
      | settled m =>
          refine ⟨hgranting, ⟨?_, ?_, h.truthful.announced.mode _⟩, fresh_of_off ?_⟩
          · simp [Net.step, source, Source.send, Phase.ask]
          · rintro k hk
            obtain rfl : (!m) = k := by simpa [Net.step, source, Source.send, Phase.ask] using hk
            simp [Net.step, source, Source.send, Phase.ask]
          · simp [Net.step, source, Source.send, Phase.ask]
      | asked m =>
          have hstep : step ⟨⟨.asked m, value, sent⟩, r, as, bs⟩ (.actLeft .ask) =
              ⟨⟨.asked m, value, sent⟩, r, as, bs⟩ := by
            simp [Net.step, source, Source.send, Phase.ask]
          rw [hstep]
          exact h
  | set v =>
      have hset : Truthful { n.left with value := some v } :=
        ⟨h.truthful.on, h.truthful.asked, h.truthful.announced⟩
      exact ⟨hgranting, hset.announce, fresh_of_announcement hgranting rfl⟩
  | announce => exact ⟨hgranting, h.truthful.announce, fresh_of_announcement hgranting rfl⟩

theorem Sound.source_recv {n : AnnouncementNet V} (h : Sound n) :
    Sound (step n (.deliverLeft ())) := by
  have hgranting := h.granting_step (.deliverLeft ())
  rcases n with ⟨s, r, as, bs⟩
  cases as with
  | nil => exact h
  | cons m as =>
      let s' : Source V := { s with phase := (s.phase.take m).1 }
      let answer : List (Message V) := (s.phase.take m).2.map .mode
      have htake : Truthful (s'.send answer).1 :=
        h.truthful.take fun k hk => h.granting.answered hk rfl
      by_cases hon : s.phase = .settled true
      · have hstep : step ⟨s, r, m :: as, bs⟩ (.deliverLeft ()) =
            ⟨(s'.send answer).1, r, as, bs ++ answer⟩ := by
          simp [Net.step, source, hon, Source.send, s', answer]
        obtain rfl : m = false := h.granting.not_asked hon rfl
        rw [hstep] at hgranting ⊢
        refine ⟨hgranting, htake, fresh_of_off ?_⟩
        simp [Source.send, s', hon, Phase.take]
      · have hstep : step ⟨s, r, m :: as, bs⟩ (.deliverLeft ()) =
            ⟨((s'.send answer).1.send s'.announcement).1, r, as,
              (bs ++ answer) ++ s'.announcement⟩ := by
          simp [Net.step, source, hon, Source.send, s', answer]
        rw [hstep] at hgranting ⊢
        exact ⟨hgranting, htake.announce, fresh_of_announcement hgranting rfl⟩

theorem Sound.replica_act {n : AnnouncementNet V} (h : Sound n) :
    Sound (step n (.actRight ())) := by
  refine ⟨h.granting_step (.actRight ()), h.truthful, ?_⟩
  rcases n with ⟨s, ⟨phase, heard⟩, as, bs⟩
  cases phase with
  | settled m =>
      intro hl hr
      cases m with
      | true => exact absurd rfl hr
      | false => exact absurd rfl (h.granting.not_off hl)
  | asked m => exact h.fresh

theorem Sound.replica_recv {n : AnnouncementNet V} (h : Sound n) :
    Sound (step n (.deliverRight ())) := by
  have hgranting := h.granting_step (.deliverRight ())
  rcases n with ⟨s, r, as, bs⟩
  cases bs with
  | nil => exact h
  | cons b bs =>
      refine ⟨hgranting, h.truthful, ?_⟩
      intro hl hr
      by_cases hasked : r.phase = .asked false
      · cases b with
        | mode m => exact absurd (h.granting.unanswered hl hasked) (List.cons_ne_nil _ _)
        | value v =>
            exfalso
            apply hr
            simp [Net.step, replica, hasked]
      · exact h.fresh hl hasked

theorem Sound.step {n : AnnouncementNet V} (h : Sound n) (e : AnnouncementEvent V) :
    Sound (step n e) := by
  cases e with
  | actLeft i => exact h.source_act i
  | actRight i => exact h.replica_act
  | deliverLeft k => exact h.source_recv
  | deliverRight k => exact h.replica_recv

/-- Both ends off, nothing in flight and nothing sent. -/
def start (value heard : Option V) : AnnouncementNet V :=
  ⟨⟨.settled false, value, []⟩, ⟨.settled false, heard⟩, [], []⟩

theorem sound_run (value heard : Option V) (es : List (AnnouncementEvent V)) :
    Sound (run step (start value heard) es) := by
  apply run_invariant _ (fun _ e h => h.step e)
  refine ⟨⟨rfl, rfl, rfl⟩, ⟨?_, ?_, .nil⟩, fresh_of_off ?_⟩
  · simp [start]
  · simp [start]
  · simp [start]

/-- Once nothing is in flight, a replica that is on has heard the value of a
source that is on. -/
theorem Sound.quiescent {n : AnnouncementNet V} (h : Sound n) (hright : n.toRight = [])
    (hl : n.left.phase = .settled true) (hr : n.right.phase = .settled true) {v : V}
    (hv : n.left.value = some v) : n.right.heard = some v := by
  have hheard := h.fresh hl (by simp [hr]) v hv
  rwa [hright] at hheard

end Announcement

end Foundation
