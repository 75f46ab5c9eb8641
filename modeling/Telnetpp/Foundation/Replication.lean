import Telnetpp.Foundation.ModeAgreement
import Telnetpp.Foundation.Tables

/-!
# A table replicated over two FIFO links

A source has a store and a replica has a table. The ends agree on a mode as
in `ModeAgreement`; while it is on, the source tells of every write and
lists its store when asked to. A replica that comes on clears its table and
asks. Whenever nothing is in flight and both ends are on, the replica has
the table of the source.
-/

namespace Foundation
namespace Replication

open ModeAgreement Table

inductive Message (K V : Type*)
  | mode (m : Bool)
  | request
  | updates (us : List (Update K V))

structure Source (D : Type*) where
  stance : Stance
  data : D

structure Replica (K V : Type*) where
  stance : Stance
  table : Table K V

inductive SourceInput (K V : Type*)
  | ask
  | write (u : Update K V)

inductive ReplicaInput
  | ask
  | refresh

def ask : Stance → Stance × List Bool
  | .settled m => (.waiting, [!m])
  | s => (s, [])

def take (m : Bool) : Stance → Stance × List Bool
  | .settled _ => (.settled m, [m])
  | .waiting => (.settled m, [])
  | .refusing => (.refusing, [false])

variable {D K V : Type*}

/-! ## Reading the messages in flight -/

def Message.notice? : Message K V → Option Notice
  | .mode m => some (.mode m)
  | _ => none

def notices (ms : List (Message K V)) : List Notice := ms.filterMap Message.notice?

@[simp] theorem notices_nil : notices ([] : List (Message K V)) = [] := rfl

@[simp] theorem notices_mode (m : Bool) (ms : List (Message K V)) :
    notices (.mode m :: ms) = .mode m :: notices ms := rfl

@[simp] theorem notices_request (ms : List (Message K V)) :
    notices (.request :: ms) = notices ms := rfl

@[simp] theorem notices_updates (us : List (Update K V)) (ms : List (Message K V)) :
    notices (.updates us :: ms) = notices ms := rfl

@[simp] theorem notices_append (ms ms' : List (Message K V)) :
    notices (ms ++ ms') = notices ms ++ notices ms' := List.filterMap_append

@[simp] theorem notices_modes (bs : List Bool) :
    notices (bs.map Message.mode : List (Message K V)) = bs.map .mode := by
  induction bs with
  | nil => rfl
  | cons b bs ih => rw [List.map_cons, notices_mode, ih, List.map_cons]

/-- What comes after the first message that turns the mode on. -/
def afterOn : List (Message K V) → Option (List (Message K V))
  | [] => none
  | .mode true :: ms => some ms
  | _ :: ms => afterOn ms

theorem afterOn_append (ms ms' : List (Message K V)) :
    afterOn (ms ++ ms') = ((afterOn ms).map (· ++ ms')).or (afterOn ms') := by
  induction ms with
  | nil => rfl
  | cons m ms ih =>
      cases m with
      | mode m => cases m <;> simp [afterOn, ih]
      | _ => simp [afterOn, ih]

theorem afterOn_eq_none {ms : List (Message K V)} (h : .mode true ∉ notices ms) :
    afterOn ms = none := by
  induction ms with
  | nil => rfl
  | cons m ms ih =>
      cases m with
      | mode m =>
          cases m with
          | true => simp at h
          | false => exact ih (by simpa using h)
      | _ => exact ih h

theorem afterOn_eq_none_of_nil {ms : List (Message K V)} (h : notices ms = []) :
    afterOn ms = none := afterOn_eq_none (by simp [h])

def EndsInMode (ms : List (Message K V)) : Prop := ∀ m ∈ ms.getLast?, ∃ b, m = .mode b

theorem endsInMode_append (ms : List (Message K V)) (b : Bool) :
    EndsInMode (ms ++ [.mode b]) := by
  intro m hm
  exact ⟨b, by simpa using hm.symm⟩

theorem EndsInMode.tail {m : Message K V} {ms : List (Message K V)}
    (h : EndsInMode (m :: ms)) : EndsInMode ms := by
  cases ms with
  | nil => simp [EndsInMode]
  | cons m' ms => exact h

theorem EndsInMode.eq_nil {ms : List (Message K V)} (h : EndsInMode ms)
    (hnone : notices ms = []) : ms = [] := by
  rcases List.eq_nil_or_concat ms with rfl | ⟨ms, m, rfl⟩
  · rfl
  · obtain ⟨b, rfl⟩ := h m (by simp)
    simp at hnone

theorem EndsInMode.afterOn {ms : List (Message K V)} (h : EndsInMode ms)
    (hone : notices ms = [.mode true]) : afterOn ms = some [] := by
  induction ms with
  | nil => simp at hone
  | cons m ms ih =>
      cases m with
      | mode m =>
          obtain ⟨rfl, hms⟩ : m = true ∧ notices ms = [] := by simpa using hone
          rw [h.tail.eq_nil hms]
          rfl
      | _ => exact ih h.tail hone

section Processes

variable [DecidableEq K]

/-- The table of a replica that takes everything in flight. -/
def readAll (ms : List (Message K V)) (t : Table K V) : Table K V :=
  ms.foldl (fun t m => match m with
    | .updates us => patch us t
    | _ => t) t

theorem readAll_append (ms ms' : List (Message K V)) (t : Table K V) :
    readAll (ms ++ ms') t = readAll ms' (readAll ms t) := List.foldl_append

theorem within_readAll {t t' : Table K V} (h : Within t t') (ms : List (Message K V)) :
    Within (readAll ms t) (readAll ms t') := by
  induction ms generalizing t t' with
  | nil => exact h
  | cons m ms ih =>
      cases m with
      | updates us => exact ih (h.patch us)
      | _ => exact ih h

/-! ## The two processes -/

def source (S : Store D K V) :
    Process (SourceInput K V) Unit (Message K V) (Message K V) (Source D) where
  act
    | .ask, s => (⟨(ask s.stance).1, s.data⟩, (ask s.stance).2.map .mode)
    | .write u, s =>
        (⟨s.stance, S.write u s.data⟩, if s.stance = .settled true then [.updates [u]] else [])
  recv
    | _, .mode m, s => (⟨(take m s.stance).1, s.data⟩, (take m s.stance).2.map .mode)
    | _, .request, s =>
        (s, if s.stance = .settled true then [.updates (S.listing s.data)] else [])
    | _, .updates _, s => (s, [])

def replica : Process ReplicaInput Unit (Message K V) (Message K V) (Replica K V) where
  act
    | .ask, s => (⟨(ask s.stance).1, s.table⟩, (ask s.stance).2.map .mode)
    | .refresh, s => if s.stance = .settled true then (⟨s.stance, empty⟩, [.request]) else (s, [])
  recv
    | _, .mode m, s =>
        if m = true ∧ (s.stance = .settled false ∨ s.stance = .waiting) then
          (⟨.settled true, empty⟩, (take m s.stance).2.map .mode ++ [.request])
        else (⟨(take m s.stance).1, s.table⟩, (take m s.stance).2.map .mode)
    | _, .request, s => (s, [])
    | _, .updates us, s =>
        if s.stance = .settled true then (⟨s.stance, patch us s.table⟩, []) else (s, [])

abbrev ReplicaNet (D K V : Type*) := Net (Message K V) (Message K V) (Source D) (Replica K V)

abbrev ReplicaEvent (K V : Type*) := NetEvent (SourceInput K V) Unit ReplicaInput Unit

abbrev step (S : Store D K V) (n : ReplicaNet D K V) (e : ReplicaEvent K V) : ReplicaNet D K V :=
  n.step (source S) replica e

def peers (n : ReplicaNet D K V) : PeerNet :=
  ⟨n.left.stance, n.right.stance, notices n.toLeft, notices n.toRight⟩

theorem request_eq (s : Stance) : ModeAgreement.request s = ((ask s).1, (ask s).2.map .mode) := by
  cases s <;> rfl

theorem receive_eq (m : Bool) (s : Stance) :
    receive .quiet (.mode m) s = ((take m s).1, (take m s).2.map .mode) := by
  cases s with
  | settled m' => simp [receive, take]
  | _ => rfl

variable {S : Store D K V}

theorem peers_step (n : ReplicaNet D K V) (e : ReplicaEvent K V) :
    peers (step S n e) = peers n ∨ ∃ e', peers (step S n e) = peerStep (peers n) e' := by
  rcases n with ⟨⟨l, d⟩, ⟨r, t⟩, as, bs⟩
  cases e with
  | actLeft i =>
      cases i with
      | ask =>
          exact Or.inr ⟨.actLeft (), by simp [peers, Net.step, source, peer, request_eq]⟩
      | write u =>
          left
          by_cases hl : l = .settled true <;> simp [peers, Net.step, source, hl]
  | actRight i =>
      cases i with
      | ask =>
          exact Or.inr ⟨.actRight (), by simp [peers, Net.step, replica, peer, request_eq]⟩
      | refresh =>
          left
          by_cases hr : r = .settled true <;> simp [peers, Net.step, replica, hr]
  | deliverLeft =>
      cases as with
      | nil => exact Or.inl rfl
      | cons a as =>
          cases a with
          | mode m =>
              exact Or.inr ⟨.deliverLeft .quiet,
                by simp [peers, Net.step, source, peer, receive_eq]⟩
          | request =>
              left
              by_cases hl : l = .settled true <;> simp [peers, Net.step, source, hl]
          | updates us => exact Or.inl (by simp [peers, Net.step, source])
  | deliverRight =>
      cases bs with
      | nil => exact Or.inl rfl
      | cons b bs =>
          cases b with
          | mode m =>
              refine Or.inr ⟨.deliverRight .quiet, ?_⟩
              cases m <;> rcases r with (_ | _) | _ | _ <;>
                simp [peers, Net.step, replica, peer, receive_eq, take]
          | request => exact Or.inl (by simp [peers, Net.step, replica])
          | updates us =>
              left
              by_cases hr : r = .settled true <;> simp [peers, Net.step, replica, hr]

/-! ## The invariant -/

/-- While an end waits, its request is the last thing it has sent. When the
source waits for a replica that is on, or a replica waits for a source that
is on, everything after the message that turns it on will set them right. -/
structure Synced (S : Store D K V) (n : ReplicaNet D K V) : Prop where
  agreed : Agreed (peers n)
  sourceLast : n.left.stance = .waiting → EndsInMode n.toRight
  replicaLast : n.right.stance = .waiting → EndsInMode n.toLeft
  accepted : n.left.stance = .waiting → n.right.stance = .settled true →
    ∀ ms, afterOn n.toLeft = some ms → n.toRight = [] ∧ n.right.table = empty ∧ .request ∈ ms
  offered : n.left.stance = .settled true → n.right.stance = .waiting →
    ∀ ms, afterOn n.toRight = some ms →
      n.toLeft = [] ∧ Within (readAll ms empty) (S.lookup n.left.data)
  within : n.left.stance = .settled true → n.right.stance = .settled true →
    Within (readAll n.toRight n.right.table) (S.lookup n.left.data)
  complete : n.left.stance = .settled true → n.right.stance = .settled true →
    .request ∈ n.toLeft ∨ readAll n.toRight n.right.table = S.lookup n.left.data

theorem Synced.agreed_step {n : ReplicaNet D K V} (h : Synced S n) (e : ReplicaEvent K V) :
    Agreed (peers (step S n e)) := by
  rcases peers_step n e with heq | ⟨e', heq⟩
  · rw [heq]
    exact h.agreed
  · rw [heq]
    exact h.agreed.step e'

theorem Synced.source_ask {n : ReplicaNet D K V} (h : Synced S n) :
    Synced S (step S n (.actLeft .ask)) := by
  have hagreed := h.agreed_step (.actLeft .ask)
  rcases n with ⟨⟨l, d⟩, ⟨r, t⟩, as, bs⟩
  cases l with
  | settled m =>
      have hstep : step S ⟨⟨.settled m, d⟩, ⟨r, t⟩, as, bs⟩ (.actLeft .ask) =
          ⟨⟨.waiting, d⟩, ⟨r, t⟩, as, bs ++ [.mode !m]⟩ := rfl
      rw [hstep] at hagreed ⊢
      refine ⟨hagreed, fun _ => endsInMode_append bs _, h.replicaLast, ?_, nofun, nofun, nofun⟩
      -- two settled ends have nothing about the mode in flight
      rintro - (rfl : r = .settled true) ms hms
      have hnone : notices as = [] := (h.agreed.settled rfl rfl).1
      simp [afterOn_eq_none_of_nil hnone] at hms
  | _ =>
      rw [show step S _ (.actLeft .ask) = _ from congrArg (Net.mk _ _ _) (List.append_nil bs)]
      exact h

theorem Synced.source_write {n : ReplicaNet D K V} (h : Synced S n) (u : Update K V) :
    Synced S (step S n (.actLeft (.write u))) := by
  have hagreed := h.agreed_step (.actLeft (.write u))
  rcases n with ⟨⟨l, d⟩, ⟨r, t⟩, as, bs⟩
  by_cases hl : l = .settled true
  · subst hl
    have hstep : step S ⟨⟨.settled true, d⟩, ⟨r, t⟩, as, bs⟩ (.actLeft (.write u)) =
        ⟨⟨.settled true, S.write u d⟩, ⟨r, t⟩, as, bs ++ [.updates [u]]⟩ := rfl
    rw [hstep] at hagreed ⊢
    refine ⟨hagreed, nofun, h.replicaLast, nofun, ?_, ?_, ?_⟩
    · rintro - (hr : r = .waiting) ms hms
      rw [afterOn_append] at hms
      cases hbs : afterOn bs with
      | none => simp [hbs, afterOn] at hms
      | some ms' =>
          obtain ⟨has, hw⟩ := h.offered rfl hr ms' hbs
          obtain rfl : ms' ++ [.updates [u]] = ms := by simpa [hbs] using hms
          refine ⟨has, ?_⟩
          rw [readAll_append, S.lookup_write]
          exact hw.update u.1 u.2
    · rintro - (hr : r = .settled true)
      show Within (readAll (bs ++ [.updates [u]]) t) (S.lookup (S.write u d))
      rw [readAll_append, S.lookup_write]
      exact (h.within rfl hr).update u.1 u.2
    · rintro - (hr : r = .settled true)
      rcases h.complete rfl hr with hreq | heq
      · exact Or.inl hreq
      · right
        show readAll (bs ++ [.updates [u]]) t = S.lookup (S.write u d)
        rw [readAll_append, heq, S.lookup_write]
        rfl
  · have hstep : step S ⟨⟨l, d⟩, ⟨r, t⟩, as, bs⟩ (.actLeft (.write u)) =
        ⟨⟨l, S.write u d⟩, ⟨r, t⟩, as, bs⟩ := by simp [Net.step, source, hl]
    rw [hstep] at hagreed ⊢
    exact ⟨hagreed, h.sourceLast, h.replicaLast, h.accepted, fun hl' => absurd hl' hl,
      fun hl' => absurd hl' hl, fun hl' => absurd hl' hl⟩

theorem Synced.replica_ask {n : ReplicaNet D K V} (h : Synced S n) :
    Synced S (step S n (.actRight .ask)) := by
  have hagreed := h.agreed_step (.actRight .ask)
  rcases n with ⟨⟨l, d⟩, ⟨r, t⟩, as, bs⟩
  cases r with
  | settled m =>
      have hstep : step S ⟨⟨l, d⟩, ⟨.settled m, t⟩, as, bs⟩ (.actRight .ask) =
          ⟨⟨l, d⟩, ⟨.waiting, t⟩, as ++ [.mode !m], bs⟩ := rfl
      rw [hstep] at hagreed ⊢
      refine ⟨hagreed, h.sourceLast, fun _ => endsInMode_append as _, nofun, ?_, nofun, nofun⟩
      rintro (rfl : l = .settled true) - ms hms
      have hnone : notices bs = [] := (h.agreed.settled rfl rfl).2
      simp [afterOn_eq_none_of_nil hnone] at hms
  | _ =>
      rw [show step S _ (.actRight .ask) = _ from
        congrArg (fun as => Net.mk _ _ as _) (List.append_nil as)]
      exact h

theorem Synced.replica_refresh {n : ReplicaNet D K V} (h : Synced S n) :
    Synced S (step S n (.actRight .refresh)) := by
  have hagreed := h.agreed_step (.actRight .refresh)
  rcases n with ⟨⟨l, d⟩, ⟨r, t⟩, as, bs⟩
  by_cases hr : r = .settled true
  · subst hr
    have hstep : step S ⟨⟨l, d⟩, ⟨.settled true, t⟩, as, bs⟩ (.actRight .refresh) =
        ⟨⟨l, d⟩, ⟨.settled true, empty⟩, as ++ [.request], bs⟩ := rfl
    rw [hstep] at hagreed ⊢
    refine ⟨hagreed, h.sourceLast, nofun, ?_, nofun, ?_, fun _ _ => Or.inl (by simp)⟩
    · rintro (hl : l = .waiting) - ms hms
      rw [afterOn_append] at hms
      cases has : afterOn as with
      | none => simp [has, afterOn] at hms
      | some ms' =>
          obtain rfl : ms' ++ [.request] = ms := by simpa [has] using hms
          exact ⟨(h.accepted hl rfl ms' has).1, rfl, by simp⟩
    · rintro (hl : l = .settled true) -
      exact (within_readAll (Within.empty t) bs).trans (h.within hl rfl)
  · have hstep : step S ⟨⟨l, d⟩, ⟨r, t⟩, as, bs⟩ (.actRight .refresh) =
        ⟨⟨l, d⟩, ⟨r, t⟩, as, bs⟩ := by simp [Net.step, replica, hr]
    rw [hstep]
    exact h

theorem Synced.source_mode {l : Stance} {d : D} {r : Replica K V} {m : Bool}
    {as bs : List (Message K V)} (h : Synced S ⟨⟨l, d⟩, r, .mode m :: as, bs⟩) :
    Synced S (step S ⟨⟨l, d⟩, r, .mode m :: as, bs⟩ (.deliverLeft ())) := by
  have hagreed := h.agreed_step (.deliverLeft ())
  rcases r with ⟨r, t⟩
  cases l with
  | settled m' =>
      have hstep : step S ⟨⟨.settled m', d⟩, ⟨r, t⟩, .mode m :: as, bs⟩ (.deliverLeft ()) =
          ⟨⟨.settled m, d⟩, ⟨r, t⟩, as, bs ++ [.mode m]⟩ := rfl
      rw [hstep] at hagreed ⊢
      -- the replica waits for the answer, and nothing else about the mode is in flight
      obtain ⟨hmode, has, hbs⟩ := h.agreed.asked_left rfl rfl
      have hr : r ≠ .settled true := by
        rintro rfl
        exact Option.some_ne_none true hmode
      refine ⟨hagreed, nofun, fun hw => (h.replicaLast hw).tail, nofun, ?_,
        fun _ hr' => absurd hr' hr, fun _ hr' => absurd hr' hr⟩
      rintro (hm : Stance.settled m = .settled true) (hw : r = .waiting) ms hms
      obtain rfl : m = true := by simpa using hm
      rw [afterOn_append, afterOn_eq_none_of_nil hbs] at hms
      obtain rfl : [] = ms := by simpa [afterOn] using hms
      exact ⟨(h.replicaLast hw).tail.eq_nil has, Within.empty _⟩
  | waiting =>
      have hstep : step S ⟨⟨.waiting, d⟩, ⟨r, t⟩, .mode m :: as, bs⟩ (.deliverLeft ()) =
          ⟨⟨.settled m, d⟩, ⟨r, t⟩, as, bs⟩ := congrArg (Net.mk _ _ _) (List.append_nil bs)
      rw [hstep] at hagreed ⊢
      refine ⟨hagreed, nofun, fun hw => (h.replicaLast hw).tail, nofun, ?_, ?_, ?_⟩
      · rintro (hm : Stance.settled m = .settled true) (rfl : r = .waiting) ms hms
        obtain rfl : m = true := by simpa using hm
        rcases h.agreed.outcome_left rfl rfl rfl with hbs | ⟨has, hbs⟩
        · simp [afterOn_eq_none_of_nil hbs] at hms
        · obtain rfl : [] = ms := by simpa [(h.sourceLast rfl).afterOn hbs] using hms
          exact ⟨(h.replicaLast rfl).tail.eq_nil has, Within.empty _⟩
      · rintro (hm : Stance.settled m = .settled true) (hr : r = .settled true)
        obtain rfl : m = true := by simpa using hm
        obtain ⟨rfl, rfl, -⟩ := h.accepted rfl hr as rfl
        exact Within.empty _
      · rintro (hm : Stance.settled m = .settled true) (hr : r = .settled true)
        obtain rfl : m = true := by simpa using hm
        exact Or.inl (h.accepted rfl hr as rfl).2.2
  | refusing =>
      exact ⟨hagreed, nofun, fun hw => (h.replicaLast hw).tail, nofun, nofun, nofun, nofun⟩

/-- The source answers a request with a listing, which completes the table. -/
theorem Synced.source_request {l : Stance} {d : D} {r : Replica K V}
    {as bs : List (Message K V)} (h : Synced S ⟨⟨l, d⟩, r, .request :: as, bs⟩) :
    Synced S (step S ⟨⟨l, d⟩, r, .request :: as, bs⟩ (.deliverLeft ())) := by
  have hagreed := h.agreed_step (.deliverLeft ())
  rcases r with ⟨r, t⟩
  by_cases hl : l = .settled true
  · subst hl
    have hstep : step S ⟨⟨.settled true, d⟩, ⟨r, t⟩, .request :: as, bs⟩ (.deliverLeft ()) =
        ⟨⟨.settled true, d⟩, ⟨r, t⟩, as, bs ++ [.updates (S.listing d)]⟩ := rfl
    rw [hstep] at hagreed ⊢
    have hcomplete (hr : r = .settled true) :
        readAll (bs ++ [.updates (S.listing d)]) t = S.lookup d := by
      rw [readAll_append]
      exact patch_listing (S.lists d) (h.within rfl hr)
    refine ⟨hagreed, nofun, fun hw => (h.replicaLast hw).tail, nofun, ?_, ?_,
      fun _ hr => Or.inr (hcomplete hr)⟩
    · rintro - (hw : r = .waiting) ms hms
      rw [afterOn_append] at hms
      cases hbs : afterOn bs with
      | none => simp [hbs, afterOn] at hms
      | some ms' => exact absurd (h.offered rfl hw ms' hbs).1 (by simp)
    · intro _ hr
      exact (hcomplete hr).symm ▸ Within.refl _
  · have hstep : step S ⟨⟨l, d⟩, ⟨r, t⟩, .request :: as, bs⟩ (.deliverLeft ()) =
        ⟨⟨l, d⟩, ⟨r, t⟩, as, bs⟩ := by simp [Net.step, source, hl]
    rw [hstep] at hagreed ⊢
    exact ⟨hagreed, h.sourceLast, fun hw => (h.replicaLast hw).tail, h.accepted,
      fun hl' => absurd hl' hl, fun hl' => absurd hl' hl, fun hl' => absurd hl' hl⟩

theorem Synced.source_updates {l : Source D} {r : Replica K V} {us : List (Update K V)}
    {as bs : List (Message K V)} (h : Synced S ⟨l, r, .updates us :: as, bs⟩) :
    Synced S (step S ⟨l, r, .updates us :: as, bs⟩ (.deliverLeft ())) := by
  have hagreed := h.agreed_step (.deliverLeft ())
  have hstep : step S ⟨l, r, .updates us :: as, bs⟩ (.deliverLeft ()) = ⟨l, r, as, bs⟩ :=
    congrArg (Net.mk _ _ _) (List.append_nil bs)
  rw [hstep] at hagreed ⊢
  refine ⟨hagreed, h.sourceLast, fun hw => (h.replicaLast hw).tail, h.accepted,
    ?_, h.within, ?_⟩
  · intro hl hw ms hms
    exact absurd (h.offered hl hw ms hms).1 (by simp)
  · intro hl hr
    rcases h.complete hl hr with hreq | heq
    · exact Or.inl (by simpa using hreq)
    · exact Or.inr heq

/-- A replica that comes on clears its table and asks for a listing. -/
theorem Synced.replica_on {l : Source D} {r : Stance} {t : Table K V}
    {as bs : List (Message K V)} (h : Synced S ⟨l, ⟨r, t⟩, as, .mode true :: bs⟩)
    (hr : r = .settled false ∨ r = .waiting) :
    Synced S (step S ⟨l, ⟨r, t⟩, as, .mode true :: bs⟩ (.deliverRight ())) := by
  have hagreed := h.agreed_step (.deliverRight ())
  rcases l with ⟨l, d⟩
  rcases hr with rfl | rfl
  · have hstep : step S ⟨⟨l, d⟩, ⟨.settled false, t⟩, as, .mode true :: bs⟩ (.deliverRight ()) =
        ⟨⟨l, d⟩, ⟨.settled true, empty⟩, as ++ [.mode true, .request], bs⟩ := rfl
    rw [hstep] at hagreed ⊢
    -- the source waits for the answer, and nothing else about the mode is in flight
    obtain ⟨hmode, hbs, has⟩ := h.agreed.asked_right rfl rfl
    have hl : l ≠ .settled true := by
      rintro rfl
      exact Option.some_ne_none true hmode
    refine ⟨hagreed, fun hw => (h.sourceLast hw).tail, nofun, ?_, nofun,
      fun hl' => absurd hl' hl, fun hl' => absurd hl' hl⟩
    rintro (hw : l = .waiting) - ms hms
    rw [afterOn_append, afterOn_eq_none_of_nil has] at hms
    obtain rfl : [.request] = ms := by simpa [afterOn] using hms
    exact ⟨(h.sourceLast hw).tail.eq_nil hbs, rfl, by simp⟩
  · have hstep : step S ⟨⟨l, d⟩, ⟨.waiting, t⟩, as, .mode true :: bs⟩ (.deliverRight ()) =
        ⟨⟨l, d⟩, ⟨.settled true, empty⟩, as ++ [.request], bs⟩ := rfl
    rw [hstep] at hagreed ⊢
    refine ⟨hagreed, fun hw => (h.sourceLast hw).tail, nofun, ?_, nofun, ?_,
      fun _ _ => Or.inl (by simp)⟩
    · rintro (rfl : l = .waiting) - ms hms
      rw [afterOn_append] at hms
      rcases h.agreed.outcome_right rfl rfl rfl with has | ⟨hbs, has⟩
      · simp [afterOn_eq_none_of_nil has, afterOn] at hms
      · obtain rfl : [.request] = ms := by simpa [(h.replicaLast rfl).afterOn has] using hms
        exact ⟨(h.sourceLast rfl).tail.eq_nil hbs, rfl, by simp⟩
    · rintro (rfl : l = .settled true) -
      exact (h.offered rfl rfl bs rfl).2

theorem Synced.replica_off {l : Source D} {r : Stance} {t : Table K V}
    {as bs : List (Message K V)} (h : Synced S ⟨l, ⟨r, t⟩, as, .mode false :: bs⟩) :
    Synced S (step S ⟨l, ⟨r, t⟩, as, .mode false :: bs⟩ (.deliverRight ())) := by
  have hagreed := h.agreed_step (.deliverRight ())
  have hlast (hw : l.stance = .waiting) : EndsInMode bs := (h.sourceLast hw).tail
  cases r with
  | settled m => exact ⟨hagreed, hlast, nofun, nofun, nofun, nofun, nofun⟩
  | waiting => exact ⟨hagreed, hlast, nofun, nofun, nofun, nofun, nofun⟩
  | refusing => exact ⟨hagreed, hlast, nofun, nofun, nofun, nofun, nofun⟩

theorem Synced.replica_mode {l : Source D} {r : Stance} {t : Table K V} {m : Bool}
    {as bs : List (Message K V)} (h : Synced S ⟨l, ⟨r, t⟩, as, .mode m :: bs⟩) :
    Synced S (step S ⟨l, ⟨r, t⟩, as, .mode m :: bs⟩ (.deliverRight ())) := by
  cases m with
  | false => exact h.replica_off
  | true =>
      cases r with
      | settled m' =>
          cases m' with
          | false => exact h.replica_on (Or.inl rfl)
          | true => exact absurd rfl (h.agreed.not_asked_right (m := true) rfl)
      | waiting => exact h.replica_on (Or.inr rfl)
      | refusing =>
          exact ⟨h.agreed_step (.deliverRight ()), fun hw => (h.sourceLast hw).tail, nofun,
            nofun, nofun, nofun, nofun⟩

theorem Synced.replica_updates {l : Source D} {r : Stance} {t : Table K V}
    {us : List (Update K V)} {as bs : List (Message K V)}
    (h : Synced S ⟨l, ⟨r, t⟩, as, .updates us :: bs⟩) :
    Synced S (step S ⟨l, ⟨r, t⟩, as, .updates us :: bs⟩ (.deliverRight ())) := by
  have hagreed := h.agreed_step (.deliverRight ())
  by_cases hr : r = .settled true
  · subst hr
    have hstep : step S ⟨l, ⟨.settled true, t⟩, as, .updates us :: bs⟩ (.deliverRight ()) =
        ⟨l, ⟨.settled true, patch us t⟩, as, bs⟩ :=
      congrArg (fun as => Net.mk _ _ as _) (List.append_nil as)
    rw [hstep] at hagreed ⊢
    refine ⟨hagreed, fun hw => (h.sourceLast hw).tail, nofun, ?_, nofun,
      fun hl _ => h.within hl rfl, fun hl _ => h.complete hl rfl⟩
    intro hl _ ms hms
    exact absurd (h.accepted hl rfl ms hms).1 (by simp)
  · have hstep : step S ⟨l, ⟨r, t⟩, as, .updates us :: bs⟩ (.deliverRight ()) =
        ⟨l, ⟨r, t⟩, as, bs⟩ := by simp [Net.step, replica, hr]
    rw [hstep] at hagreed ⊢
    exact ⟨hagreed, fun hw => (h.sourceLast hw).tail, h.replicaLast,
      fun _ hr' => absurd hr' hr, h.offered, fun _ hr' => absurd hr' hr,
      fun _ hr' => absurd hr' hr⟩

theorem Synced.replica_request {l : Source D} {r : Replica K V} {as bs : List (Message K V)}
    (h : Synced S ⟨l, r, as, .request :: bs⟩) :
    Synced S (step S ⟨l, r, as, .request :: bs⟩ (.deliverRight ())) := by
  have hagreed := h.agreed_step (.deliverRight ())
  have hstep : step S ⟨l, r, as, .request :: bs⟩ (.deliverRight ()) = ⟨l, r, as, bs⟩ :=
    congrArg (fun as => Net.mk _ _ as _) (List.append_nil as)
  rw [hstep] at hagreed ⊢
  refine ⟨hagreed, fun hw => (h.sourceLast hw).tail, h.replicaLast, ?_,
    h.offered, h.within, h.complete⟩
  intro hl hr ms hms
  exact absurd (h.accepted hl hr ms hms).1 (by simp)

theorem Synced.step {n : ReplicaNet D K V} (h : Synced S n) (e : ReplicaEvent K V) :
    Synced S (step S n e) := by
  cases e with
  | actLeft i =>
      cases i with
      | ask => exact h.source_ask
      | write u => exact h.source_write u
  | actRight i =>
      cases i with
      | ask => exact h.replica_ask
      | refresh => exact h.replica_refresh
  | deliverLeft =>
      rcases n with ⟨⟨l, d⟩, r, as, bs⟩
      cases as with
      | nil => exact h
      | cons a as =>
          cases a with
          | mode m => exact h.source_mode
          | request => exact h.source_request
          | updates us => exact h.source_updates
  | deliverRight =>
      rcases n with ⟨l, ⟨r, t⟩, as, bs⟩
      cases bs with
      | nil => exact h
      | cons b bs =>
          cases b with
          | mode m => exact h.replica_mode
          | request => exact h.replica_request
          | updates us => exact h.replica_updates

/-- From any store and any table, with both ends off and nothing in flight. -/
def start (d : D) (t : Table K V) : ReplicaNet D K V :=
  ⟨⟨.settled false, d⟩, ⟨.settled false, t⟩, [], []⟩

theorem synced_run (S : Store D K V) (d : D) (t : Table K V) (es : List (ReplicaEvent K V)) :
    Synced S (run (step S) (start d t) es) :=
  run_invariant _ (fun _ e h => h.step e)
    ⟨⟨rfl, rfl, rfl⟩, nofun, nofun, nofun, nofun, nofun, nofun⟩ es

/-- Once nothing is in flight, a replica that is on has the table of a source
that is on. -/
theorem Synced.quiescent {n : ReplicaNet D K V} (h : Synced S n) (hleft : n.toLeft = [])
    (hright : n.toRight = []) (hl : n.left.stance = .settled true)
    (hr : n.right.stance = .settled true) : n.right.table = S.lookup n.left.data := by
  rcases h.complete hl hr with hreq | heq
  · simp [hleft] at hreq
  · rwa [hright] at heq

end Processes

end Replication
end Foundation
