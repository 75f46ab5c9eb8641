import Telnetpp.Negotiation.Contents

/-!
# No content is handled twice, and none that was not sent

Whether an option is active or not when a content arrives, what has been handed to
it is a part of what the other end has sent, in order.
-/

namespace Telnetpp

open Foundation

namespace Application

variable {α κ : Type}

/-! ## What an option may be handed -/

section Handed

variable (A : Application α κ) (id : OptionId)

theorem handsTo_sublist (own : Owned κ) (a : Atom) :
    (A.handsTo id own a).Sublist (contentOf id.code a).toList := by
  cases a with
  | data by_ => exact List.nil_sublist _
  | token elem =>
      cases elem with
      | subnegotiation sub =>
          cases hlast : (A.lastInstalled sub.option).filter fun id => own.state id = .active with
          | none => simp [handsTo, hands, hlast]
          | some id' =>
              have hcode := A.code_of_lastInstalled (Option.filter_eq_some_iff.mp hlast).1
              by_cases hid : id' = id
              · subst hid
                simp [handsTo, hands, hlast, contentOf, hcode]
              · simp [handsTo, hands, hlast, hid]
      | _ => exact List.nil_sublist _

theorem mayTake_contents {I : Owned κ → Prop} :
    A.atoms.MayTake (contentOf id.code) (fun own => own.handledBy id) I Atom.Sendable where
  act i own _ := A.handedBy_input id i own
  recv _ a _ own _ := ⟨A.handsTo id own a, A.handsTo_sublist id own a, A.handedBy_receive id a own⟩

end Handed

end Application

/-! ## Two applications -/

namespace SessionNet

variable {α β κ κ' : Type}

/-- What has been handed to the option at the right and what is on its way to it are a part
of what has been sent at the left. -/
def HandsRight (id : OptionId) (n : SessionNet κ κ') : Prop :=
  (n.right.1.1.handledBy id ++
    (n.right.1.2.reads n.toRight).filterMap (contentOf id.code)).Sublist
      (sees (contentOf id.code) n.left.2)

def HandsLeft (id : OptionId) (n : SessionNet κ κ') : Prop := HandsRight id (Net.swap n)

section Run

variable (A : Application α κ) (B : Application β κ') (x : κ) (y : κ') (id : OptionId)

theorem handsRight_run (es : List (SessionEvent α β)) :
    HandsRight id (run (step A B) (start x y) es) := by
  obtain ⟨es', ⟨-, hsent, hsendable⟩, ⟨hright, htoRight⟩, -⟩ :=
    reads_run (A := A) (B := B) (reads_start x y) es
  have hstart : Net.Sparing (contentOf id.code) (fun s => s.1.handledBy id)
      (Atoms.start x y : Atoms κ κ') := List.Sublist.refl []
  have hsparing := Net.Carries.sparing_run A.keeps_absent B.keeps_absent.beside
    (B.mayTake_contents id).logged (sound_start (A := A) (B := B) x y) hstart es'
  rw [HandsRight, hright, htoRight.reads, sees, hsent, Parser.reads_flatMap hsendable]
  exact hsparing

theorem handsLeft_run (es : List (SessionEvent α β)) :
    HandsLeft id (run (step A B) (start x y) es) := by
  have hswap := handsRight_run B A y x id (es.map NetEvent.swap)
  have hrun : run (step B A) (start y x) (es.map NetEvent.swap) =
      Net.swap (run (step A B) (start x y) es) := run_swap A B (start x y) es
  rwa [hrun] at hswap

/-- In every run of two applications, cut and interleaved in any way, and for every option,
active or not: what has been handed to it, and then what is on its way to it, are a part of
what the other end has sent for its code, in order. -/
theorem run_hands (es : List (SessionEvent α β)) :
    let n := run (step A B) (start x y) es
    HandsRight id n ∧ HandsLeft id n :=
  ⟨handsRight_run A B x y id es, handsLeft_run A B x y id es⟩

end Run

end SessionNet

end Telnetpp
