/-
A link that keeps order and may lose.

What is sent on the link arrives in the order in which it was sent, each at most once, or
never.  `Hop` lists what a link may do, so a network that hops is such a link.
-/
import Mathlib.Data.List.Basic
import Mathlib.Logic.Relation

namespace Psets
namespace Transition

variable {α : Type}

/-- What was sent, what is under way, and what has arrived, each in order. -/
structure Link (α : Type) where
  sent : List α
  underway : List α
  arrived : List α

namespace Link

inductive Hop : Link α → Link α → Prop where
  | send {l : Link α} (x : α) :
      Hop l { l with sent := l.sent ++ [x], underway := l.underway ++ [x] }
  | miss {l : Link α} (x : α) : Hop l { l with sent := l.sent ++ [x] }
  | lose {l : Link α} {as bs : List α} {x : α} : l.underway = as ++ x :: bs →
      Hop l { l with underway := as ++ bs }
  | arrive {l : Link α} {x : α} {rest : List α} : l.underway = x :: rest →
      Hop l { l with underway := rest, arrived := l.arrived ++ [x] }

/-- What has arrived and what is under way was sent in this order. -/
def Ordered (l : Link α) : Prop := (l.arrived ++ l.underway).Sublist l.sent

theorem Hop.ordered {l l' : Link α} (h : Hop l l') (ho : l.Ordered) : l'.Ordered := by
  unfold Ordered at ho ⊢
  cases h with
  | send x =>
    rw [← List.append_assoc]
    exact ho.append (List.Sublist.refl [x])
  | miss x => exact ho.trans (List.sublist_append_left l.sent [x])
  | @lose as bs x hu =>
    refine List.Sublist.trans ?_ ho
    rw [hu]
    exact ((List.sublist_cons_self x bs).append_left as).append_left l.arrived
  | @arrive x rest hu =>
    rw [hu] at ho
    rw [List.append_assoc]
    exact ho

/-- A link that neither misses nor loses. -/
def Complete (l : Link α) : Prop := l.arrived ++ l.underway = l.sent

theorem Complete.send {l : Link α} (h : l.Complete) (x : α) :
    ({ l with sent := l.sent ++ [x], underway := l.underway ++ [x] } : Link α).Complete := by
  unfold Complete at h ⊢
  rw [← List.append_assoc, h]

theorem Complete.arrive {l : Link α} (h : l.Complete) {x : α} {rest : List α}
    (hu : l.underway = x :: rest) :
    ({ l with underway := rest, arrived := l.arrived ++ [x] } : Link α).Complete := by
  unfold Complete at h ⊢
  rw [List.append_assoc, List.singleton_append, ← hu, h]

end Link

end Transition
end Psets
