/-
What a program with small vectors means: every vector is a list.

A call applies the list operation that it is named after.  An argument that refers to an
element or a part of one has its value there, and when it is moved from, the element keeps
what the move leaves behind.  A move construction takes the whole list; whether it leaves the
source empty or with moved elements is not determined, and `kept` says which.
-/
import Psets.Cotamer.SmallVector

namespace Psets
namespace Cotamer
namespace SmallVector

section Lists

variable {α β : Type} (moved : α → α)

/-- The value of an argument, and the lists after a constructor has read it. -/
def takeArg (lists : Nat → Option (List α)) (arg : Argument α β) :
    Option (β × (Nat → Option (List α))) :=
  match arg.arg with
  | .value b => some (b, lists)
  | .element w i part =>
    (lists w).bind fun l =>
      l[i]?.map fun a =>
        (part.get a,
          if arg.rvalue then Function.update lists w (some (l.set i (part.leave a))) else lists)

def takeArgs (lists : Nat → Option (List α)) :
    List (Argument α β) → Option (List β × (Nat → Option (List α)))
  | [] => some ([], lists)
  | arg :: args =>
    (takeArg lists arg).bind fun next =>
      (takeArgs next.2 args).map fun rest => (next.1 :: rest.1, rest.2)

/-- Append the element that is constructed from the arguments. -/
def appendElement (lists : Nat → Option (List α)) (v : Nat) (construct : List β → Option α)
    (args : List (Argument α β)) : Option (Nat → Option (List α)) :=
  (takeArgs lists args).bind fun taken =>
    (construct taken.1).bind fun a =>
      (taken.2 v).map fun l => Function.update taken.2 v (some (l ++ [a]))

/-- The list operation of a call.  It has no result if the call makes no sense: for a vector
that does not exist, or one that does already, or elements that are not there. -/
def Call.apply (kept : Bool) (lists : Nat → Option (List α)) :
    Call α β → Option (Nat → Option (List α))
  | .make v => if (lists v).isNone then some (Function.update lists v (some [])) else none
  | .moveMake v w =>
    if (lists v).isNone then
      (lists w).map fun l =>
        Function.update (Function.update lists w (some (if kept then l.map moved else []))) v
          (some l)
    else none
  | .drop v => (lists v).map fun _ => Function.update lists v none
  | .clear v => (lists v).map fun _ => Function.update lists v (some [])
  | .clearCapacity v => (lists v).map fun _ => Function.update lists v (some [])
  | .erase v first last =>
    (lists v).bind fun l =>
      if first ≤ last ∧ last ≤ l.length then
        some (Function.update lists v (some (l.take first ++ l.drop last)))
      else none
  | .truncate v first =>
    (lists v).bind fun l =>
      if first ≤ l.length then some (Function.update lists v (some (l.take first))) else none
  | .pushBack v ref => appendElement lists v List.head? [⟨ref.arg moved, false⟩]
  | .pushBackMove v ref => appendElement lists v List.head? [⟨ref.arg moved, true⟩]
  | .emplaceBack v construct args =>
    appendElement lists v (fun values => some (construct values)) args
  | .popBack v =>
    (lists v).bind fun l =>
      if l = [] then none else some (Function.update lists v (some l.dropLast))

/-- The call makes sense for these lists. -/
def Applicable (lists : Nat → Option (List α)) (call : Call α β) : Prop :=
  (call.apply moved false lists).isSome = true

def ListStep (lists : Nat → Option (List α)) (call : Call α β) (lists' : Nat → Option (List α)) :
    Prop := ∃ kept, call.apply moved kept lists = some lists'

def ListRun : (Nat → Option (List α)) → List (Call α β) → (Nat → Option (List α)) → Prop
  | lists, [], lists' => lists = lists'
  | lists, call :: calls, lists' =>
    ∃ next, ListStep moved lists call next ∧ ListRun next calls lists'

end Lists

/-! ## Arguments leave the lists as long as they were -/

variable {α β : Type} {v : Nat} {b : β} {bs : List β} {arg : Argument α β}
  {args : List (Argument α β)} {lists lists' : Nat → Option (List α)}

theorem takeArg_length (h : takeArg lists arg = some (b, lists')) :
    (lists' v).map List.length = (lists v).map List.length := by
  obtain ⟨which, rvalue⟩ := arg
  cases which with
  | value c =>
    simp only [takeArg, Option.some.injEq, Prod.mk.injEq] at h
    rw [h.2]
  | element w i part =>
    simp only [takeArg, Option.bind_eq_some_iff, Option.map_eq_some_iff, Prod.mk.injEq] at h
    obtain ⟨l, hl, a, ha, rfl, rfl⟩ := h
    cases rvalue with
    | false => rfl
    | true =>
      rw [if_pos rfl]
      by_cases hv : v = w
      · rw [hv, Function.update_self, hl, Option.map_some, Option.map_some, List.length_set]
      · rw [Function.update_of_ne hv]

theorem takeArgs_length (h : takeArgs lists args = some (bs, lists')) :
    (lists' v).map List.length = (lists v).map List.length := by
  induction args generalizing lists bs with
  | nil =>
    simp only [takeArgs, Option.some.injEq, Prod.mk.injEq] at h
    rw [h.2]
  | cons arg args ih =>
    simp only [takeArgs, Option.bind_eq_some_iff, Option.map_eq_some_iff, Prod.mk.injEq] at h
    obtain ⟨⟨c, lists₁⟩, hone, ⟨cs, lists₂⟩, hrest, -, rfl⟩ := h
    exact (ih hrest).trans (takeArg_length hone)

theorem Arg.element_of_vector {arg : Arg α β} (h : arg.vector = some v) :
    ∃ i part, arg = .element v i part := by
  cases arg with
  | value b => exact absurd h.symm (Option.some_ne_none v)
  | element w i part =>
    obtain rfl : w = v := Option.some.inj h
    exact ⟨i, part, rfl⟩

/-- An argument that refers to an element needs the element. -/
theorem takeArgs_element {i : Nat} {part : Part α β}
    (h : takeArgs lists args = some (bs, lists'))
    (hmem : arg ∈ args) (harg : arg.arg = .element v i part) :
    ∃ l, lists v = some l ∧ l ≠ [] := by
  induction args generalizing lists bs with
  | nil => exact absurd hmem List.not_mem_nil
  | cons arg' args ih =>
    simp only [takeArgs, Option.bind_eq_some_iff, Option.map_eq_some_iff, Prod.mk.injEq] at h
    obtain ⟨⟨c, lists₁⟩, hone, ⟨cs, lists₂⟩, hrest, -, rfl⟩ := h
    rcases List.mem_cons.1 hmem with rfl | hmem'
    · simp only [takeArg, harg, Option.bind_eq_some_iff, Option.map_eq_some_iff] at hone
      obtain ⟨l, hl, c, hc, -⟩ := hone
      refine ⟨l, hl, ?_⟩
      rintro rfl
      exact absurd hc.symm (Option.some_ne_none c)
    · obtain ⟨l₁, hl₁, hne⟩ := ih hrest hmem'
      have hsome : lists₁ v = some l₁ := hl₁
      have hlen := takeArg_length (v := v) hone
      rw [hsome, Option.map_some] at hlen
      obtain ⟨l, hl, hlen'⟩ := Option.map_eq_some_iff.1 hlen.symm
      refine ⟨l, hl, ?_⟩
      rintro rfl
      exact hne (List.eq_nil_of_length_eq_zero hlen'.symm)

end SmallVector
end Cotamer
end Psets
