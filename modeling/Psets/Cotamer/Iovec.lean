/-
Working off an array of `iovec`s.

The caller's array is const, so `update_iovec` goes through it with a pointer and, where
it has to cut a vector, copies what is left to an array of its own and goes on there.
An `iovec*` is the array it points into and an index; a read outside of the array has no
result.
-/
import Psets.Containers.Extents

namespace Psets
namespace Cotamer
namespace VectoredIo

open Containers

/-- `iovec`: `iov_base` and `iov_len`. -/
abbrev IoVec := Extent

/-- The arrays that `iov` can point into. -/
inductive Arr where
  | caller
  | iovcopy
deriving DecidableEq, Repr

/-- An `iovec*`. -/
structure IovPtr where
  arr : Arr
  idx : Nat
deriving DecidableEq, Repr

/-- `iov` with `iovcnt`, or `msg_iov` with `msg_iovlen`. -/
structure Span where
  iov : IovPtr
  iovcnt : Nat
deriving DecidableEq, Repr

/-- The arrays. -/
structure Vectors where
  caller : List IoVec
  iovcopy : List IoVec := []
deriving DecidableEq, Repr

namespace Vectors

def array (v : Vectors) : Arr → List IoVec
  | .caller => v.caller
  | .iovcopy => v.iovcopy

/-- Write an element through a pointer. -/
def set (v : Vectors) (p : IovPtr) (e : IoVec) : Vectors :=
  match p.arr with
  | .caller => { v with caller := v.caller.set p.idx e }
  | .iovcopy => { v with iovcopy := v.iovcopy.set p.idx e }

/-- The vectors that the span covers. -/
def read (v : Vectors) (s : Span) : List IoVec :=
  ((v.array s.iov.arr).drop s.iov.idx).take s.iovcnt

end Vectors

/-- `while (iovcnt > 0 && r >= iov->iov_len)`: pass the vectors that are done.  The result
is the new index, the new count and what is left of `r`. -/
def pass (a : List IoVec) : Nat → Nat → Nat → Option (Nat × Nat × Nat)
  | i, 0, r => some (i, 0, r)
  | i, n + 1, r =>
      match a[i]? with
      | none => none
      | some e => if e.len ≤ r then pass a (i + 1) n (r - e.len) else some (i, n + 1, r)

/-- `iov->iov_base += r; iov->iov_len -= r` -/
def cutFirst (v : Vectors) (s : Span) (r : Nat) : Option (Vectors × Span) :=
  ((v.array s.iov.arr)[s.iov.idx]?).map fun e => (v.set s.iov (e.cut r), s)

def updateIovec (v : Vectors) (s : Span) (r : Nat) : Option (Vectors × Span) :=
  (pass (v.array s.iov.arr) s.iov.idx s.iovcnt r).bind fun (i, n, r) =>
    let s : Span := ⟨⟨s.iov.arr, i⟩, n⟩
    if r = 0 then some (v, s)
    else if v.iovcopy = [] then
      cutFirst { v with iovcopy := v.read s } { s with iov := ⟨.iovcopy, 0⟩ } r
    else cutFirst v s r

def msghdrDone (v : Vectors) (s : Span) (r : Nat) : Option Bool :=
  (pass (v.array s.iov.arr) s.iov.idx s.iovcnt r).map fun x => x.2.1 == 0

/-! ## What is left -/

/-- The span lies in its array, and this is the copy as soon as there is one. -/
structure Placed (v : Vectors) (s : Span) : Prop where
  inside : s.iov.idx + s.iovcnt ≤ (v.array s.iov.arr).length
  own : v.iovcopy ≠ [] ↔ s.iov.arr = .iovcopy

theorem take_drop_succ {a : List IoVec} {i n : Nat} {e : IoVec} (h : a[i]? = some e) :
    (a.drop i).take (n + 1) = e :: (a.drop (i + 1)).take n := by
  rcases List.getElem?_eq_some_iff.1 h with ⟨hi, rfl⟩
  rw [List.drop_eq_getElem_cons hi, List.take_succ_cons]

/-- Where the loop stops: at the end, or in a vector that has more than what is left of
`r`. -/
inductive Stopped (a : List IoVec) (i n r : Nat) : Nat × Nat × Nat → Prop where
  | done {q : Nat} : extentSize ((a.drop i).take n) ≤ r →
      q = r - extentSize ((a.drop i).take n) → Stopped a i n r (i + n, 0, q)
  | within {j m q : Nat} {e : IoVec} {rest : List IoVec} : j + (m + 1) = i + n →
      a[j]? = some e → rest = (a.drop (j + 1)).take m → q < e.len →
      advance ((a.drop i).take n) r = e.cut q :: rest → Stopped a i n r (j, m + 1, q)

theorem pass_spec {a : List IoVec} {i n r : Nat} (h : i + n ≤ a.length) :
    ∃ x, pass a i n r = some x ∧ Stopped a i n r x := by
  induction n generalizing i r with
  | zero => exact ⟨_, rfl, .done (Nat.zero_le r) rfl⟩
  | succ n ih =>
    have hi : a[i]? = some a[i] := List.getElem?_eq_getElem (by omega)
    unfold pass
    rw [hi]
    simp only []
    generalize a[i] = e at hi
    split
    · rename_i hle
      rcases ih (i := i + 1) (r := r - e.len) (by omega) with ⟨x, hx, hstop⟩
      refine ⟨x, hx, ?_⟩
      cases hstop with
      | done hsize hq =>
        have hmore : extentSize ((a.drop i).take (n + 1)) ≤ r := by
          rw [take_drop_succ hi, extentSize_cons]
          omega
        rw [show i + 1 + n = i + (n + 1) by omega]
        refine .done hmore ?_
        rw [hq, take_drop_succ hi, extentSize_cons]
        omega
      | within hj he hrest hq hadv =>
        refine .within (by omega) he hrest hq ?_
        rw [take_drop_succ hi, advance, if_pos hle, hadv]
    · rename_i hlt
      refine ⟨_, rfl, .within rfl hi rfl (by omega) ?_⟩
      rw [take_drop_succ hi, advance, if_neg hlt]

theorem msghdrDone_spec {v : Vectors} {s : Span} (h : Placed v s) (r : Nat) :
    msghdrDone v s r = some (decide (extentSize (v.read s) ≤ r)) := by
  rcases pass_spec h.inside (r := r) with ⟨x, hx, hstop⟩
  rw [msghdrDone, hx, Option.map_some]
  cases hstop with
  | done hsize hq => simp only [beq_self_eq_true, Vectors.read, hsize, decide_true]
  | within hj he hrest hq hadv =>
    have hmore : ¬ extentSize (v.read s) ≤ r := by
      intro hle
      rw [← advance_eq_nil_iff, Vectors.read, hadv] at hle
      exact absurd hle (List.cons_ne_nil _ _)
    simp only [hmore, decide_false]
    rfl

/-- Reading what a write through the same pointer has left. -/
theorem read_cutFirst {v : Vectors} {s : Span} {e : IoVec} {m r : Nat} (hn : s.iovcnt = m + 1)
    (he : (v.array s.iov.arr)[s.iov.idx]? = some e) :
    ∃ v', cutFirst v s r = some (v', s) ∧
      v'.read s = e.cut r :: ((v.array s.iov.arr).drop (s.iov.idx + 1)).take m ∧
      (v'.array s.iov.arr).length = (v.array s.iov.arr).length ∧
      (v'.iovcopy = [] ↔ v.iovcopy = []) ∧ (s.iov.arr ≠ .caller → v'.caller = v.caller) := by
  rcases s with ⟨⟨arr, idx⟩, n⟩
  simp only [] at hn he
  subst hn
  have hlt : idx < (v.array arr).length := (List.getElem?_eq_some_iff.1 he).1
  have hset : ((v.array arr).set idx (e.cut r))[idx]? = some (e.cut r) := by
    rw [List.getElem?_set_self hlt]
  have hread : (((v.array arr).set idx (e.cut r)).drop idx).take (m + 1) =
      e.cut r :: ((v.array arr).drop (idx + 1)).take m := by
    rw [take_drop_succ hset, List.drop_set_of_lt (Nat.lt_succ_self idx)]
  refine ⟨v.set ⟨arr, idx⟩ (e.cut r), by rw [cutFirst, he, Option.map_some], ?_⟩
  cases arr with
  | caller =>
    refine ⟨hread, List.length_set, Iff.rfl, fun h => absurd rfl h⟩
  | iovcopy =>
    refine ⟨hread, List.length_set, ?_, fun _ => rfl⟩
    exact List.set_eq_nil_iff idx (e.cut r)

/-- The first mid-buffer stop: what is left goes to the copy. -/
theorem copy_spec {v : Vectors} {s : Span} {e : IoVec} {m r : Nat} (hn : s.iovcnt = m + 1)
    (hinside : s.iov.idx + s.iovcnt ≤ (v.array s.iov.arr).length)
    (he : (v.array s.iov.arr)[s.iov.idx]? = some e) :
    ∃ v' s', cutFirst { v with iovcopy := v.read s } { s with iov := ⟨.iovcopy, 0⟩ } r =
        some (v', s') ∧ Placed v' s' ∧
      v'.read s' = e.cut r :: ((v.array s.iov.arr).drop (s.iov.idx + 1)).take m ∧
      v'.caller = v.caller := by
  have hread : v.read s = e :: ((v.array s.iov.arr).drop (s.iov.idx + 1)).take m := by
    rw [Vectors.read, hn, take_drop_succ he]
  have hlen : (v.read s).length = m + 1 := by
    rw [Vectors.read, List.length_take, List.length_drop]
    omega
  generalize hrest : ((v.array s.iov.arr).drop (s.iov.idx + 1)).take m = rest at hread
  rw [hread, List.length_cons] at hlen
  rcases read_cutFirst (v := { v with iovcopy := v.read s })
      (s := { s with iov := ⟨.iovcopy, 0⟩ }) (e := e) (r := r) hn
      (by rw [hread]; rfl) with ⟨v', hcut, hread', hlen', hcopy, hcaller⟩
  refine ⟨v', _, hcut, ⟨?_, ?_⟩, ?_, hcaller nofun⟩
  · rw [hlen']
    show 0 + s.iovcnt ≤ (v.read s).length
    rw [hread, List.length_cons]
    omega
  · refine iff_of_true (fun hnil => ?_) rfl
    have := hcopy.1 hnil
    rw [hread] at this
    exact absurd this (List.cons_ne_nil _ _)
  · rw [hread']
    show e.cut r :: ((v.read s).drop 1).take m = e.cut r :: rest
    rw [hread, List.drop_one, List.tail_cons, List.take_of_length_le (by omega)]

/-- `update_iovec` leaves the vectors that are left, and does not touch the caller's. -/
theorem updateIovec_spec {v : Vectors} {s : Span} {r : Nat} (h : Placed v s)
    (hr : r ≤ extentSize (v.read s)) :
    ∃ v' s', updateIovec v s r = some (v', s') ∧ Placed v' s' ∧
      v'.read s' = advance (v.read s) r ∧ v'.caller = v.caller := by
  rcases pass_spec h.inside (r := r) with ⟨x, hx, hstop⟩
  have hinside := h.inside
  unfold updateIovec
  rw [hx, Option.bind_some]
  cases hstop with
  | @done q hsize hq =>
    have hzero : q = 0 := hq.trans (Nat.sub_eq_zero_of_le hr)
    have hdone : advance (v.read s) r = [] := advance_eq_nil_iff.2 hsize
    subst hzero
    rw [hdone]
    exact ⟨v, _, rfl, ⟨hinside, h.own⟩, List.take_zero, rfl⟩
  | @within j m q e rest hj he hrest hq hadv =>
    have hinside' : j + (m + 1) ≤ (v.array s.iov.arr).length := by omega
    subst hrest
    rw [Vectors.read, hadv]
    simp only []
    split
    · rename_i hzero
      subst hzero
      refine ⟨v, _, rfl, ⟨hinside', h.own⟩, ?_, rfl⟩
      rw [Vectors.read, take_drop_succ he]
      rfl
    · split
      · exact copy_spec (s := ⟨⟨s.iov.arr, j⟩, m + 1⟩) rfl hinside' he
      · rename_i hne
        have harr : s.iov.arr = .iovcopy := h.own.1 hne
        rcases read_cutFirst (s := ⟨⟨s.iov.arr, j⟩, m + 1⟩) (r := q) rfl he with
          ⟨v', hcut, hread, hlen, hcopy, hcaller⟩
        refine ⟨v', _, hcut, ⟨?_, ?_⟩, hread, hcaller (by rw [harr]; nofun)⟩
        · rw [hlen]
          exact hinside'
        · exact iff_of_true (fun hnil => hne (hcopy.1 hnil)) harr

end VectoredIo
end Cotamer
end Psets
