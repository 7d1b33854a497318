/-
The invariant of small vectors.

`Inv` relates a state to the lists that its vectors stand for.  It is local to each vector,
except for the blocks: every allocated block is owned by one vector.  A member function
changes the regions of the vectors it is called with, so the other vectors keep what they
have (`Inv.change`), and most functions only edit the elements of one vector where they are
(`Inv.edit`).
-/
import Psets.Cotamer.SmallVector

namespace Psets
namespace Cotamer
namespace SmallVector

open Containers Containers.Storage

variable {α : Type} {N : Nat} {v w b : Nat} {x x' : Vec} {r : Region} {l l' : List α}
  {s s' : Storage Region α} {st st' : State α} {lists lists' : Nat → Option (List α)}

/-! ## One vector -/

/-- The elements of `x` are in block `b`. -/
def Owner (N : Nat) (x : Option Vec) (b : Nat) : Prop :=
  ∃ y, x = some y ∧ N < y.cap ∧ y.out = some b

theorem not_owner_none : ¬ Owner N none b := by
  rintro ⟨y, h, -⟩
  exact absurd h.symm (Option.some_ne_none y)

theorem owner_some : Owner N (some x) b ↔ N < x.cap ∧ x.out = some b := by
  constructor
  · rintro ⟨y, h, hcap, hout⟩
    obtain rfl := Option.some.inj h
    exact ⟨hcap, hout⟩
  · rintro ⟨hcap, hout⟩
    exact ⟨x, rfl, hcap, hout⟩

/-- The values that `cap_` can have. -/
def IsCap (N cap : Nat) : Prop := cap = 0 ∨ ∃ k, cap = N * 2 ^ k

/-- Vector `v` has the fields `x`, and its elements are the list `l`. -/
structure VecInv (N : Nat) (s : Storage Region α) (v : Nat) (x : Vec) (l : List α) : Prop where
  sz : x.sz = l.length
  bound : l.length < 2 ^ 31
  le : x.sz ≤ x.cap
  cap : IsCap N x.cap
  inbufSize : s.size (.inbuf v) = N
  inbuf : s.Holds (.inbuf v) (if x.cap ≤ N then l else [])
  block : N < x.cap → ∃ b, x.out = some b ∧ s.size (.block b) = x.cap ∧ s.Holds (.block b) l

theorem begin_eq_some :
    x.begin N v = some r ↔
      (x.cap ≤ N ∧ r = .inbuf v) ∨ ∃ b, N < x.cap ∧ x.out = some b ∧ r = .block b := by
  rw [Vec.begin]
  by_cases hcap : x.cap ≤ N
  · rw [if_pos hcap]
    constructor
    · intro h
      exact .inl ⟨hcap, (Option.some.inj h).symm⟩
    · rintro (⟨-, rfl⟩ | ⟨b, hlt, -⟩)
      · rfl
      · exact absurd hcap (Nat.not_le.2 hlt)
  · rw [if_neg hcap]
    constructor
    · intro h
      obtain ⟨b, hb, rfl⟩ := Option.map_eq_some_iff.1 h
      exact .inr ⟨b, Nat.not_le.1 hcap, hb, rfl⟩
    · rintro (⟨hle, -⟩ | ⟨b, -, hb, rfl⟩)
      · exact absurd hle hcap
      · rw [hb, Option.map_some]

/-- The elements are in one region, with room for `cap_` of them. -/
theorem VecInv.begin (h : VecInv N s v x l) :
    ∃ r, x.begin N v = some r ∧ s.Holds r l ∧ x.cap ≤ s.size r := by
  by_cases hcap : x.cap ≤ N
  · refine ⟨.inbuf v, begin_eq_some.2 (.inl ⟨hcap, rfl⟩), ?_, ?_⟩
    · have hinbuf := h.inbuf
      rw [if_pos hcap] at hinbuf
      exact hinbuf
    · rw [h.inbufSize]
      exact hcap
  · obtain ⟨b, hb, hsize, hholds⟩ := h.block (Nat.not_le.1 hcap)
    refine ⟨.block b, begin_eq_some.2 (.inr ⟨b, Nat.not_le.1 hcap, hb, rfl⟩), hholds, ?_⟩
    rw [hsize]

theorem VecInv.holds (h : VecInv N s v x l) (hr : x.begin N v = some r) :
    s.Holds r l ∧ x.cap ≤ s.size r := by
  obtain ⟨r', hr', hregion⟩ := h.begin
  rw [hr, Option.some.injEq] at hr'
  rw [hr']
  exact hregion

/-- `x'` has its elements where `x` has them. -/
structure SamePlace (N : Nat) (x x' : Vec) : Prop where
  cap : IsCap N x'.cap
  inbuf : x.cap ≤ N → x'.cap ≤ N
  block : N < x.cap → x'.cap = x.cap ∧ x'.out = x.out

theorem SamePlace.owner (h : SamePlace N x x') : Owner N (some x') b ↔ Owner N (some x) b := by
  rw [owner_some, owner_some]
  constructor
  · rintro ⟨hlt, hout⟩
    have hlt' : N < x.cap := by
      by_contra hle
      have := h.inbuf (Nat.not_lt.1 hle)
      omega
    obtain ⟨-, hout'⟩ := h.block hlt'
    exact ⟨hlt', hout'.symm.trans hout⟩
  · rintro ⟨hlt, hout⟩
    obtain ⟨hcap, hout'⟩ := h.block hlt
    exact ⟨by omega, hout'.trans hout⟩

theorem SamePlace.begin (h : SamePlace N x x') : x'.begin N v = x.begin N v := by
  rw [Vec.begin, Vec.begin]
  by_cases hcap : x.cap ≤ N
  · rw [if_pos hcap, if_pos (h.inbuf hcap)]
  · obtain ⟨hcap', hout⟩ := h.block (Nat.not_le.1 hcap)
    rw [if_neg hcap, hcap', if_neg hcap, hout]

/-- Other elements in the same place. -/
theorem VecInv.edit (h : VecInv N s v x l) (hr : x.begin N v = some r)
    (helse : Elsewhere s s' [r]) (hholds : s'.Holds r l') (hplace : SamePlace N x x')
    (hsz : x'.sz = l'.length) (hle : l'.length ≤ x'.cap) (hbound : l'.length < 2 ^ 31) :
    VecInv N s' v x' l' := by
  refine ⟨hsz, hbound, by omega, hplace.cap, by rw [helse.size]; exact h.inbufSize, ?_, ?_⟩
  · rcases begin_eq_some.1 hr with ⟨hN, rfl⟩ | ⟨b, hN, hb, rfl⟩
    · rw [if_pos (hplace.inbuf hN)]
      exact hholds
    · have hinbuf := h.inbuf
      rw [if_neg (Nat.not_le.2 hN)] at hinbuf
      rw [(hplace.block hN).1, if_neg (Nat.not_le.2 hN)]
      exact helse.holds (by simp) hinbuf
  · intro hlt
    rcases begin_eq_some.1 hr with ⟨hN, -⟩ | ⟨b, hN, hb, rfl⟩
    · exact absurd (hplace.inbuf hN) (Nat.not_le.2 hlt)
    · obtain ⟨b', hb', hsize, -⟩ := h.block hN
      obtain ⟨hcap, hout⟩ := hplace.block hN
      rw [hb, Option.some.injEq] at hb'
      subst hb'
      exact ⟨b, hout.trans hb, by rw [helse.size, hcap]; exact hsize, hholds⟩

/-! ## All vectors -/

/-- The part of the invariant that is about one vector: it exists with its list, or neither
it nor its buffer does. -/
def Local (N : Nat) (s : Storage Region α) (v : Nat) : Option Vec → Option (List α) → Prop
  | none, none => s.size (.inbuf v) = 0
  | some x, some l => VecInv N s v x l
  | _, _ => False

structure Inv (N : Nat) (st : State α) (lists : Nat → Option (List α)) : Prop where
  locals : ∀ v, Local N st.storage v (st.vecs v) (lists v)
  owner : ∀ b, st.storage.size (.block b) ≠ 0 → ∃ v, Owner N (st.vecs v) b
  unique : ∀ v w b, Owner N (st.vecs v) b → Owner N (st.vecs w) b → v = w
  fresh : ∀ b, st.storage.size (.block b) ≠ 0 → b < st.fresh

theorem Local.none_iff {x : Option Vec} {l : Option (List α)} (h : Local N s v x l) :
    x = none ↔ l = none := by
  cases x with
  | none =>
    cases l with
    | none => exact iff_of_true rfl rfl
    | some l => exact absurd h id
  | some x =>
    cases l with
    | none => exact absurd h id
    | some l => exact iff_of_false (Option.some_ne_none x) (Option.some_ne_none l)

theorem Local.frame {x : Option Vec} {l : Option (List α)} (h : Local N s v x l)
    (hinbuf : Same s s' (.inbuf v)) (hblock : ∀ b, Owner N x b → Same s s' (.block b)) :
    Local N s' v x l := by
  cases x with
  | none =>
    cases l with
    | none => exact hinbuf.size.trans h
    | some l => exact absurd h id
  | some x =>
    cases l with
    | none => exact absurd h id
    | some l =>
      have hvec : VecInv N s v x l := h
      refine ⟨hvec.sz, hvec.bound, hvec.le, hvec.cap, hinbuf.size.trans hvec.inbufSize,
        hinbuf.holds hvec.inbuf, fun hlt => ?_⟩
      obtain ⟨b, hb, hsize, hholds⟩ := hvec.block hlt
      have hsame := hblock b (owner_some.2 ⟨hlt, hb⟩)
      exact ⟨b, hb, hsame.size.trans hsize, hsame.holds hholds⟩

namespace Inv

/-- A vector with its list. -/
theorem vec (h : Inv N st lists) (hl : lists v = some l) :
    ∃ x, st.vecs v = some x ∧ VecInv N st.storage v x l := by
  have hlocal := h.locals v
  rw [hl] at hlocal
  cases hx : st.vecs v with
  | none =>
    rw [hx] at hlocal
    exact absurd hlocal id
  | some x =>
    rw [hx] at hlocal
    exact ⟨x, rfl, hlocal⟩

/-- A list with its vector. -/
theorem list (h : Inv N st lists) (hx : st.vecs v = some x) :
    ∃ l, lists v = some l ∧ VecInv N st.storage v x l := by
  have hlocal := h.locals v
  rw [hx] at hlocal
  cases hl : lists v with
  | none =>
    rw [hl] at hlocal
    exact absurd hlocal id
  | some l =>
    rw [hl] at hlocal
    exact ⟨l, rfl, hlocal⟩

theorem vecInv (h : Inv N st lists) (hx : st.vecs v = some x) (hl : lists v = some l) :
    VecInv N st.storage v x l := by
  have hlocal := h.locals v
  rw [hx, hl] at hlocal
  exact hlocal

/-- The block that a vector owns is allocated, with `cap_` cells. -/
theorem owner_size (h : Inv N st lists) (hx : st.vecs v = some x) (hb : Owner N (some x) b) :
    st.storage.size (.block b) = x.cap := by
  obtain ⟨l, -, hvec⟩ := h.list hx
  obtain ⟨hlt, hout⟩ := owner_some.1 hb
  obtain ⟨b', hb', hsize, -⟩ := hvec.block hlt
  rw [hout, Option.some.injEq] at hb'
  rw [hb']
  exact hsize

theorem visible (h : Inv N st lists) : st.visible N = lists := by
  funext v
  rw [State.visible]
  cases hl : lists v with
  | none =>
    rw [(h.locals v).none_iff.2 hl]
    rfl
  | some l =>
    obtain ⟨x, hx, hvec⟩ := h.vec hl
    obtain ⟨r, hr, hholds, -⟩ := hvec.begin
    rw [hx, Option.bind_some, hr, Option.bind_some, hvec.sz, hholds.readN_all]

/-- A call that leaves the vectors outside `vs` alone. -/
theorem change (h : Inv N st lists) (vs : List Nat)
    (hvecs : ∀ u, u ∉ vs → st'.vecs u = st.vecs u) (hlists : ∀ u, u ∉ vs → lists' u = lists u)
    (hinbuf : ∀ u, u ∉ vs → Same st.storage st'.storage (.inbuf u))
    (hblock : ∀ u, u ∉ vs → ∀ b, Owner N (st.vecs u) b → Same st.storage st'.storage (.block b))
    (hlocal : ∀ u, u ∈ vs → Local N st'.storage u (st'.vecs u) (lists' u))
    (howner : ∀ b, st'.storage.size (.block b) ≠ 0 → ∃ u, Owner N (st'.vecs u) b)
    (hunique : ∀ u, u ∈ vs → ∀ w b, Owner N (st'.vecs u) b → Owner N (st'.vecs w) b → u = w)
    (hfresh : ∀ b, st'.storage.size (.block b) ≠ 0 → b < st'.fresh) : Inv N st' lists' := by
  refine ⟨fun u => ?_, howner, fun u w b hu hw => ?_, hfresh⟩
  · by_cases hmem : u ∈ vs
    · exact hlocal u hmem
    · rw [hvecs u hmem, hlists u hmem]
      exact (h.locals u).frame (hinbuf u hmem) (hblock u hmem)
  · by_cases hmem : u ∈ vs
    · exact hunique u hmem w b hu hw
    · by_cases hmem' : w ∈ vs
      · exact (hunique w hmem' u b hw hu).symm
      · rw [hvecs u hmem] at hu
        rw [hvecs w hmem'] at hw
        exact h.unique u w b hu hw

theorem size_ne_zero (h : Inv N st lists) (hb : Owner N (st.vecs v) b) :
    st.storage.size (.block b) ≠ 0 := by
  cases hx : st.vecs v with
  | none =>
    rw [hx] at hb
    exact absurd hb not_owner_none
  | some x =>
    rw [hx] at hb
    rw [h.owner_size hx hb]
    have := (owner_some.1 hb).1
    omega

/-- A call that changes the fields of one vector, its regions, and the blocks that it gets or
gives back. -/
theorem replace {x' : Option Vec} {l' : Option (List α)} {fresh : Nat} (h : Inv N st lists)
    (hsame : ∀ r, r ≠ .inbuf v →
      (∀ b, Owner N (st.vecs v) b ∨ Owner N x' b → r ≠ .block b) → Same st.storage s' r)
    (hlocal : Local N s' v x' l')
    (hnew : ∀ b, Owner N x' b → ¬ Owner N (st.vecs v) b →
      st.storage.size (.block b) = 0 ∧ b < fresh)
    (hfreed : ∀ b, Owner N (st.vecs v) b → ¬ Owner N x' b → s'.size (.block b) = 0)
    (hfresh : st.fresh ≤ fresh) :
    Inv N ⟨s', Function.update st.vecs v x', fresh⟩ (Function.update lists v l') := by
  have hvecs : ∀ u, u ≠ v → Function.update st.vecs v x' u = st.vecs u :=
    fun u hu => Function.update_of_ne hu _ _
  have hothers : ∀ u, u ≠ v → ∀ b, Owner N (st.vecs u) b →
      ¬ (Owner N (st.vecs v) b ∨ Owner N x' b) := by
    intro u hu b hb hv
    by_cases hold : Owner N (st.vecs v) b
    · exact hu (h.unique u v b hb hold)
    · rcases hv with hv | hv
      · exact hold hv
      · exact h.size_ne_zero hb (hnew b hv hold).1
  have hkept : ∀ b, s'.size (.block b) ≠ 0 → ¬ Owner N x' b →
      ¬ Owner N (st.vecs v) b ∧ st.storage.size (.block b) ≠ 0 := by
    intro b hb hx'
    have hold : ¬ Owner N (st.vecs v) b := fun hc => hb (hfreed b hc hx')
    refine ⟨hold, ?_⟩
    rw [← (hsame (.block b) (by simp) fun b' hb' hc => ?_).size]
    · exact hb
    · obtain rfl := Region.block.inj hc
      exact hb'.elim hold hx'
  refine h.change [v] (fun u hu => hvecs u (List.ne_of_not_mem_cons hu))
    (fun u hu => Function.update_of_ne (List.ne_of_not_mem_cons hu) _ _)
    (fun u hu => hsame _ (fun hc => List.ne_of_not_mem_cons hu (Region.inbuf.inj hc)) (by simp))
    (fun u hu b hb => hsame _ (by simp) fun b' hb' hc => ?_) (fun u hu => ?_) (fun b hb => ?_)
    (fun u hu w b hu' hw => ?_) (fun b hb => ?_)
  · obtain rfl := Region.block.inj hc
    exact hothers u (List.ne_of_not_mem_cons hu) b hb hb'
  · obtain rfl := List.mem_singleton.1 hu
    show Local N s' u (Function.update st.vecs u x' u) (Function.update lists u l' u)
    rw [Function.update_self, Function.update_self]
    exact hlocal
  · by_cases hx' : Owner N x' b
    · refine ⟨v, ?_⟩
      show Owner N (Function.update st.vecs v x' v) b
      rw [Function.update_self]
      exact hx'
    · obtain ⟨hold, hsize⟩ := hkept b hb hx'
      obtain ⟨u, hu⟩ := h.owner b hsize
      have huv : u ≠ v := by
        rintro rfl
        exact hold hu
      refine ⟨u, ?_⟩
      show Owner N (Function.update st.vecs v x' u) b
      rw [hvecs u huv]
      exact hu
  · obtain rfl := List.mem_singleton.1 hu
    have hx' : Owner N (Function.update st.vecs u x' u) b := hu'
    have hw' : Owner N (Function.update st.vecs u x' w) b := hw
    rw [Function.update_self] at hx'
    by_contra hne
    rw [hvecs w (Ne.symm hne)] at hw'
    exact hothers w (Ne.symm hne) b hw' (.inr hx')
  · show b < fresh
    by_cases hx' : Owner N x' b
    · by_cases hold : Owner N (st.vecs v) b
      · have := h.fresh b (h.size_ne_zero hold)
        omega
      · exact (hnew b hx' hold).2
    · have := h.fresh b (hkept b hb hx').2
      omega

/-- Other elements for one vector, where it has its elements. -/
theorem edit (h : Inv N st lists) (hx : st.vecs v = some x) (hl : lists v = some l)
    (hr : x.begin N v = some r) (helse : Elsewhere st.storage s' [r]) (hholds : s'.Holds r l')
    (hplace : SamePlace N x x') (hsz : x'.sz = l'.length) (hle : l'.length ≤ x'.cap)
    (hbound : l'.length < 2 ^ 31) :
    Inv N ((st.setStorage s').setVec v x') (Function.update lists v (some l')) := by
  have hvec := h.vecInv hx hl
  refine h.replace (fun r' hinbuf hblock => helse.same fun hmem => ?_)
    (hvec.edit hr helse hholds hplace hsz hle hbound) (fun b hb hold => ?_)
    (fun b hold hb => ?_) (Nat.le_refl st.fresh)
  · obtain rfl := List.mem_singleton.1 hmem
    rcases begin_eq_some.1 hr with ⟨-, hreg⟩ | ⟨b, hlt, hb, hreg⟩
    · exact hinbuf hreg
    · refine hblock b (.inl ?_) hreg
      rw [hx]
      exact owner_some.2 ⟨hlt, hb⟩
  · rw [hx] at hold
    exact absurd (hplace.owner.1 hb) hold
  · rw [hx] at hold
    exact absurd (hplace.owner.2 hold) hb

end Inv

end SmallVector
end Cotamer
end Psets
