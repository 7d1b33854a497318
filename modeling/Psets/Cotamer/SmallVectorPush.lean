/-
Elements that are constructed at the end of a small vector.

`push_space` makes room before the arguments are read.  In a vector that is full it moves
the elements to a new block and destroys them where they were, so that a reference to one
of them, or into one, has nothing to refer to any more; every other argument is what it was.
-/
import Psets.Cotamer.SmallVectorCalls
import Psets.Cotamer.SmallVectorLists

namespace Psets
namespace Cotamer
namespace SmallVector

open Containers Containers.Storage

variable {α β : Type} {N : Nat} {moved : α → α} {v w b i : Nat} {x x' : Vec} {r : Region}
  {a : α} {c : β} {l l' : List α} {cs : List β} {s s' : Storage Region α} {st st' : State α}
  {part : Part α β} {arg : Argument α β} {args : List (Argument α β)}
  {lists lists' : Nat → Option (List α)}

/-! ## Room for one more element -/

/-- `push_space` has made room in `r` and changed nothing else about the elements. -/
structure Space (N : Nat) (st st' : State α) (lists : Nat → Option (List α)) (v : Nat)
    (l : List α) (r : Region) : Prop where
  inv : Inv N st' lists
  room : ∃ x', st'.vecs v = some x' ∧ x'.begin N v = some r ∧ l.length < x'.cap
  others : ∀ u, u ≠ v → st'.vecs u = st.vecs u

theorem IsCap.double {cap : Nat} (h : IsCap N cap) (hpos : 0 < cap) :
    IsCap N (cap * 2) ∧ N ≤ cap := by
  rcases h with hzero | ⟨k, rfl⟩
  · omega
  · refine ⟨.inr ⟨k + 1, by rw [Nat.pow_succ, Nat.mul_assoc]⟩, ?_⟩
    exact Nat.le_mul_of_pos_right N (Nat.two_pow_pos k)

/-- The elements `l` of `v` have moved from `r` to the new block `b`, of `n` cells. -/
structure Grown (N : Nat) (s s' : Storage Region α) (v : Nat) (x : Vec) (r : Region) (b n : Nat)
    (l : List α) : Prop where
  old : s'.Holds r []
  inbuf : s'.Holds (.inbuf v) []
  inbufSize : s'.size (.inbuf v) = N
  block : s'.Holds (.block b) l
  blockSize : s'.size (.block b) = n
  same : ∀ r', r' ≠ r → r' ≠ .block b → Same s s' r'
  freed : ∀ c, Owner N (some x) c → s'.size (.block c) = 0

/-- What `push_space` does to the storage of a full vector. -/
theorem grown_eq (moved : α → α) {n : Nat} (hvec : VecInv N s v x l) (hr : x.begin N v = some r)
    (hsize : N < x.cap → s.size r = x.cap) (hne : r ≠ .block b) (hzero : s.size (.block b) = 0)
    (hn : l.length ≤ n) :
    ∃ s₁ s₂ s₃ s₄, s.allocate (.block b) n = some s₁ ∧
      uninitializedMoveN moved r (.block b) 0 0 l.length s₁ = some s₂ ∧
      destroyN r 0 l.length s₂ = some s₃ ∧ deallocateOut N x s₃ = some s₄ ∧
      Grown N s s₄ v x r b n l := by
  obtain ⟨s₁, s₂, s₃, hs₁, hs₂, hs₃, hsrcSize, hsrc, hdstSize, hdst, hsame⟩ :=
    (hvec.holds hr).1.relocate moved hne hzero hn
  obtain ⟨s₄, hs₄, hempty, hsame₄, hinbuf₄, hfreed⟩ :=
    deallocateOut_eq hr (fun hlt => hsrcSize.trans (hsize hlt)) hsrc
  have hsame' : ∀ r', r' ≠ r → r' ≠ .block b → Same s s₄ r' := fun r' h₁ h₂ =>
    (hsame r' h₁ h₂).trans (hsame₄ r' h₁)
  have hnew := hsame₄ _ hne.symm
  refine ⟨s₁, s₂, s₃, s₄, hs₁, hs₂, hs₃, hs₄, hempty,
    hvec.inbuf_empty hr hempty fun hc => hsame' _ hc (by simp), ?_, hnew.holds hdst,
    hnew.size.trans hdstSize, hsame', hfreed⟩
  rw [(hinbuf₄ v).size]
  rcases begin_eq_some.1 hr with ⟨-, rfl⟩ | ⟨c, -, -, rfl⟩
  · rw [hsrcSize]
    exact hvec.inbufSize
  · rw [(hsame _ (by simp) (by simp)).size]
    exact hvec.inbufSize

/-- A full vector moves to a block of twice the size. -/
theorem grow_eq (moved : α → α) (h : Inv N st lists) (hl : lists v = some l)
    (hx : st.vecs v = some x) (hr : x.begin N v = some r) (hcap : x.cap = l.length)
    (hpos : 0 < x.cap) :
    ∃ st', grow N moved v x st = some (st', .block st.fresh, l.length) ∧
      Space N st st' lists v l (.block st.fresh) ∧ st'.storage.Holds r [] := by
  have hvec := h.vecInv hx hl
  have hsz := hvec.sz
  have hbound := hvec.bound
  obtain ⟨hdouble, hle⟩ := hvec.cap.double hpos
  have huint : uint32 (x.cap * 2) = x.cap * 2 := Nat.mod_eq_of_lt (by omega)
  have hzero : st.storage.size (.block st.fresh) = 0 := by
    by_contra hne
    exact absurd (h.fresh st.fresh hne) (Nat.lt_irrefl _)
  have hne : r ≠ .block st.fresh := by
    rintro rfl
    have := (hvec.holds hr).1.length_le
    omega
  have hsize : N < x.cap → st.storage.size r = x.cap := by
    intro hlt
    rcases begin_eq_some.1 hr with ⟨hle, -⟩ | ⟨b, -, hout, rfl⟩
    · omega
    · exact h.owner_size hx (owner_some.2 ⟨hlt, hout⟩)
  obtain ⟨s₁, s₂, s₃, s₄, hs₁, hs₂, hs₃, hs₄, hgrown⟩ :=
    grown_eq moved hvec hr hsize hne hzero (by omega : l.length ≤ x.cap * 2)
  let x' : Vec := ⟨x.sz, x.cap * 2, some st.fresh⟩
  have hlt : N < x'.cap := by
    show N < x.cap * 2
    omega
  have hown : ∀ c, Owner N (some x') c ↔ c = st.fresh := by
    intro c
    rw [owner_some]
    constructor
    · intro hc
      exact (Option.some.inj hc.2).symm
    · rintro rfl
      exact ⟨hlt, rfl⟩
  have hvec' : VecInv N s₄ v x' l := by
    refine ⟨hsz, hbound, ?_, hdouble, hgrown.inbufSize, ?_,
      fun _ => ⟨st.fresh, rfl, hgrown.blockSize, hgrown.block⟩⟩
    · show x.sz ≤ x.cap * 2
      omega
    · rw [if_neg (Nat.not_le.2 hlt)]
      exact hgrown.inbuf
  let st' : State α := ⟨s₄, Function.update st.vecs v (some x'), st.fresh + 1⟩
  have hinv : Inv N st' (Function.update lists v (some l)) := by
    refine h.replace (fun r' hinbuf hblock => ?_) hvec' (fun c hc _ => ?_) (fun c hc _ => ?_)
      (Nat.le_succ _)
    · rw [hx] at hblock
      exact hgrown.same r' (begin_ne hr hinbuf fun b hb => hblock b (.inl hb))
        (hblock st.fresh (.inr ((hown st.fresh).2 rfl)))
    · rw [(hown c).1 hc]
      exact ⟨hzero, Nat.lt_succ_self _⟩
    · rw [hx] at hc
      exact hgrown.freed c hc
  rw [← hl, Function.update_eq_self] at hinv
  refine ⟨st', ?_, ⟨hinv, ⟨x', Function.update_self _ _ _, ?_, ?_⟩,
    fun u hu => Function.update_of_ne hu _ _⟩, hgrown.old⟩
  · rw [grow, hr, Option.bind_some, huint, hs₁, Option.bind_some, hsz, hs₂, Option.bind_some, hs₃,
      Option.bind_some, hs₄, Option.bind_some, State.setOut, if_pos (vacant_of_holds hgrown.inbuf)]
    simp only [Option.map_some, State.setVec, st', x', hsz]
  · exact begin_eq_some.2 (.inr ⟨st.fresh, hlt, rfl, rfl⟩)
  · show l.length < x.cap * 2
    omega

/-- A vector that has no room for one more element. -/
def Full (x : Vec) : Prop := x.sz = x.cap ∧ 0 < x.cap

/-- A vector that has given its storage back gets its buffer again, and any other that is not
full has room already. -/
theorem usableCap_spec (hN : 0 < N) (hvec : VecInv N s v x l) (hfull : ¬ Full x) {x' : Vec}
    (hx' : x' = if x.cap = 0 then { x with cap := N } else x) :
    SamePlace N x x' ∧ x'.sz = x.sz ∧ x.sz < x'.cap := by
  have hle := hvec.le
  by_cases hcap : x.cap = 0
  · rw [if_pos hcap] at hx'
    rw [hx']
    refine ⟨⟨.inr ⟨0, by simp⟩, fun _ => Nat.le_refl N, fun hlt => by omega⟩, rfl, ?_⟩
    show x.sz < N
    omega
  · rw [if_neg hcap] at hx'
    rw [hx']
    have hne : x.sz ≠ x.cap := fun hc => hfull ⟨hc, Nat.pos_of_ne_zero hcap⟩
    exact ⟨⟨hvec.cap, id, fun _ => ⟨rfl, rfl⟩⟩, rfl, by omega⟩

/-- With room left, the elements stay where they are. -/
theorem pushSpace_room (moved : α → α) (hN : 0 < N) (h : Inv N st lists) (hl : lists v = some l)
    (hx : st.vecs v = some x) (hfull : ¬ Full x) :
    ∃ st' r x', pushSpace N moved v st = some (st', r, l.length) ∧ Space N st st' lists v l r ∧
      st'.vecs v = some x' ∧ x'.begin N v = x.begin N v := by
  have hvec := h.vecInv hx hl
  obtain ⟨r, hr, hholds, -⟩ := hvec.begin
  have hsz := hvec.sz
  let x' : Vec := if x.cap = 0 then { x with cap := N } else x
  have husable : SamePlace N x x' ∧ x'.sz = x.sz ∧ x.sz < x'.cap :=
    usableCap_spec hN hvec hfull rfl
  obtain ⟨hplace, hsz', hroom⟩ := husable
  have hinv := h.edit hx hl hr (Elsewhere.refl st.storage [r]) hholds hplace
    (hsz'.trans hsz) (by omega) hvec.bound
  rw [← hl, Function.update_eq_self] at hinv
  have hself : (st.setVec v x').vecs v = some x' := Function.update_self _ _ _
  refine ⟨st.setVec v x', r, x', ?_, ⟨hinv, ⟨x', hself, ?_, by omega⟩, fun u hu => ?_⟩, hself,
    hplace.begin⟩
  · rw [pushSpace, hx, Option.bind_some]
    show (if x'.sz < x'.cap then (x'.begin N v).map fun r => (st.setVec v x', r, x'.sz)
      else grow N moved v x' (st.setVec v x')) = _
    rw [if_pos (by omega), hplace.begin, hr, Option.map_some, hsz', hsz]
  · rw [hplace.begin]
    exact hr
  · exact Function.update_of_ne hu _ _

/-- Without room, they move to a new block. -/
theorem pushSpace_full (moved : α → α) (h : Inv N st lists) (hl : lists v = some l)
    (hx : st.vecs v = some x) (hfull : Full x) :
    ∃ st' r old, pushSpace N moved v st = some (st', r, l.length) ∧ Space N st st' lists v l r ∧
      x.begin N v = some old ∧ st'.storage.Holds old [] := by
  have hvec := h.vecInv hx hl
  obtain ⟨r, hr, -, -⟩ := hvec.begin
  obtain ⟨hcap, hpos⟩ := hfull
  obtain ⟨st', hgrow, hspace, hempty⟩ :=
    grow_eq moved h hl hx hr (hcap.symm.trans hvec.sz) hpos
  refine ⟨st', .block st.fresh, r, ?_, hspace, hr, hempty⟩
  have hst : st.setVec v x = st := by
    rw [State.setVec, ← hx, Function.update_eq_self]
  rw [pushSpace, hx, Option.bind_some, if_neg (Nat.ne_of_gt hpos)]
  show (if x.sz < x.cap then (x.begin N v).map fun r => (st.setVec v x, r, x.sz)
    else grow N moved v x (st.setVec v x)) = _
  rw [if_neg (by omega), hst, hgrow]

/-! ## Arguments -/

theorem places_congr (h : ∀ arg ∈ args, place N st' arg.arg = place N st arg.arg) :
    places N st' args = places N st args := by
  induction args with
  | nil => rfl
  | cons arg args ih =>
    rw [places, places, h arg List.mem_cons_self,
      ih fun arg' hmem => h arg' (List.mem_cons_of_mem _ hmem)]

theorem place_element (hx : st.vecs w = some x) (hr : x.begin N w = some r) :
    place N st (.element w i part) = some (.cell r i part) := by
  show ((st.vecs w).bind fun x => (x.begin N w).map fun r => Place.cell r i part) = _
  rw [hx, Option.bind_some, hr, Option.map_some]

/-- Reading through a reference gives what the lists say, and moves what they say. -/
theorem take_eq (h : Inv N st lists) (ht : takeArg lists arg = some (c, lists')) :
    ∃ p s', place N st arg.arg = some p ∧ take st.storage p arg.rvalue = some (c, s') ∧
      Inv N (st.setStorage s') lists' := by
  obtain ⟨which, rvalue⟩ := arg
  cases which with
  | value d =>
    simp only [takeArg, Option.some.injEq, Prod.mk.injEq] at ht
    obtain ⟨rfl, rfl⟩ := ht
    exact ⟨.value d, st.storage, rfl, rfl, h⟩
  | element w i part =>
    simp only [takeArg, Option.bind_eq_some_iff, Option.map_eq_some_iff, Prod.mk.injEq] at ht
    obtain ⟨l, hl, a, ha, rfl, rfl⟩ := ht
    obtain ⟨x, hx, hvec⟩ := h.vec hl
    obtain ⟨r, hr, hholds, -⟩ := hvec.begin
    have hread : st.storage.read r i = some a := (hholds i).trans ha
    refine ⟨.cell r i part, ?_⟩
    cases rvalue with
    | false =>
      refine ⟨st.storage, place_element hx hr, ?_, h⟩
      rw [take, hread, Option.map_some]
    | true =>
      have hi : i < l.length := (List.getElem?_eq_some_iff.1 ha).1
      obtain ⟨s', hs', helse, hholds'⟩ := hholds.assign hi (part.leave a)
      have hlen : (l.set i (part.leave a)).length = l.length := List.length_set
      have hsz := hvec.sz
      have hle := hvec.le
      have hbound := hvec.bound
      have hinv := h.edit hx hl hr helse hholds' ⟨hvec.cap, id, fun _ => ⟨rfl, rfl⟩⟩
        (hsz.trans hlen.symm) (by omega) (by omega)
      refine ⟨s', place_element hx hr, ?_, ?_⟩
      · rw [take, moveFrom, hread, Option.bind_some, hs', Option.map_some, Option.map_some]
      · rw [if_pos rfl]
        rw [State.setVec, show (st.setStorage s').vecs = st.vecs from rfl, ← hx,
          Function.update_eq_self] at hinv
        exact hinv

theorem takeAll_eq (h : Inv N st lists) (ht : takeArgs lists args = some (cs, lists')) :
    ∃ ps s', places N st args = some ps ∧ takeAll ps st.storage = some (cs, s') ∧
      Inv N (st.setStorage s') lists' := by
  induction args generalizing st lists cs with
  | nil =>
    simp only [takeArgs, Option.some.injEq, Prod.mk.injEq] at ht
    obtain ⟨rfl, rfl⟩ := ht
    exact ⟨[], st.storage, rfl, rfl, h⟩
  | cons arg args ih =>
    simp only [takeArgs, Option.bind_eq_some_iff, Option.map_eq_some_iff, Prod.mk.injEq] at ht
    obtain ⟨⟨c, lists₁⟩, hone, ⟨rest, lists₂⟩, hrest, rfl, rfl⟩ := ht
    obtain ⟨p, s₁, hp, htake, h₁⟩ := take_eq h hone
    obtain ⟨ps, s', hps, htakes, h'⟩ := ih h₁ hrest
    have hsame : places N st args = places N (st.setStorage s₁) args :=
      places_congr fun _ _ => rfl
    refine ⟨(p, arg.rvalue) :: ps, s', ?_, ?_, h'⟩
    · rw [places, hp, Option.bind_some, hsame, hps, Option.map_some]
    · have htakes' : takeAll ps s₁ = some (rest, s') := htakes
      rw [takeAll, htake, Option.bind_some, htakes', Option.map_some]

/-- Where nothing lives, nothing appears. -/
theorem take_holds_nil {p : Place α β} {rvalue : Bool} (h : s.Holds r [])
    (ht : take s p rvalue = some (c, s')) : s'.Holds r [] := by
  cases p with
  | value d =>
    simp only [take, Option.some.injEq, Prod.mk.injEq] at ht
    rw [← ht.2]
    exact h
  | cell r' i part =>
    cases rvalue with
    | false =>
      simp only [take, Option.map_eq_some_iff, Prod.mk.injEq] at ht
      obtain ⟨d, -, -, rfl⟩ := ht
      exact h
    | true =>
      simp only [take, moveFrom, Option.map_eq_some_iff, Option.bind_eq_some_iff,
        Prod.mk.injEq] at ht
      obtain ⟨-, ⟨d, hd, s₁, hs₁, rfl⟩, -, rfl⟩ := ht
      obtain ⟨s₂, hs₂, -, hread⟩ := assign_eq hd (part.leave d)
      rw [hs₁, Option.some.injEq] at hs₂
      subst hs₂
      have hne : r ≠ r' := by
        rintro rfl
        rw [h, List.getElem?_nil] at hd
        exact absurd hd.symm (Option.some_ne_none d)
      intro j
      rw [hread, if_neg fun hc => hne hc.1]
      exact h j

/-- A reference into a region that has lost its elements cannot be read. -/
theorem takeAll_none {ps : List (Place α β × Bool)} {rvalue : Bool} (h : s.Holds r [])
    (hmem : (.cell r i part, rvalue) ∈ ps) : takeAll ps s = none := by
  induction ps generalizing s with
  | nil => exact absurd hmem List.not_mem_nil
  | cons p ps ih =>
    rw [takeAll]
    rcases List.mem_cons.1 hmem with rfl | hmem'
    · have hread : s.read r i = none := (h i).trans List.getElem?_nil
      have hnone : take s (.cell r i part) rvalue = none := by
        cases rvalue with
        | false => rw [take, hread, Option.map_none]
        | true => rw [take, moveFrom, hread, Option.bind_none, Option.map_none]
      rw [hnone, Option.bind_none]
    · cases ht : take s p.1 p.2 with
      | none => rw [Option.bind_none]
      | some next => rw [Option.bind_some, ih (take_holds_nil h ht) hmem', Option.map_none]

theorem mem_places {ps : List (Place α β × Bool)} (h : places N st args = some ps)
    (hmem : arg ∈ args) : ∃ p, place N st arg.arg = some p ∧ (p, arg.rvalue) ∈ ps := by
  induction args generalizing ps with
  | nil => exact absurd hmem List.not_mem_nil
  | cons arg' args ih =>
    simp only [places, Option.bind_eq_some_iff, Option.map_eq_some_iff] at h
    obtain ⟨p, hp, ps', hps', rfl⟩ := h
    rcases List.mem_cons.1 hmem with rfl | hmem'
    · exact ⟨p, hp, List.mem_cons_self⟩
    · obtain ⟨q, hq, hqmem⟩ := ih hps' hmem'
      exact ⟨q, hq, List.mem_cons_of_mem _ hqmem⟩

/-! ## The new element -/

theorem constructAt_eq (h : Inv N st lists) (hl : lists v = some l) (hx : st.vecs v = some x)
    (hr : x.begin N v = some r) (hroom : l.length < x.cap) (hbound : l.length + 1 < 2 ^ 31)
    (a : α) :
    ∃ st' x', st.constructAt r l.length a = some st' ∧ st'.vecs v = some x' ∧
      Inv N (st'.setVec v { x' with sz := uint32 (x'.sz + 1) })
        (Function.update lists v (some (l ++ [a]))) := by
  have hvec := h.vecInv hx hl
  obtain ⟨hholds, hsize⟩ := hvec.holds hr
  have hsz := hvec.sz
  have huint : uint32 (x.sz + 1) = l.length + 1 := by
    rw [hsz]
    exact uint32_of_le (Nat.le_refl _) hbound
  have hlen : (l ++ [a]).length = l.length + 1 := by
    rw [List.length_append, List.length_singleton]
  obtain ⟨s', hs', helse, hholds'⟩ := hholds.construct (by omega) a
  have hedit : ∀ x' : Vec, SamePlace N x x' → x'.sz = l.length + 1 → x'.cap = x.cap →
      Inv N ((st.setStorage s').setVec v x') (Function.update lists v (some (l ++ [a]))) := by
    intro x' hplace hx' hcap
    exact h.edit hx hl hr helse hholds' hplace (by omega) (by omega) (by omega)
  rcases begin_eq_some.1 hr with ⟨hcap, rfl⟩ | ⟨b, hcap, hout, rfl⟩
  · -- the buffer holds objects from now on, and no pointer
    refine ⟨(st.setStorage s').useRegion (.inbuf v), { x with out := none }, ?_, ?_, ?_⟩
    · rw [State.constructAt, hs', Option.map_some]
    · show Function.update st.vecs v ((st.vecs v).map fun x => { x with out := none }) v = _
      rw [Function.update_self, hx, Option.map_some]
    · have hinv := hedit ⟨uint32 (x.sz + 1), x.cap, none⟩
        ⟨hvec.cap, id, fun hlt => absurd hcap (Nat.not_le.2 hlt)⟩ huint rfl
      have hst : ((st.setStorage s').useRegion (.inbuf v)).setVec v
          ⟨uint32 (x.sz + 1), x.cap, none⟩ =
          (st.setStorage s').setVec v ⟨uint32 (x.sz + 1), x.cap, none⟩ := by
        simp only [State.setVec, State.useRegion, Function.update_idem]
      rw [← hst] at hinv
      exact hinv
  · refine ⟨st.setStorage s', x, ?_, hx,
      hedit _ (samePlace_sz hvec.cap _) huint rfl⟩
    rw [State.constructAt, hs', Option.map_some]
    rfl

/-- Once there is room, and the references are still good, the element is appended. -/
theorem constructBack_of_space {construct : List β → Option α}
    {lists₁ : Nat → Option (List α)} {l₁ : List α} (hspace : Space N st st' lists v l r)
    (hpush : pushSpace N moved v st = some (st', r, l.length))
    (hplaces : places N st' args = places N st args)
    (ht : takeArgs lists args = some (cs, lists₁)) (ha : construct cs = some a)
    (hl : lists v = some l) (hl₁ : lists₁ v = some l₁) (hbound : l.length + 1 < 2 ^ 31) :
    Gives N (constructBack N moved v construct args st)
      (Function.update lists₁ v (some (l₁ ++ [a]))) := by
  obtain ⟨x, hx, hr, hroom⟩ := hspace.room
  obtain ⟨ps, s', hps, htakes, hinv⟩ := takeAll_eq hspace.inv ht
  rw [hplaces] at hps
  have hlen : l₁.length = l.length := by
    have hsame := takeArgs_length (v := v) ht
    rw [hl, hl₁, Option.map_some, Option.map_some, Option.some.injEq] at hsame
    exact hsame
  obtain ⟨st₂, x₂, hst₂, hx₂, h₂⟩ := constructAt_eq hinv hl₁ hx hr (by omega) (by omega) a
  rw [hlen] at hst₂
  refine ⟨_, ?_, h₂⟩
  rw [constructBack, hps, Option.bind_some, hpush, Option.bind_some, htakes, Option.bind_some, ha,
    Option.bind_some, hst₂, Option.bind_some, hx₂, Option.map_some]

/-- Arguments that do not refer into `v` do not notice what happens to `v`. -/
theorem Space.places (h : Space N st st' lists v l r)
    (hargs : ∀ arg ∈ args, arg.arg.vector ≠ some v) :
    places N st' args = places N st args := by
  refine places_congr fun arg hmem => ?_
  have harg := hargs arg hmem
  obtain ⟨which, rvalue⟩ := arg
  cases which with
  | value d => rfl
  | element w i part =>
    have hw : w ≠ v := fun hw => harg (congrArg some hw)
    show ((st'.vecs w).bind fun x => (x.begin N w).map fun r => Place.cell r i part) = _
    rw [h.others w hw]
    rfl

/-- With room left, the elements of `v` do not notice either. -/
theorem Space.places_room (h : Space N st st' lists v l r) (hx : st.vecs v = some x)
    (hx' : st'.vecs v = some x') (hbegin : x'.begin N v = x.begin N v) :
    SmallVector.places N st' args = SmallVector.places N st args := by
  refine places_congr fun arg _ => ?_
  obtain ⟨which, rvalue⟩ := arg
  cases which with
  | value d => rfl
  | element w i part =>
    show ((st'.vecs w).bind fun x => (x.begin N w).map fun r => Place.cell r i part) =
      (st.vecs w).bind fun x => (x.begin N w).map fun r => Place.cell r i part
    by_cases hw : w = v
    · rw [hw, hx, hx', Option.bind_some, Option.bind_some, hbegin]
    · rw [h.others w hw]

theorem constructBack_gives {construct : List β → Option α} (hN : 0 < N) (h : Inv N st lists)
    (happ : appendElement lists v construct args = some lists')
    (hfits : ∀ x, st.vecs v = some x → x.sz + 1 < 2 ^ 31)
    (hargs : ∀ x, st.vecs v = some x → x.sz = x.cap → ∀ arg ∈ args, arg.arg.vector ≠ some v) :
    Gives N (constructBack N moved v construct args st) lists' := by
  simp only [appendElement, Option.bind_eq_some_iff, Option.map_eq_some_iff] at happ
  obtain ⟨⟨cs, lists₁⟩, ht, a, ha, l₁, hl₁, rfl⟩ := happ
  have hsome : lists₁ v = some l₁ := hl₁
  have hlen := takeArgs_length (v := v) ht
  rw [hsome, Option.map_some] at hlen
  obtain ⟨l, hl, -⟩ := Option.map_eq_some_iff.1 hlen.symm
  obtain ⟨x, hx, hvec⟩ := h.vec hl
  have hbound : l.length + 1 < 2 ^ 31 := by
    rw [← hvec.sz]
    exact hfits x hx
  by_cases hfull : Full x
  · obtain ⟨st', r, old, hpush, hspace, -, -⟩ := pushSpace_full moved h hl hx hfull
    exact constructBack_of_space hspace hpush (hspace.places (hargs x hx hfull.1)) ht ha hl hl₁
      hbound
  · obtain ⟨st', r, x', hpush, hspace, hx', hbegin⟩ := pushSpace_room moved hN h hl hx hfull
    exact constructBack_of_space hspace hpush (hspace.places_room hx hx' hbegin) ht ha hl hl₁
      hbound

/-- In a full vector, a reference to one of its own elements, or into one, is read after the
element has gone. -/
theorem constructBack_none {construct : List β → Option α} (h : Inv N st lists)
    (happ : appendElement lists v construct args = some lists') (hx : st.vecs v = some x)
    (hcap : x.sz = x.cap) (hmem : arg ∈ args) (harg : arg.arg.vector = some v) :
    constructBack N moved v construct args st = none := by
  simp only [appendElement, Option.bind_eq_some_iff, Option.map_eq_some_iff] at happ
  obtain ⟨⟨cs, lists₁⟩, ht, -⟩ := happ
  obtain ⟨i, part, hi⟩ := Arg.element_of_vector harg
  obtain ⟨l, hl, hne⟩ := takeArgs_element ht hmem hi
  have hvec := h.vecInv hx hl
  have hpos : 0 < x.cap := by
    rw [← hcap, hvec.sz]
    exact List.length_pos_iff.2 hne
  obtain ⟨st', r, old, hpush, -, hold, hempty⟩ :=
    pushSpace_full moved h hl hx ⟨hcap, hpos⟩
  rw [constructBack]
  cases hps : places N st args with
  | none => rw [Option.bind_none]
  | some ps =>
    obtain ⟨p, hp, hpmem⟩ := mem_places hps hmem
    rw [hi] at hp
    obtain rfl : p = .cell old i part :=
      Option.some.inj (hp.symm.trans (place_element hx hold))
    rw [Option.bind_some, hpush, Option.bind_some]
    show (takeAll ps st'.storage).bind _ = none
    rw [takeAll_none hempty hpmem, Option.bind_none]

end SmallVector
end Cotamer
end Psets
