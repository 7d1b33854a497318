/-
What each member function of a small vector does to the lists.

Every function has one lemma: under the invariant it has a result, and the result stands
for the lists that the corresponding list operation gives.
-/
import Mathlib.Logic.Equiv.Basic
import Psets.Cotamer.SmallVectorInvariant

namespace Psets
namespace Cotamer
namespace SmallVector

open Containers Containers.Storage

variable {α : Type} {N : Nat} {moved : α → α} {v w b first last : Nat} {x x' : Vec} {r : Region}
  {l l' : List α} {s s' : Storage Region α} {st st' : State α}
  {lists lists' : Nat → Option (List α)}

/-- The result of a call stands for `lists`. -/
def Gives (N : Nat) (result : Option (State α)) (lists : Nat → Option (List α)) : Prop :=
  ∃ st, result = some st ∧ Inv N st lists

/-! ## Functions that edit the elements -/

theorem samePlace_sz (h : IsCap N x.cap) (sz : Nat) : SamePlace N x { x with sz := sz } :=
  ⟨h, id, fun _ => ⟨rfl, rfl⟩⟩

theorem uint32_of_le {n m : Nat} (hle : n ≤ m) (hm : m < 2 ^ 31) : uint32 n = n :=
  Nat.mod_eq_of_lt (by omega)

theorem clear_gives (h : Inv N st lists) (hl : lists v = some l) :
    Gives N (clear N v st) (Function.update lists v (some [])) := by
  obtain ⟨x, hx, hvec⟩ := h.vec hl
  obtain ⟨r, hr, hholds, -⟩ := hvec.begin
  have hsz := hvec.sz
  obtain ⟨s', hs', helse, hholds'⟩ := hholds.destroyN (Nat.zero_add l.length)
  rw [List.take_zero] at hholds'
  refine ⟨(st.setStorage s').setVec v { x with sz := 0 }, ?_,
    h.edit hx hl hr helse hholds' (samePlace_sz hvec.cap 0) rfl (Nat.zero_le _) (by simp)⟩
  rw [clear, hx, Option.bind_some, hr, Option.bind_some, hsz, hs', Option.map_some]

theorem truncate_gives (h : Inv N st lists) (hl : lists v = some l) (hfirst : first ≤ l.length) :
    Gives N (truncate N v first st) (Function.update lists v (some (l.take first))) := by
  obtain ⟨x, hx, hvec⟩ := h.vec hl
  obtain ⟨r, hr, hholds, -⟩ := hvec.begin
  have hsz := hvec.sz
  have hle := hvec.le
  have hbound := hvec.bound
  have hlen : (l.take first).length = first := List.length_take_of_le hfirst
  obtain ⟨s', hs', helse, hholds'⟩ := hholds.destroyN (Nat.add_sub_cancel' hfirst)
  refine ⟨(st.setStorage s').setVec v { x with sz := first }, ?_,
    h.edit hx hl hr helse hholds' (samePlace_sz hvec.cap first) hlen.symm ?_ (by omega)⟩
  · rw [truncate, hx, Option.bind_some, hr, Option.bind_some, if_pos (by omega), hsz, hs',
      Option.map_some, uint32_of_le hfirst hbound]
  · show (l.take first).length ≤ x.cap
    omega

theorem popBack_gives {a : α} (h : Inv N st lists) (hl : lists v = some (l ++ [a])) :
    Gives N (popBack N v st) (Function.update lists v (some l)) := by
  obtain ⟨x, hx, hvec⟩ := h.vec hl
  obtain ⟨r, hr, hholds, -⟩ := hvec.begin
  have hsz := hvec.sz
  have hle := hvec.le
  have hbound := hvec.bound
  rw [List.length_append, List.length_singleton] at hsz hbound
  obtain ⟨s', hs', helse, hholds'⟩ := hholds.destroy_last
  have hlast : x.sz - 1 = l.length := by omega
  refine ⟨(st.setStorage s').setVec v { x with sz := x.sz - 1 }, ?_,
    h.edit hx hl hr helse hholds' (samePlace_sz hvec.cap _) hlast ?_ (by omega)⟩
  · rw [popBack, hx, Option.bind_some, hr, Option.bind_some, if_pos (by omega), hlast, hs',
      Option.map_some]
  · show l.length ≤ x.cap
    omega

theorem erase_gives (h : Inv N st lists) (hl : lists v = some l) (hfirst : first ≤ last)
    (hlast : last ≤ l.length) :
    Gives N (erase N moved v first last st)
      (Function.update lists v (some (l.take first ++ l.drop last))) := by
  obtain ⟨x, hx, hvec⟩ := h.vec hl
  obtain ⟨r, hr, hholds, -⟩ := hvec.begin
  have hsz := hvec.sz
  have hle := hvec.le
  have hbound := hvec.bound
  by_cases hne : first = last
  · -- nothing is erased
    refine ⟨st, ?_, ?_⟩
    · rw [erase, hx, Option.bind_some, hr, Option.bind_some, if_pos ⟨hfirst, by omega⟩,
        if_neg (fun hc => hc hne)]
    · rw [hne, List.take_append_drop, ← hl, Function.update_eq_self]
      exact h
  · -- the elements behind the gap move into it, and the last ones are destroyed
    have hgap : (l.drop first).take (last - first) ≠ [] := by
      intro hnil
      have hlen := congrArg List.length hnil
      rw [List.length_take, List.length_drop, List.length_nil] at hlen
      omega
    have hparts : l = l.take first ++ (l.drop first).take (last - first) ++ l.drop last := by
      have hdrop : l.drop last = (l.drop first).drop (last - first) := by
        rw [List.drop_drop, Nat.add_sub_cancel' hfirst]
      rw [List.append_assoc, hdrop, List.take_append_drop, List.take_append_drop]
    have hpre : (l.take first).length = first := List.length_take_of_le (by omega)
    have hmid : ((l.drop first).take (last - first)).length = last - first := by
      rw [List.length_take, List.length_drop]
      omega
    have hrest : (l.drop last).length = x.sz - last := by rw [List.length_drop, hsz]
    have hold := hholds
    rw [hparts] at hold
    obtain ⟨s₁, tail, hs₁, htail, helse₁, hholds₁⟩ := hold.moveRange moved hgap
    rw [hpre, hmid, hrest, Nat.add_sub_cancel' hfirst] at hs₁
    have hkept : (l.take first ++ l.drop last).length = x.sz - (last - first) := by
      rw [List.length_append, hpre, hrest]
      omega
    have htotal : x.sz - (last - first) + (x.sz - (x.sz - (last - first))) =
        (l.take first ++ l.drop last ++ tail).length := by
      rw [List.length_append, hkept, htail, hmid]
      omega
    obtain ⟨s', hs', helse', hholds'⟩ := hholds₁.destroyN htotal
    rw [← hkept, List.take_left] at hholds'
    refine ⟨(st.setStorage s').setVec v { x with sz := x.sz - (last - first) }, ?_,
      h.edit hx hl hr (helse₁.trans helse') hholds' (samePlace_sz hvec.cap _) hkept.symm ?_
        (by omega)⟩
    · have hsz' : uint32 (x.sz - (last - first)) = x.sz - (last - first) :=
        uint32_of_le (Nat.sub_le _ _) (by omega)
      rw [erase, hx, Option.bind_some, hr, Option.bind_some, if_pos ⟨hfirst, by omega⟩, if_pos hne,
        hs₁, Option.bind_some]
      simp only [hsz', hs', Option.map_some]
    · show (l.take first ++ l.drop last).length ≤ x.cap
      omega

/-! ## Functions that change what a vector owns -/

/-- The buffer of a vector that does not exist yet. -/
theorem size_inbuf_eq_zero (h : Inv N st lists) (hl : lists v = none) :
    st.vecs v = none ∧ st.storage.size (.inbuf v) = 0 := by
  have hx : st.vecs v = none := (h.locals v).none_iff.2 hl
  have hlocal := h.locals v
  rw [hx, hl] at hlocal
  exact ⟨hx, hlocal⟩

/-- A new vector is empty, with its buffer allocated. -/
theorem inv_make (h : Inv N st lists) (hl : lists v = none) :
    ∃ s', st.storage.allocate (.inbuf v) N = some s' ∧
      Inv N ((st.setStorage s').setVec v ⟨0, N, none⟩) (Function.update lists v (some [])) := by
  obtain ⟨hx, hzero⟩ := size_inbuf_eq_zero h hl
  obtain ⟨s', hs', hsize, hholds, hsame⟩ := allocate_holds hzero N
  refine ⟨s', hs', h.replace (fun r hinbuf _ => hsame r hinbuf) ?_ (fun b hb _ => ?_)
    (fun b hb _ => ?_) (Nat.le_refl st.fresh)⟩
  · refine ⟨rfl, by simp, Nat.zero_le _, .inr ⟨0, by simp⟩, hsize, ?_, fun hlt => ?_⟩
    · rw [if_pos (Nat.le_refl N)]
      exact hholds
    · exact absurd hlt (Nat.lt_irrefl N)
  · exact absurd (owner_some.1 hb).1 (Nat.lt_irrefl N)
  · rw [hx] at hb
    exact absurd hb not_owner_none

theorem make_gives (h : Inv N st lists) (hl : lists v = none) :
    Gives N (make N v st) (Function.update lists v (some [])) := by
  obtain ⟨hx, -⟩ := size_inbuf_eq_zero h hl
  obtain ⟨s', hs', hinv⟩ := inv_make h hl
  refine ⟨_, ?_, hinv⟩
  rw [make, hx, if_pos Option.isNone_none, hs', Option.map_some]

/-- A vector that has given its block back, or has passed it on, owns nothing. -/
theorem vecInv_empty {sz : Nat} {out : Option Nat} (hsz : sz = 0) (hsize : s.size (.inbuf v) = N)
    (hinbuf : s.Holds (.inbuf v) []) : VecInv N s v ⟨sz, 0, out⟩ [] := by
  refine ⟨hsz, by simp, Nat.le_of_eq hsz, .inl rfl, hsize, ?_, fun hlt => ?_⟩
  · rw [if_pos (Nat.zero_le N)]
    exact hinbuf
  · exact absurd hlt (Nat.not_lt_zero N)

theorem not_owner_zero {sz : Nat} {out : Option Nat} : ¬ Owner N (some ⟨sz, 0, out⟩) b :=
  fun h => absurd (owner_some.1 h).1 (Nat.not_lt_zero N)

/-- The elements are in the vector's own regions. -/
theorem begin_ne (hr : x.begin N v = some r) {r' : Region} (hinbuf : r' ≠ .inbuf v)
    (hblock : ∀ b, Owner N (some x) b → r' ≠ .block b) : r' ≠ r := by
  rintro rfl
  rcases begin_eq_some.1 hr with ⟨-, hreg⟩ | ⟨b, hN, hout, hreg⟩
  · exact hinbuf hreg
  · exact hblock b (owner_some.2 ⟨hN, hout⟩) hreg

/-- Once the elements are gone, the buffer is empty wherever they were. -/
theorem VecInv.inbuf_empty (h : VecInv N s v x l) (hr : x.begin N v = some r)
    (hempty : s'.Holds r []) (hsame : .inbuf v ≠ r → Same s s' (.inbuf v)) :
    s'.Holds (.inbuf v) [] := by
  have hinbuf := h.inbuf
  rcases begin_eq_some.1 hr with ⟨-, hreg⟩ | ⟨b, hN, -, hreg⟩
  · rw [hreg] at hempty
    exact hempty
  · rw [if_neg (Nat.not_le.2 hN)] at hinbuf
    exact (hsame (by rw [hreg]; simp)).holds hinbuf

/-- The block of a vector without elements is given back, if there is one. -/
theorem deallocateOut_eq (hr : x.begin N v = some r) (hsize : N < x.cap → s.size r = x.cap)
    (hempty : s.Holds r []) :
    ∃ s', deallocateOut N x s = some s' ∧ s'.Holds r [] ∧ (∀ r', r' ≠ r → Same s s' r') ∧
      (∀ u, Same s s' (.inbuf u)) ∧ ∀ b, Owner N (some x) b → s'.size (.block b) = 0 := by
  rcases begin_eq_some.1 hr with ⟨hN, -⟩ | ⟨b, hN, hout, rfl⟩
  · refine ⟨s, ?_, hempty, fun _ _ => ⟨rfl, fun _ => rfl⟩, fun _ => ⟨rfl, fun _ => rfl⟩,
      fun b hb => absurd (owner_some.1 hb).1 (Nat.not_lt.2 hN)⟩
    rw [deallocateOut, if_neg (Nat.not_lt.2 hN)]
  · obtain ⟨s', hs', hzero, hempty', hsame⟩ := deallocate_holds (hsize hN) hempty
    refine ⟨s', ?_, hempty', hsame, fun u => hsame _ (by simp), fun b' hb' => ?_⟩
    · rw [deallocateOut, if_pos hN, hout, Option.bind_some, hs']
    · have hout' := (owner_some.1 hb').2
      rw [hout, Option.some.injEq] at hout'
      rw [← hout']
      exact hzero

theorem clearCapacity_eq (h : Inv N st lists) (hl : lists v = some l) :
    ∃ st' out, clearCapacity N v st = some st' ∧ Inv N st' (Function.update lists v (some [])) ∧
      st'.vecs v = some ⟨0, 0, out⟩ := by
  obtain ⟨x, hx, hvec⟩ := h.vec hl
  obtain ⟨r, hr, hholds, hroom⟩ := hvec.begin
  have hsz := hvec.sz
  obtain ⟨s₁, hs₁, helse, hholds₁⟩ := hholds.destroyN (Nat.zero_add l.length)
  rw [List.take_zero] at hholds₁
  have hsize : N < x.cap → s₁.size r = x.cap := by
    intro hN
    rcases begin_eq_some.1 hr with ⟨hle, -⟩ | ⟨b, -, hout, rfl⟩
    · omega
    · rw [helse.size]
      exact h.owner_size hx (owner_some.2 ⟨hN, hout⟩)
  obtain ⟨s', hs', hempty, hsame', hinbuf', hfreed⟩ := deallocateOut_eq hr hsize hholds₁
  have hsame : ∀ r', r' ≠ r → Same st.storage s' r' := fun r' hr' =>
    (helse.same fun hmem => hr' (List.mem_singleton.1 hmem)).trans (hsame' r' hr')
  refine ⟨(st.setStorage s').setVec v { x with sz := 0, cap := 0 }, x.out, ?_, ?_,
    Function.update_self _ _ _⟩
  · rw [clearCapacity, hx, Option.bind_some, hr, Option.bind_some, hsz, hs₁, Option.bind_some,
      hs', Option.map_some]
  · refine h.replace (fun r' hinbuf hblock => hsame r' (begin_ne hr hinbuf fun b hb => ?_))
      (vecInv_empty rfl ?_ (hvec.inbuf_empty hr hempty (hsame _)))
      (fun b hb _ => absurd hb not_owner_zero) (fun b hb _ => ?_) (Nat.le_refl st.fresh)
    · rw [hx] at hblock
      exact hblock b (.inl hb)
    · show s'.size (.inbuf v) = N
      rw [(hinbuf' v).size, helse.size]
      exact hvec.inbufSize
    · rw [hx] at hb
      exact hfreed b hb

theorem clearCapacity_gives (h : Inv N st lists) (hl : lists v = some l) :
    Gives N (clearCapacity N v st) (Function.update lists v (some [])) := by
  obtain ⟨st', out, hst', h', -⟩ := clearCapacity_eq h hl
  exact ⟨st', hst', h'⟩

theorem drop_gives (h : Inv N st lists) (hl : lists v = some l) :
    Gives N (drop N v st) (Function.update lists v none) := by
  obtain ⟨st₁, out, hst₁, h₁, hx₁⟩ := clearCapacity_eq h hl
  have hvec := h₁.vecInv hx₁ (Function.update_self v (some []) lists)
  have hinbuf := hvec.inbuf
  rw [if_pos (Nat.zero_le N)] at hinbuf
  obtain ⟨s', hs', hsize, -, hsame⟩ := deallocate_holds hvec.inbufSize hinbuf
  have hinv : Inv N ⟨s', Function.update st₁.vecs v none, st₁.fresh⟩
      (Function.update (Function.update lists v (some [])) v none) := by
    refine h₁.replace (fun r hr _ => hsame r hr) hsize (fun b hb _ => absurd hb not_owner_none)
      (fun b hb _ => ?_) (Nat.le_refl st₁.fresh)
    rw [hx₁] at hb
    exact absurd hb not_owner_zero
  rw [Function.update_idem] at hinv
  refine ⟨_, ?_, hinv⟩
  rw [drop, hst₁, Option.bind_some, hs', Option.map_some]

/-! ## Move construction -/

theorem vacant_of_holds (h : s.Holds r []) : s.Vacant r := fun i _ => by
  rw [cells_eq_none (h i)]
  rfl

/-- The block of `w` changes hands: `v`, which has none, owns it afterwards. -/
theorem inv_handOver {y : Vec} (h : Inv N st lists) (hne : w ≠ v) (hy : st.vecs v = some y)
    (hv : lists v = some []) (hycap : y.cap ≤ N) (hx : st.vecs w = some x)
    (hw : lists w = some l) (hN : N < x.cap) (hout : x.out = some b) :
    Inv N ((st.setVec v ⟨x.sz, x.cap, some b⟩).setVec w { x with sz := 0, cap := 0 })
      (Function.update (Function.update lists w (some [])) v (some l)) := by
  let vecs' := Function.update (Function.update st.vecs v (some ⟨x.sz, x.cap, some b⟩)) w
    (some { x with sz := 0, cap := 0 })
  have hw' : vecs' w = some { x with sz := 0, cap := 0 } := Function.update_self _ _ _
  have hv' : vecs' v = some ⟨x.sz, x.cap, some b⟩ :=
    (Function.update_of_ne (Ne.symm hne) _ _).trans (Function.update_self _ _ _)
  have hother : ∀ u, u ≠ v → u ≠ w → vecs' u = st.vecs u := fun u huv huw =>
    (Function.update_of_ne huw _ _).trans (Function.update_of_ne huv _ _)
  -- who owns a block is swapped
  have hown : ∀ u c, Owner N (vecs' u) c ↔ Owner N (st.vecs (Equiv.swap v w u)) c := by
    intro u c
    by_cases huv : u = v
    · rw [huv, hv', Equiv.swap_apply_left, hx, owner_some, owner_some, hout]
    · by_cases huw : u = w
      · rw [huw, hw', Equiv.swap_apply_right, hy]
        refine iff_of_false not_owner_zero fun hc => ?_
        exact absurd (owner_some.1 hc).1 (Nat.not_lt.2 hycap)
      · rw [hother u huv huw, Equiv.swap_apply_of_ne_of_ne huv huw]
  have hyvec := h.vecInv hy hv
  have hvec := h.vecInv hx hw
  refine ⟨fun u => ?_, fun c hc => ?_, fun u u' c hu hu' => ?_, h.fresh⟩
  · show Local N st.storage u (vecs' u) _
    by_cases huv : u = v
    · rw [huv, hv', Function.update_self]
      obtain ⟨b', hb', hsize, hholds⟩ := hvec.block hN
      rw [hout] at hb'
      have hinbuf := hyvec.inbuf
      rw [if_pos hycap] at hinbuf
      refine ⟨hvec.sz, hvec.bound, hvec.le, hvec.cap, hyvec.inbufSize, ?_,
        fun _ => ⟨b', hb', hsize, hholds⟩⟩
      rw [if_neg (Nat.not_le.2 hN)]
      exact hinbuf
    · rw [Function.update_of_ne huv]
      by_cases huw : u = w
      · rw [huw, hw', Function.update_self]
        have hinbuf := hvec.inbuf
        rw [if_neg (Nat.not_le.2 hN)] at hinbuf
        exact vecInv_empty rfl hvec.inbufSize hinbuf
      · rw [hother u huv huw, Function.update_of_ne huw]
        exact h.locals u
  · obtain ⟨u, hu⟩ := h.owner c hc
    refine ⟨Equiv.swap v w u, (hown _ c).2 ?_⟩
    rw [Equiv.swap_apply_self]
    exact hu
  · exact (Equiv.swap v w).injective (h.unique _ _ c ((hown u c).1 hu) ((hown u' c).1 hu'))

/-- The elements of `w` are moved to `v`, from one inline buffer to the other. -/
theorem inv_moveElements {y : Vec} (h : Inv N st lists) (hy : st.vecs v = some y)
    (hv : lists v = some []) (hycap : y.cap ≤ N) (hx : st.vecs w = some x)
    (hw : lists w = some l) (hN : x.cap ≤ N)
    (helse : Elsewhere st.storage s' [.inbuf w, .inbuf v])
    (hsrc : s'.Holds (.inbuf w) (l.map moved)) (hdst : s'.Holds (.inbuf v) l) :
    Inv N ((st.setStorage s').setVec v ⟨x.sz, x.cap, none⟩)
      (Function.update (Function.update lists w (some (l.map moved))) v (some l)) := by
  let vecs' := Function.update st.vecs v (some ⟨x.sz, x.cap, none⟩)
  have hv' : vecs' v = some ⟨x.sz, x.cap, none⟩ := Function.update_self _ _ _
  have hother : ∀ u, u ≠ v → vecs' u = st.vecs u := fun u huv => Function.update_of_ne huv _ _
  have hown : ∀ u c, Owner N (vecs' u) c ↔ Owner N (st.vecs u) c := by
    intro u c
    by_cases huv : u = v
    · rw [huv, hv', hy]
      refine iff_of_false (fun hc => ?_) fun hc => ?_
      · exact absurd (owner_some.1 hc).1 (Nat.not_lt.2 hN)
      · exact absurd (owner_some.1 hc).1 (Nat.not_lt.2 hycap)
    · rw [hother u huv]
  have hsize : ∀ c, s'.size (.block c) = st.storage.size (.block c) := fun c => by rw [helse.size]
  have hvec := h.vecInv hx hw
  have hyvec := h.vecInv hy hv
  refine ⟨fun u => ?_, fun c hc => ?_, fun u u' c hu hu' => ?_, fun c hc => ?_⟩
  · show Local N s' u (vecs' u) _
    by_cases huv : u = v
    · rw [huv, hv', Function.update_self]
      refine ⟨hvec.sz, hvec.bound, hvec.le, hvec.cap, ?_, ?_, fun hlt => ?_⟩
      · rw [helse.size]
        exact hyvec.inbufSize
      · rw [if_pos hN]
        exact hdst
      · exact absurd hN (Nat.not_le.2 hlt)
    · rw [hother u huv, Function.update_of_ne huv]
      by_cases huw : u = w
      · rw [huw, hx, Function.update_self]
        have hsz := hvec.sz
        have hbound := hvec.bound
        refine ⟨?_, ?_, hvec.le, hvec.cap, ?_, ?_, fun hlt => ?_⟩
        · rw [List.length_map]
          exact hsz
        · rw [List.length_map]
          exact hbound
        · rw [helse.size]
          exact hvec.inbufSize
        · rw [if_pos hN]
          exact hsrc
        · exact absurd hN (Nat.not_le.2 hlt)
      · rw [Function.update_of_ne huw]
        refine (h.locals u).frame (helse.same ?_) fun c _ => helse.same (by simp)
        rw [List.mem_cons, List.mem_singleton, not_or]
        exact ⟨fun hc => huw (Region.inbuf.inj hc), fun hc => huv (Region.inbuf.inj hc)⟩
  · obtain ⟨u, hu⟩ := h.owner c (by rw [← hsize]; exact hc)
    exact ⟨u, (hown u c).2 hu⟩
  · exact h.unique u u' c ((hown u c).1 hu) ((hown u' c).1 hu')
  · exact h.fresh c (by rw [← hsize]; exact hc)

/-- A move construction takes the list, and leaves the source empty or, if the elements are in
its inline buffer, with what moves leave behind. -/
theorem moveMake_gives (moved : α → α) (h : Inv N st lists) (hv : lists v = none)
    (hw : lists w = some l) :
    ∃ kept : Bool, Gives N (moveMake N moved v w st)
      (Function.update (Function.update lists w (some (if kept then l.map moved else []))) v
        (some l)) := by
  obtain ⟨hnone, -⟩ := size_inbuf_eq_zero h hv
  obtain ⟨x, hx, -⟩ := h.vec hw
  have hne : w ≠ v := by
    rintro rfl
    rw [hw] at hv
    exact absurd hv (Option.some_ne_none l)
  -- the new vector is made first
  obtain ⟨s₁, hs₁, h₁⟩ := inv_make h hv
  have hy₁ : ((st.setStorage s₁).setVec v ⟨0, N, none⟩).vecs v = some ⟨0, N, none⟩ :=
    Function.update_self _ _ _
  have hx₁ : ((st.setStorage s₁).setVec v ⟨0, N, none⟩).vecs w = some x :=
    (Function.update_of_ne hne _ _).trans hx
  have hv₁ : Function.update lists v (some []) v = some [] := Function.update_self _ _ _
  have hw₁ : Function.update lists v (some []) w = some l :=
    (Function.update_of_ne hne _ _).trans hw
  have hlists : ∀ rest : List α,
      Function.update (Function.update (Function.update lists v (some [])) w (some rest)) v
        (some l) = Function.update (Function.update lists w (some rest)) v (some l) := by
    intro rest
    rw [Function.update_comm (Ne.symm hne), Function.update_idem]
  have hvec := h₁.vecInv hx₁ hw₁
  have hyvec := h₁.vecInv hy₁ hv₁
  have hinbuf := hyvec.inbuf
  rw [if_pos (Nat.le_refl N)] at hinbuf
  by_cases hN : N < x.cap
  · obtain ⟨b, hout, -, -⟩ := hvec.block hN
    have h₂ := inv_handOver h₁ hne hy₁ hv₁ (Nat.le_refl N) hx₁ hw₁ hN hout
    rw [hlists] at h₂
    have hvacant : (st.setStorage s₁).storage.Vacant (.inbuf v) := vacant_of_holds hinbuf
    refine ⟨false, _, ?_, h₂⟩
    rw [moveMake, hnone, if_pos Option.isNone_none, hx, Option.bind_some, hs₁, Option.bind_some,
      if_pos hN, hout, Option.bind_some, State.setOut, if_pos hvacant, Option.map_some]
    simp only [State.setVec, State.setStorage, Function.update_idem]
  · have hle := Nat.not_lt.1 hN
    have hsrc := hvec.inbuf
    rw [if_pos hle] at hsrc
    have hlen := hvec.sz
    have hroom : l.length ≤ s₁.size (.inbuf v) := by
      have hsize : s₁.size (.inbuf v) = N := hyvec.inbufSize
      have := hvec.le
      omega
    have hregion : Region.inbuf w ≠ Region.inbuf v := fun hc => hne (Region.inbuf.inj hc)
    obtain ⟨s', hs', helse, hsrc', hdst'⟩ := hsrc.uninitializedMoveN moved hregion hinbuf hroom
    have h₂ := inv_moveElements h₁ hy₁ hv₁ (Nat.le_refl N) hx₁ hw₁ hle helse hsrc' hdst'
    rw [hlists] at h₂
    refine ⟨true, _, ?_, h₂⟩
    have hsrcBegin : x.begin N w = some (.inbuf w) := if_pos hle
    have hdstBegin : Vec.begin N v ⟨x.sz, x.cap, none⟩ = some (.inbuf v) := if_pos hle
    have hs'' : uninitializedMoveN moved (.inbuf w) (.inbuf v) 0 0 x.sz s₁ = some s' := by
      rw [hlen]
      exact hs'
    rw [moveMake, hnone, if_pos Option.isNone_none, hx, Option.bind_some, hs₁, Option.bind_some,
      if_neg hN, hsrcBegin, Option.bind_some, hdstBegin, Option.bind_some, hs'', Option.map_some]
    simp only [State.setVec, State.setStorage, Function.update_idem]

end SmallVector
end Cotamer
end Psets
