/-
What `any` and `all` mean.

A quorum is built from arguments, some of which may be null handles, triggered events or
events named before.  Whatever is triggered afterwards, a quorum has triggered exactly
when enough of its arguments have, and until then it listens to each argument that has
not, once for each time the argument occurs.
-/
import Psets.Cotamer.RuntimeInvariant

namespace Psets
namespace Cotamer
namespace Event

open Containers Transition Quorum

/-- The arguments that need no waiting for. -/
def arrived (s : Runtime) (es : List (Option EventId)) : Nat :=
  es.countP fun e => e.all fun m => decide (s.Triggered m)

/-- The arguments that have not triggered. -/
def waiting (s : Runtime) (es : List (Option EventId)) : List EventId :=
  es.reduceOption.filter fun m => decide (¬ s.Triggered m)

theorem arrived_add_waiting (s : Runtime) (es : List (Option EventId)) :
    arrived s es + (waiting s es).length = es.length := by
  unfold arrived waiting
  induction es with
  | nil => rfl
  | cons e es ih =>
    cases e with
    | none =>
      rw [List.countP_cons, List.reduceOption_cons_of_none, List.length_cons]
      simp only [Option.all_none, if_true]
      omega
    | some m =>
      rw [List.countP_cons, List.reduceOption_cons_of_some, List.filter_cons, List.length_cons]
      by_cases hm : s.Triggered m
      · simp only [Option.all_some, hm, decide_true, not_true, decide_false, if_true,
          Bool.false_eq_true, if_false]
        omega
      · simp only [Option.all_some, hm, decide_false, not_false_eq_true, decide_true, if_true,
          Bool.false_eq_true, if_false, List.length_cons]
        omega

theorem count_waiting (s : Runtime) (es : List (Option EventId)) (m : EventId) :
    (waiting s es).count m = if s.Triggered m then 0 else es.count (some m) := by
  unfold waiting
  by_cases hm : s.Triggered m
  · rw [if_pos hm, List.count_eq_zero]
    intro hmem
    exact (of_decide_eq_true (List.mem_filter.1 hmem).2) hm
  · rw [if_neg hm, List.count_filter (p := fun m => decide (¬ s.Triggered m)) (decide_eq_true hm)]
    induction es with
    | nil => rfl
    | cons e es ih =>
      cases e with
      | none =>
        have hne : (none : Option EventId) ≠ some m := nofun
        rw [List.reduceOption_cons_of_none, List.count_cons_of_ne hne, ih]
      | some m' =>
        rw [List.reduceOption_cons_of_some, List.count_cons, List.count_cons, ih]
        simp only [beq_iff_eq, Option.some.injEq]

section

variable {s t : Runtime} (hmono : ∀ x, s.Triggered x → t.Triggered x)

include hmono

/-- Fewer arguments wait. -/
theorem waiting_mono (es : List (Option EventId)) :
    waiting t es = (waiting s es).filter fun m => decide (¬ t.Triggered m) := by
  unfold waiting
  rw [List.filter_filter]
  apply List.filter_congr
  intro m _
  by_cases ht : t.Triggered m
  · simp only [ht, not_true, decide_false, Bool.false_and]
  · have hs : ¬ s.Triggered m := fun hs => ht (hmono m hs)
    simp only [ht, hs, not_false_eq_true, decide_true, Bool.true_and]

theorem arrived_mono (es : List (Option EventId)) : arrived s es ≤ arrived t es := by
  have hs := arrived_add_waiting s es
  have ht := arrived_add_waiting t es
  rw [waiting_mono hmono] at ht
  have := List.length_filter_le (fun m => decide (¬ t.Triggered m)) (waiting s es)
  omega

end

/-! ## The account of one quorum -/

/-- The count of an untriggered quorum and its members are what its arguments come to. -/
structure Accounted (s : Runtime) (q : EventId) (es : List (Option EventId)) : Prop where
  length : (s.body q).count + (s.body q).members.length = es.length
  waits : ∀ m, ¬ s.Triggered m → (s.body q).members.count m = es.count (some m)

theorem Accounted.congr {s t : Runtime} {q : EventId} {es : List (Option EventId)}
    (h : Accounted s q es) (hcount : (t.body q).count = (s.body q).count)
    (hmembers : (t.body q).members = (s.body q).members)
    (htriggered : ∀ m, t.Triggered m ↔ s.Triggered m) : Accounted t q es := by
  constructor
  · rw [hcount, hmembers, h.length]
  · intro m hm
    rw [htriggered] at hm
    rw [hmembers, h.waits m hm]

theorem Accounted.perm {s : Runtime} {q : EventId} {es : List (Option EventId)}
    (h : Accounted s q es) (hsettled : ∀ m, s.Triggered m → (s.body q).members.count m = 0) :
    (s.body q).members.Perm (waiting s es) := by
  rw [List.perm_iff_count]
  intro m
  rw [count_waiting]
  by_cases hm : s.Triggered m
  · rw [if_pos hm, hsettled m hm]
  · rw [if_neg hm, h.waits m hm]

theorem Accounted.count_eq {s : Runtime} {q : EventId} {es : List (Option EventId)}
    (h : Accounted s q es) (hsettled : ∀ m, s.Triggered m → (s.body q).members.count m = 0) :
    (s.body q).count = arrived s es := by
  have hlength := h.length
  have hwaiting := arrived_add_waiting s es
  rw [← (h.perm hsettled).length_eq] at hwaiting
  omega

/-! ## The account of all quorums -/

/-- The accounts between two calls; `hole` may have reached its quorum. -/
structure KeptBut (hole : Option EventId) (s : Runtime) (args : EventId → List (Option EventId)) :
    Prop where
  quiet : QuietBut hole s
  accounted : ∀ q, (s.body q).isQuorum = true → ¬ s.Triggered q → Accounted s q (args q)
  reached : ∀ q, (s.body q).isQuorum = true → s.Triggered q →
    (s.body q).quorum ≤ arrived s (args q)
  /-- What has triggered has informed its quorums. -/
  informed : ∀ m q, s.Triggered m → s.enlisted m (.quorum q) = 0

abbrev Kept (s : Runtime) (args : EventId → List (Option EventId)) : Prop := KeptBut none s args

/-- Changes to the listeners that add no quorum. -/
theorem KeptBut.relist {hole : Option EventId} {s t : Runtime}
    {args : EventId → List (Option EventId)} (h : KeptBut hole s args) (hquiet : QuietBut hole t)
    (hbody : ∀ x, t.body x = { s.body x with listeners := (t.body x).listeners })
    (hfewer : ∀ m q, t.enlisted m (.quorum q) ≤ s.enlisted m (.quorum q)) :
    KeptBut hole t args := by
  have htriggered : ∀ x, t.Triggered x ↔ s.Triggered x := fun x => by
    unfold Runtime.Triggered
    rw [hbody x]
  refine ⟨hquiet, fun q hq hs => ?_, fun q hq ht => ?_, fun m q hm => ?_⟩
  · rw [htriggered] at hs
    rw [hbody q] at hq
    refine (h.accounted q hq hs).congr ?_ ?_ htriggered <;> rw [hbody q]
  · rw [htriggered] at ht
    rw [hbody q] at hq ⊢
    exact Nat.le_trans (h.reached q hq ht) (arrived_mono (fun x => (htriggered x).2) _)
  · rw [htriggered] at hm
    have := h.informed m q hm
    have := hfewer m q
    omega

/-! ## A cascade -/

section

variable {home : CoroId → DriverId} {current : DriverId}

theorem FullCascade.underway {drv : Option DriverId} {s t : Runtime} {x : EventId}
    (h : FullCascade home current drv s x t) (hs : QuietBut (some x) s) (hx : ¬ s.Triggered x)
    (hsize : x < s.size) : Underway s x none [] t := by
  have hroot : Fires s x x := Fired.root ⟨rfl, hx⟩
  have hdepth : remaining s ≤ depth s := Nat.le_trans (remaining_le s) (Nat.le_succ _)
  rcases triggerUnlock_underway home current drv (hs.underway x) hx hroot hsize hdepth with
    ⟨u, hrun, hunder, _⟩
  rw [h.run] at hrun
  rwa [Option.some.inj hrun]

/-- A quorum that is still untriggered has counted the members it has lost. -/
theorem Accounted.cascade {s t : Runtime} {x q : EventId} {es : List (Option EventId)}
    (h : Accounted s q es) (hunder : Underway s x none [] t) (hx : t.Triggered x)
    (hq : ¬ t.Triggered q) : Accounted t q es := by
  rcases hunder.removed q hq with ⟨removed, hperm, hcount, hfires⟩
  constructor
  · have hlength := hperm.length_eq
    rw [List.length_append] at hlength
    have := h.length
    omega
  · intro m hm
    have hnone : removed.count m = 0 := by
      apply List.count_eq_zero.2
      exact fun hmem => hm (hunder.complete hx (hfires m hmem))
    have hm₀ : ¬ s.Triggered m := fun hs => hm (hunder.mono m hs)
    have hsplit := hperm.count_eq m
    rw [List.count_append, hnone, Nat.zero_add] at hsplit
    rw [hsplit, h.waits m hm₀]

/-- Members that trigger have arrived. -/
theorem Accounted.arrived_of_subperm {s t : Runtime} {q : EventId} {es : List (Option EventId)}
    (h : Accounted s q es) (hsettled : ∀ m, s.Triggered m → (s.body q).members.count m = 0)
    (hmono : ∀ x, s.Triggered x → t.Triggered x) {ms : List EventId}
    (hsub : List.Subperm ms (s.body q).members) (hms : ∀ m ∈ ms, t.Triggered m) :
    (s.body q).count + ms.length ≤ arrived t es := by
  have hgone : (ms.filter fun m => decide (t.Triggered m)) = ms :=
    List.filter_eq_self.2 fun m hm => decide_eq_true (hms m hm)
  have hperm := h.perm hsettled
  have hle := ((hsub.trans hperm.subperm).filter fun m => decide (t.Triggered m)).length_le
  rw [hgone] at hle
  have hsplit := List.length_eq_length_filter_add (l := waiting s es) fun m =>
    decide (t.Triggered m)
  have hs := h.length
  have ht := arrived_add_waiting t es
  rw [hperm.length_eq] at hs
  rw [waiting_mono hmono] at ht
  simp only [decide_not] at ht
  omega

/-- Triggering leaves no quorum on the list of what has triggered. -/
def Informed (s : Runtime) : Prop := ∀ m q, s.Triggered m → s.enlisted m (.quorum q) = 0

theorem markTriggered_informed {drv : Option DriverId} {s : Runtime} {x : EventId}
    (h : Informed s) : Informed (markTriggered home drv s x).2 := by
  have hm := markTriggered_marked home drv s x
  intro y q hy
  by_cases hyx : y = x
  · rw [hyx]
    unfold markTriggered Runtime.enlisted
    simp only [Runtime.setBody_self]
    exact ((scan_scanned home drv _ _).keptQuorum q).trans rfl
  · have hs := h y q (((hm.triggered y).1 hy).resolve_left hyx)
    have := hm.fewer y q
    omega

theorem countMember_informed {s : Runtime} {q x : EventId} (h : Informed s) :
    Informed (countMember s q x) := by
  intro m p hm
  rw [countMember_triggered] at hm
  rw [countMember_enlisted]
  exact h m p hm

theorem post_informed {drv : Option DriverId} {s : Runtime} {x : EventId} {ds : List DriverId}
    (h : Informed s) : Informed (ds.foldl (post current drv x) s) := by
  rcases post_eq current drv x ds s with ⟨asap, migrate, heq, _⟩
  rw [heq]
  exact h

theorem triggerUnlock_informed {drv : Option DriverId} {n : Nat} {s t : Runtime} {x : EventId}
    (hs : Informed s) (h : triggerUnlock home current drv n s x = some t) : Informed t := by
  induction n generalizing s t x with
  | zero => cases h
  | succ n ih =>
    rcases triggerUnlock_inv h with ⟨u, hu, rfl⟩
    apply post_informed
    have hmark : Informed (markTriggered home drv s x).2 := markTriggered_informed hs
    generalize (markTriggered home drv s x).2 = m at hmark hu
    generalize (markTriggered home drv s x).1.quorums = qs at hu
    induction qs generalizing m with
    | nil =>
      obtain rfl := Option.some.inj hu
      exact hmark
    | cons q qs ihq =>
      rw [List.foldlM_cons] at hu
      rcases Option.bind_eq_some_iff.1 hu with ⟨v, hv, hu⟩
      apply ihq v _ hu
      unfold triggerMember at hv
      simp only [] at hv
      split at hv
      · exact ih (countMember_informed hmark) hv
      · obtain rfl := Option.some.inj hv
        exact countMember_informed hmark

/-- A cascade keeps the accounts, if its root has a reason to trigger. -/
theorem KeptBut.cascade {drv : Option DriverId} {s t : Runtime} {x : EventId}
    {args : EventId → List (Option EventId)} (h : KeptBut (some x) s args)
    (hx : ¬ s.Triggered x) (hsize : x < s.size)
    (hroot : (s.body x).isQuorum = true → (s.body x).quorum ≤ (s.body x).count)
    (hfull : FullCascade home current drv s x t) : Kept t args := by
  have hunder := hfull.underway h.quiet hx hsize
  refine ⟨hfull.quiet, fun q hq ht => ?_, fun q hq ht => ?_, ?_⟩
  · rw [(hunder.same q).1] at hq
    have hs : ¬ s.Triggered q := fun hs => ht (hunder.mono q hs)
    exact (h.accounted q hq hs).cascade hunder hfull.root ht
  · rw [(hunder.same q).1] at hq
    rw [(hunder.same q).2]
    by_cases hs : s.Triggered q
    · exact Nat.le_trans (h.reached q hq hs) (arrived_mono hunder.mono _)
    · have hacc := h.accounted q hq hs
      have hsettled : ∀ m, s.Triggered m → (s.body q).members.count m = 0 := fun m hm =>
        h.quiet.settled m q hm hs
      rcases hunder.sound q ht hs with ⟨rfl, _⟩ | ⟨ms, _, hsub, hfired, hneed⟩
      · rw [hacc.count_eq hsettled] at hroot
        exact Nat.le_trans (hroot hq) (arrived_mono hunder.mono _)
      · have hms : ∀ m ∈ ms, t.Triggered m := fun m hm => hunder.complete hfull.root (hfired m hm)
        have := hacc.arrived_of_subperm hsettled hunder.mono hsub hms
        omega
  · exact triggerUnlock_informed h.informed hfull.run

end

/-! ## Building a quorum -/

/-- One more argument. -/
theorem Accounted.addMember {q : EventId} {s : Runtime} {e : Option EventId}
    {es : List (Option EventId)} (h : Accounted s q es) (he : ∀ m, e = some m → m ≠ q) :
    Accounted (addMember q s e) q (es ++ [e]) := by
  rcases addMember_others he (s := s) with ⟨htriggered, _⟩
  have hlength := h.length
  by_cases hwait : ∀ m, e = some m → s.Triggered m
  · constructor
    · rw [addMember_of_arrived hwait, Runtime.setBody_self, List.length_append,
        List.length_singleton]
      simp only []
      omega
    · intro m hm
      rw [htriggered] at hm
      have hne : e ≠ some m := fun heq => hm (hwait m heq)
      rw [addMember_of_arrived hwait, Runtime.setBody_self, List.count_append,
        List.count_singleton, if_neg (by simpa using hne), Nat.add_zero]
      exact h.waits m hm
  · simp only [not_forall] at hwait
    obtain ⟨m₀, rfl, hm₀⟩ := hwait
    have heq := addMember_of_waiting hm₀ (he m₀ rfl)
    constructor
    · rw [heq, Runtime.setBody_self, List.length_append, List.length_singleton]
      simp only [List.length_append, List.length_singleton]
      omega
    · intro m hm
      rw [htriggered] at hm
      rw [heq, Runtime.setBody_self]
      simp only []
      rw [List.count_append, List.count_append, h.waits m hm, List.count_singleton,
        List.count_singleton]
      simp only [beq_iff_eq, Option.some.injEq]

/-- The accounts while `make` adds the arguments of `q`. -/
theorem KeptBut.addMember {q : EventId} {s : Runtime} {e : Option EventId}
    {args : EventId → List (Option EventId)} (h : KeptBut (some q) s args) (hb : Building q s)
    (he : ∀ m, e = some m → m < s.size ∧ m ≠ q) :
    KeptBut (some q) (addMember q s e) (Function.update args q (args q ++ [e])) := by
  have hne : ∀ m, e = some m → m ≠ q := fun m hm => (he m hm).2
  rcases addMember_others hne (s := s) with ⟨htriggered, hsame, hothers, hlisted⟩
  refine ⟨(addMember_building hb he).quiet, fun y hy hs => ?_, fun y hy ht => ?_,
    fun m p hm => ?_⟩
  · rw [htriggered] at hs
    rw [(hsame y).1] at hy
    by_cases hyq : y = q
    · rw [hyq] at hy hs ⊢
      rw [Function.update_self]
      exact (h.accounted q hy hs).addMember hne
    · rw [Function.update_of_ne hyq]
      exact (h.accounted y hy hs).congr (hothers y hyq).1 (hothers y hyq).2 htriggered
  · rw [htriggered] at ht
    rw [(hsame y).1] at hy
    have hyq : y ≠ q := fun heq => hb.untriggered (heq ▸ ht)
    rw [Function.update_of_ne hyq, (hsame y).2]
    exact Nat.le_trans (h.reached y hy ht) (arrived_mono (fun x => (htriggered x).2) _)
  · rw [htriggered] at hm
    rw [hlisted m p hm]
    exact h.informed m p hm

theorem KeptBut.addMembers {q : EventId} {es : List (Option EventId)} {s : Runtime}
    {args : EventId → List (Option EventId)} (h : KeptBut (some q) s args) (hb : Building q s)
    (hes : ∀ m, some m ∈ es → m < s.size ∧ m ≠ q) :
    KeptBut (some q) (es.foldl (Event.addMember q) s)
      (Function.update args q (args q ++ es)) := by
  induction es generalizing s args with
  | nil =>
    rw [List.append_nil, Function.update_eq_self]
    exact h
  | cons e es ih =>
    have he : ∀ m, e = some m → m < s.size ∧ m ≠ q := fun m hm =>
      hes m (by rw [hm]; exact List.mem_cons_self)
    have hrest := ih (h.addMember hb he) (addMember_building hb he) (by
      intro m hm
      rw [addMember_size]
      exact hes m (List.mem_cons_of_mem _ hm))
    rw [Function.update_self, Function.update_idem, List.append_assoc, List.singleton_append]
      at hrest
    exact hrest

/-- A new quorum, with no arguments yet. -/
theorem Kept.newQuorum {s : Runtime} {args : EventId → List (Option EventId)} (h : Kept s args)
    (quorum : Nat) :
    KeptBut (some s.size) (Runtime.setBody { s with size := s.size + 1 } s.size
      { isQuorum := true, quorum }) (Function.update args s.size []) := by
  have hb := newQuorum_building h.quiet quorum
  have hold := h.quiet.fresh s.size (Nat.le_refl _)
  generalize ht : Runtime.setBody { s with size := s.size + 1 } s.size
    { isQuorum := true, quorum } = t at hb ⊢
  have hself : t.body s.size = { isQuorum := true, quorum } := by
    rw [← ht, Runtime.setBody_self]
  have hne : ∀ y, y ≠ s.size → t.body y = s.body y := by
    intro y hy
    rw [← ht, Runtime.setBody_of_ne hy]
  have htriggered : ∀ y, t.Triggered y ↔ s.Triggered y := by
    intro y
    unfold Runtime.Triggered
    by_cases hy : y = s.size
    · rw [hy, hself, hold]
    · rw [hne y hy]
  refine ⟨hb.quiet, fun y hy hs => ?_, fun y hy hs => ?_, fun m q hm => ?_⟩
  · by_cases hys : y = s.size
    · rw [hys, Function.update_self]
      constructor
      · rw [hself]
        rfl
      · intro m _
        rw [hself]
        rfl
    · rw [Function.update_of_ne hys]
      rw [htriggered] at hs
      rw [hne y hys] at hy
      refine (h.accounted y hy hs).congr ?_ ?_ htriggered <;> rw [hne y hys]
  · have hys : y ≠ s.size := fun he => hb.untriggered (he ▸ hs)
    rw [htriggered] at hs
    rw [hne y hys] at hy ⊢
    rw [Function.update_of_ne hys]
    exact Nat.le_trans (h.reached y hy hs) (arrived_mono (fun x => (htriggered x).2) _)
  · have hms : m ≠ s.size := fun he => hb.untriggered (he ▸ hm)
    rw [htriggered] at hm
    unfold Runtime.enlisted
    rw [hne m hms]
    exact h.informed m q hm

/-! ## Every step -/

section

variable (home : CoroId → DriverId) (current : DriverId)

/-- The events with the arguments that their quorums were built from. -/
structure Dag where
  rt : Runtime := {}
  args : EventId → List (Option EventId) := fun _ => []

/-- The arguments are noted when `any` or `all` is called. -/
def noteArgs (d : Dag) : Label → EventId → List (Option EventId)
  | .act (.quorum _ es) => Function.update d.args d.rt.size es
  | _ => d.args

def dag : Machine Dag Label where
  init d := d = {}
  step d l := (step home current d.rt l).map fun rt => { rt, args := noteArgs d l }

/-- What is triggered from outside is a plain event. -/
def PlainTrigger (d : Dag) : Label → Prop
  | .act (.trigger x) => (d.rt.body x).isQuorum = false
  | .call x => (d.rt.body x).isQuorum = false ∨ d.rt.Triggered x
  | _ => True

instance (d : Dag) (l : Label) : Decidable (PlainTrigger d l) := by
  unfold PlainTrigger
  split <;> infer_instance

variable {home current}

theorem Kept.makeQuorum {s t : Runtime} {args : EventId → List (Option EventId)} {quorum : Nat}
    {es : List (Option EventId)} (h : Kept s args) (hes : ∀ m ∈ es.reduceOption, m < s.size)
    (hrun : makeQuorum home current s quorum es = some t) :
    Kept t (Function.update args s.size es) := by
  have hquiet := makeQuorum_quiet h.quiet hes hrun
  have hb := makeQuorum_building h.quiet quorum hes
  have hmembers : ∀ m, some m ∈ es → m < s.size + 1 ∧ m ≠ s.size := by
    intro m hm
    have hlt := hes m (List.reduceOption_mem_iff.2 hm)
    exact ⟨Nat.lt_succ_of_lt hlt, Nat.ne_of_lt hlt⟩
  have hkept := (h.newQuorum quorum).addMembers (newQuorum_building h.quiet quorum) hmembers
  rw [Function.update_self, Function.update_idem, List.nil_append] at hkept
  unfold Event.makeQuorum at hrun
  simp only [] at hrun
  generalize es.foldl (addMember s.size)
    (Runtime.setBody { s with size := s.size + 1 } s.size { isQuorum := true, quorum }) = u
    at hkept hb hrun
  split at hrun
  · rename_i hreached
    rcases fullCascade home current none hb.quiet hb.untriggered hb.size with ⟨v, hv⟩
    rw [hv.run] at hrun
    obtain rfl := Option.some.inj hrun
    exact hkept.cascade hb.untriggered hb.size (fun _ => hreached) hv
  · obtain rfl := Option.some.inj hrun
    exact ⟨hquiet, hkept.accounted, hkept.reached, hkept.informed⟩

/-- A cascade that a plain event starts. -/
theorem Kept.fire {drv : Option DriverId} {s t : Runtime} {x : EventId}
    {args : EventId → List (Option EventId)} (h : Kept s args) (hx : ¬ s.Triggered x)
    (hsize : x < s.size) (hplain : (s.body x).isQuorum = false)
    (hrun : triggerUnlock home current drv (depth s) s x = some t) : Kept t args := by
  have hweak : KeptBut (some x) s args :=
    ⟨h.quiet.weaken (some x), h.accounted, h.reached, h.informed⟩
  rcases fullCascade home current drv hweak.quiet hx hsize with ⟨u, hu⟩
  have hut : u = t := Option.some.inj (hu.run.symm.trans hrun)
  rw [← hut]
  refine hweak.cascade hx hsize (fun hq => ?_) hu
  rw [hplain] at hq
  cases hq

/-- The coroutines, the queues and the claim are no part of the accounts. -/
theorem Kept.of_body {s t : Runtime} {args : EventId → List (Option EventId)} (h : Kept s args)
    (hq : Quiet t) (hbody : t.body = s.body) : Kept t args := by
  refine h.relist hq (fun x => by rw [hbody]) fun m q => ?_
  unfold Runtime.enlisted
  rw [hbody]

theorem Kept.of_sameBut {s t : Runtime} {c : CoroId} {args : EventId → List (Option EventId)}
    (h : Kept s args) (hb : SameBut (.coroutine c) s t) : Kept t args :=
  h.relist (hb.quiet h.quiet) hb.body fun m _ => Nat.le_of_eq (hb.others m _ nofun)

/-- What coroutine bodies and outside code do keeps the accounts. -/
theorem Kept.act {d : Dag} {a : Act} {rt : Runtime} (h : Kept d.rt d.args)
    (hplain : PlainTrigger d (.act a)) (hact : act home current d.rt a = some rt) :
    Kept rt (noteArgs d (.act a)) := by
  have hquiet : Quiet rt := act_quiet h.quiet hact
  cases a with
  | event =>
    apply h.of_body hquiet
    rw [← Option.some.inj hact]
    show (d.rt.setBody d.rt.size {}).body = _
    unfold Runtime.setBody
    rw [← h.quiet.fresh d.rt.size (Nat.le_refl _), Function.update_eq_self]
  | quorum quorum es =>
    unfold Event.act at hact
    simp only [] at hact
    split at hact
    · rename_i hes
      exact h.makeQuorum hes hact
    · cases hact
  | await c x =>
    unfold Event.act at hact
    simp only [] at hact
    split at hact
    · cases hact
    · split at hact
      · exact h.of_body hquiet (by rw [← Option.some.inj hact])
      · rw [← Option.some.inj hact] at hquiet ⊢
        refine h.relist hquiet (fun y => ?_) fun m q => ?_
        · by_cases hy : y = x
          · rw [hy, Runtime.setBody_self]
          · rw [Runtime.setBody_of_ne hy]
        · rw [Runtime.enlisted_append]
          simp
  | trigger x =>
    unfold Event.act trigger at hact
    simp only [] at hact
    split at hact
    · rename_i hx
      split at hact
      · exact h.of_body hquiet (by rw [← Option.some.inj hact])
      · rename_i hut
        exact h.fire hut hx hplain hact
    · cases hact
  | destroy c x =>
    unfold Event.act at hact
    simp only [] at hact
    split at hact
    · rw [← Option.some.inj hact]
      exact h.of_sameBut (removeListener_sameBut d.rt x _)
    · cases hact
  | asap x =>
    unfold Event.act at hact
    simp only [] at hact
    split at hact
    · exact h.of_body hquiet (by rw [← Option.some.inj hact])
    · cases hact

/-- A driver claims a coroutine, or triggers the event. -/
theorem Kept.call {s t : Runtime} {x : EventId} {args : EventId → List (Option EventId)}
    (h : Kept s args) (hx : x < s.size) (hplain : (s.body x).isQuorum = false ∨ s.Triggered x)
    (hcall : driverTrigger home current s x = some t) : Kept t args := by
  have hquiet := driverTrigger_quiet h.quiet hx hcall
  have hclear : Kept { s with coh := none } args :=
    h.of_body (h.quiet.requeue s.asap s.migrate none) rfl
  unfold driverTrigger at hcall
  simp only [] at hcall
  split at hcall
  · split at hcall
    · rename_i c _
      rw [← Option.some.inj hcall] at hquiet ⊢
      have hdrop := hclear.of_sameBut (removeListener_sameBut _ x (.coroutine c))
      exact hdrop.relist hquiet (fun _ => rfl) fun _ _ => Nat.le_refl _
    · exact Option.some.inj hcall ▸ hclear
  · rename_i hut
    exact hclear.fire hut hx (hplain.resolve_right hut) hcall

theorem Kept.step {d d' : Dag} {l : Label} (h : Kept d.rt d.args) (hplain : PlainTrigger d l)
    (hs : (dag home current).step d l = some d') : Kept d'.rt d'.args := by
  rcases Option.map_eq_some_iff.1 hs with ⟨rt, hrt, rfl⟩
  cases l with
  | act a => exact h.act hplain hrt
  | call x =>
    have hcall : (if x < d.rt.size then driverTrigger home current d.rt x else none) = some rt :=
      hrt
    split at hcall
    · rename_i hx
      exact h.call hx hplain hcall
    · cases hcall

theorem reachable_kept {d : Dag} (h : (dag home current).ReachableBy PlainTrigger d) :
    Kept d.rt d.args := by
  refine Machine.ReachableBy.invariant (P := fun d => Kept d.rt d.args) (fun d hd => ?_)
    (fun d l d' hk hl hs => hk.step hl hs) h
  have hinit : d = {} := hd
  rw [hinit]
  refine ⟨quiet_start, fun q hq => ?_, fun q hq => ?_, fun m q hm => ?_⟩
  · cases hq
  · cases hq
  · cases hm

/-- After each call, a quorum has triggered if and only if as many of its arguments have
as it asks for, and an untriggered quorum listens to each argument that has not
triggered, as often as it was given it, and to nothing else. -/
theorem quorum_semantics {d : Dag} {q : EventId}
    (h : (dag home current).ReachableBy PlainTrigger d) (hq : (d.rt.body q).isQuorum = true) :
    (d.rt.Triggered q ↔ (d.rt.body q).quorum ≤ arrived d.rt (d.args q)) ∧
    (¬ d.rt.Triggered q → ∀ m, d.rt.enlisted m (.quorum q) =
      if d.rt.Triggered m then 0 else (d.args q).count (some m)) := by
  have hk := reachable_kept h
  refine ⟨⟨hk.reached q hq, fun hle => ?_⟩, fun hut m => ?_⟩
  · by_contra hut
    have hcount := (hk.accounted q hq hut).count_eq fun m hm => hk.quiet.settled m q hm hut
    have := hk.quiet.short q nofun hq hut
    omega
  · by_cases hm : d.rt.Triggered m
    · rw [if_pos hm, hk.informed m q hm]
    · rw [if_neg hm, hk.quiet.edges m q hm hut, (hk.accounted q hq hut).waits m hm]

/-- Event 2 is `all` of event 0 twice and event 1, and event 3 is `any` of 1 and 2. -/
def diamondRun : List Label :=
  [.act .event, .act .event, .act (.quorum 3 [some 0, some 0, some 1]),
    .act (.quorum 1 [some 1, some 2]), .act (.trigger 0)]

def diamond : Dag := ((dag (fun _ => 0) 0).exec {} diamondRun).get (by decide)

/-- Event 0 has triggered: event 2 still listens to event 1, once. -/
theorem quorum_semantics_diamond :
    (diamond.rt.Triggered 2 ↔ (diamond.rt.body 2).quorum ≤ arrived diamond.rt (diamond.args 2)) ∧
    (¬ diamond.rt.Triggered 2 → ∀ m, diamond.rt.enlisted m (.quorum 2) =
      if diamond.rt.Triggered m then 0 else (diamond.args 2).count (some m)) := by
  have hinit : (dag (fun _ => 0) 0).init {} := rfl
  have hwithin : (dag (fun _ => 0) 0).Within PlainTrigger {} diamondRun := by decide
  have hreach : (dag (fun _ => 0) 0).ReachableBy PlainTrigger diamond :=
    Machine.ReachableBy.of_exec (.init hinit) hwithin (Option.some_get _).symm
  exact quorum_semantics hreach (by decide)

example : ¬ diamond.rt.Triggered 2 ∧ diamond.rt.enlisted 1 (.quorum 2) = 1 ∧
    diamond.rt.enlisted 0 (.quorum 2) = 0 := by decide

end

end Event
end Cotamer
end Psets
