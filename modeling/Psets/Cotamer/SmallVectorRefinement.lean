/-
`small_vector` refines a list.

A call gives the lists that its list operation gives, unless it appends to a full vector
an element that is made from one of that vector's own elements, or from a part of one:
`push_space` destroys the element before it is read.  Along a run without such calls every
object is destroyed once, or it is an element of one vector.
-/
import Psets.Cotamer.SmallVectorPush

namespace Psets
namespace Cotamer
namespace SmallVector

open Containers Containers.Storage

/-! ## Conditions on a call -/

section Conditions

variable {α β : Type}

/-- The vector that a call appends to, with the vectors that its arguments refer into. -/
def Call.pushed : Call α β → Option (Nat × List (Option Nat))
  | .pushBack v ref => some (v, [ref.vector])
  | .pushBackMove v ref => some (v, [ref.vector])
  | .emplaceBack v _ args => some (v, args.map (·.arg.vector))
  | _ => none

/-- The vector keeps fewer than `2 ^ 31` elements. -/
def Fits (st : State α) (call : Call α β) : Prop :=
  ∀ p ∈ call.pushed, ∀ x ∈ st.vecs p.1, x.sz + 1 < 2 ^ 31

/-- The vector is full, and an argument is one of its elements or a part of one. -/
def Aliased (st : State α) (call : Call α β) : Prop :=
  ∃ p ∈ call.pushed, ∃ x ∈ st.vecs p.1, x.sz = x.cap ∧ some p.1 ∈ p.2

instance (st : State α) (call : Call α β) : Decidable (Fits st call) :=
  inferInstanceAs (Decidable (∀ p ∈ call.pushed, _))

instance (st : State α) (call : Call α β) : Decidable (Aliased st call) :=
  inferInstanceAs (Decidable (∃ p ∈ call.pushed, _))

/-- The call makes sense for the elements that the vectors show, and does not make a vector too
long. -/
def Allowed (N : Nat) (moved : α → α) (st : State α) (call : Call α β) : Prop :=
  Applicable moved (st.visible N) call ∧ Fits st call

instance (N : Nat) (moved : α → α) (st : State α) (call : Call α β) :
    Decidable (Allowed N moved st call) :=
  inferInstanceAs (Decidable ((call.apply moved false (st.visible N)).isSome = true ∧ _))

end Conditions

/-! ## What holds in every state -/

section Soundness

variable {α : Type} {N : Nat} {v b i : Nat} {x : Vec} {r : Region} {l : List α}
  {st st' : State α} {o : Object α} {lists : Nat → Option (List α)}

/-- The object is element `i` of vector `v`. -/
def Element (N : Nat) (st : State α) (v i : Nat) (o : Object α) : Prop :=
  ∃ x r, st.vecs v = some x ∧ x.begin N v = some r ∧ i < x.sz ∧ st.storage.cells r i = some o

structure Sound (N : Nat) (st : State α) : Prop where
  /-- Size, capacity and the place of the elements of each vector are as they should be. -/
  vec : ∀ v x, st.vecs v = some x → ∃ l, st.visible N v = some l ∧ VecInv N st.storage v x l
  /-- An allocated block belongs to one vector. -/
  block : ∀ b, st.storage.size (.block b) ≠ 0 → ∃! v, Owner N (st.vecs v) b
  /-- An object that was constructed was destroyed once, or it is one element of one vector. -/
  once : ∀ id, id < st.storage.born →
    (st.storage.dead.count id = 1 ∧ ∀ v i o, Element N st v i o → o.id ≠ id) ∨
      (st.storage.dead.count id = 0 ∧ ∃! p : Nat × Nat, ∃ o, Element N st p.1 p.2 o ∧ o.id = id)
  /-- When the last vector has gone, each object was destroyed once, and no block is left. -/
  done : (∀ v, st.vecs v = none) →
    st.storage.dead.Perm (List.range st.storage.born) ∧ ∀ r, st.storage.size r = 0

namespace Inv

/-- Every object that lives is an element. -/
theorem element (h : Inv N st lists) (ho : st.storage.cells r i = some o) :
    ∃ v, Element N st v i o := by
  have hin : i < st.storage.size r := st.storage.valid.inside ho
  have hread : st.storage.read r i = some o.value := by
    rw [Storage.read, ho, Option.map_some]
  -- the region is one of a vector, and the vector has its elements there
  have hvec : ∃ v x, st.vecs v = some x ∧
      (r = .inbuf v ∨ ∃ b, r = .block b ∧ Owner N (some x) b) := by
    cases r with
    | inbuf v =>
      cases hx : st.vecs v with
      | none =>
        have hlocal := h.locals v
        rw [hx, (h.locals v).none_iff.1 hx] at hlocal
        have hzero : st.storage.size (.inbuf v) = 0 := hlocal
        omega
      | some x => exact ⟨v, x, hx, .inl rfl⟩
    | block b =>
      obtain ⟨v, hv⟩ := h.owner b (by omega)
      obtain ⟨x, hx, howner⟩ := hv
      exact ⟨v, x, hx, .inr ⟨b, rfl, owner_some.2 howner⟩⟩
  obtain ⟨v, x, hx, hr⟩ := hvec
  obtain ⟨l, -, hv⟩ := h.list hx
  have hholds : x.begin N v = some r ∧ st.storage.Holds r l := by
    rcases hr with rfl | ⟨b, rfl, howner⟩
    · have hinbuf := hv.inbuf
      by_cases hcap : x.cap ≤ N
      · rw [if_pos hcap] at hinbuf
        exact ⟨begin_eq_some.2 (.inl ⟨hcap, rfl⟩), hinbuf⟩
      · rw [if_neg hcap] at hinbuf
        rw [hinbuf, List.getElem?_nil] at hread
        exact absurd hread.symm (Option.some_ne_none _)
    · obtain ⟨hcap, hout⟩ := owner_some.1 howner
      have hbegin : x.begin N v = some (.block b) :=
        begin_eq_some.2 (.inr ⟨b, hcap, hout, rfl⟩)
      exact ⟨hbegin, (hv.holds hbegin).1⟩
  refine ⟨v, x, r, hx, hholds.1, ?_, ho⟩
  rw [hholds.2] at hread
  rw [hv.sz]
  exact (List.getElem?_eq_some_iff.1 hread).1

/-- The elements of two vectors are in two places. -/
theorem begin_inj (h : Inv N st lists) {w : Nat} {y : Vec} (hx : st.vecs v = some x)
    (hr : x.begin N v = some r) (hy : st.vecs w = some y) (hr' : y.begin N w = some r) : v = w := by
  rcases begin_eq_some.1 hr with ⟨-, rfl⟩ | ⟨b, hcap, hout, rfl⟩
  · rcases begin_eq_some.1 hr' with ⟨-, hreg⟩ | ⟨b, -, -, hreg⟩
    · exact Region.inbuf.inj hreg
    · exact absurd hreg (by simp)
  · rcases begin_eq_some.1 hr' with ⟨-, hreg⟩ | ⟨b', hcap', hout', hreg⟩
    · exact absurd hreg (by simp)
    · obtain rfl := Region.block.inj hreg
      refine h.unique v w b ?_ ?_
      · rw [hx]
        exact owner_some.2 ⟨hcap, hout⟩
      · rw [hy]
        exact owner_some.2 ⟨hcap', hout'⟩

theorem sound (h : Inv N st lists) : Sound N st where
  vec v x hx := by
    obtain ⟨l, hl, hvec⟩ := h.list hx
    exact ⟨l, by rw [h.visible, hl], hvec⟩
  block b hb := by
    obtain ⟨v, hv⟩ := h.owner b hb
    exact ⟨v, hv, fun w hw => h.unique w v b hw hv⟩
  once id hid := by
    rcases st.storage.destroyed_once hid with ⟨hcount, hgone⟩ | ⟨hcount, r, i, o, ho, rfl⟩
    · refine .inl ⟨hcount, ?_⟩
      rintro v i o ⟨x, r, -, -, -, ho⟩
      exact hgone r i o ho
    · obtain ⟨v, hv⟩ := h.element ho
      refine .inr ⟨hcount, (v, i), ⟨o, hv, rfl⟩, ?_⟩
      rintro ⟨w, j⟩ ⟨o', ⟨y, r', hy, hr', -, ho'⟩, hid'⟩
      obtain ⟨x, r'', hx, hr'', -, ho''⟩ := hv
      obtain ⟨rfl, rfl⟩ := st.storage.valid.unique ho'' ho' hid'.symm
      rw [h.begin_inj hx hr'' hy hr']
  done hnone := by
    have hsize : ∀ r, st.storage.size r = 0 := by
      intro r
      cases r with
      | inbuf v =>
        have hlocal := h.locals v
        rw [hnone v, (h.locals v).none_iff.1 (hnone v)] at hlocal
        exact hlocal
      | block b =>
        by_contra hne
        obtain ⟨v, hv⟩ := h.owner b hne
        rw [hnone v] at hv
        exact not_owner_none hv
    refine ⟨st.storage.dead_perm fun r i => ?_, hsize⟩
    exact st.storage.valid.none_of_size_le (by rw [hsize r]; exact Nat.zero_le i)

end Inv

end Soundness

/-! ## One call, and runs -/

section Runs

variable {α β : Type} {N : Nat} {moved : α → α} {st : State α} {call : Call α β}
  {lists : Nat → Option (List α)}

theorem inv_init : Inv N (State.init : State α) fun _ => none :=
  ⟨fun _ => rfl, fun _ hb => absurd rfl hb, fun _ _ _ hv => absurd hv not_owner_none,
    fun _ hb => absurd rfl hb⟩

/-- The call has a result that stands for the lists of the list operation. -/
def Refines (N : Nat) (moved : α → α) (st : State α) (call : Call α β)
    (lists : Nat → Option (List α)) : Prop :=
  ∃ lists', ListStep moved lists call lists' ∧ Gives N (step N moved st call) lists'

theorem refines_of_gives {v : Nat} {γ : Type} {construct : List γ → Option α}
    {args : List (Argument α γ)} (hN : 0 < N) (h : Inv N st lists)
    (hpushed : call.pushed = some (v, args.map (·.arg.vector)))
    (hstep : step N moved st call = constructBack N moved v construct args st)
    (happly : call.apply moved false lists = appendElement lists v construct args)
    (happ : Applicable moved lists call) (hfits : Fits st call) (halias : ¬ Aliased st call) :
    Refines N moved st call lists := by
  obtain ⟨lists', hlists'⟩ := Option.isSome_iff_exists.1 happ
  refine ⟨lists', ⟨false, hlists'⟩, ?_⟩
  rw [happly] at hlists'
  rw [hstep]
  refine constructBack_gives hN h hlists' (fun x hx => ?_) fun x hx hcap arg hmem harg => ?_
  · exact hfits _ hpushed x hx
  · have hself : some v ∈ args.map (·.arg.vector) := List.mem_map.2 ⟨arg, hmem, harg⟩
    exact halias ⟨_, hpushed, x, hx, hcap, hself⟩

theorem step_refines (hN : 0 < N) (h : Inv N st lists) (happ : Applicable moved lists call)
    (hfits : Fits st call) (halias : ¬ Aliased st call) : Refines N moved st call lists := by
  cases call with
  | make v =>
    obtain ⟨lists', hlists'⟩ := Option.isSome_iff_exists.1 happ
    obtain ⟨hv, -⟩ := Option.ite_none_right_eq_some.1 hlists'
    exact ⟨_, ⟨false, if_pos hv⟩, make_gives h (Option.isNone_iff_eq_none.1 hv)⟩
  | moveMake v w =>
    obtain ⟨lists', hlists'⟩ := Option.isSome_iff_exists.1 happ
    obtain ⟨hv, hbody⟩ := Option.ite_none_right_eq_some.1 hlists'
    obtain ⟨l, hw, -⟩ := Option.map_eq_some_iff.1 hbody
    obtain ⟨kept, hgives⟩ := moveMake_gives moved h (Option.isNone_iff_eq_none.1 hv) hw
    refine ⟨_, ⟨kept, ?_⟩, hgives⟩
    rw [Call.apply, if_pos hv, hw, Option.map_some]
  | drop v =>
    rw [Applicable, Call.apply, Option.isSome_map] at happ
    obtain ⟨l, hl⟩ := Option.isSome_iff_exists.1 happ
    refine ⟨_, ⟨false, ?_⟩, drop_gives h hl⟩
    rw [Call.apply, hl, Option.map_some]
  | clear v =>
    rw [Applicable, Call.apply, Option.isSome_map] at happ
    obtain ⟨l, hl⟩ := Option.isSome_iff_exists.1 happ
    refine ⟨_, ⟨false, ?_⟩, clear_gives h hl⟩
    rw [Call.apply, hl, Option.map_some]
  | clearCapacity v =>
    rw [Applicable, Call.apply, Option.isSome_map] at happ
    obtain ⟨l, hl⟩ := Option.isSome_iff_exists.1 happ
    refine ⟨_, ⟨false, ?_⟩, clearCapacity_gives h hl⟩
    rw [Call.apply, hl, Option.map_some]
  | erase v first last =>
    obtain ⟨lists', hlists'⟩ := Option.isSome_iff_exists.1 happ
    obtain ⟨l, hl, hbody⟩ := Option.bind_eq_some_iff.1 hlists'
    obtain ⟨hrange, -⟩ := Option.ite_none_right_eq_some.1 hbody
    refine ⟨_, ⟨false, ?_⟩, erase_gives h hl hrange.1 hrange.2⟩
    rw [Call.apply, hl, Option.bind_some, if_pos hrange]
  | truncate v first =>
    obtain ⟨lists', hlists'⟩ := Option.isSome_iff_exists.1 happ
    obtain ⟨l, hl, hbody⟩ := Option.bind_eq_some_iff.1 hlists'
    obtain ⟨hfirst, -⟩ := Option.ite_none_right_eq_some.1 hbody
    refine ⟨_, ⟨false, ?_⟩, truncate_gives h hl hfirst⟩
    rw [Call.apply, hl, Option.bind_some, if_pos hfirst]
  | pushBack v ref =>
    exact refines_of_gives hN h (by simp [Call.pushed]) rfl rfl happ hfits halias
  | pushBackMove v ref =>
    exact refines_of_gives hN h (by simp [Call.pushed]) rfl rfl happ hfits halias
  | emplaceBack v construct args =>
    have happly : Call.apply moved false lists (.emplaceBack v construct args) =
        appendElement lists v (fun values => some (construct values)) args := rfl
    exact refines_of_gives hN h rfl rfl happly happ hfits halias
  | popBack v =>
    obtain ⟨lists', hlists'⟩ := Option.isSome_iff_exists.1 happ
    obtain ⟨l, hl, hbody⟩ := Option.bind_eq_some_iff.1 hlists'
    obtain ⟨hne, -⟩ := Option.ite_none_left_eq_some.1 hbody
    have hlast : lists v = some (l.dropLast ++ [l.getLast hne]) := by
      rw [List.dropLast_append_getLast hne, hl]
    refine ⟨_, ⟨false, ?_⟩, popBack_gives h hlast⟩
    rw [Call.apply, hl, Option.bind_some, if_neg hne]

/-- An aliased call reads an object that has ended. -/
theorem step_aliased (h : Inv N st lists) (happ : Applicable moved lists call)
    (halias : Aliased st call) : step N moved st call = none := by
  obtain ⟨⟨v, vectors⟩, hpushed, x, hx, hcap, hself⟩ := halias
  obtain ⟨lists', hlists'⟩ := Option.isSome_iff_exists.1 happ
  cases call with
  | pushBack u ref =>
    obtain ⟨rfl, rfl⟩ := Prod.mk.inj (Option.some.inj hpushed)
    have hvector : some u = ref.vector := List.mem_singleton.1 hself
    exact constructBack_none h hlists' hx hcap List.mem_cons_self
      ((ref.arg_vector moved).trans hvector.symm)
  | pushBackMove u ref =>
    obtain ⟨rfl, rfl⟩ := Prod.mk.inj (Option.some.inj hpushed)
    have hvector : some u = ref.vector := List.mem_singleton.1 hself
    exact constructBack_none h hlists' hx hcap List.mem_cons_self
      ((ref.arg_vector moved).trans hvector.symm)
  | emplaceBack u construct args =>
    obtain ⟨rfl, rfl⟩ := Prod.mk.inj (Option.some.inj hpushed)
    obtain ⟨arg, hmem, harg⟩ := List.mem_map.1 hself
    have happly : appendElement lists u (fun values => some (construct values)) args =
        some lists' := hlists'
    exact constructBack_none h happly hx hcap hmem harg
  | _ => exact absurd hpushed (by simp [Call.pushed])

/-- The call has a result, its elements are those of the list operation, and the result is
sound. -/
def Correct (N : Nat) (moved : α → α) (st : State α) (call : Call α β) : Prop :=
  ∃ st', step N moved st call = some st' ∧
    ListStep moved (st.visible N) call (st'.visible N) ∧ Sound N st'

theorem correct_iff (hN : 0 < N) (h : Inv N st lists) (hcall : Allowed N moved st call) :
    Correct N moved st call ↔ ¬ Aliased st call := by
  obtain ⟨happ, hfits⟩ := hcall
  rw [h.visible] at happ
  constructor
  · rintro ⟨st', hst', -⟩ halias
    rw [step_aliased h happ halias] at hst'
    exact absurd hst'.symm (Option.some_ne_none st')
  · intro halias
    obtain ⟨lists', hstep, st', hst', h'⟩ := step_refines hN h happ hfits halias
    refine ⟨st', hst', ?_, h'.sound⟩
    rw [h.visible, h'.visible]
    exact hstep

/-- A run of calls that are not aliased is a run of list operations. -/
theorem run_refines (hN : 0 < N) (h : Inv N st lists) {calls : List (Call α β)}
    (hok : (machine N moved).Within
      (fun st call => Allowed N moved st call ∧ ¬ Aliased st call) st calls) :
    ∃ st' lists', (machine N moved).exec st calls = some st' ∧ ListRun moved lists calls lists' ∧
      Inv N st' lists' := by
  induction calls generalizing st lists with
  | nil => exact ⟨st, lists, rfl, rfl, h⟩
  | cons call calls ih =>
    obtain ⟨⟨⟨happ, hfits⟩, halias⟩, hrest⟩ := hok
    rw [h.visible] at happ
    obtain ⟨lists₁, hstep, st₁, hst₁, h₁⟩ := step_refines hN h happ hfits halias
    obtain ⟨st', lists', hexec, hrun, h'⟩ := ih h₁ (hrest st₁ hst₁)
    exact ⟨st', lists', Transition.Machine.exec_cons hst₁ hexec, ⟨lists₁, hstep, hrun⟩, h'⟩

/-- Whatever calls a program makes, as long as none of them is aliased, they have the
results of the list operations.  After them, exactly the aliased calls do not. -/
theorem correct_iff_not_aliased (hN : 0 < N) (moved : α → α) {calls : List (Call α β)}
    (hok : (machine N moved).Within
      (fun st call => Allowed N moved st call ∧ ¬ Aliased st call) State.init calls) :
    ∃ st, (machine N moved).exec State.init calls = some st ∧
      ListRun moved (fun _ => none) calls (st.visible N) ∧ Sound N st ∧
      ∀ call : Call α β, Allowed N moved st call → (Correct N moved st call ↔ ¬ Aliased st call) := by
  obtain ⟨st, lists, hexec, hrun, h⟩ := run_refines hN inv_init hok
  refine ⟨st, hexec, ?_, h.sound, fun call hcall => correct_iff hN h hcall⟩
  rw [h.visible]
  exact hrun

def fst : Part (Nat × Nat) Nat := ⟨Prod.fst, fun a => (0, a.2)⟩

def snd : Part (Nat × Nat) Nat := ⟨Prod.snd, fun a => (a.1, 0)⟩

def pair (values : List Nat) : Nat × Nat := (values.headD 0, values.tail.headD 0)

/-- Two vectors: one grows out of its buffer and is moved to the other, which lends it an
element, gets one made from a part of its own while it has room, and lends a part to the
first, which has none; then both are dropped. -/
def lending : List (Call (Nat × Nat) Nat) :=
  [.make 0, .pushBack 0 (.value (5, 1)), .pushBack 0 (.value (6, 2)), .moveMake 1 0,
    .pushBack 0 (.element 1 1), .popBack 1,
    .emplaceBack 1 pair [⟨.element 1 0 fst, true⟩, ⟨.element 0 0 snd, false⟩],
    .emplaceBack 0 pair [⟨.element 1 1 fst, false⟩, ⟨.value 7, true⟩],
    .erase 1 0 1, .drop 0, .drop 1]

theorem correct_iff_not_aliased_lending :
    ∃ st, (machine 1 id).exec State.init lending = some st ∧
      ListRun id (fun _ => none) lending (st.visible 1) ∧ Sound 1 st ∧
      ∀ call : Call (Nat × Nat) Nat,
        Allowed 1 id st call → (Correct 1 id st call ↔ ¬ Aliased st call) :=
  correct_iff_not_aliased (by decide) id (by decide +kernel)

/-- `v.push_back(v[0])` for a vector that is full. -/
def ownElement : List (Call Nat Nat) :=
  [.make 0, .pushBack 0 (.value 5), .pushBack 0 (.element 0 0)]

/-- Every call is allowed, and the lists end with `[5, 5]`, but the vector reads an element
that it has destroyed. -/
theorem pushBack_ownElement :
    (machine 1 id).Within (Allowed 1 id) State.init ownElement ∧
      (∃ lists, ListRun id (fun _ => none) ownElement lists ∧ lists 0 = some [5, 5]) ∧
      ¬ ∃ st, (machine 1 id).exec State.init ownElement = some st ∧
        ListRun id (fun _ => none) ownElement (st.visible 1) := by
  refine ⟨by decide +kernel,
    ⟨_, ⟨_, ⟨false, rfl⟩, _, ⟨false, rfl⟩, _, ⟨false, rfl⟩, rfl⟩, rfl⟩, ?_⟩
  rintro ⟨st, hexec, -⟩
  have hnone : ((machine 1 id).exec State.init ownElement).isNone = true := by decide +kernel
  rw [hexec] at hnone
  exact absurd hnone Bool.false_ne_true

/-- `v.emplace_back(v[0].first, 7)` reads a part of such an element. -/
example : (machine 1 id).exec State.init
    [.make 0, .pushBack 0 (.value (5, 1)),
      .emplaceBack 0 pair [⟨.element 0 0 fst, false⟩, ⟨.value 7, true⟩]] = none :=
  Option.isNone_iff_eq_none.1 (by decide +kernel)

end Runs

end SmallVector
end Cotamer
end Psets
