/-
Objects in storage, and their lifetimes.

Storage is divided into regions of cells.  An object is constructed in an empty cell of an
allocated region, keeps its identity while values are assigned to it, and ends when it is
destroyed.  What has no defined behaviour has no result here: reading or destroying where
no object lives, constructing on top of an object, or giving back a region with objects
in it.  Storage counts the objects it has seen and lists those that were destroyed, and
every value of the type carries the proof that the two agree.
-/
import Mathlib.Data.List.Nodup
import Mathlib.Data.List.Range
import Mathlib.Logic.Function.Basic

namespace Psets
namespace Containers

structure Object (α : Type) where
  id : Nat
  value : α

/-- Regions of cells, the number of objects constructed so far, and those destroyed.
`size r` is zero where `r` is not allocated. -/
structure Cells (ρ α : Type) where
  size : ρ → Nat
  cells : ρ → Nat → Option (Object α)
  born : Nat
  dead : List Nat

namespace Cells

variable {ρ α : Type} {s : Cells ρ α} {r r' : ρ} {i j n : Nat} {o : Object α} {a : α}

/-- An object is in one place, and was not destroyed; the objects that were born are the
dead ones and the living ones. -/
structure Valid (s : Cells ρ α) : Prop where
  inside : ∀ {r i o}, s.cells r i = some o → i < s.size r
  unique : ∀ {r i o r' i' o'}, s.cells r i = some o → s.cells r' i' = some o' →
    o.id = o'.id → r = r' ∧ i = i'
  alive : ∀ {r i o}, s.cells r i = some o → o.id ∉ s.dead
  ledger : ∀ id, id < s.born ↔ id ∈ s.dead ∨ ∃ r i o, s.cells r i = some o ∧ o.id = id
  nodup : s.dead.Nodup

theorem Valid.lt_born (h : s.Valid) (ho : s.cells r i = some o) : o.id < s.born :=
  (h.ledger o.id).2 (.inr ⟨r, i, o, ho, rfl⟩)

theorem Valid.none_of_size_le (h : s.Valid) (hi : s.size r ≤ i) : s.cells r i = none := by
  cases hc : s.cells r i with
  | none => rfl
  | some o => exact absurd (h.inside hc) (Nat.not_lt.2 hi)

/-- Nothing is allocated, and no object has been constructed. -/
def empty : Cells ρ α := ⟨fun _ => 0, fun _ _ => none, 0, []⟩

theorem valid_empty : (empty : Cells ρ α).Valid where
  inside h := absurd h.symm (Option.some_ne_none _)
  unique h := absurd h.symm (Option.some_ne_none _)
  alive h := absurd h.symm (Option.some_ne_none _)
  ledger id := by
    constructor
    · intro h
      exact absurd h (Nat.not_lt_zero id)
    · rintro (h | ⟨r, i, o, h, -⟩)
      · exact absurd h List.not_mem_nil
      · exact absurd h.symm (Option.some_ne_none o)
  nodup := List.nodup_nil

variable [DecidableEq ρ]

/-- Change one cell. -/
def set (s : Cells ρ α) (r : ρ) (i : Nat) (c : Option (Object α)) : Cells ρ α :=
  { s with cells := fun r' j => if r' = r ∧ j = i then c else s.cells r' j }

theorem set_self {c : Option (Object α)} : (s.set r i c).cells r i = c := if_pos ⟨rfl, rfl⟩

theorem set_of_ne {c : Option (Object α)} (h : ¬ (r' = r ∧ j = i)) :
    (s.set r i c).cells r' j = s.cells r' j := if_neg h

/-- What a changed cell holds is new, or it is what the cell held before. -/
theorem set_cases {c : Option (Object α)} (h : (s.set r i c).cells r' j = some o) :
    (r' = r ∧ j = i ∧ c = some o) ∨ (¬ (r' = r ∧ j = i) ∧ s.cells r' j = some o) := by
  by_cases hc : r' = r ∧ j = i
  · obtain ⟨rfl, rfl⟩ := hc
    rw [set_self] at h
    exact .inl ⟨rfl, rfl, h⟩
  · rw [set_of_ne hc] at h
    exact .inr ⟨hc, h⟩

def resize (s : Cells ρ α) (r : ρ) (n : Nat) : Cells ρ α :=
  { s with size := Function.update s.size r n }

/-- A region without objects may have any size. -/
theorem Valid.resize (h : s.Valid) (hr : ∀ i, s.cells r i = none) (n : Nat) :
    (s.resize r n).Valid := by
  refine ⟨fun {r' i o} ho => ?_, h.unique, h.alive, h.ledger, h.nodup⟩
  have ho' : s.cells r' i = some o := ho
  by_cases hr' : r' = r
  · rw [hr', hr i] at ho'
    exact absurd ho'.symm (Option.some_ne_none o)
  · show i < Function.update s.size r n r'
    rw [Function.update_of_ne hr']
    exact h.inside ho'

/-- A new object. -/
def bear (s : Cells ρ α) (r : ρ) (i : Nat) (a : α) : Cells ρ α :=
  { s.set r i (some ⟨s.born, a⟩) with born := s.born + 1 }

theorem Valid.bear (h : s.Valid) (hi : i < s.size r) (hnone : s.cells r i = none) (a : α) :
    (s.bear r i a).Valid where
  inside ho := by
    rcases set_cases ho with ⟨rfl, rfl, -⟩ | ⟨-, ho⟩
    · exact hi
    · exact h.inside ho
  unique h₁ h₂ hid := by
    rcases set_cases h₁ with ⟨rfl, rfl, ho₁⟩ | ⟨-, ho₁⟩
    · rcases set_cases h₂ with ⟨rfl, rfl, -⟩ | ⟨-, ho₂⟩
      · exact ⟨rfl, rfl⟩
      · have hlt := h.lt_born ho₂
        rw [← hid, ← Option.some.inj ho₁] at hlt
        exact absurd hlt (Nat.lt_irrefl _)
    · rcases set_cases h₂ with ⟨rfl, rfl, ho₂⟩ | ⟨-, ho₂⟩
      · have hlt := h.lt_born ho₁
        rw [hid, ← Option.some.inj ho₂] at hlt
        exact absurd hlt (Nat.lt_irrefl _)
      · exact h.unique ho₁ ho₂ hid
  alive ho hdead := by
    rcases set_cases ho with ⟨-, -, hnew⟩ | ⟨-, hold⟩
    · have hlt := (h.ledger _).2 (.inl hdead)
      rw [← Option.some.inj hnew] at hlt
      exact absurd hlt (Nat.lt_irrefl _)
    · exact h.alive hold hdead
  ledger id := by
    constructor
    · intro hid
      by_cases hnew : id = s.born
      · exact .inr ⟨r, i, _, set_self, hnew.symm⟩
      · have hlt : id < s.born + 1 := hid
        rcases (h.ledger id).1 (by omega) with hdead | ⟨r', j, o, ho, hoid⟩
        · exact .inl hdead
        · refine .inr ⟨r', j, o, (set_of_ne ?_).trans ho, hoid⟩
          rintro ⟨rfl, rfl⟩
          rw [hnone] at ho
          exact absurd ho.symm (Option.some_ne_none o)
    · rintro (hdead | ⟨r', j, o, ho, hoid⟩)
      · exact Nat.lt_succ_of_lt ((h.ledger id).2 (.inl hdead))
      · rcases set_cases ho with ⟨-, -, ho⟩ | ⟨-, ho⟩
        · rw [← hoid, ← Option.some.inj ho]
          exact Nat.lt_succ_self s.born
        · rw [← hoid]
          exact Nat.lt_succ_of_lt (h.lt_born ho)
  nodup := h.nodup

/-- The end of the object in a cell. -/
def bury (s : Cells ρ α) (r : ρ) (i : Nat) (o : Object α) : Cells ρ α :=
  { s.set r i none with dead := o.id :: s.dead }

theorem Valid.bury (h : s.Valid) (ho : s.cells r i = some o) : (s.bury r i o).Valid := by
  have hleft : ∀ {r' j o'}, (s.bury r i o).cells r' j = some o' →
      ¬ (r' = r ∧ j = i) ∧ s.cells r' j = some o' := by
    intro r' j o' ho'
    rcases set_cases ho' with ⟨-, -, hnone⟩ | hother
    · exact absurd hnone.symm (Option.some_ne_none o')
    · exact hother
  refine ⟨fun h₁ => h.inside (hleft h₁).2,
    fun h₁ h₂ hid => h.unique (hleft h₁).2 (hleft h₂).2 hid, fun {r' j o'} h₁ hdead => ?_,
    fun id => ?_, List.nodup_cons.2 ⟨h.alive ho, h.nodup⟩⟩
  · rcases List.mem_cons.1 hdead with hid | hdead
    · exact (hleft h₁).1 (h.unique (hleft h₁).2 ho hid)
    · exact h.alive (hleft h₁).2 hdead
  · rw [show (s.bury r i o).born = s.born from rfl, h.ledger id]
    constructor
    · rintro (hdead | ⟨r', j, o', ho', hid⟩)
      · exact .inl (List.mem_cons_of_mem _ hdead)
      · by_cases hc : r' = r ∧ j = i
        · rw [hc.1, hc.2, ho] at ho'
          rw [← hid, ← Option.some.inj ho']
          exact .inl List.mem_cons_self
        · exact .inr ⟨r', j, o', (set_of_ne hc).trans ho', hid⟩
    · rintro (hdead | ⟨r', j, o', ho', hid⟩)
      · rcases List.mem_cons.1 hdead with rfl | hdead
        · exact .inr ⟨r, i, o, ho, rfl⟩
        · exact .inl hdead
      · exact .inr ⟨r', j, o', (hleft ho').2, hid⟩

/-- A new value for the object in a cell. -/
theorem Valid.assign (h : s.Valid) (ho : s.cells r i = some o) (a : α) :
    (s.set r i (some { o with value := a })).Valid := by
  have hsame : ∀ {r' j o'}, (s.set r i (some { o with value := a })).cells r' j = some o' →
      ∃ o'', s.cells r' j = some o'' ∧ o''.id = o'.id := by
    intro r' j o' ho'
    rcases set_cases ho' with ⟨rfl, rfl, hnew⟩ | ⟨-, hother⟩
    · exact ⟨o, ho, by rw [← Option.some.inj hnew]⟩
    · exact ⟨o', hother, rfl⟩
  refine ⟨fun h₁ => ?_, fun h₁ h₂ hid => ?_, fun h₁ => ?_, fun id => ?_, h.nodup⟩
  · obtain ⟨o₁, ho₁, -⟩ := hsame h₁
    exact h.inside ho₁
  · obtain ⟨o₁, ho₁, hid₁⟩ := hsame h₁
    obtain ⟨o₂, ho₂, hid₂⟩ := hsame h₂
    exact h.unique ho₁ ho₂ (hid₁.trans (hid.trans hid₂.symm))
  · obtain ⟨o₁, ho₁, hid₁⟩ := hsame h₁
    rw [← hid₁]
    exact h.alive ho₁
  · refine (h.ledger id).trans (or_congr_right ?_)
    constructor
    · rintro ⟨r', j, o', ho', hid⟩
      by_cases hc : r' = r ∧ j = i
      · obtain ⟨rfl, rfl⟩ := hc
        rw [ho] at ho'
        refine ⟨r', j, _, set_self, ?_⟩
        rw [← hid, ← Option.some.inj ho']
      · exact ⟨r', j, o', (set_of_ne hc).trans ho', hid⟩
    · rintro ⟨r', j, o', ho', hid⟩
      obtain ⟨o₁, ho₁, hid₁⟩ := hsame ho'
      exact ⟨r', j, o₁, ho₁, hid₁.trans hid⟩

end Cells

/-! ## Storage -/

structure Storage (ρ α : Type) extends Cells ρ α where
  valid : toCells.Valid

namespace Storage

variable {ρ α : Type} {s s' : Storage ρ α} {r r' src dst : ρ} {i j n : Nat} {a b : α}
  {l : List α}

def empty : Storage ρ α := ⟨.empty, Cells.valid_empty⟩

/-- The value of the object in a cell. -/
def read (s : Storage ρ α) (r : ρ) (i : Nat) : Option α := (s.cells r i).map Object.value

theorem cells_eq_none (h : s.read r i = none) : s.cells r i = none := Option.map_eq_none_iff.1 h

theorem read_of_size_le (h : s.size r ≤ i) : s.read r i = none := by
  rw [read, s.valid.none_of_size_le h, Option.map_none]

/-- An object that was constructed was destroyed once, or lives in one place. -/
theorem destroyed_once (s : Storage ρ α) {id : Nat} (h : id < s.born) :
    (s.dead.count id = 1 ∧ ∀ r i o, s.cells r i = some o → o.id ≠ id) ∨
      (s.dead.count id = 0 ∧ ∃ r i o, s.cells r i = some o ∧ o.id = id) := by
  by_cases hdead : id ∈ s.dead
  · left
    refine ⟨List.count_eq_one_of_mem s.valid.nodup hdead, fun r i o ho hid => ?_⟩
    rw [← hid] at hdead
    exact s.valid.alive ho hdead
  · right
    refine ⟨List.count_eq_zero.2 hdead, ?_⟩
    rcases (s.valid.ledger id).1 h with hmem | hlive
    · exact absurd hmem hdead
    · exact hlive

/-- When no object lives any more, each was destroyed once. -/
theorem dead_perm (s : Storage ρ α) (h : ∀ r i, s.cells r i = none) :
    s.dead.Perm (List.range s.born) := by
  refine (List.perm_ext_iff_of_nodup s.valid.nodup List.nodup_range).2 fun id => ?_
  rw [List.mem_range, s.valid.ledger id]
  constructor
  · exact Or.inl
  · rintro (hdead | ⟨r, i, o, ho, -⟩)
    · exact hdead
    · rw [h r i] at ho
      exact absurd ho.symm (Option.some_ne_none o)

/-- Every cell of the region is empty. -/
def Vacant (s : Storage ρ α) (r : ρ) : Prop := ∀ i < s.size r, (s.cells r i).isNone = true

instance : Decidable (s.Vacant r) := inferInstanceAs (Decidable (∀ i < s.size r, _))

theorem Vacant.cells (h : s.Vacant r) (i : Nat) : s.cells r i = none := by
  by_cases hi : i < s.size r
  · exact Option.isNone_iff_eq_none.1 (h i hi)
  · exact s.valid.none_of_size_le (Nat.not_lt.1 hi)

variable [DecidableEq ρ]

def allocate (s : Storage ρ α) (r : ρ) (n : Nat) : Option (Storage ρ α) :=
  if h : s.size r = 0 then
    some ⟨s.resize r n, s.valid.resize (fun _ => s.valid.none_of_size_le (by omega)) n⟩
  else none

/-- Give back a region in which no object lives. -/
def deallocate (s : Storage ρ α) (r : ρ) (n : Nat) : Option (Storage ρ α) :=
  if h : s.size r = n ∧ s.Vacant r then some ⟨s.resize r 0, s.valid.resize h.2.cells 0⟩ else none

/-- `std::construct_at` -/
def construct (s : Storage ρ α) (r : ρ) (i : Nat) (a : α) : Option (Storage ρ α) :=
  if h : i < s.size r then
    match hc : s.cells r i with
    | none => some ⟨s.bear r i a, s.valid.bear h hc a⟩
    | some _ => none
  else none

/-- `std::destroy_at` -/
def destroy (s : Storage ρ α) (r : ρ) (i : Nat) : Option (Storage ρ α) :=
  match hc : s.cells r i with
  | none => none
  | some o => some ⟨s.bury r i o, s.valid.bury hc⟩

/-- Assign a value to the object in a cell. -/
def assign (s : Storage ρ α) (r : ρ) (i : Nat) (a : α) : Option (Storage ρ α) :=
  match hc : s.cells r i with
  | none => none
  | some o => some ⟨s.set r i (some { o with value := a }), s.valid.assign hc a⟩

/-! ## What the operations change -/

theorem read_set {c : Option (Object α)} {s : Cells ρ α} :
    ((s.set r i c).cells r' j).map Object.value =
      if r' = r ∧ j = i then c.map Object.value else (s.cells r' j).map Object.value := by
  by_cases hc : r' = r ∧ j = i
  · rw [if_pos hc, hc.1, hc.2, Cells.set_self]
  · rw [if_neg hc, Cells.set_of_ne hc]

theorem allocate_eq (h : s.size r = 0) (n : Nat) :
    ∃ s', s.allocate r n = some s' ∧ s'.size = Function.update s.size r n ∧
      s'.read = s.read :=
  ⟨_, dif_pos h, rfl, rfl⟩

theorem deallocate_eq (h : s.size r = n) (hr : ∀ i, s.read r i = none) :
    ∃ s', s.deallocate r n = some s' ∧ s'.size = Function.update s.size r 0 ∧
      s'.read = s.read := by
  have hvacant : s.Vacant r := fun i _ => by
    rw [cells_eq_none (hr i)]
    rfl
  exact ⟨_, dif_pos ⟨h, hvacant⟩, rfl, rfl⟩

theorem construct_eq (h : i < s.size r) (hr : s.read r i = none) (a : α) :
    ∃ s', s.construct r i a = some s' ∧ s'.size = s.size ∧
      ∀ r' j, s'.read r' j = if r' = r ∧ j = i then some a else s.read r' j := by
  have hnone := cells_eq_none hr
  refine ⟨⟨s.bear r i a, s.valid.bear h hnone a⟩, ?_, rfl, fun r' j => read_set⟩
  rw [construct, dif_pos h]
  split
  · rfl
  · rename_i o ho
    rw [hnone] at ho
    exact absurd ho.symm (Option.some_ne_none o)

theorem destroy_eq (hr : s.read r i = some a) :
    ∃ s', s.destroy r i = some s' ∧ s'.size = s.size ∧
      ∀ r' j, s'.read r' j = if r' = r ∧ j = i then none else s.read r' j := by
  obtain ⟨o, ho, -⟩ := Option.map_eq_some_iff.1 hr
  refine ⟨⟨s.bury r i o, s.valid.bury ho⟩, ?_, rfl, fun r' j => read_set⟩
  rw [destroy]
  split
  · rename_i hnone
    rw [ho] at hnone
    exact absurd hnone (Option.some_ne_none o)
  · rename_i o' ho'
    have hsame : o = o' := Option.some.inj (ho.symm.trans ho')
    subst hsame
    rfl

theorem assign_eq (hr : s.read r i = some b) (a : α) :
    ∃ s', s.assign r i a = some s' ∧ s'.size = s.size ∧
      ∀ r' j, s'.read r' j = if r' = r ∧ j = i then some a else s.read r' j := by
  obtain ⟨o, ho, -⟩ := Option.map_eq_some_iff.1 hr
  refine ⟨⟨s.set r i (some { o with value := a }), s.valid.assign ho a⟩, ?_, rfl,
    fun r' j => read_set⟩
  rw [assign]
  split
  · rename_i hnone
    rw [ho] at hnone
    exact absurd hnone (Option.some_ne_none o)
  · rename_i o' ho'
    have hsame : o = o' := Option.some.inj (ho.symm.trans ho')
    subst hsame
    rfl

end Storage

end Containers
end Psets
