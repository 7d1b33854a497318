/-
Memory as a list of extents.

An extent is a run of cells.  A list of extents is worked off from the front, some cells
at a time: the extents that are done go, and the one in which the work stops is cut.
What is left covers the cells that have not been worked on, in their order.
-/
import Mathlib.Algebra.GroupWithZero.Nat
import Mathlib.Data.List.Basic
import Mathlib.Data.List.Range
import Mathlib.Logic.Function.Basic

namespace Psets
namespace Containers

/-- The cells from `base` on. -/
structure Extent where
  base : Nat
  len : Nat
deriving DecidableEq, Repr

namespace Extent

def cells (e : Extent) : List Nat := List.range' e.base e.len

/-- Without its first `r` cells. -/
def cut (e : Extent) (r : Nat) : Extent := ⟨e.base + r, e.len - r⟩

@[simp] theorem length_cells (e : Extent) : e.cells.length = e.len := List.length_range'

theorem cells_cut {e : Extent} {r : Nat} : (e.cut r).cells = e.cells.drop r := by
  rw [cells, cells, cut, List.drop_range', Nat.mul_one]

end Extent

/-- The cells of all extents, in order. -/
def cells (es : List Extent) : List Nat := es.flatMap Extent.cells

/-- How many cells there are; a cell of two extents counts twice. -/
def extentSize (es : List Extent) : Nat := (es.map Extent.len).sum

/-- Work off `r` cells. -/
def advance : List Extent → Nat → List Extent
  | [], _ => []
  | e :: es, r => if e.len ≤ r then advance es (r - e.len) else e.cut r :: es

@[simp] theorem cells_nil : cells [] = [] := rfl

@[simp] theorem cells_cons (e : Extent) (es : List Extent) :
    cells (e :: es) = e.cells ++ cells es := rfl

@[simp] theorem extentSize_nil : extentSize [] = 0 := rfl

@[simp] theorem extentSize_cons (e : Extent) (es : List Extent) :
    extentSize (e :: es) = e.len + extentSize es := List.sum_cons

theorem length_cells (es : List Extent) : (cells es).length = extentSize es := by
  induction es with
  | nil => rfl
  | cons e es ih => rw [cells_cons, List.length_append, Extent.length_cells, ih, extentSize_cons]

/-- The cells that are left. -/
theorem cells_advance (es : List Extent) (r : Nat) : cells (advance es r) = (cells es).drop r := by
  induction es generalizing r with
  | nil => rw [advance, cells_nil, List.drop_nil]
  | cons e es ih =>
    unfold advance
    split
    · rename_i hle
      have hdone : e.cells.drop r = [] := List.drop_eq_nil_of_le (by rwa [Extent.length_cells])
      rw [ih, cells_cons, List.drop_append, Extent.length_cells, hdone, List.nil_append]
    · rename_i hlt
      rw [cells_cons, cells_cons, Extent.cells_cut, List.drop_append, Extent.length_cells,
        Nat.sub_eq_zero_of_le (by omega), List.drop_zero]

theorem extentSize_advance (es : List Extent) (r : Nat) :
    extentSize (advance es r) = extentSize es - r := by
  rw [← length_cells, cells_advance, List.length_drop, length_cells]

/-- Nothing is left when all cells have been worked on. -/
theorem advance_eq_nil_iff {es : List Extent} {r : Nat} :
    advance es r = [] ↔ extentSize es ≤ r := by
  induction es generalizing r with
  | nil => simp [advance]
  | cons e es ih =>
    unfold advance
    split
    · rw [ih, extentSize_cons]
      omega
    · simp only [List.cons_ne_nil, false_iff, extentSize_cons]
      omega

/-- What is left begins with a cell. -/
theorem advance_head {es rest : List Extent} {e : Extent} {r : Nat}
    (h : advance es r = e :: rest) : 0 < e.len := by
  induction es generalizing r with
  | nil => cases h
  | cons x es ih =>
    unfold advance at h
    split at h
    · exact ih h
    · obtain ⟨rfl, _⟩ := List.cons.inj h
      show 0 < x.len - r
      omega

/-! ## Filling cells -/

section Store

variable {κ β : Type} [DecidableEq κ]

/-- Write values to cells, in order. -/
def store (mem : κ → β) : List κ → List β → κ → β
  | k :: ks, b :: bs => store (Function.update mem k b) ks bs
  | _, _ => mem

@[simp] theorem store_nil (mem : κ → β) (bs : List β) : store mem [] bs = mem := by
  cases bs <;> rfl

theorem store_append {mem : κ → β} {ks ks' : List κ} {bs bs' : List β}
    (h : ks.length = bs.length) :
    store mem (ks ++ ks') (bs ++ bs') = store (store mem ks bs) ks' bs' := by
  induction ks generalizing mem bs with
  | nil =>
    obtain rfl : bs = [] := List.length_eq_zero_iff.1 h.symm
    rfl
  | cons k ks ih =>
    cases bs with
    | nil => simp at h
    | cons b bs => exact ih (Nat.succ.inj h)

/-- No other cell changes. -/
theorem store_of_notMem {mem : κ → β} {ks : List κ} {bs : List β} {a : κ} (h : a ∉ ks) :
    store mem ks bs a = mem a := by
  induction ks generalizing mem bs with
  | nil => rw [store_nil]
  | cons k ks ih =>
    cases bs with
    | nil => rfl
    | cons b bs =>
      rw [List.mem_cons, not_or] at h
      rw [store, ih h.2, Function.update_of_ne h.1]

end Store

end Containers
end Psets
