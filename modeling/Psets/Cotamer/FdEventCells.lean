/-
The cells of an `fd_event_set`: where it stores its links.

A link is stored in the set, in the record of a file, in a slot or in a variable of a
caller.  An assignment changes one cell.
-/
import Psets.Containers.Linked
import Psets.Cotamer.WatchMap

namespace Psets
namespace Cotamer
namespace FdEvents

/-- Where a link is stored. -/
inductive Cell where
  | free
  | whead (ufd : Nat)
  | list (i : Nat)
  | wlink (wix : Nat)
deriving DecidableEq

/-- The lists a slot can be on. -/
inductive Place where
  | free
  | watch (ufd : Nat)
  | list (i : Nat)
deriving DecidableEq

def Place.root : Place → Cell
  | .free => .free
  | .watch ufd => .whead ufd
  | .list i => .list i

theorem Place.watch_ne (ufd : Nat) : Place.watch ufd ≠ .free := nofun

theorem Place.list_ne (i : Nat) : Place.list i ≠ .free := nofun

def slotCells : Cells Place Nat Cell where
  root := Place.root
  node := .wlink
  stop := 0
  root_injective p q h := by
    cases p <;> cases q <;> simp_all [Place.root]
  node_injective _ _ h := Cell.wlink.inj h
  root_ne_node p l := by
    cases p <;> exact nofun

namespace FdEventSet

variable {s : FdEventSet}

/-! ## Records -/

def fdr (s : FdEventSet) (ufd : Nat) : Fdrec := (s.fdr? ufd).getD {}

def wlink (s : FdEventSet) (wix : Nat) : Nat := ((s.wr? wix).map Watchrec.wlink).getD 0

/-- The watch in a slot. -/
def watch? (s : FdEventSet) (wix : Nat) : Option Watch :=
  (s.wr? wix).bind fun wr => wr.ev.map fun ev => ⟨ev, wr.mask⟩

theorem fdr_of_fdr? {ufd : Nat} {r : Fdrec} (h : s.fdr? ufd = some r) : s.fdr ufd = r := by
  rw [fdr, h, Option.getD_some]

/-- A record with something in it exists. -/
theorem fdr?_of_ne {ufd : Nat} (h : s.fdr ufd ≠ {}) : s.fdr? ufd = some (s.fdr ufd) := by
  unfold fdr at h ⊢
  cases hr : s.fdr? ufd with
  | none =>
    rw [hr] at h
    exact absurd rfl h
  | some r => rfl

theorem fdr?_of_body {ufd b : Nat} (h : (s.fdr ufd).body = some b) :
    s.fdr? ufd = some (s.fdr ufd) := by
  refine fdr?_of_ne fun he => ?_
  rw [he] at h
  cases h

theorem fdr?_eq_some_iff {ufd : Nat} : (∃ r, s.fdr? ufd = some r) ↔ ufd < s.fdrs.length := by
  rw [← Option.isSome_iff_exists, fdr?, isSome_getElem?]

theorem wr?_eq_some_iff {wix : Nat} :
    (∃ wr, s.wr? wix = some wr) ↔ 0 < wix ∧ wix ≤ s.ws.length := by
  cases wix with
  | zero => exact iff_of_false nofun (fun h => absurd h.1 (Nat.lt_irrefl 0))
  | succ i =>
    rw [← Option.isSome_iff_exists, wr?, isSome_getElem?]
    exact ⟨fun h => ⟨Nat.succ_pos i, h⟩, fun h => h.2⟩

theorem fdr?_modFdr {ufd : Nat} {g : Fdrec → Fdrec} (u : Nat) :
    (s.modFdr ufd g).fdr? u = if u = ufd then (s.fdr? u).map g else s.fdr? u := by
  simp only [modFdr, fdr?, List.getElem?_modify]
  by_cases h : u = ufd
  · simp [h]
  · simp [h, Ne.symm h]

theorem fdr_modFdr {ufd : Nat} {g : Fdrec → Fdrec} (h : ufd < s.fdrs.length) (u : Nat) :
    (s.modFdr ufd g).fdr u = if u = ufd then g (s.fdr u) else s.fdr u := by
  obtain ⟨r, hr⟩ := fdr?_eq_some_iff.2 h
  rw [fdr, fdr?_modFdr]
  by_cases hu : u = ufd
  · rw [if_pos hu, if_pos hu, hu, hr, fdr_of_fdr? hr]
    rfl
  · rw [if_neg hu, if_neg hu, fdr]

theorem wr?_modWr {wix : Nat} {g : Watchrec → Watchrec} (l : Nat) :
    (s.modWr wix g).wr? l = if l = wix then (s.wr? l).map g else s.wr? l := by
  cases wix with
  | zero =>
    cases l with
    | zero => rfl
    | succ i => rfl
  | succ j =>
    cases l with
    | zero => rfl
    | succ i =>
      simp only [modWr, wr?, List.getElem?_modify]
      by_cases h : i = j
      · simp [h]
      · simp [h, Ne.symm h]

@[simp] theorem modFdr_length {ufd : Nat} {g : Fdrec → Fdrec} :
    (s.modFdr ufd g).fdrs.length = s.fdrs.length := List.length_modify ..

@[simp] theorem modWr_length {wix : Nat} {g : Watchrec → Watchrec} :
    (s.modWr wix g).ws.length = s.ws.length := by
  cases wix with
  | zero => rfl
  | succ i => exact List.length_modify ..

@[simp] theorem modWr_fdrs {wix : Nat} {g : Watchrec → Watchrec} :
    (s.modWr wix g).fdrs = s.fdrs := by
  cases wix <;> rfl

@[simp] theorem modWr_freeWlink {wix : Nat} {g : Watchrec → Watchrec} :
    (s.modWr wix g).freeWlink = s.freeWlink := by
  cases wix <;> rfl

@[simp] theorem modWr_updateLink {wix : Nat} {g : Watchrec → Watchrec} :
    (s.modWr wix g).updateLink = s.updateLink := by
  cases wix <;> rfl

theorem fdr_congr {t : FdEventSet} (h : t.fdrs = s.fdrs) : t.fdr = s.fdr := by
  funext u
  rw [fdr, fdr, fdr?, fdr?, h]

theorem wr?_congr {t : FdEventSet} (h : t.ws = s.ws) : t.wr? = s.wr? := by
  funext l
  cases l with
  | zero => rfl
  | succ i => rw [wr?, wr?, h]

theorem wlink_congr {t : FdEventSet} (h : t.ws = s.ws) : t.wlink = s.wlink := by
  funext l
  rw [wlink, wlink, wr?_congr h]

theorem watch?_congr {t : FdEventSet} (h : t.ws = s.ws) : t.watch? = s.watch? := by
  funext l
  rw [watch?, watch?, wr?_congr h]

theorem wlink_modWr {wix : Nat} {g : Watchrec → Watchrec} {wr : Watchrec}
    (h : s.wr? wix = some wr) :
    (s.modWr wix g).wlink = Function.update s.wlink wix (g wr).wlink := by
  funext l
  rw [wlink, wr?_modWr]
  by_cases hl : l = wix
  · rw [hl, Function.update_self, if_pos rfl, h]
    rfl
  · rw [Function.update_of_ne hl, if_neg hl, wlink]

theorem watch?_modWr_of_ne {wix l : Nat} {g : Watchrec → Watchrec} (h : l ≠ wix) :
    (s.modWr wix g).watch? l = s.watch? l := by
  rw [watch?, watch?, wr?_modWr, if_neg h]

/-- A link of the slot changes, its watch does not. -/
theorem watch?_modWr_wlink {wix v : Nat} :
    (s.modWr wix fun r => { r with wlink := v }).watch? = s.watch? := by
  funext l
  by_cases hl : l = wix
  · rw [watch?, watch?, wr?_modWr, if_pos hl]
    cases s.wr? l <;> rfl
  · exact watch?_modWr_of_ne hl

/-! ## The cells -/

def mem (s : FdEventSet) (heads : Nat → Nat) : Cell → Nat
  | .free => s.freeWlink
  | .whead ufd => (s.fdr ufd).whead
  | .list i => heads i
  | .wlink wix => s.wlink wix

variable {heads : Nat → Nat}

theorem mem_congr {t : FdEventSet} (hfree : t.freeWlink = s.freeWlink)
    (hfdr : ∀ u, (t.fdr u).whead = (s.fdr u).whead) (hws : t.ws = s.ws) :
    t.mem heads = s.mem heads := by
  funext c
  cases c with
  | free => exact hfree
  | whead u => exact hfdr u
  | list i => rfl
  | wlink l => exact congrFun (wlink_congr hws) l

theorem mem_modWr {wix : Nat} {g : Watchrec → Watchrec} {wr : Watchrec}
    (h : s.wr? wix = some wr) :
    (s.modWr wix g).mem heads = Function.update (s.mem heads) (.wlink wix) (g wr).wlink := by
  funext c
  cases c with
  | free => exact modWr_freeWlink
  | whead u => exact congrArg Fdrec.whead (congrFun (fdr_congr modWr_fdrs) u)
  | list i => rfl
  | wlink l =>
    rw [mem, wlink_modWr h]
    by_cases hl : l = wix
    · rw [hl, Function.update_self, Function.update_self]
    · rw [Function.update_of_ne hl, Function.update_of_ne (fun he => hl (Cell.wlink.inj he)), mem]

theorem mem_modFdr {ufd : Nat} {g : Fdrec → Fdrec} (h : ufd < s.fdrs.length) :
    (s.modFdr ufd g).mem heads =
      Function.update (s.mem heads) (.whead ufd) (g (s.fdr ufd)).whead := by
  funext c
  cases c with
  | whead u =>
    rw [mem, fdr_modFdr h]
    by_cases hu : u = ufd
    · rw [if_pos hu, hu, Function.update_self]
    · rw [if_neg hu, Function.update_of_ne (fun he => hu (Cell.whead.inj he)), mem]
  | free => rfl
  | list i => rfl
  | wlink l => rfl

theorem mem_setFree {v : Nat} :
    { s with freeWlink := v }.mem heads = Function.update (s.mem heads) .free v := by
  funext c
  cases c with
  | free => rfl
  | whead u => rfl
  | list i => rfl
  | wlink l => rfl

theorem mem_setHead {i v : Nat} :
    s.mem (Function.update heads i v) = Function.update (s.mem heads) (.list i) v := by
  funext c
  cases c with
  | list j =>
    rw [mem]
    by_cases hj : j = i
    · rw [hj, Function.update_self, Function.update_self]
    · rw [Function.update_of_ne hj, Function.update_of_ne (fun he => hj (Cell.list.inj he)), mem]
  | free => rfl
  | whead u => rfl
  | wlink l => rfl

end FdEventSet

end FdEvents
end Cotamer
end Psets
