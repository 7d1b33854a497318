/-
Singly linked lists that share their cells.

A link names an element, and the element has a cell that holds the next link.  Code that
edits such lists keeps a pointer to the cell it will write next: for an empty list that
is the head, otherwise the cell of the last element.  Lists that have no element in
common have no such cell in common, so an edit of one leaves the others alone.
-/
import Mathlib.Data.List.Nodup
import Mathlib.Logic.Function.Basic

namespace Psets

/-- The cells of a family of lists: `root i` holds the first link of the list `i` and
`node l` the successor of `l`; `stop` ends a list. -/
structure Cells (ι α γ : Type) where
  root : ι → γ
  node : α → γ
  stop : α
  root_injective : Function.Injective root
  node_injective : Function.Injective node
  root_ne_node : ∀ i l, root i ≠ node l

namespace Cells

variable {ι α γ : Type} (C : Cells ι α γ)

/-- The list `ls` starts with the link `v`, and its last element leads to `stop`. -/
def Linked (mem : γ → α) : α → List α → Prop
  | v, [] => v = C.stop
  | v, l :: ls => v = l ∧ l ≠ C.stop ∧ Linked mem (mem (C.node l)) ls

/-- The cell `c` leads to the elements of `ls`, whatever comes behind them. -/
def Leads (mem : γ → α) : γ → List α → Prop
  | _, [] => True
  | c, l :: ls => mem c = l ∧ l ≠ C.stop ∧ Leads mem (C.node l) ls

/-- The cell behind the list that starts in the cell `c`. -/
def last : γ → List α → γ
  | c, [] => c
  | _, l :: ls => last (C.node l) ls

variable {C} {mem mem' : γ → α} {c : γ} {v l : α} {xs ys ls : List α}

/-- The links determine the list. -/
theorem Linked.unique (hx : C.Linked mem v xs) (hy : C.Linked mem v ys) : xs = ys := by
  induction xs generalizing v ys with
  | nil =>
    cases ys with
    | nil => rfl
    | cons b ys =>
      obtain ⟨rfl, hne, _⟩ := hy
      exact absurd hx hne
  | cons a xs ih =>
    obtain ⟨rfl, hne, hxs⟩ := hx
    cases ys with
    | nil => exact absurd hy hne
    | cons b ys =>
      obtain ⟨rfl, _, hys⟩ := hy
      rw [ih hxs hys]

theorem Linked.suffix (h : C.Linked mem v (xs ++ l :: ys)) : C.Linked mem l (l :: ys) := by
  induction xs generalizing v with
  | nil =>
    obtain ⟨_, hne, hys⟩ := h
    exact ⟨rfl, hne, hys⟩
  | cons a xs ih => exact ih h.2.2

/-- A list that ends has no cycle. -/
theorem Linked.nodup (h : C.Linked mem v ls) : ls.Nodup := by
  induction ls generalizing v with
  | nil => exact List.nodup_nil
  | cons a ls ih =>
    refine List.nodup_cons.2 ⟨fun ha => ?_, ih h.2.2⟩
    -- from both places the same list would follow
    obtain ⟨xs, ys, rfl⟩ := List.append_of_mem ha
    obtain rfl := h.1
    have hagain : C.Linked mem v (v :: ys) := h.2.2.suffix
    have heq := h.unique hagain
    have hlen := congrArg List.length heq
    simp only [List.length_cons, List.length_append] at hlen
    omega

theorem Linked.congr (h : C.Linked mem v ls)
    (hmem : ∀ l ∈ ls, mem' (C.node l) = mem (C.node l)) : C.Linked mem' v ls := by
  induction ls generalizing v with
  | nil => exact h
  | cons a ls ih =>
    obtain ⟨hv, hne, hls⟩ := h
    refine ⟨hv, hne, ?_⟩
    rw [hmem a List.mem_cons_self]
    exact ih hls fun l hl => hmem l (List.mem_cons_of_mem a hl)

theorem Leads.congr (h : C.Leads mem c ls) (hc : mem' c = mem c)
    (hmem : ∀ l ∈ ls, mem' (C.node l) = mem (C.node l)) : C.Leads mem' c ls := by
  induction ls generalizing c with
  | nil => trivial
  | cons a ls ih =>
    obtain ⟨hv, hne, hls⟩ := h
    refine ⟨hc.trans hv, hne, ih hls (hmem a List.mem_cons_self) fun l hl => ?_⟩
    exact hmem l (List.mem_cons_of_mem a hl)

theorem last_append_singleton : C.last c (ls ++ [l]) = C.node l := by
  induction ls generalizing c with
  | nil => rfl
  | cons a ls ih => exact ih

/-- The cell behind a list is its root or the cell of an element. -/
theorem last_eq (C : Cells ι α γ) (c : γ) (ls : List α) :
    C.last c ls = c ∨ ∃ l ∈ ls, C.last c ls = C.node l := by
  induction ls generalizing c with
  | nil => exact .inl rfl
  | cons a ls ih =>
    right
    rcases ih (C.node a) with h | ⟨l, hl, h⟩
    · exact ⟨a, List.mem_cons_self, h⟩
    · exact ⟨l, List.mem_cons_of_mem a hl, h⟩

theorem linked_append :
    C.Linked mem (mem c) (xs ++ ys) ↔ C.Leads mem c xs ∧ C.Linked mem (mem (C.last c xs)) ys := by
  induction xs generalizing c with
  | nil => exact (and_iff_right trivial).symm
  | cons a xs ih =>
    show mem c = a ∧ a ≠ C.stop ∧ C.Linked mem (mem (C.node a)) (xs ++ ys) ↔
      (mem c = a ∧ a ≠ C.stop ∧ C.Leads mem (C.node a) xs) ∧ _
    rw [ih, and_assoc, and_assoc]
    rfl

theorem leads_append_singleton :
    C.Leads mem c (xs ++ [l]) ↔ C.Leads mem c xs ∧ mem (C.last c xs) = l ∧ l ≠ C.stop := by
  induction xs generalizing c with
  | nil =>
    show mem c = l ∧ l ≠ C.stop ∧ True ↔ True ∧ mem c = l ∧ l ≠ C.stop
    rw [and_true, true_and]
  | cons a xs ih =>
    show mem c = a ∧ a ≠ C.stop ∧ C.Leads mem (C.node a) (xs ++ [l]) ↔
      (mem c = a ∧ a ≠ C.stop ∧ C.Leads mem (C.node a) xs) ∧ _
    rw [ih, and_assoc, and_assoc]
    rfl

/-- A list is one that ends behind its last element. -/
theorem linked_iff_leads :
    C.Linked mem (mem c) ls ↔ C.Leads mem c ls ∧ mem (C.last c ls) = C.stop := by
  have h : C.Linked mem (mem c) (ls ++ []) ↔
      C.Leads mem c ls ∧ C.Linked mem (mem (C.last c ls)) [] := linked_append
  rw [List.append_nil] at h
  exact h

section

variable [DecidableEq γ]

/-- What is stored behind a list is not part of it. -/
theorem Leads.store (h : C.Leads mem c ls) (hc : ∀ l ∈ ls, c ≠ C.node l) (hnodup : ls.Nodup) :
    C.Leads (Function.update mem (C.last c ls) v) c ls := by
  induction ls generalizing c with
  | nil => trivial
  | cons a ls ih =>
    obtain ⟨hv, hne, hls⟩ := h
    obtain ⟨ha, hnodup⟩ := List.nodup_cons.1 hnodup
    refine ⟨?_, hne, ih hls (fun l hl he => ha ?_) hnodup⟩
    · have hlast : c ≠ C.last (C.node a) ls := by
        rcases last_eq C (C.node a) ls with he | ⟨l, hl, he⟩
        · rw [he]
          exact hc a List.mem_cons_self
        · rw [he]
          exact hc l (List.mem_cons_of_mem a hl)
      show Function.update mem (C.last (C.node a) ls) v c = a
      rw [Function.update_of_ne hlast]
      exact hv
    · rw [C.node_injective he]
      exact hl

/-- The list grows at its end. -/
theorem Leads.snoc (h : C.Leads mem c ls) (hc : ∀ l ∈ ls, c ≠ C.node l) (hnodup : ls.Nodup)
    (hl : l ≠ C.stop) : C.Leads (Function.update mem (C.last c ls) l) c (ls ++ [l]) :=
  leads_append_singleton.2 ⟨h.store hc hnodup, Function.update_self .., hl⟩

end

/-! ## A family of lists -/

/-- Each `f i` is the list of the root `i`, and no two lists have an element in common. -/
structure Layout (C : Cells ι α γ) (mem : γ → α) (f : ι → List α) : Prop where
  linked : ∀ i, C.Linked mem (mem (C.root i)) (f i)
  disjoint : ∀ i j l, l ∈ f i → l ∈ f j → i = j

namespace Layout

variable {f f' : ι → List α} {i : ι}

theorem nodup (h : Layout C mem f) (i : ι) : (f i).Nodup := (h.linked i).nodup

theorem leads (h : Layout C mem f) (i : ι) : C.Leads mem (C.root i) (f i) :=
  (linked_iff_leads.1 (h.linked i)).1

theorem head (h : Layout C mem f) (hf : f i = l :: ls) : mem (C.root i) = l := by
  have hi := h.linked i
  rw [hf] at hi
  exact hi.1

theorem eq_nil_iff (h : Layout C mem f) : f i = [] ↔ mem (C.root i) = C.stop := by
  have hi := h.linked i
  rcases hf : f i with _ | ⟨l, ls⟩
  · rw [hf] at hi
    exact iff_of_true rfl hi
  · rw [hf] at hi
    obtain ⟨hl, hne, _⟩ := hi
    exact iff_of_false (List.cons_ne_nil l ls) (by rw [hl]; exact hne)

/-- Lists change where their cells do. -/
theorem replace (h : Layout C mem f)
    (hlinked : ∀ i, f' i = f i ∧ mem' (C.root i) = mem (C.root i) ∧
        (∀ l ∈ f i, mem' (C.node l) = mem (C.node l)) ∨
      C.Linked mem' (mem' (C.root i)) (f' i))
    (hdisjoint : ∀ i j l, l ∈ f' i → l ∈ f' j → i = j) : Layout C mem' f' := by
  refine ⟨fun i => ?_, hdisjoint⟩
  rcases hlinked i with ⟨hf, hroot, hnode⟩ | hi
  · rw [hf, hroot]
    exact (h.linked i).congr hnode
  · exact hi

/-- The cell of an element that is in no list. -/
theorem update_node [DecidableEq γ] (h : Layout C mem f) (hl : ∀ j, l ∉ f j) :
    Layout C (Function.update mem (C.node l) v) f := by
  refine h.replace (fun j => .inl ⟨rfl, ?_, fun a ha => ?_⟩) h.disjoint
  · exact Function.update_of_ne (C.root_ne_node j l) ..
  · have hne : C.node a ≠ C.node l := fun he => hl j (C.node_injective he ▸ ha)
    exact Function.update_of_ne hne ..

variable [DecidableEq ι]

/-- The elements of the lists when the list `i` gets one more. -/
theorem exists_mem_update {a : α} (hls : a ∈ ls ↔ a = l ∨ a ∈ f i) :
    (∃ j, a ∈ Function.update f i ls j) ↔ a = l ∨ ∃ j, a ∈ f j := by
  constructor
  · rintro ⟨j, hj⟩
    by_cases hji : j = i
    · rw [hji, Function.update_self] at hj
      exact (hls.1 hj).imp id fun ha => ⟨i, ha⟩
    · rw [Function.update_of_ne hji] at hj
      exact .inr ⟨j, hj⟩
  · rintro (ha | ⟨j, hj⟩)
    · refine ⟨i, ?_⟩
      rw [Function.update_self]
      exact hls.2 (.inl ha)
    · refine ⟨j, ?_⟩
      by_cases hji : j = i
      · rw [hji, Function.update_self]
        exact hls.2 (.inr (hji ▸ hj))
      · rw [Function.update_of_ne hji]
        exact hj

/-- The elements of the lists before the first one of the list `i` left. -/
theorem exists_mem_of_pop {a : α} (hf : f i = l :: ls) :
    (∃ j, a ∈ f j) ↔ a = l ∨ ∃ j, a ∈ Function.update f i ls j := by
  have hback : Function.update (Function.update f i ls) i (l :: ls) = f := by
    rw [Function.update_idem, ← hf, Function.update_eq_self]
  have hmore : (∃ j, a ∈ Function.update (Function.update f i ls) i (l :: ls) j) ↔
      a = l ∨ ∃ j, a ∈ Function.update f i ls j :=
    exists_mem_update (by rw [Function.update_self, List.mem_cons])
  rwa [hback] at hmore

/-- The lists stay disjoint when one of them gets elements that no other has. -/
theorem disjoint_update (h : Layout C mem f) (hls : ∀ l ∈ ls, ∀ j, l ∈ f j → j = i) :
    ∀ j k l, l ∈ Function.update f i ls j → l ∈ Function.update f i ls k → j = k := by
  intro j k l hj hk
  by_cases hji : j = i <;> by_cases hki : k = i
  · rw [hji, hki]
  · rw [hji, Function.update_self] at hj
    rw [Function.update_of_ne hki] at hk
    exact hji.trans (hls l hj k hk).symm
  · rw [hki, Function.update_self] at hk
    rw [Function.update_of_ne hji] at hj
    exact (hls l hk j hj).trans hki.symm
  · rw [Function.update_of_ne hji] at hj
    rw [Function.update_of_ne hki] at hk
    exact h.disjoint j k l hj hk

/-- Who has left is in no list. -/
theorem popped (h : Layout C mem f) (hf : f i = l :: ls) (j : ι) :
    l ∉ Function.update f i ls j := by
  intro hj
  by_cases hji : j = i
  · have hnodup := h.nodup i
    rw [hf] at hnodup
    rw [hji, Function.update_self] at hj
    exact (List.nodup_cons.1 hnodup).1 hj
  · rw [Function.update_of_ne hji] at hj
    refine hji (h.disjoint j i l hj ?_)
    rw [hf]
    exact List.mem_cons_self

variable [DecidableEq γ]

/-- The first element leaves. -/
theorem pop (h : Layout C mem f) (hf : f i = l :: ls) :
    Layout C (Function.update mem (C.root i) (mem (C.node l))) (Function.update f i ls) := by
  refine h.replace (fun j => ?_) (h.disjoint_update fun a ha j hj => ?_)
  · by_cases hji : j = i
    · right
      rw [hji, Function.update_self, Function.update_self]
      have hi := h.linked i
      rw [hf] at hi
      exact hi.2.2.congr fun a _ => Function.update_of_ne (C.root_ne_node i a).symm ..
    · left
      refine ⟨Function.update_of_ne hji .., Function.update_of_ne ?_ .., fun a _ => ?_⟩
      · exact fun he => hji (C.root_injective he)
      · exact Function.update_of_ne (C.root_ne_node i a).symm ..
  · refine h.disjoint j i a hj ?_
    rw [hf]
    exact List.mem_cons_of_mem l ha

/-- An element comes in front. -/
theorem push (h : Layout C mem f) (hl : ∀ j, l ∉ f j) (hne : l ≠ C.stop) :
    Layout C (Function.update (Function.update mem (C.node l) (mem (C.root i))) (C.root i) l)
      (Function.update f i (l :: f i)) := by
  have hnode : ∀ j, ∀ a ∈ f j, C.node a ≠ C.node l :=
    fun j a ha he => hl j (C.node_injective he ▸ ha)
  refine h.replace (fun j => ?_) (h.disjoint_update fun a ha j hj => ?_)
  · by_cases hji : j = i
    · right
      rw [hji, Function.update_self, Function.update_self]
      refine ⟨rfl, hne, ?_⟩
      rw [Function.update_of_ne (C.root_ne_node i l).symm, Function.update_self]
      refine (h.linked i).congr fun a ha => ?_
      rw [Function.update_of_ne (C.root_ne_node i a).symm, Function.update_of_ne (hnode i a ha)]
    · left
      refine ⟨Function.update_of_ne hji .., ?_, fun a ha => ?_⟩
      · rw [Function.update_of_ne fun he => hji (C.root_injective he),
          Function.update_of_ne (C.root_ne_node j l)]
      · rw [Function.update_of_ne (C.root_ne_node i a).symm, Function.update_of_ne (hnode j a ha)]
  · rcases List.mem_cons.1 ha with rfl | ha
    · exact absurd hj (hl j)
    · exact h.disjoint j i a hj ha

/-- An element comes at the end. -/
theorem append (h : Layout C mem f) (hl : ∀ j, l ∉ f j) (hne : l ≠ C.stop) :
    Layout C (Function.update (Function.update mem (C.node l) C.stop) (C.last (C.root i) (f i)) l)
      (Function.update f i (f i ++ [l])) := by
  have hnode : ∀ j, ∀ a ∈ f j, C.node a ≠ C.node l :=
    fun j a ha he => hl j (C.node_injective he ▸ ha)
  have hlast : ∀ j, j ≠ i → C.root j ≠ C.last (C.root i) (f i) ∧
      ∀ a ∈ f j, C.node a ≠ C.last (C.root i) (f i) := by
    intro j hji
    rcases last_eq C (C.root i) (f i) with he | ⟨b, hb, he⟩
    · rw [he]
      exact ⟨fun he => hji (C.root_injective he), fun a _ => (C.root_ne_node i a).symm⟩
    · rw [he]
      refine ⟨C.root_ne_node j b, fun a ha he => hji (h.disjoint j i b ?_ hb)⟩
      exact C.node_injective he ▸ ha
  refine h.replace (fun j => ?_) (h.disjoint_update fun a ha j hj => ?_)
  · by_cases hji : j = i
    · right
      rw [hji, Function.update_self]
      have hleads : C.Leads (Function.update mem (C.node l) C.stop) (C.root i) (f i) :=
        (h.leads i).congr (Function.update_of_ne (C.root_ne_node i l) ..) fun a ha =>
          Function.update_of_ne (hnode i a ha) ..
      have hend : C.node l ≠ C.last (C.root i) (f i) := by
        rcases last_eq C (C.root i) (f i) with he | ⟨b, hb, he⟩
        · rw [he]
          exact (C.root_ne_node i l).symm
        · rw [he]
          exact (hnode i b hb).symm
      refine linked_iff_leads.2 ⟨hleads.snoc (fun a _ => C.root_ne_node i a) (h.nodup i) hne, ?_⟩
      rw [last_append_singleton, Function.update_of_ne hend, Function.update_self]
    · left
      obtain ⟨hroot, ha⟩ := hlast j hji
      refine ⟨Function.update_of_ne hji .., ?_, fun a hmem => ?_⟩
      · rw [Function.update_of_ne hroot, Function.update_of_ne (C.root_ne_node j l)]
      · rw [Function.update_of_ne (ha a hmem), Function.update_of_ne (hnode j a hmem)]
  · rcases List.mem_append.1 ha with ha | ha
    · exact h.disjoint j i a hj ha
    · rw [List.mem_singleton.1 ha] at hj
      exact absurd hj (hl j)

end Layout

/-! ## Splitting a list -/

/-- A list is split in place: its elements go behind `root i` or behind `root j`, and the
pointer `v` leads to the rest. -/
structure Split (C : Cells ι α γ) (mem₀ mem : γ → α) (i j : ι) (taken kept rest : List α)
    (v : α) : Prop where
  ne : i ≠ j
  leadsTaken : C.Leads mem (C.root i) taken
  leadsKept : C.Leads mem (C.root j) kept
  linked : C.Linked mem v rest
  nodup : (taken ++ (kept ++ rest)).Nodup
  frame : ∀ c, c ≠ C.root i → c ≠ C.root j → (∀ l, l ∈ taken ∨ l ∈ kept → c ≠ C.node l) →
    mem c = mem₀ c

namespace Split

variable {mem₀ : γ → α} {i j : ι} {taken kept rest : List α}

theorem symm (h : Split C mem₀ mem i j taken kept rest v) :
    Split C mem₀ mem j i kept taken rest v := by
  refine ⟨h.ne.symm, h.leadsKept, h.leadsTaken, h.linked, ?_, fun c hj hi hc => ?_⟩
  · rw [← List.append_assoc]
    refine (List.Perm.nodup_iff ?_).1 h.nodup
    rw [← List.append_assoc]
    exact List.perm_append_comm.append_right rest
  · exact h.frame c hi hj fun l hl => hc l hl.symm

/-- The cell that is written next is in no other list. -/
theorem last_ne (h : Split C mem₀ mem i j taken kept rest v) :
    C.root j ≠ C.last (C.root i) taken ∧
      ∀ a ∈ kept ++ rest, C.node a ≠ C.last (C.root i) taken := by
  obtain ⟨_, _, hsep⟩ := List.nodup_append.1 h.nodup
  rcases last_eq C (C.root i) taken with he | ⟨b, hb, he⟩
  · rw [he]
    exact ⟨fun he => h.ne (C.root_injective he).symm, fun a _ => (C.root_ne_node i a).symm⟩
  · rw [he]
    exact ⟨C.root_ne_node j b, fun a ha he => hsep b hb a ha (C.node_injective he).symm⟩

theorem last_ne_last (h : Split C mem₀ mem i j taken kept rest v) :
    C.last (C.root j) kept ≠ C.last (C.root i) taken := by
  obtain ⟨hroot, hnode⟩ := h.last_ne
  rcases last_eq C (C.root j) kept with he | ⟨b, hb, he⟩
  · rw [he]
    exact hroot
  · rw [he]
    exact hnode b (List.mem_append_left _ hb)

variable [DecidableEq γ]

/-- The next element goes behind `root i`. -/
theorem take (h : Split C mem₀ mem i j taken kept (l :: rest) l) :
    Split C mem₀ (Function.update mem (C.last (C.root i) taken) l) i j (taken ++ [l]) kept rest
      (mem (C.node l)) := by
  obtain ⟨_, hne, hrest⟩ := h.linked
  obtain ⟨htaken, _, _⟩ := List.nodup_append.1 h.nodup
  obtain ⟨hroot, hnode⟩ := h.last_ne
  refine ⟨h.ne, h.leadsTaken.snoc (fun a _ => C.root_ne_node i a) htaken hne, ?_, ?_, ?_, ?_⟩
  · exact h.leadsKept.congr (Function.update_of_ne hroot ..) fun a ha =>
      Function.update_of_ne (hnode a (List.mem_append_left _ ha)) ..
  · exact hrest.congr fun a ha => Function.update_of_ne
      (hnode a (List.mem_append_right _ (List.mem_cons_of_mem l ha))) ..
  · refine (List.Perm.nodup_iff ?_).1 h.nodup
    rw [List.append_assoc]
    exact List.perm_middle.append_left taken
  · intro c hi hj hc
    have hcl : c ≠ C.last (C.root i) taken := by
      rcases last_eq C (C.root i) taken with he | ⟨b, hb, he⟩
      · rw [he]
        exact hi
      · rw [he]
        exact hc b (.inl (List.mem_append_left _ hb))
    rw [Function.update_of_ne hcl]
    refine h.frame c hi hj fun a ha => hc a ?_
    exact ha.imp_left (List.mem_append_left _)

/-- The next element goes behind `root j`. -/
theorem keep (h : Split C mem₀ mem i j taken kept (l :: rest) l) :
    Split C mem₀ (Function.update mem (C.last (C.root j) kept) l) i j taken (kept ++ [l]) rest
      (mem (C.node l)) :=
  h.symm.take.symm

/-- Both ends are written, and there are two lists. -/
theorem close (h : Split C mem₀ mem i j taken kept [] v) (hmem : mem' = Function.update
      (Function.update mem (C.last (C.root j) kept) C.stop) (C.last (C.root i) taken) C.stop) :
    C.Linked mem' (mem' (C.root i)) taken ∧ C.Linked mem' (mem' (C.root j)) kept := by
  obtain ⟨htaken, hkept, _⟩ := List.nodup_append.1 h.nodup
  rw [List.append_nil] at hkept
  obtain ⟨hrootj, hnodej⟩ := h.last_ne
  obtain ⟨hrooti, hnodei⟩ := h.symm.last_ne
  rw [hmem, linked_iff_leads, linked_iff_leads]
  refine ⟨⟨?_, Function.update_self ..⟩, ?_, ?_⟩
  · refine Leads.store ?_ (fun a _ => C.root_ne_node i a) htaken
    exact h.leadsTaken.congr (Function.update_of_ne hrooti ..) fun a ha =>
      Function.update_of_ne (hnodei a (List.mem_append_left _ ha)) ..
  · have hstore := h.leadsKept.store (v := C.stop) (fun a _ => C.root_ne_node j a) hkept
    exact hstore.congr (Function.update_of_ne hrootj ..) fun a ha =>
      Function.update_of_ne (hnodej a (List.mem_append_left _ ha)) ..
  · rw [Function.update_of_ne h.last_ne_last, Function.update_self]

variable [DecidableEq ι] {f : ι → List α}

/-- What was one list of a family is two. -/
theorem layout (h : Split C mem₀ mem i j taken kept [] v) (hf : Layout C mem₀ f)
    (hmem : mem' = Function.update (Function.update mem (C.last (C.root j) kept) C.stop)
      (C.last (C.root i) taken) C.stop)
    (hi : f i = []) (hj : ∀ l, l ∈ taken ∨ l ∈ kept → l ∈ f j) :
    Layout C mem' (Function.update (Function.update f j kept) i taken) := by
  obtain ⟨htaken, hkept⟩ := h.close hmem
  -- the cells of the other lists are as before
  have hother : ∀ c, c ≠ C.root i → c ≠ C.root j → (∀ l ∈ f j, c ≠ C.node l) →
      mem' c = mem₀ c := by
    intro c hci hcj hc
    have hlast : ∀ k ls, c ≠ C.root k → (∀ l ∈ ls, l ∈ f j) → c ≠ C.last (C.root k) ls := by
      intro k ls hck hls
      rcases last_eq C (C.root k) ls with he | ⟨b, hb, he⟩
      · rw [he]
        exact hck
      · rw [he]
        exact hc b (hls b hb)
    rw [hmem, Function.update_of_ne (hlast i taken hci fun l hl => hj l (.inl hl)),
      Function.update_of_ne (hlast j kept hcj fun l hl => hj l (.inr hl))]
    exact h.frame c hci hcj fun l hl => hc l (hj l hl)
  refine hf.replace (fun k => ?_) fun a b l ha hb => ?_
  · by_cases hki : k = i
    · right
      rw [hki, Function.update_self]
      exact htaken
    · by_cases hkj : k = j
      · right
        rw [hkj, Function.update_of_ne h.ne.symm, Function.update_self]
        exact hkept
      · left
        refine ⟨?_, ?_, fun l hl => ?_⟩
        · rw [Function.update_of_ne hki, Function.update_of_ne hkj]
        · exact hother _ (fun he => hki (C.root_injective he))
            (fun he => hkj (C.root_injective he)) fun l _ => C.root_ne_node k l
        · refine hother _ (C.root_ne_node i l).symm (C.root_ne_node j l).symm fun b hb he => ?_
          exact hkj (hf.disjoint k j l hl (C.node_injective he ▸ hb))
  · have hsub : ∀ k, l ∈ Function.update (Function.update f j kept) i taken k →
        (k = i ∧ l ∈ taken) ∨ (k = j ∧ l ∈ kept) ∨ (k ≠ j ∧ l ∈ f k) := by
      intro k hk
      by_cases hki : k = i
      · rw [hki, Function.update_self] at hk
        exact .inl ⟨hki, hk⟩
      · rw [Function.update_of_ne hki] at hk
        by_cases hkj : k = j
        · rw [hkj, Function.update_self] at hk
          exact .inr (.inl ⟨hkj, hk⟩)
        · rw [Function.update_of_ne hkj] at hk
          exact .inr (.inr ⟨hkj, hk⟩)
    obtain ⟨_, _, hsep⟩ := List.nodup_append.1 h.nodup
    rcases hsub a ha with ⟨rfl, hta⟩ | ⟨rfl, hka⟩ | ⟨haj, hfa⟩ <;>
      rcases hsub b hb with ⟨rfl, htb⟩ | ⟨rfl, hkb⟩ | ⟨hbj, hfb⟩
    · rfl
    · exact absurd rfl (hsep l hta l (List.mem_append_left _ hkb))
    · exact absurd (hf.disjoint b j l hfb (hj l (.inl hta))) hbj
    · exact absurd rfl (hsep l htb l (List.mem_append_left _ hka))
    · rfl
    · exact absurd (hf.disjoint b a l hfb (hj l (.inr hka))) hbj
    · exact absurd (hf.disjoint a j l hfa (hj l (.inl htb))) haj
    · exact absurd (hf.disjoint a b l hfa (hj l (.inr hkb))) haj
    · exact hf.disjoint a b l hfa hfb

/-- Splitting a list neither adds nor loses an element. -/
theorem exists_mem (hne : i ≠ j) (hi : f i = [])
    (hj : ∀ l, l ∈ taken ∨ l ∈ kept ↔ l ∈ f j) {a : α} :
    (∃ k, a ∈ Function.update (Function.update f j kept) i taken k) ↔ ∃ k, a ∈ f k := by
  constructor
  · rintro ⟨k, hk⟩
    by_cases hki : k = i
    · rw [hki, Function.update_self] at hk
      exact ⟨j, (hj a).1 (.inl hk)⟩
    · rw [Function.update_of_ne hki] at hk
      by_cases hkj : k = j
      · rw [hkj, Function.update_self] at hk
        exact ⟨j, (hj a).1 (.inr hk)⟩
      · rw [Function.update_of_ne hkj] at hk
        exact ⟨k, hk⟩
  · rintro ⟨k, hk⟩
    by_cases hkj : k = j
    · rcases (hj a).2 (hkj ▸ hk) with ha | ha
      · refine ⟨i, ?_⟩
        rw [Function.update_self]
        exact ha
      · refine ⟨j, ?_⟩
        rw [Function.update_of_ne hne.symm, Function.update_self]
        exact ha
    · have hki : k ≠ i := by
        intro he
        rw [he, hi] at hk
        cases hk
      refine ⟨k, ?_⟩
      rw [Function.update_of_ne hki, Function.update_of_ne hkj]
      exact hk

end Split

end Cells
end Psets
