/-
Transition systems.

A program that runs as a sequence of atomic pieces is a set of initial states
and a partial step function.  The label of a step carries every choice the
environment makes there, so a step is a function of its label and a run is a
list of labels.  `step s a = none` says that `a` is not enabled in `s`.
-/

namespace Psets
namespace Transition

/-- A labelled transition system whose steps are computed. -/
structure Machine (σ α : Type) where
  init : σ → Prop
  step : σ → α → Option σ

namespace Machine

variable {σ α : Type} (M : Machine σ α)

/-- Execute a list of labels, failing at the first one that is not enabled. -/
def exec : σ → List α → Option σ
  | s, [] => some s
  | s, a :: as => (M.step s a).bind fun t => exec t as

/-- Every step of the run is taken under the condition `ok`. -/
def Within (ok : σ → α → Prop) : σ → List α → Prop
  | _, [] => True
  | s, a :: as => ok s a ∧ ∀ t, M.step s a = some t → Within ok t as

/-- `P` holds in every state the run passes through, both ends included. -/
def Always (P : σ → Prop) : σ → List α → Prop
  | s, [] => P s
  | s, a :: as => P s ∧ ∀ t, M.step s a = some t → Always P t as

/-- The states of the runs all of whose steps are taken under `ok`. -/
inductive ReachableBy (ok : σ → α → Prop) : σ → Prop where
  | init {s : σ} : M.init s → ReachableBy ok s
  | step {s t : σ} (a : α) : ReachableBy ok s → ok s a → M.step s a = some t →
      ReachableBy ok t

/-- The states of all runs. -/
def Reachable (s : σ) : Prop := M.ReachableBy (fun _ _ => True) s

variable {M}

@[simp] theorem exec_nil (s : σ) : M.exec s [] = some s := rfl

theorem exec_cons {s t u : σ} {a : α} {as : List α} (h : M.step s a = some t)
    (hr : M.exec t as = some u) : M.exec s (a :: as) = some u := by
  simp [exec, h, hr]

/-- A nonempty run is a step and a run. -/
theorem exec_cons_inv {s u : σ} {a : α} {as : List α}
    (h : M.exec s (a :: as) = some u) :
    ∃ t, M.step s a = some t ∧ M.exec t as = some u := by
  simpa [exec, Option.bind_eq_some_iff] using h

theorem exec_append {s t : σ} {as bs : List α} (h : M.exec s as = some t) :
    M.exec s (as ++ bs) = M.exec t bs := by
  induction as generalizing s with
  | nil =>
    simp only [exec_nil, Option.some.injEq] at h
    rw [h]; rfl
  | cons a as ih =>
    obtain ⟨u, hs, hr⟩ := exec_cons_inv h
    simp only [List.cons_append, exec, hs, Option.bind_some]
    exact ih hr

theorem ReachableBy.of_exec {ok : σ → α → Prop} {s t : σ} {as : List α}
    (hs : M.ReachableBy ok s) (hw : M.Within ok s as) (hr : M.exec s as = some t) :
    M.ReachableBy ok t := by
  induction as generalizing s with
  | nil =>
    simp only [exec_nil, Option.some.injEq] at hr
    exact hr ▸ hs
  | cons a as ih =>
    obtain ⟨u, hu, hr⟩ := exec_cons_inv hr
    exact ih (.step a hs hw.1 hu) (hw.2 u hu) hr

theorem within_true (s : σ) (as : List α) : M.Within (fun _ _ => True) s as := by
  induction as generalizing s with
  | nil => trivial
  | cons a as ih => exact ⟨trivial, fun t _ => ih t⟩

theorem Reachable.of_exec {s t : σ} {as : List α} (hs : M.Reachable s)
    (hr : M.exec s as = some t) : M.Reachable t :=
  ReachableBy.of_exec hs (within_true s as) hr

/-- The end of a run that was computed. -/
theorem Reachable.of_get {s : σ} {as : List α} (hs : M.init s)
    (hr : (M.exec s as).isSome = true) : M.Reachable ((M.exec s as).get hr) :=
  Reachable.of_exec (.init hs) (Option.some_get hr).symm

theorem Always.head {P : σ → Prop} {s : σ} {as : List α} (h : M.Always P s as) : P s := by
  cases as with
  | nil => exact h
  | cons a as => exact h.1

theorem Always.mono {P Q : σ → Prop} (himp : ∀ s, P s → Q s) {s : σ} {as : List α}
    (h : M.Always P s as) : M.Always Q s as := by
  induction as generalizing s with
  | nil => exact himp s h
  | cons a as ih => exact ⟨himp s h.1, fun t ht => ih (h.2 t ht)⟩

theorem always_true (s : σ) (as : List α) : M.Always (fun _ => True) s as := by
  induction as generalizing s with
  | nil => trivial
  | cons a as ih => exact ⟨trivial, fun t _ => ih t⟩

/-- A condition on the steps of a given run can be computed. -/
instance decidableWithin (ok : σ → α → Prop) [∀ s a, Decidable (ok s a)] :
    (s : σ) → (as : List α) → Decidable (M.Within ok s as)
  | _, [] => .isTrue trivial
  | s, a :: as =>
      match h : M.step s a with
      | none => decidable_of_iff (ok s a) ⟨fun hok => ⟨hok, by simp [h]⟩, fun hw => hw.1⟩
      | some t =>
          have := decidableWithin ok t as
          decidable_of_iff (ok s a ∧ M.Within ok t as)
            ⟨fun hw => ⟨hw.1, by simpa [h] using hw.2⟩, fun hw => ⟨hw.1, hw.2 t h⟩⟩

/-- A condition that the labels of the run give. -/
theorem within_of_forall {ok : σ → α → Prop} (s : σ) {as : List α} (h : ∀ a ∈ as, ∀ s, ok s a) :
    M.Within ok s as := by
  induction as generalizing s with
  | nil => trivial
  | cons a as ih =>
    exact ⟨h a List.mem_cons_self s, fun t _ => ih t fun b hb => h b (List.mem_cons_of_mem _ hb)⟩

/-- Two conditions that agree under an invariant of the runs guarded by `ok`. -/
theorem within_congr {ok ok₁ ok₂ : σ → α → Prop} {I : σ → Prop}
    (hI : ∀ s a t, I s → ok s a → M.step s a = some t → I t)
    (hiff : ∀ s a, I s → ok s a → (ok₁ s a ↔ ok₂ s a)) {s : σ} {as : List α} (hi : I s)
    (hok : M.Within ok s as) : M.Within ok₁ s as ↔ M.Within ok₂ s as := by
  induction as generalizing s with
  | nil => exact Iff.rfl
  | cons a as ih =>
    have htail : ∀ t, M.step s a = some t → (M.Within ok₁ t as ↔ M.Within ok₂ t as) := by
      intro t ht
      exact ih (hI s a t hi hok.1 ht) (hok.2 t ht)
    constructor
    · rintro ⟨h₁, hw⟩
      exact ⟨(hiff s a hi hok.1).1 h₁, fun t ht => (htail t ht).1 (hw t ht)⟩
    · rintro ⟨h₂, hw⟩
      exact ⟨(hiff s a hi hok.1).2 h₂, fun t ht => (htail t ht).2 (hw t ht)⟩

/-! ## The induction rules -/

/-- What holds initially and survives every step taken under `ok` holds in every
state of a run guarded by `ok`. -/
theorem ReachableBy.invariant {ok : σ → α → Prop} {P : σ → Prop}
    (hinit : ∀ s, M.init s → P s)
    (hstep : ∀ s a t, P s → ok s a → M.step s a = some t → P t)
    {s : σ} (h : M.ReachableBy ok s) : P s := by
  induction h with
  | init hi => exact hinit _ hi
  | step a _ hok hs ih => exact hstep _ a _ ih hok hs

theorem Reachable.invariant {P : σ → Prop} (hinit : ∀ s, M.init s → P s)
    (hstep : ∀ s a t, P s → M.step s a = some t → P t)
    {s : σ} (h : M.Reachable s) : P s :=
  ReachableBy.invariant hinit (fun s a t hp _ hs => hstep s a t hp hs) h

/-- A property the steps preserve is carried from one end of a run to the other. -/
theorem exec_preserves {P : σ → Prop}
    (hstep : ∀ s a t, P s → M.step s a = some t → P t)
    {s t : σ} {as : List α} (hs : P s) (hr : M.exec s as = some t) : P t := by
  induction as generalizing s with
  | nil =>
    simp only [exec_nil, Option.some.injEq] at hr
    exact hr ▸ hs
  | cons a as ih =>
    obtain ⟨u, hu, hr⟩ := exec_cons_inv hr
    exact ih (hstep _ _ _ hs hu) hr

/-- A measure that every step lowers, the `free` ones apart, which raise it by one at
most, bounds a run by the number of its free steps. -/
theorem exec_length_le (μ : σ → Nat) (free : α → Bool)
    (hstep : ∀ s a t, M.step s a = some t → if free a then μ t ≤ μ s + 1 else μ t < μ s)
    {s t : σ} {as : List α} (hr : M.exec s as = some t) :
    as.length + μ t ≤ μ s + 2 * as.countP free := by
  induction as generalizing s with
  | nil =>
    simp only [exec_nil, Option.some.injEq] at hr
    subst hr
    simp
  | cons a as ih =>
    obtain ⟨u, hu, hr⟩ := exec_cons_inv hr
    have hone := hstep s a u hu
    have hrest := ih hr
    rw [List.length_cons, List.countP_cons]
    split at hone
    · rename_i hfree
      rw [if_pos hfree]
      omega
    · rename_i hfree
      rw [if_neg hfree]
      omega

/-- As `exec_preserves`, for the runs guarded by `ok`. -/
theorem Within.preserves {ok : σ → α → Prop} {P : σ → Prop}
    (hstep : ∀ s a t, P s → ok s a → M.step s a = some t → P t)
    {s t : σ} {as : List α} (hs : P s) (hw : M.Within ok s as)
    (hr : M.exec s as = some t) : P t := by
  induction as generalizing s with
  | nil =>
    simp only [exec_nil, Option.some.injEq] at hr
    exact hr ▸ hs
  | cons a as ih =>
    obtain ⟨u, hu, hr⟩ := exec_cons_inv hr
    exact ih (hstep _ _ _ hs hw.1 hu) (hw.2 u hu) hr

/-- The invariant `I` needs `Q` in every state and `ok` at every step, and gives
`P`. -/
theorem Always.of_invariant {ok : σ → α → Prop} {I P Q : σ → Prop}
    (hstep : ∀ s a t, I s → ok s a → M.step s a = some t → Q t → I t)
    (hP : ∀ s, I s → P s) {s : σ} {as : List α} (hs : I s) (hok : M.Within ok s as)
    (hq : M.Always Q s as) : M.Always P s as := by
  induction as generalizing s with
  | nil => exact hP s hs
  | cons a as ih =>
    refine ⟨hP s hs, fun t ht => ?_⟩
    exact ih (hstep s a t hs hok.1 ht (hq.2 t ht).head) (hok.2 t ht) (hq.2 t ht)

/-- Under an invariant `I` of the runs guarded by `ok`, a run stays in `P` exactly
when each of its steps is taken under `ok'`, provided `ok'` is what a step from `P`
needs to end in `P`. -/
theorem always_iff_within {ok ok' : σ → α → Prop} {I P : σ → Prop}
    (hI : ∀ s a t, I s → ok s a → M.step s a = some t → I t)
    (hP : ∀ s a t, I s → P s → M.step s a = some t → (P t ↔ ok' s a))
    {s t : σ} {as : List α} (hi : I s) (hs : P s) (hok : M.Within ok s as)
    (hr : M.exec s as = some t) : M.Always P s as ↔ M.Within ok' s as := by
  induction as generalizing s with
  | nil => exact iff_of_true hs trivial
  | cons a as ih =>
    obtain ⟨u, hu, hr⟩ := exec_cons_inv hr
    have hIu : I u := hI s a u hi hok.1 hu
    constructor
    · rintro ⟨_, ha⟩
      have hPu : P u := (ha u hu).head
      refine ⟨(hP s a u hi hs hu).1 hPu, fun t ht => ?_⟩
      obtain rfl : u = t := by simpa [hu] using ht
      exact (ih hIu hPu (hok.2 u hu) hr).1 (ha u hu)
    · rintro ⟨hok', hw⟩
      refine ⟨hs, fun t ht => ?_⟩
      obtain rfl : u = t := by simpa [hu] using ht
      exact (ih hIu ((hP s a u hi hs hu).2 hok') (hok.2 u hu) hr).2 (hw u hu)

end Machine

/-! ## Refinement -/

/-- Two machines in lockstep: a step of the one is a step of the other, and related states
stay related. -/
theorem exec_rel {σ τ α : Type} {M : Machine σ α} {N : Machine τ α} {R : σ → τ → Prop}
    (hstep : ∀ s t a, R s t → Option.Rel R (M.step s a) (N.step t a))
    {s : σ} {t : τ} (h : R s t) (as : List α) : Option.Rel R (M.exec s as) (N.exec t as) := by
  induction as generalizing s t with
  | nil => exact .some h
  | cons a as ih =>
    have hrel := hstep s t a h
    unfold Machine.exec
    generalize M.step s a = x at hrel
    generalize N.step t a = y at hrel
    cases hrel with
    | none => exact .none
    | some hr => exact ih hr

/-- `R` simulates: the abstraction of a concrete step is a step of the abstract
relation or no step at all. -/
theorem refine_invariant {σ α τ : Type} {M : Machine σ α} {abs : σ → τ}
    {I : σ → Prop} {Init : τ → Prop} {Next : τ → τ → Prop} {P : τ → Prop}
    (hI : ∀ s, M.Reachable s → I s)
    (hinit : ∀ s, M.init s → Init (abs s))
    (hsim : ∀ s a t, I s → M.step s a = some t →
      abs t = abs s ∨ Next (abs s) (abs t))
    (hP : ∀ x, Init x → P x) (hnext : ∀ x y, P x → Next x y → P y)
    {s : σ} (h : M.Reachable s) : P (abs s) := by
  have key : I s ∧ P (abs s) := by
    induction h with
    | init hi => exact ⟨hI _ (.init hi), hP _ (hinit _ hi)⟩
    | @step u v a hu _ hs ih =>
      refine ⟨hI _ (.step a hu trivial hs), ?_⟩
      rcases hsim _ _ _ ih.1 hs with he | hn
      · rw [he]; exact ih.2
      · exact hnext _ _ ih.2 hn
  exact key.2

end Transition
end Psets
