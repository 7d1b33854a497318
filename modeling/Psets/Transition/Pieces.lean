/-
A stream that is consumed a piece at a time.

A consumer that is given a piece either takes all of it and goes on with the next one,
or stops inside the piece.  It is incremental when it does not matter where one piece
ends and the next begins; then what it comes to is a function of the stream.
-/
import Mathlib.Data.List.Basic

namespace Psets
namespace Transition

/-- What a consumer does with a piece.  When it stops it has taken the first `n` elements. -/
inductive Taken (τ : Type) where
  | all (t : τ)
  | stopped (t : τ) (n : Nat)

/-- The same, counted from `k` elements earlier. -/
def Taken.after {τ : Type} (k : Nat) : Taken τ → Taken τ
  | .all t => .all t
  | .stopped t n => .stopped t (k + n)

/-- The boundary between two pieces makes no difference to a consumer in a state `I`. -/
structure Incremental {τ β : Type} (I : τ → Prop) (take : τ → List β → Taken τ) : Prop where
  invariant : ∀ {t u : τ} {xs : List β}, I t → take t xs = .all u → I u
  within : ∀ {t u : τ} {xs : List β} {n : Nat}, I t → take t xs = .stopped u n → n ≤ xs.length
  stopped : ∀ {t u : τ} {xs : List β} {n : Nat} (ys : List β), I t →
    take t xs = .stopped u n → take t (xs ++ ys) = .stopped u n
  all : ∀ {t u : τ} {xs ys : List β}, I t → ys ≠ [] →
    take t xs = .all u → take t (xs ++ ys) = (take u ys).after xs.length

/-- Where a consumer is when it stops, or when there are no more pieces. -/
structure Consumed (τ β : Type) where
  state : τ
  stopped : Bool
  /-- what it took -/
  taken : List β
  /-- what is left of the piece -/
  left : List β
  pieces : List (List β)

/-- What the pieces came to, all in all. -/
def Consumed.outcome {τ β : Type} (c : Consumed τ β) : Taken τ :=
  if c.stopped then .stopped c.state c.taken.length else .all c.state

/-- The loop over the pieces. -/
def consume {τ β : Type} (take : τ → List β → Taken τ) : τ → List (List β) → Consumed τ β
  | t, [] => ⟨t, false, [], [], []⟩
  | t, p :: ps =>
    match take t p with
    | .all u =>
      let c := consume take u ps
      { c with taken := p ++ c.taken }
    | .stopped u n => ⟨u, true, p.take n, p.drop n, ps⟩

section

variable {τ β : Type} {I : τ → Prop} {take : τ → List β → Taken τ} {t u : τ} {n : Nat}
  {ps : List (List β)}

/-- No element is lost, and none is taken twice. -/
theorem consume_append (take : τ → List β → Taken τ) (t : τ) (ps : List (List β)) :
    (consume take t ps).taken ++ ((consume take t ps).left ++ (consume take t ps).pieces.flatten) =
      ps.flatten := by
  induction ps generalizing t with
  | nil => rfl
  | cons p ps ih =>
    rw [consume]
    split
    · rename_i u hu
      rw [List.flatten_cons, ← ih u, List.append_assoc]
    · rw [List.flatten_cons, ← List.append_assoc, List.take_append_drop]

theorem consume_left_of_all (take : τ → List β → Taken τ) (t : τ) (ps : List (List β))
    (hs : (consume take t ps).stopped = false) :
    (consume take t ps).left = [] ∧ (consume take t ps).pieces = [] := by
  induction ps generalizing t with
  | nil => exact ⟨rfl, rfl⟩
  | cons p ps ih =>
    rw [consume] at hs ⊢
    split at hs
    · rename_i u hu
      exact ih u hs
    · cases hs

theorem consume_pieces_ne_nil (t : τ) (hne : [] ∉ ps) : [] ∉ (consume take t ps).pieces := by
  induction ps generalizing t with
  | nil => exact hne
  | cons p ps ih =>
    rw [consume]
    have hps : [] ∉ ps := fun h => hne (List.mem_cons_of_mem _ h)
    split
    · rename_i u hu
      exact ih u hps
    · exact hps

theorem Consumed.outcome_append (p : List β) (c : Consumed τ β) :
    ({ c with taken := p ++ c.taken } : Consumed τ β).outcome = c.outcome.after p.length := by
  cases hc : c.stopped with
  | false => simp [outcome, hc, Taken.after]
  | true => simp [outcome, hc, Taken.after]

theorem flatten_ne_nil (hne : [] ∉ ps) (hps : ps ≠ []) : ps.flatten ≠ [] := by
  obtain ⟨p, ps, rfl⟩ := List.exists_cons_of_ne_nil hps
  rw [List.flatten_cons]
  refine List.append_ne_nil_of_left_ne_nil ?_ _
  rintro rfl
  exact hne List.mem_cons_self

/-- In many pieces the stream comes to what it comes to in one. -/
theorem Incremental.outcome_consume (h : Incremental I take) (ht : I t) (hne : [] ∉ ps)
    (hps : ps ≠ []) : (consume take t ps).outcome = take t ps.flatten := by
  induction ps generalizing t with
  | nil => exact absurd rfl hps
  | cons p ps ih =>
    rw [List.flatten_cons, consume]
    cases hp : take t p with
    | stopped u n =>
      rw [h.stopped _ ht hp]
      simp [Consumed.outcome, h.within ht hp]
    | all u =>
      simp only [Consumed.outcome_append]
      obtain rfl | hps' := eq_or_ne ps []
      · rw [List.flatten_nil, List.append_nil, hp]
        rfl
      · have hne' : [] ∉ ps := fun hmem => hne (List.mem_cons_of_mem _ hmem)
        rw [ih (h.invariant ht hp) hne' hps', h.all ht (flatten_ne_nil hne' hps') hp]

/-- Two ways to cut a stream, and where the consumer is in each. -/
theorem Incremental.consume_congr (h : Incremental I take) (ht : I t) {ps' : List (List β)}
    (hne : [] ∉ ps) (hne' : [] ∉ ps') (hflat : ps.flatten = ps'.flatten) :
    let c := consume take t ps
    let c' := consume take t ps'
    c.state = c'.state ∧ c.taken = c'.taken ∧
      c.left ++ c.pieces.flatten = c'.left ++ c'.pieces.flatten := by
  intro c c'
  have hsame : c.taken ++ (c.left ++ c.pieces.flatten) =
      c'.taken ++ (c'.left ++ c'.pieces.flatten) := by
    rw [consume_append, consume_append, hflat]
  suffices hst : c.state = c'.state ∧ c.taken = c'.taken by
    refine ⟨hst.1, hst.2, ?_⟩
    rw [hst.2] at hsame
    exact List.append_cancel_left hsame
  obtain rfl | hps := eq_or_ne ps []
  · obtain rfl | hps' := eq_or_ne ps' []
    · exact ⟨rfl, rfl⟩
    · exact absurd hflat.symm (flatten_ne_nil hne' hps')
  obtain rfl | hps' := eq_or_ne ps' []
  · exact absurd hflat (flatten_ne_nil hne hps)
  have hout : c.outcome = c'.outcome := by
    rw [h.outcome_consume ht hne hps, h.outcome_consume ht hne' hps', hflat]
  rw [Consumed.outcome, Consumed.outcome] at hout
  cases hc : c.stopped <;> cases hc' : c'.stopped <;>
    simp only [hc, hc', Bool.false_eq_true, if_false, if_true, reduceCtorEq, Taken.all.injEq,
      Taken.stopped.injEq] at hout
  · -- neither has stopped, and nothing is left
    obtain ⟨h1, h2⟩ := consume_left_of_all take t ps hc
    obtain ⟨h1', h2'⟩ := consume_left_of_all take t ps' hc'
    simp only [c, c', h1, h2, h1', h2', List.flatten_nil, List.append_nil] at hsame
    exact ⟨hout, hsame⟩
  · exact ⟨hout.1, List.append_inj_left hsame hout.2⟩

end

end Transition
end Psets
