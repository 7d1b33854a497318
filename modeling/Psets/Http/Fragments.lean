/-
A parser that works on any fragment of its input.

`llhttp` gives a string to a data callback in as many pieces as its input comes in.  The
callbacks make the same of the pieces as of the whole.  A parser that takes one byte at
a time is correct in this sense.
-/
import Psets.Http.Receive

namespace Psets
namespace Http

open HttpMessage

/-! ## Callbacks in fragments -/

namespace HttpMessage

/-- One data callback for two consecutive ones of the same kind. -/
def Callback.join : Callback → Callback → Option Callback
  | .url s, .url t => some (.url (s ++ t))
  | .status s hp, .status t hp' => if hp = hp' then some (.status (s ++ t) hp) else none
  | .headerField s, .headerField t => some (.headerField (s ++ t))
  | .headerValue s, .headerValue t => some (.headerValue (s ++ t))
  | .body s, .body t => some (.body (s ++ t))
  | _, _ => none

/-- The callbacks with consecutive fragments put together. -/
def joined : List Callback → List Callback
  | [] => []
  | c :: cs =>
    match joined cs with
    | [] => [c]
    | d :: ds =>
      match c.join d with
      | some e => e :: ds
      | none => c :: d :: ds

theorem callback_join {c d e : Callback} (h : c.join d = some e) (md : MessageData) :
    callback (callback md c) d = callback md e := by
  cases c <;> cases d <;> simp only [Callback.join, Option.some.injEq, reduceCtorEq] at h
  case url.url s t =>
    subst h
    simp [callback]
  case status.status s hp t hp' =>
    obtain ⟨rfl, rfl⟩ := Option.ite_none_right_eq_some.1 h |>.imp_right Option.some.inj
    by_cases hm : md.hm.major = 0
    · by_cases hp0 : hp.httpMajor = 0 <;> simp [callback, hm, hp0, copyParserStatus]
    · simp [callback, hm]
  case headerField.headerField s t =>
    subst h
    by_cases hs : md.state = .headerName <;> simp [callback, hs]
  case headerValue.headerValue s t =>
    subst h
    simp [callback]
  case body.body s t =>
    subst h
    simp [callback]

theorem foldl_joined (cs : List Callback) (md : MessageData) :
    (joined cs).foldl callback md = cs.foldl callback md := by
  induction cs generalizing md with
  | nil => rfl
  | cons c cs ih =>
    rw [List.foldl_cons, ← ih, joined]
    cases joined cs with
    | nil => rfl
    | cons d ds =>
      cases hj : c.join d with
      | none =>
        simp only [hj]
        rfl
      | some e =>
        simp only [hj]
        rw [List.foldl_cons, List.foldl_cons, callback_join hj]

/-- Only `on_message_complete` marks a message as complete. -/
theorem state_ne_done {cs : List Callback} (hcs : .messageComplete ∉ cs) {md : MessageData}
    (h : md.state ≠ .done) : (cs.foldl callback md).state ≠ .done := by
  induction cs generalizing md with
  | nil => exact h
  | cons c cs ih =>
    refine ih (fun hmem => hcs (List.mem_cons_of_mem _ hmem)) ?_
    cases c with
    | messageComplete => exact absurd List.mem_cons_self hcs
    | headerField s => by_cases hs : md.state = .headerName <;> simp [callback, hs]
    | headersComplete hp => exact h
    | headerValue s => exact h
    | body s => exact h
    | chunkHeader => exact h
    | messageBegin | url | status | headerFieldComplete | headerValueComplete => simp [callback]

theorem foldl_of_joined {cs cs' : List Callback} (h : joined cs = joined cs') (md : MessageData) :
    cs.foldl callback md = cs'.foldl callback md := by
  rw [← foldl_joined, h, foldl_joined]

end HttpMessage

/-- A correct incremental parser. -/
structure Llhttp.Correct {σ : Type} (llhttp : Llhttp σ) : Prop where
  /-- A callback that does not return zero interrupts the parser, which returns the same. -/
  interrupted : ∀ {hp : σ} {xs : Str}, .messageComplete ∈ (llhttp.execute hp xs).calls →
    (llhttp.execute hp xs).err = hpePaused
  errorPos_le : ∀ {hp : σ} {xs : Str}, (llhttp.execute hp xs).err ≠ hpeOk →
    (llhttp.execute hp xs).errorPos ≤ xs.length
  /-- Where the parser has stopped, what follows makes no difference. -/
  stops : ∀ {hp : σ} {xs : Str} (ys : Str), (llhttp.execute hp xs).err ≠ hpeOk →
    (llhttp.execute hp (xs ++ ys)).err = (llhttp.execute hp xs).err ∧
    (llhttp.execute hp (xs ++ ys)).errorPos = (llhttp.execute hp xs).errorPos ∧
    (llhttp.execute hp (xs ++ ys)).hp = (llhttp.execute hp xs).hp ∧
    joined (llhttp.execute hp (xs ++ ys)).calls = joined (llhttp.execute hp xs).calls
  /-- Otherwise the next call goes on where this one ends. -/
  resumes : ∀ {hp : σ} {xs ys : Str}, (llhttp.execute hp xs).err = hpeOk → ys ≠ [] →
    let next := llhttp.execute (llhttp.execute hp xs).hp ys
    (llhttp.execute hp (xs ++ ys)).err = next.err ∧
    (next.err ≠ hpeOk → (llhttp.execute hp (xs ++ ys)).errorPos = xs.length + next.errorPos) ∧
    (llhttp.execute hp (xs ++ ys)).hp = next.hp ∧
    joined (llhttp.execute hp (xs ++ ys)).calls =
      joined ((llhttp.execute hp xs).calls ++ next.calls)

/-! ## A parser that takes one byte at a time -/

/-- What the parser does with a byte. -/
inductive ByteStep (σ : Type) where
  | next (calls : List Callback) (hp : σ)
  /-- The byte is the last one of a message. -/
  | complete (calls : List Callback) (hp : σ)
  | fail (err : Nat) (hp : σ)

/-- Only the last byte completes a message, and only a failure is an error. -/
def ByteStep.Sound {σ : Type} : ByteStep σ → Prop
  | .next calls _ => .messageComplete ∉ calls
  | .complete _ _ => True
  | .fail err _ => err ≠ hpeOk

theorem ByteStep.Sound.ite {σ : Type} {p : Prop} [Decidable p] {a b : ByteStep σ} (ha : a.Sound)
    (hb : b.Sound) : (if p then a else b).Sound := by
  split
  · exact ha
  · exact hb

def executeBytes {σ : Type} (step : σ → Char → ByteStep σ) : σ → Str → Execution σ
  | hp, [] => ⟨[], hpeOk, 0, hp⟩
  | hp, ch :: rest =>
    match step hp ch with
    | .next calls hp =>
      let x := executeBytes step hp rest
      { x with calls := calls ++ x.calls, errorPos := x.errorPos + 1 }
    | .complete calls hp => ⟨calls ++ [.messageComplete], hpePaused, 1, hp⟩
    | .fail err hp => ⟨[], err, 0, hp⟩

section

variable {σ : Type} {step : σ → Char → ByteStep σ} {hp : σ} {xs : Str}

theorem executeBytes_stopped (ys : Str) (h : (executeBytes step hp xs).err ≠ hpeOk) :
    executeBytes step hp (xs ++ ys) = executeBytes step hp xs := by
  induction xs generalizing hp with
  | nil => exact absurd rfl h
  | cons ch xs ih =>
    rw [List.cons_append, executeBytes, executeBytes]
    cases hs : step hp ch with
    | next calls hp' =>
      simp only [executeBytes, hs] at h
      simp only [ih h]
    | complete calls hp' => rfl
    | fail err hp' => rfl

theorem executeBytes_append (ys : Str) (h : (executeBytes step hp xs).err = hpeOk)
    (hsound : ∀ hp ch, (step hp ch).Sound) :
    let x := executeBytes step hp xs
    let y := executeBytes step x.hp ys
    executeBytes step hp (xs ++ ys) =
      ⟨x.calls ++ y.calls, y.err, xs.length + y.errorPos, y.hp⟩ := by
  induction xs generalizing hp with
  | nil => simp [executeBytes]
  | cons ch xs ih =>
    have hch := hsound hp ch
    simp only [List.cons_append, executeBytes] at h ⊢
    cases hs : step hp ch with
    | next calls hp' =>
      simp only [hs] at h ⊢
      simp only [ih h, List.append_assoc, List.length_cons, Execution.mk.injEq, true_and, and_true]
      omega
    | complete calls hp' =>
      simp only [hs] at h
      exact absurd h (by decide)
    | fail err hp' =>
      rw [hs] at hch
      simp only [hs] at h
      exact absurd h hch

theorem executeBytes_interrupted (hsound : ∀ hp ch, (step hp ch).Sound)
    (h : .messageComplete ∈ (executeBytes step hp xs).calls) :
    (executeBytes step hp xs).err = hpePaused := by
  induction xs generalizing hp with
  | nil => exact absurd h List.not_mem_nil
  | cons ch xs ih =>
    have hch := hsound hp ch
    rw [executeBytes] at h ⊢
    cases hs : step hp ch with
    | next calls hp' =>
      rw [hs] at hch
      simp only [hs] at h ⊢
      rcases List.mem_append.1 h with h | h
      · exact absurd h hch
      · exact ih h
    | complete calls hp' => rfl
    | fail err hp' =>
      simp only [hs] at h
      exact absurd h List.not_mem_nil

theorem executeBytes_errorPos_le : (executeBytes step hp xs).errorPos ≤ xs.length := by
  induction xs generalizing hp with
  | nil => exact Nat.le_refl 0
  | cons ch xs ih =>
    rw [executeBytes]
    cases step hp ch with
    | next calls hp' => exact Nat.succ_le_succ ih
    | complete calls hp' => exact Nat.succ_le_succ (Nat.zero_le _)
    | fail err hp' => exact Nat.zero_le _

theorem executeBytes_correct {llhttp : Llhttp σ} (hx : llhttp.execute = executeBytes step)
    (hsound : ∀ hp ch, (step hp ch).Sound) : llhttp.Correct where
  interrupted h := by
    rw [hx] at h ⊢
    exact executeBytes_interrupted hsound h
  errorPos_le _ := by
    rw [hx]
    exact executeBytes_errorPos_le
  stops ys h := by
    rw [hx] at h ⊢
    rw [executeBytes_stopped ys h]
    exact ⟨rfl, rfl, rfl, rfl⟩
  resumes {hp xs ys} h _ := by
    simp only [hx] at h ⊢
    rw [executeBytes_append ys h hsound]
    exact ⟨rfl, fun _ => rfl, rfl, rfl⟩

end

end Http
end Psets
