/-
`http_parser::receive()`, and the bytes that it takes from the connection.

`llhttp` is a parameter.  A call of `llhttp_execute` is what it does: the callbacks that
it invoked, its result, and where it stopped.  `on_message_complete` is the one callback
that returns something other than zero.  The read mutex is left out here.
-/
import Mathlib.Data.List.Basic
import Psets.Http.Message

namespace Psets
namespace Http

open HttpMessage

/-- `HPE_PAUSED` -/
def hpePaused : Nat := 21

/-- `HPE_PAUSED_UPGRADE` -/
def hpePausedUpgrade : Nat := 22

/-- A call of `llhttp_execute`. -/
structure Execution (σ : Type) where
  calls : List Callback
  err : Nat
  /-- `llhttp_get_error_pos`, from the first byte of the call; known if `err` is not
  `HPE_OK` -/
  errorPos : Nat
  hp : σ
  deriving DecidableEq, Repr

/-- The parser that `hp_` is the state of. -/
structure Llhttp (σ : Type) where
  execute : σ → Str → Execution σ
  /-- `llhttp_resume` -/
  resume : σ → σ
  /-- `llhttp_resume_after_upgrade` -/
  resumeAfterUpgrade : σ → σ
  status : σ → ParserStatus
  /-- `hp_.error = e` -/
  setError : σ → Nat → σ

/-- What `receive` keeps between two calls, and what the connection has yet to bring: the
results of `recv`, after which it returns zero or fails. -/
structure Connection (σ : Type) where
  hp : σ
  receiveBuffer : Str := []
  incoming : List Str
  /-- the bytes that `llhttp_execute` was given and took -/
  parsed : Str := []

namespace Llhttp

variable {σ : Type} (llhttp : Llhttp σ)

/-- One round of the loop in `receive`. -/
structure Round (σ : Type) where
  hp : σ
  md : MessageData
  consumed : Nat
  /-- the round ends the loop -/
  last : Bool

/-- A call of `llhttp_execute` on `buf`, and what is made of its result. -/
def round (hp : σ) (md : MessageData) (buf : Str) : Round σ :=
  let x := llhttp.execute hp buf
  let md := x.calls.foldl callback md
  let consumed := if x.err ≠ hpeOk then x.errorPos else buf.length
  let (hp, md) :=
    if x.err = hpePausedUpgrade then
      (llhttp.resumeAfterUpgrade x.hp, { md with state := .done })
    else if x.err = hpePaused then (llhttp.resume x.hp, { md with state := .done })
    else (x.hp, md)
  if x.err ≠ hpeOk ∨ md.state = .done then
    { hp, md := { md with hm := md.hm.copyParserStatus (llhttp.status hp) }, consumed, last := true }
  else { hp, md, consumed, last := false }

/-- The end of `receive`. -/
def finish (md : MessageData) (c : Connection σ) : HttpMessage × Connection σ :=
  if md.state ≠ .done ∧ md.hm.error = hpeOk then
    ({ md.hm with error := hpeClosedConnection },
      { c with hp := llhttp.setError c.hp hpeClosedConnection })
  else (md.hm, c)

/-- The loop in `receive`.  The first of `bufs` may be what the last call left over; a round
that goes on has consumed its bytes, so the next one calls `recv`. -/
def receiveLoop (hp : σ) (md : MessageData) (parsed : Str) : List Str → HttpMessage × Connection σ
  | [] => llhttp.finish md { hp, incoming := [], parsed }
  | buf :: bufs =>
    let r := llhttp.round hp md buf
    if r.last then
      llhttp.finish r.md
        { hp := r.hp, receiveBuffer := buf.drop r.consumed, incoming := bufs
          parsed := parsed ++ buf.take r.consumed }
    else receiveLoop r.hp r.md (parsed ++ buf) bufs

def receive (c : Connection σ) : HttpMessage × Connection σ :=
  llhttp.receiveLoop c.hp {} c.parsed
    (if c.receiveBuffer = [] then c.incoming else c.receiveBuffer :: c.incoming)

/-- Successive calls of `receive`. -/
def receives : Nat → Connection σ → List HttpMessage × Connection σ
  | 0, c => ([], c)
  | n + 1, c =>
    let (m, c) := llhttp.receive c
    let (ms, c) := receives n c
    (m :: ms, c)

/-! ## What `receive` returns -/

variable {llhttp} {hp : σ} {md : MessageData} {buf : Str}

/-- What becomes of the parser and the message when `llhttp_execute` has stopped. -/
def halt (llhttp : Llhttp σ) (err : Nat) (hp : σ) (md : MessageData) : σ × MessageData :=
  let (hp, md) :=
    if err = hpePausedUpgrade then (llhttp.resumeAfterUpgrade hp, { md with state := .done })
    else if err = hpePaused then (llhttp.resume hp, { md with state := .done })
    else (hp, md)
  (hp, { md with hm := md.hm.copyParserStatus (llhttp.status hp) })

theorem round_of_stopped (h : (llhttp.execute hp buf).err ≠ hpeOk) :
    let x := llhttp.execute hp buf
    let t := llhttp.halt x.err x.hp (x.calls.foldl callback md)
    llhttp.round hp md buf = ⟨t.1, t.2, x.errorPos, true⟩ := by
  simp only [round, halt, ne_eq, h, not_false_eq_true, true_or, if_true]

theorem round_of_ok (h : (llhttp.execute hp buf).err = hpeOk) :
    let x := llhttp.execute hp buf
    let md' := x.calls.foldl callback md
    llhttp.round hp md buf =
      if md'.state = .done then
        ⟨x.hp, { md' with hm := md'.hm.copyParserStatus (llhttp.status x.hp) }, buf.length, true⟩
      else ⟨x.hp, md', buf.length, false⟩ := by
  have h1 : hpeOk ≠ hpePausedUpgrade := by decide
  have h2 : hpeOk ≠ hpePaused := by decide
  simp only [round, h, ne_eq, not_true_eq_false, false_or, if_false, h1, h2]

theorem halt_eq (llhttp : Llhttp σ) (err : Nat) (hp : σ) (md : MessageData) :
    ∃ hp', ∃ paused : Bool, llhttp.halt err hp md = (hp', { md with
      hm := md.hm.copyParserStatus (llhttp.status hp')
      state := if paused then .done else md.state }) := by
  by_cases hu : err = hpePausedUpgrade
  · exact ⟨llhttp.resumeAfterUpgrade hp, true, by simp only [halt, if_pos hu]; rfl⟩
  · by_cases hp' : err = hpePaused
    · exact ⟨llhttp.resume hp, true, by simp only [halt, if_neg hu, if_pos hp']; rfl⟩
    · exact ⟨hp, false, by simp only [halt, if_neg hu, if_neg hp']; rfl⟩

theorem finish_message (md : MessageData) (c : Connection σ) : (llhttp.finish md c).1 =
    if md.state ≠ .done ∧ md.hm.error = hpeOk then { md.hm with error := hpeClosedConnection }
    else md.hm := by
  rw [finish]
  split <;> rfl

/-- The message is what the callbacks of the call have made of it. -/
theorem receiveLoop_message (hp : σ) (calls : List Callback) (parsed : Str) (bufs : List Str) :
    ∃ calls' ending, (llhttp.receiveLoop hp (calls.foldl callback {}) parsed bufs).1 =
      HttpMessage.receive (calls ++ calls') ending := by
  induction bufs generalizing hp calls parsed with
  | nil =>
    refine ⟨[], .closed, ?_⟩
    rw [List.append_nil, receiveLoop, finish_message, HttpMessage.receive]
  | cons buf bufs ih =>
    rw [receiveLoop]
    by_cases hok : (llhttp.execute hp buf).err = hpeOk
    · rw [round_of_ok hok, ← List.foldl_append]
      by_cases hdone :
          ((calls ++ (llhttp.execute hp buf).calls).foldl callback {}).state = .done
      · refine ⟨(llhttp.execute hp buf).calls,
          .stopped (llhttp.status (llhttp.execute hp buf).hp) false, ?_⟩
        simp only [if_pos hdone, if_true, finish_message, HttpMessage.receive, Bool.false_eq_true,
          if_false]
      · obtain ⟨calls', ending, he⟩ :=
          ih (llhttp.execute hp buf).hp (calls ++ (llhttp.execute hp buf).calls) (parsed ++ buf)
        refine ⟨(llhttp.execute hp buf).calls ++ calls', ending, ?_⟩
        rw [← List.append_assoc, ← he, if_neg hdone]
        rfl
    · rw [round_of_stopped hok, ← List.foldl_append]
      obtain ⟨hp', paused, hh⟩ := halt_eq llhttp (llhttp.execute hp buf).err
        (llhttp.execute hp buf).hp ((calls ++ (llhttp.execute hp buf).calls).foldl callback {})
      refine ⟨(llhttp.execute hp buf).calls, .stopped (llhttp.status hp') paused, ?_⟩
      simp only [hh, if_true, finish_message, HttpMessage.receive]

end Llhttp

end Http
end Psets
