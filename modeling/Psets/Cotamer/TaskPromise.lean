/-
Task promises and their resolution points.

A coroutine that reaches `co_await resolve{}` goes on only for somebody who takes its
value: at once when it is actively awaited, and otherwise when `resolve()` is called.
Detached tasks, `resolution()` and the home driver, of which there is one, are left
out.
-/
import Mathlib.Logic.Function.Basic

namespace Psets
namespace Cotamer

/-- `awaiter_`: nothing, a coroutine, or the body of an event. -/
inductive Awaiter where
  | none
  | task
  | event (id : Nat)
  deriving DecidableEq, Repr

structure Promise where
  resolving : Bool := false
  forwarded : Bool := false
  inResolve : Bool := false
  awaiter : Awaiter := .none
  /-- `forward_` is set: to the coroutine that this one awaits. -/
  forward : Bool := false
  deriving DecidableEq, Repr

/-- What `resolve()` needs of the coroutine of a promise. -/
structure Coroutine (σ : Type) where
  promise : σ → Promise
  setPromise : σ → Promise → σ
  done : σ → Bool
  /-- `forward_->resolve()` -/
  resolveAwaitee : σ → Option (Bool × σ)
  /-- `handle()` -/
  resume : σ → Option σ

namespace Coroutine

variable {σ : Type} (c : Coroutine σ)

def setResolving (s : σ) (resolving : Bool) : σ :=
  c.setPromise s { c.promise s with resolving := resolving }

def setInResolve (s : σ) (inResolve : Bool) : σ :=
  c.setPromise s { c.promise s with inResolve := inResolve }

/-- `task_promise_base::resolve()`, with at most `fuel` rounds of its loop. -/
def resolve : Nat → σ → Option (Bool × σ)
  | 0, _ => none
  | fuel + 1, s =>
    if c.done s then some (true, s)
    -- it has not reached a resolution point
    else if (c.promise s).resolving = false then some (false, s)
    -- it is subject to `forward()`, but `co_await` has not linked another task to it
    else if (c.promise s).forwarded then some (false, s)
    else do
      let s := c.setResolving s false
      let (resolved, s) ← if (c.promise s).forward then c.resolveAwaitee s else some (true, s)
      if resolved then
        let s ← c.resume (c.setInResolve s true)
        resolve fuel (c.setInResolve s false)
      else resolve fuel s

variable {c} {s t : σ} {fuel : Nat}

theorem resolve_done (h : c.done s = true) : c.resolve (fuel + 1) s = some (true, s) := by
  rw [resolve, if_pos h]

theorem resolve_idle (hd : c.done s = false) (hr : (c.promise s).resolving = false) :
    c.resolve (fuel + 1) s = some (false, s) := by
  rw [resolve, if_neg (by rw [hd]; simp), if_pos hr]

/-- A round past a resolution point that is the coroutine's own. -/
theorem resolve_resume (hd : c.done s = false) (hr : (c.promise s).resolving = true)
    (hf : (c.promise s).forwarded = false)
    (ha : (c.promise (c.setResolving s false)).forward = false)
    (hres : c.resume (c.setInResolve (c.setResolving s false) true) = some t) :
    c.resolve (fuel + 1) s = c.resolve fuel (c.setInResolve t false) := by
  rw [resolve, if_neg (by rw [hd]; simp), if_neg (by rw [hr]; simp), if_neg (by rw [hf]; simp)]
  simp [ha, hres]

end Coroutine

end Cotamer
end Psets
