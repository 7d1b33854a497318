/-
A receive that loses a race consumes nothing.

Until it returns, a receive is in one of two shapes: its inner coroutine waits for a
message, or it is parked at its resolution point with the message still queued.  Only
`find_resolved` moves a parked receive on, one argument after the other, and it stops
at the first that takes a message; that is the one whose value the combinator returns.
-/
import Psets.Netsim.Combinators

namespace Psets
namespace Netsim

open Cotamer

variable {T : Type} {s s' : State T} {r f p : Nat} {awaiter : Awaiter}
  {recv : Receive (T × Str) T} {arms : List Arm} {c : Combinator T}

/-! ## The shapes of a receive -/

/-- A receive that has taken nothing yet. -/
inductive Unfinished (awaiter : Awaiter) : Receive (T × Str) T → Prop where
  | waiting {port : Nat} {pc : Pc} : pc ≠ .resolving → pc ≠ .done →
      Unfinished awaiter (.waiting true port pc awaiter)
  | parked {port : Nat} : Unfinished awaiter (.parked port awaiter)

/-- Between steps, a receive that has completed has given its value away. -/
inductive Settled : Receive (T × Str) T → Prop where
  | unfinished {recv : Receive (T × Str) T} (awaiter : Awaiter) : Unfinished awaiter recv →
      Settled recv
  | finished {port : Nat} {inner awaiter : Awaiter} : Settled (.finished port inner awaiter none)

theorem Unfinished.setAwaiter (h : Unfinished awaiter recv) (awaiter' : Awaiter) :
    Unfinished awaiter' (recv.setAwaiter awaiter') := by
  cases h with
  | waiting h1 h2 => exact .waiting h1 h2
  | parked => exact .parked

theorem Unfinished.awaiter_eq (h : Unfinished awaiter recv) : recv.outer.awaiter = awaiter := by
  cases h <;> rfl

theorem Unfinished.wake (h : Unfinished awaiter recv) (p : Nat) :
    Unfinished awaiter (State.wake p recv) := by
  rw [State.wake]
  split
  · rename_i hw
    cases h with
    | waiting => exact .waiting (by simp) (by simp)
    | parked => exact absurd hw.2 (by simp [Receive.parked])
  · exact h

theorem Settled.wake (h : Settled recv) (p : Nat) : Settled (State.wake p recv) := by
  cases h with
  | unfinished awaiter h => exact .unfinished awaiter (h.wake p)
  | finished =>
    rw [State.wake, if_neg]
    · exact .finished
    · rintro ⟨_, hpc⟩
      exact absurd hpc (by simp [Receive.finished])

theorem Settled.unfinished_of_done (h : Settled recv) (hd : recv.done = false) :
    Unfinished recv.outer.awaiter recv := by
  cases h with
  | unfinished awaiter h =>
    rw [h.awaiter_eq]
    exact h
  | finished => exact absurd hd (by simp [Receive.finished])

/-! ## Resolving the arguments of a combinator -/

/-- Nothing changed but receives. -/
structure Same (s s' : State T) : Prop where
  messageq : s'.messageq = s.messageq
  returned : s'.returned = s.returned
  delivered : s'.delivered = s.delivered
  combinators : s'.combinators = s.combinators
  holder : s'.holder = s.holder

theorem Same.refl (s : State T) : Same s s := ⟨rfl, rfl, rfl, rfl, rfl⟩

theorem Same.trans {s'' : State T} (h : Same s s') (h' : Same s' s'') : Same s s'' :=
  ⟨h'.messageq.trans h.messageq, h'.returned.trans h.returned, h'.delivered.trans h.delivered,
    h'.combinators.trans h.combinators, h'.holder.trans h.holder⟩

def portOf (s : State T) (r : Nat) : Option Nat := (s.receives r).map (·.port)

/-- The head of a queue was taken; its receive `r` holds it. -/
structure Popped (s s' : State T) (r port : Nat) (m : T × Str) : Prop where
  head : s.messageq port = m :: s'.messageq port
  others : ∀ q, q ≠ port → s'.messageq q = s.messageq q
  recv : s'.receives r = some (.finished port .task .none (some m.1))
  port : portOf s r = some port
  returned : s'.returned = s.returned
  delivered : s'.delivered = s.delivered
  combinators : s'.combinators = s.combinators
  holder : s'.holder = s.holder

/-- The receive can be resolved. -/
def Ready (s : State T) (r : Nat) : Prop :=
  ∃ recv, s.receives r = some recv ∧ Unfinished .none recv

inductive Resolved (s : State T) (r : Nat) : Bool → State T → Prop where
  | blocked {s' : State T} : Same s s' → Ready s' r → portOf s' r = portOf s r →
      (∀ r', r' ≠ r → s'.receives r' = s.receives r') → Resolved s r false s'
  | taken {s' : State T} {port : Nat} {m : T × Str} : Popped s s' r port m →
      (∀ r', r' ≠ r → s'.receives r' = s.receives r') → Resolved s r true s'

theorem store_same {t : Turn (T × Str) T} (hq : t.messageq = s.messageq t.recv.port)
    (he : t.event = none) (hv : t.value = none) : Same s (s.store r t) := by
  have hmq : Function.update s.messageq t.recv.port t.messageq = s.messageq := by
    rw [hq, Function.update_eq_self]
  simp only [State.store, he, hv, hmq, Option.toList_none, List.map_nil, List.append_nil]
  exact ⟨rfl, rfl, rfl, rfl, rfl⟩

theorem resolveTask_resolved (h : Ready s r) :
    ∃ b s', s.resolveTask r = some (b, s') ∧ Resolved s r b s' := by
  obtain ⟨recv, hr, hu⟩ := h
  cases hu with
  | @waiting port pc h1 h2 =>
    refine ⟨false, s, ?_, .blocked (.refl s) ⟨_, hr, .waiting h1 h2⟩ rfl fun _ _ => rfl⟩
    simp [State.resolveTask, hr, Receive.waiting]
  | @parked port =>
    have hturn : s.turn (.parked port .none) =
        { messageq := s.messageq port, recv := .parked port .none } := rfl
    rcases hq : s.messageq port with _ | ⟨m, q⟩
    · -- the message was taken by another receive
      rw [hq] at hturn
      have hsame : Same s (s.store r
          { messageq := [], recv := .waiting true port .listening .none }) :=
        store_same hq.symm rfl rfl
      refine ⟨false, _, ?_, .blocked hsame
        ⟨_, Function.update_self .., .waiting (by simp) (by simp)⟩ ?_
        fun r' hr' => Function.update_of_ne hr' ..⟩
      · simp only [State.resolveTask, hr, Option.bind_eq_bind, Option.bind_some]
        rw [if_pos (by rfl), hturn, Turn.resolve_parked_nil]
        rfl
      · rw [portOf, portOf, hr]
        show (Function.update s.receives r _ r).map _ = _
        rw [Function.update_self]
        rfl
    · rw [hq] at hturn
      have hpopped : Popped s
          (s.store r ⟨q, .finished port .task .none (some m.1), none, none⟩) r port m := by
        refine ⟨?_, fun q hq => Function.update_of_ne hq .., Function.update_self .., ?_,
          List.append_nil _, rfl, rfl, rfl⟩
        · rw [hq]
          show m :: q = m :: Function.update s.messageq port q port
          rw [Function.update_self]
        · rw [portOf, hr]
          rfl
      refine ⟨true, _, ?_, .taken hpopped fun r' hr' => Function.update_of_ne hr' ..⟩
      simp only [State.resolveTask, hr, Option.bind_eq_bind, Option.bind_some]
      rw [if_pos (by rfl), hturn, Turn.resolve_parked]
      rfl

/-- What `find_resolved()` does. -/
inductive Found (s : State T) (arms : List Arm) : Nat → State T → Prop where
  | untaken {n : Nat} {s' : State T} :
      n = arms.length ∨ arms[n]? = some (.event true) → Same s s' →
      (∀ r ∈ taskIds arms, Ready s' r) → (∀ r, r ∉ taskIds arms → s'.receives r = s.receives r) →
      Found s arms n s'
  | taken {n r port : Nat} {owned : Bool} {m : T × Str} {s' : State T} :
      arms[n]? = some (.task r owned) → Popped s s' r port m →
      (∀ r' ∈ taskIds arms, r' ≠ r → Ready s' r') →
      (∀ r', r' ∉ taskIds arms → s'.receives r' = s.receives r') → Found s arms n s'

theorem taskIds_task (r : Nat) (owned : Bool) (arms : List Arm) :
    taskIds (.task r owned :: arms) = r :: taskIds arms := rfl

theorem taskIds_event (b : Bool) (arms : List Arm) :
    taskIds (.event b :: arms) = taskIds arms := rfl

theorem mem_taskIds {owned : Bool} (h : .task r owned ∈ arms) : r ∈ taskIds arms :=
  List.mem_filterMap.2 ⟨_, h, rfl⟩

theorem Ready.of_eq (h : Ready s r) (he : s'.receives r = s.receives r) : Ready s' r := by
  obtain ⟨recv, hr, hu⟩ := h
  exact ⟨recv, he.trans hr, hu⟩

theorem findResolved_found (h : ∀ r ∈ taskIds arms, Ready s r) :
    ∃ n s', State.findResolved arms s = some (n, s') ∧ Found s arms n s' := by
  induction arms generalizing s with
  | nil =>
    exact ⟨0, s, rfl, .untaken (Or.inl rfl) (.refl s) (fun _ hr => absurd hr (by simp [taskIds]))
      fun _ _ => rfl⟩
  | cons arm arms ih =>
    cases arm with
    | event b =>
      cases b with
      | true =>
        exact ⟨0, s, rfl, .untaken (Or.inr rfl) (.refl s) h fun _ _ => rfl⟩
      | false =>
        obtain ⟨n, s', he, hf⟩ := ih h
        refine ⟨n + 1, s', by simp [State.findResolved, he], ?_⟩
        cases hf with
        | untaken hn hs hready hothers =>
          refine .untaken ?_ hs hready hothers
          rcases hn with rfl | hn
          · exact Or.inl rfl
          · exact Or.inr hn
        | taken hn hp hready hothers => exact .taken hn hp hready hothers
    | task r owned =>
      rw [taskIds_task] at h
      obtain ⟨b, s1, he, hres⟩ := resolveTask_resolved (h r List.mem_cons_self)
      cases hres with
      | taken hp hothers =>
        refine ⟨0, s1, by simp [State.findResolved, he], .taken rfl hp (fun r' hr' hne => ?_)
          fun r' hr' => hothers r' fun e => hr' (e ▸ List.mem_cons_self)⟩
        exact (h r' hr').of_eq (hothers r' hne)
      | blocked hs hready hport hothers =>
        have hready1 : ∀ r' ∈ taskIds arms, Ready s1 r' := fun r' hr' => by
          by_cases e : r' = r
          · rw [e]
            exact hready
          · exact (h r' (List.mem_cons_of_mem _ hr')).of_eq (hothers r' e)
        obtain ⟨n, s', he', hf⟩ := ih hready1
        refine ⟨n + 1, s', by simp [State.findResolved, he, he'], ?_⟩
        have hrest : ∀ r', r' ∉ taskIds arms → s'.receives r' = s1.receives r' := by
          cases hf with
          | untaken _ _ _ ho => exact ho
          | taken _ _ _ ho => exact ho
        have hothers' : ∀ r', r' ∉ taskIds (.task r owned :: arms) →
            s'.receives r' = s.receives r' := fun r' hr' => by
          rw [taskIds_task, List.mem_cons, not_or] at hr'
          rw [hrest r' hr'.2, hothers r' hr'.1]
        cases hf with
        | untaken hn hs' hready' _ =>
          refine .untaken ?_ (hs.trans hs') (fun r' hr' => ?_) hothers'
          · rcases hn with rfl | hn
            · exact Or.inl rfl
            · exact Or.inr hn
          · by_cases hm : r' ∈ taskIds arms
            · exact hready' r' hm
            · rw [taskIds_task, List.mem_cons] at hr'
              obtain rfl := hr'.resolve_right hm
              exact hready.of_eq (hrest r' hm)
        | @taken k _ _ _ _ hn hp hready' _ =>
          refine .taken hn ⟨?_, fun q hq => ?_, hp.recv, ?_, ?_, ?_, ?_, ?_⟩ (fun r' hr' hne => ?_)
            hothers'
          · rw [← hs.messageq]
            exact hp.head
          · rw [← hs.messageq]
            exact hp.others q hq
          · by_cases e : k = r
            · rw [e] at hp ⊢
              exact hport.symm.trans hp.port
            · rw [portOf, ← hothers k e]
              exact hp.port
          · rw [hp.returned, hs.returned]
          · rw [hp.delivered, hs.delivered]
          · rw [hp.combinators, hs.combinators]
          · rw [hp.holder, hs.holder]
          · by_cases hm : r' ∈ taskIds arms
            · exact hready' r' hm hne
            · rw [taskIds_task, List.mem_cons] at hr'
              obtain rfl := hr'.resolve_right hm
              exact hready.of_eq (hrest r' hm)

/-! ## What a combinator does when it runs -/

/-- Nothing was delivered, and nothing was taken. -/
structure Quiet (s s' : State T) : Prop where
  messageq : s'.messageq = s.messageq
  returned : s'.returned = s.returned
  delivered : s'.delivered = s.delivered

/-- The head of a queue was taken and returned. -/
structure Took (s s' : State T) (port : Nat) (m : T × Str) : Prop where
  head : s.messageq port = m :: s'.messageq port
  others : ∀ q, q ≠ port → s'.messageq q = s.messageq q
  returned : s'.returned = s.returned ++ [(port, m.1)]
  delivered : s'.delivered = s.delivered

/-- A change to the receives of one combinator. -/
structure Frame (arms : List Arm) (s s' : State T) : Prop where
  combinators : s'.combinators = s.combinators
  others : ∀ r, r ∉ taskIds arms → s'.receives r = s.receives r ∧ s'.holder r = s.holder r
  settled : ∀ r ∈ taskIds arms, ∀ recv, s'.receives r = some recv → Settled recv

/-- A combinator holds its receives, none of which has taken anything. -/
def Holds (s : State T) (f : Nat) (arms : List Arm) (awaiter : Awaiter) : Prop :=
  ∀ r ∈ taskIds arms, s.holder r = some f ∧
    ∃ recv, s.receives r = some recv ∧ Unfinished awaiter recv

theorem Holds.ready (h : Holds s f arms .none) : ∀ r ∈ taskIds arms, Ready s r := fun r hr =>
  (h r hr).2

theorem Holds.setAwaiters (h : Holds s f arms awaiter) (awaiter' : Awaiter) :
    Holds (s.setAwaiters arms awaiter') f arms awaiter' := by
  intro r hr
  obtain ⟨hh, recv, hrecv, hu⟩ := h r hr
  refine ⟨hh, _, ?_, hu.setAwaiter awaiter'⟩
  rw [State.setAwaiters]
  simp only [if_pos hr, hrecv, Option.map_some]

theorem Holds.frame (h : Holds s' f arms awaiter) (hc : s'.combinators = s.combinators)
    (ho : ∀ r, r ∉ taskIds arms → s'.receives r = s.receives r ∧ s'.holder r = s.holder r) :
    Frame arms s s' := by
  refine ⟨hc, ho, fun r hr recv hrecv => ?_⟩
  obtain ⟨_, recv', hrecv', hu⟩ := h r hr
  rw [hrecv] at hrecv'
  exact Option.some.inj hrecv' ▸ .unfinished _ hu

theorem Frame.trans {s'' : State T} (h : Frame arms s s') (h' : Frame arms s' s'') :
    Frame arms s s'' where
  combinators := h'.combinators.trans h.combinators
  others r hr := ⟨(h'.others r hr).1.trans (h.others r hr).1,
    (h'.others r hr).2.trans (h.others r hr).2⟩
  settled := h'.settled

theorem setAwaiters_others (s : State T) (arms : List Arm) (awaiter : Awaiter)
    (hr : r ∉ taskIds arms) :
    (s.setAwaiters arms awaiter).receives r = s.receives r := by
  simp only [State.setAwaiters, if_neg hr]

theorem portOf_setAwaiters (s : State T) (arms : List Arm) (awaiter : Awaiter) (r : Nat) :
    portOf (s.setAwaiters arms awaiter) r = portOf s r := by
  rw [portOf, portOf, State.setAwaiters]
  by_cases hr : r ∈ taskIds arms
  · simp only [if_pos hr, Option.map_map]
    rfl
  · simp only [if_neg hr]

/-- The arguments are destroyed. -/
theorem frame_release (hc : s'.combinators = s.combinators) (hh : s'.holder = s.holder)
    (ho : ∀ r, r ∉ taskIds arms → s'.receives r = s.receives r)
    (hs : ∀ r ∈ taskIds arms, ∀ recv, s'.receives r = some recv → Settled recv) :
    Frame arms s (s'.release arms) := by
  refine ⟨hc, fun r hr => ?_, fun r hr recv hrecv => ?_⟩
  · refine ⟨?_, ?_⟩
    · simp only [State.release, if_neg fun h => hr (mem_taskIds h), ho r hr]
    · simp only [State.release, if_neg hr, hh]
  · simp only [State.release] at hrecv
    split at hrecv
    · exact absurd hrecv (by simp)
    · exact hs r hr recv hrecv

/-- What comes of running the loop of a combinator. -/
structure Ran (f : Nat) (s : State T) (c : Combinator T) (x : State T × Combinator T) : Prop where
  frame : Frame c.arms s x.1
  effect : Quiet s x.1 ∨ ∃ i r owned port m, c.arms[i]? = some (.task r owned) ∧
    portOf s r = some port ∧ x.2.outcome = some (.received i m.1) ∧ Took s x.1 port m
  arms : x.2.arms = c.arms
  next : x.2.pc = .done ∨ x.2.pc = .waiting ∧ x.2.promise = c.promise ∧ x.2.kind = c.kind ∧
    Holds x.1 f c.arms (.event f)

theorem Ready.settled (h : Ready s r) (hr : s.receives r = some recv) : Settled recv := by
  obtain ⟨recv', hr', hu⟩ := h
  rw [hr] at hr'
  exact Option.some.inj hr' ▸ .unfinished _ hu

theorem wait_ran (hh : Holds s f c.arms .none) (hs : Same s s')
    (hready : ∀ r ∈ taskIds c.arms, Ready s' r)
    (ho : ∀ r, r ∉ taskIds c.arms → s'.receives r = s.receives r) :
    Ran f s c (c.wait f s') := by
  have hholds : Holds s' f c.arms .none := fun r hr => by
    rw [hs.holder]
    exact ⟨(hh r hr).1, hready r hr⟩
  have hwait := hholds.setAwaiters (.event f)
  refine ⟨hwait.frame hs.combinators fun r hr => ⟨?_, ?_⟩,
    Or.inl ⟨hs.messageq, hs.returned, hs.delivered⟩, rfl, Or.inr ⟨rfl, rfl, rfl, hwait⟩⟩
  · rw [setAwaiters_others _ _ _ hr]
    exact ho r hr
  · exact congrFun hs.holder r

/-- The receive whose value is selected. -/
theorem select_taken {n port : Nat} {owned : Bool} {m : T × Str}
    (hn : arms[n]? = some (.task r owned)) (hp : Popped s s' r port m) :
    s'.select arms n = some (.received n m.1,
      { s' with
        receives := Function.update s'.receives r (some (.finished port .task .none none))
        returned := s'.returned ++ [(port, m.1)] }) := by
  simp only [State.select, hn, Option.bind_eq_bind, Option.bind_some, hp.recv]
  rfl

theorem Kind.Accepts.event_of_attempt {kind : Kind} (h : kind.Accepts arms) (hk : kind = .attempt)
    {n : Nat} {owned : Bool} (hn : n ≠ 0) : arms[n]? ≠ some (.task r owned) := by
  subst hk
  intro he
  have hmem : .task r owned ∈ arms.tail := by
    obtain ⟨k, rfl⟩ := Nat.exists_eq_succ_of_ne_zero hn
    rw [← List.getElem?_tail] at he
    exact List.mem_of_getElem? he
  have := mem_taskIds hmem
  rw [h.2] at this
  exact absurd this List.not_mem_nil

theorem loop_ran (hacc : c.kind.Accepts c.arms) (hh : Holds s f c.arms .none) :
    ∃ x, Combinator.loop f (s, c) = some x ∧ Ran f s c x := by
  obtain ⟨n, s1, he, hfound⟩ := findResolved_found hh.ready
  cases hfound with
  | untaken hn hs hready ho =>
    have hquiet : Quiet s s1 := ⟨hs.messageq, hs.returned, hs.delivered⟩
    have hframe : Frame c.arms s (s1.release c.arms) :=
      frame_release hs.combinators hs.holder ho fun r hr _ => (hready r hr).settled
    by_cases hlen : n = c.arms.length
    · refine ⟨_, ?_, wait_ran hh hs hready ho⟩
      simp [Combinator.loop, he, hlen]
    · have hev := hn.resolve_left hlen
      by_cases hcancel : c.kind = .attempt ∧ n ≠ 0
      · refine ⟨c.finish s1 .cancelled, ?_, hframe, Or.inl ⟨hs.messageq, hs.returned,
          hs.delivered⟩, rfl, Or.inl rfl⟩
        simp only [Combinator.loop, he, Option.bind_eq_bind, Option.bind_some, if_neg hlen,
          Combinator.outcomeOf, if_pos hcancel]
      · refine ⟨c.finish s1 (.triggered n), ?_, hframe, Or.inl ⟨hs.messageq, hs.returned,
          hs.delivered⟩, rfl, Or.inl rfl⟩
        simp only [Combinator.loop, he, Option.bind_eq_bind, Option.bind_some, if_neg hlen,
          Combinator.outcomeOf, if_neg hcancel, State.select, hev]
  | @taken r port owned m _ hn hp hready ho =>
    have hlen : n ≠ c.arms.length := fun h => by
      rw [h, List.getElem?_eq_none (Nat.le_refl _)] at hn
      exact absurd hn (by simp)
    have hcancel : ¬ (c.kind = .attempt ∧ n ≠ 0) := fun h => hacc.event_of_attempt h.1 h.2 hn
    have hid : r ∈ taskIds c.arms := mem_taskIds (List.mem_of_getElem? hn)
    have hselect := select_taken hn hp
    generalize hs2 : ({ s1 with
      receives := Function.update s1.receives r (some (.finished port .task .none none))
      returned := s1.returned ++ [(port, m.1)] } : State T) = s2 at hselect
    have hrecv : s2.receives = Function.update s1.receives r
        (some (.finished port .task .none none)) := by rw [← hs2]
    have hframe : Frame c.arms s (s2.release c.arms) := by
      refine frame_release ?_ ?_ (fun r' hr' => ?_) fun r' hr' recv he => ?_
      · rw [← hs2]
        exact hp.combinators
      · rw [← hs2]
        exact hp.holder
      · have hne : r' ≠ r := fun e => hr' (e ▸ hid)
        rw [hrecv, Function.update_of_ne hne]
        exact ho r' hr'
      · rw [hrecv] at he
        by_cases e : r' = r
        · rw [e, Function.update_self, Option.some.injEq] at he
          exact he ▸ .finished
        · rw [Function.update_of_ne e] at he
          exact (hready r' hr' e).settled he
    have htook : Took s (s2.release c.arms) port m := by
      subst hs2
      refine ⟨hp.head, hp.others, ?_, hp.delivered⟩
      show s1.returned ++ _ = _
      rw [hp.returned]
    refine ⟨c.finish s2 (.received n m.1), ?_, hframe, Or.inr ⟨n, r, owned, port, m, hn, hp.port,
      rfl, htook⟩, rfl, Or.inl rfl⟩
    simp only [Combinator.loop, he, Option.bind_eq_bind, Option.bind_some, if_neg hlen,
      Combinator.outcomeOf, if_neg hcancel, hselect]

/-! ## The invariant -/

/-- The awaiter of the receives that a combinator holds. -/
def armAwaiter (f : Nat) : CombinatorPc → Awaiter
  | .waiting => .event f
  | .resolving | .done => .none

/-- A combinator that has not returned. -/
structure Live (s : State T) (f : Nat) (c : Combinator T) : Prop where
  accepts : c.kind.Accepts c.arms
  promise : c.pc = .resolving ∧ c.promise = { resolving := true } ∨
    c.pc = .waiting ∧ (c.promise = {} ∨ c.promise = { awaiter := .task })
  holds : Holds s f c.arms (armAwaiter f c.pc)

structure Ok (s : State T) : Prop where
  settled : ∀ r recv, s.receives r = some recv → Settled recv
  live : ∀ f c, s.combinators f = some c → c.pc ≠ .done → Live s f c

theorem Live.congr (h : Live s f c) (hr : ∀ r ∈ taskIds c.arms, s'.receives r = s.receives r)
    (hh : ∀ r ∈ taskIds c.arms, s'.holder r = s.holder r) : Live s' f c := by
  refine ⟨h.accepts, h.promise, fun r hm => ?_⟩
  rw [hr r hm, hh r hm]
  exact h.holds r hm

/-- One combinator runs or is destroyed; what it does stays within its own receives. -/
theorem Ok.framed (h : Ok s) (hc : s.combinators f = some c) (hd : c.pc ≠ .done)
    (hf : Frame c.arms s s') (next : Option (Combinator T))
    (hlive : ∀ d, next = some d → d.pc ≠ .done → Live s' f d) :
    Ok { s' with combinators := Function.update s'.combinators f next } := by
  have hholds := (h.live f c hc hd).holds
  refine ⟨fun r recv hr => ?_, fun g d hg hgd => ?_⟩
  · by_cases hm : r ∈ taskIds c.arms
    · exact hf.settled r hm recv hr
    · exact h.settled r recv ((hf.others r hm).1.symm.trans hr)
  · by_cases hgf : g = f
    · subst hgf
      have hnext : next = some d := by simpa only [Function.update_self] using hg
      exact (hlive d hnext hgd).congr (fun _ _ => rfl) fun _ _ => rfl
    · have hold : s.combinators g = some d := by
        rw [← hf.combinators]
        exact (Function.update_of_ne hgf ..).symm.trans hg
      have hlg := h.live g d hold hgd
      have hother : ∀ r ∈ taskIds d.arms, r ∉ taskIds c.arms := fun r hr hm => by
        have h1 := (hlg.holds r hr).1
        rw [(hholds r hm).1] at h1
        exact hgf (Option.some.inj h1).symm
      exact hlg.congr (fun r hr => (hf.others r (hother r hr)).1)
        fun r hr => (hf.others r (hother r hr)).2

theorem Ok.setCombinator (h : Ok s) (hc : s.combinators f = some c) (hd : c.pc ≠ .done)
    {x : State T × Combinator T} (hf : Frame c.arms s x.1)
    (hlive : x.2.pc ≠ .done → Live x.1 f x.2) : Ok (State.setCombinator f x) :=
  h.framed hc hd hf (some x.2) fun d hx hd => by
    obtain rfl := Option.some.inj hx
    exact hlive hd

/-- What a step may do to the queue of a port. -/
inductive Effect (s : State T) (s' : State T) (Returns : Nat → T → Prop) : Prop where
  | quiet : Quiet s s' → Effect s s' Returns
  | took {port : Nat} {m : T × Str} : Took s s' port m → Returns port m.1 → Effect s s' Returns
  | arrived {p : Nat} {m : T} {id : Str} :
      s'.messageq = Function.update s.messageq p (s.messageq p ++ [(m, id)]) →
      s'.returned = s.returned → s'.delivered = Function.update s.delivered p (s.delivered p ++ [m]) →
      Effect s s' Returns

/-- `f` is a combinator that has just returned the value of a receive on `port`. -/
def ReturnedBy (s s' : State T) (f port : Nat) (m : T) : Prop :=
  ∃ c i r owned, s'.combinators f = some c ∧ c.outcome = some (.received i m) ∧
    c.arms[i]? = some (.task r owned) ∧ portOf s r = some port

theorem Ran.effect_setCombinator {x : State T × Combinator T} (h : Ran f s c x) (p : Promise) :
    Effect s (State.setCombinator f (x.1, { x.2 with promise := p })) (ReturnedBy s
      (State.setCombinator f (x.1, { x.2 with promise := p })) f) := by
  rcases h.effect with hq | ⟨i, r, owned, port, m, harm, hport, hout, ht⟩
  · exact .quiet ⟨hq.messageq, hq.returned, hq.delivered⟩
  · refine .took ⟨ht.head, ht.others, ht.returned, ht.delivered⟩
      ⟨{ x.2 with promise := p }, i, r, owned, Function.update_self .., hout, ?_, hport⟩
    show x.2.arms[i]? = _
    rw [h.arms]
    exact harm

theorem Ran.live {x : State T × Combinator T} (h : Ran f s c x) (hacc : c.kind.Accepts c.arms)
    (p : Promise) (hp : x.2.pc = .waiting → p = {} ∨ p = { awaiter := .task })
    (hd : ({ x.2 with promise := p } : Combinator T).pc ≠ .done) :
    Live x.1 f { x.2 with promise := p } := by
  rcases h.next with hdone | ⟨hpc, _, hk, hholds⟩
  · exact absurd hdone hd
  · have hacc' : x.2.kind.Accepts x.2.arms := by
      rw [hk, h.arms]
      exact hacc
    refine ⟨hacc', Or.inr ⟨hpc, hp hpc⟩, ?_⟩
    show Holds x.1 f x.2.arms (armAwaiter f x.2.pc)
    rw [h.arms, hpc]
    exact hholds

/-! ## Resolving a combinator -/

theorem resolve_waiting (hpc : c.pc = .waiting) (hp : c.promise.resolving = false) :
    (Combinator.coroutine f).resolve Turn.resolveRounds (s, c) = some (false, (s, c)) :=
  Coroutine.resolve_idle (by simp [Combinator.coroutine, hpc]) hp

/-- A combinator at its resolution point is resolved: its loop runs once. -/
theorem resolve_resolving (hpc : c.pc = .resolving) (hp : c.promise = { resolving := true })
    {x : State T × Combinator T}
    (hx : Combinator.loop f (s, { c with promise := { inResolve := true } }) = some x)
    (hpcx : x.2.pc = .done ∨ x.2.pc = .waiting ∧ x.2.promise = { inResolve := true }) :
    (Combinator.coroutine f).resolve Turn.resolveRounds (s, c) =
      some (decide (x.2.pc = .done),
        (x.1, { x.2 with promise := { x.2.promise with inResolve := false } })) := by
  have hresume : (Combinator.coroutine f).resume ((Combinator.coroutine f).setInResolve
      ((Combinator.coroutine f).setResolving (s, c) false) true) = some x := by
    rw [← hx]
    simp only [Combinator.coroutine, Coroutine.setInResolve, Coroutine.setResolving,
      Combinator.resume, hpc, hp]
  rw [Turn.resolveRounds, Coroutine.resolve_resume (by simp [Combinator.coroutine, hpc])
    (by simp [Combinator.coroutine, hp]) (by simp [Combinator.coroutine, hp])
    (by simp [Combinator.coroutine, Coroutine.setResolving, hp]) hresume]
  rcases hpcx with hdone | ⟨hwait, hpx⟩
  · rw [Coroutine.resolve_done (by simp [Combinator.coroutine, Coroutine.setInResolve, hdone]),
      decide_eq_true hdone]
    rfl
  · rw [Coroutine.resolve_idle (by simp [Combinator.coroutine, Coroutine.setInResolve, hwait])
      (by simp [Combinator.coroutine, Coroutine.setInResolve, hpx]),
      decide_eq_false (by rw [hwait]; simp)]
    rfl

theorem Frame.refl (h : Holds s f arms awaiter) : Frame arms s s :=
  h.frame rfl fun _ _ => ⟨rfl, rfl⟩

/-- The receives that are taken from the event of a combinator stay as they are. -/
theorem Ran.of_setAwaiters {x : State T × Combinator T}
    (h : Ran f (s.setAwaiters c.arms awaiter) c x) (hh : Holds s f c.arms (.event f)) :
    Ran f s c x where
  frame := by
    have hset : Frame c.arms s (s.setAwaiters c.arms awaiter) :=
      (hh.setAwaiters awaiter).frame rfl fun r hr => ⟨setAwaiters_others _ _ _ hr, rfl⟩
    exact hset.trans h.frame
  effect := by
    rcases h.effect with hq | ⟨i, r, owned, port, m, harm, hport, hout, ht⟩
    · exact Or.inl ⟨hq.messageq, hq.returned, hq.delivered⟩
    · rw [portOf_setAwaiters] at hport
      exact Or.inr ⟨i, r, owned, port, m, harm, hport, hout,
        ht.head, ht.others, ht.returned, ht.delivered⟩
  arms := h.arms
  next := h.next

/-- What any way of running a combinator comes to. -/
structure Moved (f : Nat) (s s' : State T) : Prop where
  ok : Ok s'
  effect : Effect s s' (ReturnedBy s s' f)

theorem Ok.ran (h : Ok s) (hc : s.combinators f = some c) (hd : c.pc ≠ .done)
    {x : State T × Combinator T} {c' : Combinator T} (harms : c'.arms = c.arms)
    (hkind : c'.kind = c.kind) (hx : Ran f s c' x) (p : Promise)
    (hp : x.2.pc = .waiting → p = {} ∨ p = { awaiter := .task }) :
    Moved f s (State.setCombinator f (x.1, { x.2 with promise := p })) := by
  have hacc : c'.kind.Accepts c'.arms := by
    rw [harms, hkind]
    exact (h.live f c hc hd).accepts
  exact ⟨h.setCombinator hc hd (harms ▸ hx.frame) (hx.live hacc p hp),
    hx.effect_setCombinator p⟩

/-- `resolve()` of a combinator, whoever asks for it. -/
theorem Ok.resolve (h : Ok s) (hc : s.combinators f = some c) (hd : c.pc ≠ .done)
    (ha : c.promise.awaiter = .none) :
    ∃ b x, (Combinator.coroutine f).resolve Turn.resolveRounds (s, c) = some (b, x) ∧
      Moved f s (State.setCombinator f x) ∧ (b = false → Moved f s (State.setCombinator f
        (x.1, { x.2 with promise := { x.2.promise with awaiter := .task } }))) := by
  have hlive := h.live f c hc hd
  rcases hlive.promise with ⟨hpc, hp⟩ | ⟨hpc, hp⟩
  · have hholds : Holds s f c.arms .none := by
      have := hlive.holds
      rwa [hpc] at this
    obtain ⟨x, hx, hran⟩ := loop_ran (c := { c with promise := { inResolve := true } })
      hlive.accepts hholds
    have hnext : x.2.pc = .done ∨ x.2.pc = .waiting ∧ x.2.promise = { inResolve := true } :=
      hran.next.imp id fun hn => ⟨hn.1, hn.2.1⟩
    have hprom : x.2.pc = .waiting → x.2.promise = { inResolve := true } := fun hw =>
      (hnext.resolve_left (by rw [hw]; simp)).2
    refine ⟨_, _, resolve_resolving hpc hp hx hnext, ?_, fun _ => ?_⟩
    · refine h.ran hc hd (by rfl) (by rfl) hran _ fun hw => Or.inl ?_
      rw [hprom hw]
    · refine h.ran hc hd (by rfl) (by rfl) hran _ fun hw => Or.inr ?_
      rw [hprom hw]
  · have hp' : c.promise = {} := by
      rcases hp with hp | hp
      · exact hp
      · rw [hp] at ha
        exact absurd ha (by simp)
    have hself (p : Promise) (hpp : p = {} ∨ p = { awaiter := .task }) :
        Moved f s (State.setCombinator f (s, { c with promise := p })) := by
      refine ⟨h.setCombinator hc hd (.refl hlive.holds) fun _ => ?_, .quiet ⟨rfl, rfl, rfl⟩⟩
      exact ⟨hlive.accepts, Or.inr ⟨hpc, hpp⟩, hlive.holds⟩
    refine ⟨false, (s, c), resolve_waiting hpc (by rw [hp']), ?_, fun _ => ?_⟩
    · exact hself c.promise (Or.inl hp')
    · exact hself _ (Or.inr (by rw [hp']))

theorem Ok.resume (h : Ok s) (hc : s.combinators f = some c) (hpc : c.pc = .waiting) :
    ∃ x, (Combinator.coroutine f).resume (s, c) = some x ∧
      Moved f s (State.setCombinator f x) := by
  have hd : c.pc ≠ .done := by
    rw [hpc]
    simp
  have hlive := h.live f c hc hd
  have hp := (hlive.promise.resolve_left (by rw [hpc]; simp)).2
  have hholds : Holds s f c.arms (.event f) := by
    have := hlive.holds
    rwa [hpc] at this
  rcases hp with hp | hp
  · -- nobody awaits the combinator: it stops at its resolution point
    have hset := hholds.setAwaiters .none
    have hframe : Frame c.arms s (s.setAwaiters c.arms .none) :=
      hset.frame rfl fun r hr => ⟨setAwaiters_others _ _ _ hr, rfl⟩
    refine ⟨(s.setAwaiters c.arms .none, { c with pc := .resolving, promise :=
      { resolving := true } }), by simp [Combinator.coroutine, Combinator.resume, hpc, hp],
      h.setCombinator hc hd hframe fun _ => ⟨hlive.accepts, Or.inl ⟨rfl, rfl⟩, hset⟩,
      .quiet ⟨rfl, rfl, rfl⟩⟩
  · obtain ⟨x, hx, hran⟩ := loop_ran hlive.accepts (hholds.setAwaiters .none)
    refine ⟨x, by simp [Combinator.coroutine, Combinator.resume, hpc, hp, hx], ?_⟩
    refine h.ran hc hd rfl rfl (hran.of_setAwaiters hholds) x.2.promise fun hw => Or.inr ?_
    rcases hran.next with hdone | hwait
    · rw [hw] at hdone
      exact absurd hdone (by simp)
    · rw [hwait.2.1, hp]

/-! ## Steps of a receive -/

/-- A receive that no combinator holds. -/
theorem Ok.notMem (h : Ok s) (hh : s.holder r = none) (hc : s.combinators f = some c)
    (hd : c.pc ≠ .done) : r ∉ taskIds c.arms := fun hm => by
  have := ((h.live f c hc hd).holds r hm).1
  rw [hh] at this
  exact absurd this (by simp)

theorem store_combinators {t : Turn (T × Str) T} (hc : (s.store r t).combinators f = some c) :
    ∃ d, s.combinators f = some d ∧ ∃ b, c = { d with triggered := b } := by
  rw [State.store] at hc
  split at hc
  · rename_i g _
    by_cases hg : f = g
    · subst hg
      simp only [State.triggerEvent, Function.update_self, Option.map_eq_some_iff] at hc
      obtain ⟨d, hd, rfl⟩ := hc
      exact ⟨d, hd, true, rfl⟩
    · simp only [State.triggerEvent, Function.update_of_ne hg] at hc
      exact ⟨c, hc, c.triggered, rfl⟩
  · exact ⟨c, hc, c.triggered, rfl⟩

theorem store_receives (s : State T) (r : Nat) (t : Turn (T × Str) T) :
    (s.store r t).receives = Function.update s.receives r (some t.recv) := by
  rw [State.store]
  split <;> rfl

theorem store_holder (s : State T) (r : Nat) (t : Turn (T × Str) T) :
    (s.store r t).holder = s.holder := by
  rw [State.store]
  split <;> rfl

theorem Ok.store (h : Ok s) {t : Turn (T × Str) T} (hs : Settled t.recv)
    (hlive : ∀ f c, s.combinators f = some c → c.pc ≠ .done → r ∈ taskIds c.arms →
      Unfinished (armAwaiter f c.pc) t.recv) : Ok (s.store r t) := by
  refine ⟨fun r' recv hr => ?_, fun f c hc hd => ?_⟩
  · rw [store_receives] at hr
    by_cases e : r' = r
    · rw [e, Function.update_self, Option.some.injEq] at hr
      exact hr ▸ hs
    · rw [Function.update_of_ne e] at hr
      exact h.settled r' recv hr
  · obtain ⟨d, hdc, b, rfl⟩ := store_combinators hc
    have hl := h.live f d hdc hd
    refine ⟨hl.accepts, hl.promise, fun r' hr' => ?_⟩
    rw [store_receives, store_holder]
    refine ⟨(hl.holds r' hr').1, ?_⟩
    by_cases e : r' = r
    · subst e
      exact ⟨_, Function.update_self .., hlive f d hdc hd hr'⟩
    · rw [Function.update_of_ne e]
      exact (hl.holds r' hr').2

theorem store_quiet {t : Turn (T × Str) T} (hq : t.messageq = s.messageq t.recv.port)
    (hv : t.value = none) : Quiet s (s.store r t) := by
  have hmq : Function.update s.messageq t.recv.port t.messageq = s.messageq := by
    rw [hq, Function.update_eq_self]
  rw [State.store]
  split
  · exact ⟨hmq, by simp [State.triggerEvent, hv], rfl⟩
  · exact ⟨hmq, by simp [hv], rfl⟩

theorem store_took {q : List (T × Str)} {m : T × Str} {port : Nat} {inner awaiter : Awaiter}
    (hq : s.messageq port = m :: q) :
    Took s (s.store r ⟨q, .finished port inner awaiter none, none, some m.1⟩) port m :=
  ⟨by simp [State.store, Receive.finished, hq],
    fun _ hne => Function.update_of_ne hne .., rfl, rfl⟩

/-- Who gets the value of a receive on port `p`. -/
def Returns (s s' : State T) : Label T → Nat → T → Prop
  | .awaitCombinator f, p, m | .resolveCombinator f, p, m | .resumeCombinator f, p, m =>
    ReturnedBy s s' f p m
  | .awaitReceive r, p, _ => portOf s r = some p
  | .resume r, p, _ =>
    ∃ recv, s.receives r = some recv ∧ recv.port = p ∧ recv.outer.awaiter = .task
  | _, _, _ => False

/-- What one step comes to. -/
structure Stepped (s : State T) (a : Label T) (s' : State T) : Prop where
  ok : Ok s'
  effect : Effect s s' (Returns s s' a)

theorem Ok.resumeReceive (h : Ok s) (hr : s.receives r = some recv)
    (hpc : recv.pc = .woken ∨ recv.pc = .delaying) :
    Stepped s (.resume r) (s.store r ((s.turn recv).innerResume (reception T))) := by
  -- the receive stays unfinished for whom it was
  have keep {a : Awaiter} (hu : Unfinished a recv) {t : Turn (T × Str) T} (ht : Unfinished a t.recv)
      (hq : t.messageq = s.messageq t.recv.port) (hv : t.value = none) :
      Stepped s (.resume r) (s.store r t) := by
    refine ⟨h.store (.unfinished a ht) fun f c hc hd hm => ?_, .quiet (store_quiet hq hv)⟩
    obtain ⟨_, recv', hrecv', hu'⟩ := (h.live f c hc hd).holds r hm
    rw [hr, Option.some.injEq] at hrecv'
    rw [← hu'.awaiter_eq, ← hrecv', hu.awaiter_eq]
    exact ht
  cases h.settled r recv hr with
  | finished => exact absurd hpc (by simp [Receive.finished])
  | unfinished a hu =>
    cases hu with
    | parked => exact absurd hpc (by simp [Receive.parked])
    | @waiting port pc h1 h2 =>
      rcases hpc with hpc | hpc
      · obtain rfl : pc = .woken := hpc
        exact keep (.waiting h1 h2) (.waiting (by simp) (by simp)) rfl rfl
      · obtain rfl : pc = .delaying := hpc
        have hturn : s.turn (.waiting true port .delaying a) =
            ⟨s.messageq port, .waiting true port .delaying a, none, none⟩ := rfl
        rw [hturn]
        rcases hq : s.messageq port with _ | ⟨m, q⟩
        · rw [Turn.innerResume_nil]
          exact keep (.waiting h1 h2) (.waiting (by simp) (by simp)) hq.symm rfl
        · by_cases ha : a = .task
          · subst ha
            rw [Turn.innerResume_take]
            refine ⟨h.store .finished fun f c hc hd hm => ?_,
              .took (store_took hq) ⟨_, hr, rfl, rfl⟩⟩
            -- no combinator awaits a receive as a coroutine does
            obtain ⟨_, recv', hrecv', hu'⟩ := (h.live f c hc hd).holds r hm
            rw [hr, Option.some.injEq] at hrecv'
            have := hu'.awaiter_eq
            rw [← hrecv'] at this
            rcases hc' : c.pc <;> rw [hc'] at this <;> simp [armAwaiter, Receive.waiting] at this
          · rw [Turn.innerResume_park ha]
            exact keep (.waiting h1 h2) .parked hq.symm rfl

theorem Ok.receive (h : Ok s) (hh : s.holder r = none) (p : Nat) :
    ∃ t, Turn.call (reception T) p (s.messageq p) = some t ∧
      Stepped s (.receive r p) (s.store r t) := by
  have fresh {t : Turn (T × Str) T} (ht : Unfinished .none t.recv)
      (hq : t.messageq = s.messageq t.recv.port) (hv : t.value = none) :
      Stepped s (.receive r p) (s.store r t) :=
    ⟨h.store (.unfinished _ ht) fun f c hc hd hm => absurd hm (h.notMem hh hc hd),
      .quiet (store_quiet hq hv)⟩
  rcases hq : s.messageq p with _ | ⟨m, q⟩
  · exact ⟨_, Turn.call_nil, fresh (.waiting (by simp) (by simp)) hq.symm rfl⟩
  · exact ⟨_, Turn.call_forward rfl, fresh .parked hq.symm rfl⟩

theorem awaitTurn_waiting {port : Nat} {pc : Pc} (q : List (T × Str)) :
    State.awaitTurn ⟨q, .waiting true port pc .none, none, none⟩ =
      some ⟨q, .waiting true port pc .task, none, none⟩ := by
  rw [State.awaitTurn, Turn.resolve, Turn.resolveRounds, Coroutine.resolve_idle rfl rfl]
  rfl

theorem Ok.awaitReceive (h : Ok s) (hf : s.Free r) (hr : s.receives r = some recv) :
    ∃ t, State.awaitTurn (s.turn recv) = some t ∧ Stepped s (.awaitReceive r) (s.store r t) := by
  obtain ⟨hh, recv', hrecv', hdone, haw⟩ := hf
  rw [hr, Option.mem_def, Option.some.injEq] at hrecv'
  subst hrecv'
  have hu := (h.settled r recv hr).unfinished_of_done hdone
  rw [haw] at hu
  have notMem : ∀ f c, s.combinators f = some c → c.pc ≠ .done → r ∉ taskIds c.arms :=
    fun f c hc hd => h.notMem hh hc hd
  cases hu with
  | @waiting port pc h1 h2 =>
    refine ⟨_, awaitTurn_waiting _, h.store (.unfinished .task (.waiting h1 h2))
      fun f c hc hd hm => absurd hm (notMem f c hc hd), .quiet (store_quiet rfl rfl)⟩
  | @parked port =>
    have hturn : s.turn (.parked port .none) =
        ⟨s.messageq port, .parked port .none, none, none⟩ := rfl
    rw [hturn]
    rcases hq : s.messageq port with _ | ⟨m, q⟩
    · refine ⟨⟨[], .waiting true port .listening .task, none, none⟩, ?_,
        h.store (.unfinished .task (.waiting (by simp) (by simp)))
          fun f c hc hd hm => absurd hm (notMem f c hc hd), .quiet (store_quiet hq.symm rfl)⟩
      rw [State.awaitTurn, Turn.resolve_parked_nil]
      rfl
    · refine ⟨⟨q, .finished port .task .none none, none, some m.1⟩, ?_,
        h.store .finished fun f c hc hd hm => absurd hm (notMem f c hc hd),
        .took (store_took hq) ?_⟩
      · rw [State.awaitTurn, Turn.resolve_parked]
        rfl
      · rw [Returns, portOf, hr]
        rfl

/-! ## The other steps -/

theorem Ok.deliver (h : Ok s) (p : Nat) (m : T) (id : Str) :
    Stepped s (.deliver p m id) (s.deliver p m id) := by
  refine ⟨⟨fun r recv hr => ?_, fun f c hc hd => ?_⟩, .arrived rfl rfl rfl⟩
  · obtain ⟨recv', hr', rfl⟩ := Option.map_eq_some_iff.1 hr
    exact (h.settled r recv' hr').wake p
  · have hl := h.live f c hc hd
    refine ⟨hl.accepts, hl.promise, fun r hr => ⟨(hl.holds r hr).1, ?_⟩⟩
    obtain ⟨recv, hrecv, hu⟩ := (hl.holds r hr).2
    refine ⟨State.wake p recv, ?_, hu.wake p⟩
    show (s.receives r).map (State.wake p) = _
    rw [hrecv]
    rfl

theorem Ok.combine (h : Ok s) {kind : Kind} (hc : s.combinators f = none)
    (hacc : kind.Accepts arms) (hfree : ∀ r ∈ taskIds arms, s.Free r) :
    Stepped s (.combine f kind arms) (s.combine f kind arms) := by
  refine ⟨⟨h.settled, fun g c hg hd => ?_⟩, .quiet ⟨rfl, rfl, rfl⟩⟩
  by_cases hgf : g = f
  · subst hgf
    have hcomb : c = { kind := kind, arms := arms, promise := { resolving := true } } := by
      simpa only [State.combine, Function.update_self, Option.some.injEq, eq_comm] using hg
    subst hcomb
    refine ⟨hacc, Or.inl ⟨rfl, rfl⟩, fun r hr => ⟨if_pos hr, ?_⟩⟩
    obtain ⟨_, recv, hrecv, hdone, haw⟩ := hfree r hr
    have hu := (h.settled r recv hrecv).unfinished_of_done hdone
    rw [haw] at hu
    exact ⟨recv, hrecv, hu⟩
  · have hold : s.combinators g = some c := by
      simpa only [State.combine, Function.update_of_ne hgf] using hg
    have hl := h.live g c hold hd
    refine hl.congr (fun _ _ => rfl) fun r hr => if_neg fun hm => ?_
    have := (hl.holds r hr).1
    rw [(hfree r hm).1] at this
    exact absurd this (by simp)

theorem taskIds_set {k : Nat} (hk : arms[k]? = some (.event false)) :
    taskIds (arms.set k (.event true)) = taskIds arms := by
  induction arms generalizing k with
  | nil => rfl
  | cons arm arms ih =>
    cases k with
    | zero =>
      obtain rfl := Option.some.inj hk
      rfl
    | succ k =>
      have := ih (k := k) hk
      cases arm with
      | task r owned => rw [List.set_cons_succ, taskIds_task, taskIds_task, this]
      | event b => rw [List.set_cons_succ, taskIds_event, taskIds_event, this]

theorem Kind.Accepts.set {kind : Kind} (h : kind.Accepts arms) {k : Nat}
    (hk : arms[k]? = some (.event false)) : kind.Accepts (arms.set k (.event true)) := by
  have hne {l : List Arm} (hl : l ≠ []) : l.set k (.event true) ≠ [] := by
    simpa using hl
  cases kind with
  | first => exact hne h
  | race =>
    show 2 ≤ (arms.set k _).length
    rw [List.length_set]
    exact h
  | attempt =>
    refine ⟨hne h.1, ?_⟩
    cases arms with
    | nil => rfl
    | cons arm arms =>
      cases k with
      | zero => exact h.2
      | succ k =>
        have hk' : arms[k]? = some (.event false) := hk
        show taskIds (arms.set k _) = []
        rw [taskIds_set hk']
        exact h.2

theorem Ok.trigger (h : Ok s) (hc : s.combinators f = some c) {k : Nat}
    (hk : c.arms[k]? = some (.event false)) : Stepped s (.trigger f k) (s.trigger f k c) := by
  refine ⟨?_, .quiet ⟨rfl, rfl, rfl⟩⟩
  by_cases hd : c.pc = .done
  · refine ⟨h.settled, fun g d hg hgd => ?_⟩
    by_cases hgf : g = f
    · subst hgf
      simp only [State.trigger, State.setCombinator, Function.update_self, Option.some.injEq] at hg
      rw [← hg] at hgd
      exact absurd hd hgd
    · simp only [State.trigger, State.setCombinator, Function.update_of_ne hgf] at hg
      exact (h.live g d hg hgd).congr (fun _ _ => rfl) fun _ _ => rfl
  · have hl := h.live f c hc hd
    refine h.setCombinator hc hd (.refl hl.holds) fun _ => ⟨hl.accepts.set hk, hl.promise, ?_⟩
    show Holds s f (c.arms.set k _) _
    rw [Holds, taskIds_set hk]
    exact hl.holds

theorem Ok.destroyReceive (h : Ok s) (hh : s.holder r = none) :
    Stepped s (.destroyReceive r) { s with receives := Function.update s.receives r none } := by
  refine ⟨⟨fun r' recv hr => ?_, fun f c hc hd => ?_⟩, .quiet ⟨rfl, rfl, rfl⟩⟩
  · by_cases e : r' = r
    · rw [e] at hr
      simp at hr
    · exact h.settled r' recv ((Function.update_of_ne e ..).symm.trans hr)
  · have hne : ∀ r' ∈ taskIds c.arms, r' ≠ r := fun r' hr' e => h.notMem hh hc hd (e ▸ hr')
    exact (h.live f c hc hd).congr (fun r' hr' => Function.update_of_ne (hne r' hr') ..)
      fun _ _ => rfl

theorem Ok.destroyCombinator (h : Ok s) (hc : s.combinators f = some c) :
    Stepped s (.destroyCombinator f) (s.destroyCombinator f c) := by
  have gone {s' : State T} (hd : c.pc ≠ .done) (hf : Frame c.arms s s') :
      Ok { s' with combinators := Function.update s'.combinators f none } :=
    h.framed hc hd hf none fun _ hx => by simp at hx
  rw [State.destroyCombinator]
  rcases hpc : c.pc with _ | _ | _
  · have hd : c.pc ≠ .done := by rw [hpc]; simp
    have hframe : Frame c.arms s (s.release c.arms) :=
      frame_release rfl rfl (fun _ _ => rfl) fun r _ recv he => h.settled r recv he
    exact ⟨gone hd hframe, .quiet ⟨rfl, rfl, rfl⟩⟩
  · have hd : c.pc ≠ .done := by rw [hpc]; simp
    have hl := (h.live f c hc hd).holds.setAwaiters .none
    have hframe : Frame c.arms s ((s.setAwaiters c.arms .none).release c.arms) := by
      refine frame_release rfl rfl (fun r hr => setAwaiters_others s _ _ hr) fun r hr recv he => ?_
      obtain ⟨_, recv', he', hu⟩ := hl r hr
      rw [he] at he'
      exact Option.some.inj he' ▸ .unfinished _ hu
    exact ⟨gone hd hframe, .quiet ⟨rfl, rfl, rfl⟩⟩
  · refine ⟨⟨h.settled, fun g d hg hgd => ?_⟩, .quiet ⟨rfl, rfl, rfl⟩⟩
    by_cases hgf : g = f
    · subst hgf
      simp at hg
    · simp only [Function.update_of_ne hgf] at hg
      exact (h.live g d hg hgd).congr (fun _ _ => rfl) fun _ _ => rfl

/-! ## Runs -/

theorem Moved.stepped {a : Label T} (h : Moved f s s')
    (ha : ∀ p m, ReturnedBy s s' f p m → Returns s s' a p m) : Stepped s a s' := by
  refine ⟨h.ok, ?_⟩
  cases h.effect with
  | quiet hq => exact .quiet hq
  | took ht hr => exact .took ht (ha _ _ hr)
  | arrived h1 h2 h3 => exact .arrived h1 h2 h3

theorem Ok.step (h : Ok s) {a : Label T} (hs : step s a = some s') : Stepped s a s' := by
  cases a with
  | deliver p m id =>
    obtain rfl := Option.some.inj hs
    exact h.deliver p m id
  | receive r p =>
    simp only [Netsim.step, Option.ite_none_right_eq_some] at hs
    obtain ⟨⟨_, hh⟩, hs⟩ := hs
    obtain ⟨t, ht, hst⟩ := h.receive hh p
    rw [ht, Option.map_some, Option.some.injEq] at hs
    exact hs ▸ hst
  | resume r =>
    simp only [Netsim.step, Option.bind_eq_some_iff, Option.ite_none_right_eq_some,
      Option.some.injEq] at hs
    obtain ⟨recv, hr, hpc, rfl⟩ := hs
    exact h.resumeReceive hr hpc
  | awaitReceive r =>
    simp only [Netsim.step, Option.ite_none_right_eq_some, Option.bind_eq_some_iff] at hs
    obtain ⟨hf, recv, hr, hs⟩ := hs
    obtain ⟨t, ht, hst⟩ := h.awaitReceive hf hr
    rw [ht, Option.map_some, Option.some.injEq] at hs
    exact hs ▸ hst
  | combine f kind arms =>
    simp only [Netsim.step, Option.ite_none_right_eq_some, Option.some.injEq] at hs
    obtain ⟨⟨hc, hacc, hfree⟩, rfl⟩ := hs
    exact h.combine hc hacc hfree
  | awaitCombinator f =>
    simp only [Netsim.step, Option.bind_eq_some_iff, Option.ite_none_right_eq_some] at hs
    obtain ⟨c, hc, ⟨hd, ha⟩, hs⟩ := hs
    obtain ⟨b, x, hx, hm, hm'⟩ := h.resolve hc hd ha
    rw [hx, Option.map_some, Option.some.injEq] at hs
    cases b with
    | true => exact hs ▸ hm.stepped fun _ _ hr => hr
    | false => exact hs ▸ (hm' rfl).stepped fun _ _ hr => hr
  | resolveCombinator f =>
    simp only [Netsim.step, Option.bind_eq_some_iff, Option.ite_none_right_eq_some] at hs
    obtain ⟨c, hc, ⟨hd, ha⟩, hs⟩ := hs
    obtain ⟨b, x, hx, hm, _⟩ := h.resolve hc hd ha
    rw [hx, Option.map_some, Option.some.injEq] at hs
    exact hs ▸ hm.stepped fun _ _ hr => hr
  | trigger f k =>
    simp only [Netsim.step, Option.bind_eq_some_iff, Option.ite_none_right_eq_some,
      Option.some.injEq] at hs
    obtain ⟨c, hc, hk, rfl⟩ := hs
    exact h.trigger hc hk
  | resumeCombinator f =>
    simp only [Netsim.step, Option.bind_eq_some_iff, Option.ite_none_right_eq_some] at hs
    obtain ⟨c, hc, ⟨hpc, _⟩, hs⟩ := hs
    obtain ⟨x, hx, hm⟩ := h.resume hc hpc
    rw [hx, Option.map_some, Option.some.injEq] at hs
    exact hs ▸ hm.stepped fun _ _ hr => hr
  | destroyReceive r =>
    simp only [Netsim.step, Option.ite_none_right_eq_some, Option.some.injEq] at hs
    obtain ⟨hh, rfl⟩ := hs
    exact h.destroyReceive hh
  | destroyCombinator f =>
    obtain ⟨c, hc, rfl⟩ := Option.map_eq_some_iff.1 hs
    exact h.destroyCombinator hc

/-- What the receives on port `p` returned, in order. -/
def State.returnedOn (s : State T) (p : Nat) : List T :=
  (s.returned.filter fun x => x.1 = p).map Prod.snd

/-- The messages of a port are returned or queued. -/
def Conserved (s : State T) : Prop :=
  ∀ p, s.returnedOn p ++ (s.messageq p).map Prod.fst = s.delivered p

theorem Took.returnedOn {port : Nat} {m : T × Str} (h : Took s s' port m) (p : Nat) :
    s'.returnedOn p = s.returnedOn p ++ if p = port then [m.1] else [] := by
  rw [State.returnedOn, State.returnedOn, h.returned, List.filter_append, List.map_append]
  by_cases hp : p = port
  · subst hp
    simp
  · simp [hp, Ne.symm hp]

theorem Effect.conserved {P : Nat → T → Prop} (h : Effect s s' P) (hc : Conserved s) :
    Conserved s' := by
  intro p
  have hold := hc p
  cases h with
  | quiet hq =>
    rw [State.returnedOn, hq.returned, hq.messageq, hq.delivered]
    exact hold
  | @took port m ht _ =>
    rw [ht.returnedOn, ht.delivered, ← hold]
    by_cases hp : p = port
    · subst hp
      rw [if_pos rfl, ht.head]
      simp
    · rw [if_neg hp, ht.others p hp, List.append_nil]
  | @arrived q m id hmq hret hdel =>
    rw [State.returnedOn, hret, hmq, hdel]
    by_cases hp : p = q
    · subst hp
      rw [Function.update_self, Function.update_self, ← hold, List.map_append, ← List.append_assoc]
      rfl
    · rw [Function.update_of_ne hp, Function.update_of_ne hp]
      exact hold

theorem reachable_ok (h : (system T).Reachable s) : Ok s ∧ Conserved s := by
  refine Transition.Machine.Reachable.invariant (P := fun s => Ok s ∧ Conserved s) ?_ ?_ h
  · rintro _ rfl
    exact ⟨⟨fun _ _ hr => by simp [start] at hr, fun _ _ hc => by simp [start] at hc⟩, fun _ => rfl⟩
  · rintro s a s' ⟨hok, hc⟩ hs
    exact ⟨(hok.step hs).ok, (hok.step hs).effect.conserved hc⟩

/-- The loops of `resolve()` end: a combinator that is awaited, resolved or woken runs. -/
theorem combinator_runs (h : (system T).Reachable s) (hc : s.combinators f = some c)
    (hd : c.pc ≠ .done) :
    (c.promise.awaiter = .none → (step s (.awaitCombinator f)).isSome = true ∧
      (step s (.resolveCombinator f)).isSome = true) ∧
    (c.pc = .waiting → c.triggered = true → (step s (.resumeCombinator f)).isSome = true) := by
  have hok := (reachable_ok h).1
  refine ⟨fun ha => ?_, fun hpc ht => ?_⟩
  · obtain ⟨b, x, hx, _⟩ := hok.resolve hc hd ha
    constructor
    · simp [step, hc, hd, ha, hx]
    · simp [step, hc, hd, ha, hx]
  · obtain ⟨x, hx, _⟩ := hok.resume hc hpc
    simp [step, hc, hpc, ht, hx]

/-- Every message that arrived on a port was returned by a receive, once and in order, or is
still queued; and a step takes a message from a queue only as the value that a combinator
returns in that step, or that a coroutine awaiting the receive gets. -/
theorem receives_consume (h : (system T).Reachable s) :
    (∀ p, s.returnedOn p ++ (s.messageq p).map Prod.fst = s.delivered p) ∧
    ∀ a s', step s a = some s' → ∀ p,
      ((∃ ms, s'.messageq p = s.messageq p ++ ms) ∧ s'.returnedOn p = s.returnedOn p) ∨
      ∃ m, s.messageq p = m :: s'.messageq p ∧ s'.returned = s.returned ++ [(p, m.1)] ∧
        Returns s s' a p m.1 := by
  obtain ⟨hok, hc⟩ := reachable_ok h
  refine ⟨hc, fun a s' hs p => ?_⟩
  cases (hok.step hs).effect with
  | quiet hq =>
    refine Or.inl ⟨⟨[], ?_⟩, ?_⟩
    · rw [hq.messageq, List.append_nil]
    · rw [State.returnedOn, hq.returned]
      rfl
  | @took port m ht hr =>
    by_cases hp : p = port
    · subst hp
      exact Or.inr ⟨m, ht.head, ht.returned, hr⟩
    · refine Or.inl ⟨⟨[], ?_⟩, ?_⟩
      · rw [ht.others p hp, List.append_nil]
      · rw [ht.returnedOn, if_neg hp, List.append_nil]
  | @arrived q m id hmq hret _ =>
    refine Or.inl ⟨?_, ?_⟩
    · rw [hmq]
      by_cases hp : p = q
      · subst hp
        exact ⟨[(m, id)], Function.update_self ..⟩
      · exact ⟨[], by rw [Function.update_of_ne hp, List.append_nil]⟩
    · rw [State.returnedOn, hret]
      rfl

/-! ## Two ports that become ready together -/

/-- Messages arrive on two ports, and both receives park before the race is resumed. -/
def raceRun : List (Label Nat) :=
  [.receive 0 0, .receive 1 1, .combine 0 .first [.task 0 true, .task 1 true, .event false],
   .awaitCombinator 0, .deliver 0 7 [], .deliver 1 8 [], .resume 0, .resume 1, .resume 0, .resume 1]

def raceState : State Nat :=
  ((system Nat).exec (start Nat) raceRun).get (by decide +kernel)

def raceWon : State Nat :=
  (step raceState (.resumeCombinator 0)).get (by decide +kernel)

theorem receives_consume_race :
    raceWon.messageq 1 = raceState.messageq 1 ∧ raceState.messageq 1 = [(8, [])] ∧
      ∃ m, raceState.messageq 0 = m :: raceWon.messageq 0 ∧
        Returns raceState raceWon (.resumeCombinator 0) 0 m.1 := by
  have hreach : (system Nat).Reachable raceState := .of_get rfl _
  have hstep : step raceState (.resumeCombinator 0) = some raceWon := (Option.some_get _).symm
  have h0 : raceState.messageq 0 = [(7, [])] := by decide +kernel
  have h0' : raceWon.messageq 0 = [] := by decide +kernel
  refine ⟨by decide +kernel, by decide +kernel, ?_⟩
  rcases (receives_consume hreach).2 _ _ hstep 0 with ⟨⟨ms, hms⟩, _⟩ | ⟨m, hm, _, hr⟩
  · rw [h0, h0'] at hms
    exact absurd hms (by simp)
  · exact ⟨m, hm, hr⟩

end Netsim
end Psets
