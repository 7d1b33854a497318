/-
The responses that the clients of a `client_model` share.

One task puts every response on one list and wakes the client it is for.  Each call of
`receive_response` looks through the list for the response to its request, and throws
away what else has come for its client.  A call runs from one suspension to the next in a
step; the responses may come in any order, and a call may be abandoned while it waits.
-/
import Mathlib.Logic.Function.Basic
import Psets.Pancy.Pancydb
import Psets.Transition.Machine

namespace Psets
namespace ClientModel

open Pancy Transition

abbrev EventId := Nat

/-- The calls of `receive_response`. -/
abbrev CallId := Nat

/-- The variables that calls get as `size_t& replicaid`. -/
abbrev VarId := Nat

def maxClients : Nat := 4096

def clientMask : Nat := maxClients - 1

/-- The client a response is addressed to. -/
def client (serial : Nat) : Nat := serial &&& clientMask

/-- The type argument `Resp`. -/
inductive RespType where
  | redirection
  | get
  | put
  | cas
  | remove
deriving DecidableEq, Repr

/-- The alternative that a response holds. -/
def respType : Response → RespType
  | .redirection _ => .redirection
  | .get _ => .get
  | .put _ => .put
  | .cas _ => .cas
  | .remove _ => .remove

/-- What a pass over the list has come to. -/
inductive Outcome where
  | nothing
  | redirected (replica : Nat)
  | value (m : Response)
  | mismatch
deriving DecidableEq, Repr

/-- The response with the serial of the call. -/
def outcome (resp : RespType) : Response → Outcome
  | .redirection r => .redirected r.redirection
  | m => if respType m = resp then .value m else .mismatch

/-- `check incoming queue for response`: what is left of the list, and what was found. -/
def scan (resp : RespType) (serial : Nat) : List Response → List Response × Outcome
  | [] => ([], .nothing)
  | m :: rest =>
      if client m.serial ≠ client serial then
        let (inq, found) := scan resp serial rest
        (m :: inq, found)
      else if m.serial ≠ serial then scan resp serial rest
      else (rest, outcome resp m)

inductive Status where
  | waiting (e : EventId)
  | returned (result : Option Response)
deriving DecidableEq, Repr

/-- A call of `receive_response<Resp>(replicaid, serial)`. -/
structure Call where
  resp : RespType
  replicaid : VarId
  serial : Nat
  status : Status
deriving DecidableEq, Repr

/-- The model, and the calls. -/
structure State where
  inq : List Response := []
  /-- `client_events_` -/
  clientEvents : Nat → EventId
  triggered : EventId → Bool := fun _ => false
  /-- The addresses of events below this have been used. -/
  size : Nat
  vars : VarId → Nat := fun _ => 0
  calls : CallId → Option Call := fun _ => none

namespace State

/-- `client_events_[cid].arm()` -/
def arm (s : State) (cid : Nat) : State :=
  if s.triggered (s.clientEvents cid) then
    { s with
      clientEvents := Function.update s.clientEvents cid s.size
      triggered := Function.update s.triggered s.size false
      size := s.size + 1 }
  else s

def setCall (s : State) (c : CallId) (call : Call) : State :=
  { s with calls := Function.update s.calls c (some call) }

/-- The call runs until it waits or returns. -/
def resume (s : State) (c : CallId) (call : Call) : State :=
  let (inq, found) := scan call.resp call.serial s.inq
  let s := { s with inq }
  match found with
  | .nothing =>
      let s := s.arm (client call.serial)
      s.setCall c { call with status := .waiting (s.clientEvents (client call.serial)) }
  | .redirected replica =>
      { s with vars := Function.update s.vars call.replicaid replica }.setCall c
        { call with status := .returned none }
  | .value m => s.setCall c { call with status := .returned (some m) }
  | .mismatch => s.setCall c { call with status := .returned none }

/-- One round of `receive_task`. -/
def receive (nclients : Nat) (s : State) (m : Response) : State :=
  if nclients ≤ client m.serial then s
  else
    { s with
      triggered := Function.update s.triggered (s.clientEvents (client m.serial)) true
      inq := s.inq ++ [m] }

end State

inductive Label where
  /-- `in_.receive()` yields a response -/
  | arrive (m : Response)
  /-- a client calls `receive_response` -/
  | call (c : CallId) (resp : RespType) (replicaid : VarId) (serial : Nat)
  /-- the event that the call waits for has triggered -/
  | resume (c : CallId)
  /-- a call is abandoned -/
  | cancel (c : CallId)
  /-- a client changes its variable itself -/
  | assign (v : VarId) (replica : Nat)
deriving DecidableEq, Repr

def step (nclients : Nat) (s : State) : Label → Option State
  | .arrive m => some (s.receive nclients m)
  | .call c resp replicaid serial =>
      if s.calls c = none ∧ client serial < nclients then
        some (s.resume c ⟨resp, replicaid, serial, .returned none⟩)
      else none
  | .resume c =>
      match s.calls c with
      | some call =>
          match call.status with
          | .waiting e => if s.triggered e then some (s.resume c call) else none
          | .returned _ => none
      | none => none
  | .cancel c => some { s with calls := Function.update s.calls c none }
  | .assign v replica => some { s with vars := Function.update s.vars v replica }

/-- A model of `nclients` clients. -/
def machine (nclients : Nat) : Machine State Label where
  init s := s.inq = [] ∧ (∀ e, s.triggered e = false) ∧ (∀ c, s.calls c = none) ∧
    ∀ cid, cid < nclients → s.clientEvents cid < s.size
  step := step nclients

/-! ## One pass over the list -/

/-- What was found is the first response with the serial of the call. -/
theorem scan_found (resp : RespType) (serial : Nat) (q : List Response) :
    (scan resp serial q).2 = .nothing ∧ (∀ m ∈ q, m.serial ≠ serial) ∨
      ∃ m ∈ q, m.serial = serial ∧ (scan resp serial q).2 = outcome resp m := by
  induction q with
  | nil => exact .inl ⟨rfl, nofun⟩
  | cons m rest ih =>
    have hskip : m.serial ≠ serial → (scan resp serial (m :: rest)).2 =
        (scan resp serial rest).2 := by
      intro hne
      rw [scan]
      split
      · rfl
      · rfl
    by_cases hm : m.serial = serial
    · refine .inr ⟨m, List.mem_cons_self, hm, ?_⟩
      unfold scan
      rw [if_neg (by rw [hm]; exact fun h => h rfl), if_neg fun h => h hm]
    · rw [hskip hm]
      rcases ih with ⟨hnothing, hall⟩ | ⟨m', hm', hserial, hfound⟩
      · left
        refine ⟨hnothing, fun m' hm' => ?_⟩
        rcases List.mem_cons.1 hm' with rfl | hm'
        · exact hm
        · exact hall m' hm'
      · exact .inr ⟨m', List.mem_cons_of_mem m hm', hserial, hfound⟩

/-- The responses to other clients stay, in their order. -/
theorem scan_others (resp : RespType) (serial : Nat) (q : List Response) :
    (scan resp serial q).1.filter (fun m => client m.serial != client serial) =
      q.filter (fun m => client m.serial != client serial) := by
  induction q with
  | nil => rfl
  | cons m rest ih =>
    unfold scan
    by_cases hclient : client m.serial ≠ client serial
    · rw [if_pos hclient, List.filter_cons_of_pos (by simpa using hclient),
        List.filter_cons_of_pos (by simpa using hclient), ih]
    · rw [if_neg hclient, List.filter_cons_of_neg (by simpa using hclient)]
      split
      · exact ih
      · rfl

theorem scan_sublist (resp : RespType) (serial : Nat) (q : List Response) :
    (scan resp serial q).1.Sublist q := by
  induction q with
  | nil => exact List.Sublist.slnil
  | cons m rest ih =>
    unfold scan
    split
    · exact ih.cons_cons m
    · split
      · exact ih.cons m
      · exact List.sublist_cons_self m rest

theorem outcome_value {resp : RespType} {m m' : Response} (h : outcome resp m = .value m') :
    m' = m ∧ respType m = resp := by
  unfold outcome at h
  split at h
  · cases h
  · split at h
    · rename_i hresp
      exact ⟨(Outcome.value.inj h).symm, hresp⟩
    · cases h

theorem outcome_redirected {resp : RespType} {m : Response} {replica : Nat}
    (h : outcome resp m = .redirected replica) :
    ∃ r, m = .redirection r ∧ r.redirection = replica := by
  unfold outcome at h
  split at h
  · rename_i r
    exact ⟨r, rfl, Outcome.redirected.inj h⟩
  · split at h <;> cases h

theorem outcome_ne_nothing (resp : RespType) (m : Response) : outcome resp m ≠ .nothing := by
  unfold outcome
  split
  · nofun
  · split <;> nofun

/-! ## The waiting calls -/

/-- A call that waits for an event that has not triggered waits for that of its client,
and no response to its request is on the list. -/
structure Inv (nclients : Nat) (s : State) : Prop where
  event : ∀ c call e, s.calls c = some call → call.status = .waiting e →
    s.triggered e = false → e = s.clientEvents (client call.serial)
  queued : ∀ c call e, s.calls c = some call → call.status = .waiting e →
    s.triggered e = false → ∀ m ∈ s.inq, m.serial ≠ call.serial
  used : ∀ c call e, s.calls c = some call → call.status = .waiting e → e < s.size
  known : ∀ c call, s.calls c = some call → client call.serial < nclients
  size : ∀ cid, cid < nclients → s.clientEvents cid < s.size

variable {nclients : Nat} {s t : State}

theorem Inv.arm (hs : Inv nclients s) {cid : Nat} (hcid : cid < nclients) :
    Inv nclients (s.arm cid) ∧ (s.arm cid).triggered ((s.arm cid).clientEvents cid) = false ∧
      (s.arm cid).clientEvents cid < (s.arm cid).size := by
  unfold State.arm
  by_cases htrig : s.triggered (s.clientEvents cid) = true
  · rw [if_pos htrig]
    -- the calls that wait do so for events of before
    have hold : ∀ c call e, s.calls c = some call → call.status = .waiting e →
        Function.update s.triggered s.size false e = false → s.triggered e = false := by
      intro c call e hc he hf
      rwa [Function.update_of_ne (Nat.ne_of_lt (hs.used c call e hc he))] at hf
    refine ⟨⟨?_, ?_, ?_, hs.known, ?_⟩, ?_, ?_⟩
    · intro c call e hc he hf
      have hf' := hold c call e hc he hf
      have hevent := hs.event c call e hc he hf'
      have hne : client call.serial ≠ cid := by
        intro h
        rw [hevent, h, htrig] at hf'
        cases hf'
      show e = Function.update s.clientEvents cid s.size (client call.serial)
      rwa [Function.update_of_ne hne]
    · intro c call e hc he hf
      exact hs.queued c call e hc he (hold c call e hc he hf)
    · intro c call e hc he
      exact Nat.lt_succ_of_lt (hs.used c call e hc he)
    · intro cid' hcid'
      show Function.update s.clientEvents cid s.size cid' < s.size + 1
      by_cases hne : cid' = cid
      · rw [hne, Function.update_self]
        exact Nat.lt_succ_self _
      · rw [Function.update_of_ne hne]
        exact Nat.lt_succ_of_lt (hs.size cid' hcid')
    · show Function.update s.triggered s.size false
        (Function.update s.clientEvents cid s.size cid) = false
      rw [Function.update_self, Function.update_self]
    · show Function.update s.clientEvents cid s.size cid < s.size + 1
      rw [Function.update_self]
      exact Nat.lt_succ_self _
  · rw [if_neg htrig]
    exact ⟨hs, Bool.not_eq_true _ ▸ htrig, hs.size cid hcid⟩

/-- Taking responses off the list. -/
theorem Inv.sublist (hs : Inv nclients s) {inq : List Response} (h : inq.Sublist s.inq)
    (vars : VarId → Nat) : Inv nclients { s with inq, vars } :=
  ⟨hs.event, fun c call e hc he hf m hm => hs.queued c call e hc he hf m (h.subset hm), hs.used,
    hs.known, hs.size⟩

theorem Inv.setCall (hs : Inv nclients s) {c : CallId} {call : Call}
    (hclient : client call.serial < nclients)
    (hwait : ∀ e, call.status = .waiting e → e = s.clientEvents (client call.serial) ∧
      (∀ m ∈ s.inq, m.serial ≠ call.serial) ∧ e < s.size) : Inv nclients (s.setCall c call) where
  event c' call' e hc he hf := by
    by_cases hne : c' = c
    · subst hne
      obtain rfl : call = call' := by simpa [State.setCall] using hc
      exact (hwait e he).1
    · exact hs.event c' call' e (by simpa [State.setCall, hne] using hc) he hf
  queued c' call' e hc he hf := by
    by_cases hne : c' = c
    · subst hne
      obtain rfl : call = call' := by simpa [State.setCall] using hc
      exact (hwait e he).2.1
    · exact hs.queued c' call' e (by simpa [State.setCall, hne] using hc) he hf
  used c' call' e hc he := by
    by_cases hne : c' = c
    · subst hne
      obtain rfl : call = call' := by simpa [State.setCall] using hc
      exact (hwait e he).2.2
    · exact hs.used c' call' e (by simpa [State.setCall, hne] using hc) he
  known c' call' hc := by
    by_cases hne : c' = c
    · subst hne
      obtain rfl : call = call' := by simpa [State.setCall] using hc
      exact hclient
    · exact hs.known c' call' (by simpa [State.setCall, hne] using hc)
  size := hs.size

/-- What a call that runs comes to. -/
inductive Resumed (s : State) (c : CallId) (call : Call) (t : State) : Prop where
  | waits : (∀ m ∈ s.inq, m.serial ≠ call.serial) →
      t = (({ s with inq := (scan call.resp call.serial s.inq).1 } : State).arm
        (client call.serial)).setCall c { call with
          status := .waiting ((({ s with inq := (scan call.resp call.serial s.inq).1 } :
            State).arm (client call.serial)).clientEvents (client call.serial)) } →
      Resumed s c call t
  | redirected {r : RedirectionResponse} : .redirection r ∈ s.inq → r.serial = call.serial →
      t = ({ s with
          inq := (scan call.resp call.serial s.inq).1
          vars := Function.update s.vars call.replicaid r.redirection } : State).setCall c
        { call with status := .returned none } → Resumed s c call t
  | value {m : Response} : m ∈ s.inq → m.serial = call.serial → respType m = call.resp →
      t = ({ s with inq := (scan call.resp call.serial s.inq).1 } : State).setCall c
        { call with status := .returned (some m) } → Resumed s c call t
  | mismatch : t = ({ s with inq := (scan call.resp call.serial s.inq).1 } : State).setCall c
        { call with status := .returned none } → Resumed s c call t

theorem resume_resumed (s : State) (c : CallId) (call : Call) :
    Resumed s c call (s.resume c call) := by
  have hfound := scan_found call.resp call.serial s.inq
  cases hscan : (scan call.resp call.serial s.inq).2 with
  | nothing =>
    rw [hscan] at hfound
    have hall : ∀ m ∈ s.inq, m.serial ≠ call.serial := by
      rcases hfound with ⟨_, hall⟩ | ⟨m, _, _, hm⟩
      · exact hall
      · exact absurd hm.symm (outcome_ne_nothing _ _)
    refine .waits hall ?_
    simp only [State.resume, hscan]
  | redirected replica =>
    rw [hscan] at hfound
    rcases hfound with ⟨h, _⟩ | ⟨m, hm, hserial, ho⟩
    · cases h
    · rcases outcome_redirected ho.symm with ⟨r, rfl, rfl⟩
      refine .redirected hm hserial ?_
      simp only [State.resume, hscan]
  | value m' =>
    rw [hscan] at hfound
    rcases hfound with ⟨h, _⟩ | ⟨m, hm, hserial, ho⟩
    · cases h
    · rcases outcome_value ho.symm with ⟨rfl, hresp⟩
      refine .value hm hserial hresp ?_
      simp only [State.resume, hscan]
  | mismatch =>
    refine .mismatch ?_
    simp only [State.resume, hscan]

theorem Inv.resume (hs : Inv nclients s) {c : CallId} {call : Call}
    (hclient : client call.serial < nclients) : Inv nclients (s.resume c call) := by
  have hsub := scan_sublist call.resp call.serial s.inq
  cases resume_resumed s c call with
  | waits hall ht =>
    rw [ht]
    rcases (hs.sublist hsub s.vars).arm hclient with ⟨harm, _, hused⟩
    refine harm.setCall hclient fun e he => ?_
    obtain rfl := Status.waiting.inj he
    refine ⟨rfl, fun m hm => hall m (hsub.subset ?_), hused⟩
    unfold State.arm at hm
    split at hm <;> exact hm
  | redirected hm hserial ht =>
    rw [ht]
    exact (hs.sublist hsub _).setCall hclient nofun
  | value hm hserial hresp ht =>
    rw [ht]
    exact (hs.sublist hsub s.vars).setCall hclient nofun
  | mismatch ht =>
    rw [ht]
    exact (hs.sublist hsub s.vars).setCall hclient nofun

/-- A response wakes the calls of its client before it is on the list. -/
theorem Inv.receive (hs : Inv nclients s) (m : Response) : Inv nclients (s.receive nclients m) := by
  unfold State.receive
  split
  · exact hs
  · have hold : ∀ e, Function.update s.triggered (s.clientEvents (client m.serial)) true e = false →
        s.triggered e = false ∧ e ≠ s.clientEvents (client m.serial) := by
      intro e hf
      have hne : e ≠ s.clientEvents (client m.serial) := by
        rintro rfl
        rw [Function.update_self] at hf
        cases hf
      rw [Function.update_of_ne hne] at hf
      exact ⟨hf, hne⟩
    refine ⟨?_, ?_, hs.used, hs.known, hs.size⟩
    · intro c call e hc he hf
      exact hs.event c call e hc he (hold e hf).1
    · intro c call e hc he hf m' hm'
      rcases hold e hf with ⟨hf', hne⟩
      rcases List.mem_append.1 hm' with hm' | hm'
      · exact hs.queued c call e hc he hf' m' hm'
      · obtain rfl := List.mem_singleton.1 hm'
        intro hserial
        apply hne
        rw [hserial]
        exact hs.event c call e hc he hf'

/-- The calls that are left when one is abandoned. -/
theorem calls_of_cancel {calls : CallId → Option Call} {c c' : CallId} {call : Call}
    (h : Function.update calls c none c' = some call) : calls c' = some call := by
  by_cases hne : c' = c
  · subst hne
    rw [Function.update_self] at h
    cases h
  · rwa [Function.update_of_ne hne] at h

theorem step_inv {a : Label} (hs : Inv nclients s) (h : step nclients s a = some t) :
    Inv nclients t := by
  cases a with
  | arrive m =>
    obtain rfl := Option.some.inj h
    exact hs.receive m
  | call c resp replicaid serial =>
    simp only [step] at h
    split at h
    · rename_i hc
      obtain rfl := Option.some.inj h
      exact hs.resume hc.2
    · cases h
  | resume c =>
    simp only [step] at h
    split at h
    · rename_i call hc
      split at h
      · split at h
        · obtain rfl := Option.some.inj h
          exact hs.resume (hs.known c call hc)
        · cases h
      · cases h
    · cases h
  | cancel c =>
    obtain rfl := Option.some.inj h
    exact ⟨fun c' call e hc => hs.event c' call e (calls_of_cancel hc),
      fun c' call e hc => hs.queued c' call e (calls_of_cancel hc),
      fun c' call e hc => hs.used c' call e (calls_of_cancel hc),
      fun c' call hc => hs.known c' call (calls_of_cancel hc), hs.size⟩
  | assign v replica =>
    obtain rfl := Option.some.inj h
    exact ⟨hs.event, hs.queued, hs.used, hs.known, hs.size⟩

theorem init_inv (h : (machine nclients).init s) : Inv nclients s := by
  rcases h with ⟨hinq, htrig, hcalls, hsize⟩
  have hnone : ∀ {c call}, s.calls c ≠ some call := by
    intro c call hc
    rw [hcalls c] at hc
    cases hc
  exact ⟨fun _ _ _ hc => absurd hc hnone, fun _ _ _ hc => absurd hc hnone,
    fun _ _ _ hc => absurd hc hnone, fun _ _ hc => absurd hc hnone, hsize⟩

/-! ## The theorem -/

/-- The call that runs in the step. -/
def Label.runs : Label → Option CallId
  | .call c _ _ _ | .resume c => some c
  | _ => none

/-- What a step does to the list, the variables and the calls. -/
structure Routed (s : State) (a : Label) (t : State) : Prop where
  /-- A call returns a queued response to its request, of its type. -/
  value : ∀ c call m, t.calls c = some call → call.status = .returned (some m) →
    s.calls c ≠ some call → m ∈ s.inq ∧ m.serial = call.serial ∧ respType m = call.resp
  /-- A call changes its variable on a redirection of its request. -/
  replicaid : ∀ v, t.vars v ≠ s.vars v → (∃ replica, a = .assign v replica) ∨
    ∃ c call r, a.runs = some c ∧ t.calls c = some call ∧ call.replicaid = v ∧
      .redirection r ∈ s.inq ∧ r.serial = call.serial ∧ t.vars v = r.redirection
  /-- Only a call takes responses off the list, and only those to its client. -/
  removed : (∃ ms, t.inq = s.inq ++ ms) ∨ ∃ c call, a.runs = some c ∧ t.calls c = some call ∧
    t.inq.Sublist s.inq ∧ t.inq.filter (fun m => client m.serial != client call.serial) =
      s.inq.filter (fun m => client m.serial != client call.serial)
  /-- A call that runs with a response to its request on the list returns. -/
  returns : ∀ c call, a.runs = some c → t.calls c = some call →
    (∃ m ∈ s.inq, m.serial = call.serial) → ∃ result, call.status = .returned result

/-- A call whose response is on the list can go on. -/
def Awake (nclients : Nat) (s : State) : Prop :=
  ∀ c call e, s.calls c = some call → call.status = .waiting e →
    (∃ m ∈ s.inq, m.serial = call.serial) → (step nclients s (.resume c)).isSome = true

@[simp] theorem arm_inq (s : State) (cid : Nat) : (s.arm cid).inq = s.inq := by
  unfold State.arm
  split <;> rfl

@[simp] theorem arm_vars (s : State) (cid : Nat) : (s.arm cid).vars = s.vars := by
  unfold State.arm
  split <;> rfl

@[simp] theorem arm_calls (s : State) (cid : Nat) : (s.arm cid).calls = s.calls := by
  unfold State.arm
  split <;> rfl

/-- The four ends of a call that runs, with the variables it leaves. -/
inductive Ended (s : State) (call : Call) : Status → (VarId → Nat) → Prop where
  | waits {e : EventId} : (∀ m ∈ s.inq, m.serial ≠ call.serial) → Ended s call (.waiting e) s.vars
  | redirected {r : RedirectionResponse} : .redirection r ∈ s.inq → r.serial = call.serial →
      Ended s call (.returned none) (Function.update s.vars call.replicaid r.redirection)
  | value {m : Response} : m ∈ s.inq → m.serial = call.serial → respType m = call.resp →
      Ended s call (.returned (some m)) s.vars
  | mismatch : Ended s call (.returned none) s.vars

/-- A call that runs keeps its parameters, and the other calls are left alone. -/
theorem Resumed.ended {c : CallId} {call : Call} (h : Resumed s c call t) :
    ∃ status, t.calls = Function.update s.calls c (some { call with status }) ∧
      t.inq = (scan call.resp call.serial s.inq).1 ∧ Ended s call status t.vars := by
  cases h with
  | waits hall ht =>
    rw [ht]
    refine ⟨_, by simp only [State.setCall, arm_calls]; rfl, arm_inq _ _, ?_⟩
    simp only [State.setCall, arm_vars]
    exact .waits hall
  | redirected hm hserial ht =>
    rw [ht]
    exact ⟨_, rfl, rfl, .redirected hm hserial⟩
  | value hm hserial hresp ht =>
    rw [ht]
    exact ⟨_, rfl, rfl, .value hm hserial hresp⟩
  | mismatch ht =>
    rw [ht]
    exact ⟨_, rfl, rfl, .mismatch⟩

theorem Resumed.routed {a : Label} {c : CallId} {call : Call} (ha : a.runs = some c)
    (h : Resumed s c call t) : Routed s a t := by
  rcases h.ended with ⟨status, hcalls, hinq, hended⟩
  have hself : t.calls c = some { call with status } := by
    rw [hcalls, Function.update_self]
  exact {
    value := fun c' call' m hc' hm hne => by
      by_cases hc : c' = c
      · subst hc
        obtain rfl := Option.some.inj (hself.symm.trans hc')
        change status = .returned (some m) at hm
        rw [hm] at hended
        generalize t.vars = vars at hended
        cases hended with
        | value hm hserial hresp => exact ⟨hm, hserial, hresp⟩
      · rw [hcalls, Function.update_of_ne hc] at hc'
        exact absurd hc' hne
    replicaid := fun v hv => by
      right
      generalize t.vars = vars at hv hended
      cases hended with
      | waits hall => exact absurd rfl hv
      | @redirected r hr hserial =>
        have hvar : v = call.replicaid := by
          by_contra hne
          exact hv (Function.update_of_ne hne ..)
        subst hvar
        exact ⟨c, _, r, ha, hself, rfl, hr, hserial, Function.update_self ..⟩
      | value hm hserial hresp => exact absurd rfl hv
      | mismatch => exact absurd rfl hv
    removed := by
      refine .inr ⟨c, _, ha, hself, ?_, ?_⟩
      · rw [hinq]
        exact scan_sublist ..
      · rw [hinq]
        exact scan_others ..
    returns := fun c' call' hc' hcall' hm => by
      obtain rfl := Option.some.inj (ha.symm.trans hc')
      obtain rfl := Option.some.inj (hself.symm.trans hcall')
      rcases hm with ⟨m, hm, hserial⟩
      show ∃ result, status = .returned result
      generalize t.vars = vars at hended
      cases hended with
      | waits hall => exact absurd hserial (hall m hm)
      | redirected hr hserial => exact ⟨none, rfl⟩
      | value hm hserial hresp => exact ⟨_, rfl⟩
      | mismatch => exact ⟨none, rfl⟩ }

/-- A step in which no call runs. -/
theorem routed_of_idle {a : Label} (ha : a.runs = none)
    (hcalls : ∀ c call, t.calls c = some call → s.calls c = some call)
    (hinq : ∃ ms, t.inq = s.inq ++ ms)
    (hvars : ∀ v, t.vars v ≠ s.vars v → ∃ replica, a = .assign v replica) : Routed s a t where
  value c call m hc _ hne := absurd (hcalls c call hc) hne
  replicaid v hv := .inl (hvars v hv)
  removed := .inl hinq
  returns c call hc := by
    rw [ha] at hc
    cases hc

theorem step_routed {a : Label} (h : step nclients s a = some t) : Routed s a t := by
  cases a with
  | arrive m =>
    obtain rfl := Option.some.inj h
    unfold State.receive
    split
    · exact routed_of_idle rfl (fun _ _ hc => hc) ⟨[], (List.append_nil _).symm⟩
        fun v hv => absurd rfl hv
    · exact routed_of_idle rfl (fun _ _ hc => hc) ⟨[m], rfl⟩ fun v hv => absurd rfl hv
  | call c resp replicaid serial =>
    simp only [step] at h
    split at h
    · obtain rfl := Option.some.inj h
      exact (resume_resumed s c _).routed rfl
    · cases h
  | resume c =>
    simp only [step] at h
    split at h
    · split at h
      · split at h
        · obtain rfl := Option.some.inj h
          exact (resume_resumed s c _).routed rfl
        · cases h
      · cases h
    · cases h
  | cancel c =>
    obtain rfl := Option.some.inj h
    exact routed_of_idle rfl (fun _ _ hc => calls_of_cancel hc) ⟨[], (List.append_nil _).symm⟩
      fun v hv => absurd rfl hv
  | assign v replica =>
    obtain rfl := Option.some.inj h
    refine routed_of_idle rfl (fun _ _ hc => hc) ⟨[], (List.append_nil _).symm⟩ fun v' hv => ?_
    change Function.update s.vars v replica v' ≠ s.vars v' at hv
    by_cases hne : v' = v
    · exact ⟨replica, by rw [hne]⟩
    · exact absurd (Function.update_of_ne hne ..) hv

theorem Inv.awake (hs : Inv nclients s) : Awake nclients s := by
  intro c call e hc he hm
  rcases hm with ⟨m, hm, hserial⟩
  have htrig : s.triggered e = true := by
    by_contra hf
    exact hs.queued c call e hc he (Bool.not_eq_true _ ▸ hf) m hm hserial
  simp only [step, hc, he, htrig, if_true, Option.isSome_some]

theorem responses_routed (h : (machine nclients).Reachable s) :
    Awake nclients s ∧ ∀ a t, step nclients s a = some t → Routed s a t := by
  have hs : Inv nclients s :=
    Machine.Reachable.invariant (fun _ hi => init_inv hi)
      (fun _ _ _ hi hstep => step_inv hi hstep) h
  exact ⟨hs.awake, fun _ _ hstep => step_routed hstep⟩

/-- Two clients wait; a redirection for one of them comes in. -/
def twoClients : State where
  clientEvents cid := cid
  size := 2

def twoClientsRun : List Label :=
  [.call 0 .put 0 4096, .call 1 .cas 1 4097, .arrive (.redirection ⟨4097, .redirect, 2⟩)]

theorem responses_routed_two : ∃ s, (machine 2).exec twoClients twoClientsRun = some s ∧
    Awake 2 s ∧ ∀ a t, step 2 s a = some t → Routed s a t := by
  have hsome : ((machine 2).exec twoClients twoClientsRun).isSome = true := by decide +kernel
  have hinit : (machine 2).init twoClients :=
    ⟨rfl, fun _ => rfl, fun _ => rfl, fun cid hcid => hcid⟩
  rcases Option.isSome_iff_exists.1 hsome with ⟨s, hs⟩
  exact ⟨s, hs, responses_routed (Machine.Reachable.of_exec (.init hinit) hs)⟩

end ClientModel
end Psets
