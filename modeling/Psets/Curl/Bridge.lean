/-
The coroutines watch what libcurl wants to be watched.

A watch that is marked for removal belongs to the coroutine that is inside the call, which ends
when the call returns; every other watch is one that libcurl wants.  Each coroutine awaits what
libcurl wants now or is about to look again, and the same holds of the timer.  Results find the
frame they are for, which is there as long as libcurl knows the handle.
-/
import Psets.Curl.Driver

namespace Psets
namespace Curl

open Transition Cotamer

variable {st st' : State} {s k : Nat} {inside : Option Caller}

/-! ## Sockets -/

/-- What there is to a socket. -/
structure View where
  fd : Bool
  watch : Option WatchState
  opened : Bool
  socket : Bool
  wanted : Option Poll

def State.view (st : State) (s : Nat) : View :=
  ⟨st.drv.fds s, st.drv.watches s, st.opened s, st.curl.sockets s, st.curl.wanted s⟩

/-- The invariant of one socket. -/
structure Watched (inside : Option Caller) (s : Nat) (v : View) : Prop where
  fd : v.fd = v.socket
  opened : v.fd = true ∨ v.watch.isSome = true → v.opened = true
  wanted : ∀ m, v.wanted = some m →
    m ≠ .pollRemove ∧ v.socket = true ∧ ∃ w, v.watch = some w ∧ w.mask = m
  watch : ∀ w, v.watch = some w → v.wanted = some w.mask ∨
    w.mask = .pollRemove ∧ v.wanted = none ∧ inside = some (.watchTask s)
  awaits : ∀ w, v.watch = some w → w.triggered = true ∨ w.awaited = w.mask.mask
  running : inside = some (.watchTask s) → ∃ w, v.watch = some w ∧ w.triggered = true

structure Watching (st : State) : Prop where
  watched : ∀ s, Watched st.drv.inside s (st.view s)
  current : ∀ s, st.drv.currentSocket = some s ↔ st.drv.inside = some (.watchTask s)

/-- A call begins. -/
theorem Watched.enter {v : View} (h : Watched none s v) {c : Caller}
    (hrunning : c = .watchTask s → ∃ w, v.watch = some w ∧ w.triggered = true) :
    Watched (some c) s v where
  fd := h.fd
  opened := h.opened
  wanted := h.wanted
  watch w hw := by
    rcases h.watch w hw with hwanted | ⟨_, _, hinside⟩
    · exact .inl hwanted
    · cases hinside
  awaits := h.awaits
  running hinside := hrunning (Option.some.inj hinside)

/-- A call of another coroutine returns. -/
theorem Watched.leave {v : View} (h : Watched inside s v) (hother : inside ≠ some (.watchTask s)) :
    Watched none s v where
  fd := h.fd
  opened := h.opened
  wanted := h.wanted
  watch w hw := by
    rcases h.watch w hw with hwanted | ⟨_, _, hinside⟩
    · exact .inl hwanted
    · exact absurd hinside hother
  awaits := h.awaits
  running hinside := by cases hinside

/-- What the head of the loop makes of a watch. -/
def WatchState.next (w : WatchState) : Option WatchState :=
  if w.mask = .pollRemove then none else some { mask := w.mask, awaited := w.mask.mask }

/-- The coroutine of a socket goes on at the head of its loop. -/
theorem Watched.loop {v : View} (h : Watched inside s v) {w : WatchState}
    (hw : v.watch = some w) :
    Watched none s { v with watch := w.next } := by
  unfold WatchState.next
  by_cases hmask : w.mask = .pollRemove
  · rw [if_pos hmask]
    have hwanted : v.wanted = none := by
      rcases h.watch w hw with hwanted | ⟨_, hwanted, _⟩
      · exact absurd hmask (h.wanted _ hwanted).1
      · exact hwanted
    refine ⟨h.fd, fun hfd => h.opened (.inl ?_), fun m hm => ?_, fun w' hw' => ?_, fun w' hw' => ?_,
      fun hinside => ?_⟩
    · rcases hfd with hfd | hfd
      · exact hfd
      · cases hfd
    · rw [hwanted] at hm
      cases hm
    · cases hw'
    · cases hw'
    · cases hinside
  · rw [if_neg hmask]
    have hwanted : v.wanted = some w.mask := by
      rcases h.watch w hw with hwanted | ⟨hremove, _, _⟩
      · exact hwanted
      · exact absurd hremove hmask
    obtain ⟨_, hsocket, _⟩ := h.wanted _ hwanted
    refine ⟨h.fd, fun _ => h.opened (.inl (h.fd.trans hsocket)), fun m hm => ?_, fun w' hw' => ?_,
      fun w' hw' => ?_, fun hinside => ?_⟩
    · have hm : w.mask = m := Option.some.inj (hwanted.symm.trans hm)
      subst hm
      exact ⟨hmask, hsocket, _, rfl, rfl⟩
    · rw [← Option.some.inj hw']
      exact .inl hwanted
    · rw [← Option.some.inj hw']
      exact .inr rfl
    · cases hinside

/-- A step that is about one socket. -/
theorem Watching.at (h : Watching st) (s : Nat) (hother : ∀ k, k ≠ s → st'.view k = st.view k)
    (hinside : st'.drv.inside = st.drv.inside)
    (hcurrent : st'.drv.currentSocket = st.drv.currentSocket)
    (hs : Watched st.drv.inside s (st'.view s)) : Watching st' := by
  refine ⟨fun k => ?_, fun k => ?_⟩
  · rw [hinside]
    by_cases hk : k = s
    · subst hk
      exact hs
    · rw [hother k hk]
      exact h.watched k
  · rw [hinside, hcurrent]
    exact h.current k

theorem view_setWatch (st : State) (s : Nat) (w : Option WatchState) (hk : k ≠ s) :
    ({ st with drv := st.drv.setWatch s w } : State).view k = st.view k := by
  simp only [State.view, CurlDriver.setWatch, Function.update_of_ne hk]

theorem view_setWatch_self (st : State) (s : Nat) (w : Option WatchState) :
    ({ st with drv := st.drv.setWatch s w } : State).view s = { st.view s with watch := w } := by
  simp only [State.view, CurlDriver.setWatch, Function.update_self]

theorem watchLoop_eq (d : CurlDriver) (s : Nat) (w : WatchState) :
    d.watchLoop s w = d.setWatch s w.next := by
  unfold CurlDriver.watchLoop WatchState.next
  by_cases hmask : w.mask = .pollRemove
  · rw [if_pos hmask, if_pos hmask]
  · rw [if_neg hmask, if_neg hmask]

/-- The descriptor is not the driver's. -/
theorem Watched.unused {v : View} (h : Watched inside s v) (hopened : v.opened = false) :
    v.fd = false ∧ v.watch = none ∧ v.wanted = none := by
  have hno : ¬(v.fd = true ∨ v.watch.isSome = true) := fun hor => by
    rw [h.opened hor] at hopened
    cases hopened
  have hfd : v.fd = false := by simpa using fun hfd => hno (.inl hfd)
  refine ⟨hfd, by simpa using fun hw => hno (.inr hw), ?_⟩
  cases hwanted : v.wanted with
  | none => rfl
  | some m =>
    have hsocket := (h.wanted m hwanted).2.1
    rw [← h.fd, hfd] at hsocket
    cases hsocket

/-- libcurl does not want the socket to be watched any more. -/
theorem Watched.remove {v : View} (h : Watched inside s v) (hother : inside ≠ some (.watchTask s)) :
    Watched inside s { v with watch := none, wanted := none } := by
  refine ⟨h.fd, fun hor => h.opened (.inl ?_), fun m hm => ?_, fun w hw => ?_, fun w hw => ?_,
    fun hinside => absurd hinside hother⟩
  · rcases hor with hfd | hw
    · exact hfd
    · cases hw
  · cases hm
  · cases hw
  · cases hw

/-- The mark on the watch of the coroutine that is inside the call. -/
theorem Watched.mark {v : View} (h : Watched (some (.watchTask s)) s v) {w : WatchState}
    (hw : v.watch = some w) :
    Watched (some (.watchTask s)) s
      { v with watch := some { w with mask := .pollRemove, triggered := true }, wanted := none } := by
  refine ⟨h.fd, fun _ => h.opened (.inr (by rw [hw]; rfl)), fun m hm => ?_, fun w' hw' => ?_,
    fun w' hw' => ?_, fun _ => ⟨_, rfl, rfl⟩⟩
  · cases hm
  · rw [← Option.some.inj hw']
    exact .inr ⟨rfl, rfl, rfl⟩
  · rw [← Option.some.inj hw']
    exact .inl rfl

/-- A watch with what libcurl wants now, whose coroutine is to look again or awaits just that. -/
theorem Watched.want {v : View} (h : Watched inside s v) (hsocket : v.socket = true) {w : WatchState}
    (hmask : w.mask ≠ .pollRemove) (hawaits : w.triggered = true ∨ w.awaited = w.mask.mask)
    (hrunning : inside = some (.watchTask s) → w.triggered = true) :
    Watched inside s { v with watch := some w, wanted := some w.mask } := by
  refine ⟨h.fd, fun _ => h.opened (.inl (h.fd.trans hsocket)), fun m hm => ?_, fun w' hw' => ?_,
    fun w' hw' => ?_, fun hinside => ⟨w, rfl, hrunning hinside⟩⟩
  · have hm : w.mask = m := Option.some.inj hm
    subst hm
    exact ⟨hmask, hsocket, w, rfl, rfl⟩
  · rw [← Option.some.inj hw']
    exact .inl rfl
  · rw [← Option.some.inj hw']
    exact hawaits

/-- What a callback about a socket does. -/
def Told (st : State) (s : Nat) (what : Poll) (st' : State) : Prop :=
  perform st (.socket s what) = some st' ∧ ∃ w wanted,
    st' = { st with drv := st.drv.setWatch s w, curl := { st.curl with wanted } }

/-- What is known of a socket after a callback. -/
theorem Watching.told (h : Watching st) {w : Option WatchState} (want : Option Poll)
    (hs : Watched st.drv.inside s { st.view s with watch := w, wanted := want }) :
    Watching { st with
      drv := st.drv.setWatch s w
      curl := { st.curl with wanted := Function.update st.curl.wanted s want } } := by
  refine h.at s (fun k hk => ?_) rfl rfl ?_
  · simp only [State.view, CurlDriver.setWatch, Function.update_of_ne hk]
  · simp only [State.view, CurlDriver.setWatch, Function.update_self]
    exact hs

theorem Watching.socket (h : Watching st) (what : Poll)
    (hsocket : st.curl.sockets s = true ∨ st.opened s = false) :
    ∃ st', Told st s what st' ∧ Watching st' := by
  have hs := h.watched s
  have hcurrent := h.current s
  by_cases hours : st.curl.sockets s = true
  · by_cases hwhat : what = .pollRemove
    · subst hwhat
      by_cases hrunning : st.drv.inside = some (.watchTask s)
      · obtain ⟨w, hw, _⟩ := hs.running hrunning
        have hw : st.drv.watches s = some w := hw
        have hs' := h.told none (s := s) (w := some { w with mask := .pollRemove, triggered := true })
          (by
            rw [hrunning] at hs ⊢
            exact hs.mark hw)
        refine ⟨_, ⟨?_, _, _, rfl⟩, hs'⟩
        simp [perform, CurlDriver.socketCb, hcurrent.2 hrunning, hw, hours]
      · have hs' := h.told none (hs.remove hrunning)
        refine ⟨_, ⟨?_, _, _, rfl⟩, hs'⟩
        have hcurrent : st.drv.currentSocket ≠ some s := fun he => hrunning (hcurrent.1 he)
        simp [perform, CurlDriver.socketCb, CurlDriver.eraseWatch, hcurrent, hrunning, hours]
    · cases hw : st.drv.watches s with
      | some w =>
        have hs' := h.told (some what) (hs.want (w := { w with mask := what, triggered := true })
          hours hwhat (.inl rfl) fun _ => rfl)
        refine ⟨_, ⟨?_, _, _, rfl⟩, hs'⟩
        simp [perform, CurlDriver.socketCb, hwhat, hw, hours]
      | none =>
        have hfd : st.drv.fds s = true := hs.fd.trans hours
        have hs' := h.told (some what) (hs.want (w := { mask := what, awaited := what.mask })
          hours hwhat (.inr rfl) fun hinside => by
            obtain ⟨w, hw', _⟩ := hs.running hinside
            have hw' : st.drv.watches s = some w := hw'
            rw [hw] at hw'
            cases hw')
        refine ⟨_, ⟨?_, _, _, rfl⟩, hs'⟩
        simp [perform, CurlDriver.socketCb, CurlDriver.watchLoop, hwhat, hw, hours, hfd]
  · obtain ⟨hfd, hw, hwanted⟩ := hs.unused (hsocket.resolve_left hours)
    have hfd : st.drv.fds s = false := hfd
    have hw : st.drv.watches s = none := hw
    have hsame : st.drv.setWatch s none = st.drv := by
      rw [CurlDriver.setWatch, ← hw, Function.update_eq_self]
    refine ⟨st, ⟨?_, none, st.curl.wanted, ?_⟩, h⟩
    · by_cases hwhat : what = .pollRemove ∧ st.drv.currentSocket ≠ some s
      · simp [perform, CurlDriver.socketCb, CurlDriver.eraseWatch, hwhat, hw, hours, hsame]
      · rw [perform, CurlDriver.socketCb, if_neg hwhat, hw]
        simp [hfd, hours]
    · rw [hsame]

/-- Only the descriptors change. -/
theorem Watched.refd {v : View} (h : Watched inside s v) {fd opened : Bool}
    (hopened : fd = true ∨ v.watch.isSome = true → opened = true)
    (hwanted : v.wanted = none ∨ fd = true) :
    Watched inside s { v with fd, opened, socket := fd } := by
  refine ⟨rfl, hopened, fun m hm => ?_, h.watch, h.awaits, h.running⟩
  obtain ⟨hmask, _, hw⟩ := h.wanted m hm
  rcases hwanted with hnone | hfd
  · have hm : v.wanted = some m := hm
    rw [hnone] at hm
    cases hm
  · exact ⟨hmask, hfd, hw⟩

theorem Watching.opensocket (h : Watching st) (s : Nat) :
    ∃ st', perform st (.opensocket s) = some st' ∧ Watching st' := by
  refine ⟨_, rfl, h.at s (fun k hk => ?_) rfl rfl ?_⟩
  · simp only [State.view, CurlDriver.opensocketCb, Function.update_of_ne hk]
  · simp only [State.view, CurlDriver.opensocketCb, Function.update_self]
    exact (h.watched s).refd (fun _ => rfl) (.inr rfl)

/-- A watch that is left here is one that is marked for removal. -/
theorem Watching.closesocket (h : Watching st) (s : Nat) (hwanted : st.curl.wanted s = none) :
    ∃ st', perform st (.closesocket s) = some st' ∧ Watching st' := by
  have hs := h.watched s
  refine ⟨_, rfl, h.at s (fun k hk => ?_) rfl rfl ?_⟩
  · simp only [State.view, CurlDriver.closesocketCb, Function.update_of_ne hk]
  · simp only [State.view, CurlDriver.closesocketCb, Function.update_self]
    refine hs.refd (fun hor => hs.opened (.inr ?_)) (.inl hwanted)
    rcases hor with hfd | hw
    · cases hfd
    · exact hw

theorem Watching.closed (h : Watching st) (s : Nat) (hfd : st.drv.fds s = false)
    (hw : st.drv.watches s = none) :
    ∃ st', perform st (.closed s) = some st' ∧ Watching st' := by
  have hs := h.watched s
  refine ⟨_, rfl, h.at s (fun k hk => ?_) rfl rfl ?_⟩
  · simp only [State.view, Function.update_of_ne hk]
  · simp only [State.view, Function.update_self]
    refine ⟨hs.fd, fun hor => ?_, hs.wanted, hs.watch, hs.awaits, hs.running⟩
    rcases hor with hfd' | hw'
    · have hfd' : st.drv.fds s = true := hfd'
      rw [hfd] at hfd'
      cases hfd'
    · have hw' : (st.drv.watches s).isSome = true := hw'
      rw [hw] at hw'
      cases hw'

/-- The event of a watch is triggered. -/
theorem Watching.ready (h : Watching st) (fired : Fdevent) {w : WatchState}
    (hw : st.drv.watches s = some w) :
    Watching { st with
      drv := st.drv.setWatch s (some { w with triggered := true, userFlags := fired }) } := by
  have hs := h.watched s
  refine h.at s (fun k hk => view_setWatch st s _ hk) rfl rfl ?_
  rw [view_setWatch_self]
  refine ⟨hs.fd, fun _ => hs.opened (.inr ?_), fun m hm => ?_, fun w' hw' => ?_, fun w' hw' => ?_,
    fun _ => ⟨_, rfl, rfl⟩⟩
  · show (st.drv.watches s).isSome = true
    rw [hw]
    rfl
  · obtain ⟨hmask, hsocket, w', hw', hm'⟩ := hs.wanted m hm
    have he : w' = w := Option.some.inj (hw'.symm.trans hw)
    subst he
    exact ⟨hmask, hsocket, _, rfl, hm'⟩
  · rw [← Option.some.inj hw']
    exact hs.watch w hw
  · rw [← Option.some.inj hw']
    exact .inl rfl

/-! ## Calls -/

theorem Watching.enter (h : Watching st) (hinside : st.drv.inside = none) {c : Caller}
    {currentSocket : Option Nat} (hcurrent : ∀ s, currentSocket = some s ↔ c = .watchTask s)
    (hrunning : ∀ s, c = .watchTask s → ∃ w, st.drv.watches s = some w ∧ w.triggered = true) :
    Watching { st with drv := { st.drv with inside := some c, currentSocket } } where
  watched s := by
    have hs := h.watched s
    rw [hinside] at hs
    exact hs.enter (hrunning s)
  current s := by
    rw [hcurrent s]
    exact ⟨fun he => congrArg some he, fun he => Option.some.inj he⟩

/-- The call returns to a coroutine that has no socket. -/
theorem Watching.leave (h : Watching st) (hother : ∀ s, st.drv.inside ≠ some (.watchTask s)) :
    Watching { st with drv := { st.drv with inside := none } } where
  watched s := (h.watched s).leave (hother s)
  current s := by
    constructor
    · intro he
      exact absurd ((h.current s).1 he) (hother s)
    · intro he
      cases he

/-- The coroutine of a socket goes on, after a call or without one. -/
theorem Watching.loop (h : Watching st) {w : WatchState} (hw : st.drv.watches s = some w)
    (hinside : ∀ k, st.drv.inside = some (.watchTask k) → k = s) :
    Watching { st with
      drv := { st.drv.watchLoop s w with inside := none, currentSocket := none } } where
  watched k := by
    by_cases hk : k = s
    · subst hk
      rw [watchLoop_eq]
      show Watched none k (({ st with drv := st.drv.setWatch k w.next } : State).view k)
      rw [view_setWatch_self]
      exact (h.watched k).loop hw
    · rw [watchLoop_eq]
      show Watched none k (({ st with drv := st.drv.setWatch s w.next } : State).view k)
      rw [view_setWatch st s _ hk]
      exact (h.watched k).leave fun he => hk (hinside k he)
  current k := by
    constructor
    · intro he
      cases he
    · intro he
      cases he

/-! ## The timer -/

/-- While `expiry_` is not triggered it has the deadline that libcurl wants; else `next_timeout_`
keeps what libcurl wants for the time after. -/
structure Timing (st : State) : Prop where
  running : st.drv.inside = some .timerTask → st.drv.expiry.triggered = true
  waiting : st.drv.expiry.triggered = false →
    st.drv.expiry.deadline = st.curl.timeout ∧ st.drv.nextTimeout = -1
  elapsed : st.drv.expiry.triggered = true → st.drv.nextTimeout = st.curl.timeout

theorem timing_timer (st : State) (timeoutMs : Int) :
    Timing { st with
      drv := st.drv.timerCb timeoutMs
      curl := { st.curl with timeout := timeoutMs } } := by
  have htriggered : (st.drv.timerCb timeoutMs).expiry.triggered = true := by
    unfold CurlDriver.timerCb
    cases he : st.drv.expiry.triggered with
    | true => simp only [if_true, he]
    | false => rfl
  refine ⟨fun _ => htriggered, fun hwaiting => ?_, fun _ => rfl⟩
  have hwaiting : (st.drv.timerCb timeoutMs).expiry.triggered = false := hwaiting
  rw [htriggered] at hwaiting
  cases hwaiting

theorem Timing.elapse (h : Timing st) (hwaiting : st.drv.expiry.triggered = false) :
    Timing { st with
      drv := { st.drv with expiry := { st.drv.expiry with triggered := true } }
      curl := { st.curl with timeout := -1 } } := by
  refine ⟨fun _ => rfl, fun he => ?_, fun _ => (h.waiting hwaiting).2⟩
  cases he

/-- The coroutine of the timer goes on. -/
theorem Timing.loop (h : Timing st) (htriggered : st.drv.expiry.triggered = true) :
    Timing { st with drv := { st.drv.timerLoop with inside := none } } := by
  unfold CurlDriver.timerLoop
  rw [if_pos htriggered]
  refine ⟨fun he => ?_, fun _ => ⟨h.elapsed htriggered, rfl⟩, fun he => ?_⟩
  · cases he
  · cases he

/-! ## Results -/

/-- A result waits for the frame it is for, or has reached it. -/
structure Fetching (st : State) : Prop where
  quiet : st.drv.inside = none ∨ st.drv.inside = some .program → st.curl.msgs = []
  msgs : ∀ msg ∈ st.curl.msgs,
    (∃ f, st.drv.fetches msg.1 = some f) ∧ st.curl.completed msg.1 = some msg.2
  done : ∀ easy f, st.drv.fetches easy = some f → f.done = true →
    st.curl.completed easy = some f.result
  completed : ∀ easy f result, st.drv.fetches easy = some f →
    st.curl.completed easy = some result → f = ⟨result, true⟩ ∨ (easy, result) ∈ st.curl.msgs

/-- Every message finds its frame, and a frame is as a message for it says, or as it was. -/
theorem processMulti_spec (msgs : List (Nat × Nat)) (d : CurlDriver)
    (h : ∀ msg ∈ msgs, ∃ f, d.fetches msg.1 = some f) :
    ∃ fetches, d.processMulti msgs = some { d with fetches } ∧
      ∀ easy f, fetches easy = some f →
        (∃ result, (easy, result) ∈ msgs ∧ f = ⟨result, true⟩) ∨
          d.fetches easy = some f ∧ ∀ result, (easy, result) ∉ msgs := by
  induction msgs generalizing d with
  | nil => exact ⟨d.fetches, rfl, fun easy f hf => .inr ⟨hf, fun _ => List.not_mem_nil⟩⟩
  | cons msg msgs ih =>
    obtain ⟨easy, result⟩ := msg
    obtain ⟨f₀, hf₀⟩ := h (easy, result) List.mem_cons_self
    have hf₀ : d.fetches easy = some f₀ := hf₀
    obtain ⟨fetches, hrun, hspec⟩ := ih
      { d with fetches := Function.update d.fetches easy (some ⟨result, true⟩) } fun msg hmsg => by
        show ∃ f, Function.update d.fetches easy _ msg.1 = some f
        by_cases he : msg.1 = easy
        · rw [he, Function.update_self]
          exact ⟨_, rfl⟩
        · rw [Function.update_of_ne he]
          exact h msg (List.mem_cons_of_mem _ hmsg)
    refine ⟨fetches, ?_, fun e f hf => ?_⟩
    · rw [CurlDriver.processMulti, hf₀]
      exact hrun
    · rcases hspec e f hf with ⟨r, hmem, hr⟩ | ⟨hold, hnone⟩
      · exact .inl ⟨r, List.mem_cons_of_mem _ hmem, hr⟩
      · have hold : Function.update d.fetches easy (some ⟨result, true⟩) e = some f := hold
        by_cases he : e = easy
        · subst he
          rw [Function.update_self] at hold
          exact .inl ⟨result, List.mem_cons_self, (Option.some.inj hold).symm⟩
        · rw [Function.update_of_ne he] at hold
          refine .inr ⟨hold, fun r hmem => ?_⟩
          rcases List.mem_cons.1 hmem with heq | hmem
          · exact he (Prod.mk.inj heq).1
          · exact hnone r hmem

/-- A call returns, and its messages have been read. -/
theorem Fetching.ret (h : Fetching st) {fetches : Nat → Option FullResponse}
    (hspec : ∀ easy f, fetches easy = some f →
      (∃ result, (easy, result) ∈ st.curl.msgs ∧ f = ⟨result, true⟩) ∨
        st.drv.fetches easy = some f ∧ ∀ result, (easy, result) ∉ st.curl.msgs) (inside : Option Caller) :
    Fetching { st with
      drv := { st.drv with fetches, inside }
      curl := { st.curl with msgs := [] } } := by
  refine ⟨fun _ => rfl, fun msg hmsg => ?_, fun easy f hf hdone => ?_,
    fun easy f result hf hcompleted => .inl ?_⟩
  · cases hmsg
  · rcases hspec easy f hf with ⟨result, hmem, rfl⟩ | ⟨hold, _⟩
    · exact (h.msgs _ hmem).2
    · exact h.done easy f hold hdone
  · have hcompleted : st.curl.completed easy = some result := hcompleted
    rcases hspec easy f hf with ⟨result', hmem, rfl⟩ | ⟨hold, hnone⟩
    · have hresult : st.curl.completed easy = some result' := (h.msgs _ hmem).2
      rw [hcompleted] at hresult
      rw [Option.some.inj hresult]
    · rcases h.completed easy f result hold hcompleted with hf | hmem
      · exact hf
      · exact absurd hmem (hnone result)

theorem Fetching.fetch (h : Fetching st) (easy : Nat) (hinside : st.drv.inside = none) :
    Fetching { st with
      drv := { st.drv with
        fetches := Function.update st.drv.fetches easy (some {})
        inside := some .program }
      curl := { st.curl with completed := Function.update st.curl.completed easy none } } := by
  have hmsgs : st.curl.msgs = [] := h.quiet (.inl hinside)
  refine ⟨fun _ => hmsgs, fun msg hmsg => ?_, fun e f hf hdone => ?_, fun e f r hf hcompleted => ?_⟩
  · have hmsg : msg ∈ st.curl.msgs := hmsg
    rw [hmsgs] at hmsg
    cases hmsg
  · have hf : Function.update st.drv.fetches easy (some {}) e = some f := hf
    show Function.update st.curl.completed easy none e = some f.result
    by_cases he : e = easy
    · subst he
      rw [Function.update_self] at hf
      rw [← Option.some.inj hf] at hdone
      cases hdone
    · rw [Function.update_of_ne he] at hf ⊢
      exact h.done e f hf hdone
  · have hf : Function.update st.drv.fetches easy (some {}) e = some f := hf
    have hcompleted : Function.update st.curl.completed easy none e = some r := hcompleted
    by_cases he : e = easy
    · subst he
      rw [Function.update_self] at hcompleted
      cases hcompleted
    · rw [Function.update_of_ne he] at hf hcompleted
      exact h.completed e f r hf hcompleted

/-- The handle is removed, and with it its messages. -/
theorem Fetching.finish (h : Fetching st) (easy : Nat) (hinside : st.drv.inside = none) :
    Fetching { st with
      drv := { st.drv with
        fetches := Function.update st.drv.fetches easy none
        inside := some .program }
      curl := { st.curl with msgs := st.curl.msgs.filter fun msg => msg.1 != easy } } := by
  have hmsgs : st.curl.msgs = [] := h.quiet (.inl hinside)
  rw [hmsgs]
  have hother : ∀ e f, Function.update st.drv.fetches easy none e = some f →
      st.drv.fetches e = some f := fun e f hf => by
    by_cases he : e = easy
    · subst he
      rw [Function.update_self] at hf
      cases hf
    · rwa [Function.update_of_ne he] at hf
  refine ⟨fun _ => rfl, fun msg hmsg => ?_, fun e f hf => h.done e f (hother e f hf),
    fun e f r hf hcompleted => .inl ?_⟩
  · cases hmsg
  · rcases h.completed e f r (hother e f hf) hcompleted with hf | hmem
    · exact hf
    · rw [hmsgs] at hmem
      cases hmem

theorem Fetching.complete (h : Fetching st) (easy result : Nat)
    (hinside : st.drv.inside ≠ none ∧ st.drv.inside ≠ some .program)
    (hfetch : ∃ f, st.drv.fetches easy = some f) (hnew : st.curl.completed easy = none) :
    Fetching { st with
      curl := { st.curl with
        msgs := st.curl.msgs ++ [(easy, result)]
        completed := Function.update st.curl.completed easy (some result) } } := by
  have hother : ∀ e r, st.curl.completed e = some r →
      Function.update st.curl.completed easy (some result) e = some r := fun e r hr => by
    by_cases he : e = easy
    · subst he
      rw [hnew] at hr
      cases hr
    · rwa [Function.update_of_ne he]
  refine ⟨fun hquiet => ?_, fun msg hmsg => ?_, fun e f hf hdone => ?_, fun e f r hf hcompleted => ?_⟩
  · rcases hquiet with hnone | hprogram
    · exact absurd hnone hinside.1
    · exact absurd hprogram hinside.2
  · rcases List.mem_append.1 hmsg with hmsg | hmsg
    · exact ⟨(h.msgs msg hmsg).1, hother _ _ (h.msgs msg hmsg).2⟩
    · rw [List.mem_singleton.1 hmsg]
      exact ⟨hfetch, Function.update_self ..⟩
  · exact hother e _ (h.done e f hf hdone)
  · have hcompleted : Function.update st.curl.completed easy (some result) e = some r := hcompleted
    by_cases he : e = easy
    · subst he
      rw [Function.update_self] at hcompleted
      rw [← Option.some.inj hcompleted]
      exact .inr (List.mem_append_right _ (List.mem_singleton.2 rfl))
    · rw [Function.update_of_ne he] at hcompleted
      rcases h.completed e f r hf hcompleted with hf | hmem
      · exact .inl hf
      · exact .inr (List.mem_append_left _ hmem)

/-! ## Steps -/

structure Inv (st : State) : Prop where
  watching : Watching st
  timing : Timing st
  fetching : Fetching st

theorem Watching.of_eq (h : Watching st) (hview : ∀ s, st'.view s = st.view s)
    (hinside : st'.drv.inside = st.drv.inside)
    (hcurrent : st'.drv.currentSocket = st.drv.currentSocket) : Watching st' := by
  refine ⟨fun s => ?_, fun s => ?_⟩
  · rw [hview, hinside]
    exact h.watched s
  · rw [hcurrent, hinside]
    exact h.current s

theorem Inv.resumeWatch (h : Inv st) (hinside : st.drv.inside = none) {w : WatchState}
    (hw : st.drv.watches s = some w) (htriggered : w.triggered = true) :
    ∃ st', perform st (.resumeWatch s) = some st' ∧ Inv st' := by
  have hquiet : st.curl.msgs = [] := h.fetching.quiet (.inl hinside)
  by_cases hflags : w.userFlags = Fdevent.none
  · have hcurrent : st.drv.currentSocket = none := by
      cases hc : st.drv.currentSocket with
      | none => rfl
      | some k =>
        have hk := (h.watching.current k).1 hc
        rw [hinside] at hk
        cases hk
    have hloop := h.watching.loop hw fun k hk => by
      rw [hinside] at hk
      cases hk
    refine ⟨{ st with drv := st.drv.watchLoop s w }, by simp [perform, hw, hflags], ?_, ?_, ?_⟩
    · refine hloop.of_eq (fun k => ?_) ?_ ?_
      · rw [watchLoop_eq]
        rfl
      · rw [watchLoop_eq]
        exact hinside
      · rw [watchLoop_eq]
        exact hcurrent
    · rw [watchLoop_eq]
      exact ⟨h.timing.running, h.timing.waiting, h.timing.elapsed⟩
    · rw [watchLoop_eq]
      exact ⟨h.fetching.quiet, h.fetching.msgs, h.fetching.done, h.fetching.completed⟩
  · have hwatching : Watching { st with
        drv := { st.drv with inside := some (.watchTask s), currentSocket := some s } } := by
      refine h.watching.enter hinside (fun k => ?_) fun k hk => ?_
      · rw [Option.some.injEq, Caller.watchTask.injEq]
      · rw [← Caller.watchTask.inj hk]
        exact ⟨w, hw, htriggered⟩
    refine ⟨_, by simp [perform, hw, hflags], hwatching, ?_, ?_⟩
    · refine ⟨fun he => ?_, h.timing.waiting, h.timing.elapsed⟩
      cases he
    · exact ⟨fun _ => hquiet, h.fetching.msgs, h.fetching.done, h.fetching.completed⟩

theorem Inv.resumeTimer (h : Inv st) (hinside : st.drv.inside = none)
    (htriggered : st.drv.expiry.triggered = true) :
    ∃ st', perform st .resumeTimer = some st' ∧ Inv st' := by
  have hquiet : st.curl.msgs = [] := h.fetching.quiet (.inl hinside)
  have hcurrent : ∀ s, st.drv.currentSocket = some s ↔ Caller.timerTask = .watchTask s := fun s => by
    rw [h.watching.current s, hinside]
    constructor
    · intro he
      cases he
    · intro he
      cases he
  cases hflags : st.drv.expiry.userFlags with
  | true =>
    have hloop : ({ st.drv.timerLoop with inside := none } : CurlDriver) = st.drv.timerLoop := by
      unfold CurlDriver.timerLoop
      rw [if_pos htriggered, ← hinside]
    have htiming := h.timing.loop htriggered
    rw [hloop] at htiming
    refine ⟨{ st with drv := st.drv.timerLoop }, by simp [perform, hflags], ?_, htiming, ?_⟩
    · unfold CurlDriver.timerLoop
      rw [if_pos htriggered]
      exact ⟨h.watching.watched, h.watching.current⟩
    · unfold CurlDriver.timerLoop
      rw [if_pos htriggered]
      exact ⟨h.fetching.quiet, h.fetching.msgs, h.fetching.done, h.fetching.completed⟩
  | false =>
    have hwatching := h.watching.enter hinside hcurrent fun s hs => by cases hs
    refine ⟨_, by simp [perform, hflags], hwatching, ?_, ?_⟩
    · exact ⟨fun _ => htriggered, h.timing.waiting, h.timing.elapsed⟩
    · exact ⟨fun _ => hquiet, h.fetching.msgs, h.fetching.done, h.fetching.completed⟩

/-- The call returns: to the program, or to a coroutine that reads the messages and goes on. -/
theorem Inv.ret (h : Inv st) (hinside : st.drv.inside.isSome = true) :
    ∃ st', perform st .ret = some st' ∧ Inv st' := by
  obtain ⟨c, hc⟩ := Option.isSome_iff_exists.1 hinside
  cases c with
  | program =>
    have hquiet : st.curl.msgs = [] := h.fetching.quiet (.inr hc)
    refine ⟨{ st with drv := { st.drv with inside := none } }, by simp only [perform, hc],
      h.watching.leave fun s => ?_, ?_, ?_⟩
    · rw [hc]
      intro he
      cases he
    · refine ⟨fun he => ?_, h.timing.waiting, h.timing.elapsed⟩
      cases he
    · exact ⟨fun _ => hquiet, h.fetching.msgs, h.fetching.done, h.fetching.completed⟩
  | timerTask =>
    obtain ⟨fetches, hrun, hspec⟩ :=
      processMulti_spec st.curl.msgs st.drv fun msg hmsg => (h.fetching.msgs msg hmsg).1
    have htriggered := h.timing.running hc
    have hwatching := h.watching.leave fun s => by
      rw [hc]
      intro he
      cases he
    refine ⟨{ st with
      drv := { ({ st.drv with fetches } : CurlDriver).timerLoop with inside := none }
      curl := { st.curl with msgs := [] } }, by simp [perform, hc, hrun], ?_, ?_, ?_⟩
    · unfold CurlDriver.timerLoop
      rw [if_pos htriggered]
      exact ⟨hwatching.watched, hwatching.current⟩
    · have htiming : Timing { st with drv := { st.drv with fetches } } :=
        ⟨h.timing.running, h.timing.waiting, h.timing.elapsed⟩
      have hloop := htiming.loop htriggered
      exact ⟨hloop.running, hloop.waiting, hloop.elapsed⟩
    · unfold CurlDriver.timerLoop
      rw [if_pos htriggered]
      have hret := h.fetching.ret hspec none
      exact ⟨hret.quiet, hret.msgs, hret.done, hret.completed⟩
  | watchTask s =>
    obtain ⟨w, hw, _⟩ := (h.watching.watched s).running hc
    obtain ⟨fetches, hrun, hspec⟩ :=
      processMulti_spec st.curl.msgs { st.drv with currentSocket := none }
        fun msg hmsg => (h.fetching.msgs msg hmsg).1
    have hw : st.drv.watches s = some w := hw
    have hstep : perform st .ret = some { st with
        drv := { ({ st.drv with currentSocket := none, fetches } : CurlDriver).watchLoop s w with
          inside := none }
        curl := { st.curl with msgs := [] } } := by
      unfold perform
      rw [hc]
      show (CurlDriver.processMulti _ _).bind _ = _
      rw [hrun]
      show (st.drv.watches s).bind _ = _
      rw [hw]
      rfl
    have hwatching := h.watching.loop hw fun k hk => by
      rw [hc] at hk
      exact (Caller.watchTask.inj (Option.some.inj hk)).symm
    rw [watchLoop_eq] at hwatching
    refine ⟨_, hstep, ?_, ?_, ?_⟩
    · rw [watchLoop_eq]
      exact ⟨hwatching.watched, hwatching.current⟩
    · rw [watchLoop_eq]
      refine ⟨fun he => ?_, h.timing.waiting, h.timing.elapsed⟩
      cases he
    · rw [watchLoop_eq]
      have hret := h.fetching.ret hspec none
      exact ⟨hret.quiet, hret.msgs, hret.done, hret.completed⟩

theorem Inv.fetch (h : Inv st) (easy : Nat) (hinside : st.drv.inside = none) :
    ∃ st', perform st (.fetch easy) = some st' ∧ Inv st' := by
  have hcurrent : ∀ s, st.drv.currentSocket = some s ↔ Caller.program = .watchTask s := fun s => by
    rw [h.watching.current s, hinside]
    constructor
    · intro he
      cases he
    · intro he
      cases he
  have hwatching := h.watching.enter hinside hcurrent fun s hs => by cases hs
  refine ⟨_, rfl, ⟨hwatching.watched, hwatching.current⟩, ?_, h.fetching.fetch easy hinside⟩
  refine ⟨fun he => ?_, h.timing.waiting, h.timing.elapsed⟩
  cases he

theorem Inv.finish (h : Inv st) (easy : Nat) (hinside : st.drv.inside = none) :
    ∃ st', perform st (.finish easy) = some st' ∧ Inv st' := by
  have hcurrent : ∀ s, st.drv.currentSocket = some s ↔ Caller.program = .watchTask s := fun s => by
    rw [h.watching.current s, hinside]
    constructor
    · intro he
      cases he
    · intro he
      cases he
  have hwatching := h.watching.enter hinside hcurrent fun s hs => by cases hs
  refine ⟨_, rfl, ⟨hwatching.watched, hwatching.current⟩, ?_, h.fetching.finish easy hinside⟩
  refine ⟨fun he => ?_, h.timing.waiting, h.timing.elapsed⟩
  cases he

/-- What the environment may do is done, and keeps the invariant. -/
theorem Inv.step (h : Inv st) (a : Label) (henabled : Enabled st a = true) :
    ∃ st', perform st a = some st' ∧ Inv st' := by
  cases a with
  | ready s fired =>
    obtain ⟨_, hany⟩ := of_decide_eq_true henabled
    obtain ⟨w, hw, _⟩ := (Option.any_eq_true _ _).1 hany
    refine ⟨_, by simp only [perform, hw, Option.bind_eq_bind, Option.bind_some],
      h.watching.ready fired hw, ⟨h.timing.running, h.timing.waiting, h.timing.elapsed⟩,
      ⟨h.fetching.quiet, h.fetching.msgs, h.fetching.done, h.fetching.completed⟩⟩
  | elapse =>
    obtain ⟨hinside, hwaiting, _⟩ := of_decide_eq_true henabled
    exact ⟨_, rfl, ⟨h.watching.watched, h.watching.current⟩, h.timing.elapse hwaiting,
      ⟨h.fetching.quiet, h.fetching.msgs, h.fetching.done, h.fetching.completed⟩⟩
  | resumeWatch s =>
    obtain ⟨hinside, hany⟩ := of_decide_eq_true henabled
    obtain ⟨w, hw, htriggered⟩ := (Option.any_eq_true _ _).1 hany
    exact h.resumeWatch hinside hw htriggered
  | resumeTimer =>
    obtain ⟨hinside, htriggered⟩ := of_decide_eq_true henabled
    exact h.resumeTimer hinside htriggered
  | fetch easy => exact h.fetch easy (of_decide_eq_true henabled).1
  | finish easy => exact h.finish easy (of_decide_eq_true henabled).1
  | opensocket s =>
    obtain ⟨st', hstep, hwatching⟩ := h.watching.opensocket s
    cases hstep
    exact ⟨_, rfl, hwatching, ⟨h.timing.running, h.timing.waiting, h.timing.elapsed⟩,
      ⟨h.fetching.quiet, h.fetching.msgs, h.fetching.done, h.fetching.completed⟩⟩
  | closesocket s =>
    obtain ⟨_, _, hwanted⟩ := of_decide_eq_true henabled
    obtain ⟨st', hstep, hwatching⟩ := h.watching.closesocket s (Option.isNone_iff_eq_none.1 hwanted)
    cases hstep
    exact ⟨_, rfl, hwatching, ⟨h.timing.running, h.timing.waiting, h.timing.elapsed⟩,
      ⟨h.fetching.quiet, h.fetching.msgs, h.fetching.done, h.fetching.completed⟩⟩
  | socket s what =>
    obtain ⟨_, hsocket⟩ := of_decide_eq_true henabled
    obtain ⟨st', ⟨hstep, w, wanted, rfl⟩, hwatching⟩ := h.watching.socket what hsocket
    exact ⟨_, hstep, hwatching, ⟨h.timing.running, h.timing.waiting, h.timing.elapsed⟩,
      ⟨h.fetching.quiet, h.fetching.msgs, h.fetching.done, h.fetching.completed⟩⟩
  | timer timeoutMs =>
    exact ⟨_, rfl, ⟨h.watching.watched, h.watching.current⟩, timing_timer st timeoutMs,
      ⟨h.fetching.quiet, h.fetching.msgs, h.fetching.done, h.fetching.completed⟩⟩
  | complete easy result =>
    obtain ⟨hinside, hprogram, hfetch, hnew⟩ := of_decide_eq_true henabled
    refine ⟨_, rfl, ⟨h.watching.watched, h.watching.current⟩,
      ⟨h.timing.running, h.timing.waiting, h.timing.elapsed⟩,
      h.fetching.complete easy result ⟨fun he => ?_, hprogram⟩
        (Option.isSome_iff_exists.1 hfetch) (Option.isNone_iff_eq_none.1 hnew)⟩
    rw [he] at hinside
    cases hinside
  | ret => exact h.ret henabled
  | closed s =>
    obtain ⟨hfd, hw⟩ := of_decide_eq_true henabled
    obtain ⟨st', hstep, hwatching⟩ := h.watching.closed s hfd (Option.isNone_iff_eq_none.1 hw)
    cases hstep
    exact ⟨_, rfl, hwatching, ⟨h.timing.running, h.timing.waiting, h.timing.elapsed⟩,
      ⟨h.fetching.quiet, h.fetching.msgs, h.fetching.done, h.fetching.completed⟩⟩

/-! ## What libcurl gets -/

/-- The coroutines when no call is under way. -/
structure Served (st : State) : Prop where
  /-- exactly what libcurl wants to be watched has a watch, for that -/
  watched : ∀ s m, st.curl.wanted s = some m ↔ ∃ w, st.drv.watches s = some w ∧ w.mask = m
  /-- which awaits that, unless its coroutine is about to look again -/
  awaits : ∀ s w, st.drv.watches s = some w → w.triggered = true ∨ w.awaited = w.mask.mask
  timer : if st.drv.expiry.triggered then st.drv.nextTimeout = st.curl.timeout
    else st.drv.expiry.deadline = st.curl.timeout
  /-- every result is in the frame it is for, which is woken -/
  fetched : ∀ easy f, st.drv.fetches easy = some f →
    st.curl.completed easy = if f.done then some f.result else none
  sockets : ∀ s, st.drv.fds s = st.curl.sockets s

theorem Inv.served (h : Inv st) (hinside : st.drv.inside = none) : Served st where
  watched s m := by
    have hs := h.watching.watched s
    constructor
    · intro hwanted
      exact (hs.wanted m hwanted).2.2
    · rintro ⟨w, hw, rfl⟩
      rcases hs.watch w hw with hwanted | ⟨_, _, hrunning⟩
      · exact hwanted
      · rw [hinside] at hrunning
        cases hrunning
  awaits s w hw := (h.watching.watched s).awaits w hw
  timer := by
    cases htriggered : st.drv.expiry.triggered with
    | true => exact h.timing.elapsed htriggered
    | false => exact (h.timing.waiting htriggered).1
  fetched easy f hf := by
    cases hdone : f.done with
    | true => exact h.fetching.done easy f hf hdone
    | false =>
      cases hcompleted : st.curl.completed easy with
      | none => rfl
      | some result =>
        rcases h.fetching.completed easy f result hf hcompleted with he | hmem
        · rw [he] at hdone
          cases hdone
        · rw [h.fetching.quiet (.inl hinside)] at hmem
          cases hmem
  sockets s := (h.watching.watched s).fd

theorem init_inv : Inv {} := by
  refine ⟨⟨fun s => ⟨rfl, fun hor => ?_, fun m hm => ?_, fun w hw => ?_, fun w hw => ?_,
    fun he => ?_⟩, fun s => ⟨fun he => ?_, fun he => ?_⟩⟩, ⟨fun he => ?_, fun _ => ⟨rfl, rfl⟩,
    fun he => ?_⟩, ⟨fun _ => rfl, fun msg hmsg => ?_, fun e f hf => ?_, fun e f r hf => ?_⟩⟩
  · rcases hor with he | he
    · cases he
    · cases he
  · cases hm
  · cases hw
  · cases hw
  · cases he
  · cases he
  · cases he
  · cases he
  · cases he
  · cases hmsg
  · cases hf
  · cases hf

/-- Whatever libcurl, the kernel and the program do: nothing is used that is gone and no running
coroutine is destroyed, and between the calls libcurl gets what it wants. -/
theorem libcurl_served (h : program.Reachable st) :
    (∀ a, Enabled st a = true → (perform st a).isSome = true) ∧
      (st.drv.inside = none → Served st) := by
  have key : Inv st := by
    refine Machine.Reachable.invariant ?_ ?_ h
    · intro st hinit
      have hinit : st = {} := hinit
      subst hinit
      exact init_inv
    · intro st a st' hinv hstep
      by_cases henabled : Enabled st a = true
      · obtain ⟨st'', hperform, hnew⟩ := hinv.step a henabled
        have hstep : (if Enabled st a = true then perform st a else none) = some st' := hstep
        rw [if_pos henabled, hperform] at hstep
        rw [← Option.some.inj hstep]
        exact hnew
      · have hstep : (if Enabled st a = true then perform st a else none) = some st' := hstep
        rw [if_neg henabled] at hstep
        cases hstep
  refine ⟨fun a henabled => ?_, key.served⟩
  obtain ⟨st', hperform, _⟩ := key.step a henabled
  rw [hperform]
  rfl

/-- A transfer over one socket, which libcurl writes to and then keeps open to read from. -/
def transfer : List Label :=
  [.fetch 7, .timer 0, .ret, .resumeTimer, .elapse, .resumeTimer, .opensocket 5,
    .socket 5 .pollOut, .ret, .ready 5 Fdevent.write, .resumeWatch 5, .socket 5 .pollIn,
    .complete 7 0, .ret]

theorem transfer_runs : (program.exec {} transfer).isSome = true := by decide

theorem libcurl_served_transfer : Served ((program.exec {} transfer).get transfer_runs) :=
  (libcurl_served (.of_get rfl transfer_runs)).2 (by decide)

end Curl
end Psets
