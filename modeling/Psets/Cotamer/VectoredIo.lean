/-
Vectored reads and writes that go on until all is done.

A call of `writev`, `sendmsg` or `recvmsg` is a loop around the system call of its name.
The kernel answers as it likes, as long as it moves no more than it was given, so a run is
the list of its answers.  What a call is for is an abstract transfer, which knows only the
vectors that are left.
-/
import Psets.Cotamer.Iovec
import Psets.Transition.Machine

namespace Psets
namespace Cotamer
namespace VectoredIo

open Containers Transition

/-- What the kernel reads and writes. -/
structure World where
  mem : Nat → UInt8
  /-- The bytes that have gone to the file, or come from it. -/
  wire : List UInt8 := []
  /-- The cells they were read from or written to.  No code reads this. -/
  moved : List Nat := []

/-- The kernel's answer. -/
inductive Answer where
  /-- `r >= 0`, with the `r` bytes -/
  | moved (bytes : List UInt8)
  /-- `EAGAIN`, `EWOULDBLOCK` or `EINTR` -/
  | again
  | failed (errno : Nat)
deriving DecidableEq, Repr

/-- End of file, or an error. -/
def Answer.stops : Answer → Bool
  | .moved bytes => bytes.isEmpty
  | .again => false
  | .failed _ => true

/-- The functions, with `flags & MSG_WAITALL`. -/
inductive Fn where
  | writev
  | sendmsg (waitAll : Bool)
  | recvmsg (waitAll : Bool)
deriving DecidableEq, Repr

/-- The bytes go from the memory to the file. -/
def Fn.sends : Fn → Bool
  | .writev | .sendmsg _ => true
  | .recvmsg _ => false

def Fn.waits : Fn → Bool
  | .writev => true
  | .sendmsg waitAll | .recvmsg waitAll => waitAll

/-- `ioresult` -/
inductive Result where
  | value (n : Nat)
  | error (errno : Nat)
deriving DecidableEq, Repr

/-- What the kernel can answer when it is given the vectors `es`: it moves bytes from the
front, and it refuses more than an `ssize_t` can count. -/
def Legal (sends : Bool) (w : World) (es : List IoVec) : Answer → Prop
  | .moved bytes =>
      bytes.length ≤ extentSize es ∧ extentSize es < 2 ^ 63 ∧
        (sends = true → bytes = ((cells es).take bytes.length).map w.mem)
  | _ => True

instance (sends : Bool) (w : World) (es : List IoVec) : (a : Answer) →
    Decidable (Legal sends w es a)
  | .moved _ => inferInstanceAs (Decidable (_ ∧ _))
  | .again => .isTrue trivial
  | .failed _ => .isTrue trivial

/-- The bytes move. -/
def World.carry (sends : Bool) (w : World) (es : List IoVec) (bytes : List UInt8) : World where
  mem := if sends then w.mem else store w.mem ((cells es).take bytes.length) bytes
  wire := w.wire ++ bytes
  moved := w.moved ++ (cells es).take bytes.length

/-! ## The calls -/

/-- A call that is running. -/
structure State where
  vectors : Vectors
  /-- The parameters `iov` and `iovcnt`, or `msg_iov` and `msg_iovlen` of the caller's
  `msghdr`. -/
  span : Span
  /-- `mhx`, once `mh` points to it. -/
  mhx : Option Span := none
  /-- `nw` or `nr` -/
  n : Nat := 0
  world : World
  result : Option Result := none

namespace State

/-- `mh->msg_iov` and `mh->msg_iovlen` -/
def passed (s : State) : Span := s.mhx.getD s.span

/-- The vectors that the next system call is given. -/
def vecs (s : State) : List IoVec := s.vectors.read s.passed

/-- `co_return n` -/
def finish (s : State) : State := { s with result := some (.value s.n) }

/-- The condition of the loop. -/
def loopTest (s : State) : State := if s.passed.iovcnt = 0 then s.finish else s

/-- A system call has moved `bytes`. -/
def count (sends : Bool) (s : State) (bytes : List UInt8) : State :=
  { s with
    n := (s.n + bytes.length) % 2 ^ 64
    world := s.world.carry sends s.vecs bytes }

/-- An error ends the call; it is reported when nothing has been moved. -/
def fail (s : State) (errno : Nat) : State :=
  if 0 < s.n then s.finish else { s with result := some (.error errno) }

end State

/-- `writev`, from one system call to the next. -/
def writev (s : State) : Answer → Option State
  | .moved bytes =>
      if bytes = [] then some s.finish
      else
        (updateIovec s.vectors s.span bytes.length).map fun (vectors, span) =>
          { s.count true bytes with vectors, span }.loopTest
  | .again => some s.loopTest
  | .failed errno => some (s.fail errno)

/-- `sendmsg` and `recvmsg`. -/
def message (sends waitAll : Bool) (s : State) : Answer → Option State
  | .moved bytes =>
      let s' := s.count sends bytes
      if bytes = [] ∨ waitAll = false then some s'.finish
      else
        (msghdrDone s.vectors s.passed bytes.length).bind fun done =>
          if done then some s'.finish
          else
            (updateIovec s.vectors s.passed bytes.length).map fun (vectors, span) =>
              { s' with vectors, mhx := some span }.loopTest
  | .again => some s.loopTest
  | .failed errno => some (s.fail errno)

def sendmsg : Bool → State → Answer → Option State := message true

def recvmsg : Bool → State → Answer → Option State := message false

def step (fn : Fn) (s : State) (a : Answer) : Option State :=
  if s.result = none ∧ Legal fn.sends s.world s.vecs a then
    match fn with
    | .writev => writev s a
    | .sendmsg waitAll => sendmsg waitAll s a
    | .recvmsg waitAll => recvmsg waitAll s a
  else none

/-- The call is made on the vectors `es`. -/
def start (es : List IoVec) (mem : Nat → UInt8) : State where
  vectors := { caller := es }
  span := ⟨⟨.caller, 0⟩, es.length⟩
  world := { mem }

/-- The runs of a function on any vectors. -/
def machine (fn : Fn) : Machine State Answer where
  init s := ∃ es mem, s = start es mem
  step := step fn

/-! ## The transfer -/

/-- A transfer of the cells of some vectors, those that are left at hand. -/
structure Transfer where
  rest : List IoVec
  n : Nat := 0
  world : World
  result : Option Result := none

namespace Transfer

def finish (t : Transfer) : Transfer := { t with result := some (.value t.n) }

/-- `bytes` have been moved. -/
def count (sends : Bool) (t : Transfer) (bytes : List UInt8) : Transfer :=
  { t with
    rest := advance t.rest bytes.length
    n := t.n + bytes.length
    world := t.world.carry sends t.rest bytes }

def step (fn : Fn) (t : Transfer) (a : Answer) : Option Transfer :=
  if t.result = none ∧ Legal fn.sends t.world t.rest a then
    match a with
    | .moved bytes =>
        let t' := t.count fn.sends bytes
        some (if bytes = [] ∨ fn.waits = false ∨ t'.rest = [] then t'.finish else t')
    | .again => some (if t.rest = [] then t.finish else t)
    | .failed errno =>
        some (if 0 < t.n then t.finish else { t with result := some (.error errno) })
  else none

/-- The transfers that a function makes. -/
def machine (fn : Fn) : Machine Transfer Answer where
  init t := ∃ es mem, t = { rest := es, world := { mem } }
  step := step fn

end Transfer

/-! ## The calls make the transfer -/

theorem carry_nil (sends : Bool) (w : World) (es : List IoVec) : w.carry sends es [] = w := by
  cases sends <;> simp [World.carry]

theorem read_eq_nil_iff {v : Vectors} {s : Span} (h : Placed v s) :
    v.read s = [] ↔ s.iovcnt = 0 := by
  have hinside := h.inside
  rw [← List.length_eq_zero_iff, Vectors.read, List.length_take, List.length_drop]
  omega

/-- A call on `es` that is where the transfer is. -/
structure Refines (fn : Fn) (es : List IoVec) (s : State) (t : Transfer) : Prop where
  caller : s.vectors.caller = es
  mhx : fn = .writev → s.mhx = none
  n : s.n = t.n
  world : s.world = t.world
  result : s.result = t.result
  rest : s.result = none → Placed s.vectors s.passed ∧ s.vecs = t.rest
  bound : t.result = none → t.n = 0 ∨ t.n + extentSize t.rest < 2 ^ 64

theorem start_refines (fn : Fn) (es : List IoVec) (mem : Nat → UInt8) :
    Refines fn es (start es mem) { rest := es, world := { mem } } where
  caller := rfl
  mhx _ := rfl
  n := rfl
  world := rfl
  result := rfl
  rest _ := by
    refine ⟨⟨?_, iff_of_false (fun h => h rfl) nofun⟩, ?_⟩
    · exact Nat.le_of_eq (Nat.zero_add es.length)
    · exact (List.take_length (l := es))
  bound _ := .inl rfl

theorem finish_refines {fn : Fn} {es : List IoVec} {s : State} {t : Transfer}
    (hcaller : s.vectors.caller = es) (hmhx : fn = .writev → s.mhx = none) (hn : s.n = t.n)
    (hworld : s.world = t.world) : Refines fn es s.finish t.finish where
  caller := hcaller
  mhx := hmhx
  n := hn
  world := hworld
  result := congrArg (fun n => some (Result.value n)) hn
  rest := nofun
  bound := nofun

theorem Refines.finish {fn : Fn} {es : List IoVec} {s : State} {t : Transfer}
    (h : Refines fn es s t) : Refines fn es s.finish t.finish :=
  finish_refines h.caller h.mhx h.n h.world

/-- The loop ends when no vector is left. -/
theorem Refines.loopTest {fn : Fn} {es : List IoVec} {s : State} {t : Transfer}
    (h : Refines fn es s t) (hs : s.result = none) :
    Refines fn es s.loopTest (if t.rest = [] then t.finish else t) := by
  rcases h.rest hs with ⟨hplaced, hvecs⟩
  have hiff : t.rest = [] ↔ s.passed.iovcnt = 0 := by
    rw [← hvecs]
    exact read_eq_nil_iff hplaced
  unfold State.loopTest
  by_cases hnil : t.rest = []
  · rw [if_pos hnil, if_pos (hiff.1 hnil)]
    exact h.finish
  · rw [if_neg hnil, if_neg fun hz => hnil (hiff.2 hz)]
    exact h

theorem Refines.fail {fn : Fn} {es : List IoVec} {s : State} {t : Transfer}
    (h : Refines fn es s t) (errno : Nat) :
    Refines fn es (s.fail errno)
      (if 0 < t.n then t.finish else { t with result := some (.error errno) }) := by
  have hn := h.n
  unfold State.fail
  by_cases hpos : 0 < t.n
  · rw [if_pos hpos, if_pos (by omega)]
    exact h.finish
  · rw [if_neg hpos, if_neg (by omega)]
    exact ⟨h.caller, h.mhx, h.n, h.world, rfl, nofun, nofun⟩

/-- What a system call has moved is counted alike, and the count does not overflow. -/
theorem count_refines {fn : Fn} {es : List IoVec} {s : State} {t : Transfer}
    {bytes : List UInt8} (h : Refines fn es s t) (hs : s.result = none)
    (hlegal : Legal fn.sends t.world t.rest (.moved bytes)) :
    (s.count fn.sends bytes).n = (t.count fn.sends bytes).n ∧
      (s.count fn.sends bytes).world = (t.count fn.sends bytes).world ∧
      (t.count fn.sends bytes).n + extentSize (t.count fn.sends bytes).rest < 2 ^ 64 := by
  rcases hlegal with ⟨hle, hsize, _⟩
  have hbound : t.n + extentSize t.rest < 2 ^ 64 := by
    rcases h.bound (h.result.symm.trans hs) with hz | hlt
    · omega
    · exact hlt
  refine ⟨?_, ?_, ?_⟩
  · show (s.n + bytes.length) % 2 ^ 64 = t.n + bytes.length
    rw [h.n]
    exact Nat.mod_eq_of_lt (by omega)
  · show s.world.carry fn.sends s.vecs bytes = t.world.carry fn.sends t.rest bytes
    rw [h.world, (h.rest hs).2]
  · show t.n + bytes.length + extentSize (advance t.rest bytes.length) < 2 ^ 64
    rw [extentSize_advance]
    omega

/-- A call that goes on with the vectors `update_iovec` has left. -/
theorem updated_refines {fn : Fn} {es : List IoVec} {s s' : State} {t : Transfer}
    {bytes : List UInt8} (h : Refines fn es s t) (hs : s.result = none)
    (hlegal : Legal fn.sends t.world t.rest (.moved bytes)) (hplaced : Placed s'.vectors s'.passed)
    (hvecs : s'.vecs = advance s.vecs bytes.length) (hcaller : s'.vectors.caller = es)
    (hmhx : fn = .writev → s'.mhx = none) (hn : s'.n = (s.count fn.sends bytes).n)
    (hworld : s'.world = (s.count fn.sends bytes).world) (hresult : s'.result = none) :
    Refines fn es s' (t.count fn.sends bytes) := by
  rcases count_refines h hs hlegal with ⟨hn', hworld', hbound⟩
  exact {
    caller := hcaller
    mhx := hmhx
    n := hn.trans hn'
    world := hworld.trans hworld'
    result := hresult.trans (hs.symm.trans h.result)
    rest := fun _ => ⟨hplaced, by rw [hvecs, (h.rest hs).2]; rfl⟩
    bound := fun _ => .inr hbound }

theorem writev_refines {es : List IoVec} {s : State} {t : Transfer} {bytes : List UInt8}
    (h : Refines .writev es s t) (hs : s.result = none)
    (hlegal : Legal true t.world t.rest (.moved bytes)) :
    ∃ s', writev s (.moved bytes) = some s' ∧
      Refines .writev es s' (if bytes = [] ∨ (t.count true bytes).rest = [] then
        (t.count true bytes).finish else t.count true bytes) := by
  rcases h.rest hs with ⟨hplaced, hvecs⟩
  have hpassed : s.passed = s.span := by rw [State.passed, h.mhx rfl, Option.getD_none]
  unfold writev
  by_cases hnil : bytes = []
  · subst hnil
    refine ⟨s.finish, rfl, ?_⟩
    rw [if_pos (.inl rfl)]
    have hworld : (t.count true []).world = t.world := carry_nil true t.world t.rest
    exact finish_refines h.caller h.mhx h.n (h.world.trans hworld.symm)
  · have hle : bytes.length ≤ extentSize (s.vectors.read s.passed) := by
      have := hlegal.1
      rwa [← hvecs] at this
    rcases updateIovec_spec hplaced hle with ⟨v, sp, hupdate, hplaced', hread, hcaller⟩
    rw [hpassed] at hupdate
    simp only [hnil, if_false, hupdate, Option.map_some, false_or]
    refine ⟨_, rfl, Refines.loopTest ?_ hs⟩
    have hpassed' : ({ s.count true bytes with vectors := v, span := sp } : State).passed = sp := by
      show s.mhx.getD sp = sp
      rw [h.mhx rfl, Option.getD_none]
    refine updated_refines h hs hlegal ?_ ?_ (hcaller.trans h.caller)
      (fun _ => h.mhx rfl) rfl rfl hs
    · rw [hpassed']
      exact hplaced'
    · rw [State.vecs, hpassed']
      exact hread

theorem message_refines {fn : Fn} {es : List IoVec} {s : State} {t : Transfer}
    {bytes : List UInt8} (hfn : fn ≠ .writev) (h : Refines fn es s t) (hs : s.result = none)
    (hlegal : Legal fn.sends t.world t.rest (.moved bytes)) :
    ∃ s', message fn.sends fn.waits s (.moved bytes) = some s' ∧
      Refines fn es s' (if bytes = [] ∨ fn.waits = false ∨ (t.count fn.sends bytes).rest = [] then
        (t.count fn.sends bytes).finish else t.count fn.sends bytes) := by
  rcases h.rest hs with ⟨hplaced, hvecs⟩
  rcases count_refines h hs hlegal with ⟨hn, hworld, _⟩
  have hfinish : Refines fn es (s.count fn.sends bytes).finish (t.count fn.sends bytes).finish :=
    finish_refines h.caller h.mhx hn hworld
  unfold message
  by_cases hbreak : bytes = [] ∨ fn.waits = false
  · refine ⟨_, if_pos hbreak, ?_⟩
    rw [if_pos (hbreak.imp id .inl)]
    exact hfinish
  · have hdone : msghdrDone s.vectors s.passed bytes.length =
        some (decide ((t.count fn.sends bytes).rest = [])) := by
      rw [msghdrDone_spec hplaced]
      show _ = some (decide (advance t.rest bytes.length = []))
      simp only [advance_eq_nil_iff, ← hvecs]
      rfl
    have hcond : (bytes = [] ∨ fn.waits = false ∨ (t.count fn.sends bytes).rest = []) ↔
        (t.count fn.sends bytes).rest = [] := by
      rw [← or_assoc, or_iff_right hbreak]
    simp only [hbreak, if_false, hdone, Option.bind_some, decide_eq_true_eq, hcond]
    by_cases hrest : (t.count fn.sends bytes).rest = []
    · exact ⟨_, if_pos hrest, by rw [if_pos hrest]; exact hfinish⟩
    · have hle : bytes.length ≤ extentSize (s.vectors.read s.passed) := by
        have := hlegal.1
        rwa [← hvecs] at this
      rcases updateIovec_spec hplaced hle with ⟨v, sp, hupdate, hplaced', hread, hcaller⟩
      simp only [hrest, if_false, hupdate, Option.map_some]
      refine ⟨_, rfl, ?_⟩
      have hgoes : Refines fn es { s.count fn.sends bytes with vectors := v, mhx := some sp }
          (t.count fn.sends bytes) :=
        updated_refines h hs hlegal hplaced' hread (hcaller.trans h.caller)
          (fun hw => absurd hw hfn) rfl rfl hs
      have hloop := hgoes.loopTest hs
      rwa [if_neg hrest] at hloop

/-- Step by step, a call is the transfer. -/
theorem step_refines {fn : Fn} {es : List IoVec} (s : State) (t : Transfer) (a : Answer)
    (h : Refines fn es s t) : Option.Rel (Refines fn es) (step fn s a) (Transfer.step fn t a) := by
  unfold step Transfer.step
  by_cases hs : s.result = none
  · have hvecs := (h.rest hs).2
    have ht : t.result = none := h.result.symm.trans hs
    simp only [hs, ht, true_and, h.world, hvecs]
    by_cases hlegal : Legal fn.sends t.world t.rest a
    · simp only [hlegal, if_true]
      cases a with
      | again => cases fn <;> exact .some (h.loopTest hs)
      | failed errno => cases fn <;> exact .some (h.fail errno)
      | moved bytes =>
        cases fn with
        | writev =>
          rcases writev_refines h hs hlegal with ⟨s', hstep, href⟩
          simp only [hstep, Fn.waits, Bool.true_eq_false, false_or]
          exact .some href
        | sendmsg waitAll =>
          have hfn : Fn.sendmsg waitAll ≠ .writev := nofun
          rcases message_refines hfn h hs hlegal with ⟨s', hstep, href⟩
          have hcall : sendmsg waitAll s (.moved bytes) = some s' := hstep
          simp only [hcall]
          exact .some href
        | recvmsg waitAll =>
          have hfn : Fn.recvmsg waitAll ≠ .writev := nofun
          rcases message_refines hfn h hs hlegal with ⟨s', hstep, href⟩
          have hcall : recvmsg waitAll s (.moved bytes) = some s' := hstep
          simp only [hcall]
          exact .some href
    · simp only [hlegal, if_false]
      exact .none
  · have ht : t.result ≠ none := fun ht => hs (h.result.trans ht)
    simp only [hs, ht, false_and, if_false]
    exact .none

/-! ## What a transfer has moved -/

/-- The cells of `es` have been worked off from the front, and the bytes are theirs. -/
structure Carried (sends : Bool) (es : List IoVec) (mem : Nat → UInt8) (t : Transfer) : Prop where
  moved : t.world.moved ++ cells t.rest = cells es
  n : t.n = t.world.moved.length
  length : t.world.wire.length = t.world.moved.length
  memory : t.world.mem = if sends then mem else store mem t.world.moved t.world.wire
  wire : sends = true → t.world.wire = t.world.moved.map mem

theorem Carried.count {sends : Bool} {es : List IoVec} {mem : Nat → UInt8} {t : Transfer}
    {bytes : List UInt8} (h : Carried sends es mem t)
    (hlegal : Legal sends t.world t.rest (.moved bytes)) :
    Carried sends es mem (t.count sends bytes) := by
  rcases hlegal with ⟨hle, _, hbytes⟩
  have hlen : ((cells t.rest).take bytes.length).length = bytes.length := by
    rw [List.length_take, length_cells]
    omega
  have hmem := h.memory
  exact {
    moved := by
      show (t.world.moved ++ _) ++ cells (advance t.rest bytes.length) = _
      rw [cells_advance, List.append_assoc, List.take_append_drop, h.moved]
    n := by
      show t.n + bytes.length = (t.world.moved ++ _).length
      rw [List.length_append, hlen, h.n]
    length := by
      show (t.world.wire ++ bytes).length = (t.world.moved ++ _).length
      rw [List.length_append, List.length_append, hlen, h.length]
    memory := by
      cases sends with
      | true => exact hmem
      | false =>
        show store t.world.mem _ bytes = store mem (t.world.moved ++ _) (t.world.wire ++ bytes)
        rw [store_append h.length.symm, hmem]
        rfl
    wire := fun hsends => by
      subst hsends
      show t.world.wire ++ bytes = (t.world.moved ++ _).map mem
      have hmem' : t.world.mem = mem := hmem
      rw [List.map_append, ← h.wire rfl, ← hmem', ← hbytes rfl] }

/-- A transfer that is going on, or has ended. -/
structure Transfer.Sound (sends : Bool) (es : List IoVec) (mem : Nat → UInt8) (t : Transfer) :
    Prop where
  carried : Carried sends es mem t
  value : ∀ m, t.result = some (.value m) → m = t.n
  error : ∀ e, t.result = some (.error e) → t.n = 0
  head : t.result = none → t.world.moved ≠ [] → ∃ e rest, t.rest = e :: rest ∧ 0 < e.len

theorem Carried.finish {sends : Bool} {es : List IoVec} {mem : Nat → UInt8} {t : Transfer}
    (h : Carried sends es mem t) : t.finish.Sound sends es mem where
  carried := ⟨h.moved, h.n, h.length, h.memory, h.wire⟩
  value m hm := by
    obtain rfl : t.n = m := by simpa [Transfer.finish] using hm
    rfl
  error e he := by simp [Transfer.finish] at he
  head := nofun

theorem Transfer.Sound.step {fn : Fn} {es : List IoVec} {mem : Nat → UInt8} {t t' : Transfer}
    {a : Answer} (h : t.Sound fn.sends es mem) (hstep : Transfer.step fn t a = some t') :
    t'.Sound fn.sends es mem := by
  unfold Transfer.step at hstep
  split at hstep
  · rename_i hcond
    cases a with
    | moved bytes =>
      have hcount := h.carried.count hcond.2
      obtain rfl := Option.some.inj hstep
      by_cases hend : bytes = [] ∨ fn.waits = false ∨ (t.count fn.sends bytes).rest = []
      · rw [if_pos hend]
        exact hcount.finish
      · rw [if_neg hend]
        refine ⟨hcount, ?_, ?_, fun _ _ => ?_⟩
        · intro m hm
          cases hcond.1.symm.trans hm
        · intro e he
          cases hcond.1.symm.trans he
        · cases hrest : (t.count fn.sends bytes).rest with
          | nil => exact absurd (.inr (.inr hrest)) hend
          | cons e rest => exact ⟨e, rest, rfl, advance_head hrest⟩
    | again =>
      obtain rfl := Option.some.inj hstep
      by_cases hnil : t.rest = []
      · rw [if_pos hnil]
        exact h.carried.finish
      · rw [if_neg hnil]
        exact h
    | failed errno =>
      obtain rfl := Option.some.inj hstep
      by_cases hpos : 0 < t.n
      · rw [if_pos hpos]
        exact h.carried.finish
      · rw [if_neg hpos]
        refine ⟨⟨h.carried.moved, h.carried.n, h.carried.length, h.carried.memory, h.carried.wire⟩,
          nofun, fun _ _ => ?_, nofun⟩
        show t.n = 0
        omega
  · cases hstep

/-- A call that waits for all its bytes ends early only at the end of the file or at an
error. -/
theorem Transfer.exec_complete {fn : Fn} (hw : fn.waits = true) {t t' : Transfer}
    {as : List Answer} (has : ∀ a ∈ as, a.stops = false)
    (ht : t.result = none ∨ t.rest = []) (hr : (Transfer.machine fn).exec t as = some t') :
    t'.result = none ∨ t'.rest = [] := by
  have hwithin : (Transfer.machine fn).Within (fun _ a => a.stops = false) t as :=
    Machine.within_of_forall t fun a ha _ => has a ha
  refine hwithin.preserves (P := fun t => t.result = none ∨ t.rest = []) ?_ ht hr
  intro u a u' _ ha hstep
  change Transfer.step fn u a = some u' at hstep
  unfold Transfer.step at hstep
  split at hstep
  · rename_i hcond
    cases a with
    | moved bytes =>
      obtain rfl := Option.some.inj hstep
      have hne : bytes ≠ [] := by
        rintro rfl
        cases ha
      simp only [hne, hw, Bool.true_eq_false, false_or]
      by_cases hnil : (u.count fn.sends bytes).rest = []
      · rw [if_pos hnil]
        exact .inr hnil
      · rw [if_neg hnil]
        exact .inl hcond.1
    | again =>
      obtain rfl := Option.some.inj hstep
      by_cases hnil : u.rest = []
      · rw [if_pos hnil]
        exact .inr hnil
      · rw [if_neg hnil]
        exact .inl hcond.1
    | failed errno => cases ha
  · cases hstep

/-- A run of transfers, from the vectors `es`. -/
theorem Transfer.exec_sound {fn : Fn} {es : List IoVec} {mem : Nat → UInt8} {t : Transfer}
    {as : List Answer}
    (hr : (Transfer.machine fn).exec { rest := es, world := { mem } } as = some t) :
    t.Sound fn.sends es mem := by
  refine Machine.exec_preserves (M := Transfer.machine fn) (P := Transfer.Sound fn.sends es mem)
    (fun _ _ _ h hstep => h.step hstep) ?_ hr
  refine ⟨⟨rfl, rfl, rfl, ?_, fun _ => rfl⟩, nofun, nofun, fun _ hne => absurd rfl hne⟩
  cases fn.sends <;> rfl

/-! ## The theorem -/

/-- The call has moved the first bytes of the vectors, each once and in order, and
nothing else: the caller's array and the cells not received are as they were. -/
structure Exact (fn : Fn) (es : List IoVec) (mem : Nat → UInt8) (s : State) : Prop where
  caller : s.vectors.caller = es
  moved : s.world.moved = (cells es).take s.world.moved.length
  sent : fn.sends = true → s.world.mem = mem ∧ s.world.wire = s.world.moved.map mem
  received : fn.sends = false → s.world.mem = store mem s.world.moved s.world.wire ∧
    s.world.wire.length = s.world.moved.length
  untouched : ∀ c ∉ s.world.moved, s.world.mem c = mem c
  value : ∀ n, s.result = some (.value n) → n = s.world.moved.length
  error : ∀ e, s.result = some (.error e) → s.world.moved = []
  /-- What is passed back to the kernel begins with a byte. -/
  passed : s.result = none → s.world.moved ≠ [] → ∃ e rest, s.vecs = e :: rest ∧ 0 < e.len
  /-- The call stays within its arrays. -/
  defined : s.result = none → ∀ a, Legal fn.sends s.world s.vecs a → (step fn s a).isSome = true

theorem Transfer.step_isSome {fn : Fn} {t : Transfer} {a : Answer} (ht : t.result = none)
    (ha : Legal fn.sends t.world t.rest a) : (Transfer.step fn t a).isSome = true := by
  unfold Transfer.step
  rw [if_pos ⟨ht, ha⟩]
  cases a <;> rfl

theorem Refines.exact {fn : Fn} {es : List IoVec} {mem : Nat → UInt8} {s : State} {t : Transfer}
    (h : Refines fn es s t) (ht : t.Sound fn.sends es mem) : Exact fn es mem s := by
  have hcarried := ht.carried
  have hmemory := hcarried.memory
  have hmoved : t.world.moved = (cells es).take t.world.moved.length := by
    rw [← hcarried.moved, List.take_left]
  rw [← h.world] at hmoved hmemory
  exact {
    caller := h.caller
    moved := hmoved
    sent := fun hsends => by
      rw [hsends] at hmemory
      refine ⟨hmemory, ?_⟩
      rw [h.world]
      exact hcarried.wire hsends
    received := fun hsends => by
      rw [hsends] at hmemory
      refine ⟨hmemory, ?_⟩
      rw [h.world]
      exact hcarried.length
    untouched := fun c hc => by
      rw [hmemory]
      split
      · rfl
      · exact store_of_notMem hc
    value := fun n hn => by
      rw [h.world, ← hcarried.n]
      exact ht.value n (h.result ▸ hn)
    error := fun e he => by
      rw [h.world, ← List.length_eq_zero_iff, ← hcarried.n]
      exact ht.error e (h.result ▸ he)
    passed := fun hs hne => by
      rw [(h.rest hs).2]
      exact ht.head (h.result ▸ hs) (h.world ▸ hne)
    defined := fun hs a ha => by
      rw [(h.rest hs).2, h.world] at ha
      have hsome := Transfer.step_isSome (h.result ▸ hs) ha
      have hrel := step_refines s t a h
      cases hstep : step fn s a with
      | some s' => rfl
      | none =>
        rw [hstep] at hrel
        cases hrel' : Transfer.step fn t a with
        | none => simp [hrel'] at hsome
        | some t' =>
          rw [hrel'] at hrel
          cases hrel }

theorem calls_exact {fn : Fn} {es : List IoVec} {mem : Nat → UInt8} {as : List Answer} {s : State}
    (hr : (machine fn).exec (start es mem) as = some s) :
    Exact fn es mem s ∧ (fn.waits = true → ∀ n, s.result = some (.value n) →
      n = extentSize es ∨ ∃ a ∈ as, a.stops = true) := by
  have hrel := exec_rel (M := machine fn) (N := Transfer.machine fn)
    (R := Refines fn es) step_refines (start_refines fn es mem) as
  rw [hr] at hrel
  cases ht : (Transfer.machine fn).exec { rest := es, world := { mem } } as with
  | none =>
    rw [ht] at hrel
    cases hrel
  | some t =>
    rw [ht] at hrel
    cases hrel with
    | some hrel =>
      have hsound := Transfer.exec_sound ht
      refine ⟨hrel.exact hsound, fun hw n hn => ?_⟩
      by_cases hstop : ∃ a ∈ as, a.stops = true
      · exact .inr hstop
      · left
        have has : ∀ a ∈ as, a.stops = false := by
          intro a ha
          rw [← Bool.not_eq_true]
          exact fun hs => hstop ⟨a, ha, hs⟩
        have hrest : t.rest = [] := by
          rcases Transfer.exec_complete hw has (.inl rfl) ht with hnone | hnil
          · cases (hrel.result.symm.trans hn).symm.trans hnone
          · exact hnil
        have hall := hsound.carried.moved
        rw [hrest, cells_nil, List.append_nil] at hall
        rw [(hrel.exact hsound).value n hn, hrel.world, hall, length_cells]

/-- Three vectors, the second empty; the first answer ends in the third, the next one
is interrupted. -/
def gathered : List IoVec := [⟨100, 2⟩, ⟨0, 0⟩, ⟨200, 3⟩]

def gatheredAnswers : List Answer := [.moved [0, 0, 0], .again, .moved [0, 0]]

theorem calls_exact_gathered : ∃ s,
    (machine (.sendmsg true)).exec (start gathered fun _ => 0) gatheredAnswers = some s ∧
      Exact (.sendmsg true) gathered (fun _ => 0) s := by
  have hsome : ((machine (.sendmsg true)).exec (start gathered fun _ => 0)
      gatheredAnswers).isSome = true := by decide +kernel
  rcases Option.isSome_iff_exists.1 hsome with ⟨s, hs⟩
  exact ⟨s, hs, (calls_exact hs).1⟩

end VectoredIo
end Cotamer
end Psets
