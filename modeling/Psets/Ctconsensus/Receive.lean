/-
What `server::receive` does with the messages it takes.

A session is one server and the calls of `receive` that its coroutine makes, one after the
other.  A call rotates the stash once: it pops from the front, and pushes what it does not
want yet to the back, with `stashSize` to bound the pass; then it reads the network.  The
session keeps, beside the server, the history of its calls: which messages each has looked
at, and what has become of them.
-/
import Mathlib.Data.List.Perm.Basic
import Psets.Ctconsensus.Server

namespace Psets
namespace Ctconsensus

/-! ## One iteration -/

namespace Server

/-- The message an iteration looks at. -/
def examined (s : Server) (stashSize : Nat) : Option Message :=
  if s.decided then none else (s.next stashSize).map fun next => next.1

/-- What an iteration does with the message it looks at. -/
def handle (s : Server) (mt : MessageType) (stashSize : Nat) (m : Message) :
    Server × (Message ⊕ Nat) :=
  if m.type = .decide then
    let s := { s with color := m.color, decided := true }
    (s, .inl (s.fakeMessage mt))
  else if m.type ≠ mt ∨ m.round ≠ s.round then
    if s.round ≤ m.round then ({ s with stash := s.stash ++ [m] }, .inr stashSize)
    else (s, .inr stashSize)
  else (s, .inl m)

theorem receive_of_decided {s : Server} (h : s.decided = true) (mt : MessageType) (k : Nat) :
    s.receive mt k = some (s, .inl (s.fakeMessage mt)) := by
  rw [receive, if_pos h]

theorem receive_of_undecided {s : Server} (h : s.decided = false) (mt : MessageType) (k : Nat) :
    s.receive mt k = (s.next k).map fun next => next.2.2.handle mt next.2.1 next.1 := by
  rw [receive, if_neg (by rw [h]; exact Bool.false_ne_true)]
  cases s.next k with
  | none => rfl
  | some next =>
    obtain ⟨m, k', s'⟩ := next
    simp only [Option.map_some, handle]
    split
    · rfl
    · split
      · split
        · rfl
        · rfl
      · rfl

/-- The stash comes first, while the pass lasts. -/
theorem next_cases {s s' : Server} {k k' : Nat} {m : Message}
    (h : s.next k = some (m, k', s')) :
    (0 < k ∧ k' = k - 1 ∧ ∃ stash, s.stash = m :: stash ∧ s' = { s with stash := stash }) ∨
      (k = 0 ∧ k' = 0 ∧ ∃ q, s.messageq = m :: q ∧ s' = { s with messageq := q }) := by
  unfold next at h
  by_cases hk : 0 < k
  · left
    rw [if_pos hk] at h
    cases hstash : s.stash with
    | nil => simp [hstash] at h
    | cons m₁ stash =>
      simp only [hstash, Option.some.injEq, Prod.mk.injEq] at h
      obtain ⟨rfl, rfl, rfl⟩ := h
      exact ⟨hk, rfl, stash, rfl, rfl⟩
  · right
    rw [if_neg hk] at h
    cases hq : s.messageq with
    | nil => simp [hq] at h
    | cons m₁ q =>
      simp only [hq, Option.some.injEq, Prod.mk.injEq] at h
      obtain ⟨rfl, rfl, rfl⟩ := h
      exact ⟨by omega, rfl, q, rfl, rfl⟩

/-- The outcomes of `handle`. -/
inductive Handled (s : Server) (mt : MessageType) (k : Nat) (m : Message) :
    Server → Message ⊕ Nat → Prop where
  | decide {m' : Message} : m.type = .decide → m'.colorRound = s.colorRound →
      Handled s mt k m { s with color := m.color, decided := true } (.inl m')
  | keep : m.type ≠ .decide → m.type ≠ mt ∨ m.round ≠ s.round → s.round ≤ m.round →
      Handled s mt k m { s with stash := s.stash ++ [m] } (.inr k)
  | stale : m.type ≠ .decide → m.round < s.round → Handled s mt k m s (.inr k)
  | wanted : m.type ≠ .decide → m.type = mt → m.round = s.round → Handled s mt k m s (.inl m)

theorem handle_handled (s : Server) (mt : MessageType) (k : Nat) (m : Message) :
    Handled s mt k m (s.handle mt k m).1 (s.handle mt k m).2 := by
  rw [handle]
  by_cases hdec : m.type = .decide
  · rw [if_pos hdec]
    exact .decide hdec rfl
  · rw [if_neg hdec]
    by_cases hunwanted : m.type ≠ mt ∨ m.round ≠ s.round
    · rw [if_pos hunwanted]
      by_cases hround : s.round ≤ m.round
      · rw [if_pos hround]
        exact .keep hdec hunwanted hround
      · rw [if_neg hround]
        exact .stale hdec (Nat.not_le.1 hround)
    · rw [if_neg hunwanted]
      rw [not_or, not_not, not_not] at hunwanted
      exact .wanted hdec hunwanted.1 hunwanted.2

/-- An iteration either finds the server decided, or takes a message and handles it. -/
theorem receive_handled {s s' : Server} {mt : MessageType} {k : Nat} {r : Message ⊕ Nat}
    (h : s.receive mt k = some (s', r)) :
    (s.decided = true ∧ s' = s ∧ r = .inl (s.fakeMessage mt)) ∨
      (s.decided = false ∧ ∃ m k' s₁, s.next k = some (m, k', s₁) ∧
        Handled s₁ mt k' m s' r) := by
  cases hd : s.decided with
  | true =>
    rw [receive_of_decided hd, Option.some.injEq, Prod.mk.injEq] at h
    exact .inl ⟨rfl, h.1.symm, h.2.symm⟩
  | false =>
    rw [receive_of_undecided hd] at h
    obtain ⟨⟨m, k', s₁⟩, hnext, hhandle⟩ := Option.map_eq_some_iff.1 h
    have hhandled := handle_handled s₁ mt k' m
    rw [hhandle] at hhandled
    exact .inr ⟨rfl, m, k', s₁, hnext, hhandled⟩

end Server

/-! ## Calls and their history -/

/-- Messages that were taken and are no longer in the server's hands. -/
structure Ledger where
  returned : List Message := []
  stale : List Message := []
  decides : List Message := []
  deriving DecidableEq, Repr

namespace Ledger

def all (l : Ledger) : List Message := l.returned ++ l.stale ++ l.decides

/-- Record what became of `m`, which an iteration with the outcome `r` looked at. -/
def record (l : Ledger) (m : Message) (before after : Server) :
    Message ⊕ Nat → Ledger
  | .inl m' =>
    if after.decided then { l with decides := l.decides ++ [m] }
    else { l with returned := l.returned ++ [m'] }
  | .inr _ => if m.round < before.round then { l with stale := l.stale ++ [m] } else l

end Ledger

/-- One call of `receive`: its argument, the round and the stash it starts with, the
messages it has read from the network, and those it has looked at, in order. -/
structure Call where
  mt : MessageType
  round : Nat
  stash : List Message
  network : List Message := []
  examined : List Message := []
  ledger : Ledger := {}
  deriving DecidableEq, Repr

/-- An iteration looks at `m`. -/
def Call.examine (c : Call) (stashSize : Nat) (m : Message) : Call :=
  { c with
    network := if 0 < stashSize then c.network else c.network ++ [m]
    examined := c.examined ++ [m] }

/-- A server with its calls: `stashSize` of the call in progress, the last call, every
message the server was given, and what became of them in all calls. -/
structure Session where
  server : Server
  stashSize : Option Nat := none
  call : Option Call := none
  arrived : List Message
  ledger : Ledger := {}
  deriving DecidableEq, Repr

inductive Move where
  | arrive (m : Message)
  | call (mt : MessageType)
  | iterate
  | cancel
  | proceed (s : Server)
  deriving DecidableEq, Repr

/-- What the coroutine may change between two calls.  It leaves the stash and the port
alone, and once it has decided it keeps its color. -/
structure MayProceed (s s' : Server) : Prop where
  stash : s'.stash = s.stash
  messageq : s'.messageq = s.messageq
  round : s.round ≤ s'.round
  decided : s.decided = true → s'.decided = true ∧ s'.color = s.color

instance (s s' : Server) : Decidable (MayProceed s s') :=
  decidable_of_iff (s'.stash = s.stash ∧ s'.messageq = s.messageq ∧ s.round ≤ s'.round ∧
    (s.decided = true → s'.decided = true ∧ s'.color = s.color))
    ⟨fun h => ⟨h.1, h.2.1, h.2.2.1, h.2.2.2⟩, fun h => ⟨h.1, h.2, h.3, h.4⟩⟩

namespace Session

def start (s : Server) : Session := { server := s, arrived := s.mail }

/-- The session after an iteration of the call `c` with the outcome `r`. -/
def iterated (st : Session) (c : Call) (k : Nat) (s : Server) (r : Message ⊕ Nat) : Session :=
  let st' := { st with server := s, stashSize := r.getRight? }
  match st.server.examined k with
  | none => st'
  | some m =>
    { st' with
      call := some { c.examine k m with ledger := c.ledger.record m st.server s r }
      ledger := st.ledger.record m st.server s r }

def step (st : Session) : Move → Option Session
  | .arrive m =>
    some { st with
      server := { st.server with messageq := st.server.messageq ++ [m] }
      arrived := st.arrived ++ [m] }
  | .call mt =>
    if st.stashSize = none then
      some { st with
        stashSize := some st.server.stash.length
        call := some { mt := mt, round := st.server.round, stash := st.server.stash } }
    else none
  | .iterate =>
    st.stashSize.bind fun k => st.call.bind fun c =>
      (st.server.receive c.mt k).map fun next => st.iterated c k next.1 next.2
  | .cancel =>
    -- the failure detector, while the call waits for the network
    if st.stashSize = some 0 ∧ st.server.decided = false then
      some { st with stashSize := none }
    else none
  | .proceed s =>
    if st.stashSize = none ∧ MayProceed st.server s then some { st with server := s } else none

end Session

/-- The sessions of servers in any state. -/
def sessions : Transition.Machine Session Move where
  init st := ∃ s, st = Session.start s
  step := Session.step

/-! ## What a ledger says -/

section Ledgers

variable {l : Ledger} {s s' s₁ : Server} {mt : MessageType} {k : Nat} {m : Message}
  {r : Message ⊕ Nat}

/-- The message in hand goes to the ledger or back to the stash. -/
theorem Server.Handled.perm (h : s₁.Handled mt k m s' r) (hround : s₁.round = s.round)
    (hd : s₁.decided = false) (l : Ledger) :
    ((l.record m s s' r).all ++ s'.stash).Perm (m :: (l.all ++ s₁.stash)) := by
  refine List.perm_iff_count.2 fun x => ?_
  cases h with
  | decide hdec hfake =>
    simp only [Ledger.record, if_true, Ledger.all, List.count_append, List.count_cons,
      List.count_nil]
    omega
  | keep hdec hunwanted hle =>
    rw [hround] at hle
    simp only [Ledger.record, if_neg (Nat.not_lt.2 hle), Ledger.all, List.count_append,
      List.count_cons, List.count_nil]
    omega
  | stale hdec hlt =>
    rw [hround] at hlt
    simp only [Ledger.record, if_pos hlt, Ledger.all, List.count_append, List.count_cons,
      List.count_nil]
    omega
  | wanted hdec htype hr =>
    simp only [Ledger.record, hd, Bool.false_eq_true, if_false, Ledger.all, List.count_append,
      List.count_cons, List.count_nil]
    omega

theorem Server.Handled.messageq (h : s₁.Handled mt k m s' r) : s'.messageq = s₁.messageq := by
  cases h <;> rfl

theorem Server.Handled.round (h : s₁.Handled mt k m s' r) : s'.round = s₁.round := by
  cases h <;> rfl

/-- Nothing is in a ledger that the server could still use. -/
structure Ledger.Sound (l : Ledger) (round : Nat) (s : Server) : Prop where
  stale : ∀ m ∈ l.stale, m.type ≠ .decide ∧ m.round < round
  decides : ∀ m ∈ l.decides, m.type = .decide ∧ s.decided = true ∧ s.color = m.color
  atMostOne : l.decides.length ≤ 1

theorem Ledger.sound_empty (round : Nat) (s : Server) : Ledger.Sound {} round s :=
  ⟨fun _ h => absurd h List.not_mem_nil, fun _ h => absurd h List.not_mem_nil, Nat.zero_le 1⟩

theorem Ledger.Sound.mono {round round' : Nat} (h : l.Sound round s) (hround : round ≤ round')
    (hd : s.decided = true → s'.decided = true ∧ s'.color = s.color) : l.Sound round' s' := by
  refine ⟨fun m hm => ?_, fun m hm => ?_, h.atMostOne⟩
  · have hstale := h.stale m hm
    exact ⟨hstale.1, Nat.lt_of_lt_of_le hstale.2 hround⟩
  · obtain ⟨htype, hdecided, hcolor⟩ := h.decides m hm
    obtain ⟨hdecided', hcolor'⟩ := hd hdecided
    exact ⟨htype, hdecided', hcolor'.trans hcolor⟩

theorem Ledger.Sound.decides_nil {round : Nat} (h : l.Sound round s) (hd : s.decided = false) :
    l.decides = [] := by
  refine List.eq_nil_iff_forall_not_mem.2 fun m hm => ?_
  rw [(h.decides m hm).2.1] at hd
  exact Bool.noConfusion hd

theorem Ledger.Sound.record (h : l.Sound s.round s) (hd : s.decided = false)
    (hround : s₁.round = s.round) (hd₁ : s₁.decided = false) (hh : s₁.Handled mt k m s' r) :
    (l.record m s s' r).Sound s.round s' := by
  have hnil := h.decides_nil hd
  have hframe : ∀ m ∈ l.decides, m.type = .decide ∧ s'.decided = true ∧ s'.color = m.color := by
    rw [hnil]
    exact fun m hm => absurd hm List.not_mem_nil
  cases hh with
  | decide hdec hfake =>
    rw [Ledger.record, if_pos rfl]
    refine ⟨h.stale, fun x hx => ?_, by rw [hnil]; exact Nat.le_refl 1⟩
    rw [hnil, List.nil_append, List.mem_singleton] at hx
    rw [hx]
    exact ⟨hdec, rfl, rfl⟩
  | keep hdec hunwanted hle =>
    rw [hround] at hle
    rw [Ledger.record, if_neg (Nat.not_lt.2 hle)]
    exact ⟨h.stale, hframe, h.atMostOne⟩
  | stale hdec hlt =>
    rw [hround] at hlt
    rw [Ledger.record, if_pos hlt]
    refine ⟨fun x hx => ?_, hframe, h.atMostOne⟩
    rcases List.mem_append.1 hx with hx | hx
    · exact h.stale x hx
    · rw [List.mem_singleton.1 hx]
      exact ⟨hdec, hlt⟩
  | wanted hdec htype hr =>
    rw [Ledger.record, if_neg (by rw [hd₁]; exact Bool.false_ne_true)]
    exact ⟨h.stale, hframe, h.atMostOne⟩

/-- A call that has nothing to show yet returns what it wants, once. -/
theorem Server.Handled.once (hh : s₁.Handled mt k m s' r) (hround : s₁.round = s.round)
    (hd₁ : s₁.decided = false) (hreturned : l.returned = []) (hdecides : l.decides = []) :
    (∀ x ∈ (l.record m s s' r).returned, x.type = mt ∧ x.round = s.round) ∧
      (l.record m s s' r).returned.length + (l.record m s s' r).decides.length ≤ 1 := by
  cases hh with
  | decide hdec hfake =>
    rw [Ledger.record, if_pos rfl]
    simp [hreturned, hdecides]
  | keep hdec hunwanted hle =>
    rw [hround] at hle
    rw [Ledger.record, if_neg (Nat.not_lt.2 hle)]
    simp [hreturned, hdecides]
  | stale hdec hlt =>
    rw [hround] at hlt
    rw [Ledger.record, if_pos hlt]
    simp [hreturned, hdecides]
  | wanted hdec htype hr =>
    rw [Ledger.record, if_neg (by rw [hd₁]; exact Bool.false_ne_true)]
    simp [hreturned, hdecides, htype, hr, hround]

theorem Ledger.record_inr (l : Ledger) (m : Message) (s s' : Server) (k : Nat) :
    (l.record m s s' (.inr k)).returned = l.returned := by
  rw [Ledger.record]
  split
  · rfl
  · rfl

end Ledgers

/-! ## The pass over the stash -/

/-- The call has no use for `m` now, and somebody may have later. -/
def Call.Unwanted (c : Call) (m : Message) : Prop :=
  m.type ≠ .decide ∧ c.round ≤ m.round ∧ (m.type ≠ c.mt ∨ m.round ≠ c.round)

/-- The call has looked at the first `n` messages of its stash, and what it has pushed back
is behind the others. -/
structure Pass (c : Call) (stash : List Message) (n : Nat) : Prop where
  le : n ≤ c.stash.length
  examined : c.examined = c.stash.take n ++ c.network
  network : c.network ≠ [] → n = c.stash.length
  stash : ∃ restashed, stash = c.stash.drop n ++ restashed ∧ ∀ m ∈ restashed, c.Unwanted m

section Passes

variable {c : Call} {s s₁ s' : Server} {n k k' : Nat} {m : Message} {r : Message ⊕ Nat}

/-- Taking a message from the stash is one step of the pass; the network is read after the
pass is over. -/
theorem Pass.next (h : Pass c s.stash n) (hk : k = c.stash.length - n)
    (hnext : s.next k = some (m, k', s₁)) :
    ∃ n', Pass (c.examine k m) s₁.stash n' ∧ k' = c.stash.length - n' := by
  obtain ⟨restashed, hstash, hunwanted⟩ := h.stash
  rcases Server.next_cases hnext with ⟨hpos, rfl, stash, hs, rfl⟩ | ⟨hzero, rfl, q, hq, rfl⟩
  · have hlt : n < c.stash.length := by omega
    have hnetwork : c.network = [] := by
      by_contra hne
      have := h.network hne
      omega
    rw [hs, List.drop_eq_getElem_cons hlt, List.cons_append, List.cons.injEq] at hstash
    obtain ⟨hm, hrest⟩ := hstash
    refine ⟨n + 1, ⟨hlt, ?_, ?_, restashed, hrest, hunwanted⟩, by omega⟩
    · show c.examined ++ [m] = c.stash.take (n + 1) ++ if 0 < k then c.network else _
      rw [if_pos hpos, h.examined, hnetwork, List.append_nil, List.append_nil, hm,
        List.take_append_getElem hlt]
    · intro hne
      refine absurd ?_ hne
      show (if 0 < k then c.network else _) = []
      rw [if_pos hpos, hnetwork]
  · have hle := h.le
    have hn : n = c.stash.length := by omega
    refine ⟨n, ⟨hle, ?_, fun _ => hn, restashed, hstash, hunwanted⟩, by omega⟩
    show c.examined ++ [m] = c.stash.take n ++ if 0 < k then c.network else _
    rw [if_neg (by omega), h.examined, List.append_assoc]

theorem Pass.handle (h : Pass c s₁.stash n) (hround : c.round = s₁.round)
    (hh : s₁.Handled c.mt k m s' r) : Pass c s'.stash n := by
  cases hh with
  | keep hdec hunwanted hle =>
    obtain ⟨restashed, hstash, hall⟩ := h.stash
    refine ⟨h.le, h.examined, h.network, restashed ++ [m], ?_, fun x hx => ?_⟩
    · show s₁.stash ++ [m] = _
      rw [hstash, List.append_assoc]
    · rcases List.mem_append.1 hx with hx | hx
      · exact hall x hx
      · rw [List.mem_singleton.1 hx, Call.Unwanted, hround]
        exact ⟨hdec, hle, hunwanted⟩
  | decide | stale | wanted => exact h

end Passes

/-! ## The invariant -/

/-- What holds of the last call of a session. -/
structure CallInv (st : Session) (c : Call) : Prop where
  pass : ∃ n, Pass c st.server.stash n ∧ ∀ k, st.stashSize = some k → k = c.stash.length - n
  taken : (c.stash ++ c.network).Perm (c.ledger.all ++ st.server.stash)
  sound : c.ledger.Sound c.round st.server
  returned : ∀ m ∈ c.ledger.returned, m.type = c.mt ∧ m.round = c.round
  atMostOne : c.ledger.returned.length + c.ledger.decides.length ≤ 1

/-- Every message that the server was given is in the ledger or in the server's hands. -/
structure SessionInv (st : Session) : Prop where
  call : ∀ c, st.call = some c → CallInv st c
  /-- while a call is in progress, the round is its round and it has returned nothing -/
  running : ∀ k, st.stashSize = some k →
    ∃ c, st.call = some c ∧ c.round = st.server.round ∧ c.ledger.returned = []
  total : st.arrived.Perm (st.ledger.all ++ st.server.mail)
  sound : st.ledger.Sound st.server.round st.server

section Steps

variable {st st' : Session} {c : Call} {s s' s₁ : Server} {k k' : Nat} {m : Message}
  {r : Message ⊕ Nat}

/-- A step that leaves the stash alone and does not undo a decision. -/
theorem CallInv.frame (h : CallInv st c) (hstash : st'.server.stash = st.server.stash)
    (hd : st.server.decided = true →
      st'.server.decided = true ∧ st'.server.color = st.server.color)
    (hsize : ∀ k, st'.stashSize = some k → st.stashSize = some k) : CallInv st' c := by
  obtain ⟨n, hpass, hk⟩ := h.pass
  rw [← hstash] at hpass
  refine ⟨⟨n, hpass, fun k hk' => hk k (hsize k hk')⟩, ?_, h.sound.mono (Nat.le_refl _) hd,
    h.returned, h.atMostOne⟩
  rw [hstash]
  exact h.taken

theorem sessionInv_start (s : Server) : SessionInv (Session.start s) :=
  ⟨fun _ h => absurd h.symm (Option.some_ne_none _),
    fun _ h => absurd h.symm (Option.some_ne_none _), List.Perm.refl _,
    Ledger.sound_empty s.round s⟩

theorem sessionInv_arrive (h : SessionInv st) (m : Message)
    (hstep : st.step (.arrive m) = some st') : SessionInv st' := by
  obtain rfl := Option.some.inj hstep
  refine ⟨fun c hc => (h.call c hc).frame rfl (fun hd => ⟨hd, rfl⟩) fun _ hk => hk,
    h.running, ?_, h.sound.mono (Nat.le_refl _) fun hd => ⟨hd, rfl⟩⟩
  refine List.perm_iff_count.2 fun x => ?_
  have hcount := List.perm_iff_count.1 h.total x
  simp only [Server.mail, List.count_append] at hcount ⊢
  omega

theorem sessionInv_call (h : SessionInv st) (mt : MessageType)
    (hstep : st.step (.call mt) = some st') : SessionInv st' := by
  obtain ⟨-, hst⟩ := Option.ite_none_right_eq_some.1 hstep
  obtain rfl := Option.some.inj hst
  refine ⟨fun c hc => ?_, fun k _ => ⟨_, rfl, rfl, rfl⟩, h.total, h.sound⟩
  obtain rfl := Option.some.inj hc
  refine ⟨⟨0, ⟨Nat.zero_le _, rfl, fun hne => absurd rfl hne, [], ?_, ?_⟩, ?_⟩, ?_,
    Ledger.sound_empty _ _, fun _ hm => absurd hm List.not_mem_nil, Nat.zero_le 1⟩
  · rw [List.drop_zero, List.append_nil]
  · exact fun _ hm => absurd hm List.not_mem_nil
  · intro k hk
    exact (Option.some.inj hk).symm
  · rw [List.append_nil]
    exact List.Perm.refl _

theorem sessionInv_cancel (h : SessionInv st) (hstep : st.step .cancel = some st') :
    SessionInv st' := by
  obtain ⟨-, hst⟩ := Option.ite_none_right_eq_some.1 hstep
  obtain rfl := Option.some.inj hst
  exact ⟨fun c hc => (h.call c hc).frame rfl (fun hd => ⟨hd, rfl⟩)
    fun _ hk => absurd hk.symm (Option.some_ne_none _),
    fun _ hk => absurd hk.symm (Option.some_ne_none _), h.total, h.sound⟩

theorem sessionInv_proceed (h : SessionInv st) (s : Server)
    (hstep : st.step (.proceed s) = some st') : SessionInv st' := by
  obtain ⟨⟨hsize, hmay⟩, hst⟩ := Option.ite_none_right_eq_some.1 hstep
  obtain rfl := Option.some.inj hst
  refine ⟨fun c hc => (h.call c hc).frame hmay.stash hmay.decided fun _ hk => hk, ?_, ?_,
    h.sound.mono hmay.round hmay.decided⟩
  · intro k hk
    have hk' : st.stashSize = some k := hk
    rw [hsize] at hk'
    exact absurd hk'.symm (Option.some_ne_none _)
  · show st.arrived.Perm (st.ledger.all ++ (s.messageq ++ s.stash))
    rw [hmay.stash, hmay.messageq]
    exact h.total

/-! ## An iteration -/

/-- Where the message comes from, as the call and as the server see it. -/
theorem next_perm (hnext : s.next k = some (m, k', s₁)) (l : List Message)
    (htaken : (c.stash ++ c.network).Perm (l ++ s.stash)) :
    (c.stash ++ (c.examine k m).network).Perm (m :: (l ++ s₁.stash)) := by
  refine List.perm_iff_count.2 fun x => ?_
  have hcount := List.perm_iff_count.1 htaken x
  rcases Server.next_cases hnext with ⟨hpos, -, stash, hs, rfl⟩ | ⟨hzero, -, q, hq, rfl⟩
  · rw [hs] at hcount
    simp only [Call.examine, if_pos hpos, List.count_append, List.count_cons] at hcount ⊢
    omega
  · simp only [Call.examine, hzero, Nat.lt_irrefl, if_false, List.count_append, List.count_cons,
      List.count_nil] at hcount ⊢
    omega

theorem next_mail_perm (hnext : s.next k = some (m, k', s₁)) :
    s.mail.Perm (m :: (s₁.messageq ++ s₁.stash)) := by
  refine List.perm_iff_count.2 fun x => ?_
  rcases Server.next_cases hnext with ⟨-, -, stash, hs, rfl⟩ | ⟨-, -, q, hq, rfl⟩
  · simp only [Server.mail, hs, List.count_append, List.count_cons]
    omega
  · simp only [Server.mail, hq, List.count_append, List.count_cons]
    omega

theorem next_frame (hnext : s.next k = some (m, k', s₁)) :
    s₁.round = s.round ∧ s₁.decided = s.decided := by
  rcases Server.next_cases hnext with ⟨-, -, stash, -, rfl⟩ | ⟨-, -, q, -, rfl⟩
  · exact ⟨rfl, rfl⟩
  · exact ⟨rfl, rfl⟩

/-- The call's part of an iteration that looks at `m`. -/
theorem callInv_examine (h : CallInv st c) (hsize : st.stashSize = some k)
    (hround : c.round = st.server.round) (hreturned : c.ledger.returned = [])
    (hd : st.server.decided = false) (hnext : st.server.next k = some (m, k', s₁))
    (hh : s₁.Handled c.mt k' m s' r) (hst' : st'.server = s') (hsize' : st'.stashSize = r.getRight?) :
    CallInv st' { c.examine k m with ledger := c.ledger.record m st.server s' r } := by
  obtain ⟨hround₁, hdecided₁⟩ := next_frame hnext
  rw [hd] at hdecided₁
  obtain ⟨n, hpass, hk⟩ := h.pass
  obtain ⟨n', hpass', hk'⟩ := hpass.next (hk k hsize) hnext
  have hpass'' := hpass'.handle (hround.trans hround₁.symm) hh
  have hsound : c.ledger.Sound st.server.round st.server := by
    rw [← hround]
    exact h.sound
  have honce := hh.once hround₁ hdecided₁ hreturned (hsound.decides_nil hd)
  refine ⟨⟨n', ?_, ?_⟩, ?_, ?_, ?_, ?_⟩
  · rw [hst']
    exact ⟨hpass''.le, hpass''.examined, hpass''.network, hpass''.stash⟩
  · intro j hj
    rw [hsize'] at hj
    cases hh with
    | decide | wanted => exact absurd hj.symm (Option.some_ne_none _)
    | keep | stale =>
      rw [← Option.some.inj hj]
      exact hk'
  · rw [hst']
    exact (next_perm hnext _ h.taken).trans (hh.perm hround₁ hdecided₁ _).symm
  · rw [hst']
    show Ledger.Sound _ c.round s'
    rw [hround]
    exact hsound.record hd hround₁ hdecided₁ hh
  · rw [← hround] at honce
    exact honce.1
  · exact honce.2

theorem sessionInv_iterate (h : SessionInv st) (hstep : st.step .iterate = some st') :
    SessionInv st' := by
  obtain ⟨k, hsize, hstep⟩ := Option.bind_eq_some_iff.1 hstep
  obtain ⟨c, hcall, hstep⟩ := Option.bind_eq_some_iff.1 hstep
  obtain ⟨⟨s', r⟩, hreceive, rfl⟩ := Option.map_eq_some_iff.1 hstep
  obtain ⟨c', hcall', hround, hreturned⟩ := h.running k hsize
  rw [hcall, Option.some.injEq] at hcall'
  subst hcall'
  rcases Server.receive_handled hreceive with ⟨hd, hs, hr⟩ | ⟨hd, m, k', s₁, hnext, hh⟩
  · -- the server has decided: nothing is looked at
    have hexamined : st.server.examined k = none := by rw [Server.examined, if_pos hd]
    rw [Session.iterated, hexamined]
    subst hs
    subst hr
    exact ⟨fun c hc => (h.call c hc).frame rfl (fun hd => ⟨hd, rfl⟩)
      fun _ hk => absurd hk.symm (Option.some_ne_none _),
      fun _ hk => absurd hk.symm (Option.some_ne_none _), h.total, h.sound⟩
  · have hexamined : st.server.examined k = some m := by
      rw [Server.examined, if_neg (by rw [hd]; exact Bool.false_ne_true), hnext, Option.map_some]
    obtain ⟨hround₁, hdecided₁⟩ := next_frame hnext
    rw [hd] at hdecided₁
    rw [Session.iterated, hexamined]
    refine ⟨fun c₁ hc₁ => ?_, fun j hj => ?_, ?_, ?_⟩
    · obtain rfl := Option.some.inj hc₁
      exact callInv_examine (h.call c hcall) hsize hround hreturned hd hnext hh rfl rfl
    · refine ⟨_, rfl, hround.trans (hh.round.trans hround₁).symm, ?_⟩
      cases r with
      | inl m' => exact absurd hj.symm (Option.some_ne_none _)
      | inr k₁ => exact (Ledger.record_inr c.ledger m st.server s' k₁).trans hreturned
    · -- the ledger of all calls is kept as that of one call is
      refine List.perm_iff_count.2 fun x => ?_
      have htotal := List.perm_iff_count.1 h.total x
      have hmail := List.perm_iff_count.1 (next_mail_perm hnext) x
      have hrecord := List.perm_iff_count.1 (hh.perm hround₁ hdecided₁ st.ledger) x
      rw [← hh.messageq] at hmail
      simp only [Server.mail, List.count_append, List.count_cons] at htotal hmail hrecord ⊢
      omega
    · show Ledger.Sound _ s'.round s'
      rw [hh.round, hround₁]
      exact h.sound.record hd hround₁ hdecided₁ hh

theorem sessionInv_step {a : Move} (h : SessionInv st) (hstep : st.step a = some st') :
    SessionInv st' := by
  cases a with
  | arrive m => exact sessionInv_arrive h m hstep
  | call mt => exact sessionInv_call h mt hstep
  | iterate => exact sessionInv_iterate h hstep
  | cancel => exact sessionInv_cancel h hstep
  | proceed s => exact sessionInv_proceed h s hstep

end Steps

/-- The invariant holds in every state of a session. -/
theorem reachable_sessionInv {st : Session} (h : sessions.Reachable st) : SessionInv st := by
  refine h.invariant (P := SessionInv) ?_ fun _ _ _ hinv hstep => sessionInv_step hinv hstep
  rintro _ ⟨s, rfl⟩
  exact sessionInv_start s

/-! ## No message is lost -/

/-- What the last call has done with the messages of its stash and of the network.  While it
waits for the network there is nothing in the stash that it wants. -/
structure Accounted (st : Session) (c : Call) : Prop where
  examined : ∃ n, n ≤ c.stash.length ∧ c.examined = c.stash.take n ++ c.network ∧
    (c.network ≠ [] → n = c.stash.length)
  taken : (c.stash ++ c.network).Perm
    (c.ledger.returned ++ st.server.stash ++ c.ledger.stale ++ c.ledger.decides)
  returned : c.ledger.returned.length ≤ 1 ∧
    ∀ m ∈ c.ledger.returned, m.type = c.mt ∧ m.round = c.round
  stale : ∀ m ∈ c.ledger.stale, m.type ≠ .decide ∧ m.round < c.round
  decides : c.ledger.decides.length ≤ 1 ∧ ∀ m ∈ c.ledger.decides,
    m.type = .decide ∧ st.server.decided = true ∧ st.server.color = m.color
  waiting : st.stashSize = some 0 → ∀ m ∈ st.server.stash, c.Unwanted m

theorem CallInv.accounted {st : Session} {c : Call} (h : CallInv st c) : Accounted st c := by
  obtain ⟨n, hpass, hk⟩ := h.pass
  have hone := h.atMostOne
  refine ⟨⟨n, hpass.le, hpass.examined, hpass.network⟩, ?_, ⟨by omega, h.returned⟩,
    h.sound.stale, ⟨by omega, h.sound.decides⟩, ?_⟩
  · refine List.perm_iff_count.2 fun x => ?_
    have hcount := List.perm_iff_count.1 h.taken x
    simp only [Ledger.all, List.count_append] at hcount ⊢
    omega
  · intro hwait m hm
    have hsize := hk 0 hwait
    have hle := hpass.le
    obtain ⟨restashed, hstash, hunwanted⟩ := hpass.stash
    rw [hstash, List.drop_eq_nil_of_le (by omega), List.nil_append] at hm
    exact hunwanted m hm

/-- A message that is not in the ledger as stale or as a decision was returned, or is still
in the server's hands. -/
theorem SessionInv.count {st : Session} (h : SessionInv st) {m : Message}
    (hdec : m.type ≠ .decide) (hround : st.server.round ≤ m.round) :
    st.arrived.count m = st.ledger.returned.count m + st.server.mail.count m := by
  have hstale : st.ledger.stale.count m = 0 := by
    rw [List.count_eq_zero]
    intro hm
    have hlt := (h.sound.stale m hm).2
    omega
  have hdecides : st.ledger.decides.count m = 0 := by
    rw [List.count_eq_zero]
    exact fun hm => hdec (h.sound.decides m hm).1
  have hcount := List.perm_iff_count.1 h.total m
  simp only [Ledger.all, List.count_append] at hcount
  omega

/-- Every call accounts for the messages it has taken, and no message that is not a DECIDE
is lost before its round is over. -/
theorem receive_loses_nothing {st : Session} (h : sessions.Reachable st) :
    (∀ c, st.call = some c → Accounted st c) ∧
      ∀ m, m.type ≠ .decide → st.server.round ≤ m.round →
        st.arrived.count m = st.ledger.returned.count m + st.server.mail.count m := by
  have hinv := reachable_sessionInv h
  exact ⟨fun c hc => (hinv.call c hc).accounted, fun m hdec hround => hinv.count hdec hround⟩

/-- A server in round 2 with a PROPOSE of round 3 in its stash. -/
def earlyProposal : Server :=
  { color := "red", round := 2, stash := [proposeMessage 3 "blue", prepareMessage 2 "red" 1] }

/-- The call of round 2 is cancelled, that of round 3 returns the PROPOSE. -/
def cancelledRun : List Move :=
  [.call .propose, .iterate, .iterate, .arrive (ackMessage 1 true), .iterate, .cancel,
    .proceed { earlyProposal with round := 3 }, .call .propose, .iterate]

theorem cancelledRun_isSome :
    (sessions.exec (Session.start earlyProposal) cancelledRun).isSome = true := by
  decide +kernel

/-- The state `cancelledRun` ends in. -/
def cancelledState : Session :=
  (sessions.exec (Session.start earlyProposal) cancelledRun).get cancelledRun_isSome

theorem receive_loses_nothing_cancelledState :
    cancelledState.ledger.returned = [proposeMessage 3 "blue"] ∧
      (∀ c, cancelledState.call = some c → Accounted cancelledState c) ∧
        ∀ m, m.type ≠ .decide → cancelledState.server.round ≤ m.round →
          cancelledState.arrived.count m =
            cancelledState.ledger.returned.count m + cancelledState.server.mail.count m :=
  ⟨by decide +kernel, receive_loses_nothing
    (Transition.Machine.Reachable.of_get (M := sessions) ⟨earlyProposal, rfl⟩
      cancelledRun_isSome)⟩

end Ctconsensus
end Psets
