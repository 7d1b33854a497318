/-
Agreement with a rotating coordinator.

`n` parties agree on a value over a network that may delay, reorder and lose
messages.  Party `r % n` coordinates round `r`: it gathers a majority of
PREPAREs, proposes the value with the latest stamp, and decides once a majority
has acknowledged the proposal.  Any party may refuse a proposal and move on at
any moment.

The network is a multiset, so a message in flight has neither an age nor a
sender.  What a coordinator counts is therefore counted against the parties that
could have sent it, and the invariant is a family of inequalities between
multiset counts and set cardinalities.
-/
import Mathlib.Data.Fintype.Card
import Mathlib.Data.Multiset.Count

namespace Psets
namespace Quorum

/-- What a party is doing in its current round. -/
inductive Stage where
  | ready
  | prepared
  | collecting (k : Nat)
  | proposing
  | waiting
  | acked
  | counting (success total : Nat)
  | stopped
  deriving DecidableEq, Repr

namespace Stage

/-- The coordinator has not proposed yet. -/
def early : Stage → Bool
  | ready | prepared | collecting _ => true
  | _ => false

/-- The coordinator has proposed and has not decided. -/
def led : Stage → Bool
  | proposing | waiting | acked | counting _ _ => true
  | _ => false

/-- The party has answered the proposal of its round. -/
def answered : Stage → Bool
  | acked | counting _ _ => true
  | _ => false

end Stage

/-- A party: its round, the value it prefers, and the round in which it adopted
that value (zero for the value it started with). -/
structure Party (V : Type) where
  round : Nat
  value : V
  stamp : Nat
  stage : Stage

namespace Party

variable {V : Type}

/-- The party moves to another stage of the same round. -/
def goto (p : Party V) (st : Stage) : Party V := { p with stage := st }

/-- The party adopts the proposal of its round. -/
def adopt (p : Party V) (v : V) : Party V :=
  { p with value := v, stamp := p.round, stage := .acked }

/-- The coordinator gathers its `k`th PREPARE and keeps the latest value. -/
def gather (p : Party V) (k : Nat) (v : V) (ts : Nat) : Party V :=
  if p.stamp < ts then { p with value := v, stamp := ts, stage := .collecting k }
  else p.goto (.collecting k)

@[simp] theorem goto_round (p : Party V) (st : Stage) : (p.goto st).round = p.round := rfl
@[simp] theorem goto_value (p : Party V) (st : Stage) : (p.goto st).value = p.value := rfl
@[simp] theorem goto_stamp (p : Party V) (st : Stage) : (p.goto st).stamp = p.stamp := rfl
@[simp] theorem goto_stage (p : Party V) (st : Stage) : (p.goto st).stage = st := rfl

@[simp] theorem adopt_round (p : Party V) (v : V) : (p.adopt v).round = p.round := rfl
@[simp] theorem adopt_value (p : Party V) (v : V) : (p.adopt v).value = v := rfl
@[simp] theorem adopt_stamp (p : Party V) (v : V) : (p.adopt v).stamp = p.round := rfl
@[simp] theorem adopt_stage (p : Party V) (v : V) : (p.adopt v).stage = .acked := rfl

theorem gather_of_lt {p : Party V} {ts : Nat} (h : p.stamp < ts) (k : Nat) (v : V) :
    p.gather k v ts = { p with value := v, stamp := ts, stage := .collecting k } :=
  if_pos h

theorem gather_of_le {p : Party V} {ts : Nat} (h : ts ≤ p.stamp) (k : Nat) (v : V) :
    p.gather k v ts = p.goto (.collecting k) :=
  if_neg (Nat.not_lt.2 h)

end Party

inductive Msg (V : Type) where
  | prepare (round : Nat) (value : V) (stamp : Nat)
  | propose (round : Nat) (value : V)
  | ack (round : Nat) (positive : Bool)
  | decide (value : V)

structure Config (n : Nat) (V : Type) where
  party : Fin n → Party V
  bag : Multiset (Msg V)

namespace Config

variable {n : Nat} {V : Type}

/-- Replace one party and the messages in flight. -/
def put (c : Config n V) (i : Fin n) (p : Party V) (bag : Multiset (Msg V)) : Config n V :=
  { party := Function.update c.party i p, bag := bag }

@[simp] theorem put_bag (c : Config n V) (i : Fin n) (p : Party V) (bag : Multiset (Msg V)) :
    (c.put i p bag).bag = bag := rfl

@[simp] theorem put_party_self (c : Config n V) (i : Fin n) (p : Party V)
    (bag : Multiset (Msg V)) : (c.put i p bag).party i = p := by
  simp [put]

theorem put_party_ne (c : Config n V) {i j : Fin n} (h : j ≠ i) (p : Party V)
    (bag : Multiset (Msg V)) : (c.put i p bag).party j = c.party j := by
  simp [put, h]

end Config

section Protocol

variable {n : Nat} {V : Type}

/-- One step of one party, or the loss of a message. -/
inductive Next : Config n V → Config n V → Prop where
  | lose {c : Config n V} {m : Msg V} {rest : Multiset (Msg V)} :
      c.bag = m ::ₘ rest → Next c { c with bag := rest }
  | prepare {c : Config n V} (i : Fin n) : (c.party i).stage = .ready →
      Next c (c.put i ((c.party i).goto .prepared)
        (.prepare (c.party i).round (c.party i).value (c.party i).stamp ::ₘ c.bag))
  | gather {c : Config n V} (i : Fin n) : (c.party i).stage = .prepared →
      i.val = (c.party i).round % n →
      Next c (c.put i ((c.party i).goto (.collecting 0)) c.bag)
  | collect {c : Config n V} (i : Fin n) {k : Nat} {v : V} {ts : Nat}
      {rest : Multiset (Msg V)} : (c.party i).stage = .collecting k →
      c.bag = .prepare (c.party i).round v ts ::ₘ rest →
      Next c (c.put i ((c.party i).gather (k + 1) v ts) rest)
  | elect {c : Config n V} (i : Fin n) {k : Nat} : (c.party i).stage = .collecting k →
      n / 2 < k → Next c (c.put i ((c.party i).goto .proposing) c.bag)
  | propose {c : Config n V} (i : Fin n) : (c.party i).stage = .proposing →
      Next c (c.put i (c.party i) (.propose (c.party i).round (c.party i).value ::ₘ c.bag))
  | await {c : Config n V} (i : Fin n) :
      (c.party i).stage = .proposing ∨
        (c.party i).stage = .prepared ∧ i.val ≠ (c.party i).round % n →
      Next c (c.put i ((c.party i).goto .waiting) c.bag)
  | adopt {c : Config n V} (i : Fin n) {v : V} {rest : Multiset (Msg V)} :
      (c.party i).stage = .waiting → c.bag = .propose (c.party i).round v ::ₘ rest →
      Next c (c.put i ((c.party i).adopt v) (.ack (c.party i).round true ::ₘ rest))
  | refuse {c : Config n V} (i : Fin n) : (c.party i).stage = .waiting →
      Next c (c.put i ((c.party i).goto .acked)
        (.ack (c.party i).round false ::ₘ c.bag))
  | tally {c : Config n V} (i : Fin n) : (c.party i).stage = .acked →
      i.val = (c.party i).round % n →
      Next c (c.put i ((c.party i).goto (.counting 0 0)) c.bag)
  | count {c : Config n V} (i : Fin n) {s t : Nat} {b : Bool} {rest : Multiset (Msg V)} :
      (c.party i).stage = .counting s t → c.bag = .ack (c.party i).round b ::ₘ rest →
      Next c (c.put i
        ((c.party i).goto (.counting (if b then s + 1 else s) (t + 1))) rest)
  | advance {c : Config n V} (i : Fin n) : (c.party i).stage.answered = true →
      Next c (c.put i
        { c.party i with round := (c.party i).round + 1, stage := .ready } c.bag)
  | decide {c : Config n V} (i : Fin n) {s t : Nat} :
      (c.party i).stage = .counting s t → n / 2 < s →
      Next c (c.put i ((c.party i).goto .stopped) c.bag)
  | hear {c : Config n V} (i : Fin n) {v : V} {rest : Multiset (Msg V)} :
      (c.party i).stage ≠ .stopped → c.bag = .decide v ::ₘ rest →
      Next c (c.put i { c.party i with value := v, stage := .stopped } rest)
  | announce {c : Config n V} (i : Fin n) : (c.party i).stage = .stopped →
      Next c (c.put i (c.party i) (.decide (c.party i).value ::ₘ c.bag))

/-- Every party starts in round one with its own value. -/
def Start (initial : Fin n → V) (c : Config n V) : Prop :=
  (∀ i, c.party i = { round := 1, value := initial i, stamp := 0, stage := .ready }) ∧ c.bag = 0

/-! ## The invariant

The history of a run is the proposal of each round and the parties that adopted
it.  Neither is stored by a party, so the invariant quantifies over them. -/

/-- The proposals made so far and, for each round, who adopted it. -/
structure History (n : Nat) (V : Type) where
  proposal : Nat → Option V
  adopted : Nat → Finset (Fin n)

/-- A majority adopted the proposal of one round. -/
def History.Chosen (g : History n V) (v : V) : Prop :=
  ∃ r, g.proposal r = some v ∧ n / 2 < (g.adopted r).card

/-- The party has sent its PREPARE for round `r`. -/
def Past (r : Nat) (p : Party V) : Prop :=
  r < p.round ∨ r = p.round ∧ p.stage ≠ .ready

instance (r : Nat) (p : Party V) : Decidable (Past r p) :=
  inferInstanceAs (Decidable (_ ∨ _))

def isAck (r : Nat) : Msg V → Bool
  | .ack r' b => r' == r && b
  | _ => false

/-- A PREPARE for round `r'` whose stamp is before `r`. -/
def isStale (r r' : Nat) : Msg V → Bool
  | .prepare q _ ts => q == r' && decide (ts < r)
  | _ => false

/-- The positive acknowledgements of round `r` a party has counted. -/
def counted (r : Nat) (p : Party V) : Nat :=
  match p.stage with
  | .counting s _ => if p.round = r then s else 0
  | _ => 0

/-- The PREPAREs for round `r'` a party has gathered, all stamped before `r`. -/
def gathered (r r' : Nat) (p : Party V) : Nat :=
  match p.stage with
  | .collecting k => if p.round = r' ∧ p.stamp < r then k else 0
  | _ => 0

@[simp] theorem counted_goto_counting (r : Nat) (p : Party V) (s t : Nat) :
    counted r (p.goto (.counting s t)) = if p.round = r then s else 0 := rfl

@[simp] theorem gathered_goto_collecting (r r' : Nat) (p : Party V) (k : Nat) :
    gathered r r' (p.goto (.collecting k)) =
      if p.round = r' ∧ p.stamp < r then k else 0 := rfl

/-- The parties that did not adopt round `r` and have sent their PREPARE for
round `r'`. -/
def passed (g : History n V) (c : Config n V) (r r' : Nat) : Finset (Fin n) :=
  Finset.univ.filter fun j => j ∉ g.adopted r ∧ Past r' (c.party j)

/-- The parties that left round `r` without adopting its proposal. -/
def refused (g : History n V) (c : Config n V) (r : Nat) : Finset (Fin n) :=
  Finset.univ.filter fun j => j ∉ g.adopted r ∧ r < (c.party j).round

variable (initial : Fin n → V)

/-- A party has decided `v`, or says so in a message. -/
def Decision (c : Config n V) (v : V) : Prop :=
  (∃ i, (c.party i).stage = .stopped ∧ (c.party i).value = v) ∨ .decide v ∈ c.bag

/-- A value that somebody started with or that was proposed in round `ts`. -/
def Stamped (g : History n V) (v : V) (ts : Nat) : Prop :=
  ts = 0 ∧ (∃ j, initial j = v) ∨ 0 < ts ∧ g.proposal ts = some v

structure PartyOk (g : History n V) (i : Fin n) (p : Party V) : Prop where
  round_pos : 0 < p.round
  leader : p.stage = .proposing ∨ (∃ k, p.stage = .collecting k) ∨
    (∃ s t, p.stage = .counting s t) → i.val = p.round % n
  proposed : ∀ r v, g.proposal r = some v → i.val = r % n →
    r < p.round ∨ r = p.round ∧ p.stage.early = false
  leads : i.val = p.round % n → p.stage.led = true → g.proposal p.round = some p.value
  stamped : p.stage ≠ .stopped → Stamped initial g p.value p.stamp
  stamp_le : p.stage ≠ .stopped →
    p.stamp < p.round ∨ p.stamp = p.round ∧ p.stage.answered = true
  adopted_round : ∀ r, i ∈ g.adopted r →
    r < p.round ∨ r = p.round ∧ (p.stage.answered = true ∨ p.stage = .stopped)
  adopted_stamp : ∀ r, i ∈ g.adopted r → p.stage ≠ .stopped → r ≤ p.stamp
  stopped : p.stage = .stopped → g.Chosen p.value

def MsgOk (g : History n V) : Msg V → Prop
  | .prepare r v ts => ts < r ∧ Stamped initial g v ts
  | .propose r v => g.proposal r = some v
  | .ack _ _ => True
  | .decide v => g.Chosen v

structure Inv (g : History n V) (c : Config n V) : Prop where
  valid : ∀ r v, g.proposal r = some v → 0 < r ∧ ∃ j, initial j = v
  party : ∀ i, PartyOk initial g i (c.party i)
  bag : ∀ m ∈ c.bag, MsgOk initial g m
  acks : ∀ i r, counted r (c.party i) + c.bag.countP (fun m => isAck r m = true) ≤
    (g.adopted r).card
  prepares : ∀ i r r', r < r' →
    gathered r r' (c.party i) + c.bag.countP (fun m => isStale r r' m = true) ≤
      (passed g c r r').card
  locked : ∀ r r' v, 0 < r → r < r' → g.proposal r' = some v →
    g.proposal r = some v ∨ n / 2 < (refused g c r).card

end Protocol

end Quorum
end Psets
