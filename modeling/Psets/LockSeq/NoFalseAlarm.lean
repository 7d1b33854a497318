/-
`check` accepts every database that the clients and the server produce.

The phase of the owner gives the shape of its group; a group with no owner holds one
sequence.  The entries of the database that belong to a group are then those of
`groupEntries`, since both lists are sorted and have the same members.
-/
import Psets.LockSeq.Runs

namespace Psets
namespace LockSeq

open Pancy

/-! ## The entries of a group -/

theorem mem_run {p : Str} {a n : Nat} {o : Str} {e : Str × Str} :
    e ∈ run p a n o ↔ ∃ v, a ≤ v ∧ v < a + n ∧ e = (p ++ 'v' :: decimal3 v, o) := by
  rw [run, List.mem_map]
  constructor
  · rintro ⟨v, hv, rfl⟩
    rw [List.mem_range'_1] at hv
    exact ⟨v, hv.1, hv.2, rfl⟩
  · rintro ⟨v, h1, h2, rfl⟩
    exact ⟨v, List.mem_range'_1.2 ⟨h1, h2⟩, rfl⟩

theorem mem_groupEntries {p : Str} {lock : Option Str} {m j k : Nat} {L o : Str} {e : Str × Str} :
    e ∈ groupEntries p lock m j k L o ↔
      (∃ value, lock = some value ∧ e = (p ++ ['l', 'o', 'c', 'k'], value)) ∨
      (∃ v, v < m ∧ e = (p ++ 'v' :: decimal3 v, L)) ∨
      ∃ v, j ≤ v ∧ v < k ∧ e = (p ++ 'v' :: decimal3 v, o) := by
  rw [groupEntries, List.mem_append, List.mem_append, mem_run, mem_run, or_assoc]
  refine or_congr ?_ (or_congr ?_ ?_)
  · cases lock with
    | none => simp
    | some value => simp
  · simp
  · refine exists_congr fun v => ?_
    constructor
    · rintro ⟨h1, h2, he⟩
      exact ⟨h1, by omega, he⟩
    · rintro ⟨h1, h2, he⟩
      exact ⟨h1, by omega, he⟩

theorem valueKey_lt (p : Str) {v v' : Nat} (h : v < v') (h' : v' < 1000) :
    p ++ 'v' :: decimal3 v < p ++ 'v' :: decimal3 v' :=
  List.append_left_lt (List.cons_lt_cons_iff.2 (Or.inr ⟨rfl, decimal3_lt h h'⟩))

theorem run_sorted (p : Str) {a n : Nat} (o : Str) (h : a + n ≤ 1000) :
    (run p a n o).Pairwise fun e f => e.1 < f.1 := by
  rw [run, List.pairwise_map]
  refine (List.pairwise_lt_range' (s := a) (n := n) 1 (by decide)).imp_of_mem ?_
  intro v v' _ hv' hlt
  rw [List.mem_range'_1] at hv'
  exact valueKey_lt p hlt (by omega)

theorem groupEntries_sorted (p : Str) (lock : Option Str) {m j k : Nat} (L o : Str) (hm : m ≤ j)
    (hm' : m ≤ 1000) (hk : k ≤ 1000) :
    (groupEntries p lock m j k L o).Pairwise fun e f => e.1 < f.1 := by
  have hlast : (run p j (k - j) o).Pairwise fun e f => e.1 < f.1 := by
    by_cases hjk : j ≤ k
    · exact run_sorted p o (by omega)
    · rw [Nat.sub_eq_zero_of_le (by omega)]
      exact List.Pairwise.nil
  rw [groupEntries, List.append_assoc, List.pairwise_append, List.pairwise_append]
  refine ⟨?_, ⟨run_sorted p L (by omega), hlast, ?_⟩, ?_⟩
  · cases lock with
    | none => exact List.Pairwise.nil
    | some value => exact List.pairwise_singleton _ _
  · intro e he f hf
    obtain ⟨v, _, hv, rfl⟩ := mem_run.1 he
    obtain ⟨v', hv', hlt, rfl⟩ := mem_run.1 hf
    exact valueKey_lt p (by omega) (by omega)
  · intro e he f hf
    have hlock : e.1 = p ++ ['l', 'o', 'c', 'k'] := by
      cases lock with
      | none => exact absurd he List.not_mem_nil
      | some value => rw [List.mem_singleton.1 he]
    have hval : ∃ v, f.1 = p ++ 'v' :: decimal3 v := by
      rcases List.mem_append.1 hf with hf | hf
      · obtain ⟨v, _, _, rfl⟩ := mem_run.1 hf
        exact ⟨v, rfl⟩
      · obtain ⟨v, _, _, rfl⟩ := mem_run.1 hf
        exact ⟨v, rfl⟩
    obtain ⟨v, hv⟩ := hval
    rw [hlock, hv]
    exact List.append_left_lt (List.cons_lt_cons_iff.2 (Or.inl (by decide)))

/-! ## From the table to the entries -/

/-- The keys of group `g` in the database. -/
theorem mem_groupOf_keyValues {db : Pancydb}
    (hkeys : ∀ key vv, db.db.find? key = some vv → ClientKey key) {g : Nat} {e : Str × Str} :
    e ∈ groupOf g (keyValues db) ↔
      (∃ value, ((table db).lock g).map Vv.value = some value ∧
        e = (groupPrefix g ++ ['l', 'o', 'c', 'k'], value)) ∨
      ∃ v o, (table db).vals g v = some o ∧ e = (groupPrefix g ++ 'v' :: decimal3 v, o) := by
  obtain ⟨key, value⟩ := e
  rw [mem_groupOf, mem_keyValues]
  constructor
  · rintro ⟨hfind, hpre⟩
    obtain ⟨vv, hvv, _⟩ := Option.map_eq_some_iff.1 hfind
    obtain ⟨g', _, hkey⟩ := hkeys key vv hvv
    have hg : g' = g := by
      rcases hkey with rfl | ⟨v, rfl⟩
      · exact groupPrefix_unique (List.prefix_append _ _) hpre
      · exact groupPrefix_unique (List.prefix_append _ _) hpre
    subst hg
    rcases hkey with rfl | ⟨v, rfl⟩
    · exact Or.inl ⟨value, hfind, rfl⟩
    · exact Or.inr ⟨v, value, hfind, rfl⟩
  · rintro (⟨value', hl, he⟩ | ⟨v, o, hv, he⟩)
    · obtain ⟨rfl, rfl⟩ := Prod.mk.inj he
      exact ⟨hl, List.prefix_append _ _⟩
    · obtain ⟨rfl, rfl⟩ := Prod.mk.inj he
      exact ⟨hv, List.prefix_append _ _⟩

/-- The entries of a group that has a shape. -/
theorem groupOf_eq {db : Pancydb}
    (hkeys : ∀ key vv, db.db.find? key = some vv → ClientKey key) {g m j : Nat} {value : Str}
    (hm : m ≤ j) (hm' : m ≤ maxSequenceLength) (hs : Shape ((table db).vals g) value m j) :
    ∃ o k, o ≠ [] ∧ k ≤ 1000 ∧ groupOf g (keyValues db) =
      groupEntries (groupPrefix g) (((table db).lock g).map Vv.value) m j k value o := by
  obtain ⟨o, k, ho, hk, hs⟩ := hs
  rw [maxSequenceLength] at hm' hk
  have hvals : ∀ v w, (table db).vals g v = some w ↔ v < m ∧ w = value ∨ j ≤ v ∧ v < k ∧ w = o := by
    intro v w
    rw [hs]
    by_cases h1 : v < m
    · rw [if_pos h1, Option.some.injEq]
      constructor
      · exact fun he => Or.inl ⟨h1, he.symm⟩
      · rintro (⟨_, he⟩ | ⟨h2, _⟩)
        · exact he.symm
        · omega
    · rw [if_neg h1]
      by_cases h2 : v < j
      · rw [if_pos h2]
        refine iff_of_false (by simp) ?_
        rintro (⟨h, _⟩ | ⟨h, _⟩) <;> omega
      · rw [if_neg h2]
        by_cases h3 : v < k
        · rw [if_pos h3, Option.some.injEq]
          constructor
          · exact fun he => Or.inr ⟨Nat.le_of_not_lt h2, h3, he.symm⟩
          · rintro (⟨h, _⟩ | ⟨_, _, he⟩)
            · omega
            · exact he.symm
        · rw [if_neg h3]
          refine iff_of_false (by simp) ?_
          rintro (⟨h, _⟩ | ⟨_, h, _⟩) <;> omega
  refine ⟨o, k, ho, by omega, PrefixOrder.eq_of_mem_iff ((keyValues_sorted db).filter _)
    (groupEntries_sorted _ _ _ _ hm (by omega) (by omega)) fun e => ?_⟩
  rw [mem_groupOf_keyValues hkeys, mem_groupEntries]
  refine or_congr Iff.rfl ?_
  constructor
  · rintro ⟨v, w, hv, rfl⟩
    rcases (hvals v w).1 hv with ⟨h, rfl⟩ | ⟨h, h', rfl⟩
    · exact Or.inl ⟨v, h, rfl⟩
    · exact Or.inr ⟨v, h, h', rfl⟩
  · rintro (⟨v, h, rfl⟩ | ⟨v, h, h', rfl⟩)
    · exact ⟨v, value, (hvals v _).2 (Or.inl ⟨h, rfl⟩), rfl⟩
    · exact ⟨v, o, (hvals v _).2 (Or.inr ⟨h, h', rfl⟩), rfl⟩

/-! ## The shape under an owner -/

variable {nclients : Nat} {s : State nclients} {oldss newss : Fin nclients → List Request}

theorem InPhase.shape {t : Table} {c : Client} {count : Nat} {phase : Phase}
    (h : InPhase t c count phase) (hch : c.nvalues ≤ maxSequenceLength) (hne : phase ≠ .lock)
    (ho : Owns t c c.lockVersion) :
    ∃ m j, m ≤ j ∧ m ≤ maxSequenceLength ∧ Shape (t.vals c.gid) c.value m j := by
  cases phase with
  | lock => exact absurd rfl hne
  | write =>
    obtain ⟨_, hlt, hs | hs⟩ := h
    · exact ⟨c.n, c.n, le_rfl, by omega, hs⟩
    · exact ⟨c.n + 1, c.n + 1, le_rfl, by omega, hs⟩
  | clear =>
    obtain ⟨_, hle, _, ⟨hs, _⟩ | ⟨hs, _⟩⟩ := h
    · exact ⟨c.nvalues, c.n, hle, hch, hs⟩
    · exact ⟨c.nvalues, c.n + 1, by omega, hch, hs⟩
  | unlock =>
    rcases h with ⟨_, hs, _⟩ | ⟨hs, _⟩
    · exact ⟨c.nvalues, maxSequenceLength, hch, hch, hs⟩
    · exact absurd rfl (hs.2.2 _ ho)

theorem Progress.shape {t : Table} {c : Client} {count g : Nat} {vv : Vv} (h : Progress t c count)
    (hch : c.nvalues ≤ maxSequenceLength) (ho : Owner t c g vv) (hl : t.lock g = some vv) :
    ∃ m j, m ≤ j ∧ m ≤ maxSequenceLength ∧ Shape (t.vals g) c.value m j := by
  have howns := ho.owns hl
  rcases ho.phase with ⟨_, hs⟩ | ⟨⟨phase, hp, hne⟩, hv⟩
  · exact ⟨0, 0, le_rfl, Nat.zero_le _, hs.rename _⟩
  · rw [hv] at howns
    rw [← ho.gid]
    rw [Client.phase] at hp
    rw [Progress] at h
    rcases hpc : c.pc with _ | ph | ph | ph | ⟨ph, e⟩ <;> rw [hpc] at hp h
    · simp at hp
    · obtain rfl := Option.some.inj hp
      exact InPhase.shape h hch hne howns
    · obtain rfl := Option.some.inj hp
      exact InPhase.shape h hch hne howns
    · obtain rfl := Option.some.inj hp
      cases ph with
      | lock => exact absurd rfl hne
      | write => exact ⟨c.n, c.n, le_rfl, by have := h.2.1; omega, h.2.2⟩
      | clear => exact ⟨c.nvalues, c.n, h.2.1, hch, h.2.2.2⟩
      | unlock => exact h.elim
    · obtain rfl := Option.some.inj hp
      exact InPhase.shape h hch hne howns

theorem Chosen.head {i : Nat} {c : Client} (h : Chosen i c) : c.value[0]? = some 'c' := by
  obtain ⟨r, hr⟩ := h.named
  rw [← hr]
  rfl

/-- Every group is one that the checker accepts. -/
theorem Inv.group (h : Inv oldss newss s) (g : Nat) : Group g (groupOf g (keyValues s.db)) := by
  rcases hl : (table s.db).lock g with _ | vv
  · obtain ⟨o, k, ho, hk, he⟩ :=
      groupOf_eq h.tableOk.keys (Nat.le_refl 0) (Nat.zero_le _) ((h.groups g).free hl)
    rw [he, hl]
    exact .unlocked ho hk
  · obtain ⟨i, howner⟩ := (h.groups g).held hl
    have hch := howner.chosen h
    obtain ⟨m, j, hm, hm', hs⟩ :=
      (h.clients i).progress.shape hch.nvalues.2 howner hl
    obtain ⟨o, k, ho, hk, he⟩ := groupOf_eq h.tableOk.keys hm hm' hs
    rw [he, hl, Option.map_some, ← howner.value]
    exact .locked hch.long hch.head ho (le_trans hm' (by decide)) hm hk

theorem Inv.check (h : Inv oldss newss s) : check s.db = none := by
  refine check_eq_none (fun e he => ?_) h.group
  obtain ⟨vv, hfind, _⟩ := Option.map_eq_some_iff.1 (mem_keyValues.1 he)
  obtain ⟨g, hg, hkey⟩ := h.tableOk.keys _ vv hfind
  refine ⟨g, Nat.lt_trans hg (by decide), ?_⟩
  rcases hkey with hkey | ⟨v, hkey⟩
  · exact hkey ▸ List.prefix_append _ _
  · exact hkey ▸ List.prefix_append _ _

/-- As long as no client retransmits one removal 2^32 times, the checker accepts the
database in every state. -/
theorem check_accepts (h : (system nclients).ReachableBy TriesFit s) : check s.db = none := by
  obtain ⟨oldss, newss, hinv⟩ := reachable_inv h
  exact hinv.check

/-! ## A removal sent 2^32 times -/

/-- A client writes three values, and then one over the first of them. -/
def overwriteRun : List (Label 1) :=
  [.choose 0 0 3 (List.replicate 7 '0'), .send 0, .serve 0, .receive 0 0,
   .send 0, .serve 0, .receive 0 0, .resume 0,
   .send 0, .serve 0, .receive 0 0, .resume 0,
   .send 0, .serve 0, .receive 0 0, .resume 0,
   .send 0, .serve 0, .receive 0 0,
   .send 0, .serve 0, .receive 0 0,
   .choose 0 0 1 (List.replicate 7 '1'), .send 0, .serve 0, .receive 0 0,
   .send 0, .serve 0, .receive 0 0, .resume 0, .send 0]

theorem overwriteRun_isSome : ((system 1).exec (start 1) overwriteRun).isSome = true := by
  decide +kernel

/-- Three values were written, the first was overwritten, and the removal of the second
is on its way. -/
def overwriteState : State 1 :=
  ((system 1).exec (start 1) overwriteRun).get overwriteRun_isSome

theorem check_accepts_example : check overwriteState.db = none := by
  refine check_accepts (.of_exec (.init ⟨by decide, rfl⟩) ?_
    (Option.some_get overwriteRun_isSome).symm)
  exact Transition.Machine.within_of_forall _ (by simp [overwriteRun, TriesFit])

/-- The client times out and sends its request again, and the network loses it. -/
def lostRetry (i : Fin nclients) (k : Nat) : List (Label nclients) :=
  [.timeout i, .send i, .loseRequest i k]

/-- The state after `k` lost retries. -/
def retried (s : State nclients) (i : Fin nclients) (k : Nat) : State nclients :=
  s.setClient i { s.clients i with tries := ((s.clients i).tries + k) % unsignedModulus }

theorem retried_retried (i : Fin nclients) (k k' : Nat) :
    retried (retried s i k) i k' = retried s i (k + k') := by
  simp only [retried, State.setClient_self, State.setClient_setClient, Nat.mod_add_mod,
    Nat.add_assoc]

theorem exec_lostRetry {i : Fin nclients} {phase : Phase} (hpc : (s.clients i).pc = .wait phase) :
    (system nclients).exec s (lostRetry i (s.requests i).length) = some (retried s i 1) := by
  have herase (req : Request) :
      (s.requests i ++ [req]).eraseIdx (s.requests i).length = s.requests i := by
    rw [List.eraseIdx_append_of_length_le (Nat.le_refl _), Nat.sub_self]
    exact List.append_nil _
  simp only [retried, lostRetry, Transition.Machine.exec, system, step, hpc, State.setClient,
    Client.retry, Function.update_self, Function.update_idem, Option.bind_some, herase,
    Function.update_eq_self]

theorem exec_lostRetries {i : Fin nclients} {phase : Phase}
    (hpc : (s.clients i).pc = .wait phase) (ht : (s.clients i).tries < unsignedModulus) (k : Nat) :
    (system nclients).exec s (List.replicate k (lostRetry i (s.requests i).length)).flatten =
      some (retried s i k) := by
  induction k generalizing s with
  | zero =>
    have hs : retried s i 0 = s := by
      rw [retried, Nat.add_zero, Nat.mod_eq_of_lt ht, State.setClient, Function.update_eq_self]
    rw [hs]
    rfl
  | succ k ih =>
    have hpc' : ((retried s i 1).clients i).pc = .wait phase := by
      rw [retried, State.setClient_self]
      exact hpc
    have ht' : ((retried s i 1).clients i).tries < unsignedModulus := by
      rw [retried, State.setClient_self]
      exact Nat.mod_lt _ (by decide)
    rw [List.replicate_succ, List.flatten_cons,
      Transition.Machine.exec_append (exec_lostRetry hpc), Nat.add_comm k, ← retried_retried]
    exact ih hpc' ht'

/-- The removal is processed, its response is lost, and it is sent again. -/
def resentRun : List (Label 1) := overwriteRun ++ [.serve 0, .loseResponse 0, .timeout 0, .send 0]

theorem resentRun_isSome : ((system 1).exec (start 1) resentRun).isSome = true := by
  decide +kernel

def resentState : State 1 := ((system 1).exec (start 1) resentRun).get resentRun_isSome

/-- The response to the second copy, and the release of the lock. -/
def unlockRun : List (Label 1) := [.serve 0, .receive 0 0, .send 0, .serve 0]

theorem unlockRun_isSome : ((system 1).exec (retried resentState 0 (unsignedModulus - 1))
    unlockRun).isSome = true := by decide +kernel

def wrappedState : State 1 :=
  ((system 1).exec (retried resentState 0 (unsignedModulus - 1)) unlockRun).get unlockRun_isSome

/-- After 2^32 retries the response is taken for one to the first try, and the client
unlocks a group that it has not cleared. -/
theorem wrappedState_alarm :
    (system 1).Reachable wrappedState ∧ check wrappedState.db ≠ none := by
  have hinit : (system 1).init (start 1) := ⟨by decide, rfl⟩
  have hpc : (resentState.clients 0).pc = .wait .clear := by decide +kernel
  have ht : (resentState.clients 0).tries < unsignedModulus := by decide +kernel
  have hresent : (system 1).Reachable resentState := .of_get hinit resentRun_isSome
  have hloop := hresent.of_exec (exec_lostRetries hpc ht (unsignedModulus - 1))
  exact ⟨hloop.of_exec (Option.some_get unlockRun_isSome).symm, by decide +kernel⟩

end LockSeq
end Psets
