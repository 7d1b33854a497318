/-
The invariant of the rotating coordinator.

Each step either leaves the history alone and moves one party (`Inv.move`), or
sends a PREPARE, or extends the history by a proposal or by an adoption.
-/
import Psets.Quorum.RotatingCoordinator

namespace Psets
namespace Quorum

variable {n : Nat} {V : Type} {initial : Fin n → V}

/-! ## What a history that grows keeps -/

namespace History

/-- `g'` extends `g`. -/
structure Le (g g' : History n V) : Prop where
  proposal : ∀ r v, g.proposal r = some v → g'.proposal r = some v
  adopted : ∀ r, g.adopted r ⊆ g'.adopted r

theorem Le.chosen {g g' : History n V} (h : g.Le g') {v : V} (hv : g.Chosen v) :
    g'.Chosen v := by
  obtain ⟨r, hp, hc⟩ := hv
  exact ⟨r, h.proposal r v hp, Nat.lt_of_lt_of_le hc (Finset.card_le_card (h.adopted r))⟩

theorem Le.stamped {g g' : History n V} (h : g.Le g') {v : V} {ts : Nat}
    (hv : Stamped initial g v ts) : Stamped initial g' v ts := by
  rcases hv with h0 | ⟨hpos, hp⟩
  · exact Or.inl h0
  · exact Or.inr ⟨hpos, h.proposal ts v hp⟩

theorem Le.msgOk {g g' : History n V} (h : g.Le g') {m : Msg V}
    (hm : MsgOk initial g m) : MsgOk initial g' m := by
  cases m with
  | prepare r v ts => exact ⟨hm.1, h.stamped hm.2⟩
  | propose r v => exact h.proposal r v hm
  | ack r b => trivial
  | decide v => exact h.chosen hm

end History

/-! ## Moving one party -/

theorem Past.round_le {r : Nat} {p : Party V} (h : Past r p) : r ≤ p.round := by
  rcases h with h | ⟨h, _⟩ <;> omega

/-- A set of parties described by `P` only grows when `P` survives the move. -/
theorem card_filter_put_le {c : Config n V} {i : Fin n} {p : Party V}
    {bag : Multiset (Msg V)} {A : Finset (Fin n)} {P : Party V → Prop} [DecidablePred P]
    (h : i ∉ A → P (c.party i) → P p) :
    (Finset.univ.filter fun j => j ∉ A ∧ P (c.party j)).card ≤
      (Finset.univ.filter fun j => j ∉ A ∧ P ((c.put i p bag).party j)).card := by
  refine Finset.card_le_card fun j hj => ?_
  simp only [Finset.mem_filter, Finset.mem_univ, true_and] at hj ⊢
  refine ⟨hj.1, ?_⟩
  by_cases hji : j = i
  · subst hji
    rw [Config.put_party_self]
    exact h hj.1 hj.2
  · rw [Config.put_party_ne c hji]
    exact hj.2

theorem passed_put_le {g : History n V} {c : Config n V} {i : Fin n} {p : Party V}
    {bag : Multiset (Msg V)} (r : Nat) {r' : Nat}
    (h : i ∉ g.adopted r → Past r' (c.party i) → Past r' p) :
    (passed g c r r').card ≤ (passed g (c.put i p bag) r r').card :=
  card_filter_put_le h

theorem refused_put_le {g : History n V} {c : Config n V} {i : Fin n} {p : Party V}
    {bag : Multiset (Msg V)} (r : Nat) (h : (c.party i).round ≤ p.round) :
    (refused g c r).card ≤ (refused g (c.put i p bag) r).card :=
  card_filter_put_le (P := fun q => r < q.round) fun _ hr => Nat.lt_of_lt_of_le hr h

/-- A step that keeps the history: what is left to show is about the party that
moved and about the messages in flight. -/
theorem Inv.move {g : History n V} {c : Config n V} (h : Inv initial g c) (i : Fin n)
    {p : Party V} {bag : Multiset (Msg V)} (hp : PartyOk initial g i p)
    (hpast : ∀ r, Past r (c.party i) → Past r p)
    (hround : (c.party i).round ≤ p.round)
    (hbag : ∀ m ∈ bag, MsgOk initial g m)
    (hacks : ∀ r, bag.countP (fun m => isAck r m = true) ≤
        c.bag.countP (fun m => isAck r m = true) ∧
      counted r p + bag.countP (fun m => isAck r m = true) ≤
        counted r (c.party i) + c.bag.countP (fun m => isAck r m = true))
    (hprep : ∀ r r', bag.countP (fun m => isStale r r' m = true) ≤
        c.bag.countP (fun m => isStale r r' m = true) ∧
      gathered r r' p + bag.countP (fun m => isStale r r' m = true) ≤
        gathered r r' (c.party i) + c.bag.countP (fun m => isStale r r' m = true)) :
    Inv initial g (c.put i p bag) where
  valid := h.valid
  party j := by
    by_cases hji : j = i
    · subst hji
      rw [Config.put_party_self]
      exact hp
    · rw [Config.put_party_ne c hji]
      exact h.party j
  bag := hbag
  acks j r := by
    rw [Config.put_bag]
    obtain ⟨hle, hself⟩ := hacks r
    by_cases hji : j = i
    · subst hji
      rw [Config.put_party_self]
      exact Nat.le_trans hself (h.acks j r)
    · rw [Config.put_party_ne c hji]
      exact Nat.le_trans (Nat.add_le_add_left hle _) (h.acks j r)
  prepares j r r' hr := by
    rw [Config.put_bag]
    refine Nat.le_trans ?_ (passed_put_le r fun _ => hpast r')
    obtain ⟨hle, hself⟩ := hprep r r'
    by_cases hji : j = i
    · subst hji
      rw [Config.put_party_self]
      exact Nat.le_trans hself (h.prepares j r r' hr)
    · rw [Config.put_party_ne c hji]
      exact Nat.le_trans (Nat.add_le_add_left hle _) (h.prepares j r r' hr)
  locked r r' v hpos hr hv := by
    rcases h.locked r r' v hpos hr hv with he | hlt
    · exact Or.inl he
    · exact Or.inr (Nat.lt_of_lt_of_le hlt (refused_put_le r hround))

/-- `Inv.move` for a step whose message, if it sends one, the inequalities do not
count. -/
theorem Inv.move_quiet {g : History n V} {c : Config n V} (h : Inv initial g c) (i : Fin n)
    {p : Party V} {bag : Multiset (Msg V)} (hp : PartyOk initial g i p)
    (hpast : ∀ r, Past r (c.party i) → Past r p)
    (hround : (c.party i).round ≤ p.round)
    (hbag : ∀ m ∈ bag, MsgOk initial g m)
    (hacks : ∀ r, bag.countP (fun m => isAck r m = true) ≤
      c.bag.countP (fun m => isAck r m = true))
    (hprep : ∀ r r', bag.countP (fun m => isStale r r' m = true) ≤
      c.bag.countP (fun m => isStale r r' m = true))
    (hcounted : ∀ r, counted r p = 0 ∨ counted r p = counted r (c.party i))
    (hgathered : ∀ r r', gathered r r' p = 0 ∨
      gathered r r' p = gathered r r' (c.party i)) :
    Inv initial g (c.put i p bag) := by
  refine h.move i hp hpast hround hbag (fun r => ⟨hacks r, ?_⟩) (fun r r' => ⟨hprep r r', ?_⟩)
  · have := hacks r
    rcases hcounted r with hc | hc <;> omega
  · have := hprep r r'
    rcases hgathered r r' with hc | hc <;> omega

/-! ## The steps that keep the history -/

theorem Inv.lose {g : History n V} {c : Config n V} (h : Inv initial g c) {m : Msg V}
    {rest : Multiset (Msg V)} (hb : c.bag = m ::ₘ rest) :
    Inv initial g { c with bag := rest } where
  valid := h.valid
  party := h.party
  bag m' hm := h.bag m' (hb ▸ Multiset.mem_cons_of_mem hm)
  acks i r := by
    have := h.acks i r
    rw [hb, Multiset.countP_cons] at this
    show counted r (c.party i) + rest.countP _ ≤ _
    omega
  prepares i r r' hr := by
    have := h.prepares i r r' hr
    rw [hb, Multiset.countP_cons] at this
    show gathered r r' (c.party i) + rest.countP _ ≤ (passed g c r r').card
    omega
  locked := h.locked

/-- A party that moves to another stage of the same round. -/
theorem PartyOk.restage {g : History n V} {i : Fin n} {p : Party V}
    (hp : PartyOk initial g i p) {st : Stage} (hold : p.stage ≠ .stopped)
    (hnew : st ≠ .stopped)
    (hleader : st = .proposing ∨ (∃ k, st = .collecting k) ∨ (∃ s t, st = .counting s t) →
      i.val = p.round % n)
    (hearly : p.stage.early = false → st.early = false)
    (hled : i.val = p.round % n → st.led = true → g.proposal p.round = some p.value)
    (hans : p.stage.answered = true → st.answered = true) :
    PartyOk initial g i (p.goto st) where
  round_pos := hp.round_pos
  leader := hleader
  proposed r v hv hr := by
    rcases hp.proposed r v hv hr with hlt | ⟨he, hs⟩
    · exact Or.inl hlt
    · exact Or.inr ⟨he, hearly hs⟩
  leads := hled
  stamped _ := hp.stamped hold
  stamp_le _ := by
    rcases hp.stamp_le hold with hlt | ⟨he, hs⟩
    · exact Or.inl hlt
    · exact Or.inr ⟨he, hans hs⟩
  adopted_round r hr := by
    rcases hp.adopted_round r hr with hlt | ⟨he, hs | hs⟩
    · exact Or.inl hlt
    · exact Or.inr ⟨he, Or.inl (hans hs)⟩
    · exact absurd hs hold
  adopted_stamp r hr _ := hp.adopted_stamp r hr hold
  stopped hst := absurd hst hnew

/-- A party that has left `ready` stays past the same rounds. -/
theorem Past.restage {r : Nat} {p : Party V} {st : Stage} (h : Past r p)
    (hst : st ≠ .ready) : Past r (p.goto st) := by
  rcases h with h | ⟨h, _⟩
  · exact Or.inl h
  · exact Or.inr ⟨h, hst⟩

theorem gathered_of_ne {r r' : Nat} {p : Party V} (h : ∀ k, p.stage ≠ .collecting k) :
    gathered r r' p = 0 := by
  unfold gathered
  split
  · next k hk => exact absurd hk (h k)
  · rfl

theorem counted_of_ne {r : Nat} {p : Party V} (h : ∀ s t, p.stage ≠ .counting s t) :
    counted r p = 0 := by
  unfold counted
  split
  · next s t hs => exact absurd hs (h s t)
  · rfl

theorem isAck_ack (r q : Nat) (b : Bool) :
    isAck r (.ack q b : Msg V) = (q == r && b) := rfl

theorem isStale_prepare (r r' q : Nat) (v : V) (ts : Nat) :
    isStale r r' (.prepare q v ts) = (q == r' && decide (ts < r)) := rfl

/-- A message no inequality counts can join the bag. -/
theorem countP_cons_quiet {f : Msg V → Bool} {m : Msg V} {bag : Multiset (Msg V)}
    (h : f m = false) :
    (m ::ₘ bag).countP (fun m => f m = true) = bag.countP (fun m => f m = true) := by
  rw [Multiset.countP_cons, h]
  simp

theorem Inv.gather {g : History n V} {c : Config n V} (h : Inv initial g c) (i : Fin n)
    (hs : (c.party i).stage = .prepared) (hi : i.val = (c.party i).round % n) :
    Inv initial g (c.put i ((c.party i).goto (.collecting 0)) c.bag) := by
  refine h.move_quiet i ?_ (fun r hr => hr.restage (by simp)) (Nat.le_refl _) h.bag
    (fun _ => Nat.le_refl _) (fun _ _ => Nat.le_refl _) (fun r => Or.inl rfl)
    (fun r r' => Or.inl ?_)
  · exact (h.party i).restage (by simp [hs]) (by simp) (fun _ => hi)
      (by simp [hs, Stage.early]) (fun _ hl => by simp [Stage.led] at hl)
      (by simp [hs, Stage.answered])
  · rw [gathered_goto_collecting, ite_self]

theorem Inv.await {g : History n V} {c : Config n V} (h : Inv initial g c) (i : Fin n)
    (hs : (c.party i).stage = .proposing ∨
      (c.party i).stage = .prepared ∧ i.val ≠ (c.party i).round % n) :
    Inv initial g (c.put i ((c.party i).goto .waiting) c.bag) := by
  have hp := h.party i
  refine h.move_quiet i ?_ (fun r hr => hr.restage (by simp)) (Nat.le_refl _) h.bag
    (fun _ => Nat.le_refl _) (fun _ _ => Nat.le_refl _) (fun r => Or.inl rfl)
    (fun r r' => Or.inl rfl)
  refine hp.restage ?_ (by simp) (by simp) (fun _ => rfl) (fun hi _ => ?_) ?_
  · rcases hs with hs | ⟨hs, _⟩ <;> simp [hs]
  · rcases hs with hs | ⟨_, hne⟩
    · exact hp.leads hi (by simp [hs, Stage.led])
    · exact absurd hi hne
  · rcases hs with hs | ⟨hs, _⟩ <;> simp [hs, Stage.answered]

theorem Inv.refuse {g : History n V} {c : Config n V} (h : Inv initial g c) (i : Fin n)
    (hs : (c.party i).stage = .waiting) :
    Inv initial g (c.put i ((c.party i).goto .acked)
      (.ack (c.party i).round false ::ₘ c.bag)) := by
  have hp := h.party i
  refine h.move_quiet i ?_ (fun r hr => hr.restage (by simp)) (Nat.le_refl _) ?_
    (fun r => ?_) (fun r r' => ?_) (fun r => Or.inl rfl) (fun r r' => Or.inl rfl)
  · exact hp.restage (by simp [hs]) (by simp) (by simp) (fun _ => rfl)
      (fun hi _ => hp.leads hi (by simp [hs, Stage.led])) (fun _ => rfl)
  · intro m hm
    rcases Multiset.mem_cons.1 hm with rfl | hm
    · trivial
    · exact h.bag m hm
  · rw [countP_cons_quiet (by simp [isAck])]
  · rw [countP_cons_quiet rfl]

theorem Inv.tally {g : History n V} {c : Config n V} (h : Inv initial g c) (i : Fin n)
    (hs : (c.party i).stage = .acked) (hi : i.val = (c.party i).round % n) :
    Inv initial g (c.put i ((c.party i).goto (.counting 0 0)) c.bag) := by
  have hp := h.party i
  refine h.move_quiet i ?_ (fun r hr => hr.restage (by simp)) (Nat.le_refl _) h.bag
    (fun _ => Nat.le_refl _) (fun _ _ => Nat.le_refl _) (fun r => Or.inl ?_)
    (fun r r' => Or.inl rfl)
  · exact hp.restage (by simp [hs]) (by simp) (fun _ => hi) (fun _ => rfl)
      (fun hi _ => hp.leads hi (by simp [hs, Stage.led])) (fun _ => rfl)
  · rw [counted_goto_counting, ite_self]

theorem Inv.count {g : History n V} {c : Config n V} (h : Inv initial g c) (i : Fin n)
    {s t : Nat} {b : Bool} {rest : Multiset (Msg V)}
    (hs : (c.party i).stage = .counting s t)
    (hb : c.bag = .ack (c.party i).round b ::ₘ rest) :
    Inv initial g (c.put i
      ((c.party i).goto (.counting (if b then s + 1 else s) (t + 1))) rest) := by
  have hp := h.party i
  refine h.move i ?_ (fun r hr => hr.restage (by simp)) (Nat.le_refl _)
    (fun m hm => h.bag m (hb ▸ Multiset.mem_cons_of_mem hm)) (fun r => ?_) (fun r r' => ?_)
  · exact hp.restage (by simp [hs]) (by simp)
      (fun _ => hp.leader (Or.inr (Or.inr ⟨s, t, hs⟩))) (fun _ => rfl)
      (fun hi _ => hp.leads hi (by simp [hs, Stage.led])) (fun _ => rfl)
  · -- the acknowledgement leaves the bag and, when positive, joins the count
    rw [hb, Multiset.countP_cons]
    refine ⟨Nat.le_add_right _ _, ?_⟩
    simp only [counted, hs, isAck]
    by_cases hr : (c.party i).round = r <;> cases b <;> simp [hr]
    omega
  · rw [hb, countP_cons_quiet rfl]
    refine ⟨Nat.le_refl _, ?_⟩
    rw [gathered_of_ne (by simp)]
    omega

/-- The coordinator keeps the latest stamp it has seen, so a stamp before `r`
after the step was before `r` all along. -/
theorem Inv.collect {g : History n V} {c : Config n V} (h : Inv initial g c) (i : Fin n)
    {k : Nat} {v : V} {ts : Nat} {rest : Multiset (Msg V)}
    (hs : (c.party i).stage = .collecting k)
    (hb : c.bag = .prepare (c.party i).round v ts ::ₘ rest) :
    Inv initial g (c.put i ((c.party i).gather (k + 1) v ts) rest) := by
  have hp := h.party i
  have hm : ts < (c.party i).round ∧ Stamped initial g v ts :=
    h.bag (.prepare (c.party i).round v ts) (hb ▸ Multiset.mem_cons_self _ _)
  have hrest : ∀ m ∈ rest, MsgOk initial g m :=
    fun m hm => h.bag m (hb ▸ Multiset.mem_cons_of_mem hm)
  have hre : PartyOk initial g i ((c.party i).goto (.collecting (k + 1))) :=
    hp.restage (by simp [hs]) (by simp)
      (fun _ => hp.leader (Or.inr (Or.inl ⟨k, hs⟩))) (by simp [hs, Stage.early])
      (fun _ hl => by simp [Stage.led] at hl) (by simp [hs, Stage.answered])
  have hacks : ∀ r, rest.countP (fun m => isAck r m = true) =
      c.bag.countP (fun m => isAck r m = true) := by
    intro r
    rw [hb, countP_cons_quiet rfl]
  rcases Nat.lt_or_ge (c.party i).stamp ts with hlt | hge
  · rw [Party.gather_of_lt hlt]
    refine h.move i ?_ ?_ (Nat.le_refl _) hrest (fun r => ⟨(hacks r).le, ?_⟩)
      (fun r r' => ?_)
    · exact { hre with
        leads := fun _ hl => by simp [Stage.led] at hl
        stamped := fun _ => hm.2
        stamp_le := fun _ => Or.inl hm.1
        adopted_stamp := fun r hr _ =>
          Nat.le_of_lt (Nat.lt_of_le_of_lt (hp.adopted_stamp r hr (by simp [hs])) hlt)
        stopped := fun hst => by simp at hst }
    · rintro r (hr | ⟨hr, _⟩)
      · exact Or.inl hr
      · exact Or.inr ⟨hr, by simp⟩
    · rw [counted_of_ne (by simp), hacks r]
      omega
    · rw [hb, Multiset.countP_cons]
      refine ⟨Nat.le_add_right _ _, ?_⟩
      simp only [gathered, hs, isStale_prepare, Bool.and_eq_true, beq_iff_eq,
        decide_eq_true_eq]
      split <;> split <;> omega
  · rw [Party.gather_of_le hge]
    refine h.move i hre (fun r hr => hr.restage (by simp)) (Nat.le_refl _) hrest
      (fun r => ⟨(hacks r).le, ?_⟩) (fun r r' => ?_)
    · rw [counted_of_ne (by simp), hacks r]
      omega
    · rw [hb, Multiset.countP_cons]
      refine ⟨Nat.le_add_right _ _, ?_⟩
      rw [gathered_goto_collecting]
      simp only [gathered, hs, isStale_prepare, Bool.and_eq_true, beq_iff_eq,
        decide_eq_true_eq]
      split <;> split <;> omega

theorem Inv.advance {g : History n V} {c : Config n V} (h : Inv initial g c) (i : Fin n)
    (hs : (c.party i).stage.answered = true) :
    Inv initial g (c.put i
      { c.party i with round := (c.party i).round + 1, stage := .ready } c.bag) := by
  have hp := h.party i
  have hne : (c.party i).stage ≠ .stopped := by
    intro he
    rw [he] at hs
    simp [Stage.answered] at hs
  refine h.move_quiet i ?_ ?_ (Nat.le_succ _) h.bag (fun _ => Nat.le_refl _)
    (fun _ _ => Nat.le_refl _) (fun r => Or.inl rfl) (fun r r' => Or.inl rfl)
  · exact
      { round_pos := Nat.succ_pos _
        leader := by simp
        proposed := fun r v hv hr => by
          rcases hp.proposed r v hv hr with hlt | ⟨he, _⟩
          · exact Or.inl (Nat.lt_succ_of_lt hlt)
          · exact Or.inl (he ▸ Nat.lt_succ_self _)
        leads := fun _ hl => by simp [Stage.led] at hl
        stamped := fun _ => hp.stamped hne
        stamp_le := fun _ => by
          rcases hp.stamp_le hne with hlt | ⟨he, _⟩
          · exact Or.inl (Nat.lt_succ_of_lt hlt)
          · exact Or.inl (he ▸ Nat.lt_succ_self _)
        adopted_round := fun r hr => by
          rcases hp.adopted_round r hr with hlt | ⟨he, _⟩
          · exact Or.inl (Nat.lt_succ_of_lt hlt)
          · exact Or.inl (he ▸ Nat.lt_succ_self _)
        adopted_stamp := fun r hr _ => hp.adopted_stamp r hr hne
        stopped := fun hst => by simp at hst }
  · intro r hr
    exact Or.inl (Nat.lt_succ_of_le hr.round_le)

/-- The acknowledgements a coordinator counted came from distinct adopters. -/
theorem Inv.decide {g : History n V} {c : Config n V} (h : Inv initial g c) (i : Fin n)
    {s t : Nat} (hs : (c.party i).stage = .counting s t) (hmaj : n / 2 < s) :
    Inv initial g (c.put i ((c.party i).goto .stopped) c.bag) := by
  have hp := h.party i
  have hi : i.val = (c.party i).round % n := hp.leader (Or.inr (Or.inr ⟨s, t, hs⟩))
  have hchosen : g.Chosen (c.party i).value := by
    refine ⟨(c.party i).round, hp.leads hi (by simp [hs, Stage.led]), ?_⟩
    have hc := h.acks i (c.party i).round
    have hcount : counted (c.party i).round (c.party i) = s := by simp [counted, hs]
    omega
  refine h.move_quiet i ?_ (fun r hr => hr.restage (by simp)) (Nat.le_refl _) h.bag
    (fun _ => Nat.le_refl _) (fun _ _ => Nat.le_refl _) (fun r => Or.inl rfl)
    (fun r r' => Or.inl rfl)
  exact
    { round_pos := hp.round_pos
      leader := by simp
      proposed := fun r v hv hr => by
        rcases hp.proposed r v hv hr with hlt | ⟨he, _⟩
        · exact Or.inl hlt
        · exact Or.inr ⟨he, rfl⟩
      leads := fun _ hl => by simp [Stage.led] at hl
      stamped := fun hne => absurd rfl hne
      stamp_le := fun hne => absurd rfl hne
      adopted_round := fun r hr => by
        rcases hp.adopted_round r hr with hlt | ⟨he, _⟩
        · exact Or.inl hlt
        · exact Or.inr ⟨he, Or.inr rfl⟩
      adopted_stamp := fun _ _ hne => absurd rfl hne
      stopped := fun _ => hchosen }

theorem Inv.hear {g : History n V} {c : Config n V} (h : Inv initial g c) (i : Fin n)
    {v : V} {rest : Multiset (Msg V)} (hb : c.bag = .decide v ::ₘ rest) :
    Inv initial g (c.put i { c.party i with value := v, stage := .stopped } rest) := by
  have hp := h.party i
  have hchosen : g.Chosen v := h.bag (.decide v) (hb ▸ Multiset.mem_cons_self _ _)
  refine h.move_quiet i ?_ ?_ (Nat.le_refl _)
    (fun m hm => h.bag m (hb ▸ Multiset.mem_cons_of_mem hm)) (fun r => ?_) (fun r r' => ?_)
    (fun r => Or.inl rfl) (fun r r' => Or.inl rfl)
  · exact
      { round_pos := hp.round_pos
        leader := by simp
        proposed := fun r w hw hr => by
          rcases hp.proposed r w hw hr with hlt | ⟨he, _⟩
          · exact Or.inl hlt
          · exact Or.inr ⟨he, rfl⟩
        leads := fun _ hl => by simp [Stage.led] at hl
        stamped := fun hne => absurd rfl hne
        stamp_le := fun hne => absurd rfl hne
        adopted_round := fun r hr => by
          rcases hp.adopted_round r hr with hlt | ⟨he, _⟩
          · exact Or.inl hlt
          · exact Or.inr ⟨he, Or.inr rfl⟩
        adopted_stamp := fun _ _ hne => absurd rfl hne
        stopped := fun _ => hchosen }
  · rintro r (hr | ⟨hr, _⟩)
    · exact Or.inl hr
    · exact Or.inr ⟨hr, by simp⟩
  · rw [hb, countP_cons_quiet rfl]
  · rw [hb, countP_cons_quiet rfl]

/-- A party that stays as it is and sends a message the history vouches for. -/
theorem Inv.send {g : History n V} {c : Config n V} (h : Inv initial g c) (i : Fin n)
    {m : Msg V} (hm : MsgOk initial g m) (hack : ∀ r, isAck r m = false)
    (hstale : ∀ r r', isStale r r' m = false) :
    Inv initial g (c.put i (c.party i) (m ::ₘ c.bag)) := by
  refine h.move_quiet i (h.party i) (fun _ hr => hr) (Nat.le_refl _) (fun m' hm' => ?_)
    (fun r => ?_) (fun r r' => ?_) (fun r => Or.inr rfl) (fun r r' => Or.inr rfl)
  · rcases Multiset.mem_cons.1 hm' with rfl | hm'
    · exact hm
    · exact h.bag m' hm'
  · rw [countP_cons_quiet (hack r)]
  · rw [countP_cons_quiet (hstale r r')]

/-- Sending a PREPARE stamped before `r` makes the sender one of the parties that
passed `r` without adopting it, which pays for the message. -/
theorem Inv.prepare {g : History n V} {c : Config n V} (h : Inv initial g c) (i : Fin n)
    (hs : (c.party i).stage = .ready) :
    Inv initial g (c.put i ((c.party i).goto .prepared)
      (.prepare (c.party i).round (c.party i).value (c.party i).stamp ::ₘ c.bag)) := by
  have hp := h.party i
  have hns : (c.party i).stage ≠ .stopped := by simp [hs]
  have hlt : (c.party i).stamp < (c.party i).round := by
    have := hp.stamp_le hns
    simpa [hs, Stage.answered] using this
  refine
    { valid := h.valid
      party := fun j => ?_
      bag := fun m hm => ?_
      acks := fun j r => ?_
      prepares := fun j r r' hr => ?_
      locked := fun r r' v hpos hr hv => ?_ }
  · by_cases hji : j = i
    · subst hji
      rw [Config.put_party_self]
      exact hp.restage hns (by simp) (by simp) (by simp [hs, Stage.early])
        (fun _ hl => by simp [Stage.led] at hl) (by simp [hs, Stage.answered])
    · rw [Config.put_party_ne c hji]
      exact h.party j
  · rcases Multiset.mem_cons.1 hm with rfl | hm
    · exact ⟨hlt, hp.stamped hns⟩
    · exact h.bag m hm
  · rw [Config.put_bag, countP_cons_quiet rfl]
    by_cases hji : j = i
    · subst hji
      rw [Config.put_party_self, counted_of_ne (by simp)]
      have := h.acks j r
      omega
    · rw [Config.put_party_ne c hji]
      exact h.acks j r
  · have hg : gathered r r' ((c.put i ((c.party i).goto .prepared)
        (.prepare (c.party i).round (c.party i).value (c.party i).stamp ::ₘ c.bag)).party j) ≤
        gathered r r' (c.party j) := by
      by_cases hji : j = i
      · subst hji
        rw [Config.put_party_self, gathered_of_ne (by simp)]
        exact Nat.zero_le _
      · rw [Config.put_party_ne c hji]
    have hold := h.prepares j r r' hr
    rw [Config.put_bag, Multiset.countP_cons]
    simp only [isStale_prepare, Bool.and_eq_true, beq_iff_eq, decide_eq_true_eq]
    split
    · -- the new member of `passed` is `i` itself
      next hc =>
      have hnew : passed g c r r' ⊂ passed g (c.put i ((c.party i).goto .prepared)
          (.prepare (c.party i).round (c.party i).value (c.party i).stamp ::ₘ c.bag)) r r' := by
        refine Finset.ssubset_iff_of_subset (fun j hj => ?_) |>.2 ⟨i, ?_, ?_⟩
        · simp only [passed, Finset.mem_filter, Finset.mem_univ, true_and] at hj ⊢
          refine ⟨hj.1, ?_⟩
          by_cases hji : j = i
          · subst hji
            rw [Config.put_party_self]
            exact hj.2.restage (by simp)
          · rw [Config.put_party_ne c hji]
            exact hj.2
        · simp only [passed, Finset.mem_filter, Finset.mem_univ, true_and,
            Config.put_party_self]
          refine ⟨fun hi => ?_, Or.inr ⟨hc.1.symm, by simp⟩⟩
          have := hp.adopted_stamp r hi hns
          omega
        · intro hi
          simp only [passed, Finset.mem_filter, Finset.mem_univ, true_and] at hi
          rcases hi.2 with h' | ⟨_, h'⟩
          · omega
          · exact h' hs
      have := Finset.card_lt_card hnew
      omega
    · have hpast : (passed g c r r').card ≤ (passed g (c.put i ((c.party i).goto .prepared)
          (.prepare (c.party i).round (c.party i).value (c.party i).stamp ::ₘ c.bag)) r
          r').card := passed_put_le r fun _ hpast => hpast.restage (by simp)
      omega
  · rcases h.locked r r' v hpos hr hv with he | hlt
    · exact Or.inl he
    · exact Or.inr (Nat.lt_of_lt_of_le hlt (refused_put_le r (Nat.le_refl _)))

/-! ## The steps that extend the history -/

/-- The majority that sent the gathered PREPAREs either passed `r` unadopted, or
one of them adopted `r` or a later round, whose proposal the coordinator then
prefers. -/
theorem Inv.preferred {g : History n V} {c : Config n V} (h : Inv initial g c) (i : Fin n)
    {k : Nat} (hs : (c.party i).stage = .collecting k) (hmaj : n / 2 < k) {r : Nat}
    (hpos : 0 < r) (hr : r < (c.party i).round) :
    g.proposal r = some (c.party i).value ∨ n / 2 < (refused g c r).card := by
  have hns : (c.party i).stage ≠ .stopped := by simp [hs]
  have hst := (h.party i).stamped hns
  rcases Nat.lt_trichotomy (c.party i).stamp r with hlt | he | hgt
  · right
    have hg : gathered r (c.party i).round (c.party i) = k := by simp [gathered, hs, hlt]
    have hsub : passed g c r (c.party i).round ⊆ refused g c r := by
      intro j hj
      simp only [passed, refused, Finset.mem_filter, Finset.mem_univ, true_and] at hj ⊢
      exact ⟨hj.1, Nat.lt_of_lt_of_le hr hj.2.round_le⟩
    have hp := h.prepares i r (c.party i).round hr
    have := Finset.card_le_card hsub
    omega
  · left
    rcases hst with ⟨h0, _⟩ | ⟨_, hp⟩
    · omega
    · rw [← he]; exact hp
  · rcases hst with ⟨h0, _⟩ | ⟨_, hp⟩
    · omega
    · exact h.locked r (c.party i).stamp (c.party i).value hpos hgt hp

/-- The history in which round `r` proposes `v`. -/
def History.propose (g : History n V) (r : Nat) (v : V) : History n V :=
  { g with proposal := Function.update g.proposal r (some v) }

theorem History.proposal_propose (g : History n V) (r : Nat) (v : V) :
    (g.propose r v).proposal r = some v :=
  Function.update_self _ _ _

theorem History.proposal_propose_of_ne (g : History n V) {r q : Nat} (v : V) (hq : q ≠ r) :
    (g.propose r v).proposal q = g.proposal q :=
  Function.update_of_ne hq _ _

theorem History.le_propose {g : History n V} {r : Nat} (v : V) (h : g.proposal r = none) :
    g.Le (g.propose r v) where
  proposal q w hw := by
    by_cases hq : q = r
    · subst hq
      rw [h] at hw
      exact absurd hw (by simp)
    · rw [g.proposal_propose_of_ne v hq, hw]
  adopted q := Finset.Subset.refl _

/-- Only the coordinator of the new proposal notices it. -/
theorem PartyOk.propose {g : History n V} {j : Fin n} {p : Party V}
    (hp : PartyOk initial g j p) {r : Nat} {v : V} (hle : g.Le (g.propose r v))
    (hr : j.val = r % n → r < p.round ∨ r = p.round ∧ p.stage.early = false) :
    PartyOk initial (g.propose r v) j p where
  round_pos := hp.round_pos
  leader := hp.leader
  proposed q w hw hj := by
    by_cases hq : q = r
    · subst hq
      exact hr hj
    · refine hp.proposed q w ?_ hj
      rwa [g.proposal_propose_of_ne v hq] at hw
  leads hj hl := hle.proposal _ _ (hp.leads hj hl)
  stamped hns := hle.stamped (hp.stamped hns)
  stamp_le := hp.stamp_le
  adopted_round := hp.adopted_round
  adopted_stamp := hp.adopted_stamp
  stopped hst := hle.chosen (hp.stopped hst)

/-- The coordinator that makes the proposal. -/
theorem PartyOk.elect {g : History n V} {j : Fin n} {p : Party V} {k : Nat}
    (hp : PartyOk initial g j p) (hs : p.stage = .collecting k)
    (hle : g.Le (g.propose p.round p.value)) :
    PartyOk initial (g.propose p.round p.value) j (p.goto .proposing) := by
  have hns : p.stage ≠ .stopped := by simp [hs]
  exact
    { round_pos := hp.round_pos
      leader := fun _ => hp.leader (Or.inr (Or.inl ⟨k, hs⟩))
      proposed := fun r v hv hr => by
        by_cases hrp : r = p.round
        · exact Or.inr ⟨hrp, rfl⟩
        · rw [g.proposal_propose_of_ne _ hrp] at hv
          rcases hp.proposed r v hv hr with hlt | ⟨he, _⟩
          · exact Or.inl hlt
          · exact absurd he hrp
      leads := fun _ _ => g.proposal_propose _ _
      stamped := fun _ => hle.stamped (hp.stamped hns)
      stamp_le := fun _ => by
        rcases hp.stamp_le hns with hlt | ⟨_, ha⟩
        · exact Or.inl hlt
        · simp [hs, Stage.answered] at ha
      adopted_round := fun r hr => by
        rcases hp.adopted_round r hr with hlt | ⟨_, ha | ha⟩
        · exact Or.inl hlt
        · simp [hs, Stage.answered] at ha
        · exact absurd ha hns
      adopted_stamp := fun r hr _ => hp.adopted_stamp r hr hns
      stopped := fun hst => by simp at hst }

theorem Inv.elect {g : History n V} {c : Config n V} (h : Inv initial g c) (i : Fin n)
    {k : Nat} (hs : (c.party i).stage = .collecting k) (hmaj : n / 2 < k) :
    Inv initial (g.propose (c.party i).round (c.party i).value)
      (c.put i ((c.party i).goto .proposing) c.bag) := by
  have hp := h.party i
  have hi : i.val = (c.party i).round % n := hp.leader (Or.inr (Or.inl ⟨k, hs⟩))
  have hns : (c.party i).stage ≠ .stopped := by simp [hs]
  have hnone : g.proposal (c.party i).round = none := by
    rcases hw : g.proposal (c.party i).round with _ | w
    · rfl
    · rcases hp.proposed _ _ hw hi with hlt | ⟨_, he⟩
      · exact absurd hlt (Nat.lt_irrefl _)
      · simp [hs, Stage.early] at he
  have hle := History.le_propose (c.party i).value hnone
  refine
    { valid := fun r v hv => ?_
      party := fun j => ?_
      bag := fun m hm => hle.msgOk (h.bag m hm)
      acks := fun j r => ?_
      prepares := fun j r r' hr => ?_
      locked := fun r r' v hpos hr hv => ?_ }
  · by_cases hr : r = (c.party i).round
    · subst hr
      rw [g.proposal_propose] at hv
      obtain rfl := Option.some.inj hv
      refine ⟨hp.round_pos, ?_⟩
      rcases hp.stamped hns with ⟨_, hv⟩ | ⟨_, hv⟩
      · exact hv
      · exact (h.valid _ _ hv).2
    · rw [g.proposal_propose_of_ne _ hr] at hv
      exact h.valid r v hv
  · by_cases hji : j = i
    · subst hji
      rw [Config.put_party_self]
      exact hp.elect hs hle
    · rw [Config.put_party_ne c hji]
      exact (h.party j).propose hle fun hj => absurd (Fin.ext (hj.trans hi.symm)) hji
  · by_cases hji : j = i
    · subst hji
      rw [Config.put_party_self, counted_of_ne (by simp)]
      have := h.acks j r
      simp only [Config.put_bag, History.propose]
      omega
    · rw [Config.put_party_ne c hji]
      exact h.acks j r
  · have hpast : (passed g c r r').card ≤
        (passed g (c.put i ((c.party i).goto .proposing) c.bag) r r').card :=
      passed_put_le r fun _ hpast => hpast.restage (by simp)
    refine Nat.le_trans ?_ hpast
    rw [Config.put_bag]
    have hold := h.prepares j r r' hr
    by_cases hji : j = i
    · subst hji
      rw [Config.put_party_self, gathered_of_ne (by simp)]
      omega
    · rw [Config.put_party_ne c hji]
      exact hold
  · have hrefused : (refused g c r).card ≤ (refused
        (g.propose (c.party i).round (c.party i).value)
        (c.put i ((c.party i).goto .proposing) c.bag) r).card :=
      refused_put_le (g := g) r (Nat.le_refl _)
    have hold : g.proposal r = some v ∨ n / 2 < (refused g c r).card := by
      by_cases hr' : r' = (c.party i).round
      · subst hr'
        rw [g.proposal_propose] at hv
        obtain rfl := Option.some.inj hv
        exact h.preferred i hs hmaj hpos hr
      · rw [g.proposal_propose_of_ne _ hr'] at hv
        exact h.locked r r' v hpos hr hv
    rcases hold with he | hlt
    · exact Or.inl (hle.proposal r v he)
    · exact Or.inr (Nat.lt_of_lt_of_le hlt hrefused)

/-- The history in which `i` has adopted the proposal of round `r`. -/
def History.adopt (g : History n V) (r : Nat) (i : Fin n) : History n V :=
  { g with adopted := Function.update g.adopted r (insert i (g.adopted r)) }

theorem History.mem_adopt {g : History n V} {r q : Nat} {i j : Fin n} :
    j ∈ (g.adopt r i).adopted q ↔ j ∈ g.adopted q ∨ q = r ∧ j = i := by
  by_cases hq : q = r
  · subst hq
    simp [History.adopt, or_comm]
  · simp [History.adopt, hq]

theorem History.le_adopt (g : History n V) (r : Nat) (i : Fin n) : g.Le (g.adopt r i) where
  proposal _ _ hv := hv
  adopted _ _ hj := History.mem_adopt.2 (Or.inl hj)

theorem PartyOk.adopt {g : History n V} {i j : Fin n} {p : Party V}
    (hp : PartyOk initial g j p) (hji : j ≠ i) (r : Nat) :
    PartyOk initial (g.adopt r i) j p where
  round_pos := hp.round_pos
  leader := hp.leader
  proposed := hp.proposed
  leads := hp.leads
  stamped := hp.stamped
  stamp_le := hp.stamp_le
  adopted_round q hq := by
    rcases History.mem_adopt.1 hq with hq | ⟨_, he⟩
    · exact hp.adopted_round q hq
    · exact absurd he hji
  adopted_stamp q hq hns := by
    rcases History.mem_adopt.1 hq with hq | ⟨_, he⟩
    · exact hp.adopted_stamp q hq hns
    · exact absurd he hji
  stopped hst := (g.le_adopt r i).chosen (hp.stopped hst)

/-- A party that waits for a proposal has not answered its round. -/
theorem PartyOk.adopted_lt {g : History n V} {j : Fin n} {p : Party V}
    (hp : PartyOk initial g j p) (hs : p.stage = .waiting) {r : Nat} (hr : j ∈ g.adopted r) :
    r < p.round := by
  rcases hp.adopted_round r hr with hlt | ⟨_, ha | ha⟩
  · exact hlt
  · simp [hs, Stage.answered] at ha
  · simp [hs] at ha

/-- The party that adopts the proposal. -/
theorem PartyOk.adopted {g : History n V} {j : Fin n} {p : Party V} {v : V}
    (hp : PartyOk initial g j p) (hs : p.stage = .waiting)
    (hv : g.proposal p.round = some v) : PartyOk initial (g.adopt p.round j) j (p.adopt v) where
  round_pos := hp.round_pos
  leader := by simp
  proposed r w hw hr := by
    rcases hp.proposed r w hw hr with hlt | ⟨he, _⟩
    · exact Or.inl hlt
    · exact Or.inr ⟨he, rfl⟩
  leads _ _ := hv
  stamped _ := Or.inr ⟨hp.round_pos, hv⟩
  stamp_le _ := Or.inr ⟨rfl, rfl⟩
  adopted_round r hr := by
    rcases History.mem_adopt.1 hr with hr | ⟨hr, _⟩
    · exact Or.inl (hp.adopted_lt hs hr)
    · exact Or.inr ⟨hr, Or.inl rfl⟩
  adopted_stamp r hr _ := by
    rcases History.mem_adopt.1 hr with hr | ⟨hr, _⟩
    · exact Nat.le_of_lt (hp.adopted_lt hs hr)
    · exact Nat.le_of_eq hr
  stopped hst := by simp at hst

/-- A party about to adopt round `r` has not passed it, so dropping it from the
parties that did not adopt `r` loses nobody who was counted. -/
theorem card_filter_adopt_le {g : History n V} {c : Config n V} {i : Fin n} {p : Party V}
    {bag : Multiset (Msg V)} {q r : Nat} {P : Party V → Prop} [DecidablePred P]
    (hold : q = r → ¬ P (c.party i)) (hnew : P (c.party i) → P p) :
    (Finset.univ.filter fun j => j ∉ g.adopted q ∧ P (c.party j)).card ≤
      (Finset.univ.filter fun j =>
        j ∉ (g.adopt r i).adopted q ∧ P ((c.put i p bag).party j)).card := by
  refine Finset.card_le_card fun j hj => ?_
  simp only [Finset.mem_filter, Finset.mem_univ, true_and] at hj ⊢
  by_cases hji : j = i
  · subst hji
    rw [Config.put_party_self]
    refine ⟨fun hm => ?_, hnew hj.2⟩
    rcases History.mem_adopt.1 hm with hm | ⟨hq, _⟩
    · exact hj.1 hm
    · exact hold hq hj.2
  · rw [Config.put_party_ne c hji]
    refine ⟨fun hm => ?_, hj.2⟩
    rcases History.mem_adopt.1 hm with hm | ⟨_, he⟩
    · exact hj.1 hm
    · exact hji he

/-- The adopter pays for the acknowledgement it sends. -/
theorem Inv.adopt {g : History n V} {c : Config n V} (h : Inv initial g c) (i : Fin n)
    {v : V} {rest : Multiset (Msg V)} (hs : (c.party i).stage = .waiting)
    (hb : c.bag = .propose (c.party i).round v ::ₘ rest) :
    Inv initial (g.adopt (c.party i).round i) (c.put i ((c.party i).adopt v)
      (.ack (c.party i).round true ::ₘ rest)) := by
  have hp := h.party i
  have hns : (c.party i).stage ≠ .stopped := by simp [hs]
  have hv : g.proposal (c.party i).round = some v :=
    h.bag (.propose (c.party i).round v) (hb ▸ Multiset.mem_cons_self _ _)
  have hle := g.le_adopt (c.party i).round i
  have hlt : ∀ r, i ∈ g.adopted r → r < (c.party i).round := fun _ => hp.adopted_lt hs
  refine
    { valid := h.valid
      party := fun j => ?_
      bag := fun m hm => ?_
      acks := fun j r => ?_
      prepares := fun j r r' hr => ?_
      locked := fun r r' w hpos hr hw => ?_ }
  · by_cases hji : j = i
    · subst hji
      rw [Config.put_party_self]
      exact hp.adopted hs hv
    · rw [Config.put_party_ne c hji]
      exact (h.party j).adopt hji _
  · rcases Multiset.mem_cons.1 hm with rfl | hm
    · trivial
    · exact hle.msgOk (h.bag m (hb ▸ Multiset.mem_cons_of_mem hm))
  · have hold := h.acks j r
    rw [hb, countP_cons_quiet rfl] at hold
    rw [Config.put_bag, Multiset.countP_cons]
    have hcounted : counted r ((c.put i ((c.party i).adopt v)
        (.ack (c.party i).round true ::ₘ rest)).party j) ≤ counted r (c.party j) := by
      by_cases hji : j = i
      · subst hji
        rw [Config.put_party_self, counted_of_ne (by simp)]
        exact Nat.zero_le _
      · rw [Config.put_party_ne c hji]
    by_cases hr : r = (c.party i).round
    · subst hr
      have hcard : ((g.adopt (c.party i).round i).adopted (c.party i).round).card =
          (g.adopted (c.party i).round).card + 1 := by
        have hni : i ∉ g.adopted (c.party i).round :=
          fun hi => Nat.lt_irrefl _ (hlt _ hi)
        simp [History.adopt, Finset.card_insert_of_notMem hni]
      simp only [isAck_ack, beq_self_eq_true, Bool.and_self, if_true]
      omega
    · have hcard : ((g.adopt (c.party i).round i).adopted r) = g.adopted r := by
        simp [History.adopt, Function.update_of_ne hr]
      rw [hcard, if_neg (by simp [isAck, Ne.symm hr])]
      omega
  · have hold := h.prepares j r r' hr
    rw [hb, countP_cons_quiet rfl] at hold
    have hcard : (passed g c r r').card ≤
        (passed (g.adopt (c.party i).round i) (c.put i ((c.party i).adopt v)
        (.ack (c.party i).round true ::ₘ rest)) r r').card :=
      card_filter_adopt_le
        (fun hq hpast => absurd hpast.round_le (by omega))
        (fun hpast => hpast.imp id fun hst => ⟨hst.1, by simp⟩)
    refine Nat.le_trans ?_ hcard
    rw [Config.put_bag, countP_cons_quiet rfl]
    by_cases hji : j = i
    · subst hji
      rw [Config.put_party_self, gathered_of_ne (by simp)]
      omega
    · rw [Config.put_party_ne c hji]
      exact hold
  · have hcard : (refused g c r).card ≤ (refused (g.adopt (c.party i).round i) (c.put i ((c.party i).adopt v)
        (.ack (c.party i).round true ::ₘ rest)) r).card :=
      card_filter_adopt_le (P := fun q => r < q.round)
        (fun hq hlt' => absurd hlt' (by omega)) (fun hlt' => hlt')
    rcases h.locked r r' w hpos hr hw with he | hlt'
    · exact Or.inl he
    · exact Or.inr (Nat.lt_of_lt_of_le hlt' hcard)

/-! ## Agreement -/

theorem Inv.of_start {c : Config n V} (h : Start initial c) :
    Inv initial { proposal := fun _ => none, adopted := fun _ => ∅ } c := by
  obtain ⟨hparty, hbag⟩ := h
  refine
    { valid := fun r v hv => by simp at hv
      party := fun i => ?_
      bag := fun m hm => by simp [hbag] at hm
      acks := fun i r => ?_
      prepares := fun i r r' _ => ?_
      locked := fun r r' v _ _ hv => by simp at hv }
  · rw [hparty i]
    exact
      { round_pos := Nat.one_pos
        leader := by simp
        proposed := fun r v hv => by simp at hv
        leads := fun _ hl => by simp [Stage.led] at hl
        stamped := fun _ => Or.inl ⟨rfl, i, rfl⟩
        stamp_le := fun _ => Or.inl Nat.one_pos
        adopted_round := fun r hr => by simp at hr
        adopted_stamp := fun r hr => by simp at hr
        stopped := fun hst => by simp at hst }
  · simp [hparty i, hbag, counted]
  · simp [hparty i, hbag, gathered]

theorem Inv.next {g : History n V} {c c' : Config n V} (h : Inv initial g c)
    (hn : Next c c') : ∃ g', Inv initial g' c' := by
  cases hn with
  | lose hb => exact ⟨g, h.lose hb⟩
  | prepare i hs => exact ⟨g, h.prepare i hs⟩
  | gather i hs hi => exact ⟨g, h.gather i hs hi⟩
  | collect i hs hb => exact ⟨g, h.collect i hs hb⟩
  | elect i hs hmaj => exact ⟨_, h.elect i hs hmaj⟩
  | propose i hs =>
    refine ⟨g, h.send i ?_ (fun _ => rfl) (fun _ _ => rfl)⟩
    exact (h.party i).leads ((h.party i).leader (Or.inl hs)) (by simp [hs, Stage.led])
  | await i hs => exact ⟨g, h.await i hs⟩
  | adopt i hs hb => exact ⟨_, h.adopt i hs hb⟩
  | refuse i hs => exact ⟨g, h.refuse i hs⟩
  | tally i hs hi => exact ⟨g, h.tally i hs hi⟩
  | count i hs hb => exact ⟨g, h.count i hs hb⟩
  | advance i hs => exact ⟨g, h.advance i hs⟩
  | decide i hs hmaj => exact ⟨g, h.decide i hs hmaj⟩
  | hear i hs hb => exact ⟨g, h.hear i hb⟩
  | announce i hs =>
    exact ⟨g, h.send i ((h.party i).stopped hs) (fun _ => rfl) (fun _ _ => rfl)⟩

/-- Two majorities meet, and a party that adopted round `r` is not among those
that refused it. -/
theorem Inv.not_refused {g : History n V} {c : Config n V} {r : Nat}
    (ha : n / 2 < (g.adopted r).card) : ¬ n / 2 < (refused g c r).card := by
  intro hr
  have hdis : Disjoint (g.adopted r) (refused g c r) := by
    rw [Finset.disjoint_left]
    intro j hj hj'
    simp only [refused, Finset.mem_filter] at hj'
    exact hj'.2.1 hj
  have hcard := Finset.card_le_univ (g.adopted r ∪ refused g c r)
  rw [Finset.card_union_of_disjoint hdis, Fintype.card_fin] at hcard
  omega

theorem Inv.chosen_unique {g : History n V} {c : Config n V} (h : Inv initial g c)
    {v w : V} (hv : g.Chosen v) (hw : g.Chosen w) : v = w := by
  have key : ∀ {r r' : Nat} {v w : V}, r < r' → g.proposal r = some v →
      n / 2 < (g.adopted r).card → g.proposal r' = some w → v = w := by
    intro r r' v w hr hv ha hw
    rcases h.locked r r' w (h.valid r v hv).1 hr hw with he | hlt
    · exact Option.some.inj (hv.symm.trans he)
    · exact absurd hlt (Inv.not_refused ha)
  obtain ⟨r, hv, ha⟩ := hv
  obtain ⟨r', hw, ha'⟩ := hw
  rcases Nat.lt_trichotomy r r' with hlt | he | hgt
  · exact key hlt hv ha hw
  · subst he
    exact Option.some.inj (hv.symm.trans hw)
  · exact (key hgt hw ha' hv).symm

theorem Inv.decision_chosen {g : History n V} {c : Config n V} (h : Inv initial g c)
    {v : V} (hv : Decision c v) : g.Chosen v := by
  rcases hv with ⟨i, hs, rfl⟩ | hm
  · exact (h.party i).stopped hs
  · exact h.bag (.decide v) hm

theorem Inv.agreement {g : History n V} {c : Config n V} (h : Inv initial g c) {v w : V}
    (hv : Decision c v) (hw : Decision c w) : v = w :=
  h.chosen_unique (h.decision_chosen hv) (h.decision_chosen hw)

theorem Inv.validity {g : History n V} {c : Config n V} (h : Inv initial g c) {v : V}
    (hv : Decision c v) : ∃ j, initial j = v := by
  obtain ⟨r, hp, _⟩ := h.decision_chosen hv
  exact (h.valid r v hp).2

end Quorum
end Psets
