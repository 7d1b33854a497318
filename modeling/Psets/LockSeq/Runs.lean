/-
The invariant holds in every state of a run in which no retry counter wraps around
during a removal.
-/
import Psets.LockSeq.ServerSteps

namespace Psets
namespace LockSeq

open Pancy

variable {nclients : Nat} {s s' : State nclients} {i j : Fin nclients}
  {oldss newss : Fin nclients → List Request} {phase : Phase}

/-! ## Steps of a client -/

theorem Inv.start (nclients : Nat) (h : nclients ≤ maxClients) :
    Inv (fun _ => []) (fun _ => []) (start nclients) where
  requests _ := rfl
  clients i :=
    { serial := Nat.mod_eq_of_lt (Nat.lt_of_lt_of_le i.isLt h)
      named := Or.inl rfl
      chosen := fun hd => absurd rfl hd
      harmless := fun _ hr => absurd hr List.not_mem_nil
      current := fun _ hr => absurd hr List.not_mem_nil
      progress := trivial
      replies := fun _ hr => absurd hr List.not_mem_nil }
  groups _ := ⟨['c'], 0, by simp, Nat.zero_le _, fun v => by simp [table, LockSeq.start]⟩
  tableOk := ⟨fun _ _ h => absurd h (by simp [LockSeq.start]), Int.one_pos,
    fun _ _ h => absurd h (by simp [table, LockSeq.start])⟩

/-- One client moves; the database stays. -/
theorem Inv.setClient (h : Inv oldss newss s) {c' : Client} {olds news : List Request}
    (hclients : s'.clients = Function.update s.clients i c')
    (hreq : s'.requests i = olds ++ news) (hother : ∀ j, j ≠ i → s'.requests j = s.requests j)
    (hresp : ∀ r ∈ s'.responses, r ∈ s.responses) (hdb : s'.db = s.db)
    (hok : ClientOk (table s.db) i c' olds news s'.responses)
    (howner : ∀ g vv, (table s.db).lock g = some vv →
      Owner (table s.db) (s.clients i) g vv → Owner (table s.db) c' g vv) :
    Inv (Function.update oldss i olds) (Function.update newss i news) s' := by
  refine ⟨requests_update h.requests hreq hother, fun j => ?_, fun g => ?_, hdb ▸ h.tableOk⟩
  · rw [hdb, hclients]
    by_cases hj : j = i
    · subst hj
      rw [Function.update_self, Function.update_self, Function.update_self]
      exact hok
    · rw [Function.update_of_ne hj, Function.update_of_ne hj, Function.update_of_ne hj]
      exact (h.clients j).mono hresp
  · rw [hdb, hclients]
    rcases hl : (table s.db).lock g with _ | vv
    · rw [GroupOk, hl]
      exact (h.groups g).free hl
    · obtain ⟨j, hj⟩ := (h.groups g).held hl
      rw [GroupOk, hl]
      refine ⟨j, ?_⟩
      by_cases he : j = i
      · subst he
        rw [Function.update_self]
        exact howner g vv hl hj
      · rw [Function.update_of_ne he]
        exact hj

theorem Inv.moved (h : Inv oldss newss s) {c' : Client} (responses : List Response)
    (hsub : ∀ r ∈ responses, r ∈ s.responses)
    (hm : Moved (table s.db) i (s.clients i) c' (oldss i ++ newss i) responses) :
    ∃ oldss newss, Inv oldss newss ({ s with responses := responses }.setClient i c') := by
  obtain ⟨⟨olds, news, hq, hok⟩, howner⟩ := hm
  exact ⟨_, _, h.setClient rfl ((h.requests i).trans hq) (fun _ _ => rfl) hsub rfl hok howner⟩

theorem Inv.not_owns (h : Inv oldss newss s) (hpc : (s.clients i).pc = .delay)
    (version : VersionType) : ¬ Owns (table s.db) (s.clients i) version := fun ho => by
  have hphase : (s.clients i).phase = none := by rw [Client.phase, hpc]
  rcases (h.owner ho).phase with hp | ⟨⟨ph, hp, _⟩, _⟩
  · rw [hphase] at hp
    exact absurd hp.1 (by simp)
  · rw [hphase] at hp
    exact absurd hp (by simp)

theorem Inv.choose (h : Inv oldss newss s) (hpc : (s.clients i).pc = .delay) {gid nvalues : Nat}
    {hex : Str} (hch : Choice gid nvalues hex) :
    ∃ oldss newss, Inv oldss newss
      (s.setClient i ((s.clients i).choose i gid nvalues hex)) := by
  refine h.moved s.responses (fun _ hr => hr)
    ⟨⟨_, [], (List.append_nil _).symm, (h.clients i).choose hpc (h.not_owns hpc) hch⟩, ?_⟩
  intro g vv hl ho
  exact absurd (ho.owns hl) (h.not_owns hpc _)

theorem Inv.send (h : Inv oldss newss s) (hpc : (s.clients i).pc = .send phase) :
    ∃ oldss newss, Inv oldss newss
      { s.setClient i { s.clients i with pc := .wait phase } with
        requests := Function.update s.requests i
          (s.requests i ++ [(s.clients i).request phase]) } := by
  have hphase : (s.clients i).phase = some phase := by rw [Client.phase, hpc]
  refine ⟨_, _, h.setClient rfl ?_ (fun j hj => Function.update_of_ne hj ..) (fun _ hr => hr) rfl
    ((h.clients i).send hpc) fun g vv _ ho => ho.of_phase rfl rfl rfl hphase.symm⟩
  show Function.update s.requests i _ i = _
  rw [Function.update_self, h.requests, List.append_assoc]

theorem Inv.timeout (h : Inv oldss newss s) (hpc : (s.clients i).pc = .wait phase)
    (hfit : phase = .clear ∨ phase = .unlock → (s.clients i).tries + 1 < unsignedModulus) :
    ∃ oldss newss, Inv oldss newss (s.setClient i ((s.clients i).retry phase)) := by
  have hphase : (s.clients i).phase = some phase := by rw [Client.phase, hpc]
  exact h.moved s.responses (fun _ hr => hr)
    (.within ((h.clients i).timeout hpc hfit) rfl rfl rfl hphase.symm)

theorem Inv.resume (h : Inv oldss newss s) (hpc : (s.clients i).pc = .pause phase) :
    ∃ oldss newss, Inv oldss newss (s.setClient i ((s.clients i).resume phase)) :=
  h.moved s.responses (fun _ hr => hr) ((h.clients i).resume hpc)

/-- A response with the serial of the current request. -/
theorem Inv.reply (h : Inv oldss newss s) (hpc : (s.clients i).pc = .wait phase) {resp : Response}
    (hmem : resp ∈ s.responses) (hserial : resp.serial = (s.clients i).serial) :
    ReplyOk (table s.db) (s.clients i) resp phase := by
  have hid : resp.serial % maxClients = i := hserial ▸ (h.clients i).serial
  exact ((h.clients i).replies resp hmem hid).2 hserial phase (by rw [Client.active, hpc])

theorem Inv.receive (h : Inv oldss newss s) (hpc : (s.clients i).pc = .wait phase) {k : Nat}
    {resp : Response} (hk : s.responses[k]? = some resp)
    (hserial : resp.serial = (s.clients i).serial) :
    ∃ oldss newss, Inv oldss newss ({ s with responses := s.responses.eraseIdx k }.setClient i
      ((s.clients i).receive i phase resp)) := by
  have hsub : ∀ r ∈ s.responses.eraseIdx k, r ∈ s.responses := fun _ hr =>
    List.mem_of_mem_eraseIdx hr
  refine h.moved _ hsub (((h.clients i).mono hsub).receive hpc
    (h.reply hpc (List.mem_of_getElem? hk) hserial) ?_)
  rintro rfl version ho
  rcases (h.owner ho).phase with hp | ⟨⟨ph, hp, hne⟩, _⟩
  · exact hp.2
  · rw [Client.phase, hpc, Option.some.injEq] at hp
    exact absurd hp.symm hne

/-! ## Lost messages -/

theorem Inv.loseResponses (h : Inv oldss newss s) {responses : List Response}
    (hsub : ∀ r ∈ responses, r ∈ s.responses) :
    Inv oldss newss { s with responses := responses } :=
  ⟨h.requests, fun i => (h.clients i).mono hsub, h.groups, h.tableOk⟩

theorem eraseIdx_append_split {α : Type} (l l' : List α) (k : Nat) :
    ∃ m m', (l ++ l').eraseIdx k = m ++ m' ∧ m.Sublist l ∧ m'.Sublist l' := by
  by_cases hk : k < l.length
  · exact ⟨_, _, List.eraseIdx_append_of_lt_length hk l', List.eraseIdx_sublist _ _,
      List.Sublist.refl _⟩
  · exact ⟨_, _, List.eraseIdx_append_of_length_le (Nat.le_of_not_lt hk) l', List.Sublist.refl _,
      List.eraseIdx_sublist _ _⟩

theorem Progress.mono {t : Table} {c : Client} {count count' : Nat} (h : Progress t c count)
    (hle : count' ≤ count) : Progress t c count' := by
  have same : c.gid = c.gid ∧ c.value = c.value ∧ c.nvalues = c.nvalues ∧
      c.lockVersion = c.lockVersion ∧ c.n = c.n := ⟨rfl, rfl, rfl, rfl, rfl⟩
  rcases ha : c.active with _ | phase
  · rw [Client.active] at ha
    rw [Progress] at h ⊢
    rcases hpc : c.pc with _ | ph | ph | ph | ⟨ph, e⟩ <;> rw [hpc] at ha h
    · trivial
    · simp at ha
    · simp at ha
    · exact h
    · simp at ha
  · exact ((h.inPhase ha).sent same fun _ => by omega).progress ha

theorem Inv.loseRequest (h : Inv oldss newss s) (k : Nat) :
    ∃ oldss newss, Inv oldss newss
      { s with requests := Function.update s.requests i ((s.requests i).eraseIdx k) } := by
  obtain ⟨olds, news, hsplit, holds, hnews⟩ := eraseIdx_append_split (oldss i) (newss i) k
  have hcl := h.clients i
  refine ⟨_, _, h.setClient (Function.update_eq_self i s.clients).symm ?_
    (fun j hj => Function.update_of_ne hj ..) (fun _ hr => hr) rfl
    { hcl with
      harmless := fun r hr => hcl.harmless r (holds.subset hr)
      current := fun r hr => hcl.current r (hnews.subset hr)
      progress := hcl.progress.mono hnews.length_le } fun _ _ _ ho => ho⟩
  show Function.update s.requests i _ i = _
  rw [Function.update_self, h.requests, hsplit]

/-! ## Runs -/

/-- `tries` does not wrap around while a client removes or unlocks. -/
def TriesFit (s : State nclients) : Label nclients → Prop
  | .timeout cid => (s.clients cid).pc = .wait .clear ∨ (s.clients cid).pc = .wait .unlock →
      (s.clients cid).tries + 1 < unsignedModulus
  | _ => True

theorem Inv.step (h : Inv oldss newss s) {a : Label nclients} (hfit : TriesFit s a)
    (hs : step s a = some s') : ∃ oldss newss, Inv oldss newss s' := by
  cases step_stepped hs with
  | choose hpc hchoice => exact h.choose hpc hchoice
  | send hpc => exact h.send hpc
  | timeout hpc =>
    exact h.timeout hpc fun hph => hfit (hph.imp (fun he => by rw [hpc, he])
      fun he => by rw [hpc, he])
  | ignore => exact ⟨_, _, h.loseResponses fun r hr => List.mem_of_mem_eraseIdx hr⟩
  | receive hpc hk hserial => exact h.receive hpc hk hserial
  | resume hpc => exact h.resume hpc
  | serve hq => exact h.serve hq
  | loseRequest cid k => exact h.loseRequest k
  | loseResponse => exact ⟨_, _, h.loseResponses fun r hr => List.mem_of_mem_eraseIdx hr⟩

theorem reachable_inv (h : (system nclients).ReachableBy TriesFit s) :
    ∃ oldss newss, Inv oldss newss s := by
  refine Transition.Machine.ReachableBy.invariant (P := fun s => ∃ oldss newss, Inv oldss newss s)
    ?_ ?_ h
  · rintro _ ⟨hn, rfl⟩
    exact ⟨_, _, Inv.start nclients hn⟩
  · rintro s a s' ⟨oldss, newss, h⟩ hfit hs
    exact h.step hfit hs

end LockSeq
end Psets
