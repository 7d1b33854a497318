/-
Responses find their way back.

Every pair of channels that a server port keeps leads from a client's address to this port and
back to the client's response port, which exists.  Nothing takes a pair or a port away, so
pointers stay good, the unchecked look-up of the reply channel succeeds, and who receives a
response has sent a request to that server.
-/
import Psets.Netsim.AltNetwork

namespace Psets
namespace Netsim
namespace AltNetwork

open Transition

variable {A Req Resp : Type} {s s' : Network A Req Resp} {d c a : A} {p : ChannelPtr A}

/-! ## Pairs of channels -/

/-- The server port at `d` keeps a pair of channels for the client at `c`. -/
def Network.Paired (s : Network A Req Resp) (d c : A) : Prop :=
  ∃ port, s.ports d = some port ∧ port.channels c = some (⟨c, d, d⟩, ⟨d, c, c⟩) ∧
    ∃ q, s.responsePorts c = some q

/-- A pointer to one of such a pair. -/
def Network.Good (s : Network A Req Resp) : ChannelPtr A → Prop
  | .request d c => s.Paired d c
  | .response d c => s.Paired d c

theorem Network.Paired.request (h : s.Paired d c) : s.channel (.request d c) = some ⟨c, d, d⟩ := by
  obtain ⟨port, hport, hpair, _⟩ := h
  simp [Network.channel, hport, hpair]

theorem Network.Paired.response (h : s.Paired d c) :
    s.channel (.response d c) = some ⟨d, c, c⟩ := by
  obtain ⟨port, hport, hpair, _⟩ := h
  simp [Network.channel, hport, hpair]

/-- Ports, pairs and what the program knows are only added. -/
structure Grows (s s' : Network A Req Resp) : Prop where
  port : ∀ d port, s.ports d = some port → ∃ port', s'.ports d = some port' ∧
    ∀ c pair, port.channels c = some pair → port'.channels c = some pair
  responsePort : ∀ c q, s.responsePorts c = some q → ∃ q', s'.responsePorts c = some q'
  held : ∀ p ∈ s.held, p ∈ s'.held
  taken : ∀ t ∈ s.taken, t ∈ s'.taken
  found : ∀ p ∈ s.found, p ∈ s'.found

theorem Grows.paired (h : Grows s s') (hp : s.Paired d c) : s'.Paired d c := by
  obtain ⟨port, hport, hpair, q, hq⟩ := hp
  obtain ⟨port', hport', hchannels⟩ := h.port d port hport
  exact ⟨port', hport', hchannels c _ hpair, h.responsePort c q hq⟩

theorem Grows.good (h : Grows s s') (hp : s.Good p) : s'.Good p := by
  cases p with
  | request d c => exact h.paired hp
  | response d c => exact h.paired hp

/-! ## The invariant -/

/-- A request in the queue of the server port at `d`. -/
def Asked (s : Network A Req Resp) (d : A) (x : Delivery A Req) : Prop :=
  x.via = .request d x.source ∧ s.Paired d x.source

/-- A response in the queue of the response port at `c`. -/
def Responded (s : Network A Req Resp) (c : A) (x : Delivery A Resp) : Prop :=
  x.via = .response x.source c ∧ s.Paired x.source c ∧ x.via ∈ s.held

/-- A channel that the program was given: one for responses comes with a request, unless it was
looked up. -/
def Given (s : Network A Req Resp) (p : ChannelPtr A) : Prop :=
  s.Good p ∧ ∀ d c, p = .response d c → p ∈ s.found ∨ ∃ t ∈ s.taken, t.port = d ∧ t.reply = p

structure Inv (s : Network A Req Resp) : Prop where
  address : ∀ d port, s.ports d = some port → port.address = d
  pair : ∀ d port, s.ports d = some port → ∀ c x, port.channels c = some x → s.Paired d c
  queue : ∀ d port, s.ports d = some port → ∀ x ∈ port.messageq, Asked s d x
  responseQueue : ∀ c q, s.responsePorts c = some q → ∀ x ∈ q, Responded s c x
  requests : ∀ x ∈ s.requests, ∃ d c, x.1 = .request d c ∧ s.Paired d c
  responses : ∀ x ∈ s.responses, ∃ d c, x.1 = .response d c ∧ s.Paired d c ∧ x.1 ∈ s.held
  held : ∀ p ∈ s.held, Given s p
  taken : ∀ t ∈ s.taken, Asked s t.port t.request ∧ t.reply = .response t.port t.request.source
  answers : ∀ t ∈ s.answers, Responded s t.port t.response

theorem Grows.asked (h : Grows s s') {x : Delivery A Req} (hx : Asked s d x) : Asked s' d x :=
  ⟨hx.1, h.paired hx.2⟩

theorem Grows.responded (h : Grows s s') {x : Delivery A Resp} (hx : Responded s c x) :
    Responded s' c x :=
  ⟨hx.1, h.paired hx.2.1, h.held _ hx.2.2⟩

theorem Grows.given (h : Grows s s') (hp : Given s p) : Given s' p := by
  refine ⟨h.good hp.1, fun d c hpc => ?_⟩
  rcases hp.2 d c hpc with hf | ⟨t, ht, hd, hr⟩
  · exact .inl (h.found _ hf)
  · exact .inr ⟨t, h.taken t ht, hd, hr⟩

/-- What is left to show of a step that leaves most of the lists as they are. -/
theorem Inv.grow (hs : Inv s) (h : Grows s s')
    (haddress : ∀ d port, s'.ports d = some port → port.address = d)
    (hpair : ∀ d port, s'.ports d = some port → ∀ c x, port.channels c = some x → s'.Paired d c)
    (hqueue : ∀ d port, s'.ports d = some port → ∀ x ∈ port.messageq, Asked s' d x)
    (hresponseQueue : ∀ c q, s'.responsePorts c = some q → ∀ x ∈ q, Responded s' c x)
    (hrequests : ∀ x ∈ s'.requests, x ∈ s.requests ∨ ∃ d c, x.1 = .request d c ∧ s'.Paired d c)
    (hresponses : ∀ x ∈ s'.responses, x ∈ s.responses ∨
      ∃ d c, x.1 = .response d c ∧ s'.Paired d c ∧ x.1 ∈ s'.held)
    (hheld : ∀ p ∈ s'.held, p ∈ s.held ∨ Given s' p)
    (htaken : ∀ t ∈ s'.taken, t ∈ s.taken ∨
      Asked s' t.port t.request ∧ t.reply = .response t.port t.request.source)
    (hanswers : ∀ t ∈ s'.answers, t ∈ s.answers ∨ Responded s' t.port t.response) : Inv s' where
  address := haddress
  pair := hpair
  queue := hqueue
  responseQueue := hresponseQueue
  requests x hx := by
    rcases hrequests x hx with hold | hnew
    · obtain ⟨d, c, hp, hpaired⟩ := hs.requests x hold
      exact ⟨d, c, hp, h.paired hpaired⟩
    · exact hnew
  responses x hx := by
    rcases hresponses x hx with hold | hnew
    · obtain ⟨d, c, hp, hpaired, hmem⟩ := hs.responses x hold
      exact ⟨d, c, hp, h.paired hpaired, h.held _ hmem⟩
    · exact hnew
  held p hp := (hheld p hp).elim (fun hold => h.given (hs.held p hold)) fun hnew => hnew
  taken t ht := by
    rcases htaken t ht with hold | hnew
    · exact ⟨h.asked (hs.taken t hold).1, (hs.taken t hold).2⟩
    · exact hnew
  answers t ht := (hanswers t ht).elim (fun hold => h.responded (hs.answers t hold)) fun hnew => hnew

/-- Messages under way. -/
theorem Inv.setUnderway (hs : Inv s) (requests : List (ChannelPtr A × Req))
    (responses : List (ChannelPtr A × Resp))
    (hrequests : ∀ x ∈ requests, ∃ d c, x.1 = .request d c ∧ s.Paired d c)
    (hresponses : ∀ x ∈ responses, ∃ d c, x.1 = .response d c ∧ s.Paired d c ∧ x.1 ∈ s.held) :
    Inv { s with requests, responses } :=
  ⟨hs.address, hs.pair, hs.queue, hs.responseQueue, hrequests, hresponses, hs.held, hs.taken,
    hs.answers⟩

/-- What the program learns. -/
theorem Inv.learn (hs : Inv s) (held : List (ChannelPtr A)) (taken : List (Taken A Req))
    (found : List (ChannelPtr A)) (hheld : ∀ p ∈ s.held, p ∈ held)
    (htaken : ∀ t ∈ s.taken, t ∈ taken) (hfound : ∀ p ∈ s.found, p ∈ found)
    (hgiven : ∀ p ∈ held, p ∈ s.held ∨ Given { s with held, taken, found } p)
    (hasked : ∀ t ∈ taken, t ∈ s.taken ∨
      Asked s t.port t.request ∧ t.reply = .response t.port t.request.source) :
    Inv { s with held, taken, found } := by
  have hgrows : Grows s { s with held, taken, found } :=
    ⟨fun _ port h => ⟨port, h, fun _ _ hc => hc⟩, fun _ q h => ⟨q, h⟩, hheld, htaken, hfound⟩
  exact hs.grow hgrows hs.address hs.pair hs.queue
    (fun c q hq x hx => hgrows.responded (hs.responseQueue c q hq x hx)) (fun x hx => .inl hx)
    (fun x hx => .inl hx) hgiven hasked fun x hx => .inl hx

variable [DecidableEq A]

/-! ## Ports -/

theorem ports_setPort {port : Port A Req} {d : A} {x : Port A Req}
    (h : (s.setPort a port).ports d = some x) : (d = a ∧ x = port) ∨ (d ≠ a ∧ s.ports d = some x) := by
  by_cases hd : d = a
  · subst hd
    have hself : (s.setPort d port).ports d = some port := Function.update_self ..
    exact .inl ⟨rfl, Option.some.inj (h.symm.trans hself)⟩
  · have hother : (s.setPort a port).ports d = s.ports d := Function.update_of_ne hd ..
    exact .inr ⟨hd, hother ▸ h⟩

theorem responsePorts_setResponsePort {q q' : List (Delivery A Resp)} {c : A}
    (h : (s.setResponsePort a q).responsePorts c = some q') :
    (c = a ∧ q' = q) ∨ (c ≠ a ∧ s.responsePorts c = some q') := by
  by_cases hc : c = a
  · subst hc
    have hself : (s.setResponsePort c q).responsePorts c = some q := Function.update_self ..
    exact .inl ⟨rfl, Option.some.inj (h.symm.trans hself)⟩
  · have hother : (s.setResponsePort a q).responsePorts c = s.responsePorts c :=
      Function.update_of_ne hc ..
    exact .inr ⟨hc, hother ▸ h⟩

/-- A port that is written keeps its channels. -/
theorem grows_setPort {port : Port A Req} (h : ∀ old, s.ports a = some old →
    ∀ c pair, old.channels c = some pair → port.channels c = some pair) :
    Grows s (s.setPort a port) where
  port d old hold := by
    by_cases hd : d = a
    · subst hd
      exact ⟨port, Function.update_self .., h old hold⟩
    · exact ⟨old, (Function.update_of_ne hd ..).trans hold, fun _ _ hc => hc⟩
  responsePort _ q h := ⟨q, h⟩
  held _ h := h
  taken _ h := h
  found _ h := h

theorem grows_setResponsePort (q : List (Delivery A Resp)) : Grows s (s.setResponsePort a q) where
  port _ port h := ⟨port, h, fun _ _ hc => hc⟩
  responsePort c old h := by
    by_cases hc : c = a
    · subst hc
      exact ⟨q, Function.update_self ..⟩
    · exact ⟨old, (Function.update_of_ne hc ..).trans h⟩
  held _ h := h
  taken _ h := h
  found _ h := h

/-- A port is written. -/
theorem Inv.setPort (hs : Inv s) (port : Port A Req)
    (hchannels : ∀ old, s.ports a = some old →
      ∀ c pair, old.channels c = some pair → port.channels c = some pair)
    (haddress : port.address = a)
    (hpair : ∀ c x, port.channels c = some x → (s.setPort a port).Paired a c)
    (hqueue : ∀ x ∈ port.messageq, Asked (s.setPort a port) a x) : Inv (s.setPort a port) := by
  have hgrows := grows_setPort hchannels
  refine hs.grow hgrows (fun d x hx => ?_) (fun d x hx c pair hc => ?_) (fun d x hx y hy => ?_)
    (fun c q hq x hx => hgrows.responded (hs.responseQueue c q hq x hx)) (fun x hx => .inl hx)
    (fun x hx => .inl hx) (fun x hx => .inl hx) (fun x hx => .inl hx) (fun x hx => .inl hx)
  · rcases ports_setPort hx with ⟨rfl, rfl⟩ | ⟨_, hx⟩
    · exact haddress
    · exact hs.address d x hx
  · rcases ports_setPort hx with ⟨rfl, rfl⟩ | ⟨_, hx⟩
    · exact hpair c pair hc
    · exact hgrows.paired (hs.pair d x hx c pair hc)
  · rcases ports_setPort hx with ⟨rfl, rfl⟩ | ⟨_, hx⟩
    · exact hqueue y hy
    · exact hgrows.asked (hs.queue d x hx y hy)

/-- The queue of a port is written. -/
theorem Inv.setQueue (hs : Inv s) {port : Port A Req} (hport : s.ports a = some port)
    (messageq : List (Delivery A Req)) (hqueue : ∀ x ∈ messageq, Asked s a x) :
    Grows s (s.setPort a { port with messageq }) ∧ Inv (s.setPort a { port with messageq }) := by
  have hchannels : ∀ old, s.ports a = some old → ∀ c pair, old.channels c = some pair →
      ({ port with messageq } : Port A Req).channels c = some pair := fun old hold c pair hc => by
    have he : old = port := Option.some.inj (hold.symm.trans hport)
    subst he
    exact hc
  have hgrows := grows_setPort hchannels
  exact ⟨hgrows, hs.setPort _ hchannels (hs.address a port hport)
    (fun c x hc => hgrows.paired (hs.pair a port hport c x hc))
    fun x hx => hgrows.asked (hqueue x hx)⟩

theorem Inv.setResponsePort (hs : Inv s) (q : List (Delivery A Resp))
    (hqueue : ∀ x ∈ q, Responded s a x) :
    Grows s (s.setResponsePort a q) ∧ Inv (s.setResponsePort a q) := by
  have hgrows : Grows s (s.setResponsePort a q) := grows_setResponsePort q
  refine ⟨hgrows, hs.grow hgrows hs.address (fun d x hx c pair hc => ?_) (fun d x hx y hy => ?_)
    (fun c q' hq' x hx => ?_) (fun x hx => .inl hx) (fun x hx => .inl hx) (fun x hx => .inl hx)
    (fun x hx => .inl hx) (fun x hx => .inl hx)⟩
  · exact hgrows.paired (hs.pair d x hx c pair hc)
  · exact hgrows.asked (hs.queue d x hx y hy)
  · rcases responsePorts_setResponsePort hq' with ⟨rfl, rfl⟩ | ⟨_, hq'⟩
    · exact hgrows.responded (hqueue x hx)
    · exact hgrows.responded (hs.responseQueue c q' hq' x hx)

/-! ## Operations -/

theorem Inv.port (hs : Inv s) (a : A) : Inv (s.port a) := by
  unfold Network.port
  cases hport : s.ports a with
  | some port => exact hs
  | none =>
    refine hs.setPort { address := a } (fun old hold => ?_) rfl (fun c x hx => by cases hx)
      fun x hx => by cases hx
    rw [hport] at hold
    cases hold

theorem Inv.responsePort (hs : Inv s) (a : A) : Inv (s.responsePort a) := by
  unfold Network.responsePort
  cases hport : s.responsePorts a with
  | some q => exact hs
  | none => exact (hs.setResponsePort [] fun x hx => by cases hx).2

/-- `find_channel` finds or makes a pair of channels. -/
theorem Inv.findChannel (hs : Inv s) (src dst : A) :
    Inv (s.findChannel src dst).2 ∧ ∀ p ∈ (s.findChannel src dst).1,
      p = .request dst src ∧ (s.findChannel src dst).2.Paired dst src := by
  unfold Network.findChannel
  cases hport : s.ports dst with
  | none =>
    simp only
    exact ⟨hs, fun p hp => by cases hp⟩
  | some port =>
    cases hpair : port.channels src with
    | some pair =>
      simp only [hpair]
      exact ⟨hs, fun p hp => ⟨(Option.some.inj hp).symm, hs.pair dst port hport src pair hpair⟩⟩
    | none =>
      cases hresp : s.responsePorts src with
      | none =>
        simp only [hpair]
        exact ⟨hs, fun p hp => by cases hp⟩
      | some q =>
        simp only [hpair]
        have haddress := hs.address dst port hport
        have hself : (port.emplacePair src dst).channels src =
            some (⟨src, dst, dst⟩, ⟨dst, src, src⟩) := by
          rw [Port.emplacePair, haddress]
          exact Function.update_self ..
        have hother : ∀ c, c ≠ src → (port.emplacePair src dst).channels c = port.channels c :=
          fun c hc => Function.update_of_ne hc ..
        have hnew : (s.setPort dst (port.emplacePair src dst)).Paired dst src :=
          ⟨_, Function.update_self .., hself, q, hresp⟩
        have hchannels : ∀ old, s.ports dst = some old → ∀ c pair, old.channels c = some pair →
            (port.emplacePair src dst).channels c = some pair := fun old hold c pair hc => by
          have he : old = port := Option.some.inj (hold.symm.trans hport)
          subst he
          have hcs : c ≠ src := by
            rintro rfl
            rw [hpair] at hc
            cases hc
          rw [hother c hcs]
          exact hc
        have hgrows := grows_setPort hchannels
        refine ⟨hs.setPort _ hchannels haddress (fun c x hx => ?_) fun x hx => ?_, fun p hp =>
          ⟨(Option.some.inj hp).symm, hnew⟩⟩
        · by_cases hcs : c = src
          · subst hcs
            exact hnew
          · rw [hother c hcs] at hx
            exact hgrows.paired (hs.pair dst port hport c x hx)
        · exact hgrows.asked (hs.queue dst port hport x hx)

theorem Inv.request (hs : Inv s) (m : Req) (lost : Bool) (hheld : .request d c ∈ s.held) :
    ∃ s', perform s (.request (.request d c) m lost) = some s' ∧ Inv s' := by
  have hpaired : s.Paired d c := (hs.held _ hheld).1
  cases lost with
  | true => exact ⟨s, by simp [perform, hpaired.request], hs⟩
  | false =>
    refine ⟨{ s with requests := s.requests ++ [(.request d c, m)] },
      by simp [perform, hpaired.request], hs.setUnderway _ s.responses (fun x hx => ?_) hs.responses⟩
    rcases List.mem_append.1 hx with hx | hx
    · exact hs.requests x hx
    · rw [List.mem_singleton.1 hx]
      exact ⟨d, c, rfl, hpaired⟩

theorem Inv.respond (hs : Inv s) (m : Resp) (lost : Bool) (hheld : .response d c ∈ s.held) :
    ∃ s', perform s (.respond (.response d c) m lost) = some s' ∧ Inv s' := by
  have hpaired : s.Paired d c := (hs.held _ hheld).1
  cases lost with
  | true => exact ⟨s, by simp [perform, hpaired.response], hs⟩
  | false =>
    refine ⟨{ s with responses := s.responses ++ [(.response d c, m)] },
      by simp [perform, hpaired.response], hs.setUnderway s.requests _ hs.requests fun x hx => ?_⟩
    rcases List.mem_append.1 hx with hx | hx
    · exact hs.responses x hx
    · rw [List.mem_singleton.1 hx]
      exact ⟨d, c, rfl, hpaired, hheld⟩

theorem Inv.arriveRequest (hs : Inv s) {i : Nat} (hi : i < s.requests.length) :
    ∃ s', perform s (.arriveRequest i) = some s' ∧ Inv s' := by
  obtain ⟨⟨p, m⟩, hx⟩ : ∃ x, s.requests[i]? = some x := ⟨_, List.getElem?_eq_getElem hi⟩
  obtain ⟨d, c, rfl, hpaired⟩ := hs.requests _ (List.mem_of_getElem? hx)
  have hchannel := hpaired.request
  obtain ⟨port, hport, _⟩ := id hpaired
  obtain ⟨_, hqueue⟩ := hs.setQueue hport (port.messageq ++ [⟨m, c, .request d c⟩]) fun y hy => by
    rcases List.mem_append.1 hy with hy | hy
    · exact hs.queue d port hport y hy
    · rw [List.mem_singleton.1 hy]
      exact ⟨rfl, hpaired⟩
  have hnew := hqueue.setUnderway (s.requests.eraseIdx i) s.responses
    (fun y hy => hqueue.requests y (List.mem_of_mem_eraseIdx hy)) hqueue.responses
  refine ⟨_, ?_, hnew⟩
  simp only [perform, hx, hchannel, hport, Option.bind_eq_bind, Option.bind_some]
  rfl

theorem Inv.arriveResponse (hs : Inv s) {i : Nat} (hi : i < s.responses.length) :
    ∃ s', perform s (.arriveResponse i) = some s' ∧ Inv s' := by
  obtain ⟨⟨p, m⟩, hx⟩ : ∃ x, s.responses[i]? = some x := ⟨_, List.getElem?_eq_getElem hi⟩
  obtain ⟨d, c, rfl, hpaired, hheld⟩ := hs.responses _ (List.mem_of_getElem? hx)
  have hchannel := hpaired.response
  obtain ⟨_, _, _, q, hq⟩ := id hpaired
  obtain ⟨_, hqueue⟩ := hs.setResponsePort (a := c) (q ++ [⟨m, d, .response d c⟩]) fun y hy => by
    rcases List.mem_append.1 hy with hy | hy
    · exact hs.responseQueue c q hq y hy
    · rw [List.mem_singleton.1 hy]
      exact ⟨rfl, hpaired, hheld⟩
  have hnew := hqueue.setUnderway s.requests (s.responses.eraseIdx i) hqueue.requests
    fun y hy => hqueue.responses y (List.mem_of_mem_eraseIdx hy)
  refine ⟨_, ?_, hnew⟩
  simp only [perform, hx, hchannel, hq, Option.bind_eq_bind, Option.bind_some]
  rfl

/-- The reply channel is there: the pair it belongs to was made before the request was sent. -/
theorem Inv.receiveWithChannel (hs : Inv s) {port : Port A Req} {x : Delivery A Req}
    {rest : List (Delivery A Req)} (hport : s.ports a = some port)
    (hq : port.messageq = x :: rest) :
    ∃ s', perform s (.receiveWithChannel a) = some s' ∧ Inv s' := by
  obtain ⟨hvia, hpaired⟩ := hs.queue a port hport x (by rw [hq]; exact List.mem_cons_self)
  obtain ⟨port', hport', hpair, _⟩ := id hpaired
  have he : port' = port := Option.some.inj (hport'.symm.trans hport)
  subst he
  obtain ⟨hgrows, hqueue⟩ := hs.setQueue hport rest fun y hy =>
    hs.queue a port' hport y (by rw [hq]; exact List.mem_cons_of_mem _ hy)
  have hstep : perform s (.receiveWithChannel a) = some
      { s.setPort a { port' with messageq := rest } with
        held := .response a x.source :: s.held
        taken := ⟨a, x, .response a x.source⟩ :: s.taken } := by
    simp only [perform, hport, hq, List.head?_cons, List.tail_cons, hpair, Option.bind_eq_bind,
      Option.bind_some]
  refine ⟨_, hstep, ?_⟩
  refine hqueue.learn (.response a x.source :: s.held) (⟨a, x, .response a x.source⟩ :: s.taken)
    s.found (fun p h => List.mem_cons_of_mem _ h) (fun t h => List.mem_cons_of_mem _ h)
    (fun p h => h) (fun p h => ?_) fun t h => ?_
  · rcases List.mem_cons.1 h with rfl | h
    · refine .inr ⟨hgrows.paired hpaired, fun d c e => .inr ⟨_, List.mem_cons_self, ?_, rfl⟩⟩
      cases e
      rfl
    · exact .inl h
  · rcases List.mem_cons.1 h with rfl | h
    · exact .inr ⟨⟨hvia, hgrows.paired hpaired⟩, rfl⟩
    · exact .inl h

theorem Inv.receive (hs : Inv s) {x : Delivery A Resp} {rest : List (Delivery A Resp)}
    (hport : s.responsePorts a = some (x :: rest)) :
    ∃ s', perform s (.receive a) = some s' ∧ Inv s' := by
  have hresponded := hs.responseQueue a _ hport
  obtain ⟨hgrows, hqueue⟩ := hs.setResponsePort (a := a) rest fun y hy =>
    hresponded y (List.mem_cons_of_mem _ hy)
  have hstep : perform s (.receive a) =
      some { s.setResponsePort a rest with answers := ⟨a, x⟩ :: s.answers } := by
    simp only [perform, hport, List.head?_cons, List.tail_cons, Option.bind_eq_bind,
      Option.bind_some]
  refine ⟨_, hstep, ?_⟩
  refine ⟨hqueue.address, hqueue.pair, hqueue.queue, hqueue.responseQueue, hqueue.requests,
    hqueue.responses, hqueue.held, hqueue.taken, fun t ht => ?_⟩
  rcases List.mem_cons.1 ht with rfl | ht
  · exact hgrows.responded (hresponded x List.mem_cons_self)
  · exact hqueue.answers t ht

/-- Every operation succeeds that uses channels and ports as it may. -/
theorem perform_spec (hs : Inv s) (o : Op A Req Resp) (hen : Enabled s o = true) :
    ∃ s', perform s o = some s' ∧ Inv s' := by
  cases o with
  | port a => exact ⟨_, rfl, hs.port a⟩
  | responsePort a => exact ⟨_, rfl, hs.responsePort a⟩
  | findChannel src dst =>
    obtain ⟨hnew, hp⟩ := hs.findChannel src dst
    refine ⟨_, rfl, hnew.learn _ _ _ (fun p h => List.mem_append_right _ h) (fun t h => h)
      (fun p h => h) (fun p h => ?_) fun t h => .inl h⟩
    rcases List.mem_append.1 h with h | h
    · obtain ⟨rfl, hpaired⟩ := hp p (Option.mem_toList.1 h)
      exact .inr ⟨hpaired, fun d c e => by cases e⟩
    · exact .inl h
  | findResponseChannel src dst =>
    refine ⟨_, rfl, hs.learn _ _ _ (fun p h => List.mem_append_right _ h) (fun t h => h)
      (fun p h => List.mem_append_right _ h) (fun p h => ?_) fun t h => .inl h⟩
    rcases List.mem_append.1 h with h | h
    · have hfind : s.findResponseChannel src dst = some p := Option.mem_toList.1 h
      simp only [Network.findResponseChannel, Option.bind_eq_bind, Option.bind_eq_some_iff] at hfind
      obtain ⟨port, hport, pair, hpair, he⟩ := hfind
      have he := Option.some.inj he
      subst he
      exact .inr ⟨hs.pair src port hport dst pair hpair, fun _ _ _ =>
        .inl (List.mem_append_left _ h)⟩
    · exact .inl h
  | request p m lost =>
    cases p with
    | response d c => cases hen
    | request d c => exact hs.request m lost (List.contains_iff_mem.1 hen)
  | respond p m lost =>
    cases p with
    | request d c => cases hen
    | response d c => exact hs.respond m lost (List.contains_iff_mem.1 hen)
  | arriveRequest i => exact hs.arriveRequest (of_decide_eq_true hen)
  | arriveResponse i => exact hs.arriveResponse (of_decide_eq_true hen)
  | receiveWithChannel a =>
    cases hport : s.ports a with
    | none => simp [Enabled, hport] at hen
    | some port =>
      cases hq : port.messageq with
      | nil => simp [Enabled, hport, hq] at hen
      | cons x rest => exact hs.receiveWithChannel hport hq
  | receive a =>
    cases hport : s.responsePorts a with
    | none => simp [Enabled, hport] at hen
    | some q =>
      cases q with
      | nil => simp [Enabled, hport] at hen
      | cons x rest => exact hs.receive hport

theorem inv_of_reachable (h : (program A Req Resp).Reachable s) : Inv s := by
  refine h.invariant (fun s hs => ?_) fun s o s' hs hstep => ?_
  · have he : s = {} := hs
    subst he
    exact {
      address := fun _ _ h => by cases h
      pair := fun _ _ h => by cases h
      queue := fun _ _ h => by cases h
      responseQueue := fun _ _ h => by cases h
      requests := fun _ h => by cases h
      responses := fun _ h => by cases h
      held := fun _ h => by cases h
      taken := fun _ h => by cases h
      answers := fun _ h => by cases h }
  · have hstep : (if Enabled s o then perform s o else none) = some s' := hstep
    by_cases hen : Enabled s o = true
    · rw [if_pos hen] at hstep
      obtain ⟨t, ht, hinv⟩ := perform_spec hs o hen
      rw [ht] at hstep
      exact Option.some.inj hstep ▸ hinv
    · rw [if_neg hen] at hstep
      cases hstep

/-! ## The way of a request and its response -/

/-- Requests reach the port they were sent to, with a reply channel to the response port of who
has sent them; and what a response port receives is from a server that has received a request
from there, over the channel it was given with it (or has looked up). -/
structure Routed (s : Network A Req Resp) : Prop where
  taken : ∀ t ∈ s.taken, t.request.via = .request t.port t.request.source ∧
    t.reply = .response t.port t.request.source ∧
    s.channel t.request.via = some ⟨t.request.source, t.port, t.port⟩ ∧
    s.channel t.reply = some ⟨t.port, t.request.source, t.request.source⟩
  answers : ∀ a ∈ s.answers, a.response.via = .response a.response.source a.port ∧
    (a.response.via ∈ s.found ∨
      ∃ t ∈ s.taken, t.port = a.response.source ∧ t.request.source = a.port ∧
        t.reply = a.response.via)

theorem requests_and_responses_routed (h : (program A Req Resp).Reachable s) :
    Routed s ∧ ∀ o, Enabled s o = true → (perform s o).isSome = true := by
  have hs := inv_of_reachable h
  refine ⟨⟨fun t ht => ?_, fun a ha => ?_⟩, fun o hen => ?_⟩
  · obtain ⟨⟨hvia, hpaired⟩, hreply⟩ := hs.taken t ht
    rw [hvia, hreply]
    exact ⟨rfl, rfl, hpaired.request, hpaired.response⟩
  · obtain ⟨hvia, _, hheld⟩ := hs.answers a ha
    refine ⟨hvia, ?_⟩
    rcases (hs.held _ hheld).2 _ _ hvia with hfound | ⟨t, ht, hport, hreply⟩
    · exact .inl hfound
    · refine .inr ⟨t, ht, hport, ?_, hreply⟩
      have hsame := (hs.taken t ht).2.symm.trans (hreply.trans hvia)
      exact (ChannelPtr.response.inj hsame).2
  · obtain ⟨s', hs', _⟩ := perform_spec hs o hen
    rw [hs']
    rfl

/-- Two clients ask one server; the second one's response overtakes the first one's. -/
def twoClientsRun : List (Op Nat Nat Nat) :=
  [.port 0, .responsePort 1, .responsePort 2, .findChannel 1 0, .findChannel 2 0,
    .request (.request 0 1) 10 false, .request (.request 0 2) 20 false, .arriveRequest 1,
    .arriveRequest 0, .receiveWithChannel 0, .receiveWithChannel 0,
    .respond (.response 0 1) 11 false, .respond (.response 0 2) 21 false, .arriveResponse 1,
    .receive 2, .arriveResponse 0, .receive 1]

theorem twoClientsRun_isSome : ((program Nat Nat Nat).exec {} twoClientsRun).isSome = true := by
  decide +kernel

/-- The state `twoClientsRun` ends in. -/
def twoClientsState : Network Nat Nat Nat :=
  ((program Nat Nat Nat).exec {} twoClientsRun).get twoClientsRun_isSome

theorem requests_and_responses_routed_twoClientsState :
    (twoClientsState.answers.map fun a => (a.port, a.response.message)) = [(1, 11), (2, 21)] ∧
      Routed twoClientsState ∧
      ∀ o, Enabled twoClientsState o = true → (perform twoClientsState o).isSome = true :=
  ⟨by decide +kernel, requests_and_responses_routed (.of_get rfl twoClientsRun_isSome)⟩

end AltNetwork
end Netsim
end Psets
