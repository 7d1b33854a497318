/-
The datagram server keeps the notes of the HTTP server.

A datagram that is well formed is the request with the method and the path that it names and with
the datagram itself as the body.  The two servers answer it alike: they differ in the name that
the statistics give and in the texts of errors.  A datagram at which the JSON library throws past
the server is the last one that its socket reads, and changes nothing.
-/
import Psets.Jsond.Notes

namespace Psets
namespace Jsond

open Transition

variable {lib : Library} {db : NotesDb}

/-- The response without the name of the server and the text of the error. -/
def Response.plain (res : Response) : Response :=
  match res.payload with
  | .stats count totalTextBytes recentIds _ =>
      ⟨res.status, .stats count totalTextBytes recentIds []⟩
  | .error _ => ⟨res.status, .error []⟩
  | _ => res

/-- The request that a parsed datagram is, if it is well formed. -/
def requestOf (payload : Str) (req : Json) : Option Request :=
  match req.find "path".toList with
  | some (.string path) =>
      match req.find "method".toList with
      | some (.string method) => some ⟨methodOf method, path, payload⟩
      | some _ => none
      | none => some ⟨.get, path, payload⟩
  | _ => none

/-- The request that a datagram is, if it is well formed. -/
def asRequest (lib : Library) (payload : Str) : Option Request :=
  match lib.parse payload with
  | .value req => requestOf payload req
  | _ => none

/-- A datagram at which `parse` throws `out_of_range`, or at whose parse error `dump` throws. -/
def Fatal (lib : Library) (payload : Str) : Prop :=
  lib.parse payload = .outOfRange ∨
    ∃ what, lib.parse payload = .parseError what ∧ lib.utf8 what = false

/-- Two results that differ in the name of the server and the texts of errors. -/
def Alike (out out' : Option (Response × NotesDb)) : Prop :=
  ∃ res res' db, out = some (res, db) ∧ out' = some (res', db) ∧ res.plain = res'.plain

theorem Alike.of_plain {res res' : Response} (h : res.plain = res'.plain) :
    Alike (some (res, db)) (some (res', db)) := ⟨res, res', db, rfl, rfl, h⟩

theorem dispatch_alike (utf8 : Str → Bool) (server server' : Str) (expected expected' : String)
    (method : Method) (path : Str) (req : Json) (db : NotesDb) :
    Alike (dispatch utf8 server expected method path (.value req) db)
      (dispatch utf8 server' expected' method path (.value req) db) := by
  unfold dispatch
  by_cases hnotes : path = "/notes".toList
  · rw [if_pos hnotes, if_pos hnotes]
    cases method with
    | post =>
      simp only [withValue]
      split
      · exact .of_plain rfl
      · exact .of_plain rfl
    | get => exact .of_plain rfl
    | put => exact .of_plain rfl
    | delete => exact .of_plain rfl
    | other => exact .of_plain rfl
  · rw [if_neg hnotes, if_neg hnotes]
    cases parseNoteId path with
    | none =>
      simp only
      split
      · exact .of_plain rfl
      · exact .of_plain rfl
    | some id =>
      cases method with
      | get =>
        simp only
        cases db.find id with
        | none => exact .of_plain rfl
        | some n => exact .of_plain rfl
      | put =>
        simp only [withValue]
        cases db.find id with
        | none => exact .of_plain rfl
        | some n => exact .of_plain rfl
      | delete =>
        simp only
        cases db.erase id with
        | mk found db' =>
          cases found with
          | false => exact .of_plain rfl
          | true => exact .of_plain rfl
      | post => exact .of_plain rfl
      | other => exact .of_plain rfl

/-- What the server does with a datagram. -/
inductive Served (lib : Library) (payload : Str) (db : NotesDb) : Prop where
  | request (req : Request) : asRequest lib payload = some req → ¬ Fatal lib payload →
      Alike (processDatagram lib payload db) (handle lib req db) → Served lib payload db
  | refused (res : Response) : asRequest lib payload = none → ¬ Fatal lib payload →
      res.status = 400 → processDatagram lib payload db = some (res, db) → Served lib payload db
  | fatal : asRequest lib payload = none → Fatal lib payload →
      processDatagram lib payload db = none → Served lib payload db

theorem served_value {payload : Str} {req : Json} (hparse : lib.parse payload = .value req) :
    Served lib payload db := by
  have hfatal : ¬ Fatal lib payload := by
    rintro (h | ⟨what, h, -⟩) <;> rw [hparse] at h <;> cases h
  have hrequest : asRequest lib payload = requestOf payload req := by
    simp only [asRequest, hparse]
  have hanswer : ∀ method path, requestOf payload req = some ⟨method, path, payload⟩ →
      processDatagram lib payload db = processDatagram.answer lib db method path req →
      Served lib payload db := by
    intro method path hreq hdatagram
    refine .request _ (hrequest.trans hreq) hfatal ?_
    rw [hdatagram, processDatagram.answer, handle, hparse]
    exact dispatch_alike ..
  have hmalformed : requestOf payload req = none →
      processDatagram lib payload db = processDatagram.malformed db → Served lib payload db :=
    fun hreq hdatagram => .refused _ (hrequest.trans hreq) hfatal rfl hdatagram
  unfold processDatagram at hanswer hmalformed
  unfold requestOf at hanswer hmalformed
  simp only [hparse, withValue] at hanswer hmalformed
  cases hpath : req.find "path".toList with
  | none => exact hmalformed (by simp only [hpath]) (by simp only [hpath])
  | some value =>
    simp only [hpath] at hanswer hmalformed
    cases value with
    | object members => exact hmalformed rfl rfl
    | other => exact hmalformed rfl rfl
    | string path =>
      simp only at hanswer hmalformed
      cases hmethod : req.find "method".toList with
      | none => exact hanswer .get path (by simp only [hmethod]) (by simp only [hmethod])
      | some value =>
        simp only [hmethod] at hanswer hmalformed
        cases value with
        | string method => exact hanswer (methodOf method) path rfl rfl
        | object members => exact hmalformed rfl rfl
        | other => exact hmalformed rfl rfl

/-- A datagram is handled as its request, or refused, or fatal. -/
theorem served (lib : Library) (payload : Str) (db : NotesDb) : Served lib payload db := by
  cases hparse : lib.parse payload with
  | value req => exact served_value hparse
  | outOfRange =>
    refine .fatal ?_ (.inl hparse) ?_
    · simp only [asRequest, hparse]
    · simp only [processDatagram, hparse, withValue]
  | parseError what =>
    have hnone : asRequest lib payload = none := by simp only [asRequest, hparse]
    cases hutf8 : lib.utf8 what with
    | false =>
      refine .fatal hnone (.inr ⟨what, hparse, hutf8⟩) ?_
      simp only [processDatagram, hparse, withValue, hutf8, Bool.false_eq_true, if_false]
    | true =>
      refine .refused ⟨400, .error ("invalid JSON: ".toList ++ what)⟩ hnone ?_ rfl ?_
      · rintro (h | ⟨what', h, hfalse⟩)
        · rw [hparse] at h
          cases h
        · rw [hparse] at h
          obtain rfl := Parsed.parseError.inj h
          rw [hutf8] at hfalse
          cases hfalse
      · simp only [processDatagram, hparse, withValue, hutf8, if_true]

/-- The well-formed datagrams with their plain responses. -/
def requests (lib : Library) (log : List (Datagram × Option Response)) :
    List (Request × Response) :=
  log.filterMap fun x =>
    x.2.bind fun res => (asRequest lib x.1.payload).map fun req => (req, res.plain)

/-- The server is one that was sent requests, as far as it has read. -/
structure AsRequests (lib : Library) (u : UdpState) : Prop where
  /-- Its notes are those of an HTTP server that was sent the well-formed datagrams and answered
  them alike. -/
  run : ∃ st, (jsond lib).Reachable st ∧ st.db = u.db ∧
    st.log.map (fun x => (x.1, x.2.plain)) = requests lib u.log
  /-- It answers whatever is not fatal, and nothing else. -/
  answered : ∀ x ∈ u.log, x.2 = none ↔ Fatal lib x.1.payload
  refused : ∀ x ∈ u.log, asRequest lib x.1.payload = none → ∀ res ∈ x.2, res.status = 400
  /-- A socket is read until something fatal comes there. -/
  ended : ∀ k, k ∈ u.ended ↔ ∃ x ∈ u.log, x.1.socket = k ∧ x.2 = none
  last : u.log.Pairwise fun later earlier => earlier.2 = none → later.1.socket ≠ earlier.1.socket

/-- A datagram that is not fatal is read. -/
theorem AsRequests.read {u : UdpState} {d : Datagram} {res : Response} (h : AsRequests lib u)
    (hopen : d.socket ∉ u.ended) (hfatal : ¬ Fatal lib d.payload)
    (hstatus : asRequest lib d.payload = none → res.status = 400)
    (hrun : ∃ st, (jsond lib).Reachable st ∧ st.db = db ∧
      st.log.map (fun x => (x.1, x.2.plain)) = requests lib ((d, some res) :: u.log)) :
    AsRequests lib { u with db, log := (d, some res) :: u.log } where
  run := hrun
  answered x hx := by
    rcases List.mem_cons.1 hx with rfl | hx
    · exact ⟨fun he => absurd he (Option.some_ne_none res), fun he => absurd he hfatal⟩
    · exact h.answered x hx
  refused x hx hnone res' hres := by
    rcases List.mem_cons.1 hx with rfl | hx
    · obtain rfl := Option.mem_some.1 hres
      exact hstatus hnone
    · exact h.refused x hx hnone res' hres
  ended k := by
    rw [h.ended k]
    constructor
    · rintro ⟨x, hx, hk⟩
      exact ⟨x, List.mem_cons_of_mem _ hx, hk⟩
    · rintro ⟨x, hx, hk, hnone⟩
      rcases List.mem_cons.1 hx with rfl | hx
      · cases hnone
      · exact ⟨x, hx, hk, hnone⟩
  last := by
    refine List.pairwise_cons.2 ⟨fun x hx hnone he => ?_, h.last⟩
    exact hopen ((h.ended d.socket).2 ⟨x, hx, he.symm, hnone⟩)

/-- A datagram that is fatal is read, and is the last one of its socket. -/
theorem AsRequests.throw {u : UdpState} {d : Datagram} (h : AsRequests lib u)
    (hopen : d.socket ∉ u.ended) (hfatal : Fatal lib d.payload) :
    AsRequests lib { u with log := (d, none) :: u.log, ended := d.socket :: u.ended } where
  run := h.run
  answered x hx := by
    rcases List.mem_cons.1 hx with rfl | hx
    · exact ⟨fun _ => hfatal, fun _ => rfl⟩
    · exact h.answered x hx
  refused x hx hnone res hres := by
    rcases List.mem_cons.1 hx with rfl | hx
    · cases hres
    · exact h.refused x hx hnone res hres
  ended k := by
    show k ∈ d.socket :: u.ended ↔ _
    rw [List.mem_cons, h.ended k]
    constructor
    · rintro (rfl | ⟨x, hx, hk⟩)
      · exact ⟨(d, none), List.mem_cons_self, rfl, rfl⟩
      · exact ⟨x, List.mem_cons_of_mem _ hx, hk⟩
    · rintro ⟨x, hx, hk, hnone⟩
      rcases List.mem_cons.1 hx with rfl | hx
      · exact .inl hk.symm
      · exact .inr ⟨x, hx, hk, hnone⟩
  last := by
    refine List.pairwise_cons.2 ⟨fun x hx hnone he => ?_, h.last⟩
    exact hopen ((h.ended d.socket).2 ⟨x, hx, he.symm, hnone⟩)

theorem AsRequests.step {u u' : UdpState} {d : Datagram} (h : AsRequests lib u)
    (hstep : (udpJsond lib).step u d = some u') : AsRequests lib u' := by
  simp only [udpJsond] at hstep
  by_cases hopen : d.socket ∈ u.ended
  · rw [if_pos hopen] at hstep
    obtain rfl := Option.some.inj hstep
    exact h
  rw [if_neg hopen] at hstep
  obtain ⟨st, hst, hdb, hlog⟩ := h.run
  cases served lib d.payload u.db with
  | request req hreq hfatal halike =>
    obtain ⟨resp, res, db, hdatagram, hhandle, hplain⟩ := halike
    rw [hdatagram] at hstep
    obtain rfl := Option.some.inj hstep
    have hrun : (jsond lib).step st req = some ⟨db, (req, res) :: st.log⟩ := by
      simp only [jsond, hdb, hhandle]
    refine h.read hopen hfatal (fun hnone => ?_) ⟨_, .step req hst trivial hrun, rfl, ?_⟩
    · rw [hreq] at hnone
      cases hnone
    · rw [List.map_cons, hlog, ← hplain]
      simp only [requests, List.filterMap_cons, hreq, Option.map_some, Option.bind_some]
  | refused resp hreq hfatal hstatus hdatagram =>
    rw [hdatagram] at hstep
    obtain rfl := Option.some.inj hstep
    refine h.read hopen hfatal (fun _ => hstatus) ⟨st, hst, hdb, ?_⟩
    rw [hlog]
    simp only [requests, List.filterMap_cons, hreq, Option.map_none, Option.bind_some]
  | fatal hreq hfatal hdatagram =>
    rw [hdatagram] at hstep
    obtain rfl := Option.some.inj hstep
    exact h.throw hopen hfatal

/-- Whatever datagrams come, the notes are those of an HTTP server that was sent the well-formed
ones as requests, which it answers alike; the others are refused, until a fatal one ends the
service at a socket. -/
theorem datagrams_as_requests {u : UdpState} (h : (udpJsond lib).Reachable u) :
    AsRequests lib u := by
  refine Machine.Reachable.invariant (P := AsRequests lib) ?_ ?_ h
  · intro u hinit
    have hinit : u = {} := hinit
    subst hinit
    refine ⟨⟨{}, .init rfl, rfl, rfl⟩, fun x hx => ?_, fun x hx => ?_, fun k => ?_, .nil⟩
    · cases hx
    · cases hx
    · constructor
      · intro hk
        cases hk
      · rintro ⟨x, hx, -⟩
        cases hx
  · intro u d u' hu hstep
    exact hu.step hstep

def postDatagram : Str :=
  "\x7b\"method\":\"POST\",\"path\":\"/notes\",\"title\":\"a\",\"body\":\"b\"\x7d".toList

def statsDatagram : Str := "\x7b\"path\":\"/stats\"\x7d".toList

def datagramSample : Library where
  parse s :=
    if s = postDatagram then
      .value (.object [("method".toList, .string "POST".toList),
        ("path".toList, .string "/notes".toList), ("title".toList, .string ['a']),
        ("body".toList, .string ['b'])])
    else if s = statsDatagram then .value (.object [("path".toList, .string "/stats".toList)])
    else if s = "[]".toList then .value .other
    else if s = "1e999".toList then .outOfRange
    else .parseError ("last read: ".toList ++ s)
  utf8 s := s.all fun c => c.toNat < 128

/-- A note is made, a number too large ends one socket, the statistics are read without a method
at the other, and two datagrams that are no requests come there: one is no object, one no text. -/
def datagrams : List Datagram :=
  [⟨0, postDatagram⟩, ⟨1, "1e999".toList⟩, ⟨1, postDatagram⟩, ⟨0, statsDatagram⟩, ⟨0, "[]".toList⟩,
    ⟨0, [Char.ofNat 255]⟩, ⟨0, statsDatagram⟩]

theorem datagrams_run : ((udpJsond datagramSample).exec {} datagrams).isSome = true := by decide

theorem datagrams_as_requests_sample :
    AsRequests datagramSample (((udpJsond datagramSample).exec {} datagrams).get datagrams_run) :=
  datagrams_as_requests (.of_get rfl datagrams_run)

end Jsond
end Psets
