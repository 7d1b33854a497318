/-
Sending messages, and copies of messages.

`send_request` and `send_response` take their message by value and complete its headers.
The copy constructor and the copy assignment are written by hand, and the constructor
leaves out the index of the headers: a copy has the header text of the original, but no
headers that it knows of.
-/
import Psets.Http.Message

namespace Psets
namespace Http
namespace HttpMessage

/-! ## Sending -/

def defaultStatusCodes : List (Nat × String) :=
  [(100, "Continue"), (101, "Switching Protocols"), (102, "Processing"), (103, "Early Hints"),
    (110, "Early Hints"), (111, "Early Hints"), (112, "Early Hints"), (113, "Early Hints"),
    (200, "OK"), (201, "Created"), (202, "Accepted"), (203, "Non-Authoritative Information"),
    (204, "No Content"), (205, "Reset Content"), (206, "Partial Content"), (207, "Multi-Status"),
    (208, "Already Reported"), (226, "IM Used"), (300, "Multiple Choices"),
    (301, "Moved Permanently"), (302, "Found"), (303, "See Other"), (304, "Not Modified"),
    (305, "Use Proxy"), (307, "Temporary Redirect"), (308, "Permanent Redirect"),
    (400, "Bad Request"), (401, "Unauthorized"), (402, "Payment Required"), (403, "Forbidden"),
    (404, "Not Found"), (405, "Method Not Allowed"), (406, "Not Acceptable"),
    (407, "Proxy Authentication Required"), (408, "Request Timeout"), (409, "Conflict"),
    (410, "Gone"), (411, "Length Required"), (412, "Precondition Failed"),
    (413, "Content Too Large"), (414, "URI Too Long"), (415, "Unsupported Media Type"),
    (416, "Range Not Satisfiable"), (417, "Expectation Failed"), (418, "I'm a teapot"),
    (421, "Misdirected Request"), (422, "Unprocessable Content"), (423, "Locked"),
    (424, "Failed Dependency"), (425, "Too Early"), (426, "Upgrade Required"),
    (428, "Precondition Required"), (429, "Too Many Requests"),
    (431, "Request Header Fields Too Large"), (451, "Unavailable For Legal Reasons"),
    (500, "Internal Server Error"), (501, "Not Implemented"), (502, "Bad Gateway"),
    (503, "Service Unavailable"), (504, "Gateway Timeout"), (505, "HTTP Version Not Supported"),
    (506, "Variant Also Negotiates"), (507, "Insufficient Storage"), (508, "Loop Detected"),
    (509, "Bandwidth Limit Exceeded"), (510, "Not Extended"),
    (511, "Network Authentication Required")]

/-- `default_status_message`, where `statusName` is `llhttp_status_name`. -/
def defaultStatusMessage (statusName : Nat → Str) (code : Nat) : Str :=
  if code = 200 then "OK".toList
  else
    -- `std::lower_bound`
    match defaultStatusCodes.dropWhile fun e => e.1 < code with
    | [] => statusName code
    | e :: _ => if e.1 = code then e.2.toList else statusName code

/-- `Content-Length`, if there is a body and nothing says how long it is. -/
def addContentLength (m : HttpMessage) : HttpMessage :=
  if m.hasBody ∧ ¬ m.hasHeader "content-length".toList ∧ ¬ m.hasHeader "transfer-encoding".toList
  then m.addHeader "Content-Length".toList (decimal m.body.length)
  else m

def httpVersion (m : HttpMessage) : Str :=
  "HTTP/".toList ++ decimal m.major ++ ['.'] ++ decimal m.minor

/-- What `send_request` writes, where `methodName` is `llhttp_method_name` and `host` the
host of the parser. -/
def sendRequest (methodName : Nat → Str) (host : Str) (m : HttpMessage) : Str :=
  let urlline := methodName m.method ++ [' '] ++ m.url ++ [' '] ++ m.httpVersion ++ crlf
  let m := if !host.isEmpty && !m.hasHeader "host".toList then m.addHeader "Host".toList host else m
  let m := m.addContentLength
  urlline ++ (m.headers ++ crlf) ++ m.body

/-- The fields of `hp_` that decide whether the connection is kept alive. -/
structure KeepAlive where
  httpMajor : Nat
  httpMinor : Nat
  connectionClose : Bool
  connectionKeepAlive : Bool
deriving DecidableEq, Repr

/-- What `send_response` writes, and what becomes of `hp_`; `shouldKeepAlive` is
`llhttp_should_keep_alive`. -/
def sendResponse (shouldKeepAlive : KeepAlive → Bool) (statusName : Nat → Str) (hp : KeepAlive)
    (m : HttpMessage) : KeepAlive × Str :=
  let hp :=
    if shouldKeepAlive hp && ieq (m.header "connection".toList) "close".toList then
      if hp.httpMajor > 0 ∧ hp.httpMinor > 0 then { hp with connectionClose := true }
      else { hp with connectionKeepAlive := false }
    else hp
  let statusMessage :=
    if m.statusMessage.isEmpty then defaultStatusMessage statusName m.statusCode
    else m.statusMessage
  let codeline := m.httpVersion ++ [' '] ++ decimal m.statusCode ++ [' '] ++ statusMessage ++ crlf
  let m := m.addContentLength
  (hp, codeline ++ (m.headers ++ crlf) ++ m.body)

/-! ## Copying -/

/-- `http_message(const http_message&)`. -/
def copy (x : HttpMessage) : HttpMessage :=
  { major := x.major, minor := x.minor, method := x.method, error := x.error
    statusCode := x.statusCode, upgrade := x.upgrade, hasBody := x.hasBody
    url := x.url, statusMessage := x.statusMessage, headers := x.headers
    body := x.body }

/-- `operator=(const http_message&)` on the message `t`. -/
def assign (t x : HttpMessage) : HttpMessage :=
  { major := x.major, minor := x.minor, method := x.method, error := x.error
    statusCode := x.statusCode, upgrade := x.upgrade, hasBody := x.hasBody
    url := x.url, statusMessage := x.statusMessage, headers := x.headers
    hpairs := x.hpairs, body := x.body
    info := t.info.map fun inf => { inf with flags := {} } }

/-- The messages that the public calls and the parser build.  Moving a message takes all
its fields along. -/
inductive Built : HttpMessage → Prop where
  | new : Built {}
  | request (method : Nat) (url : Str) : Built { method := method % 256, url }
  | response (code : Nat) : Built { statusCode := code % 65536 }
  | received (callbacks : List Callback) (ending : ReceiveEnd) :
      Built (HttpMessage.receive callbacks ending)
  | edit {m : HttpMessage} (e : Edit) : Built m → Built (m.edit e)
  | observed {m : HttpMessage} (o : Observer) : Built m → Built (m.observed o)
  | copy {m : HttpMessage} : Built m → Built m.copy
  | assign {t m : HttpMessage} : Built t → Built m → Built (t.assign m)

/-- Whoever examines or sends `b` cannot tell it from `a`. -/
structure Faithful (a b : HttpMessage) : Prop where
  answers : ∀ os, b.answers os = a.answers os
  request : ∀ methodName host, sendRequest methodName host b = sendRequest methodName host a
  response : ∀ shouldKeepAlive statusName hp,
    sendResponse shouldKeepAlive statusName hp b = sendResponse shouldKeepAlive statusName hp a

/-! ## What is known about the URL is right -/

/-- `info_` is never trusted for the parts, and only while it is right for the
parameters. -/
structure Coherent (m : HttpMessage) : Prop where
  url : ∀ inf, m.info = some inf → inf.flags.url = false
  params : ∀ inf, m.info = some inf → inf.flags.params = true →
    inf.qurl = (query m.url (urlParts m.url)).qurl ∧
      inf.qpairs = (query m.url (urlParts m.url)).qpairs

theorem Coherent.of_none {m : HttpMessage} (h : m.info = none) : Coherent m := by
  constructor
  · intro inf hinf
    rw [h] at hinf
    cases hinf
  · intro inf hinf
    rw [h] at hinf
    cases hinf

/-- No flag is set. -/
theorem Coherent.of_clear {m : HttpMessage} (h : ∀ inf, m.info = some inf → inf.flags = {}) :
    Coherent m := by
  constructor
  · intro inf hinf
    rw [h inf hinf]
  · intro inf hinf hparams
    rw [h inf hinf] at hparams
    cases hparams

/-- The URL and what is known about it are left alone. -/
theorem Coherent.congr {m m' : HttpMessage} (h : Coherent m) (hurl : m'.url = m.url)
    (hinfo : m'.info = m.info) : Coherent m' := by
  constructor
  · rw [hinfo]
    exact h.url
  · rw [hinfo, hurl]
    exact h.params

/-- `info` gives the parts of the URL as it is. -/
theorem Coherent.infoFor_url {m : HttpMessage} (h : Coherent m) :
    (m.infoFor { url := true }).f = urlParts m.url := by
  unfold infoFor makeInfo
  cases hinfo : m.info with
  | none => rfl
  | some inf =>
    have hflag := h.url inf hinfo
    simp only [hflag, Option.getD_some, Bool.not_true, Bool.or_false, Bool.not_false,
      Bool.true_or, Bool.and_true, Bool.and_false, Bool.false_eq_true, if_false, if_true]

theorem Coherent.infoFor_params {m : HttpMessage} (h : Coherent m) :
    (m.infoFor { params := true }).qurl = (query m.url (urlParts m.url)).qurl ∧
      (m.infoFor { params := true }).qpairs = (query m.url (urlParts m.url)).qpairs := by
  unfold infoFor makeInfo
  cases hinfo : m.info with
  | none => exact ⟨rfl, rfl⟩
  | some inf =>
    have hurl := h.url inf hinfo
    cases hparams : inf.flags.params with
    | true =>
      simp only [hparams, Bool.not_false, Bool.true_or, Bool.or_true, Bool.and_true, if_true]
      exact h.params inf hinfo hparams
    | false =>
      simp only [hurl, hparams, Option.getD_some, Bool.not_true, Bool.not_false, Bool.or_false,
        Bool.or_true, Bool.true_and, Bool.false_eq_true, if_false, if_true, and_self]

theorem makeInfo_flags_url (m : HttpMessage) (fl : InfoFlags) :
    (m.makeInfo fl).flags.url = (m.info.getD {}).flags.url := by
  unfold makeInfo
  simp only []
  split <;> split <;> rfl

/-- Only what was computed for the parameters is marked as known. -/
theorem makeInfo_params {m : HttpMessage} {fl : InfoFlags} (h : Coherent m)
    (hflag : (m.makeInfo fl).flags.params = true) :
    (m.makeInfo fl).qurl = (query m.url (urlParts m.url)).qurl ∧
      (m.makeInfo fl).qpairs = (query m.url (urlParts m.url)).qpairs := by
  have hurl : (m.info.getD {}).flags.url = false := by
    cases hinfo : m.info with
    | none => rfl
    | some inf => exact h.url inf hinfo
  unfold makeInfo at hflag ⊢
  simp only [hurl, Bool.not_false, Bool.true_and] at hflag ⊢
  cases hfl : fl.params with
  | true =>
    cases hknown : (m.info.getD {}).flags.params with
    | true =>
      cases hinfo : m.info with
      | none =>
        rw [hinfo] at hknown
        cases hknown
      | some inf =>
        rw [hinfo] at hknown
        simp only [Option.getD_some] at hknown
        simp only [hknown, Option.getD_some, Bool.or_true, Bool.not_true, Bool.false_and,
          Bool.false_eq_true, if_false, if_true]
        exact h.params inf hinfo hknown
    | false =>
      simp only [hknown, Bool.or_true, Bool.not_false, Bool.and_true, if_true, and_self]
  | false =>
    cases hinfo : m.info with
    | none =>
      rw [hinfo, hfl] at hflag
      simp only [Option.getD_none, Bool.or_false, Bool.and_false, Bool.false_eq_true,
        if_false] at hflag
      split at hflag <;> cases hflag
    | some inf =>
      rw [hinfo, hfl] at hflag
      simp only [Option.getD_some, Bool.or_false, Bool.and_false, Bool.false_eq_true,
        if_false] at hflag ⊢
      cases hu : fl.url <;> rw [hu] at hflag <;> exact h.params inf hinfo hflag

theorem Coherent.observed {m : HttpMessage} (h : Coherent m) (o : Observer) :
    Coherent (m.observed o) := by
  unfold HttpMessage.observed
  cases o.needs with
  | none => exact h
  | some fl =>
    have hmake : Coherent { m with info := some (m.makeInfo fl) } := by
      constructor
      · intro inf hinf
        obtain rfl := Option.some.inj hinf
        rw [makeInfo_flags_url]
        cases hinfo : m.info with
        | none => rfl
        | some old => exact h.url old hinfo
      · intro inf hinf hflag
        obtain rfl := Option.some.inj hinf
        exact makeInfo_params h hflag
    unfold infoFor
    simp only []
    cases hinfo : m.info with
    | none => exact hmake
    | some inf =>
      simp only []
      split
      · exact h.congr rfl hinfo.symm
      · exact hmake

theorem Coherent.edit {m : HttpMessage} (h : Coherent m) (e : Edit) : Coherent (m.edit e) := by
  cases e with
  | clear =>
    apply Coherent.of_clear
    intro inf hinf
    obtain ⟨old, _, rfl⟩ := Option.map_eq_some_iff.1 hinf
    rfl
  | url url =>
    apply Coherent.of_clear
    intro inf hinf
    obtain ⟨old, _, rfl⟩ := Option.map_eq_some_iff.1 hinf
    simp only [Bool.not_true, Bool.and_false]
  | json dump =>
    unfold HttpMessage.edit
    simp only []
    split
    · exact h.congr rfl rfl
    · exact h.congr rfl rfl
  | addHeader key value => exact h.congr rfl rfl
  | httpMajor v => exact h.congr rfl rfl
  | httpMinor v => exact h.congr rfl rfl
  | error e => exact h.congr rfl rfl
  | statusCode code message => exact h.congr rfl rfl
  | method method => exact h.congr rfl rfl
  | body body => exact h.congr rfl rfl
  | appendBody str => exact h.congr rfl rfl

/-- The parser knows nothing about the URL. -/
theorem callback_info {md : MessageData} (h : md.hm.info = none) (c : Callback) :
    (callback md c).hm.info = none := by
  cases c with
  | messageBegin =>
    show md.hm.info.map _ = none
    rw [h]
    rfl
  | status s hp =>
    unfold callback
    simp only []
    split <;> exact h
  | headerField s =>
    unfold callback
    simp only []
    split <;> exact h
  | headerFieldComplete =>
    unfold callback
    simp only []
    split <;> exact h
  | _ => exact h

theorem receive_info (callbacks : List Callback) (ending : ReceiveEnd) :
    (receive callbacks ending).info = none := by
  have hall : ∀ md : MessageData, md.hm.info = none →
      (callbacks.foldl callback md).hm.info = none := by
    induction callbacks with
    | nil => exact fun md h => h
    | cons c cs ih => exact fun md h => ih _ (callback_info h c)
  have hclose : ∀ md : MessageData, md.hm.info = none →
      (if md.state ≠ .done ∧ md.hm.error = hpeOk then { md.hm with error := hpeClosedConnection }
        else md.hm).info = none := by
    intro md h
    split <;> exact h
  unfold receive
  cases ending with
  | closed => exact hclose _ (hall {} rfl)
  | stopped hp paused => exact hclose _ (hall {} rfl)

theorem Coherent.assign (t x : HttpMessage) : Coherent (t.assign x) := by
  apply Coherent.of_clear
  intro inf hinf
  obtain ⟨old, _, rfl⟩ := Option.map_eq_some_iff.1 hinf
  rfl

theorem Built.coherent {m : HttpMessage} (h : Built m) : Coherent m := by
  induction h with
  | new => exact .of_none rfl
  | request method url => exact .of_none rfl
  | response code => exact .of_none rfl
  | received callbacks ending => exact .of_none (receive_info callbacks ending)
  | edit e _ ih => exact ih.edit e
  | observed o _ ih => exact ih.observed o
  | copy _ _ => exact .of_none rfl
  | assign _ _ _ _ => exact .assign _ _

/-! ## Faithful copies -/

/-- The two messages differ in what is known about the URL only. -/
def SameFields (a b : HttpMessage) : Prop := b = { a with info := b.info }

theorem SameFields.observed {a b : HttpMessage} (h : SameFields a b) (o : Observer) :
    SameFields (a.observed o) (b.observed o) := by
  unfold SameFields at h ⊢
  unfold HttpMessage.observed
  cases o.needs with
  | none => exact h
  | some fl =>
    simp only []
    rw [h]

theorem SameFields.answer {a b : HttpMessage} (h : SameFields a b) (ha : Coherent a)
    (hb : Coherent b) (o : Observer) : b.answer o = a.answer o := by
  have hurl : (b.infoFor { url := true }).f = (a.infoFor { url := true }).f := by
    rw [ha.infoFor_url, hb.infoFor_url, h]
  have hparams : b.searchParams = a.searchParams := by
    unfold searchParams
    simp only [ha.infoFor_params.1, ha.infoFor_params.2, hb.infoFor_params.1,
      hb.infoFor_params.2]
    rw [h]
  have hfield : ∀ field, b.urlField field = a.urlField field := by
    intro field
    unfold urlField
    rw [hurl, h]
  cases o with
  | hasUrlField field =>
    show Answer.flag (b.hasUrlField field) = .flag (a.hasUrlField field)
    unfold hasUrlField
    rw [hurl]
  | urlField field => exact congrArg Answer.string (hfield field)
  | hasSearchParam name =>
    show Answer.flag (b.hasSearchParam name) = .flag (a.hasSearchParam name)
    unfold hasSearchParam
    rw [hparams]
  | searchParam name =>
    show Answer.string (b.searchParam name) = .string (a.searchParam name)
    unfold searchParam
    rw [hparams]
  | searchParams => exact congrArg Answer.pairs hparams
  | _ =>
    rw [h]
    rfl

theorem SameFields.answers {a b : HttpMessage} (h : SameFields a b) (ha : Coherent a)
    (hb : Coherent b) (os : List Observer) : b.answers os = a.answers os := by
  induction os generalizing a b with
  | nil => rfl
  | cons o os ih =>
    rw [HttpMessage.answers, HttpMessage.answers, h.answer ha hb,
      ih (h.observed o) (ha.observed o) (hb.observed o)]

theorem SameFields.hasHeader {a b : HttpMessage} (h : SameFields a b) (name : Str) :
    b.hasHeader name = a.hasHeader name := by
  rw [h]
  rfl

theorem SameFields.addHeader {a b : HttpMessage} (h : SameFields a b) (key value : Str) :
    SameFields (a.addHeader key value) (b.addHeader key value) := by
  unfold SameFields at h ⊢
  rw [h]
  rfl

theorem SameFields.addContentLength {a b : HttpMessage} (h : SameFields a b) :
    SameFields a.addContentLength b.addContentLength := by
  have hbody : b.hasBody = a.hasBody ∧ b.body = a.body := by
    rw [h]
    exact ⟨rfl, rfl⟩
  unfold HttpMessage.addContentLength
  rw [hbody.1, hbody.2, h.hasHeader, h.hasHeader]
  split
  · exact h.addHeader _ _
  · exact h

theorem SameFields.fields {a b : HttpMessage} (h : SameFields a b) :
    b.method = a.method ∧ b.url = a.url ∧ b.statusCode = a.statusCode ∧
      b.statusMessage = a.statusMessage ∧ b.headers = a.headers ∧ b.body = a.body ∧
      b.httpVersion = a.httpVersion ∧ b.headerList = a.headerList := by
  rw [h]
  exact ⟨rfl, rfl, rfl, rfl, rfl, rfl, rfl, rfl⟩

theorem SameFields.sendRequest {a b : HttpMessage} (h : SameFields a b)
    (methodName : Nat → Str) (host : Str) :
    sendRequest methodName host b = sendRequest methodName host a := by
  have hhost : SameFields
      (if !host.isEmpty && !a.hasHeader "host".toList then a.addHeader "Host".toList host else a)
      (if !host.isEmpty && !b.hasHeader "host".toList then b.addHeader "Host".toList host
        else b) := by
    rw [h.hasHeader]
    split
    · exact h.addHeader _ _
    · exact h
  obtain ⟨_, _, _, _, hheaders, hbody, _⟩ := hhost.addContentLength.fields
  obtain ⟨hmethod, hurl, _, _, _, _, hversion, _⟩ := h.fields
  unfold HttpMessage.sendRequest
  simp only []
  rw [hmethod, hurl, hversion, hheaders, hbody]

theorem SameFields.sendResponse {a b : HttpMessage} (h : SameFields a b)
    (shouldKeepAlive : KeepAlive → Bool) (statusName : Nat → Str) (hp : KeepAlive) :
    sendResponse shouldKeepAlive statusName hp b =
      sendResponse shouldKeepAlive statusName hp a := by
  obtain ⟨_, _, _, _, hheaders, hbody, _⟩ := h.addContentLength.fields
  obtain ⟨_, _, hcode, hmessage, _, _, hversion, hlist⟩ := h.fields
  have hheader : ∀ name, b.header name = a.header name := by
    intro name
    unfold HttpMessage.header
    rw [hlist]
  unfold HttpMessage.sendResponse
  simp only []
  rw [hcode, hmessage, hversion, hheaders, hbody, hheader]

theorem SameFields.faithful {a b : HttpMessage} (h : SameFields a b) (ha : Coherent a)
    (hb : Coherent b) : Faithful a b :=
  ⟨h.answers ha hb, h.sendRequest, h.sendResponse⟩

/-- The copy assignment loses nothing. -/
theorem assign_faithful {t m : HttpMessage} (hm : Built m) : Faithful m (t.assign m) :=
  SameFields.faithful rfl hm.coherent (.assign t m)

/-- The copy constructor loses the headers, and nothing else. -/
theorem copy_faithful_iff {m : HttpMessage} (hm : Built m) :
    Faithful m m.copy ↔ m.hpairs = [] := by
  constructor
  · intro h
    have hlist : [Answer.pairs []] = [Answer.pairs m.headerList] := h.answers [.headerList]
    have hnil : m.headerList = [] := (Answer.pairs.inj (List.cons.inj hlist).1).symm
    exact List.map_eq_nil_iff.1 hnil
  · intro h
    have hsame : SameFields m m.copy := by
      unfold SameFields HttpMessage.copy
      rw [← h]
    exact hsame.faithful hm.coherent (.of_none rfl)

/-- Copies of a message are faithful exactly when it has no header: the copy assignment
always is. -/
theorem copies_faithful_iff {m : HttpMessage} (hm : Built m) :
    (Faithful m m.copy ∧ ∀ t, Built t → Faithful m (t.assign m)) ↔ m.hpairs = [] := by
  rw [copy_faithful_iff hm]
  exact and_iff_left fun t _ => assign_faithful hm

theorem copies_faithful_get : (Faithful {} (copy {}) ∧ ∀ t, Built t → Faithful {} (t.assign {})) ↔
    ({} : HttpMessage).hpairs = [] :=
  copies_faithful_iff .new

/-- A request with one header. -/
def withHost : HttpMessage := edit {} (.addHeader "Host".toList "a".toList)

/-- Its copy does not have the header, and is sent with a second one. -/
theorem withHost_copy : Built withHost ∧ withHost.hasHeader "host".toList = true ∧
    withHost.copy.hasHeader "host".toList = false ∧
    (sendRequest (fun _ => "GET".toList) "b".toList withHost).length <
      (sendRequest (fun _ => "GET".toList) "b".toList withHost.copy).length ∧
    ¬ ∀ m, Built m → Faithful m m.copy := by
  refine ⟨.edit _ .new, by decide, by decide, by decide, fun h => ?_⟩
  have hpairs := (copy_faithful_iff (.edit _ .new)).1 (h withHost (.edit _ .new))
  exact absurd hpairs (by decide)

end HttpMessage
end Http
end Psets
