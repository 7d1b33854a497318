/-
`http_message`: its fields, the calls that edit and examine it, and the callbacks that
fill it while a message is parsed.

The header text is one string, and `hpairs_` says where its names and values are.  What
is known about the URL is computed on demand and kept in `info_`, which the examining
calls may write although they are `const`.

Offsets and lengths are not cut to 32 bits, although `http_kvoffsets` and `info_` keep them in
members that are `unsigned`: this is for header texts and URLs below 4 GiB.  Of the URL and its
search parameters `UrlSplit` and `QueryLoop` have a second model, which does cut them.
-/
import Mathlib.Data.List.Basic
import Psets.Containers.Numerals

namespace Psets
namespace Http

/-! ## Strings -/

def crlf : Str := ['\r', '\n']

/-- A `string_view` of the characters from `first` to `last`. -/
def view (base : Str) (first last : Nat) : Str := (base.drop first).take (last - first)

/-- `strings::ieq`. -/
def ieq : Str → Str → Bool
  | [], [] => true
  | a :: as, b :: bs => a.toLower == b.toLower && ieq as bs
  | _, _ => false

def isHws (ch : Char) : Bool := ch == ' ' || ch == '\t'

/-- `strings::trim_hws`. -/
def trimHws (s : Str) : Str := ((s.dropWhile isHws).reverse.dropWhile isHws).reverse

/-- `us_safe`: the characters that a URL may have, except `?`. -/
def usSafe (ch : Char) : Bool :=
  ch.isAlphanum || "!$%&'()*+,-./:;=@[\\]^_`\x7b|\x7d~".toList.contains ch

/-- `us_hex` and `xvalue`. -/
def xvalue? (ch : Char) : Option Nat :=
  if '0' ≤ ch ∧ ch ≤ '9' then some (ch.toNat - '0'.toNat)
  else if 'A' ≤ ch ∧ ch ≤ 'F' then some (ch.toNat - 'A'.toNat + 10)
  else if 'a' ≤ ch ∧ ch ≤ 'f' then some (ch.toNat - 'a'.toNat + 10)
  else none

/-! ## The message -/

/-- `http_kvoffsets`. -/
structure KvOffsets where
  name1 : Nat
  name2 : Nat
  value1 : Nat
  value2 : Nat
deriving DecidableEq, Repr

def KvOffsets.name (p : KvOffsets) (base : Str) : Str := view base p.name1 p.name2

def KvOffsets.value (p : KvOffsets) (base : Str) : Str := view base p.value1 p.value2

/-- `info_url` and `info_params`. -/
structure InfoFlags where
  url : Bool := false
  params : Bool := false
deriving DecidableEq, Repr

/-- `info_type`: the parts of the URL, and the decoded query with the parameters in it. -/
structure Info where
  flags : InfoFlags := {}
  f : List (Nat × Nat) := [(0, 0), (0, 0), (0, 0)]
  qurl : Str := []
  qpairs : List KvOffsets := []
deriving DecidableEq, Repr

/-- `HTTP_GET` -/
def httpGet : Nat := 1

/-- `HPE_OK` -/
def hpeOk : Nat := 0

/-- `HPE_CLOSED_CONNECTION` -/
def hpeClosedConnection : Nat := 5

structure HttpMessage where
  major : Nat := 1
  minor : Nat := 1
  method : Nat := httpGet
  error : Nat := hpeOk
  statusCode : Nat := 200
  upgrade : Bool := false
  hasBody : Bool := false
  url : Str := []
  statusMessage : Str := []
  headers : Str := []
  hpairs : List KvOffsets := []
  body : Str := []
  info : Option Info := none
deriving DecidableEq, Repr

namespace HttpMessage

/-! ## Headers -/

/-- The pairs from `header_begin()` to `header_end()`. -/
def headerList (m : HttpMessage) : List (Str × Str) :=
  m.hpairs.map fun p => (p.name m.headers, p.value m.headers)

def hasHeader (m : HttpMessage) (name : Str) : Bool :=
  m.headerList.any fun p => ieq p.1 name

/-- `find_header`: the pair at the iterator, if it is not `header_end()`. -/
def findHeader (m : HttpMessage) (name : Str) : Option (Str × Str) :=
  m.headerList.find? fun p => ieq p.1 name

/-- The values of all headers of that name, with a comma between them. -/
def header (m : HttpMessage) (name : Str) : Str :=
  (", ".toList).intercalate ((m.headerList.filter fun p => ieq p.1 name).map Prod.snd)

def addHeader (m : HttpMessage) (key value : Str) : HttpMessage :=
  let name1 := m.headers.length
  let name2 := name1 + key.length
  let headers := m.headers ++ key ++ ": ".toList ++ trimHws value ++ crlf
  { m with
    headers
    hpairs := m.hpairs ++ [⟨name1, name2, name2 + 2, headers.length - 2⟩] }

/-! ## The parts of the URL -/

/-- `n` more parts, the first from the end of the last part and the rest empty. -/
def fillParts : Nat → Nat → List (Nat × Nat) → List (Nat × Nat)
  | 0, _, f => f
  | n + 1, pos, f => fillParts n pos (f ++ [((f.getLast?.map Prod.snd).getD 0, pos)])

/-- The loop over the URL at position `pos`; `f` are the parts up to `fpos`. -/
def scanUrl : Str → Nat → List (Nat × Nat) → List (Nat × Nat)
  | [], pos, f => fillParts (3 - f.length) pos f
  | ch :: rest, pos, f =>
    if usSafe ch then scanUrl rest (pos + 1) f
    else if ch = '?' then scanUrl rest (pos + 1) (if f.isEmpty then [(0, pos)] else f)
    else if ch = '#' then scanUrl rest (pos + 1) (fillParts (2 - f.length) pos f)
    -- `fail`: every part is empty
    else fillParts 3 0 []

def urlParts (url : Str) : List (Nat × Nat) :=
  if url.head? = some '/' then scanUrl url 0 [] else fillParts 3 0 []

/-! ## The search parameters -/

inductive QueryState where
  | beginning
  | inName
  | inValue
deriving DecidableEq, Repr

/-- The variables of the loop over the query; `pending` are the characters from `last`
to `s`, which `qurl` has yet to take. -/
structure QueryScan where
  state : QueryState := .beginning
  qurl : Str := []
  pending : Str := []
  nstart : Nat := 0
  nend : Nat := 0
  vstart : Nat := 0
  qpairs : List KvOffsets := []

namespace QueryScan

/-- `inf.qurl.length() + s - last` -/
def pos (q : QueryScan) : Nat := q.qurl.length + q.pending.length

/-- The end of a parameter at `vend`. -/
def emplace (q : QueryScan) (vend : Nat) : QueryScan :=
  match q.state with
  | .beginning => q
  | .inName =>
    { q with
      state := .beginning, nend := vend, vstart := vend
      qpairs := q.qpairs ++ [⟨q.nstart, vend, vend, vend⟩] }
  | .inValue =>
    { q with state := .beginning, qpairs := q.qpairs ++ [⟨q.nstart, q.nend, q.vstart, vend⟩] }

/-- `++s` -/
def advance (q : QueryScan) (ch : Char) : QueryScan := { q with pending := q.pending ++ [ch] }

/-- Take what is pending, and then a decoded character. -/
def decoded (q : QueryScan) (ch : Char) : QueryScan :=
  { q with qurl := q.qurl ++ q.pending ++ [ch], pending := [] }

end QueryScan

/-- The loop over the query.  The byte after it is `#` or the final null, so an escape
that is cut off is not taken for one. -/
def scanQuery : Str → QueryScan → QueryScan
  | [], q => ({ q with qurl := q.qurl ++ q.pending, pending := [] } : QueryScan).emplace q.pos
  | ch :: rest, q =>
    if ch = '&' then
      let q := (q.emplace q.pos).advance ch
      scanQuery rest { q with nstart := q.pos, nend := q.pos }
    else if ch = '=' ∧ q.state ≠ .inValue then
      scanQuery rest
        (({ q with nend := q.pos, vstart := q.pos + 1, state := .inValue } : QueryScan).advance ch)
    else
      let q := if q.state = .beginning then { q with state := .inName } else q
      match ch, rest with
      | '%', a :: b :: tail =>
        match xvalue? a, xvalue? b with
        | some x, some y => scanQuery tail (q.decoded (Char.ofNat (x * 16 + y)))
        | _, _ => scanQuery (a :: b :: tail) (q.advance ch)
      | '+', rest => scanQuery rest (q.decoded ' ')
      | ch, rest => scanQuery rest (q.advance ch)

/-! ## What is known about the URL -/

/-- The query in the part `f[1]`, without its question mark. -/
def query (url : Str) (f : List (Nat × Nat)) : QueryScan :=
  match f[1]? with
  | some (first, last) =>
    if first ≠ last then scanQuery (view url (first + 1) last) {} else {}
  | none => {}

/-- `make_info`, which never sets `info_url`. -/
def makeInfo (m : HttpMessage) (fl : InfoFlags) : Info :=
  let inf := m.info.getD {}
  let inf :=
    if !inf.flags.url && (fl.url || fl.params) then { inf with f := urlParts m.url } else inf
  if !inf.flags.params && fl.params then
    let q := query m.url inf.f
    { inf with qurl := q.qurl, qpairs := q.qpairs, flags := { inf.flags with params := true } }
  else inf

/-- `info`: the flags asked for must all be set. -/
def infoFor (m : HttpMessage) (fl : InfoFlags) : Info :=
  match m.info with
  | some inf =>
    if (!fl.url || inf.flags.url) && (!fl.params || inf.flags.params) then inf
    else m.makeInfo fl
  | none => m.makeInfo fl

/-- `kill_info`. -/
def killInfo (m : HttpMessage) (fl : InfoFlags) : HttpMessage :=
  { m with
    info := m.info.map fun inf =>
      { inf with flags := ⟨inf.flags.url && !fl.url, inf.flags.params && !fl.params⟩ } }

/-- `url_field`; the fields are the path, the search and the hash. -/
def urlField (m : HttpMessage) (field : Fin 3) : Str :=
  match (m.infoFor { url := true }).f[field.val]? with
  | some (first, last) => if first ≠ last then view m.url first last else []
  | none => []

/-- `has_url_field`: `has_valid_url`, `has_search` and `has_hash`. -/
def hasUrlField (m : HttpMessage) (field : Fin 3) : Bool :=
  match (m.infoFor { url := true }).f[field.val]? with
  | some (first, last) => first != last
  | none => false

/-- The pairs from `search_param_begin()` to `search_param_end()`. -/
def searchParams (m : HttpMessage) : List (Str × Str) :=
  let inf := m.infoFor { params := true }
  inf.qpairs.map fun p => (p.name inf.qurl, p.value inf.qurl)

def hasSearchParam (m : HttpMessage) (name : Str) : Bool :=
  m.searchParams.any fun p => p.1 == name

def searchParam (m : HttpMessage) (name : Str) : Str :=
  ((m.searchParams.find? fun p => p.1 == name).map Prod.snd).getD []

/-! ## Examining a message -/

/-- The calls that examine a message. -/
inductive Observer where
  | error
  | httpMajor
  | httpMinor
  | statusCode
  | statusMessage
  | method
  | url
  | body
  | hasHeader (name : Str)
  | findHeader (name : Str)
  | header (name : Str)
  | headerList
  | hasUrlField (field : Fin 3)
  | urlField (field : Fin 3)
  | hasSearchParam (name : Str)
  | searchParam (name : Str)
  | searchParams
deriving DecidableEq, Repr

inductive Answer where
  | number (n : Nat)
  | string (s : Str)
  | flag (b : Bool)
  | pairs (ps : List (Str × Str))
deriving DecidableEq, Repr

def answer (m : HttpMessage) : Observer → Answer
  | .error => .number m.error
  | .httpMajor => .number m.major
  | .httpMinor => .number m.minor
  | .statusCode => .number m.statusCode
  | .statusMessage => .string m.statusMessage
  | .method => .number m.method
  | .url => .string m.url
  | .body => .string m.body
  | .hasHeader name => .flag (m.hasHeader name)
  | .findHeader name => .pairs (m.findHeader name).toList
  | .header name => .string (m.header name)
  | .headerList => .pairs m.headerList
  | .hasUrlField field => .flag (m.hasUrlField field)
  | .urlField field => .string (m.urlField field)
  | .hasSearchParam name => .flag (m.hasSearchParam name)
  | .searchParam name => .string (m.searchParam name)
  | .searchParams => .pairs m.searchParams

/-- What a call asks `info` for. -/
def Observer.needs : Observer → Option InfoFlags
  | .hasUrlField _ | .urlField _ => some { url := true }
  | .hasSearchParam _ | .searchParam _ | .searchParams => some { params := true }
  | _ => none

/-- The message after the call: `info_` is `mutable`. -/
def observed (m : HttpMessage) (o : Observer) : HttpMessage :=
  match o.needs with
  | some fl => { m with info := some (m.infoFor fl) }
  | none => m

/-- The answers to a sequence of calls. -/
def answers : HttpMessage → List Observer → List Answer
  | _, [] => []
  | m, o :: os => m.answer o :: (m.observed o).answers os

/-! ## Editing a message -/

/-- `do_clear`, which leaves the header text. -/
def clear (m : HttpMessage) : HttpMessage :=
  { m with
    major := 1, minor := 1, statusCode := 200, method := httpGet, error := hpeOk
    upgrade := false, hasBody := false, url := [], statusMessage := [], body := [], hpairs := []
    info := m.info.map fun inf => { inf with flags := {} } }

/-- The calls that edit a message.  The numbers are cut to the width of their fields. -/
inductive Edit where
  | clear
  | addHeader (key value : Str)
  | httpMajor (v : Nat)
  | httpMinor (v : Nat)
  | error (e : Nat)
  | statusCode (code : Nat) (message : Str)
  | method (method : Nat)
  | url (url : Str)
  | body (body : Str)
  | appendBody (str : Str)
  /-- `body(j)`, where `dump` is `j.dump()` -/
  | json (dump : Str)
deriving DecidableEq, Repr

def edit (m : HttpMessage) : Edit → HttpMessage
  | .clear => m.clear
  | .addHeader key value => m.addHeader key value
  | .httpMajor v => { m with major := v % 256 }
  | .httpMinor v => { m with minor := v % 256 }
  | .error e => { m with error := e % 256 }
  | .statusCode code message => { m with statusCode := code % 65536, statusMessage := message }
  | .method method => { m with method := method % 256 }
  | .url url => ({ m with url } : HttpMessage).killInfo { url := true, params := true }
  | .body body => { m with body, hasBody := true }
  | .appendBody str => { m with body := m.body ++ str, hasBody := true }
  | .json dump =>
    let m :=
      if m.hasHeader "Content-Type".toList then m
      else m.addHeader "Content-Type".toList "application/json".toList
    { m with body := dump, hasBody := true }

/-! ## Parsing a message -/

inductive ParseState where
  | unknown
  | headerName
  | headerValue
  | done
deriving DecidableEq, Repr

/-- The fields of `hp_` that a message takes over. -/
structure ParserStatus where
  httpMajor : Nat
  httpMinor : Nat
  statusCode : Nat
  method : Nat
  error : Nat
  upgrade : Bool
deriving DecidableEq, Repr

/-- `message_data`. -/
structure MessageData where
  hm : HttpMessage := { statusCode := 0 }
  state : ParseState := .unknown
  name1 : Nat := 0
  name2 : Nat := 0
  value1 : Nat := 0

def copyParserStatus (m : HttpMessage) (hp : ParserStatus) : HttpMessage :=
  { m with
    major := hp.httpMajor, minor := hp.httpMinor, statusCode := hp.statusCode
    method := hp.method, error := hp.error, upgrade := hp.upgrade }

/-- The callbacks of the parser, with the status they find in `hp_`. -/
inductive Callback where
  | messageBegin
  | url (s : Str)
  | status (s : Str) (hp : ParserStatus)
  | headerField (s : Str)
  | headerFieldComplete
  | headerValue (s : Str)
  | headerValueComplete
  | headersComplete (hp : ParserStatus)
  | chunkHeader
  | body (s : Str)
  | messageComplete
deriving DecidableEq, Repr

/-- Where the value ends without its trailing blanks, but not before `value1`. -/
def stripEnd (headers : Str) (value1 : Nat) : Nat → Nat
  | 0 => 0
  | v2 + 1 =>
    if value1 < v2 + 1 ∧ (headers[v2]?.map isHws).getD false then stripEnd headers value1 v2
    else v2 + 1

def callback (md : MessageData) : Callback → MessageData
  | .messageBegin => { md with hm := md.hm.clear, state := .unknown }
  | .url s => { md with hm := { md.hm with url := md.hm.url ++ s }, state := .unknown }
  | .status s hp =>
    let hm := if md.hm.major = 0 then md.hm.copyParserStatus hp else md.hm
    { md with hm := { hm with statusMessage := hm.statusMessage ++ s }, state := .unknown }
  | .headerField s =>
    let md :=
      if md.state ≠ .headerName then
        { md with name1 := md.hm.headers.length, state := .headerName }
      else md
    { md with hm := { md.hm with headers := md.hm.headers ++ s } }
  | .headerFieldComplete =>
    let md := if md.state ≠ .headerName then { md with name1 := md.hm.headers.length } else md
    { md with
      name2 := md.hm.headers.length
      hm := { md.hm with headers := md.hm.headers ++ ": ".toList }
      value1 := md.hm.headers.length + 2
      state := .headerValue }
  | .headerValue s => { md with hm := { md.hm with headers := md.hm.headers ++ s } }
  | .headerValueComplete =>
    let hpairs :=
      if md.state = .headerValue then
        md.hm.hpairs ++ [⟨md.name1, md.name2, md.value1,
          stripEnd md.hm.headers md.value1 md.hm.headers.length⟩]
      else md.hm.hpairs
    { md with hm := { md.hm with hpairs, headers := md.hm.headers ++ crlf }, state := .unknown }
  | .headersComplete hp => { md with hm := md.hm.copyParserStatus hp }
  -- here and at `.headersComplete` memory is reserved for the body, which may throw: left out
  | .chunkHeader => md
  | .body s => { md with hm := { md.hm with body := md.hm.body ++ s } }
  | .messageComplete => { md with state := .done }

/-- How the loop of `receive` ends: the connection is closed, or `llhttp_execute` has
stopped, perhaps because it paused. -/
inductive ReceiveEnd where
  | closed
  | stopped (hp : ParserStatus) (paused : Bool)
deriving DecidableEq, Repr

/-- The message that `receive` returns. -/
def receive (callbacks : List Callback) (ending : ReceiveEnd) : HttpMessage :=
  let md := callbacks.foldl callback {}
  let md : MessageData :=
    match ending with
    | .closed => md
    | .stopped hp paused =>
      { md with
        hm := md.hm.copyParserStatus hp
        state := if paused then .done else md.state }
  if md.state ≠ .done ∧ md.hm.error = hpeOk then { md.hm with error := hpeClosedConnection }
  else md.hm

end HttpMessage

end Http
end Psets
