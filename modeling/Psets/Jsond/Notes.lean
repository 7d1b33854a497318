/-
The notes server, over HTTP and over datagrams.

Both servers keep notes under ids that count up, and both dispatch on the method and the path.
They differ in their envelope: an HTTP request carries method and path outside its body, a
datagram is one JSON object with both as members.  The JSON library is a parameter; how a
response is rendered is left out, but not that rendering can throw.  What an exception leaves
has no result.
-/
import Mathlib.Algebra.GroupWithZero.Nat
import Psets.Containers.SortedMap
import Psets.RpcGame.Server
import Psets.Transition.Machine

namespace Psets
namespace Jsond

open Transition

/-- What the code tells apart of a JSON value. -/
inductive Json where
  | string (s : Str)
  | object (members : List (Str × Json))
  | other

/-- `find(key)`, which finds nothing in a value that is not an object. -/
def Json.find (key : Str) : Json → Option Json
  | .object members => members.lookup key
  | _ => none

/-- What `json::parse` does with a text.  The strings of a value are UTF-8. -/
inductive Parsed where
  | value (json : Json)
  /-- throw `parse_error`, which says `what` -/
  | parseError (what : Str)
  /-- throw `out_of_range`: a number is too large -/
  | outOfRange

/-- The JSON library: `parse`, and which texts `dump` takes for UTF-8.  It throws at others. -/
structure Library where
  parse : Str → Parsed
  utf8 : Str → Bool

/-- `note` -/
structure Note where
  id : Nat
  title : Str
  body : Str
deriving DecidableEq, Repr

/-- `notes_db`; ids have 64 bits. -/
structure NotesDb where
  notes : SortedMap Nat Note := SortedMap.empty
  nextId : Nat := 1

namespace NotesDb

/-- `create`.  `emplace` leaves a note that is there under the id. -/
def create (db : NotesDb) (title body : Str) : Note × NotesDb :=
  let nextId := (db.nextId + 1) % 2 ^ 64
  match db.notes.find? db.nextId with
  | some n => (n, { db with nextId })
  | none =>
      let n : Note := ⟨db.nextId, title, body⟩
      (n, { notes := db.notes.insert db.nextId n, nextId })

/-- `find` -/
def find (db : NotesDb) (id : Nat) : Option Note := db.notes.find? id

/-- `erase`: whether there was a note. -/
def erase (db : NotesDb) (id : Nat) : Bool × NotesDb :=
  ((db.find id).isSome, { db with notes := db.notes.erase id })

/-- `all`, in the order of the ids -/
def all (db : NotesDb) : List Note := db.notes.entries.map Prod.snd

def set (db : NotesDb) (id : Nat) (n : Note) : NotesDb :=
  { db with notes := db.notes.insert id n }

end NotesDb

/-- What a response says besides its status. -/
inductive Payload where
  | note (n : Note)
  | notes (ns : List Note)
  | deleted (id : Nat)
  | stats (count totalTextBytes : Nat) (recentIds : List Nat) (server : Str)
  | error (message : Str)
deriving DecidableEq, Repr

structure Response where
  status : Nat
  payload : Payload
deriving DecidableEq, Repr

def errorResponse (status : Nat) (message : String) : Response := ⟨status, .error message.toList⟩

inductive Method where
  | get
  | post
  | put
  | delete
  | other
deriving DecidableEq, Repr

/-- `parse_note_id`: the number of 64 bits after the prefix, all of it. -/
def parseNoteId (path : Str) : Option Nat :=
  if "/notes/".toList.isPrefixOf path then
    (RpcGame.fromStrChars (path.drop 7)).map BitVec.toNat
  else none

/-- The update of a note: each member is optional, and the title is stored before the body is
looked at. -/
def update (db : NotesDb) (id : Nat) (n : Note) (body : Json) : Response × NotesDb :=
  match body.find "title".toList with
  | some (.string title) => updateBody (db.set id { n with title }) { n with title }
  | some _ => (errorResponse 400 "title must be a string", db)
  | none => updateBody db n
where
  updateBody (db : NotesDb) (n : Note) : Response × NotesDb :=
    match body.find "body".toList with
    | some (.string text) =>
        (⟨200, .note { n with body := text }⟩, db.set id { n with body := text })
    | some _ => (errorResponse 400 "body must be a string", db)
    | none => (⟨200, .note n⟩, db)

/-- Go on with the value of a text.  Of the two exceptions of `parse` one is answered, as far as
`dump` takes what it says for UTF-8, and the other goes through. -/
def withValue (utf8 : Str → Bool) (parsed : Parsed) (db : NotesDb)
    (go : Json → Option (Response × NotesDb)) : Option (Response × NotesDb) :=
  match parsed with
  | .value json => go json
  | .parseError what =>
      if utf8 what then some (⟨400, .error ("invalid JSON: ".toList ++ what)⟩, db) else none
  | .outOfRange => none

/-- `handle` of both servers: `expected` is what the server says of a note without title and
body, `body` what `parse` does with the text that has the members. -/
def dispatch (utf8 : Str → Bool) (server : Str) (expected : String) (method : Method) (path : Str)
    (body : Parsed) (db : NotesDb) : Option (Response × NotesDb) :=
  if path = "/notes".toList then
    match method with
    | .get => some (⟨200, .notes db.all⟩, db)
    | .post =>
        withValue utf8 body db fun body =>
          match body.find "title".toList, body.find "body".toList with
          | some (.string title), some (.string text) =>
              let (n, db) := db.create title text
              some (⟨201, .note n⟩, db)
          | _, _ => some (errorResponse 400 expected, db)
    | _ => some (errorResponse 405 "method not allowed on /notes", db)
  else
    match parseNoteId path with
    | some id =>
        match method with
        | .get =>
            match db.find id with
            | none => some (errorResponse 404 "no such note", db)
            | some n => some (⟨200, .note n⟩, db)
        | .put =>
            match db.find id with
            | none => some (errorResponse 404 "no such note", db)
            | some n => withValue utf8 body db fun body => some (update db id n body)
        | .delete =>
            match db.erase id with
            | (false, db) => some (errorResponse 404 "no such note", db)
            | (true, db) => some (⟨200, .deleted id⟩, db)
        | _ => some (errorResponse 405 "method not allowed on /notes/<id>", db)
    | none =>
        if path = "/stats".toList ∧ method = .get then
          let totalBytes := (db.all.map fun n => n.title.length + n.body.length).foldl (· + ·) 0
          let recentIds := (db.all.reverse.map Note.id).take 5
          some (⟨200, .stats db.all.length totalBytes recentIds server⟩, db)
        else some (errorResponse 404 "no such route", db)

/-! ## The servers -/

section

variable (lib : Library)

/-- An HTTP request, as `handle` sees it. -/
structure Request where
  method : Method
  path : Str
  body : Str
deriving DecidableEq, Repr

/-- `handle` of `jsond` -/
def handle (req : Request) (db : NotesDb) : Option (Response × NotesDb) :=
  dispatch lib.utf8 "jsond".toList "expected \x7b\"title\": string, \"body\": string\x7d"
    req.method req.path (lib.parse req.body) db

/-- The methods of the datagrams. -/
def methodOf (name : Str) : Method :=
  if name = "GET".toList then .get
  else if name = "POST".toList then .post
  else if name = "PUT".toList then .put
  else if name = "DELETE".toList then .delete
  else .other

/-- `process_datagram` of `udp-jsond`, and the `dump` of its response -/
def processDatagram (payload : Str) (db : NotesDb) : Option (Response × NotesDb) :=
  withValue lib.utf8 (lib.parse payload) db fun req =>
    match req.find "path".toList with
    | some (.string path) =>
        match req.find "method".toList with
        | some (.string method) => answer (methodOf method) path req
        | some _ => malformed
        | none => answer .get path req
    | _ => malformed
where
  answer (method : Method) (path : Str) (req : Json) : Option (Response × NotesDb) :=
    dispatch lib.utf8 "udp-jsond".toList "expected \"title\" and \"body\" string fields" method path
      (.value req) db
  malformed : Option (Response × NotesDb) :=
    some (errorResponse 400 "expected \x7b\"method\": string, \"path\": string, ...\x7d", db)

/-- The notes, and the requests with their responses, the last one first. -/
structure State where
  db : NotesDb := {}
  log : List (Request × Response) := []

/-- The runs of `jsond`: connections send requests in any order, and each is handled without a
suspension.  An exception ends its connection, without a response. -/
def jsond : Machine State Request where
  init st := st = {}
  step st req :=
    match handle lib req st.db with
    | some (res, db) => some ⟨db, (req, res) :: st.log⟩
    | none => some st

/-- A datagram, with the socket that receives it. -/
structure Datagram where
  socket : Nat
  payload : Str
deriving DecidableEq, Repr

structure UdpState where
  db : NotesDb := {}
  /-- What was read, the last datagram first, with the response unless there was an exception. -/
  log : List (Datagram × Option Response) := []
  /-- The sockets whose `serve` has ended. -/
  ended : List Nat := []

/-- The runs of `udp-jsond`: datagrams come to its sockets in any order.  An exception ends the
`serve` of the socket, and nobody reads there any more. -/
def udpJsond : Machine UdpState Datagram where
  init st := st = {}
  step st d :=
    if d.socket ∈ st.ended then some st
    else
      match processDatagram lib d.payload st.db with
      | some (resp, db) => some { st with db, log := (d, some resp) :: st.log }
      | none => some { st with log := (d, none) :: st.log, ended := d.socket :: st.ended }

end

end Jsond
end Psets
