/-
The messages that are received do not depend on how the bytes arrive.

`llhttp` is taken to be a correct incremental parser.  Then a round of the loop in `receive`
is an incremental consumer of the connection's bytes.
-/
import Psets.Http.Fragments
import Psets.Transition.Pieces

namespace Psets
namespace Http

open HttpMessage Transition

/-! ## The loop -/

namespace Llhttp

variable {σ : Type} {llhttp : Llhttp σ} {hp : σ} {md : MessageData} {xs ys : Str}

/-- A round of the loop as a consumer. -/
def take (llhttp : Llhttp σ) (t : σ × MessageData) (buf : Str) : Taken (σ × MessageData) :=
  let r := llhttp.round t.1 t.2 buf
  if r.last then .stopped (r.hp, r.md) r.consumed else .all (r.hp, r.md)

theorem take_stopped (h : (llhttp.execute hp xs).err ≠ hpeOk) :
    llhttp.take (hp, md) xs =
      .stopped (llhttp.halt (llhttp.execute hp xs).err (llhttp.execute hp xs).hp
        ((llhttp.execute hp xs).calls.foldl callback md)) (llhttp.execute hp xs).errorPos := by
  simp only [take, round_of_stopped h, if_true]

theorem take_all (h : llhttp.Correct) (hok : (llhttp.execute hp xs).err = hpeOk)
    (hmd : md.state ≠ .done) : llhttp.take (hp, md) xs =
      .all ((llhttp.execute hp xs).hp, (llhttp.execute hp xs).calls.foldl callback md) ∧
      ((llhttp.execute hp xs).calls.foldl callback md).state ≠ .done := by
  have hcs : .messageComplete ∉ (llhttp.execute hp xs).calls := by
    intro hmem
    have herr := h.interrupted hmem
    rw [hok] at herr
    exact absurd herr (by decide)
  have hdone := state_ne_done hcs hmd
  refine ⟨?_, hdone⟩
  simp only [take, round_of_ok hok, if_neg hdone, Bool.false_eq_true, if_false]

theorem Correct.incremental (h : llhttp.Correct) :
    Incremental (fun t : σ × MessageData => t.2.state ≠ .done) llhttp.take where
  invariant := by
    rintro ⟨hp, md⟩ u xs hmd hu
    by_cases hok : (llhttp.execute hp xs).err = hpeOk
    · obtain ⟨ht, hdone⟩ := take_all h hok hmd
      obtain rfl := Taken.all.inj (ht.symm.trans hu)
      exact hdone
    · rw [take_stopped hok] at hu
      cases hu
  within := by
    rintro ⟨hp, md⟩ u xs n hmd hu
    by_cases hok : (llhttp.execute hp xs).err = hpeOk
    · rw [(take_all h hok hmd).1] at hu
      cases hu
    · rw [take_stopped hok] at hu
      obtain ⟨-, rfl⟩ := Taken.stopped.inj hu
      exact h.errorPos_le hok
  stopped := by
    rintro ⟨hp, md⟩ u xs n ys hmd hu
    by_cases hok : (llhttp.execute hp xs).err = hpeOk
    · rw [(take_all h hok hmd).1] at hu
      cases hu
    · obtain ⟨herr, hpos, hhp, hcalls⟩ := h.stops ys hok
      rw [take_stopped hok] at hu
      rw [take_stopped (by rw [herr]; exact hok), herr, hpos, hhp, foldl_of_joined hcalls, hu]
  all := by
    rintro ⟨hp, md⟩ u xs ys hmd hys hu
    by_cases hok : (llhttp.execute hp xs).err = hpeOk
    · obtain ⟨ht, hdone⟩ := take_all h hok hmd
      obtain rfl := Taken.all.inj (ht.symm.trans hu)
      obtain ⟨herr, hpos, hhp, hcalls⟩ := h.resumes hok hys
      have hfold := foldl_of_joined hcalls md
      rw [List.foldl_append] at hfold
      by_cases hok' : (llhttp.execute (llhttp.execute hp xs).hp ys).err = hpeOk
      · rw [(take_all h (herr.trans hok') hmd).1, (take_all h hok' hdone).1, hhp, hfold]
        rfl
      · rw [take_stopped (by rw [herr]; exact hok'), take_stopped hok', herr, hpos hok', hhp, hfold]
        rfl
    · rw [take_stopped hok] at hu
      cases hu

/-! ## Successive calls -/

/-- The loop in `receive` is a consumer of the pieces that it gets. -/
theorem receiveLoop_eq (parsed : Str) (bufs : List Str) :
    llhttp.receiveLoop hp md parsed bufs =
      let c := consume llhttp.take (hp, md) bufs
      llhttp.finish c.state.2 {
        hp := c.state.1, receiveBuffer := c.left, incoming := c.pieces
        parsed := parsed ++ c.taken } := by
  induction bufs generalizing hp md parsed with
  | nil => simp [receiveLoop, consume]
  | cons buf bufs ih =>
    rw [receiveLoop, consume]
    cases hl : (llhttp.round hp md buf).last with
    | true => simp [take, hl]
    | false => simp [take, hl, ih, List.append_assoc]

end Llhttp

namespace Connection

variable {σ : Type} {llhttp : Llhttp σ} {c c' : Connection σ}

/-- What `receive` finds in its buffer, and the results of `recv` after it. -/
def bufs (c : Connection σ) : List Str :=
  if c.receiveBuffer = [] then c.incoming else c.receiveBuffer :: c.incoming

/-- The bytes that were not parsed. -/
def remaining (c : Connection σ) : Str := c.receiveBuffer ++ c.incoming.flatten

theorem flatten_bufs (c : Connection σ) : c.bufs.flatten = c.remaining := by
  rw [bufs, remaining]
  split
  · rename_i h
    rw [h, List.nil_append]
  · rw [List.flatten_cons]

theorem nil_notMem_bufs (h : [] ∉ c.incoming) : [] ∉ c.bufs := by
  rw [bufs]
  split
  · exact h
  · rename_i hne
    intro hmem
    rcases List.mem_cons.1 hmem with he | hmem
    · exact hne he.symm
    · exact h hmem

theorem receive_eq (c : Connection σ) : llhttp.receive c =
    llhttp.finish (consume llhttp.take (c.hp, {}) c.bufs).state.2 {
      hp := (consume llhttp.take (c.hp, {}) c.bufs).state.1
      receiveBuffer := (consume llhttp.take (c.hp, {}) c.bufs).left
      incoming := (consume llhttp.take (c.hp, {}) c.bufs).pieces
      parsed := c.parsed ++ (consume llhttp.take (c.hp, {}) c.bufs).taken } :=
  Llhttp.receiveLoop_eq c.parsed c.bufs

/-- Where `recv` cuts the stream is all that may differ. -/
structure Same (c c' : Connection σ) : Prop where
  hp : c.hp = c'.hp
  parsed : c.parsed = c'.parsed
  remaining : c.remaining = c'.remaining
  incoming : [] ∉ c.incoming
  incoming' : [] ∉ c'.incoming

theorem finish_same (md : MessageData) (h : c.Same c') :
    (llhttp.finish md c).1 = (llhttp.finish md c').1 ∧
      (llhttp.finish md c).2.Same (llhttp.finish md c').2 := by
  rw [Llhttp.finish, Llhttp.finish]
  split
  · exact ⟨rfl, by rw [h.hp], h.parsed, h.remaining, h.incoming, h.incoming'⟩
  · exact ⟨rfl, h⟩

theorem finish_bytes (md : MessageData) (c : Connection σ) :
    (llhttp.finish md c).2.parsed = c.parsed ∧
      (llhttp.finish md c).2.remaining = c.remaining := by
  rw [Llhttp.finish]
  split
  · exact ⟨rfl, rfl⟩
  · exact ⟨rfl, rfl⟩

/-- One call of `receive`, and the connection after it. -/
theorem receive_same (hl : llhttp.Correct) (h : c.Same c') :
    (llhttp.receive c).1 = (llhttp.receive c').1 ∧
      (llhttp.receive c).2.Same (llhttp.receive c').2 := by
  have hne := nil_notMem_bufs h.incoming
  have hne' := nil_notMem_bufs h.incoming'
  have hflat : c.bufs.flatten = c'.bufs.flatten := by
    rw [flatten_bufs, flatten_bufs, h.remaining]
  have hstart : ({} : MessageData).state ≠ .done := by decide
  obtain ⟨hstate, htaken, hrest⟩ :=
    hl.incremental.consume_congr (t := (c.hp, {})) hstart hne hne' hflat
  rw [receive_eq, receive_eq, ← h.hp, ← hstate]
  refine finish_same _ ⟨rfl, ?_, hrest, consume_pieces_ne_nil _ hne, consume_pieces_ne_nil _ hne'⟩
  show c.parsed ++ _ = c'.parsed ++ _
  rw [h.parsed, htaken]

/-- A call of `receive` parses the stream from where the last one stopped. -/
theorem receive_bytes (c : Connection σ) :
    (llhttp.receive c).2.parsed ++ (llhttp.receive c).2.remaining = c.parsed ++ c.remaining := by
  rw [receive_eq, (finish_bytes _ _).1, (finish_bytes _ _).2]
  simp only [remaining]
  rw [List.append_assoc, consume_append, flatten_bufs, remaining]

theorem receives_same (hl : llhttp.Correct) (h : c.Same c') (n : Nat) :
    (llhttp.receives n c).1 = (llhttp.receives n c').1 ∧
      (llhttp.receives n c).2.Same (llhttp.receives n c').2 := by
  induction n generalizing c c' with
  | zero => exact ⟨rfl, h⟩
  | succ n ih =>
    obtain ⟨hm, hc⟩ := receive_same hl h
    obtain ⟨hms, hcs⟩ := ih hc
    exact ⟨by simp only [Llhttp.receives, hm, hms], hcs⟩

theorem receives_bytes (c : Connection σ) (n : Nat) :
    (llhttp.receives n c).2.parsed ++ (llhttp.receives n c).2.remaining =
      c.parsed ++ c.remaining := by
  induction n generalizing c with
  | zero => rfl
  | succ n ih => exact (ih _).trans (receive_bytes c)

/-- The messages of successive calls of `receive` are those of the stream, however `recv` cuts
it; so are the bytes that were parsed, which with the rest are the stream. -/
theorem receives_of_stream (hl : llhttp.Correct) (hp : σ) {chunks chunks' : List Str}
    (hne : [] ∉ chunks) (hne' : [] ∉ chunks') (hflat : chunks.flatten = chunks'.flatten) (n : Nat) :
    let r := llhttp.receives n { hp, incoming := chunks }
    let r' := llhttp.receives n { hp, incoming := chunks' }
    r.1 = r'.1 ∧ r.2.parsed = r'.2.parsed ∧ r.2.parsed ++ r.2.remaining = chunks.flatten := by
  have hsame : ({ hp, incoming := chunks } : Connection σ).Same { hp, incoming := chunks' } :=
    ⟨rfl, rfl, hflat, hne, hne'⟩
  obtain ⟨hms, hc⟩ := receives_same hl hsame n
  exact ⟨hms, hc.parsed, receives_bytes _ n⟩

end Connection

/-! ## Two requests in one stream, and in many pieces -/

/-- Where the parser is in a GET request of HTTP/1.1 without a body. -/
inductive GetStage where
  | start
  | expect (rest : Str) (next : GetStage)
  | url
  /-- at the first byte of the first header, or of the line after the last -/
  | line
  | field
  | valueStart
  | value
  /-- as `line`, after a header -/
  | valueEnd
  | last
  deriving DecidableEq, Repr

/-- `HPE_INVALID_METHOD`, `HPE_INVALID_CONSTANT` and `HPE_LF_EXPECTED` -/
def hpeInvalidMethod : Nat := 6
def hpeInvalidConstant : Nat := 8
def hpeLfExpected : Nat := 3

def getStatus : ParserStatus := ⟨1, 1, 0, httpGet, hpeOk, false⟩

def getStep : GetStage → Char → ByteStep GetStage
  | .start, ch =>
    if ch = 'G' then .next [.messageBegin] (.expect "ET ".toList .url)
    else .fail hpeInvalidMethod .start
  | .expect (c :: rest) next, ch =>
    if ch = c then .next [] (if rest = [] then next else .expect rest next)
    else .fail hpeInvalidConstant (.expect (c :: rest) next)
  | .expect [] next, _ => .fail hpeInvalidConstant (.expect [] next)
  | .url, ch =>
    if ch = ' ' then .next [] (.expect "HTTP/1.1\r\n".toList .line) else .next [.url [ch]] .url
  | .line, ch => if ch = '\r' then .next [] .last else .next [.headerField [ch]] .field
  | .field, ch =>
    if ch = ':' then .next [.headerFieldComplete] .valueStart
    else .next [.headerField [ch]] .field
  | .valueStart, ch =>
    if ch = ' ' then .next [] .valueStart else .next [.headerValue [ch]] .value
  | .value, ch =>
    if ch = '\r' then .next [] (.expect ['\n'] .valueEnd) else .next [.headerValue [ch]] .value
  | .valueEnd, ch =>
    if ch = '\r' then .next [.headerValueComplete] .last
    else .next [.headerValueComplete, .headerField [ch]] .field
  | .last, ch =>
    if ch = '\n' then .complete [.headersComplete getStatus] .start else .fail hpeLfExpected .last

def getParser : Llhttp GetStage where
  execute := executeBytes getStep
  resume hp := hp
  resumeAfterUpgrade hp := hp
  status _ := getStatus
  setError hp _ := hp

theorem getStep_sound (hp : GetStage) (ch : Char) : (getStep hp ch).Sound := by
  have hmethod : hpeInvalidMethod ≠ hpeOk := by decide
  have hconstant : hpeInvalidConstant ≠ hpeOk := by decide
  have hlf : hpeLfExpected ≠ hpeOk := by decide
  cases hp with
  | start => exact .ite (a := .next _ _) (by simp [ByteStep.Sound]) hmethod
  | expect rest next =>
    cases rest with
    | nil => exact hconstant
    | cons c rest => exact .ite (a := .next _ _) (by simp [ByteStep.Sound]) hconstant
  | last => exact .ite (a := .complete _ _) trivial hlf
  | url | line | field | valueStart | value | valueEnd =>
    exact .ite (a := .next _ _) (by simp [ByteStep.Sound]) (b := .next _ _)
      (by simp [ByteStep.Sound])

theorem getParser_correct : getParser.Correct := executeBytes_correct rfl getStep_sound

def twoRequests : Str :=
  "GET /a HTTP/1.1\r\nHost: x\r\n\r\nGET /b HTTP/1.1\r\n\r\n".toList

/-- The stream cut within a name, and at the end of the first request. -/
def twoRequestsCut : List Str :=
  [twoRequests.take 18, (twoRequests.drop 18).take 10, twoRequests.drop 28]

theorem receives_of_two_requests :
    let r := getParser.receives 3 { hp := .start, incoming := [twoRequests] }
    let r' := getParser.receives 3 { hp := .start, incoming := twoRequestsCut }
    r.1 = r'.1 ∧ r.2.parsed = r'.2.parsed ∧
      r.2.parsed ++ r.2.remaining = [twoRequests].flatten :=
  Connection.receives_of_stream getParser_correct .start (by decide) (by decide)
    (by decide) 3

example : (getParser.receives 3 { hp := .start, incoming := twoRequestsCut }).1.map
    (fun m => (m.url, m.headerList, m.error)) =
      [("/a".toList, [("Host".toList, "x".toList)], hpeOk), ("/b".toList, [], hpeOk),
        ([], [], hpeClosedConnection)] := by
  decide +kernel

end Http
end Psets
