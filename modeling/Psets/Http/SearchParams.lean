/-
The parameters of a query.

The text between the first `?` and the first `#` of a URL is divided at `&`, each part that
is not empty is divided at its first `=`, and both sides are decoded.  The loop over the
query does this from the left to the right, and keeps the text that it has decoded in one
string.
-/
import Psets.Http.Copy
import Psets.Http.UrlParts

namespace Psets
namespace Http

open Containers

/-! ## What the parameters are -/

/-- The characters that a name or a value stands for. -/
def decode : Str → Str
  | [] => []
  | '+' :: rest => ' ' :: decode rest
  | '%' :: a :: b :: rest =>
    match xvalue? a, xvalue? b with
    | some x, some y => Char.ofNat (x * 16 + y) :: decode rest
    | _, _ => '%' :: decode (a :: b :: rest)
  | ch :: rest => ch :: decode rest

/-- The name and the value in a part of the query. -/
def param (segment : Str) : Str × Str :=
  (decode (before '=' segment), decode (after '=' segment))

def paramsOf (search : Str) : List (Str × Str) :=
  ((search.splitOn '&').filter fun segment => !segment.isEmpty).map param

/-! ## Decoding from the left -/

/-- The first character of a decoded text, and what is left to decode. -/
def decodeOne : Char → Str → Char × Str
  | '+', rest => (' ', rest)
  | '%', a :: b :: rest =>
    match xvalue? a, xvalue? b with
    | some x, some y => (Char.ofNat (x * 16 + y), rest)
    | _, _ => ('%', a :: b :: rest)
  | ch, rest => (ch, rest)

theorem decode_cons (ch : Char) (rest : Str) :
    decode (ch :: rest) = (decodeOne ch rest).1 :: decode (decodeOne ch rest).2 := by
  fun_cases decodeOne ch rest <;> simp_all [decode]

theorem length_decodeOne (ch : Char) (rest : Str) :
    (decodeOne ch rest).2.length ≤ rest.length := by
  fun_cases decodeOne ch rest <;> simp
  omega

/-- The text begins with an escape. -/
def Escape (ch : Char) (rest : Str) : Prop :=
  ∃ a b tail x y, ch = '%' ∧ rest = a :: b :: tail ∧ xvalue? a = some x ∧ xvalue? b = some y

theorem decodeOne_escape {a b : Char} {x y : Nat} (ha : xvalue? a = some x)
    (hb : xvalue? b = some y) (tail : Str) :
    decodeOne '%' (a :: b :: tail) = (Char.ofNat (x * 16 + y), tail) := by
  simp [decodeOne, ha, hb]

theorem decodeOne_plain {ch : Char} {rest : Str} (h : ¬ Escape ch rest) :
    decodeOne ch rest = (if ch = '+' then ' ' else ch, rest) := by
  fun_cases decodeOne ch rest with
  | case1 => rfl
  | case2 a b tail x y ha hb => exact absurd ⟨a, b, tail, x, y, rfl, rfl, hb, ha⟩ h
  | case3 a b tail => rfl
  | case4 _ _ hplus => rw [if_neg hplus]

/-- Text that is cut off before a separator, which is not a digit. -/
theorem escape_before {a ch : Char} {rest : Str} (h : Escape ch (before a rest)) :
    Escape ch rest := by
  obtain ⟨b, c, tail, x, y, hch, hrest, hb, hc⟩ := h
  obtain ⟨more, hmore⟩ : before a rest <+: rest := List.takeWhile_prefix _
  rw [hrest] at hmore
  exact ⟨b, c, tail ++ more, x, y, hch, hmore.symm, hb, hc⟩

theorem ne_of_digit {a b : Char} {x : Nat} (ha : xvalue? a = none) (hb : xvalue? b = some x) :
    b ≠ a := by
  rintro rfl
  rw [ha] at hb
  cases hb

theorem decodeOne_before {a : Char} (ha : xvalue? a = none) (ch : Char) (rest : Str) :
    decodeOne ch (before a rest) = ((decodeOne ch rest).1, before a (decodeOne ch rest).2) := by
  by_cases h : Escape ch rest
  · obtain ⟨b, c, tail, x, y, rfl, rfl, hb, hc⟩ := h
    rw [before_cons (ne_of_digit ha hb), before_cons (ne_of_digit ha hc), decodeOne_escape hb hc,
      decodeOne_escape hb hc]
  · rw [decodeOne_plain h, decodeOne_plain fun hcut => h (escape_before hcut)]

theorem after_decodeOne {a : Char} (ha : xvalue? a = none) (ch : Char) (rest : Str) :
    after a (decodeOne ch rest).2 = after a rest := by
  by_cases h : Escape ch rest
  · obtain ⟨b, c, tail, x, y, rfl, rfl, hb, hc⟩ := h
    rw [after_cons (ne_of_digit ha hb), after_cons (ne_of_digit ha hc), decodeOne_escape hb hc]
  · rw [decodeOne_plain h]

/-! ## Reading a part from the left -/

/-- What was read of a part: nothing, some of its name, or its name and some of its value. -/
inductive Reading where
  | nothing
  | name (name : Str)
  | value (name value : Str)

namespace Reading

/-- The parameters if the part ends here. -/
def ended : Reading → List (Str × Str)
  | nothing => []
  | name n => [(n, [])]
  | value n v => [(n, v)]

/-- The parameters if the part goes on with a text. -/
def followed : Reading → Str → List (Str × Str)
  | nothing, rest => paramsOf rest
  | name n, rest =>
    (n ++ (param (before '&' rest)).1, (param (before '&' rest)).2) :: paramsOf (after '&' rest)
  | value n v, rest => (n, v ++ decode (before '&' rest)) :: paramsOf (after '&' rest)

/-- One more character. -/
def push : Reading → Char → Reading
  | nothing, _ => nothing
  | name n, ch => name (n ++ [ch])
  | value n v, ch => value n (v ++ [ch])

theorem paramsOf_eq (rest : Str) :
    paramsOf rest =
      ([before '&' rest].filter fun segment => !segment.isEmpty).map param ++
        paramsOf (after '&' rest) := by
  rw [paramsOf, filter_splitOn, List.map_append, paramsOf]

theorem followed_nil (r : Reading) : r.followed [] = r.ended := by
  cases r with
  | nothing => rfl
  | name n => simp [followed, ended, param, paramsOf, decode]
  | value n v => simp [followed, ended, paramsOf, decode]

theorem followed_separator (r : Reading) (rest : Str) :
    r.followed ('&' :: rest) = r.ended ++ paramsOf rest := by
  cases r with
  | nothing =>
    rw [followed, paramsOf_eq, before_self, after_self]
    rfl
  | name n => simp [followed, ended, param, decode]
  | value n v => simp [followed, ended, decode]

/-- A part begins. -/
theorem nothing_followed {ch : Char} (h : ch ≠ '&') (rest : Str) :
    nothing.followed (ch :: rest) = (name []).followed (ch :: rest) := by
  rw [followed, followed, paramsOf_eq, before_cons h]
  rfl

/-- A name ends. -/
theorem name_followed_equals (n rest : Str) :
    (name n).followed ('=' :: rest) = (value n []).followed rest := by
  rw [followed, followed, before_cons (by decide), after_cons (by decide), param, before_self,
    after_self, decode, List.append_nil, List.nil_append]

/-- A name or a value goes on. -/
theorem followed_cons {r : Reading} {ch : Char} {rest : Str} (hr : r ≠ nothing) (h : ch ≠ '&')
    (hname : ∀ n, r = name n → ch ≠ '=') :
    r.followed (ch :: rest) = (r.push (decodeOne ch rest).1).followed (decodeOne ch rest).2 := by
  have hand : xvalue? '&' = none := by decide
  have heq : xvalue? '=' = none := by decide
  cases r with
  | nothing => exact absurd rfl hr
  | name n =>
    have hne := hname n rfl
    rw [push, followed, followed, before_cons h, after_cons h, after_decodeOne hand]
    have hcut := decodeOne_before hand ch rest
    have hcut' := decodeOne_before heq ch (before '&' rest)
    have hafter := after_decodeOne heq ch (before '&' rest)
    rw [hcut] at hcut' hafter
    rw [param, param, before_cons hne, after_cons hne, decode_cons, hcut', ← hafter,
      List.append_assoc, List.singleton_append]
  | value n v =>
    rw [push, followed, followed, before_cons h, after_cons h, after_decodeOne hand, decode_cons,
      decodeOne_before hand, List.append_assoc, List.singleton_append]

end Reading

/-! ## The loop over the query -/

namespace HttpMessage

namespace QueryScan

variable {q : QueryScan} {done : List (Str × Str)} {r : Reading} {u p : Str} {c ch : Char}

/-- The decoded text with what it has yet to take. -/
def text (q : QueryScan) : Str := q.qurl ++ q.pending

/-- The parameters in a decoded text. -/
def params (q : QueryScan) (text : Str) : List (Str × Str) :=
  q.qpairs.map fun p => (p.name text, p.value text)

theorem pos_eq (q : QueryScan) : q.pos = q.text.length := (List.length_append ..).symm

theorem pos_advance (q : QueryScan) (ch : Char) : (q.advance ch).pos = q.pos + 1 := by
  rw [pos, pos, advance, List.length_append, List.length_singleton, Nat.add_assoc]

theorem pos_decoded (q : QueryScan) (ch : Char) : (q.decoded ch).pos = q.pos + 1 := by
  rw [pos, pos, decoded]
  simp only [List.length_append, List.length_singleton, List.length_nil, Nat.add_zero]

/-- The loop is where the reading is. -/
def At (q : QueryScan) : Reading → Prop
  | .nothing => q.state = .beginning ∧ q.nstart = q.text.length
  | .name n => q.state = .inName ∧ q.nstart ≤ q.text.length ∧ q.text.drop q.nstart = n
  | .value n v => q.state = .inValue ∧ q.vstart ≤ q.text.length ∧ q.text.drop q.vstart = v ∧
      ∀ more, view (q.text ++ more) q.nstart q.nend = n

/-- What the loop has found, whatever the text is that follows. -/
structure Reads (q : QueryScan) (done : List (Str × Str)) (r : Reading) : Prop where
  params : ∀ more, q.params (q.text ++ more) = done
  reading : q.At r

theorem view_to_end {s : Str} {first : Nat} (h : first ≤ s.length) (more : Str) :
    view (s ++ more) first s.length = s.drop first := by
  rw [view, List.drop_append_of_le_length h, List.take_left' (List.length_drop)]

theorem view_self (s : Str) (pos : Nat) : view s pos pos = [] := by
  rw [view, Nat.sub_self, List.take_zero]

/-! ### The end of a part -/

@[simp] theorem emplace_state (q : QueryScan) (vend : Nat) :
    (q.emplace vend).state = .beginning := by
  rw [emplace]
  split
  · assumption
  · rfl
  · rfl

@[simp] theorem emplace_text (q : QueryScan) (vend : Nat) :
    (q.emplace vend).qurl = q.qurl ∧ (q.emplace vend).pending = q.pending := by
  rw [emplace]
  split <;> exact ⟨rfl, rfl⟩

theorem Reads.emplace (h : q.Reads done r) (more : Str) :
    (q.emplace q.pos).params (q.text ++ more) = done ++ r.ended := by
  obtain ⟨hparams, hreading⟩ := h
  have hdone := hparams more
  rw [QueryScan.params] at hdone
  rw [pos_eq]
  cases r with
  | nothing =>
    rw [QueryScan.emplace, hreading.1, QueryScan.params, hdone]
    exact (List.append_nil done).symm
  | name n =>
    obtain ⟨hstate, hstart, rfl⟩ := hreading
    rw [QueryScan.emplace, hstate, QueryScan.params, List.map_append, hdone]
    simp only [List.map_cons, List.map_nil, KvOffsets.name, KvOffsets.value, view_to_end hstart,
      view_self, Reading.ended]
  | value n v =>
    obtain ⟨hstate, hstart, rfl, hname⟩ := hreading
    rw [QueryScan.emplace, hstate, QueryScan.params, List.map_append, hdone]
    simp only [List.map_cons, List.map_nil, KvOffsets.name, KvOffsets.value, view_to_end hstart,
      hname, Reading.ended]

/-- A separator. -/
theorem Reads.separator (h : q.Reads done r) :
    let q' := (q.emplace q.pos).advance '&'
    ({ q' with nstart := q'.pos, nend := q'.pos } : QueryScan).Reads (done ++ r.ended)
      .nothing := by
  obtain ⟨hqurl, hpending⟩ := emplace_text q q.pos
  have htext : ((q.emplace q.pos).advance '&').text = q.text ++ ['&'] := by
    rw [text, advance, hqurl, hpending, text, List.append_assoc]
  refine ⟨fun more => ?_, emplace_state q q.pos, pos_eq _⟩
  have hparams := h.emplace ('&' :: more)
  rw [← hparams]
  show (q.emplace q.pos).params (((q.emplace q.pos).advance '&').text ++ more) = _
  rw [htext, List.append_assoc, List.singleton_append]

theorem emplace_flush (q : QueryScan) (u p : Str) (vend : Nat) :
    ({ q with qurl := u, pending := p } : QueryScan).emplace vend =
      { q.emplace vend with qurl := u, pending := p } := by
  obtain ⟨state⟩ := q
  cases state <;> rfl

/-! ### One more character -/

/-- A name begins. -/
theorem Reads.begin (h : q.Reads done .nothing) :
    ({ q with state := .inName } : QueryScan).Reads done (.name []) := by
  refine ⟨h.params, rfl, h.reading.2.le, ?_⟩
  exact List.drop_eq_nil_of_le h.reading.2.ge

/-- The part has begun. -/
def started (q : QueryScan) : QueryScan :=
  if q.state = .beginning then { q with state := .inName } else q

/-- A part whose value has not begun is a name. -/
theorem Reads.of_not_inValue (h : q.Reads done r) (hstate : q.state ≠ .inValue) :
    ∃ n, ({ q with state := .inName } : QueryScan).Reads done (.name n) ∧
      ∀ {ch rest}, ch ≠ '&' → r.followed (ch :: rest) = (Reading.name n).followed (ch :: rest) := by
  cases r with
  | nothing => exact ⟨[], h.begin, fun hand => Reading.nothing_followed hand _⟩
  | name n =>
    have hq : ({ q with state := .inName } : QueryScan) = q := by
      rw [← h.reading.1]
    exact ⟨n, hq ▸ h, fun _ => rfl⟩
  | value n v => exact absurd h.reading.1 hstate

/-- A character that is no separator is part of a name or of a value. -/
theorem Reads.started (h : q.Reads done r) (hand : ch ≠ '&')
    (heq : ¬ (ch = '=' ∧ q.state ≠ .inValue)) {rest : Str} :
    ∃ r' : Reading, r' ≠ .nothing ∧
      q.started.Reads done r' ∧
      (∀ n, r' = .name n → ch ≠ '=') ∧ r.followed (ch :: rest) = r'.followed (ch :: rest) := by
  by_cases hstate : q.state = .inValue
  · cases r with
    | nothing => exact absurd (h.reading.1.symm.trans hstate) (by decide)
    | name n => exact absurd (h.reading.1.symm.trans hstate) (by decide)
    | value n v =>
      rw [QueryScan.started, if_neg (by rw [hstate]; decide)]
      exact ⟨.value n v, Reading.noConfusion, h, fun _ => Reading.noConfusion, rfl⟩
  · obtain ⟨n, hname, hfollowed⟩ := h.of_not_inValue hstate
    have hq : q.started = { q with state := .inName } := by
      rw [QueryScan.started]
      split
      · rfl
      · have hname : q.state = .inName := by
          cases hq : q.state <;> simp_all
        rw [← hname]
    rw [hq]
    exact ⟨.name n, Reading.noConfusion, hname, fun _ _ hch => heq ⟨hch, hstate⟩, hfollowed hand⟩

/-- A value begins. -/
theorem Reads.equals {n : Str}
    (h : ({ q with state := .inName } : QueryScan).Reads done (.name n)) :
    (({ q with nend := q.pos, vstart := q.pos + 1, state := .inValue } : QueryScan).advance
      '=').Reads done (.value n []) := by
  obtain ⟨hparams, -, hstart, hname⟩ := h
  have htext : (({ q with nend := q.pos, vstart := q.pos + 1, state := .inValue } :
      QueryScan).advance '=').text = q.text ++ ['='] := by
    rw [text, advance, text, List.append_assoc]
  refine ⟨fun more => ?_, rfl, ?_, ?_, fun more => ?_⟩
  · rw [htext, List.append_assoc]
    exact hparams _
  · rw [htext, List.length_append]
    exact (congrArg (· + 1) (pos_eq q)).le
  · rw [htext]
    refine List.drop_eq_nil_of_le ?_
    rw [List.length_append]
    exact (congrArg (· + 1) (pos_eq q)).ge
  · rw [htext, List.append_assoc]
    show view _ q.nstart q.pos = n
    rw [pos_eq, ← hname]
    exact view_to_end hstart _

/-- A name or a value takes a character. -/
theorem Reads.push (h : q.Reads done r) (hr : r ≠ .nothing) (htext : u ++ p = q.text ++ [c]) :
    ({ q with qurl := u, pending := p } : QueryScan).Reads done (r.push c) := by
  obtain ⟨hparams, hreading⟩ := h
  refine ⟨fun more => ?_, ?_⟩
  · rw [text, htext, List.append_assoc]
    exact hparams _
  · cases r with
    | nothing => exact absurd rfl hr
    | name n =>
      obtain ⟨hstate, hstart, rfl⟩ := hreading
      refine ⟨hstate, ?_, ?_⟩
      · rw [text, htext, List.length_append]
        exact hstart.trans (Nat.le_add_right _ _)
      · rw [text, htext]
        exact List.drop_append_of_le_length hstart
    | value n v =>
      obtain ⟨hstate, hstart, rfl, hname⟩ := hreading
      refine ⟨hstate, ?_, ?_, fun more => ?_⟩
      · rw [text, htext, List.length_append]
        exact hstart.trans (Nat.le_add_right _ _)
      · rw [text, htext]
        exact List.drop_append_of_le_length hstart
      · rw [text, htext, List.append_assoc]
        exact hname _

end QueryScan

/-! ### The loop -/

open QueryScan

/-- The three kinds of rounds for characters that are no separators. -/
theorem scanQuery_escape {a b : Char} {tail : Str} {q : QueryScan} {x y : Nat}
    (ha : xvalue? a = some x) (hb : xvalue? b = some y) :
    scanQuery ('%' :: a :: b :: tail) q =
      scanQuery tail (q.started.decoded (Char.ofNat (x * 16 + y))) := by
  rw [scanQuery, if_neg (by decide), if_neg fun h => absurd h.1 (by decide)]
  simp only [ha, hb]
  rfl

theorem scanQuery_plus (rest : Str) (q : QueryScan) :
    scanQuery ('+' :: rest) q = scanQuery rest (q.started.decoded ' ') := by
  rw [scanQuery, if_neg (by decide), if_neg fun h => absurd h.1 (by decide)]
  rfl

theorem scanQuery_plain {ch : Char} {rest : Str} {q : QueryScan} (hand : ch ≠ '&')
    (heq : ¬ (ch = '=' ∧ q.state ≠ .inValue)) (hplus : ch ≠ '+') (h : ¬ Escape ch rest) :
    scanQuery (ch :: rest) q = scanQuery rest (q.started.advance ch) := by
  rw [scanQuery, if_neg hand, if_neg heq]
  dsimp only
  split
  · rename_i a b tail
    split
    · rename_i x y ha hb
      exact absurd ⟨a, b, tail, x, y, rfl, rfl, ha, hb⟩ h
    · rfl
  · exact absurd rfl hplus
  · rfl

/-- What the loop takes of a character that is no separator, or of the escape that begins
with it. -/
theorem scanQuery_other {ch : Char} (rest : Str) {q : QueryScan} (hand : ch ≠ '&')
    (heq : ¬ (ch = '=' ∧ q.state ≠ .inValue)) :
    ∃ u p, u ++ p = q.started.text ++ [(decodeOne ch rest).1] ∧
      scanQuery (ch :: rest) q =
        scanQuery (decodeOne ch rest).2 { q.started with qurl := u, pending := p } := by
  have hdecoded : ∀ c, (q.started.qurl ++ q.started.pending ++ [c]) ++ [] = q.started.text ++ [c] :=
    fun c => List.append_nil _
  by_cases h : Escape ch rest
  · obtain ⟨a, b, tail, x, y, rfl, rfl, ha, hb⟩ := h
    rw [decodeOne_escape ha hb]
    exact ⟨_, _, hdecoded (Char.ofNat (x * 16 + y)), scanQuery_escape ha hb⟩
  · rw [decodeOne_plain h]
    by_cases hplus : ch = '+'
    · subst hplus
      exact ⟨_, _, hdecoded ' ', scanQuery_plus rest q⟩
    · refine ⟨q.started.qurl, q.started.pending ++ [ch], ?_, scanQuery_plain hand heq hplus h⟩
      rw [if_neg hplus, text, List.append_assoc]

/-- The loop finds the parameters in what is left of the query. -/
theorem scanQuery_reads {rest : Str} {q : QueryScan} {done : List (Str × Str)} {r : Reading}
    (h : q.Reads done r) :
    (scanQuery rest q).params (scanQuery rest q).qurl = done ++ r.followed rest := by
  induction hn : rest.length using Nat.strong_induction_on generalizing rest q done r with
  | _ n ih =>
    cases rest with
    | nil =>
      have hend := h.emplace []
      rw [List.append_nil] at hend
      rw [Reading.followed_nil, ← hend, scanQuery, emplace_flush]
      rfl
    | cons ch rest =>
      have hshort : rest.length < n := hn ▸ Nat.lt_succ_self _
      by_cases hand : ch = '&'
      · subst hand
        rw [scanQuery, if_pos rfl, Reading.followed_separator, ← List.append_assoc]
        exact ih rest.length hshort h.separator rfl
      · by_cases heq : ch = '=' ∧ q.state ≠ .inValue
        · obtain ⟨rfl, hstate⟩ := heq
          obtain ⟨n, hname, hfollowed⟩ := h.of_not_inValue hstate
          rw [scanQuery, if_neg hand, if_pos ⟨rfl, hstate⟩, hfollowed hand,
            Reading.name_followed_equals]
          exact ih rest.length hshort hname.equals rfl
        · obtain ⟨r', hr', hstarted, hne, hfollowed⟩ := h.started hand heq
          obtain ⟨u, p, htext, hscan⟩ := scanQuery_other rest hand heq
          have hlength := (length_decodeOne ch rest).trans_lt hshort
          rw [hscan, hfollowed, Reading.followed_cons hr' hand hne]
          exact ih _ hlength (hstarted.push hr' htext) rfl

theorem scanQuery_params (search : Str) :
    (scanQuery search {}).params (scanQuery search {}).qurl = paramsOf search := by
  have hstart : ({} : QueryScan).Reads [] .nothing := ⟨fun _ => rfl, rfl, rfl⟩
  exact scanQuery_reads hstart

/-! ## The parameters of a message -/

/-- The loop over the query finds the parameters of the URL. -/
theorem query_params (url : Str) :
    (query url (urlParts url)).params (query url (urlParts url)).qurl =
      paramsOf (searchText url) := by
  have hempty : ({} : QueryScan).params [] = paramsOf [] := rfl
  by_cases h : ValidUrl url
  · rw [searchText, if_pos h, urlParts_valid h, query]
    simp only [List.getElem?_cons_succ, List.getElem?_cons_zero]
    split
    · rw [view_search]
      exact scanQuery_params _
    · rename_i hne
      rw [← drop_length_before, not_not.1 hne, List.drop_eq_nil_of_le (Nat.le_succ _)]
      exact hempty
  · rw [searchText, if_neg h, urlParts_invalid h]
    exact hempty

theorem Coherent.searchParams {m : HttpMessage} (h : Coherent m) :
    m.searchParams = paramsOf (searchText m.url) := by
  obtain ⟨hqurl, hqpairs⟩ := h.infoFor_params
  rw [← query_params, HttpMessage.searchParams, hqurl, hqpairs]
  rfl

end HttpMessage
end Http
end Psets
