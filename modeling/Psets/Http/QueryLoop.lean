/-
`make_info` for the search parameters, over the buffer of the URL.

Here the loop has its positions in the buffer, reads ahead for an escape, and keeps what it
finds in members that are `unsigned`.  A read beyond the final null of the buffer has no
result, and neither has a call that throws.
-/
import Mathlib.Algebra.GroupWithZero.Nat
import Psets.Http.UrlParts
import Psets.Transition.Machine

namespace Psets
namespace Http

/-! ## The table of characters -/

/-- `us_safe`, `us_http_tchar` and `us_hex` -/
def safeBit : Nat := 1

def tcharBit : Nat := 2

def hexBit : Nat := 4

/-- `chartable`, as the loops over the characters fill it. -/
def chartable (ch : Char) : Nat :=
  let v :=
    if '0' ≤ ch ∧ ch ≤ '9' then safeBit ||| tcharBit ||| hexBit ||| (ch.toNat - '0'.toNat) <<< 4
    else if 'A' ≤ ch ∧ ch ≤ 'F' then
      safeBit ||| tcharBit ||| hexBit ||| (ch.toNat - 'A'.toNat + 10) <<< 4
    else if 'a' ≤ ch ∧ ch ≤ 'f' then
      safeBit ||| tcharBit ||| hexBit ||| (ch.toNat - 32 - 'A'.toNat + 10) <<< 4
    else if ('G' ≤ ch ∧ ch ≤ 'Z') ∨ ('g' ≤ ch ∧ ch ≤ 'z') then safeBit ||| tcharBit
    else 0
  let v := if "!#$%&'*+-.^_`|~".toList.contains ch then v ||| tcharBit else v
  if "!$%&'()*+,-./:;=@[\\]^_`\x7b|\x7d~".toList.contains ch then v ||| safeBit else v

def xvalue (ch : Char) : Nat := chartable ch >>> 4

theorem not_between {a b ch : Char} (hb : b.toNat < 128) (hch : 128 ≤ ch.toNat) :
    ¬ (a ≤ ch ∧ ch ≤ b) := by
  rintro ⟨-, hle⟩
  have hle' : ch.toNat ≤ b.toNat := hle
  omega

theorem not_contains {l : List Char} (hl : (l.all fun a => a.toNat < 128) = true) {ch : Char}
    (hch : 128 ≤ ch.toNat) : l.contains ch = false := by
  rw [← Bool.not_eq_true, List.contains_iff_mem]
  intro hmem
  have hlt := of_decide_eq_true (List.all_eq_true.1 hl ch hmem)
  omega

theorem chartable_high {ch : Char} (h : 128 ≤ ch.toNat) : chartable ch = 0 := by
  rw [chartable, if_neg (not_between (by decide) h), if_neg (not_between (by decide) h),
    if_neg (not_between (by decide) h),
    if_neg (not_or.2 ⟨not_between (by decide) h, not_between (by decide) h⟩),
    not_contains (by rfl) h, not_contains (by rfl) h]
  rfl

theorem xvalue?_high {ch : Char} (h : 128 ≤ ch.toNat) : xvalue? ch = none := by
  rw [xvalue?, if_neg (not_between (by decide) h), if_neg (not_between (by decide) h),
    if_neg (not_between (by decide) h)]

/-- The digits of the table. -/
theorem xvalue?_eq (ch : Char) :
    xvalue? ch = if chartable ch &&& hexBit ≠ 0 then some (xvalue ch) else none := by
  by_cases h : ch.toNat < 128
  · have hall : ∀ n < 128, xvalue? (Char.ofNat n) =
        if chartable (Char.ofNat n) &&& hexBit ≠ 0 then some (xvalue (Char.ofNat n)) else none := by
      decide +kernel
    have hch := hall ch.toNat h
    rwa [Char.ofNat_toNat] at hch
  · have hhigh := not_lt.1 h
    rw [chartable_high hhigh, xvalue?_high hhigh]
    rfl

theorem isAlphanum_high {ch : Char} (h : 128 ≤ ch.toNat) : ch.isAlphanum = false := by
  have hval : 128 ≤ ch.val.toNat := h
  have hranges : ch.isAlphanum = ((decide ('A'.val ≤ ch.val ∧ ch.val ≤ 'Z'.val) ||
      'a'.val ≤ ch.val && ch.val ≤ 'z'.val) || '0'.val ≤ ch.val && ch.val ≤ '9'.val) := rfl
  simp only [hranges, UInt32.le_iff_toNat_le, Bool.or_eq_false_iff, Bool.and_eq_false_iff,
    decide_eq_false_iff_not]
  have hz : 'z'.val.toNat = 122 := rfl
  have hupper : 'Z'.val.toNat = 90 := rfl
  have hnine : '9'.val.toNat = 57 := rfl
  omega

/-- The characters of URLs in the table. -/
theorem usSafe_eq (ch : Char) : usSafe ch = (chartable ch &&& safeBit != 0) := by
  by_cases h : ch.toNat < 128
  · have hall : ∀ n < 128, usSafe (Char.ofNat n) =
        (chartable (Char.ofNat n) &&& safeBit != 0) := by
      decide +kernel
    have hch := hall ch.toNat h
    rwa [Char.ofNat_toNat] at hch
  · have hhigh := not_lt.1 h
    rw [chartable_high hhigh, usSafe, not_contains (by rfl) hhigh, isAlphanum_high hhigh]
    rfl

/-! ## The loop over the query -/

namespace HttpMessage

/-- What an `unsigned` keeps. -/
def unsigned (n : Nat) : Nat := n % 2 ^ 32

/-- The byte of the buffer at a position; a null follows the URL. -/
def byteAt (url : Str) (i : Nat) : Option Char := (url ++ ['\x00'])[i]?

/-- The variables of the loop. -/
structure QueryLoop where
  s : Nat
  last : Nat
  state : QueryState := .beginning
  qurl : Str := []
  nstart : Nat := 0
  nend : Nat := 0
  vstart : Nat := 0
  qpairs : List KvOffsets := []
deriving DecidableEq, Repr

namespace QueryLoop

variable (url : Str) (s2 : Nat) (l : QueryLoop)

/-- `inf.qurl.append(last, s)` -/
def append : QueryLoop := { l with qurl := l.qurl ++ view url l.last l.s }

/-- `inf.qurl.length() + s - last` -/
def pos : Nat := unsigned (l.qurl.length + l.s - l.last)

/-- `inf.qpairs.emplace_back(nstart, nend, vstart, vend)`, if the part is not empty. -/
def emplaceBack (vend : Nat) : QueryLoop :=
  if l.state ≠ .beginning then
    let l := if l.state = .inName then { l with nend := vend, vstart := vend } else l
    { l with qpairs := l.qpairs ++ [⟨l.nstart, l.nend, l.vstart, vend⟩] }
  else l

/-- The character that an escape at `s` stands for, if there is one. -/
def escape : Option (Option Char) := do
  let ch ← byteAt url l.s
  if ch = '%' ∧ 2 ≤ s2 - l.s then
    let a ← byteAt url (l.s + 1)
    if chartable a &&& hexBit ≠ 0 then
      let b ← byteAt url (l.s + 2)
      if chartable b &&& hexBit ≠ 0 then some (some (Char.ofNat (xvalue a * 16 + xvalue b)))
      else some none
    else some none
  else some none

/-- `inf.qurl.push_back(ch)` after what is pending, from which the loop goes on `n` further. -/
def pushBack (ch : Char) (n : Nat) : QueryLoop :=
  let l := l.append url
  { l with qurl := l.qurl ++ [ch], s := l.s + n, last := l.s + n }

/-- One round. -/
def round : Option QueryLoop := do
  let ch ← byteAt url l.s
  if ch = '&' then
    let l := { l.emplaceBack l.pos with state := .beginning, s := l.s + 1 }
    some { l with nstart := l.pos, nend := l.pos }
  else if ch = '=' ∧ l.state ≠ .inValue then
    some { l with
      nend := l.pos, vstart := unsigned (l.pos + 1), state := .inValue, s := l.s + 1 }
  else
    let l := if l.state = .beginning then { l with state := .inName } else l
    match ← l.escape url s2 with
    | some ch => some (l.pushBack url ch 3)
    | none => some (if ch = '+' then l.pushBack url ' ' 1 else { l with s := l.s + 1 })

/-- What is done after the loop. -/
def finish : QueryLoop :=
  let l := if l.last ≠ l.s then l.append url else l
  l.emplaceBack (unsigned l.qurl.length)

/-- The loop, for `fuel` rounds at most. -/
def scan : Nat → QueryLoop → Option QueryLoop
  | 0, _ => none
  | fuel + 1, l => if l.s = s2 then some l else (l.round url s2).bind (scan fuel)

end QueryLoop

/-- `inf.f[1]`, whose members are `unsigned`.  Every first member is zero or a copy of a second
one. -/
def searchPart (url : Str) : Nat × Nat :=
  let part := ((urlParts url)[1]?).getD (0, 0)
  (unsigned part.1, unsigned part.2)

/-- `inf.qurl` and `inf.qpairs`.  To reserve a negative number of bytes throws. -/
def makeParams (url : Str) : Option (Str × List KvOffsets) :=
  let (first, last) := searchPart url
  if first ≠ last then
    if first + 1 ≤ last then
      (QueryLoop.scan url last (last - first) { s := first + 1, last := first + 1 }).map fun l =>
        ((l.finish url).qurl, (l.finish url).qpairs)
    else none
  else some ([], [])

/-- The pairs from `search_param_begin()` to `search_param_end()` for a URL. -/
def searchParamsOf (url : Str) : Option (List (Str × Str)) :=
  (makeParams url).map fun (qurl, qpairs) => qpairs.map fun p => (p.name qurl, p.value qurl)

/-- The rounds of the loop. -/
def queryRounds (url : Str) : Transition.Machine QueryLoop Unit where
  init l := (searchPart url).1 < (searchPart url).2 ∧
    l = { s := (searchPart url).1 + 1, last := (searchPart url).1 + 1 }
  step l _ := if l.s = (searchPart url).2 then none else l.round url (searchPart url).2

end HttpMessage
end Http
end Psets
