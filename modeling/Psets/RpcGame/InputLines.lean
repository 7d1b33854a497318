/-
The input lines of the RPC client.

The constructor of `rpc_client` maps its file into memory and scans it with one cursor.  A
line counts when digits follow its first comma; the others are skipped.  The scan is a
function of the bytes of the file: positions stand for pointers, and reading outside the
file has no result.
-/
import Psets.Containers.Fields
import Psets.RpcGame.Server

namespace Psets
namespace RpcGame

open Containers

/-- `input_line`; `name` is a position in the file. -/
structure InputLine where
  name : Nat
  nameLen : Nat
  count : BitVec 64
deriving DecidableEq, Repr

/-- The bytes that an entry stands for, with its count. -/
def InputLine.entry (data : Str) (line : InputLine) : Str × BitVec 64 :=
  ((data.drop line.name).take line.nameLen, line.count)

/-! ## `std::from_chars` -/

/-- The errors of `std::from_chars`. -/
inductive Errc where
  | invalidArgument
  | resultOutOfRange
deriving DecidableEq, Repr

/-- `from_chars_result`, with the value it leaves. -/
structure FromCharsResult where
  ptr : Nat
  value : Except Errc (BitVec 64)

/-- The number that the digits at the start of a text denote. -/
def leadingNumber (s : Str) : Except Errc (BitVec 64) :=
  let digits := s.takeWhile Char.isDigit
  if digits = [] then .error .invalidArgument
  else if 2 ^ 64 ≤ Nat.ofDigitChars 10 digits 0 then .error .resultOutOfRange
  else .ok (BitVec.ofNat 64 (Nat.ofDigitChars 10 digits 0))

/-- `std::from_chars(first, last, value, 10)` for a `uint64_t`: no blanks and no sign, and
digits that overflow are passed.  There is no result unless the range is in the file. -/
def fromChars (data : Str) (first last : Nat) : Option FromCharsResult :=
  if first ≤ last ∧ last ≤ data.length then
    let range := (data.take last).drop first
    some ⟨first + (range.takeWhile Char.isDigit).length, leadingNumber range⟩
  else none

/-! ## The scan -/

/-- The cursor `s`, and `_inputs`. -/
structure Scan where
  s : Nat
  inputs : List InputLine
deriving DecidableEq, Repr

/-- One turn of the outer loop. -/
def scanLine (data : Str) (st : Scan) : Option Scan :=
  let line := st.s
  (skipUntil (fun ch => ch == '\n' || ch == ',') data data.length line).bind fun comma =>
    if comma = data.length then some ⟨comma, st.inputs⟩
    else
      (data[comma]?).bind fun ch =>
        if ch = '\n' then some ⟨comma + 1, st.inputs⟩
        else
          (fromChars data (comma + 1) data.length).bind fun result =>
            let inputs :=
              match result.value with
              | .ok value => st.inputs ++ [⟨line, comma - line, value⟩]
              | .error _ => st.inputs
            (skipUntil (· == '\n') data data.length result.ptr).map fun s =>
              ⟨if s = data.length then s else s + 1, inputs⟩

/-- The outer loop. -/
def scanLines (data : Str) : Nat → Scan → Option Scan
  | 0, st => if st.s = data.length then some st else none
  | fuel + 1, st =>
    if st.s = data.length then some st else (scanLine data st).bind (scanLines data fuel)

/-! ## What a line stands for -/

/-- The number that follows a comma: at least one digit, and the run of digits denotes a
number below `2 ^ 64`. -/
def numberAfter (rest : Str) : Option (BitVec 64) :=
  let digits := rest.takeWhile Char.isDigit
  if digits ≠ [] ∧ Nat.ofDigitChars 10 digits 0 < 2 ^ 64 then
    some (BitVec.ofNat 64 (Nat.ofDigitChars 10 digits 0))
  else none

/-- The text before the first comma of a line and the number that follows the comma. -/
def lineEntry (line : Str) : Option (Str × BitVec 64) :=
  if ',' ∈ line then (numberAfter (after ',' line)).map fun count => (before ',' line, count)
  else none

/-- The entry for a line that starts at `s`. -/
def lineInput (s : Nat) (line : Str) : Option InputLine :=
  (lineEntry line).map fun entry => ⟨s, entry.1.length, entry.2⟩

/-- The rest of a file after a line: nothing, or a newline and the lines below. -/
def LineEnd (tail : Str) : Prop := ∀ ch, tail.head? = some ch → ch = '\n'

theorem toOption_leadingNumber (rest : Str) : (leadingNumber rest).toOption = numberAfter rest := by
  rw [numberAfter, leadingNumber]
  by_cases hnil : rest.takeWhile Char.isDigit = []
  · rw [if_pos hnil, if_neg (fun h => h.1 hnil)]
    rfl
  · rw [if_neg hnil]
    by_cases hlarge : 2 ^ 64 ≤ Nat.ofDigitChars 10 (rest.takeWhile Char.isDigit) 0
    · rw [if_pos hlarge, if_neg (fun h => absurd h.2 (Nat.not_lt.2 hlarge))]
      rfl
    · rw [if_neg hlarge, if_pos ⟨hnil, Nat.not_le.1 hlarge⟩]
      rfl

theorem lineEntry_fst {line : Str} {entry : Str × BitVec 64} (h : lineEntry line = some entry) :
    entry.1 = before ',' line := by
  rw [lineEntry] at h
  by_cases hcomma : ',' ∈ line
  · rw [if_pos hcomma] at h
    obtain ⟨count, -, rfl⟩ := Option.map_eq_some_iff.1 h
    rfl
  · rw [if_neg hcomma] at h
    exact absurd h.symm (Option.some_ne_none entry)

/-! ## Within a line -/

theorem takeWhile_append_lineEnd {p : Char → Bool} {tail : Str} (line : Str)
    (htail : LineEnd tail) (hp : p '\n' = false) :
    (line ++ tail).takeWhile p = line.takeWhile p := by
  have hnil : tail.takeWhile p = [] := by
    cases tail with
    | nil => rfl
    | cons ch tail =>
      rw [htail ch rfl, List.takeWhile_cons, if_neg (by rw [hp]; exact Bool.false_ne_true)]
  induction line with
  | nil => exact hnil
  | cons ch line ih =>
    rw [List.cons_append, List.takeWhile_cons, List.takeWhile_cons, ih]

theorem leadingNumber_append_lineEnd {tail : Str} (rest : Str) (htail : LineEnd tail) :
    leadingNumber (rest ++ tail) = leadingNumber rest := by
  rw [leadingNumber, leadingNumber, takeWhile_append_lineEnd rest htail rfl]

theorem takeWhile_newline_comma {line : Str} (hline : '\n' ∉ line) :
    (line.takeWhile fun ch => !(ch == '\n' || ch == ',')) = before ',' line := by
  induction line with
  | nil => rfl
  | cons ch line ih =>
    rw [List.mem_cons, not_or] at hline
    have hch : (ch == '\n') = false := beq_eq_false_iff_ne.2 (Ne.symm hline.1)
    rw [List.takeWhile_cons, before, List.takeWhile_cons, hch, Bool.false_or, ih hline.2]
    rfl

theorem before_newline {rest tail : Str} (hrest : '\n' ∉ rest) (htail : LineEnd tail) :
    ((rest ++ tail).takeWhile fun ch => !(ch == '\n')) = rest := by
  rw [takeWhile_append_lineEnd rest htail rfl]
  exact before_of_not_mem hrest

/-! ## One turn of the loop -/

section Line

variable {data line tail : Str} {s : Nat}

/-- The cursor after the line. -/
def nextLine (data : Str) (s : Nat) : Nat := if s = data.length then s else s + 1

theorem length_of_drop (hs : s ≤ data.length) (hdata : data.drop s = line ++ tail) :
    data.length = s + line.length + tail.length := by
  have hlen := congrArg List.length hdata
  rw [List.length_drop, List.length_append] at hlen
  omega

theorem drop_add {pre : Str} (hdata : data.drop s = pre ++ tail) :
    data.drop (s + pre.length) = tail := by
  rw [← List.drop_drop, hdata, List.drop_left]

theorem getElem?_lineEnd (hdata : data.drop s = tail) (htail : LineEnd tail)
    (hne : s ≠ data.length) (hs : s ≤ data.length) : data[s]? = some '\n' := by
  have hlen := congrArg List.length hdata
  rw [List.length_drop] at hlen
  cases tail with
  | nil =>
    rw [List.length_nil] at hlen
    omega
  | cons ch tail =>
    have hhead : data[s]? = some ch := by
      rw [← List.head?_drop, hdata, List.head?_cons]
    rw [hhead, htail ch rfl]

/-- The cursor stops at the first comma of the line, or at the end of the line. -/
theorem skipUntil_comma (hs : s ≤ data.length) (hdata : data.drop s = line ++ tail)
    (hline : '\n' ∉ line) (htail : LineEnd tail) :
    skipUntil (fun ch => ch == '\n' || ch == ',') data data.length s =
      some (s + (before ',' line).length) := by
  rw [skipUntil_eq hs (Nat.sub_le data.length s), hdata, takeWhile_append_lineEnd line htail rfl,
    takeWhile_newline_comma hline]

/-- A line without a comma is skipped. -/
theorem scanLine_noComma (inputs : List InputLine) (hs : s ≤ data.length)
    (hdata : data.drop s = line ++ tail) (hline : '\n' ∉ line) (htail : LineEnd tail)
    (hcomma : ',' ∉ line) :
    scanLine data ⟨s, inputs⟩ = some ⟨nextLine data (s + line.length), inputs⟩ := by
  have hlen := length_of_drop hs hdata
  have hskip := skipUntil_comma hs hdata hline htail
  rw [before_of_not_mem hcomma] at hskip
  rw [scanLine]
  simp only [hskip, Option.bind_some]
  by_cases hend : s + line.length = data.length
  · rw [if_pos hend, nextLine, if_pos hend]
  · have hnewline := getElem?_lineEnd (drop_add hdata) htail hend (by omega)
    rw [if_neg hend, hnewline, Option.bind_some, if_pos rfl, nextLine, if_neg hend]

/-- `from_chars` after the comma: it stops after the digits, whatever they denote. -/
theorem fromChars_rest {rest : Str} (hs : s ≤ data.length) (hdata : data.drop s = rest ++ tail)
    (htail : LineEnd tail) :
    fromChars data s data.length =
      some ⟨s + (rest.takeWhile Char.isDigit).length, leadingNumber rest⟩ := by
  have hdigits : (rest ++ tail).takeWhile Char.isDigit = rest.takeWhile Char.isDigit :=
    takeWhile_append_lineEnd rest htail rfl
  rw [fromChars, if_pos ⟨hs, Nat.le_refl _⟩]
  simp only [List.take_length, hdata, hdigits, leadingNumber_append_lineEnd rest htail]

/-- What is left of a line after the digits is skipped. -/
theorem skipUntil_newline {rest : Str} (hs : s ≤ data.length) (hdata : data.drop s = rest ++ tail)
    (hrest : '\n' ∉ rest) (htail : LineEnd tail) (p : Char → Bool) :
    skipUntil (· == '\n') data data.length (s + (rest.takeWhile p).length) =
      some (s + rest.length) := by
  have hlen := length_of_drop hs hdata
  have hparts : rest.takeWhile p ++ rest.dropWhile p = rest := List.takeWhile_append_dropWhile
  have hsum := congrArg List.length hparts
  rw [List.length_append] at hsum
  have hdrop : data.drop (s + (rest.takeWhile p).length) = rest.dropWhile p ++ tail := by
    apply drop_add
    rw [← List.append_assoc, hparts, hdata]
  have hafter : '\n' ∉ rest.dropWhile p := fun h =>
    hrest ((List.dropWhile_sublist p).subset h)
  rw [skipUntil_eq (by omega) (Nat.sub_le _ _), hdrop, before_newline hafter htail]
  congr 1
  omega

theorem lineInput_comma {name rest : Str} (hname : ',' ∉ name) (s : Nat) :
    lineInput s (name ++ ',' :: rest) =
      (numberAfter rest).map fun count => ⟨s, name.length, count⟩ := by
  rw [lineInput, lineEntry, if_pos (List.mem_append_right _ List.mem_cons_self),
    before_append hname, after_append hname, Option.map_map]
  rfl

/-- A line with a comma gives the entry that it stands for. -/
theorem scanLine_comma (inputs : List InputLine) (hs : s ≤ data.length)
    (hdata : data.drop s = line ++ tail) (hline : '\n' ∉ line) (htail : LineEnd tail)
    (hcomma : ',' ∈ line) :
    scanLine data ⟨s, inputs⟩ =
      some ⟨nextLine data (s + line.length), inputs ++ (lineInput s line).toList⟩ := by
  have hlen := length_of_drop hs hdata
  have hskip := skipUntil_comma hs hdata hline htail
  obtain ⟨name, rest, rfl, hname⟩ := List.eq_append_cons_of_mem hcomma
  rw [before_append hname] at hskip
  rw [List.length_append, List.length_cons] at hlen
  have hat : data.drop (s + name.length) = ',' :: (rest ++ tail) := by
    apply drop_add
    rw [hdata, List.append_assoc, List.cons_append]
  have hget : data[s + name.length]? = some ',' := by
    rw [← List.head?_drop, hat, List.head?_cons]
  have hrest : data.drop (s + name.length + 1) = rest ++ tail := by
    rw [← List.drop_drop, hat, List.drop_succ_cons, List.drop_zero]
  have hnotMem : '\n' ∉ rest := fun h =>
    hline (List.mem_append_right _ (List.mem_cons_of_mem _ h))
  have hle : s + name.length + 1 ≤ data.length := by omega
  have hlast : s + name.length + 1 + rest.length = s + (name ++ ',' :: rest).length := by
    rw [List.length_append, List.length_cons]
    omega
  rw [scanLine]
  simp only [hskip, Option.bind_some, hget, fromChars_rest hle hrest htail,
    skipUntil_newline hle hrest hnotMem htail, Option.map_some, Nat.add_sub_cancel_left]
  rw [if_neg (by omega), if_neg (by decide), lineInput_comma hname,
    ← toOption_leadingNumber, hlast, nextLine]
  cases leadingNumber rest with
  | ok count => rfl
  | error e =>
    simp only [Except.toOption, Option.map_none, Option.toList_none, List.append_nil]

/-- One turn of the loop reads one line, and leaves the cursor at the next one. -/
theorem scanLine_eq (inputs : List InputLine) (hs : s ≤ data.length)
    (hdata : data.drop s = line ++ tail) (hline : '\n' ∉ line) (htail : LineEnd tail) :
    scanLine data ⟨s, inputs⟩ =
      some ⟨nextLine data (s + line.length), inputs ++ (lineInput s line).toList⟩ := by
  by_cases hcomma : ',' ∈ line
  · exact scanLine_comma inputs hs hdata hline htail hcomma
  · rw [scanLine_noComma inputs hs hdata hline htail hcomma, lineInput, lineEntry,
      if_neg hcomma, Option.map_none, Option.toList_none, List.append_nil]

/-- What is stored for a line is the text before its comma. -/
theorem map_entry_lineInput (hdata : data.drop s = line ++ tail) :
    (lineInput s line).map (InputLine.entry data) = lineEntry line := by
  rw [lineInput, Option.map_map]
  cases hentry : lineEntry line with
  | none => rfl
  | some entry =>
    have hfst := lineEntry_fst hentry
    have htake : (line ++ tail).take (before ',' line).length = before ',' line := by
      rw [List.take_append_of_le_length (length_before_le ',' line), take_length_before]
    rw [Option.map_some, Function.comp, InputLine.entry, hdata, hfst, htake, ← hfst]

theorem lineInput_le {input : InputLine} (hs : s ≤ data.length)
    (hdata : data.drop s = line ++ tail) (h : input ∈ lineInput s line) :
    input.name + input.nameLen ≤ data.length := by
  obtain ⟨entry, hentry, rfl⟩ := Option.map_eq_some_iff.1 h
  have hlen := length_of_drop hs hdata
  have hle := length_before_le ',' line
  rw [← lineEntry_fst hentry] at hle
  show s + entry.1.length ≤ data.length
  omega

end Line

/-! ## The whole file -/

theorem scanLines_end (data : Str) (fuel : Nat) (inputs : List InputLine) :
    scanLines data fuel ⟨data.length, inputs⟩ = some ⟨data.length, inputs⟩ := by
  cases fuel with
  | zero => rw [scanLines, if_pos rfl]
  | succ fuel => rw [scanLines, if_pos rfl]

/-- A scan that has ended is the same with more fuel. -/
theorem scanLines_mono {data : Str} {fuel fuel' : Nat} {st final : Scan} (hle : fuel ≤ fuel')
    (h : scanLines data fuel st = some final) : scanLines data fuel' st = some final := by
  induction fuel generalizing fuel' st with
  | zero =>
    rw [scanLines] at h
    by_cases hend : st.s = data.length
    · rw [if_pos hend] at h
      cases fuel' with
      | zero => rw [scanLines, if_pos hend, h]
      | succ fuel' => rw [scanLines, if_pos hend, h]
    · rw [if_neg hend] at h
      exact absurd h.symm (Option.some_ne_none final)
  | succ fuel ih =>
    obtain ⟨fuel', rfl⟩ := Nat.exists_eq_add_one_of_ne_zero (n := fuel') (by omega)
    rw [scanLines] at h ⊢
    by_cases hend : st.s = data.length
    · rw [if_pos hend] at h ⊢
      exact h
    · rw [if_neg hend] at h ⊢
      obtain ⟨next, hnext, hrun⟩ := Option.bind_eq_some_iff.1 h
      rw [hnext, Option.bind_some]
      exact ih (Nat.le_of_succ_le_succ hle) hrun

/-- Entries for the lines of a part of the file. -/
structure Entries (data part : Str) (inputs : List InputLine) : Prop where
  entries : inputs.map (InputLine.entry data) = (part.splitOn '\n').filterMap lineEntry
  inFile : ∀ input ∈ inputs, input.name + input.nameLen ≤ data.length

theorem Entries.last {data line : Str} {s : Nat} (hs : s ≤ data.length) (hdata : data.drop s = line)
    (hline : '\n' ∉ line) : Entries data line (lineInput s line).toList := by
  have hdata' : data.drop s = line ++ [] := by rw [hdata, List.append_nil]
  constructor
  · rw [List.splitOn_eq_singleton hline, ← Option.toList_map, map_entry_lineInput hdata']
    cases hentry : lineEntry line with
    | none => rw [List.filterMap_cons_none hentry]; rfl
    | some entry => rw [List.filterMap_cons_some hentry]; rfl
  · intro input hinput
    exact lineInput_le hs hdata' (Option.mem_toList.1 hinput)

theorem Entries.cons {data line rest : Str} {s : Nat} {inputs : List InputLine}
    (hs : s ≤ data.length) (hdata : data.drop s = line ++ '\n' :: rest) (hline : '\n' ∉ line)
    (h : Entries data rest inputs) :
    Entries data (line ++ '\n' :: rest) ((lineInput s line).toList ++ inputs) := by
  constructor
  · rw [List.splitOn_append_cons_self_of_not_mem hline, List.map_append, h.entries,
      ← Option.toList_map, map_entry_lineInput hdata]
    cases hentry : lineEntry line with
    | none => rw [List.filterMap_cons_none hentry]; rfl
    | some entry => rw [List.filterMap_cons_some hentry]; rfl
  · intro input hinput
    rcases List.mem_append.1 hinput with hinput | hinput
    · exact lineInput_le hs hdata (Option.mem_toList.1 hinput)
    · exact h.inFile input hinput

/-- From any position the scan comes to the end of the file and adds the entries of the
lines below. -/
theorem scanLines_eq {data : Str} {fuel s : Nat} (hs : s ≤ data.length)
    (hfuel : data.length - s ≤ fuel) (inputs : List InputLine) :
    ∃ added, scanLines data fuel ⟨s, inputs⟩ = some ⟨data.length, inputs ++ added⟩ ∧
      Entries data (data.drop s) added := by
  induction fuel generalizing s inputs with
  | zero =>
    have hend : s = data.length := by omega
    refine ⟨[], ?_, ?_⟩
    · rw [hend, scanLines_end, List.append_nil]
    · rw [hend, List.drop_length]
      exact ⟨rfl, fun input h => absurd h List.not_mem_nil⟩
  | succ fuel ih =>
    by_cases hend : s = data.length
    · refine ⟨[], ?_, ?_⟩
      · rw [hend, scanLines_end, List.append_nil]
      · rw [hend, List.drop_length]
        exact ⟨rfl, fun input h => absurd h List.not_mem_nil⟩
    · rw [scanLines, if_neg hend]
      by_cases hmem : '\n' ∈ data.drop s
      · -- a line with a newline after it: the lines below are left
        obtain ⟨line, rest, hdata, hline⟩ := List.eq_append_cons_of_mem hmem
        have htail : LineEnd ('\n' :: rest) := fun ch h => (Option.some.inj h).symm
        have hlen := length_of_drop hs hdata
        rw [List.length_cons] at hlen
        have hnext : nextLine data (s + line.length) = s + line.length + 1 := by
          rw [nextLine, if_neg (by omega)]
        have hrest : data.drop (s + line.length + 1) = rest := by
          rw [← List.drop_drop, drop_add hdata, List.drop_succ_cons, List.drop_zero]
        obtain ⟨added, hscan, hentries⟩ :=
          ih (s := s + line.length + 1) (by omega) (by omega)
            (inputs ++ (lineInput s line).toList)
        refine ⟨(lineInput s line).toList ++ added, ?_, ?_⟩
        · rw [scanLine_eq inputs hs hdata hline htail, Option.bind_some, hnext, hscan,
            List.append_assoc]
        · rw [hrest] at hentries
          rw [hdata]
          exact hentries.cons hs hdata hline
      · -- the last line ends with the file
        have hdata : data.drop s = data.drop s ++ [] := (List.append_nil _).symm
        have htail : LineEnd [] := fun ch h => absurd h.symm (Option.some_ne_none ch)
        have hnext : nextLine data (s + (data.drop s).length) = data.length := by
          rw [List.length_drop, Nat.add_sub_cancel' hs, nextLine, if_pos rfl]
        refine ⟨(lineInput s (data.drop s)).toList, ?_, Entries.last hs rfl hmem⟩
        rw [scanLine_eq inputs hs hdata hmem htail, Option.bind_some, hnext, scanLines_end]

/-- The scan of a file ends, within the file, with an entry for every line whose first comma
is followed by a number that fits. -/
theorem scan_inputs (data : Str) :
    ∃ inputs, (∀ fuel, data.length ≤ fuel →
        scanLines data fuel ⟨0, []⟩ = some ⟨data.length, inputs⟩) ∧
      inputs.map (InputLine.entry data) = (data.splitOn '\n').filterMap lineEntry ∧
      ∀ input ∈ inputs, input.name + input.nameLen ≤ data.length := by
  obtain ⟨inputs, hscan, hentries⟩ :=
    scanLines_eq (s := 0) (Nat.zero_le data.length) (Nat.le_refl _) []
  rw [List.nil_append] at hscan
  rw [List.drop_zero] at hentries
  refine ⟨inputs, ?_, hentries.entries, hentries.inFile⟩
  intro fuel hfuel
  exact scanLines_mono hfuel hscan

/-! ## Commas after the first -/

/-- The number that follows the first comma with a number after it. -/
def numberAfterSomeComma : Str → Option (BitVec 64)
  | [] => none
  | ch :: rest =>
    if ch = ',' then (numberAfter rest).or (numberAfterSomeComma rest)
    else numberAfterSomeComma rest

/-- The entry of a line, if any of its commas could give the number. -/
def entryOfSomeComma (line : Str) : Option (Str × BitVec 64) :=
  (numberAfterSomeComma line).map fun count => (before ',' line, count)

/-- The line `a,b,5` is skipped: only its first comma counts. -/
theorem scan_secondComma :
    ¬ ∀ (data : Str) (final : Scan), scanLines data data.length ⟨0, []⟩ = some final →
      final.inputs.map (InputLine.entry data) =
        (data.splitOn '\n').filterMap entryOfSomeComma := by
  intro h
  have hbad := h "a,b,5".toList ⟨5, []⟩ (by decide +kernel)
  exact absurd hbad (by decide +kernel)

end RpcGame
end Psets
