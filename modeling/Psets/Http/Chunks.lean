/-
Responses sent in chunks, and the chunked transfer coding that frames them.

The coding writes the size of a chunk in hexadecimal.  `send_response_chunk`
writes it in decimal.
-/
import Psets.Http.Message

namespace Psets
namespace Http

/-! ## The chunked transfer coding -/

/-- `HEXDIG`, in either case. -/
def hexDigit? (ch : Char) : Option Nat :=
  if ch.isDigit then some (ch.toNat - '0'.toNat)
  else if 'a' ≤ ch ∧ ch ≤ 'f' then some (ch.toNat - 'a'.toNat + 10)
  else if 'A' ≤ ch ∧ ch ≤ 'F' then some (ch.toNat - 'A'.toNat + 10)
  else none

/-- The digits in front, added to the number `v` read so far, and what follows them. -/
def takeHex (v : Nat) : Str → Nat × Str
  | [] => (v, [])
  | ch :: s =>
    match hexDigit? ch with
    | some d => takeHex (16 * v + d) s
    | none => (v, ch :: s)

/-- `chunk-size = 1*HEXDIG`. -/
def chunkSize? : Str → Option (Nat × Str)
  | [] => none
  | ch :: s => (hexDigit? ch).map fun d => takeHex d s

def dropCrlf? : Str → Option Str
  | '\r' :: '\n' :: s => some s
  | _ => none

/-- A chunk is its size, CRLF, that many bytes and CRLF; size zero ends the body.
The result is the content and what is left after the body. -/
def decodeChunks : Nat → Str → Option (Str × Str)
  | 0, _ => none
  | fuel + 1, s =>
    (chunkSize? s).bind fun (size, s) =>
      (dropCrlf? s).bind fun s =>
        if size = 0 then (dropCrlf? s).map fun rest => ([], rest)
        else if s.length < size then none
        else
          (dropCrlf? (s.drop size)).bind fun rest =>
            (decodeChunks fuel rest).map fun (content, rest) => (s.take size ++ content, rest)

/-- Each chunk takes at least one byte, so the length is fuel enough. -/
def decodeChunked (s : Str) : Option (Str × Str) := decodeChunks s.length s

/-! ## Sending -/

/-- What `send_response_chunk(str)` writes. -/
def sendResponseChunk (str : Str) : Str := decimal str.length ++ crlf ++ str ++ crlf

/-- What `send_response_end_chunk()` writes. -/
def sendResponseEndChunk : Str := '0' :: crlf ++ crlf

/-- What the chunks write, and then the end chunk. -/
def sendChunks (strs : List Str) : Str :=
  (strs.map sendResponseChunk).flatten ++ sendResponseEndChunk

theorem sendChunks_cons (str : Str) (strs : List Str) :
    sendChunks (str :: strs) = decimal str.length ++ crlf ++ (str ++ crlf ++ sendChunks strs) := by
  simp only [sendChunks, sendResponseChunk, List.map_cons, List.flatten_cons, List.append_assoc]

theorem sendChunks_ne_nil (strs : List Str) : sendChunks strs ≠ [] := by
  rw [sendChunks, sendResponseEndChunk]
  exact List.append_ne_nil_of_right_ne_nil _ (List.cons_ne_nil _ _)

/-! ## Decoding what was sent -/

@[simp] theorem dropCrlf?_crlf (s : Str) : dropCrlf? (crlf ++ s) = some s := rfl

theorem hexDigit?_of_isDigit {ch : Char} (h : ch.isDigit = true) :
    hexDigit? ch = some (ch.toNat - '0'.toNat) := by
  rw [hexDigit?, if_pos h]

theorem takeHex_digits {l : Str} (hl : ∀ ch ∈ l, ch.isDigit = true) (v : Nat) (s : Str) :
    takeHex v (l ++ (crlf ++ s)) = (Nat.ofDigitChars 16 l v, crlf ++ s) := by
  induction l generalizing v with
  | nil => rfl
  | cons ch l ih =>
    rw [List.cons_append, takeHex, hexDigit?_of_isDigit (hl ch List.mem_cons_self),
      Nat.ofDigitChars_cons]
    exact ih (fun c hc => hl c (List.mem_cons_of_mem ch hc)) _

/-- The size that a decoder reads for a length of `n`. -/
def sizeRead (n : Nat) : Nat := Nat.ofDigitChars 16 (decimal n) 0

theorem chunkSize?_decimal (n : Nat) (s : Str) :
    chunkSize? (decimal n ++ (crlf ++ s)) = some (sizeRead n, crlf ++ s) := by
  have hd : ∀ ch ∈ decimal n, ch.isDigit = true := fun ch => isDigit_of_mem_decimal
  rw [sizeRead]
  cases hn : decimal n with
  | nil => exact absurd hn (decimal_ne_nil n)
  | cons ch l =>
    rw [hn] at hd
    rw [List.cons_append, chunkSize?, hexDigit?_of_isDigit (hd ch List.mem_cons_self),
      Option.map_some, takeHex_digits fun c hc => hd c (List.mem_cons_of_mem ch hc),
      Nat.ofDigitChars_cons, Nat.mul_zero, Nat.zero_add]

theorem sizeRead_of_lt {n : Nat} (hn : n < 10) : sizeRead n = n := ofDigitChars_decimal_of_lt 16 hn

theorem lt_sizeRead {n : Nat} (hn : 10 ≤ n) : n < sizeRead n :=
  lt_ofDigitChars_decimal (by decide) hn

/-- One chunk whose size the decoder reads as `size`. -/
theorem decodeChunks_size (fuel n : Nat) (s : Str) :
    decodeChunks (fuel + 1) (decimal n ++ crlf ++ s) =
      if sizeRead n = 0 then (dropCrlf? s).map fun rest => ([], rest)
      else if s.length < sizeRead n then none
      else
        (dropCrlf? (s.drop (sizeRead n))).bind fun rest =>
          (decodeChunks fuel rest).map fun (content, rest) =>
            (s.take (sizeRead n) ++ content, rest) := by
  rw [List.append_assoc, decodeChunks, chunkSize?_decimal]
  simp only [Option.bind_some, dropCrlf?_crlf]

theorem decodeChunks_end (fuel : Nat) :
    decodeChunks (fuel + 1) sendResponseEndChunk = some ([], []) := rfl

/-- A chunk of one to nine bytes is decoded as it was sent. -/
theorem decodeChunks_short (fuel : Nat) {str : Str} (hpos : 1 ≤ str.length)
    (hlt : str.length < 10) (strs : List Str) :
    decodeChunks (fuel + 1) (sendChunks (str :: strs)) =
      (decodeChunks fuel (sendChunks strs)).map fun (content, rest) =>
        (str ++ content, rest) := by
  have hlen : ¬ (str ++ (crlf ++ sendChunks strs)).length < str.length := by
    rw [List.length_append]
    exact Nat.not_lt.2 (Nat.le_add_right _ _)
  rw [sendChunks_cons, List.append_assoc str, decodeChunks_size, sizeRead_of_lt hlt,
    if_neg (Nat.ne_of_gt hpos), if_neg hlen, List.drop_left, List.take_left, dropCrlf?_crlf,
    Option.bind_some]

/-- An empty chunk ends the body and leaves the rest. -/
theorem decodeChunks_empty (fuel : Nat) (strs : List Str) :
    decodeChunks (fuel + 1) (sendChunks ([] :: strs)) = some ([], sendChunks strs) := by
  rw [sendChunks_cons, decodeChunks_size]
  simp only [List.length_nil, sizeRead_of_lt (by decide : 0 < 10), if_true, List.nil_append,
    dropCrlf?_crlf, Option.map_some]

/-! ## The round trip -/

theorem decodeChunks_sendChunks {strs : List Str}
    (h : ∀ str ∈ strs, 1 ≤ str.length ∧ str.length ≤ 9) {fuel : Nat} (hfuel : strs.length < fuel) :
    decodeChunks fuel (sendChunks strs) = some (strs.flatten, []) := by
  induction strs generalizing fuel with
  | nil =>
    obtain ⟨fuel, rfl⟩ := Nat.exists_eq_succ_of_ne_zero (Nat.ne_of_gt hfuel)
    exact decodeChunks_end fuel
  | cons str strs ih =>
    obtain ⟨fuel, rfl⟩ := Nat.exists_eq_succ_of_ne_zero (Nat.ne_of_gt (Nat.zero_lt_of_lt hfuel))
    obtain ⟨hpos, hle⟩ := h str List.mem_cons_self
    rw [decodeChunks_short fuel hpos (Nat.lt_succ_of_le hle),
      ih (fun t ht => h t (List.mem_cons_of_mem str ht)) (Nat.lt_of_succ_lt_succ hfuel)]
    rfl

theorem length_lt_sendChunks (strs : List Str) : strs.length < (sendChunks strs).length := by
  induction strs with
  | nil => decide
  | cons str strs ih =>
    rw [sendChunks_cons, List.length_append, List.length_append, List.length_append,
      List.length_append]
    simp only [List.length_cons, crlf]
    omega

end Http
end Psets
