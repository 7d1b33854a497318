/-
The path, the search part and the hash part of a URL, with offsets of 32 bits.

`info_` keeps the offsets in members that are `unsigned`, so they are right for URLs below
4 GiB.  A `string_view` that ends before it starts has no result.
-/
import Psets.Http.Copy
import Psets.Http.QueryLoop

namespace Psets
namespace Http

open Containers

namespace HttpMessage
namespace UrlSplit

-- for the numerals of the fields
local instance neZero_fields : NeZero 3 := ⟨by decide⟩

/-- `info(info_url).f[field]` -/
def part (m : HttpMessage) (field : Fin 3) : Nat × Nat :=
  let part := ((m.infoFor { url := true }).f[field.val]?).getD (0, 0)
  (unsigned part.1, unsigned part.2)

def hasUrlField (m : HttpMessage) (field : Fin 3) : Bool := (part m field).1 != (part m field).2

def urlField (m : HttpMessage) (field : Fin 3) : Option Str :=
  let (first, last) := part m field
  if first ≠ last then if first ≤ last then some (view m.url first last) else none
  else some []

def hasValidUrl (m : HttpMessage) : Bool := hasUrlField m 0

def path (m : HttpMessage) : Option Str := urlField m 0

def search (m : HttpMessage) : Option Str := urlField m 1

def hash (m : HttpMessage) : Option Str := urlField m 2

/-- What callers expect of the parts. -/
structure Splits (m : HttpMessage) : Prop where
  valid : hasValidUrl m = true ↔ ValidUrl m.url
  parts : ValidUrl m.url → ∃ path' search' hash',
    path m = some path' ∧ search m = some search' ∧ hash m = some hash' ∧
      path' ++ search' ++ hash' = m.url ∧ '?' ∉ path' ∧ '#' ∉ path' ∧
      (search' = [] ∨ search'.head? = some '?') ∧ '#' ∉ search' ∧
      (hash' = [] ∨ hash'.head? = some '#')
  invalid : ¬ ValidUrl m.url → path m = some [] ∧ search m = some [] ∧ hash m = some []

/-! ## The parts of a text -/

theorem not_mem_before (a : Char) (l : Str) : a ∉ before a l := by
  intro hmem
  have hne := List.mem_takeWhile_imp hmem
  simp at hne

theorem mem_of_mem_before {a ch : Char} {l : Str} (h : ch ∈ before a l) : ch ∈ l :=
  (List.takeWhile_sublist _).subset h

/-- What is left from the first separator on starts with it, or is empty. -/
theorem drop_before (a : Char) (l : Str) :
    l.drop (before a l).length = [] ∨ (l.drop (before a l).length).head? = some a := by
  rw [List.head?_drop]
  rcases getElem?_length_before a l with hsome | hlength
  · exact Or.inr hsome
  · exact Or.inl (List.drop_eq_nil_of_le (Nat.le_of_eq hlength.symm))

theorem view_from_start (url : Str) (last : Nat) : view url 0 last = url.take last := rfl

theorem view_to_end (url : Str) (first : Nat) : view url first url.length = url.drop first := by
  rw [view, List.take_of_length_le (Nat.le_of_eq List.length_drop)]

theorem view_before (a : Char) (url : Str) (first : Nat) :
    view url first (before a url).length = (before a url).drop first := by
  rw [view, ← List.drop_take, take_length_before]

theorem length_view {url : Str} {first last : Nat} (h : last ≤ url.length) :
    (view url first last).length = last - first := by
  rw [view, List.length_take, List.length_drop]
  omega

/-- The parts that meet are the text. -/
theorem views_join (url : Str) {first last : Nat} (hle : first ≤ last) :
    view url 0 first ++ view url first last ++ view url last url.length = url := by
  have hfront : view url 0 first ++ view url first last = url.take last := by
    rw [view, view, List.drop_zero, Nat.sub_zero, ← List.take_add, Nat.add_sub_cancel' hle]
  rw [hfront, view_to_end, List.take_append_drop]

/-! ## The offsets -/

variable {m : HttpMessage}

theorem part_eq (h : Coherent m) (field : Fin 3) :
    part m field = (unsigned (((urlParts m.url)[field.val]?).getD (0, 0)).1,
      unsigned (((urlParts m.url)[field.val]?).getD (0, 0)).2) := by
  rw [part, h.infoFor_url]

/-- The offsets where the search part and the hash part of a valid URL start. -/
def cuts (url : Str) : Nat × Nat :=
  ((before '?' (before '#' url)).length, (before '#' url).length)

theorem cuts_le (url : Str) : (cuts url).1 ≤ (cuts url).2 ∧ (cuts url).2 ≤ url.length :=
  ⟨length_before_le '?' (before '#' url), length_before_le '#' url⟩

theorem part_valid (h : Coherent m) (hvalid : ValidUrl m.url) :
    part m 0 = (0, unsigned (cuts m.url).1) ∧
      part m 1 = (unsigned (cuts m.url).1, unsigned (cuts m.url).2) ∧
      part m 2 = (unsigned (cuts m.url).2, unsigned m.url.length) := by
  refine ⟨?_, ?_, ?_⟩ <;> rw [part_eq h, urlParts_valid hvalid] <;> rfl

theorem part_invalid (h : Coherent m) (hvalid : ¬ ValidUrl m.url) (field : Fin 3) :
    part m field = (0, 0) := by
  rw [part_eq h, urlParts_invalid hvalid]
  match field with
  | 0 => rfl
  | 1 => rfl
  | 2 => rfl

theorem unsigned_of_lt {n : Nat} (h : n < 2 ^ 32) : unsigned n = n := Nat.mod_eq_of_lt h

theorem unsigned_le (n : Nat) : unsigned n ≤ n := Nat.mod_le _ _

/-- A slash is before the first cut. -/
theorem cuts_pos {url : Str} (h : ValidUrl url) : 0 < (cuts url).1 := by
  obtain ⟨rest, rfl⟩ := List.head?_eq_some_iff.1 h.1
  show 0 < (before '?' (before '#' ('/' :: rest))).length
  rw [before_cons (by decide), before_cons (by decide), List.length_cons]
  exact Nat.succ_pos _

theorem urlField_part {field : Fin 3} {first last : Nat} (h : part m field = (first, last)) :
    urlField m field = if first ≠ last then
      if first ≤ last then some (view m.url first last) else none else some [] := by
  rw [urlField, h]

theorem urlField_of_le {field : Fin 3} {first last : Nat} (h : part m field = (first, last))
    (hle : first ≤ last) : urlField m field = some (view m.url first last) := by
  rw [urlField_part h]
  by_cases hsame : first = last
  · rw [if_neg (not_not.2 hsame), view, hsame, Nat.sub_self, List.take_zero]
  · rw [if_pos hsame, if_pos hle]

/-- A field that there is has the length that its offsets say. -/
theorem length_urlField {field : Fin 3} {first last : Nat} {text : Str}
    (h : part m field = (first, last)) (hlast : last ≤ m.url.length)
    (htext : urlField m field = some text) : first + text.length = last := by
  rw [urlField_part h] at htext
  by_cases hsame : first = last
  · rw [if_neg (not_not.2 hsame)] at htext
    rw [← Option.some.inj htext, hsame, List.length_nil, Nat.add_zero]
  · rw [if_pos hsame] at htext
    by_cases hle : first ≤ last
    · rw [if_pos hle] at htext
      rw [← Option.some.inj htext, length_view hlast]
      omega
    · rw [if_neg hle] at htext
      cases htext

/-- A URL below 4 GiB is split as it should be. -/
theorem splits_of_lt (h : Coherent m) (hsmall : ValidUrl m.url → m.url.length < 2 ^ 32) :
    Splits m := by
  by_cases hvalid : ValidUrl m.url
  · have hcuts := cuts_le m.url
    have hlt := hsmall hvalid
    obtain ⟨hpath, hsearch, hhash⟩ := part_valid h hvalid
    rw [unsigned_of_lt (by omega)] at hpath
    rw [unsigned_of_lt (by omega), unsigned_of_lt (by omega)] at hsearch
    rw [unsigned_of_lt (by omega), unsigned_of_lt hlt] at hhash
    refine ⟨?_, fun _ => ?_, fun hnot => absurd hvalid hnot⟩
    · rw [hasValidUrl, hasUrlField, hpath, bne_iff_ne]
      exact iff_of_true (Nat.ne_of_lt (cuts_pos hvalid)) hvalid
    · refine ⟨_, _, _, urlField_of_le hpath (Nat.zero_le _), urlField_of_le hsearch hcuts.1,
        urlField_of_le hhash hcuts.2, views_join m.url hcuts.1, ?_⟩
      -- the path is before both separators, the search part before the hash
      have hpathText : view m.url 0 (cuts m.url).1 = before '?' (before '#' m.url) := by
        have htake : m.url.take (cuts m.url).1 = (before '#' m.url).take (cuts m.url).1 := by
          rw [← take_length_before '#' m.url, List.take_take]
          exact congrArg (m.url.take ·) (Nat.min_eq_left hcuts.1).symm
        rw [view_from_start, htake]
        exact take_length_before '?' (before '#' m.url)
      have hsearchText : view m.url (cuts m.url).1 (cuts m.url).2 =
          (before '#' m.url).drop (before '?' (before '#' m.url)).length :=
        view_before '#' m.url _
      rw [hpathText, hsearchText, view_to_end]
      refine ⟨not_mem_before '?' _, fun hmem => ?_, drop_before '?' _, fun hmem => ?_,
        drop_before '#' m.url⟩
      · exact not_mem_before '#' m.url (mem_of_mem_before hmem)
      · exact not_mem_before '#' m.url (List.mem_of_mem_drop hmem)
  · have hpart := part_invalid h hvalid
    have hempty : ∀ field, urlField m field = some [] := fun field =>
      urlField_of_le (hpart field) (Nat.le_refl 0)
    refine ⟨?_, fun hyes => absurd hyes hvalid, fun _ => ⟨hempty 0, hempty 1, hempty 2⟩⟩
    rw [hasValidUrl, hasUrlField, hpart 0]
    exact iff_of_false (by decide) hvalid

/-- Parts that make up the URL have its length between them, which is what an `unsigned`
keeps of it. -/
theorem lt_of_splits (h : Coherent m) (hsplits : Splits m) (hvalid : ValidUrl m.url) :
    m.url.length < 2 ^ 32 := by
  obtain ⟨path', search', hash', hpath, hsearch, hhash, hjoin, -⟩ := hsplits.parts hvalid
  obtain ⟨hpart₀, hpart₁, hpart₂⟩ := part_valid h hvalid
  have hcuts := cuts_le m.url
  have hle₁ := unsigned_le (cuts m.url).1
  have hle₂ := unsigned_le (cuts m.url).2
  have hlength₀ := length_urlField hpart₀ (by omega) hpath
  have hlength₁ := length_urlField hpart₁ (by omega) hsearch
  have hlength₂ := length_urlField hpart₂ (unsigned_le _) hhash
  have hsum : path'.length + search'.length + hash'.length = m.url.length := by
    rw [← hjoin, List.length_append, List.length_append]
  have hsame : unsigned m.url.length = m.url.length := by omega
  rw [← hsame]
  exact Nat.mod_lt _ (by decide)

/-- The parts are right for every message, however it was built, edited, copied and examined,
exactly when its URL is not valid or below 4 GiB. -/
theorem splits_iff (h : Built m) : Splits m ↔ (ValidUrl m.url → m.url.length < 2 ^ 32) :=
  ⟨fun hsplits hvalid => lt_of_splits h.coherent hsplits hvalid, splits_of_lt h.coherent⟩

/-- A message whose URL was set and asked for twice. -/
def moved : HttpMessage :=
  ((edit {} (.url "/a?b".toList)).observed (.hasUrlField 1)).edit (.url "/find?q=1#top".toList)

theorem splits_iff_moved :
    Splits moved ↔ (ValidUrl moved.url → moved.url.length < 2 ^ 32) :=
  splits_iff (.edit _ (.observed _ (.edit _ .new)))

example : path moved = some "/find".toList ∧ search moved = some "?q=1".toList ∧
    hash moved = some "#top".toList := by decide

/-- A path of 4 GiB. -/
theorem longPath_not_split : ¬ ∀ m, Built m → Splits m := by
  intro hall
  obtain ⟨n, hn⟩ : ∃ n, n + 1 = 2 ^ 32 := ⟨2 ^ 32 - 1, by decide⟩
  let url := '/' :: List.replicate n 'a'
  have hlength : url.length = 2 ^ 32 := by
    rw [List.length_cons, List.length_replicate, hn]
  have hvalid : ValidUrl url := by
    refine ⟨rfl, fun ch hmem => ?_⟩
    rcases List.mem_cons.1 hmem with rfl | hmem
    · decide
    · rw [List.eq_of_mem_replicate hmem]
      decide
  have hbuilt : Built { method := 1 % 256, url } := .request 1 url
  have hlt := (splits_iff hbuilt).1 (hall _ hbuilt) hvalid
  exact absurd hlt (Nat.not_lt.2 (Nat.le_of_eq hlength.symm))

end UrlSplit
end HttpMessage
end Http
end Psets
