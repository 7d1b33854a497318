/-
The parts of a URL.

A valid URL is a path, a search part from the first question mark on, and a hash part from
the first hash on; the parts meet.  A URL that is not valid has no parts.
-/
import Psets.Containers.Fields
import Psets.Http.Message

namespace Psets
namespace Http

open Containers

/-- The characters of URLs. -/
def UrlChar (ch : Char) : Prop := usSafe ch = true ∨ ch = '?' ∨ ch = '#'

instance (ch : Char) : Decidable (UrlChar ch) := inferInstanceAs (Decidable (_ ∨ _))

/-- A URL starts with a slash and has no other characters than URLs may have. -/
def ValidUrl (url : Str) : Prop := url.head? = some '/' ∧ ∀ ch ∈ url, UrlChar ch

instance (url : Str) : Decidable (ValidUrl url) := inferInstanceAs (Decidable (_ ∧ _))

/-- What is after the first question mark and before the first hash. -/
def searchText (url : Str) : Str := if ValidUrl url then after '?' (before '#' url) else []

theorem ne_of_safe {a ch : Char} (ha : usSafe a = false) (hch : usSafe ch = true) : ch ≠ a := by
  rintro rfl
  rw [ha] at hch
  cases hch

namespace HttpMessage

variable {rest : Str} {pos : Nat} {f : List (Nat × Nat)}

/-- A character that no URL has. -/
theorem scanUrl_invalid (h : ∃ ch ∈ rest, ¬ UrlChar ch) :
    scanUrl rest pos f = [(0, 0), (0, 0), (0, 0)] := by
  induction rest generalizing pos f with
  | nil =>
    obtain ⟨ch, hmem, -⟩ := h
    exact absurd hmem List.not_mem_nil
  | cons ch rest ih =>
    by_cases hch : UrlChar ch
    · have hrest : ∃ ch ∈ rest, ¬ UrlChar ch := by
        obtain ⟨bad, hmem, hbad⟩ := h
        rcases List.mem_cons.1 hmem with rfl | hmem
        · exact absurd hch hbad
        · exact ⟨bad, hmem, hbad⟩
      rw [scanUrl]
      split
      · exact ih hrest
      · split
        · exact ih hrest
        · split
          · exact ih hrest
          · rfl
    · rw [UrlChar, not_or, not_or] at hch
      rw [scanUrl, if_neg hch.1, if_neg hch.2.1, if_neg hch.2.2]
      rfl

/-- In the last part. -/
theorem scanUrl_hash (pos : Nat) (h : ∀ ch ∈ rest, UrlChar ch) (p q : Nat × Nat) :
    scanUrl rest pos [p, q] = [p, q, (q.2, pos + rest.length)] := by
  induction rest generalizing pos with
  | nil => rfl
  | cons ch rest ih =>
    have hrest : ∀ ch ∈ rest, UrlChar ch := fun ch hmem => h ch (List.mem_cons_of_mem _ hmem)
    rw [List.length_cons, Nat.add_comm rest.length, ← Nat.add_assoc, ← ih (pos + 1) hrest]
    rcases h ch List.mem_cons_self with hsafe | rfl | rfl
    · rw [scanUrl, if_pos hsafe]
    · rfl
    · rfl

theorem add_one_add (pos n : Nat) : pos + 1 + n = pos + (n + 1) := by omega

/-- In the search part. -/
theorem scanUrl_search (pos : Nat) (h : ∀ ch ∈ rest, UrlChar ch) (p : Nat × Nat) :
    let last := pos + (before '#' rest).length
    scanUrl rest pos [p] = [p, (p.2, last), (last, pos + rest.length)] := by
  induction rest generalizing pos with
  | nil => rfl
  | cons ch rest ih =>
    have hrest : ∀ ch ∈ rest, UrlChar ch := fun ch hmem => h ch (List.mem_cons_of_mem _ hmem)
    have hih := ih (pos + 1) hrest
    have hhash := scanUrl_hash (pos + 1) hrest p (p.2, pos)
    simp only [add_one_add] at hih hhash
    rcases h ch List.mem_cons_self with hsafe | rfl | rfl
    · have hne := ne_of_safe (by decide : usSafe '#' = false) hsafe
      rw [scanUrl, if_pos hsafe, hih, before_cons hne]
      simp only [List.length_cons]
    · rw [before_cons (by decide)]
      exact hih
    · rw [before_self]
      exact hhash

theorem scanUrl_path (pos : Nat) (h : ∀ ch ∈ rest, UrlChar ch) :
    let first := pos + (before '?' (before '#' rest)).length
    let last := pos + (before '#' rest).length
    scanUrl rest pos [] = [(0, first), (first, last), (last, pos + rest.length)] := by
  induction rest generalizing pos with
  | nil => rfl
  | cons ch rest ih =>
    have hrest : ∀ ch ∈ rest, UrlChar ch := fun ch hmem => h ch (List.mem_cons_of_mem _ hmem)
    have hih := ih (pos + 1) hrest
    have hsearch := scanUrl_search (pos + 1) hrest (0, pos)
    have hhash := scanUrl_hash (pos + 1) hrest (0, pos) (pos, pos)
    simp only [add_one_add] at hih hsearch hhash
    rcases h ch List.mem_cons_self with hsafe | rfl | rfl
    · have hne := ne_of_safe (by decide : usSafe '#' = false) hsafe
      have hne' := ne_of_safe (by decide : usSafe '?' = false) hsafe
      rw [scanUrl, if_pos hsafe, hih, before_cons hne, before_cons hne']
      simp only [List.length_cons]
    · rw [before_cons (by decide), before_self]
      exact hsearch
    · rw [before_self]
      exact hhash

/-- The path, the search part and the hash part. -/
theorem urlParts_valid {url : Str} (h : ValidUrl url) :
    let first := (before '?' (before '#' url)).length
    let last := (before '#' url).length
    urlParts url = [(0, first), (first, last), (last, url.length)] := by
  rw [urlParts, if_pos h.1]
  simpa only [Nat.zero_add] using scanUrl_path 0 h.2

theorem urlParts_invalid {url : Str} (h : ¬ ValidUrl url) :
    urlParts url = [(0, 0), (0, 0), (0, 0)] := by
  rw [urlParts]
  split
  · rename_i hslash
    apply scanUrl_invalid
    by_contra hall
    refine h ⟨hslash, fun ch hmem => ?_⟩
    by_contra hbad
    exact hall ⟨ch, hmem, hbad⟩
  · rfl

/-- The search part without its question mark. -/
theorem view_search (url : Str) :
    view url ((before '?' (before '#' url)).length + 1) (before '#' url).length =
      after '?' (before '#' url) := by
  rw [view, ← List.drop_take, take_length_before, drop_length_before]

end HttpMessage
end Http
end Psets
