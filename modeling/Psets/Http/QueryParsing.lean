/-
`make_info` finds the parameters of a URL.

As long as the search part ends at a position that an `unsigned` can hold, the loop over the
buffer does what the loop over the text of the query does: it never passes the end of the
search part, since what follows there is no hex digit.  When the end is at `2 ^ 32`, the
call throws.
-/
import Psets.Http.QueryLoop
import Psets.Http.SearchParams

namespace Psets
namespace Http
namespace HttpMessage

open Containers QueryScan

/-! ## Views of the buffer -/

section Views

variable {url t : Str} {first last i s2 : Nat} {a : Char}

theorem length_view (first : Nat) (h : last ≤ url.length) :
    (view url first last).length = last - first := by
  rw [view, List.length_take, List.length_drop]
  omega

theorem view_succ_last (hle : first ≤ i) (hi : i < url.length) :
    view url first (i + 1) = view url first i ++ [url[i]] := by
  have hsplit : i + 1 - first = (i - first) + 1 := by omega
  rw [view, view, hsplit, List.take_add_one, List.getElem?_drop, Nat.add_sub_cancel' hle,
    List.getElem?_eq_getElem hi]
  rfl

theorem byteAt_eq (hi : i < url.length) : byteAt url i = some url[i] := by
  rw [byteAt, List.getElem?_append_left hi, List.getElem?_eq_getElem hi]

theorem byteAt_length (url : Str) : byteAt url url.length = some '\x00' := by
  rw [byteAt, List.getElem?_append_right (Nat.le_refl _), Nat.sub_self]
  rfl

/-- The first character of a view, and the others. -/
theorem of_view_cons (hs2 : s2 ≤ url.length) (h : view url i s2 = a :: t) :
    i < s2 ∧ byteAt url i = some a ∧ view url (i + 1) s2 = t := by
  have hi : i < s2 := by
    have hlength := congrArg List.length h
    rw [length_view i hs2, List.length_cons] at hlength
    omega
  have hlt := hi.trans_le hs2
  have hsplit : s2 - i = s2 - (i + 1) + 1 := by omega
  rw [view, List.drop_eq_getElem_cons hlt, hsplit, List.take_succ_cons, List.cons.injEq] at h
  refine ⟨hi, ?_, h.2⟩
  rw [byteAt_eq hlt, h.1]

end Views

/-! ## The two loops side by side -/

/-- The loop over the buffer is at the same place as the loop over the text, which has `rest`
before it. -/
structure Sim (url : Str) (s2 : Nat) (l : QueryLoop) (q : QueryScan) (rest : Str) : Prop where
  state : l.state = q.state
  qurl : l.qurl = q.qurl
  pending : view url l.last l.s = q.pending
  nstart : l.nstart = q.nstart
  nend : l.nend = q.nend
  vstart : l.vstart = q.vstart
  qpairs : l.qpairs = q.qpairs
  rest : view url l.s s2 = rest
  last_le : l.last ≤ l.s
  le : l.s ≤ s2
  /-- decoding makes no text longer -/
  short : q.pos ≤ l.s

variable {url rest : Str} {s2 : Nat} {l : QueryLoop} {q : QueryScan} {ch : Char}

/-- The end of the search part. -/
structure SearchEnd (url : Str) (s2 : Nat) : Prop where
  le : s2 ≤ url.length
  small : s2 < 2 ^ 32
  /-- what follows is no part of an escape -/
  stop : ∀ ch, byteAt url s2 = some ch → xvalue? ch = none

/-- A decoded character for `n` characters. -/
theorem Sim.pushBack (h : Sim url s2 l q rest) (ch : Char) {n : Nat} (hn : 0 < n)
    (hle : l.s + n ≤ s2) :
    Sim url s2 (l.pushBack url ch n) (q.decoded ch) (view url (l.s + n) s2) := by
  refine ⟨h.state, ?_, view_self _ _, h.nstart, h.nend, h.vstart, h.qpairs, rfl, Nat.le_refl _,
    hle, ?_⟩
  · show l.qurl ++ view url l.last l.s ++ [ch] = _
    rw [h.qurl, h.pending]
    rfl
  · rw [pos_decoded]
    exact Nat.add_le_add h.short hn

theorem Sim.started (h : Sim url s2 l q rest) :
    Sim url s2 (if l.state = .beginning then { l with state := .inName } else l) q.started
      rest := by
  rw [QueryScan.started, h.state]
  split
  · exact ⟨rfl, h.qurl, h.pending, h.nstart, h.nend, h.vstart, h.qpairs, h.rest, h.last_le, h.le,
      h.short⟩
  · exact h

/-- The end of a part. -/
theorem Sim.emplaceBack_fields (h : Sim url s2 l q rest) (vend : Nat) :
    (l.emplaceBack vend).s = l.s ∧ (l.emplaceBack vend).last = l.last ∧
      (l.emplaceBack vend).qurl = l.qurl ∧
      (l.emplaceBack vend).nstart = (q.emplace vend).nstart ∧
      (l.emplaceBack vend).nend = (q.emplace vend).nend ∧
      (l.emplaceBack vend).vstart = (q.emplace vend).vstart ∧
      (l.emplaceBack vend).qpairs = (q.emplace vend).qpairs := by
  rw [QueryLoop.emplaceBack, QueryScan.emplace, h.state]
  cases q.state with
  | beginning => exact ⟨rfl, rfl, rfl, h.nstart, h.nend, h.vstart, h.qpairs⟩
  | inName =>
    refine ⟨rfl, rfl, rfl, h.nstart, rfl, rfl, ?_⟩
    show l.qpairs ++ [⟨l.nstart, vend, vend, vend⟩] = _
    rw [h.qpairs, h.nstart]
  | inValue =>
    refine ⟨rfl, rfl, rfl, h.nstart, h.nend, h.vstart, ?_⟩
    show l.qpairs ++ [⟨l.nstart, l.nend, l.vstart, vend⟩] = _
    rw [h.qpairs, h.nstart, h.nend, h.vstart]

variable (hend : SearchEnd url s2)
include hend

theorem Sim.pos_eq (h : Sim url s2 l q rest) : l.pos = q.pos := by
  have hlength := length_view l.last (h.le.trans hend.le)
  have hle := h.last_le
  have hshort := h.short
  have hsmall := h.le.trans_lt hend.small
  rw [h.pending] at hlength
  have hsum : l.qurl.length + l.s - l.last = q.pos := by
    rw [QueryScan.pos, hlength, h.qurl]
    omega
  rw [QueryLoop.pos, hsum, unsigned, Nat.mod_eq_of_lt (hshort.trans_lt hsmall)]

/-- `++s` -/
theorem Sim.advance (h : Sim url s2 l q (ch :: rest)) :
    Sim url s2 { l with s := l.s + 1 } (q.advance ch) rest := by
  obtain ⟨hlt, hbyte, hrest⟩ := of_view_cons hend.le h.rest
  have hin := hlt.trans_le hend.le
  rw [byteAt_eq hin, Option.some_inj] at hbyte
  refine ⟨h.state, h.qurl, ?_, h.nstart, h.nend, h.vstart, h.qpairs, hrest,
    h.last_le.trans (Nat.le_succ _), hlt, ?_⟩
  · show view url l.last (l.s + 1) = q.pending ++ [ch]
    rw [view_succ_last h.last_le hin, h.pending, hbyte]
  · rw [pos_advance]
    exact Nat.succ_le_succ h.short

/-- A separator. -/
theorem Sim.separator (h : Sim url s2 l q ('&' :: rest)) :
    let l' := { l.emplaceBack l.pos with state := .beginning, s := l.s + 1 }
    let q' := (q.emplace q.pos).advance '&'
    Sim url s2 { l' with nstart := l'.pos, nend := l'.pos }
      { q' with nstart := q'.pos, nend := q'.pos } rest := by
  have hpos := h.pos_eq hend
  obtain ⟨hs, hlast, hqurl, hnstart, hnend, hvstart, hqpairs⟩ := h.emplaceBack_fields l.pos
  obtain ⟨hq, hpending⟩ := emplace_text q q.pos
  rw [hpos] at hs hlast hqurl hnstart hnend hvstart hqpairs
  have hsim : Sim url s2 { l.emplaceBack q.pos with state := .beginning } (q.emplace q.pos)
      ('&' :: rest) := by
    refine ⟨(emplace_state q _).symm, ?_, ?_, hnstart, hnend, hvstart, hqpairs, ?_, ?_, ?_, ?_⟩
    · exact hqurl.trans (h.qurl.trans hq.symm)
    · rw [hpending, ← h.pending, ← hs, ← hlast]
    · rw [← h.rest, ← hs]
    · exact hlast.le.trans (h.last_le.trans hs.ge)
    · exact hs.le.trans h.le
    · rw [QueryScan.pos, hq, hpending]
      exact h.short.trans hs.ge
  have hadvance := hsim.advance hend
  have hpos' := hadvance.pos_eq hend
  rw [hs] at hadvance hpos'
  rw [hpos]
  exact ⟨hadvance.state, hadvance.qurl, hadvance.pending, hpos', hpos', hadvance.vstart,
    hadvance.qpairs, hadvance.rest, hadvance.last_le, hadvance.le, hadvance.short⟩

/-- The end of a name. -/
theorem Sim.equals (h : Sim url s2 l q ('=' :: rest)) :
    Sim url s2
      { l with nend := l.pos, vstart := unsigned (l.pos + 1), state := .inValue, s := l.s + 1 }
      (({ q with nend := q.pos, vstart := q.pos + 1, state := .inValue } : QueryScan).advance '=')
      rest := by
  have hpos := h.pos_eq hend
  have hlt := (of_view_cons hend.le h.rest).1
  have hsmall : q.pos + 1 < 2 ^ 32 :=
    (Nat.succ_le_succ h.short).trans_lt (Nat.lt_of_le_of_lt hlt hend.small)
  have hadvance := h.advance hend
  refine ⟨rfl, h.qurl, hadvance.pending, h.nstart, hpos, ?_, h.qpairs, hadvance.rest,
    hadvance.last_le, hadvance.le, hadvance.short⟩
  show unsigned (l.pos + 1) = q.pos + 1
  rw [hpos, unsigned, Nat.mod_eq_of_lt hsmall]

/-! ## Looking ahead -/

omit hend in
theorem hex_of_xvalue {a : Char} {x : Nat} (ha : xvalue? a = some x) :
    chartable a &&& hexBit ≠ 0 ∧ xvalue a = x := by
  rw [xvalue?_eq, Option.ite_none_right_eq_some, Option.some_inj] at ha
  exact ha

omit hend in
theorem xvalue_of_hex {a : Char} (ha : chartable a &&& hexBit ≠ 0) :
    xvalue? a = some (xvalue a) := by
  rw [xvalue?_eq, if_pos ha]

theorem Sim.escape_eq_some {a b : Char} {x y : Nat} (h : Sim url s2 l q ('%' :: a :: b :: rest))
    (ha : xvalue? a = some x) (hb : xvalue? b = some y) :
    l.escape url s2 = some (some (Char.ofNat (x * 16 + y))) ∧ l.s + 3 ≤ s2 ∧
      view url (l.s + 3) s2 = rest := by
  obtain ⟨_, hbyte, hrest⟩ := of_view_cons hend.le h.rest
  obtain ⟨_, hbyte₁, hrest₁⟩ := of_view_cons hend.le hrest
  obtain ⟨hlt, hbyte₂, hrest₂⟩ := of_view_cons hend.le hrest₁
  obtain ⟨hhex₁, rfl⟩ := hex_of_xvalue ha
  obtain ⟨hhex₂, rfl⟩ := hex_of_xvalue hb
  refine ⟨?_, hlt, hrest₂⟩
  have htwo : 2 ≤ s2 - l.s := by omega
  have hbyte₂' : byteAt url (l.s + 2) = some b := hbyte₂
  simp only [QueryLoop.escape, hbyte, hbyte₁, hbyte₂', htwo, hhex₁, hhex₂, Option.bind_eq_bind,
    Option.bind_some, and_self, if_true, ne_eq, not_false_eq_true]

/-- What is after the end of the search part is not taken for the end of an escape. -/
theorem Sim.escape_eq_none (h : Sim url s2 l q (ch :: rest)) (hne : ¬ Escape ch rest) :
    l.escape url s2 = some none := by
  obtain ⟨hlt, hbyte, hrest⟩ := of_view_cons hend.le h.rest
  rw [QueryLoop.escape, hbyte]
  simp only [Option.bind_eq_bind, Option.bind_some]
  split
  · rename_i hpercent
    obtain ⟨rfl, htwo⟩ := hpercent
    obtain ⟨a, tail, rfl⟩ : ∃ a tail, rest = a :: tail := by
      have hlength := length_view (l.s + 1) hend.le
      rw [hrest] at hlength
      exact List.exists_cons_of_length_pos (by omega)
    obtain ⟨hlt₁, hbyte₁, hrest₁⟩ := of_view_cons hend.le hrest
    rw [hbyte₁]
    simp only [Option.bind_some]
    split
    · rename_i hhex₁
      obtain ⟨b, hbyte₂, hb⟩ : ∃ b, byteAt url (l.s + 2) = some b ∧ xvalue? b = none := by
        cases tail with
        | nil =>
          have hs2 : l.s + 2 = s2 := by
            have hlength := length_view (l.s + 2) hend.le
            rw [hrest₁, List.length_nil] at hlength
            omega
          rw [hs2]
          obtain ⟨b, hb⟩ : ∃ b, byteAt url s2 = some b := by
            rcases hend.le.lt_or_eq with hlt | heq
            · exact ⟨_, byteAt_eq hlt⟩
            · exact ⟨_, heq ▸ byteAt_length url⟩
          exact ⟨b, hb, hend.stop b hb⟩
        | cons b tail =>
          obtain ⟨_, hbyte₂, _⟩ := of_view_cons hend.le hrest₁
          refine ⟨b, hbyte₂, ?_⟩
          by_contra hsome
          obtain ⟨y, hy⟩ := Option.ne_none_iff_exists'.1 hsome
          exact hne ⟨a, b, tail, _, y, rfl, rfl, xvalue_of_hex hhex₁, hy⟩
      have hhex₂ : ¬ chartable b &&& hexBit ≠ 0 := by
        intro hhex
        rw [xvalue_of_hex hhex] at hb
        cases hb
      rw [hbyte₂]
      simp only [Option.bind_some, if_neg hhex₂]
    · rfl
  · rfl

/-! ## A round, and the loop -/

/-- A round goes on to what the loop over the text comes to. -/
theorem Sim.round (h : Sim url s2 l q (ch :: rest)) :
    ∃ l' q' rest', l.round url s2 = some l' ∧ l.s < l'.s ∧ Sim url s2 l' q' rest' ∧
      scanQuery (ch :: rest) q = scanQuery rest' q' := by
  obtain ⟨hlt, hbyte, hrest⟩ := of_view_cons hend.le h.rest
  rw [QueryLoop.round, hbyte]
  simp only [Option.bind_eq_bind, Option.bind_some]
  by_cases hand : ch = '&'
  · subst hand
    rw [if_pos rfl]
    refine ⟨_, _, rest, rfl, Nat.lt_succ_self _, h.separator hend, ?_⟩
    rw [scanQuery, if_pos rfl]
  · rw [if_neg hand]
    by_cases heq : ch = '=' ∧ q.state ≠ .inValue
    · obtain ⟨rfl, hstate⟩ := heq
      rw [h.state, if_pos ⟨rfl, hstate⟩]
      refine ⟨_, _, rest, rfl, Nat.lt_succ_self _, h.equals hend, ?_⟩
      rw [scanQuery, if_neg hand, if_pos ⟨rfl, hstate⟩]
    · rw [if_neg (h.state ▸ heq)]
      have hstarted := h.started
      have hs : (if l.state = .beginning then { l with state := .inName } else l).s = l.s := by
        split <;> rfl
      generalize (if l.state = .beginning then { l with state := .inName } else l) = l₁
        at hstarted hs ⊢
      rw [← hs]
      by_cases hesc : Escape ch rest
      · obtain ⟨a, b, tail, x, y, rfl, rfl, ha, hb⟩ := hesc
        obtain ⟨hescape, hle, htail⟩ := hstarted.escape_eq_some hend ha hb
        have hpush := hstarted.pushBack (Char.ofNat (x * 16 + y)) (by decide) hle
        rw [htail] at hpush
        rw [hescape]
        exact ⟨_, _, tail, rfl, Nat.lt_add_of_pos_right (by decide), hpush, scanQuery_escape ha hb⟩
      · rw [hstarted.escape_eq_none hend hesc]
        by_cases hplus : ch = '+'
        · subst hplus
          have hpush := hstarted.pushBack ' ' (by decide) (hs.symm ▸ hlt : l₁.s + 1 ≤ s2)
          rw [hs, hrest] at hpush
          exact ⟨_, _, rest, rfl, Nat.lt_succ_self _, hpush, scanQuery_plus rest q⟩
        · simp only [Option.bind_some, if_neg hplus]
          exact ⟨_, _, rest, rfl, Nat.lt_succ_self _, hstarted.advance hend,
            scanQuery_plain hand heq hplus hesc⟩

omit hend in
theorem emplaceBack_flush (l : QueryLoop) (u : Str) (vend : Nat) :
    ({ l with qurl := u } : QueryLoop).emplaceBack vend =
      { l.emplaceBack vend with qurl := u } := by
  obtain ⟨s, last, state⟩ := l
  cases state <;> rfl

/-- At the end of the search part the text is at its end. -/
theorem Sim.rest_eq_nil (h : Sim url s2 l q rest) : rest = [] ↔ l.s = s2 := by
  have hlength := length_view l.s hend.le
  have hle := h.le
  rw [h.rest] at hlength
  rw [← List.length_eq_zero_iff, hlength]
  omega

/-- What is done after the loop. -/
theorem Sim.finish (h : Sim url s2 l q []) :
    (l.finish url).qurl = (scanQuery [] q).qurl ∧
      (l.finish url).qpairs = (scanQuery [] q).qpairs := by
  have hflush : (if l.last ≠ l.s then l.append url else l) = { l with qurl := q.text } := by
    split
    · rw [QueryLoop.append, h.qurl, h.pending]
      rfl
    · rename_i hlast
      have hpending := h.pending
      rw [not_not.1 hlast, view_self] at hpending
      rw [text, ← hpending, List.append_nil, ← h.qurl]
  have hlength : unsigned q.text.length = q.pos := by
    rw [← QueryScan.pos_eq, unsigned, Nat.mod_eq_of_lt]
    exact h.short.trans_lt (h.le.trans_lt hend.small)
  obtain ⟨_, _, _, _, _, _, hqpairs⟩ := h.emplaceBack_fields q.pos
  rw [QueryLoop.finish]
  simp only [hflush, hlength]
  rw [scanQuery, emplace_flush, emplaceBack_flush]
  exact ⟨rfl, hqpairs⟩

/-- The loop returns what the loop over the text comes to. -/
theorem Sim.scan {fuel : Nat} (h : Sim url s2 l q rest) (hfuel : s2 - l.s < fuel) :
    ∃ l', l.scan url s2 fuel = some l' ∧ (l'.finish url).qurl = (scanQuery rest q).qurl ∧
      (l'.finish url).qpairs = (scanQuery rest q).qpairs := by
  induction fuel generalizing l q rest with
  | zero => exact absurd hfuel (Nat.not_lt_zero _)
  | succ fuel ih =>
    rw [QueryLoop.scan]
    cases rest with
    | nil =>
      rw [if_pos ((h.rest_eq_nil hend).1 rfl)]
      exact ⟨l, rfl, h.finish hend⟩
    | cons ch rest =>
      have hs : l.s ≠ s2 := fun hs => List.cons_ne_nil ch rest ((h.rest_eq_nil hend).2 hs)
      obtain ⟨l₁, q₁, rest₁, hround, hlt, hsim, hscan⟩ := h.round hend
      have hle := hsim.le
      obtain ⟨l', hl', hqurl, hqpairs⟩ := ih hsim (by omega)
      rw [if_neg hs, hround, hscan]
      exact ⟨l', hl', hqurl, hqpairs⟩

omit hend

/-! ## The parameters of a URL -/

/-- The search part, if there is one, ends at a position that an `unsigned` can hold. -/
def SearchFits (url : Str) : Prop :=
  ValidUrl url → '?' ∈ before '#' url → (before '#' url).length < 2 ^ 32

/-- The parameters of a URL are found, and the loop stays within the search part. -/
structure ParsesSearch (url : Str) : Prop where
  params : searchParamsOf url = some (paramsOf (searchText url))
  bounded : ∀ l, (queryRounds url).Reachable l → l.s ≤ (searchPart url).2

/-- There is no search part. -/
theorem parsesSearch_of_none (hpart : (searchPart url).1 = (searchPart url).2)
    (htext : searchText url = []) : ParsesSearch url := by
  refine ⟨?_, fun l hl => ?_⟩
  · rw [searchParamsOf, makeParams, htext]
    simp only [hpart, ne_eq, not_true_eq_false, if_false]
    rfl
  · refine (Transition.Machine.Reachable.invariant (P := fun _ => False) ?_ ?_ hl).elim
    · rintro l ⟨hlt, -⟩
      exact absurd hpart hlt.ne
    · exact fun _ _ _ h _ => h

/-- The loop starts where the query does. -/
theorem Sim.start {first last : Nat} (hlt : first < last) :
    Sim url last { s := first + 1, last := first + 1 } {} (view url (first + 1) last) :=
  ⟨rfl, rfl, view_self _ _, rfl, rfl, rfl, rfl, rfl, Nat.le_refl _, hlt, Nat.zero_le _⟩

theorem parsesSearch_of_some {first last : Nat} (hpart : searchPart url = (first, last))
    (hlt : first < last) (hend : SearchEnd url last)
    (htext : view url (first + 1) last = searchText url) : ParsesSearch url := by
  have hstart := @Sim.start url first last hlt
  rw [htext] at hstart
  refine ⟨?_, fun l hl => ?_⟩
  · obtain ⟨l', hscan, hqurl, hqpairs⟩ :=
      hstart.scan hend (show last - (first + 1) < last - first by omega)
    rw [searchParamsOf, makeParams, hpart]
    simp only [hlt.ne, Nat.succ_le_of_lt hlt, hscan, hqurl, hqpairs, ne_eq, not_false_eq_true,
      if_true, Option.map_some]
    exact congrArg some (scanQuery_params (searchText url))
  · have hsim : ∃ q rest, Sim url last l q rest := by
      refine Transition.Machine.Reachable.invariant (P := fun l => ∃ q rest, Sim url last l q rest)
        ?_ ?_ hl
      · rintro l ⟨-, rfl⟩
        rw [hpart]
        exact ⟨_, _, hstart⟩
      · rintro l _ l' ⟨q, rest, hsim⟩ hstep
        have hstep' : (if l.s = last then none else l.round url last) = some l' := by
          rw [queryRounds, hpart] at hstep
          exact hstep
        cases rest with
        | nil =>
          rw [if_pos ((hsim.rest_eq_nil hend).1 rfl)] at hstep'
          cases hstep'
        | cons ch rest =>
          obtain ⟨l₁, q₁, rest₁, hround, _, hsim₁, _⟩ := hsim.round hend
          rw [hround, Option.ite_none_left_eq_some] at hstep'
          obtain rfl := Option.some.inj hstep'.2
          exact ⟨q₁, rest₁, hsim₁⟩
    obtain ⟨q, rest, hsim⟩ := hsim
    rw [hpart]
    exact hsim.le

theorem searchPart_valid (h : ValidUrl url) :
    searchPart url =
      (unsigned (before '?' (before '#' url)).length, unsigned (before '#' url).length) := by
  rw [searchPart, urlParts_valid h]
  rfl

theorem searchEnd_of_lt (h : (before '#' url).length < 2 ^ 32) :
    SearchEnd url (before '#' url).length := by
  refine ⟨length_before_le '#' url, h, fun ch hch => ?_⟩
  rcases getElem?_length_before '#' url with hhash | hlength
  · have hlt := (List.getElem?_eq_some_iff.1 hhash).1
    rw [byteAt, List.getElem?_append_left hlt, hhash, Option.some_inj] at hch
    rw [← hch]
    decide
  · rw [hlength, byteAt_length, Option.some_inj] at hch
    rw [← hch]
    decide

theorem parsesSearch_of_fits (h : SearchFits url) : ParsesSearch url := by
  by_cases hvalid : ValidUrl url
  · have hpart := searchPart_valid hvalid
    by_cases hmark : '?' ∈ before '#' url
    · have hsmall := h hvalid hmark
      have hlength := length_before_add_after hmark
      have hlt : (before '?' (before '#' url)).length < (before '#' url).length := by omega
      rw [unsigned, unsigned, Nat.mod_eq_of_lt (hlt.trans hsmall), Nat.mod_eq_of_lt hsmall]
        at hpart
      refine parsesSearch_of_some hpart hlt (searchEnd_of_lt hsmall) ?_
      rw [view_search, searchText, if_pos hvalid]
    · rw [before_of_not_mem hmark] at hpart
      refine parsesSearch_of_none ?_ ?_
      · rw [hpart]
      · rw [searchText, if_pos hvalid, after_of_not_mem hmark]
  · refine parsesSearch_of_none ?_ ?_
    · rw [searchPart, urlParts_invalid hvalid]
      rfl
    · rw [searchText, if_neg hvalid]

/-- A message keeps what the loop over the buffer finds. -/
theorem Built.searchParamsOf_url {m : HttpMessage} (h : Built m) (hfits : SearchFits m.url) :
    searchParamsOf m.url = some m.searchParams := by
  rw [(parsesSearch_of_fits hfits).params, h.coherent.searchParams]

/-- The end is before the start: nothing is found. -/
theorem not_parsesSearch (h : (searchPart url).2 < (searchPart url).1) : ¬ ParsesSearch url := by
  intro hparses
  have hparams := hparses.params
  have hnone : ¬ (searchPart url).1 + 1 ≤ (searchPart url).2 := by omega
  rw [searchParamsOf, makeParams] at hparams
  simp only [h.ne', hnone, ne_eq, not_false_eq_true, if_true, if_false, Option.map_none,
    reduceCtorEq] at hparams

/-- A search part that ends beyond what an `unsigned` can hold, and does not start there. -/
theorem searchPart_wraps (hvalid : ValidUrl url)
    (hfirst : (before '?' (before '#' url)).length < 2 ^ 32)
    (hlast : (before '#' url).length < (before '?' (before '#' url)).length + 2 ^ 32)
    (hlarge : 2 ^ 32 ≤ (before '#' url).length) :
    (searchPart url).2 < (searchPart url).1 := by
  rw [searchPart_valid hvalid]
  show unsigned _ < unsigned _
  rw [unsigned, unsigned, Nat.mod_eq_of_lt hfirst]
  omega

/-- The parameters of a URL are those of its search part when this ends at a position that an
`unsigned` can hold; and they are not, as far as the search part starts there and is not
longer itself. -/
theorem searchParams_reference (url : Str) :
    (SearchFits url → ParsesSearch url) ∧
    ((before '?' (before '#' url)).length < 2 ^ 32 →
      (after '?' (before '#' url)).length + 1 < 2 ^ 32 → ParsesSearch url → SearchFits url) := by
  refine ⟨parsesSearch_of_fits, fun hfirst hlength hparses hvalid hmark => ?_⟩
  have hsum := length_before_add_after hmark
  by_contra hlarge
  exact not_parsesSearch (searchPart_wraps hvalid hfirst (by omega) (not_lt.1 hlarge)) hparses

/-- Two parameters, one with an escape. -/
theorem searchParams_reference_find : ParsesSearch "/find?q=a%20b+c&&x#top".toList :=
  (searchParams_reference _).1 fun _ _ => by decide

/-- A name that ends at `2 ^ 32`. -/
theorem longName_not_parsed : ¬ ∀ url, ParsesSearch url := by
  intro hall
  obtain ⟨n, hn⟩ : ∃ n, n + 2 = 2 ^ 32 := ⟨2 ^ 32 - 2, by decide⟩
  let url := '/' :: '?' :: List.replicate n 'a'
  have hname : '#' ∉ '/' :: '?' :: List.replicate n 'a' := by
    simp
  have hbefore : before '#' url = url := before_of_not_mem hname
  have hfirst : before '?' url = ['/'] := by
    rw [before_cons (by decide), before_self]
  have hlength : url.length = n + 2 := by
    rw [List.length_cons, List.length_cons, List.length_replicate]
  have hvalid : ValidUrl url := by
    refine ⟨rfl, fun ch hmem => ?_⟩
    have hch : ch = '/' ∨ ch = '?' ∨ ch = 'a' := by
      rcases List.mem_cons.1 hmem with rfl | hmem
      · exact .inl rfl
      · rcases List.mem_cons.1 hmem with rfl | hmem
        · exact .inr (.inl rfl)
        · exact .inr (.inr (List.eq_of_mem_replicate hmem))
    rcases hch with rfl | rfl | rfl <;> decide
  refine not_parsesSearch (searchPart_wraps hvalid ?_ ?_ ?_) (hall url)
  · rw [hbefore, hfirst]
    decide
  · rw [hbefore, hfirst, hlength, hn]
    decide
  · rw [hbefore, hlength, hn]

end HttpMessage
end Http
end Psets
