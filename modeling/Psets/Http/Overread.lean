/-
A decoder that reads a chunk past its end.

From then on it takes framing for content and content for framing.  What the sender has
written and the decoder has yet to read is a wheel: a byte of content leaves it in front
and comes back behind.  The size that the sender has put on the wheel last is at least
what is left of its string, so the decoder is never early for the next size.
-/
import Psets.Containers.Wheel
import Psets.Http.Chunks

namespace Psets
namespace Http

/-! ## Reading a size -/

/-- The number that hexadecimal digits add to `v`. -/
def hexValue (v : Nat) (digits : Str) : Nat :=
  digits.foldl (fun v ch => 16 * v + (hexDigit? ch).getD 0) v

theorem hexValue_append (v : Nat) (xs ys : Str) :
    hexValue v (xs ++ ys) = hexValue (hexValue v xs) ys := List.foldl_append ..

theorem hexValue_mono {v w : Nat} (h : v ≤ w) (xs : Str) : hexValue v xs ≤ hexValue w xs := by
  induction xs generalizing v w with
  | nil => exact h
  | cons ch xs ih => exact ih (Nat.add_le_add_right (Nat.mul_le_mul_left 16 h) _)

theorem le_hexValue (v : Nat) (xs : Str) : v ≤ hexValue v xs := by
  induction xs generalizing v with
  | nil => exact Nat.le_refl v
  | cons ch xs ih =>
    have hstep : v ≤ 16 * v + (hexDigit? ch).getD 0 := by omega
    exact Nat.le_trans hstep (ih _)

theorem hexValue_le {xs ys : Str} (h : xs <:+: ys) : hexValue 0 xs ≤ hexValue 0 ys := by
  obtain ⟨a, b, rfl⟩ := h
  rw [hexValue_append, hexValue_append]
  exact Nat.le_trans (hexValue_mono (Nat.zero_le _) xs) (le_hexValue _ b)

theorem hexValue_decimal (n : Nat) : hexValue 0 (decimal n) = sizeRead n := by
  have hd : ∀ ch ∈ decimal n, ch.isDigit = true := fun ch => isDigit_of_mem_decimal
  rw [sizeRead]
  generalize decimal n = l at hd
  generalize 0 = v
  induction l generalizing v with
  | nil => rfl
  | cons ch l ih =>
    rw [Nat.ofDigitChars_cons, ← ih (fun c hc => hd c (List.mem_cons_of_mem ch hc))]
    show hexValue (16 * v + (hexDigit? ch).getD 0) l = _
    rw [hexDigit?_of_isDigit (hd ch List.mem_cons_self), Option.getD_some]

theorem le_sizeRead (n : Nat) : n ≤ sizeRead n := by
  rcases Nat.lt_or_ge n 10 with hlt | hge
  · exact Nat.le_of_eq (sizeRead_of_lt hlt).symm
  · exact Nat.le_of_lt (lt_sizeRead hge)

/-- Neither byte of CRLF. -/
def Unbroken (s : Str) : Prop := '\r' ∉ s ∧ '\n' ∉ s

theorem decimal_unbroken (n : Nat) : Unbroken (decimal n) :=
  ⟨fun h => absurd (isDigit_of_mem_decimal h) (by decide),
    fun h => absurd (isDigit_of_mem_decimal h) (by decide)⟩

theorem unbroken_cons {ch : Char} {d : Nat} (hd : hexDigit? ch = some d) {s : Str}
    (hs : Unbroken s) : Unbroken (ch :: s) := by
  refine ⟨fun h => ?_, fun h => ?_⟩
  · rcases List.mem_cons.1 h with rfl | h
    · cases hd
    · exact hs.1 h
  · rcases List.mem_cons.1 h with rfl | h
    · cases hd
    · exact hs.2 h

theorem takeHex_spec (v : Nat) (s : Str) :
    ∃ digits, Unbroken digits ∧ s = digits ++ (takeHex v s).2 ∧
      (takeHex v s).1 = hexValue v digits := by
  induction s generalizing v with
  | nil => exact ⟨[], ⟨List.not_mem_nil, List.not_mem_nil⟩, rfl, rfl⟩
  | cons ch s ih =>
    rw [takeHex]
    rcases hd : hexDigit? ch with _ | d
    · exact ⟨[], ⟨List.not_mem_nil, List.not_mem_nil⟩, rfl, rfl⟩
    · obtain ⟨digits, hu, hs, hv⟩ := ih (16 * v + d)
      refine ⟨ch :: digits, unbroken_cons hd hu, congrArg (ch :: ·) hs, ?_⟩
      show (takeHex (16 * v + d) s).1 = hexValue (16 * v + (hexDigit? ch).getD 0) digits
      rw [hv, hd, Option.getD_some]

theorem chunkSize?_spec {s rest : Str} {size : Nat} (h : chunkSize? s = some (size, rest)) :
    ∃ digits, Unbroken digits ∧ s = digits ++ rest ∧ size = hexValue 0 digits := by
  obtain _ | ⟨ch, s⟩ := s
  · cases h
  · rw [chunkSize?] at h
    obtain ⟨d, hd, he⟩ := Option.map_eq_some_iff.1 h
    obtain ⟨digits, hu, hs, hv⟩ := takeHex_spec d s
    rw [he] at hs hv
    refine ⟨ch :: digits, unbroken_cons hd hu, congrArg (ch :: ·) hs, ?_⟩
    show size = hexValue (16 * 0 + (hexDigit? ch).getD 0) digits
    rw [hd, Option.getD_some, Nat.mul_zero, Nat.zero_add]
    exact hv

theorem dropCrlf?_eq_some {s rest : Str} (h : dropCrlf? s = some rest) : s = crlf ++ rest := by
  unfold dropCrlf? at h
  split at h
  · rw [← Option.some.inj h]
    rfl
  · cases h

/-! ## In the middle of a chunk -/

/-- The decoder has `size` bytes of its chunk to read. -/
def decodeRest (fuel size : Nat) (s : Str) : Option (Str × Str) :=
  if s.length < size then none
  else
    (dropCrlf? (s.drop size)).bind fun rest =>
      (decodeChunks fuel rest).map fun (content, rest) => (s.take size ++ content, rest)

theorem decodeChunks_succ (fuel : Nat) (s : Str) :
    decodeChunks (fuel + 1) s = (chunkSize? s).bind fun (size, s) =>
      (dropCrlf? s).bind fun s =>
        if size = 0 then (dropCrlf? s).map fun rest => ([], rest)
        else decodeRest fuel size s := rfl

theorem decodeRest_cons (fuel size : Nat) (ch : Char) (s : Str) :
    decodeRest fuel (size + 1) (ch :: s) =
      (decodeRest fuel size s).map fun (content, rest) => (ch :: content, rest) := by
  unfold decodeRest
  rw [List.length_cons, List.drop_succ_cons, List.take_succ_cons]
  by_cases hlt : s.length < size
  · rw [if_pos hlt, if_pos (Nat.succ_lt_succ hlt)]
    rfl
  · rw [if_neg hlt, if_neg fun h => hlt (Nat.lt_of_succ_lt_succ h)]
    rcases dropCrlf? (s.drop size) with _ | rest
    · rfl
    · rw [Option.bind_some, Option.bind_some, Option.map_map]
      rfl

/-- A byte of content is the byte in front. -/
theorem decodeRest_cons_eq {fuel size : Nat} {a ch : Char} {s content : Str}
    (h : decodeRest fuel (size + 1) (a :: s) = some (ch :: content, [])) :
    a = ch ∧ decodeRest fuel size s = some (content, []) := by
  rw [decodeRest_cons] at h
  obtain ⟨⟨content', rest⟩, hrest, he⟩ := Option.map_eq_some_iff.1 h
  obtain ⟨hcons, rfl⟩ := Prod.mk.inj he
  obtain ⟨rfl, rfl⟩ := List.cons.inj hcons
  exact ⟨rfl, hrest⟩

theorem size_le_of_decodeRest {fuel size : Nat} {s content rest : Str}
    (h : decodeRest fuel size s = some (content, rest)) : size ≤ content.length := by
  unfold decodeRest at h
  split at h
  · cases h
  · rename_i hle
    obtain ⟨tail, -, h⟩ := Option.bind_eq_some_iff.1 h
    obtain ⟨⟨body, left⟩, -, he⟩ := Option.map_eq_some_iff.1 h
    obtain ⟨rfl, rfl⟩ := Prod.mk.inj he
    rw [List.length_append, List.length_take]
    omega

/-- A size between two CRLF, as it stands between one chunk and the next. -/
def framing (digits : Str) : Str := crlf ++ (digits ++ crlf)

/-- At the end of a chunk the decoder takes what comes next for framing. -/
theorem decodeRest_zero {fuel : Nat} {s content : Str}
    (h : decodeRest fuel 0 s = some (content, [])) :
    ∃ digits tail, Unbroken digits ∧ s = framing digits ++ tail ∧
      (content = [] ∧ tail = crlf ∨
        hexValue 0 digits ≠ 0 ∧
          ∃ fuel', fuel = fuel' + 1 ∧
            decodeRest fuel' (hexValue 0 digits) tail = some (content, [])) := by
  unfold decodeRest at h
  rw [if_neg (Nat.not_lt_zero _), List.drop_zero] at h
  obtain ⟨s₁, hs, h⟩ := Option.bind_eq_some_iff.1 h
  obtain ⟨⟨content', rest⟩, hdec, he⟩ := Option.map_eq_some_iff.1 h
  obtain ⟨hcontent, rfl⟩ := Prod.mk.inj he
  rw [List.take_zero, List.nil_append] at hcontent
  subst hcontent
  obtain _ | fuel := fuel
  · cases hdec
  · rw [decodeChunks_succ] at hdec
    obtain ⟨⟨size, s₂⟩, hsize, hdec⟩ := Option.bind_eq_some_iff.1 hdec
    obtain ⟨tail, htail, hdec⟩ := Option.bind_eq_some_iff.1 hdec
    obtain ⟨digits, hu, rfl, rfl⟩ := chunkSize?_spec hsize
    refine ⟨digits, tail, hu, ?_, ?_⟩
    · rw [dropCrlf?_eq_some hs, dropCrlf?_eq_some htail]
      simp only [framing, List.append_assoc]
    · split at hdec
      · obtain ⟨rest, hrest, he⟩ := Option.map_eq_some_iff.1 hdec
        obtain ⟨rfl, rfl⟩ := Prod.mk.inj he
        exact .inl ⟨rfl, by rw [dropCrlf?_eq_some hrest, List.append_nil]⟩
      · rename_i hne
        exact .inr ⟨hne, fuel, rfl, hdec⟩

/-! ## The wheel between the sender and the decoder -/

/-- The wheel holds whole pieces of framing. -/
def Balanced (q : Str) : Prop := 2 ∣ q.count '\r' ∧ 2 ∣ q.count '\n'

theorem balanced_nil : Balanced [] := ⟨by decide, by decide⟩

/-- What a piece of framing adds. -/
theorem count_framing {digits : Str} (hu : Unbroken digits) :
    (framing digits).count '\r' = 2 ∧ (framing digits).count '\n' = 2 := by
  have hcr : crlf.count '\r' = 1 := by decide
  have hlf : crlf.count '\n' = 1 := by decide
  unfold framing
  rw [List.count_append, List.count_append, List.count_append, List.count_append,
    List.count_eq_zero.2 hu.1, List.count_eq_zero.2 hu.2, hcr, hlf]
  exact ⟨rfl, rfl⟩

theorem Balanced.turn {ch : Char} {q : Str} (h : Balanced (ch :: q)) : Balanced (q ++ [ch]) := by
  have hp := List.perm_append_singleton ch q
  exact ⟨by rw [hp.count_eq]; exact h.1, by rw [hp.count_eq]; exact h.2⟩

theorem Balanced.push {q : Str} (h : Balanced q) (n : Nat) : Balanced (q ++ framing (decimal n)) := by
  obtain ⟨hr, hn⟩ := count_framing (decimal_unbroken n)
  unfold Balanced
  rw [List.count_append, List.count_append, hr, hn]
  exact ⟨Nat.dvd_add h.1 (Nat.dvd_refl 2), Nat.dvd_add h.2 (Nat.dvd_refl 2)⟩

theorem Balanced.pop {digits q : Str} (hu : Unbroken digits) (h : Balanced (framing digits ++ q)) :
    Balanced q := by
  obtain ⟨hr, hn⟩ := count_framing hu
  unfold Balanced at h
  rw [List.count_append, List.count_append, hr, hn] at h
  exact ⟨(Nat.dvd_add_right (Nat.dvd_refl 2)).1 h.1, (Nat.dvd_add_right (Nat.dvd_refl 2)).1 h.2⟩

theorem mem_cr_of_append_eq {q t digits tail : Str} (h : q ++ t = framing digits ++ tail)
    (hq : q ≠ []) : '\r' ∈ q := by
  obtain _ | ⟨a, q⟩ := q
  · exact absurd rfl hq
  · obtain ⟨rfl, -⟩ := List.cons.inj h
    exact List.mem_cons_self

theorem mem_lf_of_append_eq {q u digits : Str} (h : q ++ u = framing digits) (hu : u ≠ []) :
    '\n' ∈ u := by
  obtain rfl | ⟨v, e, rfl⟩ := List.eq_nil_or_concat u
  · exact absurd rfl hu
  · have hends : (q ++ v) ++ [e] = (crlf ++ (digits ++ ['\r'])) ++ ['\n'] := by
      rw [List.concat_eq_append] at h
      rw [List.append_assoc, h, framing]
      simp only [crlf, List.append_assoc, List.cons_append, List.nil_append]
    obtain rfl := List.singleton_inj.1 (List.append_inj_right' hends rfl)
    rw [List.concat_eq_append]
    exact List.mem_append_right _ List.mem_cons_self

/-- What the decoder takes for framing is on the wheel as a whole. -/
theorem Balanced.framed {q t digits tail : Str} (h : Balanced q) (hq : q ≠ []) (hu : Unbroken digits)
    (he : q ++ t = framing digits ++ tail) :
    ∃ q', q = framing digits ++ q' ∧ tail = q' ++ t := by
  rcases List.append_eq_append_iff.1 he with ⟨u, hsplit, ht⟩ | ⟨q', hsplit, ht⟩
  · obtain rfl | hne := eq_or_ne u []
    · exact ⟨[], by rw [hsplit, List.append_nil, List.append_nil], ht.symm⟩
    · -- the wheel would end within the framing, and hold one CR or one LF
      exfalso
      obtain ⟨-, hlf⟩ := count_framing hu
      have hlast := List.count_pos_iff.2 (mem_lf_of_append_eq hsplit.symm hne)
      rw [hsplit, List.count_append] at hlf
      obtain ⟨hr, hn⟩ := h
      obtain _ | ⟨a, q⟩ := q
      · exact hq rfl
      · obtain ⟨rfl, hrest⟩ := List.cons.inj hsplit
        obtain _ | ⟨b, q⟩ := q
        · exact absurd hr (by decide)
        · obtain ⟨rfl, -⟩ := List.cons.inj hrest
          have hmem : '\n' ∈ '\r' :: '\n' :: q := List.mem_cons_of_mem _ List.mem_cons_self
          have hfirst := List.count_pos_iff.2 hmem
          omega
  · exact ⟨q', hsplit, ht⟩

/-- The decoder has `size` bytes to go and the sender `left`.  The last size that the sender
has written is on the wheel, or the decoder has read it in some number and will not be done
before the sender is. -/
def Behind (q : Str) (size left : Nat) : Prop :=
  left ≤ size ∧ (q = [] → left < size) ∨
    ∃ n, OnWheel (decimal n) q ∧ left ≤ n ∧
      (size = 0 → left = n → ∃ q', q' ≠ [] ∧ q = q' ++ framing (decimal n))

namespace Behind

variable {q : Str} {size left : Nat}

/-- A byte goes round. -/
theorem turn {ch : Char} (h : Behind (ch :: q) (size + 1) (left + 1)) :
    Behind (q ++ [ch]) size left := by
  rcases h with ⟨hle, -⟩ | ⟨n, hn, hle, -⟩
  · refine .inl ⟨Nat.le_of_succ_le_succ hle, fun hnil => ?_⟩
    exact absurd hnil (List.append_ne_nil_of_right_ne_nil _ (List.cons_ne_nil _ _))
  · exact .inr ⟨n, hn.turn, Nat.le_of_succ_le hle, fun _ heq => by omega⟩

/-- Sender and decoder read the same byte. -/
theorem read (h : Behind [] (size + 1) (left + 1)) : Behind [] size left := by
  rcases h with ⟨-, hlt⟩ | ⟨n, hn, -, -⟩
  · have hlt' := Nat.lt_of_succ_lt_succ (hlt rfl)
    exact .inl ⟨Nat.le_of_lt hlt', fun _ => hlt'⟩
  · exact absurd rfl (hn.ne_nil (decimal_ne_nil n))

theorem ne_nil (h : Behind q 0 left) : q ≠ [] := by
  rcases h with ⟨-, hlt⟩ | ⟨n, hn, -, -⟩
  · exact fun hnil => Nat.not_lt_zero _ (hlt hnil)
  · exact hn.ne_nil (decimal_ne_nil n)

/-- The sender goes on to the next string. -/
theorem push (h : Behind q size 0) (n : Nat) : Behind (q ++ framing (decimal n)) size n := by
  refine .inr ⟨n, .of_isInfix ?_, Nat.le_refl n, fun hzero _ => ⟨q, ?_, rfl⟩⟩
  · refine List.infix_append_of_infix_right ?_
    exact List.infix_append_of_infix_right (List.prefix_append _ _).isInfix
  · subst hzero
    exact h.ne_nil

/-- A wheel with two pieces of framing is not one piece. -/
theorem append_framing_ne {q' digits digits' : Str} (hu : Unbroken digits)
    (hu' : Unbroken digits') (hq : q' ≠ []) : framing digits ≠ q' ++ framing digits' := by
  intro he
  have hr := congrArg (List.count '\r') he
  have hcr := mem_cr_of_append_eq (he.symm.trans (List.append_nil _).symm) hq
  have hpos := List.count_pos_iff.2 hcr
  rw [List.count_append, (count_framing hu).1, (count_framing hu').1] at hr
  omega

/-- The decoder takes a size off the wheel: the last one that was written, which is large
enough, or another one. -/
theorem pop {digits : Str} (h : Behind (framing digits ++ q) 0 (left + 1))
    (hu : Unbroken digits) (hne : hexValue 0 digits ≠ 0) :
    Behind q (hexValue 0 digits) (left + 1) := by
  rcases h with ⟨hle, -⟩ | ⟨n, hn, hle, hlast⟩
  · exact absurd hle (Nat.not_succ_le_zero _)
  · have hd := decimal_ne_nil n
    obtain ⟨hr, hlf⟩ := decimal_unbroken n
    have hin : decimal n <:+: '\n' :: (digits ++ '\r' :: '\n' :: q) := by
      refine OnWheel.infix_of_cons (c := '\r') ?_ hr hd
      simpa only [framing, crlf, List.append_assoc, List.cons_append, List.nil_append] using hn
    rcases infix_of_infix_append_cons (infix_of_infix_cons hin hlf hd) hr hd with hin | hin
    · -- the number that the decoder reads has the digits of the last size in it
      have hvalue : n ≤ hexValue 0 digits := by
        refine Nat.le_trans (le_sizeRead n) ?_
        rw [← hexValue_decimal]
        exact hexValue_le hin
      refine .inl ⟨Nat.le_trans hle hvalue, fun hnil => ?_⟩
      refine Nat.lt_of_le_of_ne (Nat.le_trans hle hvalue) fun heq => ?_
      obtain ⟨q', hq', he⟩ := hlast rfl (Nat.le_antisymm hle (heq ▸ hvalue))
      rw [hnil, List.append_nil] at he
      exact append_framing_ne hu (decimal_unbroken n) hq' he
    · have hlater := infix_of_infix_cons hin hlf hd
      exact .inr ⟨n, .of_isInfix hlater, hle, fun hzero => absurd hzero hne⟩

end Behind

/-- All strings are sent, and the wheel is not empty. -/
theorem decodeRest_end {fuel size : Nat} {q : Str} (h : Behind q size 0) :
    decodeRest fuel size (q ++ (crlf ++ sendChunks [])) ≠ some ([], []) := by
  intro hdec
  obtain rfl : size = 0 := Nat.le_zero.1 (size_le_of_decodeRest hdec)
  obtain ⟨digits, tail, hu, he, hcase⟩ := decodeRest_zero hdec
  rcases hcase with ⟨-, rfl⟩ | ⟨hne, _, -, hrest⟩
  · have hr := congrArg (List.count '\r') he
    have hend : (crlf ++ sendChunks []).count '\r' = 3 := by decide
    have hcr : crlf.count '\r' = 1 := by decide
    have hpos := List.count_pos_iff.2 (mem_cr_of_append_eq he h.ne_nil)
    rw [List.count_append, hend, List.count_append, (count_framing hu).1, hcr] at hr
    omega
  · exact hne (Nat.le_zero.1 (size_le_of_decodeRest hrest))

/-- One byte of content, or one piece of framing for the decoder. -/
theorem decodeRest_step {fuel size : Nat} {q str t more : Str} {ch : Char} (hq : Balanced q)
    (h : Behind q size (ch :: str).length)
    (hpop : ∀ fuel' size' q', fuel' < fuel → Balanced q' → Behind q' size' (ch :: str).length →
      decodeRest fuel' size' (q' ++ (ch :: str ++ t)) ≠ some (ch :: str ++ more, []))
    (hturn : ∀ size' q', Balanced q' → Behind q' size' str.length →
      decodeRest fuel size' (q' ++ (str ++ t)) ≠ some (str ++ more, [])) :
    decodeRest fuel size (q ++ (ch :: str ++ t)) ≠ some (ch :: str ++ more, []) := by
  intro hdec
  cases size with
  | zero =>
    obtain ⟨digits, tail, hu, he, hcase⟩ := decodeRest_zero hdec
    obtain ⟨q', rfl, rfl⟩ := hq.framed h.ne_nil hu he
    rcases hcase with ⟨hnil, -⟩ | ⟨hne, fuel', rfl, hrest⟩
    · cases hnil
    · exact hpop fuel' _ q' (Nat.lt_succ_self fuel') (hq.pop hu) (h.pop hu hne) hrest
  | succ size =>
    obtain _ | ⟨a, q⟩ := q
    · exact hturn size [] hq h.read (decodeRest_cons_eq hdec).2
    · obtain ⟨rfl, hrest⟩ := decodeRest_cons_eq hdec
      refine hturn size (q ++ [a]) hq.turn h.turn ?_
      rw [List.append_assoc]
      exact hrest

/-- A decoder that is behind the sender does not come to the end of the body with it. -/
theorem decodeRest_ne {fuel size : Nat} {q str : Str} {strs : List Str} (hq : Balanced q)
    (h : Behind q size str.length) :
    decodeRest fuel size (q ++ (str ++ (crlf ++ sendChunks strs))) ≠
      some (str ++ strs.flatten, []) := by
  induction fuel using Nat.strong_induction_on generalizing size q str strs with
  | _ fuel ihf =>
    induction strs generalizing size q str with
    | nil =>
      induction str generalizing size q with
      | nil => exact decodeRest_end h
      | cons ch str ihstr =>
        exact decodeRest_step hq h (fun fuel' _ _ hlt hq' h' => ihf fuel' hlt hq' h')
          fun _ _ hq' h' => ihstr hq' h'
    | cons next strs ihs =>
      induction str generalizing size q with
      | nil =>
        have hpush := ihs (hq.push next.length) (h.push next.length)
        rw [sendChunks_cons]
        simpa only [framing, List.append_assoc, List.nil_append, List.flatten_cons] using hpush
      | cons ch str ihstr =>
        exact decodeRest_step hq h (fun fuel' _ _ hlt hq' h' => ihf fuel' hlt hq' h')
          fun _ _ hq' h' => ihstr hq' h'

/-! ## The round trip -/

/-- A chunk of ten bytes or more is read past its end. -/
theorem decodeChunks_long {fuel : Nat} {str : Str} (hlen : 10 ≤ str.length) (strs : List Str) :
    decodeChunks fuel (sendChunks (str :: strs)) ≠ some (str ++ strs.flatten, []) := by
  have hlt := lt_sizeRead hlen
  have hbehind : Behind [] (sizeRead str.length) str.length :=
    .inl ⟨Nat.le_of_lt hlt, fun _ => hlt⟩
  obtain _ | fuel := fuel
  · nofun
  · rw [sendChunks_cons, decodeChunks_size, if_neg (Nat.ne_of_gt (Nat.zero_lt_of_lt hlt)),
      List.append_assoc]
    exact decodeRest_ne balanced_nil hbehind

theorem short_of_decodeChunks {strs : List Str} {fuel : Nat}
    (h : decodeChunks fuel (sendChunks strs) = some (strs.flatten, [])) :
    ∀ str ∈ strs, 1 ≤ str.length ∧ str.length ≤ 9 := by
  induction strs generalizing fuel with
  | nil => exact fun str hstr => absurd hstr List.not_mem_nil
  | cons str strs ih =>
    obtain _ | fuel := fuel
    · cases h
    by_cases hzero : str = []
    · subst hzero
      rw [decodeChunks_empty] at h
      exact absurd (congrArg Prod.snd (Option.some.inj h)) (sendChunks_ne_nil strs)
    have hpos : 1 ≤ str.length := List.length_pos_iff.2 hzero
    by_cases hlong : 10 ≤ str.length
    · exact absurd h (decodeChunks_long hlong strs)
    · have hlt := Nat.not_le.1 hlong
      rw [decodeChunks_short fuel hpos hlt] at h
      obtain ⟨⟨content, rest⟩, hdec, hrest⟩ := Option.map_eq_some_iff.1 h
      obtain ⟨hcontent, rfl⟩ := Prod.mk.inj hrest
      rw [List.flatten_cons] at hcontent
      rw [List.append_cancel_left hcontent] at hdec
      intro t ht
      rcases List.mem_cons.1 ht with rfl | ht
      · exact ⟨hpos, Nat.le_of_lt_succ hlt⟩
      · exact ih hdec t ht

/-- The chunks come back as they were sent if and only if each has one to nine bytes. -/
theorem chunked_round_trip (strs : List Str) :
    decodeChunked (sendChunks strs) = some (strs.flatten, []) ↔
      ∀ str ∈ strs, 1 ≤ str.length ∧ str.length ≤ 9 :=
  ⟨short_of_decodeChunks, fun h => decodeChunks_sendChunks h (length_lt_sendChunks strs)⟩

/-- Ten bytes are announced as sixteen; an empty chunk ends the body before the next. -/
theorem ten_bytes_misframed :
    ¬ ∀ strs : List Str, decodeChunked (sendChunks strs) = some (strs.flatten, []) := by
  intro h
  exact absurd (h [List.replicate 10 'a']) (by decide)

end Http
end Psets
