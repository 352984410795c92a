import Mathlib.Data.Nat.Digits.Lemmas
import BuddyNet.Go.JsonQuote

/-!
# What `encoding/json` writes is read back

`Reads w v n`: the reader takes the text `w` for the value `v`, whatever comes after it in an array
or an object, with `n` more levels of nesting. There is one lemma for each kind of written value:

* strings of well-formed UTF-8 (`reads_quote`), integers (`reads_formatInt`) and keywords;
* arrays and objects of written values (`reads_array`, `reads_object`);
* structs, some of whose fields `omitempty` may leave out (`Fields.reads`); a struct with
  the same names gets every field back from its own member (`valuesOf_mem`).
-/

namespace BuddyNet.Go.Json

open List

/-! ### Strings -/

variable {c : UInt8} {t : Bytes} {r : ℕ}

theorem stringBody_plain (hq : c ≠ 34) (hlow : ¬ c.toNat < 0x20) (hb : c ≠ 92) {w : ℕ}
    (hdec : decodeRune (c :: t) = (r, w)) (fuel : ℕ) :
    stringBody (fuel + 1) (c :: t) =
      (stringBody fuel ((c :: t).drop w)).map fun p => (encodeRune r ++ p.1, p.2) := by
  rw [stringBody, if_neg hq, if_neg hlow, if_neg hb, hdec]
  cases hrest : stringBody fuel ((c :: t).drop w) <;> simp [hrest]

theorem stringBody_escape {b u : Bytes} (h : readRune (92 :: t) = some (b, u)) (fuel : ℕ) :
    stringBody (fuel + 1) (92 :: t) = (stringBody fuel u).map fun p => (b ++ p.1, p.2) := by
  have hesc : escape t = some (b, u) := h
  rw [stringBody, if_neg (by decide), if_neg (by decide), if_pos rfl, hesc]
  cases hrest : stringBody fuel u <;> simp [hrest]

theorem quoteByte_cases (c : UInt8) :
    (quoteByte c = [c] ∧ c ≠ 34 ∧ c ≠ 92 ∧ ¬ c.toNat < 0x20) ∨ ∃ l, quoteByte c = 92 :: l := by
  unfold quoteByte
  split_ifs with h1 h2 h3 h4 h5 h6 h7
  case neg =>
    rw [not_or] at h1 h7
    exact Or.inl ⟨rfl, h1.2, h1.1, h7.1⟩
  all_goals exact Or.inr ⟨_, rfl⟩

theorem stringBody_quoteRune (hr : Scalar r) (fuel : ℕ) (t : Bytes) :
    stringBody (fuel + 1) (quoteRune (encodeRune r) ++ t) =
      (stringBody fuel t).map fun p => (encodeRune r ++ p.1, p.2) := by
  have hread := readRune_quoteRune hr t
  rcases lt_or_ge r 0x80 with h | h
  · rw [quoteRune_of_lt h] at hread ⊢
    rcases quoteByte_cases r.toUInt8 with ⟨hself, hq, hb, hlow⟩ | ⟨l, hesc⟩
    · have hnat : r.toUInt8.toNat = r := toNat_toUInt8 (by omega)
      have hdec : decodeRune (r.toUInt8 :: t) = (r, 1) := by
        simp [decodeRune, hnat, h]
      rw [hself]
      exact stringBody_plain hq hlow hb hdec fuel
    · rw [hesc] at hread ⊢
      exact stringBody_escape hread fuel
  · rw [quoteRune_of_ge hr h] at hread ⊢
    split_ifs at hread ⊢
    · exact stringBody_escape hread fuel
    · exact stringBody_escape hread fuel
    · obtain ⟨a, b, l, heq, ha⟩ := encodeRune_of_ge hr h
      have hdec := decodeRune_encodeRune hr t
      have hdrop : (encodeRune r ++ t).drop (encodeRune r).length = t := drop_left
      rw [heq, cons_append] at hdec hdrop
      have hascii : ∀ c : UInt8, c.toNat < 0x80 → a ≠ c := fun c hc hac => ha (hac ▸ hc)
      have hlow : ¬ a.toNat < 0x20 := fun hlt => ha (show a.toNat < 0x80 by omega)
      have hplain := stringBody_plain (hascii 34 (by decide)) hlow (hascii 92 (by decide)) hdec fuel
      rw [heq, cons_append, hplain, ← heq]
      rw [heq, hdrop]

theorem quoteRune_length_pos (hr : Scalar r) : 0 < (quoteRune (encodeRune r)).length := by
  rcases lt_or_ge r 0x80 with h | h
  · obtain ⟨d, l, heq, -⟩ := quoteByte_head r.toUInt8
    rw [quoteRune_of_lt h, heq]
    exact Nat.succ_pos _
  · obtain ⟨a, b, l, heq, -⟩ := encodeRune_of_ge hr h
    rw [quoteRune_of_ge hr h]
    split_ifs
    · decide
    · decide
    · rw [heq]
      exact Nat.succ_pos _

theorem quoteBody_ascii_cons (hc : IsASCII c) (s : Bytes) :
    quoteBody (c :: s) = quoteByte c ++ quoteBody s := by
  have hlt : c.toNat < 0x80 := hc
  have hr : Scalar c.toNat := ⟨by omega, by omega⟩
  have hbody := quoteBody_encodeRune hr s
  rwa [quoteRune_of_lt hlt, encodeRune_ascii hc, toUInt8_eq rfl, singleton_append] at hbody

variable {s : Bytes} {fuel : ℕ}

theorem stringBody_quoteBody (hs : Utf8 s) (hfuel : (quoteBody s).length < fuel) :
    stringBody fuel (quoteBody s ++ 34 :: t) = some (s, t) := by
  induction hs generalizing fuel with
  | nil =>
    obtain ⟨fuel, rfl⟩ := Nat.exists_eq_succ_of_ne_zero (Nat.ne_of_gt (Nat.zero_lt_of_lt hfuel))
    rfl
  | @rune r s hr _ ih =>
    obtain ⟨fuel, rfl⟩ := Nat.exists_eq_succ_of_ne_zero (Nat.ne_of_gt (Nat.zero_lt_of_lt hfuel))
    have hpos := quoteRune_length_pos hr
    rw [quoteBody_encodeRune hr, length_append] at hfuel
    rw [quoteBody_encodeRune hr, append_assoc, stringBody_quoteRune hr, ih (by omega)]
    rfl

/-! ### Values -/

/-- What may come after a value: nothing, the next one, or the end of the array or object. -/
def Stop (rest : Bytes) : Prop := ∀ c ∈ rest.head?, c = 44 ∨ c = 93 ∨ c = 125

theorem stop_nil : Stop [] := nofun

theorem stop_cons (h : c = 44 ∨ c = 93 ∨ c = 125) (t : Bytes) : Stop (c :: t) := by
  intro d hd
  obtain rfl : c = d := Option.some.inj hd
  exact h

/-- The reader takes the text for the value, whatever comes after it; the text starts neither with
white space nor with a closing bracket. -/
structure Reads (w : Bytes) (v : Json) (nest : ℕ) : Prop where
  head : ∃ c t, w = c :: t ∧ isWs c = false ∧ c ≠ 93
  read : ∀ fuel depth rest, 2 * w.length ≤ fuel → depth + nest ≤ maxNestingDepth → Stop rest →
    value fuel depth (w ++ rest) = some (v, rest)

variable {v : Json} {n : ℕ}

theorem Reads.mono {w : Bytes} {n' : ℕ} (h : Reads w v n) (hn : n ≤ n') : Reads w v n' :=
  ⟨h.head, fun fuel depth rest hfuel hdepth => h.read fuel depth rest hfuel (by omega)⟩

/-- **A text that is read as a value is parsed to it.** -/
theorem Reads.parse {w : Bytes} (h : Reads w v n) (hn : n ≤ maxNestingDepth) :
    parse w = some v := by
  have hread := h.read (2 * w.length + 2) 0 [] (by omega) (by omega) stop_nil
  rw [append_nil] at hread
  simp [Json.parse, hread, skipWs]

theorem skipWs_cons (h : isWs c = false) (t : Bytes) : skipWs (c :: t) = c :: t :=
  dropWhile_cons_of_neg (by simp [h])

theorem quote_eq (s : Bytes) : quote s = 34 :: (quoteBody s ++ [34]) := by
  simp [quote, quoteBody, runesOf]

theorem stringBody_quote (hs : Utf8 s) (t : Bytes) :
    stringBody ((quoteBody s ++ 34 :: t).length + 1) (quoteBody s ++ 34 :: t) = some (s, t) :=
  stringBody_quoteBody hs (by simp)

theorem reads_quote (hs : Utf8 s) : Reads (quote s) (str s) 0 where
  head := ⟨34, _, quote_eq s, by decide, by decide⟩
  read := by
    intro fuel depth rest hfuel _ _
    obtain ⟨fuel, rfl⟩ : ∃ k, fuel = k + 1 := ⟨fuel - 1, by
      rw [quote_eq, length_cons] at hfuel
      omega⟩
    rw [quote_eq, cons_append, append_assoc, value, skipWs_cons (by decide)]
    exact congrArg (Option.map _) (stringBody_quote hs rest)

theorem reads_true : Reads (lit "true") (bool true) 0 where
  head := ⟨116, _, rfl, by decide, by decide⟩
  read := by
    intro fuel depth rest hfuel _ _
    have hlen : (lit "true").length = 4 := rfl
    obtain ⟨fuel, rfl⟩ : ∃ k, fuel = k + 1 := ⟨fuel - 1, by omega⟩
    rfl

/-! ### Integers -/

theorem isDigit_of_mem_itoa (h : c ∈ itoa n) : isDigit c = true := by
  have hc := mem_itoa h
  simp [isDigit, hc]

theorem itoa_cases (n : ℕ) :
    itoa n = [48] ∨ ∃ c t, itoa n = c :: t ∧ c ≠ 48 ∧ isDigit c = true := by
  by_cases hn : n = 0
  · exact Or.inl (by rw [itoa, if_pos hn])
  refine Or.inr ?_
  cases hw : itoa n with
  | nil => exact absurd hw (itoa_ne_nil n)
  | cons c t =>
    have hdigit := isDigit_of_mem_itoa (hw ▸ mem_cons_self : c ∈ itoa n)
    refine ⟨c, t, rfl, ?_, hdigit⟩
    -- the first digit written is the last one of the expansion
    have hne : Nat.digits 10 n ≠ [] := Nat.digits_ne_nil_iff_ne_zero.2 hn
    have hlast : c = (48 + (Nat.digits 10 n).getLast hne).toUInt8 := by
      have hrev : (Nat.digits 10 n).map (fun d => (48 + d).toUInt8) = t.reverse ++ [c] := by
        rw [← reverse_cons, ← hw, itoa, if_neg hn, reverse_reverse]
      have hmap := congrArg getLast? hrev
      rw [getLast?_concat, getLast?_map, getLast?_eq_some_getLast hne] at hmap
      exact (Option.some.inj hmap).symm
    have hpos := Nat.getLast_digit_ne_zero 10 hn
    have hlt : (Nat.digits 10 n).getLast hne < 10 :=
      Nat.digits_lt_base (by decide) (getLast_mem hne)
    intro h48
    have hval := congrArg UInt8.toNat (hlast.symm.trans h48)
    rw [toNat_toUInt8 (by omega)] at hval
    have h48 : (48 : UInt8).toNat = 48 := rfl
    omega

variable {rest : Bytes}

section

variable (hstop : Stop rest)
include hstop

theorem span_itoa : (itoa n ++ rest).span isDigit = (itoa n, rest) := by
  have hall : ∀ c ∈ itoa n, isDigit c = true := fun c hc => isDigit_of_mem_itoa hc
  have hnone : rest.takeWhile isDigit = [] ∧ rest.dropWhile isDigit = rest := by
    cases rest with
    | nil => exact ⟨rfl, rfl⟩
    | cons c t =>
      have hc : isDigit c = false := by
        rcases hstop c rfl with rfl | rfl | rfl <;> decide
      simp [hc]
  rw [span_eq_takeWhile_dropWhile, takeWhile_append_of_pos hall,
    dropWhile_append_of_pos hall, hnone.1, hnone.2, append_nil]

theorem intPart_itoa : intPart (itoa n ++ rest) = some (itoa n, rest) := by
  have hspan := span_itoa (n := n) hstop
  rcases itoa_cases n with h | ⟨c, t, h, hc, -⟩
  · rw [h]
    rfl
  · rw [h] at hspan ⊢
    rw [cons_append] at hspan ⊢
    rw [intPart, if_neg hc, digits1, hspan]

theorem fracPart_stop : fracPart rest = some ([], rest) := by
  cases rest with
  | nil => rfl
  | cons c t => rcases hstop c rfl with rfl | rfl | rfl <;> rfl

theorem expPart_stop : expPart rest = some ([], rest) := by
  cases rest with
  | nil => rfl
  | cons c t => rcases hstop c rfl with rfl | rfl | rfl <;> rfl

end

theorem number_formatInt (n : ℤ) (hstop : Stop rest) :
    number (formatInt n ++ rest) = some (formatInt n, rest) := by
  have hint := intPart_itoa (n := n.natAbs) hstop
  rw [formatInt]
  split_ifs with hneg
  · simp [number, hint, fracPart_stop hstop, expPart_stop hstop]
  · have hhead : (itoa n.natAbs ++ rest).head? ≠ some 45 := by
      rcases itoa_cases n.natAbs with h | ⟨c, t, h, -, hc⟩
      · simp [h]
      · rw [h]
        rintro heq
        obtain rfl : c = 45 := Option.some.inj heq
        exact absurd hc (by decide)
    simp only [number, if_neg hhead]
    simp [hint, fracPart_stop hstop, expPart_stop hstop]

theorem formatInt_head (n : ℤ) : ∃ c t, formatInt n = c :: t ∧ (c = 45 ∨ isDigit c = true) := by
  rw [formatInt]
  split_ifs
  · exact ⟨45, _, rfl, Or.inl rfl⟩
  · rcases itoa_cases n.natAbs with h | ⟨c, t, h, -, hc⟩
    · exact ⟨48, [], h, Or.inr (by decide)⟩
    · exact ⟨c, t, h, Or.inr hc⟩

theorem reads_formatInt (n : ℤ) : Reads (formatInt n) (num (formatInt n)) 0 := by
  obtain ⟨c, t, hw, hc⟩ := formatInt_head n
  have hother : ∀ d : UInt8, d ≠ 45 → isDigit d = false → c ≠ d := by
    rintro d h45 hd rfl
    rcases hc with rfl | hdigit
    · exact h45 rfl
    · rw [hdigit] at hd
      exact Bool.noConfusion hd
  have hspace : isWs c = false := by
    simp [isWs, isDigit, hother 32, hother 9, hother 13, hother 10]
  refine ⟨⟨c, t, hw, hspace, hother 93 (by decide) (by decide)⟩, ?_⟩
  intro fuel depth rest hfuel _ hstop
  have hnumber := number_formatInt n hstop
  rw [hw, length_cons] at hfuel
  obtain ⟨fuel, rfl⟩ : ∃ k, fuel = k + 1 := ⟨fuel - 1, by omega⟩
  rw [hw, cons_append] at hnumber ⊢
  rw [value, skipWs_cons hspace]
  simp [hother 34, hother 123, hother 91, hother 116, hother 102, hother 110, isDigit, hnumber]

theorem formatInt_length {n : ℤ} (hlo : -2 ^ 63 ≤ n) (hhi : n < 2 ^ 63) :
    (formatInt n).length ≤ 20 := by
  have habs : n.natAbs < 10 ^ 19 := by omega
  have hlen : (itoa n.natAbs).length ≤ 19 := by
    rw [itoa]
    split_ifs
    · decide
    · rw [length_reverse, length_map]
      exact (Nat.digits_length_le_iff (by decide) _).2 habs
  rw [formatInt]
  split_ifs
  · rw [length_cons]
    omega
  · omega

theorem foldl_itoa (n : ℕ) :
    (itoa n).foldl (fun (a : ℤ) c => a * 10 + ((c.toNat : ℤ) - 48)) 0 = n := by
  refine Go.foldl_itoa (fun d hd => ?_) n
  rw [toNat_toUInt8 (by omega)]
  push_cast
  ring

/-- **An `int64` is read back from its decimal text.** -/
theorem parseInt64_formatInt {n : ℤ} (hlo : -2 ^ 63 ≤ n) (hhi : n < 2 ^ 63) :
    parseInt64 (formatInt n) = some n := by
  have hall : (itoa n.natAbs).all isDigit = true :=
    all_eq_true.2 fun c hc => isDigit_of_mem_itoa hc
  have hne := itoa_ne_nil n.natAbs
  have hfold := foldl_itoa n.natAbs
  have hrange : -2 ^ 63 ≤ n ∧ n < 2 ^ 63 := ⟨hlo, hhi⟩
  rw [formatInt]
  split_ifs with hneg
  · have habs : -(n.natAbs : ℤ) = n := by omega
    simp only [parseInt64, head?_cons, if_true, tail_cons, hall, hne, hfold, habs,
      if_pos hrange, Bool.not_true, Bool.false_eq_true, or_self, if_false]
  · have hhead : (itoa n.natAbs).head? ≠ some 45 := by
      intro h45
      exact absurd (isDigit_of_mem_itoa (mem_of_head? h45)) (by decide)
    have habs : (n.natAbs : ℤ) = n := by omega
    simp only [parseInt64, hhead, if_false, hall, hne, hfold, habs, if_pos hrange,
      Bool.not_true, Bool.false_eq_true, or_self]

/-! ### Arrays and objects -/

/-- The elements of an array and its closing bracket. -/
def elementsText (ws : List Bytes) : Bytes := (ws.intersperse [44]).flatten ++ [93]

theorem elementsText_single (w : Bytes) : elementsText [w] = w ++ [93] := by
  simp [elementsText]

theorem elementsText_cons (w w' : Bytes) (ws : List Bytes) :
    elementsText (w :: w' :: ws) = w ++ 44 :: elementsText (w' :: ws) := by
  simp [elementsText]

theorem elementsText_append (w : Bytes) (ws : List Bytes) :
    ∃ u, elementsText (w :: ws) = w ++ u := by
  cases ws with
  | nil => exact ⟨_, elementsText_single w⟩
  | cons w' ws => exact ⟨_, elementsText_cons w w' ws⟩

theorem elements_read {ws : List Bytes} {vs : List Json}
    (h : Forall₂ (fun w v => Reads w v n) ws vs) (hne : ws ≠ []) (fuel depth : ℕ)
    (hfuel : 2 * (elementsText ws).length ≤ fuel) (hdepth : depth + n ≤ maxNestingDepth)
    (rest : Bytes) : elements fuel depth (elementsText ws ++ rest) = some (vs, rest) := by
  induction h generalizing fuel with
  | nil => exact absurd rfl hne
  | @cons w v ws vs hw hws ih =>
    cases ws with
    | nil =>
      cases hws
      rw [elementsText_single] at hfuel ⊢
      rw [length_append, length_singleton] at hfuel
      obtain ⟨fuel, rfl⟩ : ∃ k, fuel = k + 1 := ⟨fuel - 1, by omega⟩
      have hread := hw.read fuel depth ([93] ++ rest) (by omega) hdepth (stop_cons (by simp) rest)
      rw [append_assoc, elements, hread]
      rfl
    | cons w' ws =>
      rw [elementsText_cons] at hfuel ⊢
      rw [length_append, length_cons] at hfuel
      obtain ⟨fuel, rfl⟩ : ∃ k, fuel = k + 1 := ⟨fuel - 1, by omega⟩
      have hread := hw.read fuel depth (44 :: (elementsText (w' :: ws) ++ rest)) (by omega) hdepth
        (stop_cons (by simp) _)
      have hrest := ih (cons_ne_nil _ _) fuel (by omega)
      rw [append_assoc, cons_append, elements, hread]
      simp only [Option.bind_eq_bind, Option.bind_some, hrest,
        skipWs_cons (show isWs 44 = false by decide)]
      rfl

theorem array_eq (ws : List Bytes) : array ws = 91 :: elementsText ws := by
  simp [array, elementsText]

theorem reads_array {ws : List Bytes} {vs : List Json}
    (h : Forall₂ (fun w v => Reads w v n) ws vs) : Reads (array ws) (arr vs) (n + 1) where
  head := ⟨91, _, array_eq ws, by decide, by decide⟩
  read := by
    intro fuel depth rest hfuel hdepth _
    rw [array_eq, length_cons] at hfuel
    obtain ⟨fuel, rfl⟩ : ∃ k, fuel = k + 1 := ⟨fuel - 1, by omega⟩
    rw [array_eq, cons_append, value, skipWs_cons (by decide)]
    dsimp only
    rw [if_neg (by decide), if_neg (by decide), if_pos rfl, if_neg (by omega)]
    cases h with
    | nil => rfl
    | @cons w v ws vs hw hws =>
      have hread := elements_read (Forall₂.cons hw hws) (cons_ne_nil _ _) fuel (depth + 1)
        (by omega) (by omega) rest
      obtain ⟨c, t, rfl, hspace, hne⟩ := hw.head
      obtain ⟨u, hu⟩ := elementsText_append (c :: t) ws
      have hskip : skipWs (elementsText ((c :: t) :: ws) ++ rest) = c :: (t ++ u ++ rest) := by
        rw [hu]
        exact skipWs_cons hspace _
      rw [hskip, hread]
      split
      · next heq => exact absurd (cons.inj heq).1 hne
      · rfl

/-- A member of an object, as it is written and as it is read. -/
def ReadsMember (n : ℕ) (m : Bytes × Bytes) (v : Bytes × Json) : Prop :=
  m.1 = v.1 ∧ Utf8 m.1 ∧ Reads m.2 v.2 n

/-- The members of an object and its closing brace. -/
def membersText (ms : List (Bytes × Bytes)) : Bytes :=
  ((ms.map fun m => quote m.1 ++ [58] ++ m.2).intersperse [44]).flatten ++ [125]

theorem membersText_single (m : Bytes × Bytes) :
    membersText [m] = quote m.1 ++ 58 :: (m.2 ++ [125]) := by
  simp [membersText]

theorem membersText_cons (m m' : Bytes × Bytes) (ms : List (Bytes × Bytes)) :
    membersText (m :: m' :: ms) = quote m.1 ++ 58 :: (m.2 ++ 44 :: membersText (m' :: ms)) := by
  simp [membersText]

theorem membersText_append (m : Bytes × Bytes) (ms : List (Bytes × Bytes)) :
    ∃ u, membersText (m :: ms) = 34 :: u := by
  cases ms with
  | nil => exact ⟨_, by rw [membersText_single, quote_eq, cons_append]⟩
  | cons m' ms => exact ⟨_, by rw [membersText_cons, quote_eq, cons_append]⟩

/-- One unfolding of the reader of members, at a member that another one follows. -/
theorem members_comma {k : Bytes} (hk : Utf8 k) {depth : ℕ}
    (hv : value fuel depth t = some (v, 44 :: rest)) :
    members (fuel + 1) depth (quote k ++ 58 :: t) =
      (members fuel depth rest).map fun p => ((k, v) :: p.1, p.2) := by
  have hbody := stringBody_quote hk (58 :: t)
  rw [quote_eq, cons_append, append_assoc, singleton_append, members, skipWs_cons (by decide)]
  simp only [hbody, Option.bind_eq_bind, Option.bind_some, hv,
    skipWs_cons (show isWs 58 = false by decide), skipWs_cons (show isWs 44 = false by decide)]
  cases members fuel depth rest <;> rfl

theorem members_brace {k : Bytes} (hk : Utf8 k) {depth : ℕ}
    (hv : value fuel depth t = some (v, 125 :: rest)) :
    members (fuel + 1) depth (quote k ++ 58 :: t) = some ([(k, v)], rest) := by
  have hbody := stringBody_quote hk (58 :: t)
  rw [quote_eq, cons_append, append_assoc, singleton_append, members, skipWs_cons (by decide)]
  simp only [hbody, Option.bind_eq_bind, Option.bind_some, hv,
    skipWs_cons (show isWs 58 = false by decide), skipWs_cons (show isWs 125 = false by decide)]
  rfl

variable {ms : List (Bytes × Bytes)}

theorem members_read {vs : List (Bytes × Json)}
    (h : Forall₂ (ReadsMember n) ms vs) (hne : ms ≠ []) (fuel depth : ℕ)
    (hfuel : 2 * (membersText ms).length ≤ fuel) (hdepth : depth + n ≤ maxNestingDepth)
    (rest : Bytes) : members fuel depth (membersText ms ++ rest) = some (vs, rest) := by
  induction h generalizing fuel with
  | nil => exact absurd rfl hne
  | @cons m v ms vs hm hms ih =>
    obtain ⟨hkey, hutf, hread⟩ := hm
    cases ms with
    | nil =>
      cases hms
      rw [membersText_single] at hfuel ⊢
      simp only [length_append, length_cons] at hfuel
      obtain ⟨fuel, rfl⟩ : ∃ k, fuel = k + 1 := ⟨fuel - 1, by omega⟩
      have hval := hread.read fuel depth ([125] ++ rest) (by omega) hdepth
        (stop_cons (by simp) rest)
      rw [append_assoc, cons_append, append_assoc, members_brace hutf hval, hkey]
      rfl
    | cons m' ms =>
      rw [membersText_cons] at hfuel ⊢
      simp only [length_append, length_cons] at hfuel
      obtain ⟨fuel, rfl⟩ : ∃ k, fuel = k + 1 := ⟨fuel - 1, by omega⟩
      have hval := hread.read fuel depth (44 :: (membersText (m' :: ms) ++ rest)) (by omega) hdepth
        (stop_cons (by simp) _)
      have hrest := ih (cons_ne_nil _ _) fuel (by omega)
      rw [append_assoc, cons_append, append_assoc, cons_append, members_comma hutf hval, hkey]
      exact congrArg (Option.map fun p => (v :: p.1, p.2)) hrest

theorem object_eq (ms : List (Bytes × Bytes)) : object ms = 123 :: membersText ms := by
  simp [object, membersText]

/-- The members after the first, each with the comma in front of it. -/
def moreText (ms : List (Bytes × Bytes)) : Bytes :=
  ms.flatMap fun m => 44 :: (quote m.1 ++ 58 :: m.2)

theorem object_cons (m : Bytes × Bytes) (ms : List (Bytes × Bytes)) :
    object (m :: ms) = 123 :: (quote m.1 ++ 58 :: m.2 ++ moreText ms ++ [125]) := by
  rw [object_eq]
  induction ms generalizing m with
  | nil => simp [membersText_single, moreText]
  | cons m' ms ih =>
    have htail := (cons.inj (ih m')).2
    rw [membersText_cons, htail]
    simp [moreText]

/-- **A written object is read back.** -/
theorem reads_object {vs : List (Bytes × Json)}
    (h : Forall₂ (ReadsMember n) ms vs) : Reads (object ms) (obj vs) (n + 1) where
  head := ⟨123, _, object_eq ms, by decide, by decide⟩
  read := by
    intro fuel depth rest hfuel hdepth _
    rw [object_eq, length_cons] at hfuel
    obtain ⟨fuel, rfl⟩ : ∃ k, fuel = k + 1 := ⟨fuel - 1, by omega⟩
    rw [object_eq, cons_append, value, skipWs_cons (by decide)]
    dsimp only
    rw [if_neg (by decide), if_pos rfl, if_neg (by omega)]
    cases h with
    | nil => rfl
    | @cons m v ms vs hm hms =>
      have hread := members_read (Forall₂.cons hm hms) (cons_ne_nil _ _) fuel (depth + 1)
        (by omega) (by omega) rest
      obtain ⟨u, hu⟩ := membersText_append m ms
      have hskip : skipWs (membersText (m :: ms) ++ rest) = 34 :: (u ++ rest) := by
        rw [hu]
        exact skipWs_cons (by decide) _
      rw [hskip, hread]
      rfl

/-! ### Structs -/

/-- A struct as it is written and read: the name of each field and, unless `omitempty` leaves it
out, its text and the value read from it. -/
abbrev Fields := List (Bytes × Option (Bytes × Json))

/-- The members that are written. -/
def Fields.texts (fs : Fields) : List (Bytes × Bytes) :=
  fs.filterMap fun f => f.2.map fun p => (f.1, p.1)

/-- The members that are read. -/
def Fields.values (fs : Fields) : List (Bytes × Json) :=
  fs.filterMap fun f => f.2.map fun p => (f.1, p.2)

/-- A string field. -/
def stringMember (s : Bytes) : Option (Bytes × Json) := some (quote s, str s)

/-- An integer field. -/
def intMember (n : ℤ) : Option (Bytes × Json) := some (Go.formatInt n, num (Go.formatInt n))

/-- A `bool` field that is set. -/
def trueMember : Option (Bytes × Json) := some (lit "true", bool true)

/-- A slice, with the text and the value of its elements. -/
def sliceMember {α : Type*} (text : α → Bytes) (val : α → Json) (l : List α) :
    Option (Bytes × Json) := some (array (l.map text), arr (l.map val))

theorem Fields.texts_nil : Fields.texts [] = [] := rfl

theorem Fields.texts_stringMember (name s : Bytes) (fs : Fields) :
    Fields.texts ((name, stringMember s) :: fs) = (name, quote s) :: fs.texts := rfl

theorem Fields.texts_intMember (name : Bytes) (n : ℤ) (fs : Fields) :
    Fields.texts ((name, intMember n) :: fs) = (name, Go.formatInt n) :: fs.texts := rfl

theorem Fields.texts_optString (name s : Bytes) (fs : Fields) :
    Fields.texts ((name, if s = [] then none else stringMember s) :: fs) =
      optString name s ++ fs.texts := by
  unfold optString
  split_ifs <;> rfl

theorem Fields.texts_optInt (name : Bytes) (n : ℤ) (fs : Fields) :
    Fields.texts ((name, if n = 0 then none else intMember n) :: fs) =
      (if n = 0 then [] else [(name, Go.formatInt n)]) ++ fs.texts := by
  split_ifs <;> rfl

theorem Fields.texts_optTrue (name : Bytes) (b : Bool) (fs : Fields) :
    Fields.texts ((name, if b then trueMember else none) :: fs) =
      (if b then [(name, lit "true")] else []) ++ fs.texts := by
  split_ifs <;> rfl

variable {α : Type*}

theorem Fields.texts_optSlice [DecidableEq α] (name : Bytes) (text : α → Bytes)
    (val : α → Json) (l : List α) (fs : Fields) :
    Fields.texts ((name, if l = [] then none else sliceMember text val l) :: fs) =
      (if l = [] then [] else [(name, array (l.map text))]) ++ fs.texts := by
  split_ifs <;> rfl

/-- The names of the fields are ASCII. -/
def asciiNames (names : List Bytes) : Bool := names.all fun s => s.all (·.toNat < 0x80)

variable {names : List Bytes}

theorem utf8_of_asciiNames (h : asciiNames names = true) (hs : s ∈ names) : Utf8 s :=
  utf8_of_all (all_eq_true.1 h s hs)

variable {fs : Fields}

/-- **A written struct is read back**, if every field is. -/
theorem Fields.reads (hnames : asciiNames (fs.map (·.1)) = true)
    (h : ∀ f ∈ fs, ∀ p ∈ f.2, Reads p.1 p.2 n) :
    Reads (object fs.texts) (obj fs.values) (n + 1) := by
  have hname : ∀ f ∈ fs, Utf8 f.1 := fun f hf => utf8_of_asciiNames hnames (mem_map_of_mem hf)
  clear hnames
  refine reads_object ?_
  induction fs with
  | nil => exact Forall₂.nil
  | cons f fs ih =>
    obtain ⟨name, o⟩ := f
    have htail := ih (fun g hg => h g (mem_cons_of_mem _ hg))
      (fun g hg => hname g (mem_cons_of_mem _ hg))
    cases o with
    | none => exact htail
    | some p =>
      exact Forall₂.cons ⟨rfl, hname _ mem_cons_self, h _ mem_cons_self p rfl⟩ htail

theorem reads_stringMember (hs : Utf8 s) (n : ℕ) : ∀ p ∈ stringMember s, Reads p.1 p.2 n := by
  rintro p hp
  cases hp
  exact (reads_quote hs).mono (Nat.zero_le n)

theorem reads_intMember (k : ℤ) (n : ℕ) : ∀ p ∈ intMember k, Reads p.1 p.2 n := by
  rintro p hp
  cases hp
  exact (reads_formatInt k).mono (Nat.zero_le n)

theorem reads_sliceMember {text : α → Bytes} {val : α → Json} {l : List α}
    (h : ∀ a ∈ l, Reads (text a) (val a) n) :
    ∀ p ∈ sliceMember text val l, Reads p.1 p.2 (n + 1) := by
  rintro p hp
  cases hp
  refine reads_array ?_
  rw [forall₂_map_left_iff, forall₂_map_right_iff, forall₂_same]
  exact h

variable {o : Option (Bytes × Json)}

theorem reads_omitted (c : Prop) [Decidable c]
    (h : ∀ p ∈ o, Reads p.1 p.2 n) : ∀ p ∈ (if c then none else o), Reads p.1 p.2 n := by
  split_ifs
  · exact nofun
  · exact h

theorem Fields.mem_values {m : Bytes × Json} (h : m ∈ fs.values) : m.1 ∈ fs.map (·.1) := by
  obtain ⟨f, hf, hm⟩ := mem_filterMap.1 h
  obtain ⟨p, -, rfl⟩ := Option.map_eq_some_iff.1 hm
  exact mem_map.2 ⟨f, hf, rfl⟩

theorem Fields.values_names (fs : Fields) : (fs.values.map (·.1)).Sublist (fs.map (·.1)) := by
  induction fs with
  | nil => exact Sublist.slnil
  | cons f fs ih =>
    obtain ⟨name, o⟩ := f
    cases o with
    | none => exact ih.cons _
    | some p => exact ih.cons_cons _

theorem resolve_of_mem {key : Bytes} (h : key ∈ names) : resolve names key = some key := if_pos h

section

variable (hsub : fs.map (·.1) ⊆ names)
include hsub

theorem allKnown_values : allKnown names fs.values = true := by
  refine all_eq_true.2 fun m hm => ?_
  rw [resolve_of_mem (hsub (Fields.mem_values hm))]
  rfl

theorem valuesOf_values (name : Bytes) : valuesOf names fs.values name =
      (fs.filter fun f => f.1 = name).filterMap fun f => f.2.map (·.2) := by
  induction fs with
  | nil => rfl
  | cons f fs ih =>
    obtain ⟨key, o⟩ := f
    have hkey : resolve names key = some key := resolve_of_mem (hsub mem_cons_self)
    have htail := ih fun k hk => hsub (mem_cons_of_mem _ hk)
    cases o with
    | none =>
      by_cases h : key = name <;> simpa [Fields.values, h] using htail
    | some p =>
      have hcons : valuesOf names (Fields.values ((key, some p) :: fs)) name =
          if key = name then p.2 :: valuesOf names (Fields.values fs) name
          else valuesOf names (Fields.values fs) name := by
        simp only [valuesOf, Fields.values, filterMap_cons, Option.map_some, hkey,
          Option.some.injEq]
        split_ifs <;> rfl
      rw [hcons, htail]
      by_cases h : key = name <;> simp [h]

/-- **A field is read from its own member**, and from nothing when it was left out. -/
theorem valuesOf_mem (hnodup : (fs.map (·.1)).Nodup) {name : Bytes}
    (h : (name, o) ∈ fs) : valuesOf names fs.values name = (o.map (·.2)).toList := by
  have hone : (fs.filter fun f => f.1 = name) = [(name, o)] := by
    clear hsub
    induction fs with
    | nil => cases h
    | cons f fs ih =>
      obtain ⟨hnot, hnodup⟩ := nodup_cons.1 hnodup
      rcases mem_cons.1 h with rfl | h
      · have hnone : (fs.filter fun f => f.1 = name) = [] := by
          refine filter_eq_nil_iff.2 fun g hg => ?_
          simpa using fun heq : g.1 = name => hnot (mem_map.2 ⟨g, hg, heq⟩)
        simp [hnone]
      · have hne : f.1 ≠ name := fun heq => hnot (mem_map.2 ⟨_, h, heq.symm⟩)
        rw [filter_cons_of_neg (by simpa using hne)]
        exact ih hnodup h
  rw [valuesOf_values hsub, hone]
  cases o <;> rfl

theorem valuesOf_notMem
    {name : Bytes} (h : name ∉ fs.map (·.1)) : valuesOf names fs.values name = [] := by
  rw [valuesOf_values hsub, filter_eq_nil_iff.2]
  · rfl
  · intro f hf
    simpa using fun heq : f.1 = name => h (mem_map.2 ⟨f, hf, heq⟩)

end

/-! ### Fields that were read -/

@[simp] theorem stringField_stringMember (s : Bytes) :
    stringField ((stringMember s).map (·.2)).toList = some s := rfl

@[simp] theorem stringField_omitted (s : Bytes) :
    stringField ((if s = [] then none else stringMember s).map (·.2)).toList = some s := by
  split_ifs with h
  · rw [h]
    rfl
  · rfl

theorem intField_intMember {n : ℤ} (hlo : -2 ^ 63 ≤ n) (hhi : n < 2 ^ 63) :
    intField ((intMember n).map (·.2)).toList = some n := by
  show (parseInt64 (formatInt n)).bind _ = some n
  rw [parseInt64_formatInt hlo hhi]
  rfl

@[simp] theorem boolField_optTrue (b : Bool) :
    boolField ((if b then trueMember else none).map (·.2)).toList = some b := by
  cases b <;> rfl

theorem sliceField_omitted [DecidableEq α] {elem : Json → Option α}
    {text : α → Bytes} {val : α → Json} {l : List α} (h : ∀ a ∈ l, elem (val a) = some a) :
    sliceField elem ((if l = [] then none else sliceMember text val l).map (·.2)).toList =
      some l := by
  have hmap : (l.map val).mapM elem = some l := by
    induction l with
    | nil => rfl
    | cons a l ih =>
      rw [map_cons, mapM_cons, h a mem_cons_self, ih fun b hb => h b (mem_cons_of_mem a hb)]
      rfl
  split_ifs with hl
  · rw [hl]
    rfl
  · show (mapM elem (l.map val)).bind _ = some l
    rw [hmap]
    rfl

theorem intField_omitted {n : ℤ} (hlo : -2 ^ 63 ≤ n) (hhi : n < 2 ^ 63) :
    intField ((if n = 0 then none else intMember n).map (·.2)).toList = some n := by
  split_ifs with h
  · rw [h]
    rfl
  · exact intField_intMember hlo hhi

end BuddyNet.Go.Json
