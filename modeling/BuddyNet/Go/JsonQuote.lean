import BuddyNet.Go.JsonText

/-!
# What `encoding/json` writes can be read in one way only

* `Utf8`: a text made of encoded runes. Every string that the reader decodes is of this kind, since
  it replaces what is ill formed (`stringField_utf8`);
* `quote` is injective on such texts, and the closing quote is found again whatever follows
  (`quote_append_inj`). The other text may be any bytes: `quote` writes an ill-formed byte as the
  escape `\ufffd`, and the replacement character itself as its three bytes;
* an integer is found again when no digit follows it (`formatInt_append_inj`).
-/

namespace BuddyNet.Go

open List

/-! ### Runes -/

/-- A Unicode scalar value. -/
def Scalar (r : ℕ) : Prop := r ≤ 0x10FFFF ∧ ¬(0xD800 ≤ r ∧ r ≤ 0xDFFF)

variable {n : ℕ}

theorem toNat_toUInt8 (h : n < 256) : n.toUInt8.toNat = n := by
  simp only [Nat.toUInt8, UInt8.toNat_ofNat']
  omega

theorem toUInt8_eq {b : UInt8} (h : n = b.toNat) : n.toUInt8 = b := by
  rw [h]
  exact UInt8.ofNat_toNat

variable {r : ℕ}

theorem encodeRune_eq (hr : Scalar r) : encodeRune r =
    if r < 0x80 then [r.toUInt8]
    else if r < 0x800 then [(0xC0 + r / 64).toUInt8, (0x80 + r % 64).toUInt8]
    else if r < 0x10000 then
      [(0xE0 + r / 4096).toUInt8, (0x80 + r / 64 % 64).toUInt8, (0x80 + r % 64).toUInt8]
    else [(0xF0 + r / 262144).toUInt8, (0x80 + r / 4096 % 64).toUInt8,
      (0x80 + r / 64 % 64).toUInt8, (0x80 + r % 64).toUInt8] := by
  have hnorm : (if 0x10FFFF < r || (0xD800 ≤ r && r ≤ 0xDFFF) then runeError else r) = r := by
    unfold Scalar at hr
    exact if_neg (by simp; omega)
  simp only [encodeRune, hnorm]

theorem encodeRune_one (h : r < 0x80) : encodeRune r = [r.toUInt8] := by
  rw [encodeRune_eq (by unfold Scalar; omega), if_pos h]

theorem encodeRune_scalar (r : ℕ) : ∃ q, Scalar q ∧ encodeRune r = encodeRune q := by
  by_cases h : Scalar r
  · exact ⟨r, h, rfl⟩
  · refine ⟨runeError, by unfold Scalar; decide, ?_⟩
    have hnorm : (if 0x10FFFF < r || (0xD800 ≤ r && r ≤ 0xDFFF) then runeError else r) =
        runeError := by
      unfold Scalar at h
      exact if_pos (by simp; omega)
    unfold encodeRune
    rw [hnorm]
    rfl

/-- A tail byte of a rune, as a number. -/
def Tail (n : ℕ) : Prop := 0x80 ≤ n ∧ n ≤ 0xBF

theorem Tail.toNat (h : Tail n) : n.toUInt8.toNat = n :=
  toNat_toUInt8 (by unfold Tail at h; omega)

theorem Tail.isCont (h : Tail n) : isCont n.toUInt8 = true := by
  unfold Go.isCont
  rw [h.toNat]
  simpa [Tail] using h

variable {a b : ℕ}

theorem decodeRune_two (ha : 0xC2 ≤ a ∧ a ≤ 0xDF) (hb : Tail b)
    (hr : (a - 0xC0) * 64 + (b - 0x80) = r) (t : Bytes) :
    decodeRune (a.toUInt8 :: b.toUInt8 :: t) = (r, 2) := by
  have hcont := hb.isCont
  simp only [decodeRune, toNat_toUInt8 (show a < 256 by omega), hb.toNat, hr]
  rw [if_neg (by omega), if_pos (by simp [hcont]; omega)]

theorem decodeRune_three {c : ℕ} (ha : 0xE0 ≤ a ∧ a ≤ 0xEF) (hb : Tail b) (hc : Tail c)
    (hr : ((a - 0xE0) * 64 + (b - 0x80)) * 64 + (c - 0x80) = r) (hlow : 0x800 ≤ r)
    (hsur : ¬(0xD800 ≤ r ∧ r ≤ 0xDFFF)) (t : Bytes) :
    decodeRune (a.toUInt8 :: b.toUInt8 :: c.toUInt8 :: t) = (r, 3) := by
  have hcont := hb.isCont
  have hcont' := hc.isCont
  simp only [decodeRune, toNat_toUInt8 (show a < 256 by omega), hb.toNat, hc.toNat, hr]
  rw [if_neg (by omega), if_neg (by simp; omega), if_pos (by simp [hcont, hcont']; omega)]

theorem decodeRune_four {c d : ℕ} (ha : 0xF0 ≤ a ∧ a ≤ 0xF4) (hb : Tail b) (hc : Tail c)
    (hd : Tail d) (hr : (((a - 0xF0) * 64 + (b - 0x80)) * 64 + (c - 0x80)) * 64 + (d - 0x80) = r)
    (hlow : 0x10000 ≤ r) (hhigh : r ≤ 0x10FFFF) (t : Bytes) :
    decodeRune (a.toUInt8 :: b.toUInt8 :: c.toUInt8 :: d.toUInt8 :: t) = (r, 4) := by
  have hcont := hb.isCont
  have hcont' := hc.isCont
  have hcont'' := hd.isCont
  simp only [decodeRune, toNat_toUInt8 (show a < 256 by omega), hb.toNat, hc.toNat, hd.toNat, hr]
  rw [if_neg (by omega), if_neg (by simp; omega), if_neg (by simp; omega),
    if_pos (by simp [hcont, hcont', hcont'']; omega)]

theorem tail_mod (n : ℕ) : Tail (0x80 + n % 64) := by
  unfold Tail
  omega

/-- **A rune is read back from its bytes**, whatever follows them. -/
theorem decodeRune_encodeRune (hr : Scalar r) (t : Bytes) :
    decodeRune (encodeRune r ++ t) = (r, (encodeRune r).length) := by
  have hle := hr.1
  rw [encodeRune_eq hr]
  split_ifs with h1 h2 h3
  · simp [decodeRune, toNat_toUInt8 (show r < 256 by omega), h1]
  · exact decodeRune_two (by omega) (tail_mod _) (by omega) t
  · exact decodeRune_three (by omega) (tail_mod _) (tail_mod _) (by omega) (not_lt.1 h2) hr.2 t
  · exact decodeRune_four (by omega) (tail_mod _) (tail_mod _) (tail_mod _) (by omega) (not_lt.1 h3)
      hle t

theorem encodeRune_injOn {q : ℕ} (hq : Scalar q) (hr : Scalar r)
    (h : encodeRune q = encodeRune r) : q = r := by
  have hdec := decodeRune_encodeRune hq []
  rw [h, decodeRune_encodeRune hr []] at hdec
  exact (Prod.mk.inj hdec).1.symm

theorem isCont_iff {b : UInt8} : isCont b = true ↔ 0x80 ≤ b.toNat ∧ b.toNat ≤ 0xBF := by
  simp [isCont]

variable {s : Bytes}

theorem form2_encodes (h : form2 s = some r) : Scalar r ∧ s.take 2 = encodeRune r := by
  rcases s with _ | ⟨b0, _ | ⟨b1, s⟩⟩
  · cases h
  · cases h
  · simp only [form2, Option.ite_none_right_eq_some, Bool.and_eq_true, decide_eq_true_eq,
      isCont_iff, Option.some.injEq] at h
    have hr : Scalar r := by
      unfold Scalar
      omega
    refine ⟨hr, ?_⟩
    rw [encodeRune_eq hr, if_neg (by omega), if_pos (by omega), toUInt8_eq (b := b0) (by omega),
      toUInt8_eq (b := b1) (by omega)]
    rfl

theorem form3_encodes (h : form3 s = some r) : Scalar r ∧ s.take 3 = encodeRune r := by
  rcases s with _ | ⟨b0, _ | ⟨b1, _ | ⟨b2, s⟩⟩⟩
  · cases h
  · cases h
  · cases h
  · simp only [form3, Option.ite_none_right_eq_some, Bool.and_eq_true, decide_eq_true_eq,
      isCont_iff, Bool.not_eq_true', Bool.and_eq_false_iff, decide_eq_false_iff_not,
      Option.some.injEq] at h
    have hr : Scalar r := by
      unfold Scalar
      omega
    refine ⟨hr, ?_⟩
    rw [encodeRune_eq hr, if_neg (by omega), if_neg (by omega), if_pos (by omega),
      toUInt8_eq (b := b0) (by omega), toUInt8_eq (b := b1) (by omega),
      toUInt8_eq (b := b2) (by omega)]
    rfl

theorem form4_encodes (h : form4 s = some r) : Scalar r ∧ s.take 4 = encodeRune r := by
  rcases s with _ | ⟨b0, _ | ⟨b1, _ | ⟨b2, _ | ⟨b3, s⟩⟩⟩⟩
  · cases h
  · cases h
  · cases h
  · cases h
  · simp only [form4, Option.ite_none_right_eq_some, Bool.and_eq_true, decide_eq_true_eq,
      isCont_iff, Option.some.injEq] at h
    have hr : Scalar r := by
      unfold Scalar
      omega
    refine ⟨hr, ?_⟩
    rw [encodeRune_eq hr, if_neg (by omega), if_neg (by omega), if_neg (by omega),
      toUInt8_eq (b := b0) (by omega), toUInt8_eq (b := b1) (by omega),
      toUInt8_eq (b := b2) (by omega), toUInt8_eq (b := b3) (by omega)]
    rfl

/-- A rune of any text: the bytes of a scalar value, or one byte that starts none. -/
theorem rune_cases (hs : s ≠ []) : (∃ r, Scalar r ∧ s.take (decodeRune s).2 = encodeRune r) ∨
      ∃ c, ¬ IsASCII c ∧ s.take (decodeRune s).2 = [c] := by
  rcases s with _ | ⟨b0, s⟩
  · exact absurd rfl hs
  · rw [decodeRune_eq]
    unfold firstForm
    by_cases h0 : b0.toNat < 0x80
    · rw [if_pos h0]
      refine .inl ⟨b0.toNat, by unfold Scalar; omega, ?_⟩
      rw [encodeRune_one h0, toUInt8_eq rfl]
      rfl
    · rw [if_neg h0]
      cases h2 : form2 (b0 :: s) with
      | some r => exact .inl ⟨r, form2_encodes h2⟩
      | none =>
        cases h3 : form3 (b0 :: s) with
        | some r => exact .inl ⟨r, form3_encodes h3⟩
        | none =>
          cases h4 : form4 (b0 :: s) with
          | some r => exact .inl ⟨r, form4_encodes h4⟩
          | none => exact .inr ⟨b0, h0, rfl⟩

/-! ### Texts -/

/-- Well-formed UTF-8. -/
inductive Utf8 : Bytes → Prop
  | nil : Utf8 []
  | rune {r : ℕ} {s : Bytes} (hr : Scalar r) (hs : Utf8 s) : Utf8 (encodeRune r ++ s)

theorem utf8_encodeRune (r : ℕ) : Utf8 (encodeRune r) := by
  obtain ⟨q, hq, heq⟩ := encodeRune_scalar r
  rw [heq, ← append_nil (encodeRune q)]
  exact .rune hq .nil

theorem Utf8.append {t : Bytes} (hs : Utf8 s) (ht : Utf8 t) : Utf8 (s ++ t) := by
  induction hs with
  | nil => exact ht
  | rune hr _ ih =>
    rw [append_assoc]
    exact .rune hr ih

theorem encodeRune_ascii {c : UInt8} (hc : IsASCII c) : encodeRune c.toNat = [c] := by
  rw [encodeRune_one hc, toUInt8_eq rfl]

theorem utf8_of_ascii (h : ∀ c ∈ s, IsASCII c) : Utf8 s := by
  induction s with
  | nil => exact .nil
  | cons c s ih =>
    have hc := h c mem_cons_self
    rw [← singleton_append, ← encodeRune_ascii hc]
    exact (utf8_encodeRune _).append (ih fun d hd => h d (mem_cons_of_mem c hd))

theorem utf8_of_all (h : s.all (·.toNat < 0x80) = true) : Utf8 s := by
  refine utf8_of_ascii fun c hc => ?_
  have hall := all_eq_true.1 h c hc
  show c.toNat < 0x80
  exact of_decide_eq_true hall

theorem runesOf_encodeRune (hr : Scalar r) (t : Bytes) :
    runesOf (encodeRune r ++ t) = (encodeRune r, isSpace r) :: runesOf t := by
  have hdec := decodeRune_encodeRune hr t
  have hne : encodeRune r ++ t ≠ [] := by
    intro h
    rw [h] at hdec
    have hnil := (append_eq_nil_iff.1 h).1
    obtain ⟨rfl, -⟩ := Prod.mk.inj hdec
    exact absurd hnil (by decide)
  rw [runesOf_of_ne_nil hne, hdec]
  simp

namespace Json

/-! ### Decoded strings -/

variable {c : UInt8}

theorem simpleEscape_ascii {b : UInt8} (h : simpleEscape c = some b) : IsASCII b := by
  unfold IsASCII
  unfold simpleEscape at h
  split_ifs at h with hsame <;> obtain rfl := Option.some.inj h
  · rcases hsame with rfl | rfl | rfl <;> decide
  all_goals decide

variable {s rest : Bytes}

theorem escape_utf8 {b : Bytes} (h : escape s = some (b, rest)) : Utf8 b := by
  rcases s with _ | ⟨c, s⟩
  · cases h
  · simp only [escape] at h
    split_ifs at h
    · obtain ⟨⟨r, rest1⟩, -, h⟩ := Option.bind_eq_some_iff.1 h
      split_ifs at h
      on_goal 1 => split at h
      all_goals
        rw [← (Prod.mk.inj (Option.some.inj h)).1]
        exact utf8_encodeRune _
    · obtain ⟨b', hb', h⟩ := Option.map_eq_some_iff.1 h
      cases h
      exact utf8_of_ascii fun c hc => mem_singleton.1 hc ▸ simpleEscape_ascii hb'

variable {fuel : ℕ} {d : Bytes}

theorem stringBody_utf8 (h : stringBody fuel s = some (d, rest)) : Utf8 d := by
  induction fuel generalizing s d rest with
  | zero => cases h
  | succ fuel ih =>
    rcases s with _ | ⟨c, s⟩
    · cases h
    · simp only [stringBody] at h
      split_ifs at h
      · cases h
        exact .nil
      · obtain ⟨⟨b, rest1⟩, hesc, h⟩ := Option.bind_eq_some_iff.1 h
        obtain ⟨⟨d', rest2⟩, hbody, h⟩ := Option.bind_eq_some_iff.1 h
        cases h
        exact (escape_utf8 hesc).append (ih hbody)
      · obtain ⟨⟨d', rest2⟩, hbody, h⟩ := Option.bind_eq_some_iff.1 h
        cases h
        exact (utf8_encodeRune _).append (ih hbody)

variable {depth : ℕ}

/-- Where the text of a string value and the members of an object value come from. -/
theorem value_inv {v : Json} (h : value (fuel + 1) depth s = some (v, rest)) :
    (∀ d, v = str d → ∃ n s', stringBody n s' = some (d, rest)) ∧
    (∀ ms, v = obj ms → ms = [] ∨ ∃ s', members fuel (depth + 1) s' = some (ms, rest)) := by
  rw [value] at h
  split at h
  · cases h
  split_ifs at h
  · obtain ⟨⟨d, rest'⟩, hbody, h⟩ := Option.map_eq_some_iff.1 h
    cases h
    exact ⟨fun _ heq => by cases heq; exact ⟨_, _, hbody⟩, by rintro _ ⟨⟩⟩
  · split at h
    · cases h
      exact ⟨by rintro _ ⟨⟩, fun _ heq => by cases heq; exact Or.inl rfl⟩
    · obtain ⟨⟨ms, rest'⟩, hms, h⟩ := Option.map_eq_some_iff.1 h
      cases h
      exact ⟨by rintro _ ⟨⟩, fun _ heq => by cases heq; exact Or.inr ⟨_, hms⟩⟩
  · split at h
    · cases h
      exact ⟨by rintro _ ⟨⟩, by rintro _ ⟨⟩⟩
    · obtain ⟨_, -, h⟩ := Option.map_eq_some_iff.1 h
      cases h
      exact ⟨by rintro _ ⟨⟩, by rintro _ ⟨⟩⟩
  all_goals
    -- keywords and numbers
    obtain ⟨_, -, h⟩ := Option.map_eq_some_iff.1 h
    cases h
    exact ⟨by rintro _ ⟨⟩, by rintro _ ⟨⟩⟩

theorem value_str_utf8 (h : value fuel depth s = some (str d, rest)) : Utf8 d := by
  rcases fuel with _ | fuel
  · simp [value] at h
  · obtain ⟨n, s', hbody⟩ := (value_inv h).1 d rfl
    exact stringBody_utf8 hbody

variable {ms : List (Bytes × Json)}

theorem members_str_utf8
    (h : members fuel depth s = some (ms, rest)) {k : Bytes} (hmem : (k, str d) ∈ ms) : Utf8 d := by
  induction fuel generalizing s rest ms with
  | zero => simp [members] at h
  | succ fuel ih =>
    rw [members] at h
    split at h
    · obtain ⟨⟨k', rest1⟩, -, h⟩ := Option.bind_eq_some_iff.1 h
      dsimp only at h
      split at h
      · obtain ⟨⟨v, rest3⟩, hv, h⟩ := Option.bind_eq_some_iff.1 h
        split at h
        · obtain ⟨⟨kvs, rest5⟩, hkvs, h⟩ := Option.bind_eq_some_iff.1 h
          cases h
          rcases mem_cons.1 hmem with heq | hmem
          · obtain ⟨-, rfl⟩ := Prod.mk.inj heq
            exact value_str_utf8 hv
          · exact ih hkvs hmem
        · cases h
          obtain ⟨-, rfl⟩ := Prod.mk.inj (mem_singleton.1 hmem)
          exact value_str_utf8 hv
        · cases h
      · cases h
    · cases h

theorem value_members_utf8
    (h : value fuel depth s = some (obj ms, rest)) {k : Bytes} (hmem : (k, str d) ∈ ms) :
    Utf8 d := by
  rcases fuel with _ | fuel
  · simp [value] at h
  · rcases (value_inv h).2 ms rfl with rfl | ⟨s', hms⟩
    · cases hmem
    · exact members_str_utf8 hms hmem

/-- **A string field of a decoded struct is well-formed UTF-8.** -/
theorem stringField_utf8 {body : Bytes} {v : Json}
    {fieldNames : List Bytes} {f : Bytes} (h : parse body = some v)
    (hms : structMembers v = some ms) (hd : stringField (valuesOf fieldNames ms f) = some d) :
    Utf8 d := by
  rcases mem_of_stringField hd with rfl | hmem
  · exact .nil
  obtain ⟨k, hk, -⟩ := mem_valuesOf hmem
  obtain ⟨⟨v', rest⟩, hv, h⟩ := Option.bind_eq_some_iff.1 h
  dsimp only at h
  split_ifs at h
  cases h
  cases v with
  | obj ms' =>
    cases hms
    exact value_members_utf8 hv hk
  | null =>
    cases hms
    cases hk
  | _ => cases hms

/-! ### Written strings -/

/-- One rune of a written string, read back: what an escape stands for, or the rune itself. -/
def readRune (s : Bytes) : Option (Bytes × Bytes) :=
  if s.head? = some 92 then escape s.tail
  else some (s.take (decodeRune s).2, s.drop (decodeRune s).2)

theorem hexDigit_hexChar : ∀ n < 16, hexDigit (hexChar n) = some n := by decide

theorem escape_u00 (hc : IsASCII c) (t : Bytes) :
    escape (lit "u00" ++ [hexChar (c.toNat / 16), hexChar (c.toNat % 16)] ++ t) =
      some ([c], t) := by
  have hhigh := hexDigit_hexChar (c.toNat / 16) (by unfold IsASCII at hc; omega)
  have hlow := hexDigit_hexChar (c.toNat % 16) (by omega)
  have hzero : hexDigit 48 = some 0 := by decide
  have hval : ((0 * 16 + 0) * 16 + c.toNat / 16) * 16 + c.toNat % 16 = c.toNat := by omega
  have hlit : lit "u00" = [117, 48, 48] := by decide
  have hsmall : ¬(0xD800 ≤ c.toNat ∧ c.toNat ≤ 0xDBFF) := by
    unfold IsASCII at hc
    omega
  rw [hlit]
  simp only [cons_append, nil_append, escape, if_true, hex4, hzero, hhigh, hlow,
    Option.bind_eq_bind, Option.bind_some, Option.pure_def, hval, if_neg hsmall,
    encodeRune_ascii hc]

theorem readRune_quoteByte (hc : IsASCII c) (t : Bytes) :
    readRune (quoteByte c ++ t) = some ([c], t) := by
  unfold quoteByte
  split_ifs with h1 h2 h3 h4 h5 h6 h7
  · rcases h1 with rfl | rfl <;> rfl
  · subst h2; rfl
  · subst h3; rfl
  · subst h4; rfl
  · subst h5; rfl
  · subst h6; rfl
  · exact escape_u00 hc t
  · have hne : c ≠ 92 := fun h => h1 (Or.inl h)
    have hdec : decodeRune (c :: t) = (c.toNat, 1) := by
      unfold IsASCII at hc
      simp [decodeRune, hc]
    simp [readRune, hne, hdec]

variable {r : ℕ}

theorem encodeRune_of_ge (hr : Scalar r) (h : 0x80 ≤ r) :
    ∃ a b l, encodeRune r = a :: b :: l ∧ ¬ IsASCII a := by
  have hle := hr.1
  rw [encodeRune_eq hr, if_neg (not_lt.2 h)]
  split_ifs with h2 h3
  all_goals
    refine ⟨_, _, _, rfl, ?_⟩
    rw [IsASCII, toNat_toUInt8 (by omega)]
    omega

theorem quoteRune_of_lt (h : r < 0x80) : quoteRune (encodeRune r) = quoteByte r.toUInt8 := by
  rw [encodeRune_one h, quoteRune, if_pos (by rw [toNat_toUInt8 (by omega)]; exact h)]

theorem quoteRune_of_ge (hr : Scalar r) (h : 0x80 ≤ r) :
    quoteRune (encodeRune r) =
      if r = 0x2028 then lit "\\u2028" else if r = 0x2029 then lit "\\u2029"
      else encodeRune r := by
  obtain ⟨a, b, l, heq, -⟩ := encodeRune_of_ge hr h
  have hdec := decodeRune_encodeRune hr []
  rw [append_nil] at hdec
  have hmany : quoteRune (encodeRune r) = if (decodeRune (encodeRune r)).1 = 0x2028 then
      lit "\\u2028" else if (decodeRune (encodeRune r)).1 = 0x2029 then lit "\\u2029"
      else encodeRune r := by
    rw [heq]
    rfl
  rw [hmany, hdec]

theorem quoteRune_illFormed (hc : ¬ IsASCII c) : quoteRune [c] = lit "\\ufffd" :=
  if_neg hc

theorem readRune_quoteRune (hr : Scalar r) (t : Bytes) :
    readRune (quoteRune (encodeRune r) ++ t) = some (encodeRune r, t) := by
  rcases lt_or_ge r 0x80 with h | h
  · have hc : IsASCII r.toUInt8 := by
      rw [IsASCII, toNat_toUInt8 (by omega)]
      exact h
    rw [quoteRune_of_lt h, readRune_quoteByte hc, encodeRune_one h]
  · rw [quoteRune_of_ge hr h]
    split_ifs with h8 h9
    · subst h8; rfl
    · subst h9; rfl
    · obtain ⟨a, b, l, heq, ha⟩ := encodeRune_of_ge hr h
      have hne : a ≠ 92 := fun h => ha (by rw [h]; unfold IsASCII; decide)
      have hhead : (encodeRune r ++ t).head? ≠ some 92 := by
        rw [heq]
        simpa using hne
      rw [readRune, if_neg hhead, decodeRune_encodeRune hr t]
      simp

theorem quoteByte_head (c : UInt8) : ∃ d l, quoteByte c = d :: l ∧ d ≠ 34 := by
  unfold quoteByte
  split_ifs with h
  case neg => exact ⟨c, [], rfl, fun h34 => h (Or.inr h34)⟩
  all_goals exact ⟨92, _, rfl, by decide⟩

theorem quoteRune_head {b : Bytes} (hb : (∃ r, Scalar r ∧ b = encodeRune r) ∨
    ∃ c, ¬ IsASCII c ∧ b = [c]) (t : Bytes) : (quoteRune b ++ t).head? ≠ some 34 := by
  rcases hb with ⟨r, hr, rfl⟩ | ⟨c, hc, rfl⟩
  · rcases lt_or_ge r 0x80 with h | h
    · rw [quoteRune_of_lt h]
      obtain ⟨d, l, heq, hd⟩ := quoteByte_head r.toUInt8
      rw [heq]
      exact hd ∘ Option.some.inj
    · obtain ⟨a, b, l, heq, ha⟩ := encodeRune_of_ge hr h
      rw [quoteRune_of_ge hr h]
      split_ifs
      · exact (by decide : (92 : UInt8) ≠ 34) ∘ Option.some.inj
      · exact (by decide : (92 : UInt8) ≠ 34) ∘ Option.some.inj
      · rw [heq]
        intro h34
        exact ha (by rw [Option.some.inj h34]; unfold IsASCII; decide)
  · rw [quoteRune_illFormed hc]
    exact (by decide : (92 : UInt8) ≠ 34) ∘ Option.some.inj

/-- The runes of a written string, up to its closing quote. -/
def quoteBody (s : Bytes) : Bytes := (runesOf s).flatMap fun p => quoteRune p.1

theorem quoteBody_encodeRune (hr : Scalar r) (t : Bytes) :
    quoteBody (encodeRune r ++ t) = quoteRune (encodeRune r) ++ quoteBody t := by
  rw [quoteBody, runesOf_encodeRune hr, flatMap_cons]
  rfl

theorem quoteBody_of_ne_nil (hs : s ≠ []) :
    quoteBody s = quoteRune (s.take (decodeRune s).2) ++ quoteBody (s.drop (decodeRune s).2) := by
  rw [quoteBody, runesOf_of_ne_nil hs, flatMap_cons]
  rfl

theorem quoteBody_inj {t x y : Bytes} (ht : Utf8 t)
    (h : quoteBody s ++ 34 :: x = quoteBody t ++ 34 :: y) : s = t ∧ x = y := by
  induction ht generalizing s with
  | nil =>
    rcases eq_or_ne s [] with rfl | hs
    · exact ⟨rfl, (List.cons.inj h).2⟩
    · -- a text that is not empty does not start with the closing quote
      rw [quoteBody_of_ne_nil hs, append_assoc] at h
      have hhead := quoteRune_head (rune_cases hs) (quoteBody (s.drop (decodeRune s).2) ++ 34 :: x)
      rw [h] at hhead
      exact absurd rfl hhead
  | @rune r t hr _ ih =>
    rw [quoteBody_encodeRune hr, append_assoc] at h
    have hread := readRune_quoteRune hr (quoteBody t ++ 34 :: y)
    rcases eq_or_ne s [] with rfl | hs
    · have hhead := quoteRune_head (Or.inl ⟨r, hr, rfl⟩) (quoteBody t ++ 34 :: y)
      rw [← h] at hhead
      exact absurd rfl hhead
    · rw [quoteBody_of_ne_nil hs, append_assoc] at h
      rw [← h] at hread
      rcases rune_cases hs with ⟨q, hq, heq⟩ | ⟨c, hc, heq⟩
      · rw [heq, readRune_quoteRune hq] at hread
        obtain ⟨hrune, hrest⟩ := Prod.mk.inj (Option.some.inj hread)
        obtain ⟨hdrop, hxy⟩ := ih hrest
        refine ⟨?_, hxy⟩
        rw [← take_append_drop (decodeRune s).2 s, heq, hdrop, hrune]
      · -- an ill-formed byte is written as an escape, the replacement character is not
        rw [heq, quoteRune_illFormed hc] at hread h
        have hrepl : encodeRune runeError = encodeRune r :=
          (Prod.mk.inj (Option.some.inj hread)).1
        obtain rfl := encodeRune_injOn (by unfold Scalar; decide) hr hrepl
        have hhead : some (92 : UInt8) = some 239 := congrArg List.head? h
        exact absurd hhead (by decide)

/-- **A written string is read in one way**: no other string is written like a well-formed one, and
its closing quote is found whatever follows. -/
theorem quote_append_inj {t x y : Bytes} (ht : Utf8 t) (h : quote s ++ x = quote t ++ y) :
    s = t ∧ x = y := by
  have hq : ∀ u z : Bytes, quote u ++ z = 34 :: (quoteBody u ++ 34 :: z) := by
    intro u z
    simp [quote, quoteBody, runesOf]
  rw [hq, hq] at h
  exact quoteBody_inj ht (List.cons.inj h).2

end Json

/-! ### Integers -/

theorem itoa_append_inj {m : ℕ} {x y : Bytes} (hx : ∀ c ∈ x.head?, Json.isDigit c = false)
    (hy : ∀ c ∈ y.head?, Json.isDigit c = false) (h : itoa m ++ x = itoa n ++ y) :
    m = n ∧ x = y := by
  have hdigits : ∀ k, ∀ c ∈ itoa k, Json.isDigit c = true := by
    intro k c hc
    have := mem_itoa hc
    simp [Json.isDigit, this]
  have htake : ∀ (k : ℕ) (z : Bytes), (∀ c ∈ z.head?, Json.isDigit c = false) →
      (itoa k ++ z).takeWhile Json.isDigit = itoa k := by
    intro k z hz
    rw [takeWhile_append_of_pos (hdigits k)]
    rcases z with _ | ⟨c, z⟩
    · simp
    · simp [hz c rfl]
  have hsame : itoa m = itoa n := by
    rw [← htake m x hx, h, htake n y hy]
  refine ⟨itoa_injective hsame, ?_⟩
  rw [hsame] at h
  exact append_cancel_left h

/-- A decimal number is read in one way when no digit follows it. -/
theorem formatInt_append_inj {m n : ℤ} {x y : Bytes} (hx : ∀ c ∈ x.head?, Json.isDigit c = false)
    (hy : ∀ c ∈ y.head?, Json.isDigit c = false) (h : formatInt m ++ x = formatInt n ++ y) :
    m = n ∧ x = y := by
  have hsign : ∀ (k : ℕ) (z : Bytes), (itoa k ++ z).head? ≠ some 45 := by
    intro k z hz
    rcases hk : itoa k with _ | ⟨c, l⟩
    · exact itoa_ne_nil k hk
    · have hc := mem_itoa (n := k) (c := c) (by rw [hk]; exact mem_cons_self)
      rw [hk] at hz
      obtain rfl : c = 45 := Option.some.inj hz
      exact absurd hc.1 (by decide)
  unfold formatInt at h
  split_ifs at h with hm hn hn
  · obtain ⟨habs, hxy⟩ := itoa_append_inj hx hy (List.cons.inj h).2
    exact ⟨by omega, hxy⟩
  · exact absurd (by rw [← h]; rfl) (hsign n.natAbs y)
  · exact absurd (by rw [h]; rfl) (hsign m.natAbs x)
  · obtain ⟨habs, hxy⟩ := itoa_append_inj hx hy h
    exact ⟨by omega, hxy⟩

end BuddyNet.Go
