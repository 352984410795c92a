import Mathlib.Data.List.TakeWhile
import Mathlib.Data.List.DropRight
import BuddyNet.Go.Text

/-!
# Facts about lines and fields

What the readers of the trust files rely on: a rune is decoded from its own bytes
(`decodeRune_take`, `decodeRune_append`), so the runes of a text split at an ASCII character and
trimming does not change the fields; a field is a stretch of the text without white space; and a
scanner reads back the lines that were written.
-/

namespace BuddyNet

open List

namespace Go

/-! ### Runes -/

/-- A byte below `0x80`. -/
def IsASCII (c : UInt8) : Prop := c.toNat < 0x80

variable {c : UInt8}

theorem IsASCII.not_cont (h : IsASCII c) : isCont c = false := by
  unfold IsASCII at h
  simp [isCont]
  omega

theorem not_isASCII_of_cont (h : isCont c = true) : ¬IsASCII c := by
  intro hc
  rw [hc.not_cont] at h
  cases h

/-- The rune of a sequence of two bytes. -/
def form2 : Bytes → Option ℕ
  | b0 :: b1 :: _ =>
    if 0xC2 ≤ b0.toNat && b0.toNat ≤ 0xDF && isCont b1 then
      some ((b0.toNat - 0xC0) * 64 + (b1.toNat - 0x80))
    else none
  | _ => none

/-- The rune of a sequence of three bytes. -/
def form3 : Bytes → Option ℕ
  | b0 :: b1 :: b2 :: _ =>
    let r3 := ((b0.toNat - 0xE0) * 64 + (b1.toNat - 0x80)) * 64 + (b2.toNat - 0x80)
    if 0xE0 ≤ b0.toNat && b0.toNat ≤ 0xEF && isCont b1 && isCont b2 && 0x800 ≤ r3
        && !(0xD800 ≤ r3 && r3 ≤ 0xDFFF) then some r3
    else none
  | _ => none

/-- The rune of a sequence of four bytes. -/
def form4 : Bytes → Option ℕ
  | b0 :: b1 :: b2 :: b3 :: _ =>
    let r4 := (((b0.toNat - 0xF0) * 64 + (b1.toNat - 0x80)) * 64 + (b2.toNat - 0x80)) * 64
      + (b3.toNat - 0x80)
    if 0xF0 ≤ b0.toNat && b0.toNat ≤ 0xF4 && isCont b1 && isCont b2 && isCont b3
        && 0x10000 ≤ r4 && r4 ≤ 0x10FFFF then some r4
    else none
  | _ => none

/-- The rune of the first form there is. -/
def firstForm (b0 : UInt8) (two three four : Option ℕ) : ℕ × ℕ :=
  if b0.toNat < 0x80 then (b0.toNat, 1)
  else match two, three, four with
    | some r, _, _ => (r, 2)
    | none, some r, _ => (r, 3)
    | none, none, some r => (r, 4)
    | none, none, none => (runeError, 1)

/-- A rune is decoded in the first form that fits. -/
theorem decodeRune_eq (b0 : UInt8) (rest : Bytes) : decodeRune (b0 :: rest) =
    firstForm b0 (form2 (b0 :: rest)) (form3 (b0 :: rest)) (form4 (b0 :: rest)) := by
  rcases rest with _ | ⟨b1, _ | ⟨b2, _ | ⟨b3, rest⟩⟩⟩ <;>
    simp only [decodeRune, firstForm, form2, form3, form4] <;> split_ifs <;> rfl

variable {b0 : UInt8} {s t : Bytes}

/-- A form of `n` bytes: a byte that is not ASCII, then continuation bytes. -/
structure Form (n : ℕ) (f : Bytes → Option ℕ) : Prop where
  take : ∀ s k, f (s.take k) = if n ≤ k then f s else none
  bytes : ∀ {s r}, f s = some r →
    ∃ b bs, s.take n = b :: bs ∧ ¬IsASCII b ∧ ∀ b ∈ bs, isCont b = true

theorem form_two : Form 2 form2 where
  take s k := by
    rcases s with _ | ⟨b0, _ | ⟨b1, s⟩⟩ <;> rcases k with _ | _ | k <;> simp [form2]
  bytes {s r} h := by
    rcases s with _ | ⟨b0, _ | ⟨b1, s⟩⟩
    · cases h
    · cases h
    · simp only [form2, Option.ite_none_right_eq_some, Bool.and_eq_true, decide_eq_true_eq] at h
      refine ⟨b0, [b1], rfl, ?_, by simp [h.1.2]⟩
      unfold IsASCII
      omega

theorem form_three : Form 3 form3 where
  take s k := by
    rcases s with _ | ⟨b0, _ | ⟨b1, _ | ⟨b2, s⟩⟩⟩ <;> rcases k with _ | _ | _ | k <;> simp [form3]
  bytes {s r} h := by
    rcases s with _ | ⟨b0, _ | ⟨b1, _ | ⟨b2, s⟩⟩⟩
    · cases h
    · cases h
    · cases h
    · simp only [form3, Option.ite_none_right_eq_some, Bool.and_eq_true, decide_eq_true_eq] at h
      refine ⟨b0, [b1, b2], rfl, ?_, by simp [h]⟩
      unfold IsASCII
      omega

theorem form_four : Form 4 form4 where
  take s k := by
    rcases s with _ | ⟨b0, _ | ⟨b1, _ | ⟨b2, _ | ⟨b3, s⟩⟩⟩⟩ <;>
      rcases k with _ | _ | _ | _ | k <;> simp [form4]
  bytes {s r} h := by
    rcases s with _ | ⟨b0, _ | ⟨b1, _ | ⟨b2, _ | ⟨b3, s⟩⟩⟩⟩
    · cases h
    · cases h
    · cases h
    · cases h
    · simp only [form4, Option.ite_none_right_eq_some, Bool.and_eq_true, decide_eq_true_eq] at h
      refine ⟨b0, [b1, b2, b3], rfl, ?_, by simp [h]⟩
      unfold IsASCII
      omega

variable {r n : ℕ} {f : Bytes → Option ℕ}

theorem Form.append (h : Form n f) (hc : isCont c = false) :
    f (b0 :: s ++ c :: t) = f (b0 :: s) := by
  have htake := h.take (b0 :: s ++ c :: t) (b0 :: s).length
  rw [take_left] at htake
  rw [htake]
  split_ifs with hn
  · rfl
  · -- the form would go on behind `c`
    cases hf : f (b0 :: s ++ c :: t) with
    | none => rfl
    | some r =>
      obtain ⟨b, bs, hbs, -, hcont⟩ := h.bytes hf
      obtain ⟨m, hm⟩ : ∃ m, n - (b0 :: s).length = m + 1 := ⟨n - (b0 :: s).length - 1, by omega⟩
      rw [take_append, take_of_length_le (by omega), hm] at hbs
      have hmem : c ∈ bs := by
        rw [← (cons.inj hbs).2]
        simp
      rw [hcont c hmem] at hc
      cases hc

theorem Form.not_ascii (h : Form n f) (hs : f s = some r) : ∀ b ∈ s.take n, ¬IsASCII b := by
  obtain ⟨b, bs, hbs, hb, hcont⟩ := h.bytes hs
  rw [hbs]
  exact forall_mem_cons.2 ⟨hb, fun b hb => not_isASCII_of_cont (hcont b hb)⟩

/-- A rune followed by an ASCII character is decoded as if the text ended there. -/
theorem decodeRune_append (hs : s ≠ []) (hc : IsASCII c) :
    decodeRune (s ++ c :: t) = decodeRune s := by
  have hcont := hc.not_cont
  rcases s with _ | ⟨b0, s⟩
  · exact absurd rfl hs
  · have happ : b0 :: s ++ c :: t = b0 :: (s ++ c :: t) := rfl
    rw [happ, decodeRune_eq, decodeRune_eq, ← happ, form_two.append hcont, form_three.append hcont,
      form_four.append hcont]

theorem decodeRune_width (hs : s ≠ []) : 1 ≤ (decodeRune s).2 ∧ (decodeRune s).2 ≤ s.length := by
  rcases s with _ | ⟨b0, _ | ⟨b1, _ | ⟨b2, _ | ⟨b3, s⟩⟩⟩⟩
  · exact absurd rfl hs
  all_goals
    simp only [decodeRune]
    split_ifs <;> simp

/-- A form that does not fit into the width can be left out. -/
theorem firstForm_of_width {two three four : Option ℕ} {k : ℕ}
    (hk : (firstForm b0 two three four).2 ≤ k) :
    firstForm b0 (if 2 ≤ k then two else none) (if 3 ≤ k then three else none)
      (if 4 ≤ k then four else none) = firstForm b0 two three four := by
  unfold firstForm at hk ⊢
  by_cases h0 : b0.toNat < 0x80
  · rw [if_pos h0, if_pos h0]
  · rw [if_neg h0] at hk
    rcases two with _ | r <;> rcases three with _ | r' <;> rcases four with _ | r'' <;>
      dsimp only at hk
    · simp only [ite_self]
    · rw [if_pos hk, ite_self, ite_self]
    · rw [if_pos hk, ite_self, ite_self]
    · rw [if_pos hk, ite_self]
    all_goals
      rw [if_pos hk]

theorem decodeRune_take {k : ℕ} (hk : (decodeRune s).2 ≤ k) :
    decodeRune (s.take k) = decodeRune s := by
  rcases s with _ | ⟨b0, s⟩
  · rw [take_nil]
  · have hpos := (decodeRune_width (cons_ne_nil b0 s)).1
    obtain ⟨j, rfl⟩ : ∃ j, k = j + 1 := ⟨k - 1, by omega⟩
    rw [decodeRune_eq] at hk ⊢
    rw [take_succ_cons, decodeRune_eq, ← take_succ_cons, form_two.take, form_three.take,
      form_four.take, firstForm_of_width hk]

/-- The bytes of a rune: one ASCII character, or bytes that are all at least `0x80`. -/
theorem decodeRune_bytes (hs : s ≠ []) :
    (∃ b, s.take (decodeRune s).2 = [b] ∧ IsASCII b ∧ (decodeRune s).1 = b.toNat) ∨
      ∀ b ∈ s.take (decodeRune s).2, ¬IsASCII b := by
  rcases s with _ | ⟨b0, s⟩
  · exact absurd rfl hs
  · rw [decodeRune_eq]
    unfold firstForm
    by_cases h0 : b0.toNat < 0x80
    · rw [if_pos h0]
      exact Or.inl ⟨b0, rfl, h0, rfl⟩
    · rw [if_neg h0]
      right
      cases h2 : form2 (b0 :: s) with
      | some r => exact form_two.not_ascii h2
      | none =>
        cases h3 : form3 (b0 :: s) with
        | some r => exact form_three.not_ascii h3
        | none =>
          cases h4 : form4 (b0 :: s) with
          | some r => exact form_four.not_ascii h4
          | none => exact forall_mem_singleton.2 h0

/-- The runes of a text. -/
def runesOf (s : Bytes) : List (Bytes × Bool) := runes s.length s

@[simp] theorem runesOf_nil : runesOf [] = [] := rfl

theorem runes_of_length_le {n : ℕ} (h : s.length ≤ n) : runes n s = runesOf s := by
  induction n using Nat.strong_induction_on generalizing s with
  | _ n ih =>
    rcases s with _ | ⟨b, s⟩
    · cases n <;> rfl
    · obtain ⟨n, rfl⟩ : ∃ m, n = m + 1 := ⟨n - 1, by simp at h; omega⟩
      have hw := (decodeRune_width (cons_ne_nil b s)).1
      have hlen : ((b :: s).drop (decodeRune (b :: s)).2).length ≤ s.length := by
        rw [length_drop, length_cons]
        omega
      simp only [runesOf, length_cons, runes]
      rw [length_cons] at h
      rw [ih n (by omega) (by omega), ih s.length (by omega) hlen]

theorem runesOf_of_ne_nil (hs : s ≠ []) :
    runesOf s = (s.take (decodeRune s).2, isSpace (decodeRune s).1) ::
      runesOf (s.drop (decodeRune s).2) := by
  rcases s with _ | ⟨b, s⟩
  · exact absurd rfl hs
  · have hw := (decodeRune_width hs).1
    have hlen : ((b :: s).drop (decodeRune (b :: s)).2).length ≤ s.length := by
      rw [length_drop, length_cons]
      omega
    rw [← runes_of_length_le hlen]
    rfl

variable {P : Bytes → Prop}

theorem rune_induction (nil : P [])
    (cons : ∀ s, s ≠ [] → P (s.drop (decodeRune s).2) → P s) (s : Bytes) : P s := by
  induction hn : s.length using Nat.strong_induction_on generalizing s with
  | _ n ih =>
    rcases eq_or_ne s [] with rfl | hs
    · exact nil
    · refine cons s hs (ih _ ?_ _ rfl)
      have hw := decodeRune_width hs
      rw [length_drop]
      omega

theorem flatten_runesOf (s : Bytes) : ((runesOf s).map (·.1)).flatten = s := by
  induction s using rune_induction with
  | nil => rfl
  | cons s hs ih =>
    rw [runesOf_of_ne_nil hs, map_cons, flatten_cons, ih, take_append_drop]

variable {r : Bytes × Bool}

theorem mem_runesOf (h : r ∈ runesOf s) :
    (∃ b, r = ([b], isSpace b.toNat) ∧ IsASCII b) ∨ ∀ b ∈ r.1, ¬IsASCII b := by
  induction s using rune_induction with
  | nil => cases h
  | cons s hs ih =>
    rw [runesOf_of_ne_nil hs] at h
    rcases mem_cons.1 h with rfl | h
    · rcases decodeRune_bytes hs with ⟨b, htake, hb, hr⟩ | hall
      · exact Or.inl ⟨b, by rw [htake, hr], hb⟩
      · exact Or.inr hall
    · exact ih h

theorem runesOf_append (hc : IsASCII c) (s t : Bytes) :
    runesOf (s ++ c :: t) = runesOf s ++ ([c], isSpace c.toNat) :: runesOf t := by
  induction s using rune_induction with
  | nil =>
    have hdec : decodeRune (c :: t) = (c.toNat, 1) := by
      unfold IsASCII at hc
      simp [decodeRune, hc]
    rw [nil_append, runesOf_of_ne_nil (cons_ne_nil c t), hdec]
    rfl
  | cons s hs ih =>
    have hle := (decodeRune_width hs).2
    rw [runesOf_of_ne_nil (by simp), decodeRune_append hs hc, take_append_of_le_length hle,
      drop_append_of_le_length hle, ih, runesOf_of_ne_nil hs]
    rfl

/-- The bytes of a whole number of runes decode to these runes again. -/
theorem runesOf_flatten_take (s : Bytes) (k : ℕ) :
    runesOf (((runesOf s).take k).map (·.1)).flatten = (runesOf s).take k := by
  induction k generalizing s with
  | zero => rfl
  | succ k ih =>
    rcases eq_or_ne s [] with rfl | hs
    · rfl
    · obtain ⟨hpos, hle⟩ := decodeRune_width hs
      set w := (decodeRune s).2 with hw
      set rest := (((runesOf (s.drop w)).take k).map (·.1)).flatten with hrest
      have hcons : (((runesOf s).take (k + 1)).map (·.1)).flatten = s.take w ++ rest := by
        rw [runesOf_of_ne_nil hs]
        rfl
      -- what is left of the text behind the first rune is a first part of it
      obtain ⟨m, hm⟩ : ∃ m, rest = (s.drop w).take m := by
        refine ⟨rest.length, (prefix_iff_eq_take.1 ?_)⟩
        have hpre := ( take_prefix k (runesOf (s.drop w))).map (·.1)
        have hflat := hpre.flatten
        rwa [flatten_runesOf] at hflat
      have htake : s.take w ++ rest = s.take (w + m) := by
        rw [hm, ← take_add]
      have hdec : decodeRune (s.take (w + m)) = decodeRune s := decodeRune_take (by omega)
      have hne : s.take (w + m) ≠ [] := by
        intro h
        rcases take_eq_nil_iff.1 h with h | h
        · omega
        · exact hs h
      rw [hcons, htake, runesOf_of_ne_nil hne, hdec, runesOf_of_ne_nil hs, ← hw, take_succ_cons]
      congr 1
      · rw [take_take, min_eq_left (by omega)]
      · rw [← ih (s.drop w), ← hrest, hm, drop_take]
        congr 2
        omega

theorem runesOf_flatten_drop (s : Bytes) (k : ℕ) :
    runesOf (((runesOf s).drop k).map (·.1)).flatten = (runesOf s).drop k := by
  induction k generalizing s with
  | zero => rw [drop_zero, flatten_runesOf]
  | succ k ih =>
    rcases eq_or_ne s [] with rfl | hs
    · rfl
    · rw [runesOf_of_ne_nil hs, drop_succ_cons]
      exact ih _

/-! ### Fields -/

variable {rs : List (Bytes × Bool)} {rs' : List (Bytes × Bool)}

theorem fieldsAux_spaces (h : ∀ r ∈ rs, r.2 = true) :
    fieldsAux (rs ++ rs') [] = fieldsAux rs' [] := by
  induction rs with
  | nil => rfl
  | cons r rs ih =>
    have hr : r.2 = true := h r mem_cons_self
    obtain ⟨b, sp⟩ := r
    cases hr
    exact ih fun r hr => h r (mem_cons_of_mem _ hr)

theorem fieldsAux_append_space (rs rs' : List (Bytes × Bool)) (b cur : Bytes) :
    fieldsAux (rs ++ (b, true) :: rs') cur = fieldsAux rs cur ++ fieldsAux rs' [] := by
  induction rs generalizing cur with
  | nil => by_cases h : cur = [] <;> simp [fieldsAux, h]
  | cons r rs ih =>
    obtain ⟨b', sp⟩ := r
    cases sp with
    | true => by_cases h : cur = [] <;> simp [fieldsAux, h, ih]
    | false => simp [fieldsAux, ih]

theorem fieldsAux_trailing (h : ∀ r ∈ rs', r.2 = true)
    (cur : Bytes) : fieldsAux (rs ++ rs') cur = fieldsAux rs cur := by
  rcases rs' with _ | ⟨⟨b, sp⟩, rs'⟩
  · rw [append_nil]
  · obtain rfl : sp = true := h _ mem_cons_self
    have hrest : fieldsAux (rs' ++ []) [] = fieldsAux [] [] :=
      fieldsAux_spaces fun r hr => h r (mem_cons_of_mem _ hr)
    rw [append_nil] at hrest
    rw [fieldsAux_append_space, hrest]
    exact append_nil _

theorem fields_eq (s : Bytes) : fields s = fieldsAux (runesOf s) [] := rfl

@[simp] theorem fields_nil : fields [] = [] := rfl

theorem fields_append (hc : IsASCII c) (hsp : isSpace c.toNat) (s t : Bytes) :
    fields (s ++ c :: t) = fields s ++ fields t := by
  rw [fields_eq, runesOf_append hc, hsp, fieldsAux_append_space, ← fields_eq, ← fields_eq]

theorem fields_dropCR (l : Bytes) : fields (dropCR l) = fields l := by
  unfold dropCR
  split_ifs with h
  · obtain ⟨l', rfl⟩ := getLast?_eq_some_iff.1 h
    rw [dropLast_concat, fields_append (by unfold IsASCII; decide) (by decide)]
    exact (append_nil _).symm
  · rfl

theorem runesOf_trimSpace_eq (s : Bytes) : runesOf (trimSpace s) =
    (((runesOf s).dropWhile (·.2)).reverse.dropWhile (·.2)).reverse := by
  set lead := (runesOf s).takeWhile (·.2) with hlead
  set body := (runesOf s).dropWhile (·.2) with hbody
  have hdrop : body = (runesOf s).drop lead.length := by
    rw [← takeWhile_append_dropWhile (p := (·.2)) (l := runesOf s), drop_left]
  set mid := (body.reverse.dropWhile (·.2)).reverse with hmid
  have hpre : mid <+: body := rdropWhile_prefix _ body
  have hrunes := runesOf_flatten_drop s lead.length
  rw [← hdrop] at hrunes
  have htake : mid = (runesOf (body.map (·.1)).flatten).take mid.length := by
    rw [hrunes, ← prefix_iff_eq_take]
    exact hpre
  show runesOf (mid.map (·.1)).flatten = mid
  rw [htake]
  exact runesOf_flatten_take _ _

/-- Trimming drops white space at both ends, and the rest has the same runes. -/
theorem runesOf_trimSpace (s : Bytes) : ∃ lead trail, (∀ r ∈ lead ++ trail, r.2 = true) ∧
    runesOf s = lead ++ runesOf (trimSpace s) ++ trail := by
  set body := (runesOf s).dropWhile (·.2) with hbody
  refine ⟨(runesOf s).takeWhile (·.2), (body.reverse.takeWhile (·.2)).reverse, ?_, ?_⟩
  · intro r hr
    rcases mem_append.1 hr with hr | hr
    · exact mem_takeWhile_imp hr
    · exact mem_takeWhile_imp (mem_reverse.1 hr)
  · rw [runesOf_trimSpace_eq, ← hbody, append_assoc, ← reverse_append,
      takeWhile_append_dropWhile, reverse_reverse, hbody,
      takeWhile_append_dropWhile]

theorem fields_trimSpace (s : Bytes) : fields (trimSpace s) = fields s := by
  obtain ⟨lead, trail, hsp, hrunes⟩ := runesOf_trimSpace s
  rw [fields_eq, fields_eq, hrunes, append_assoc,
    fieldsAux_spaces fun r hr => hsp r (mem_append_left _ hr),
    fieldsAux_trailing fun r hr => hsp r (mem_append_right _ hr)]

theorem mem_of_mem_trimSpace {b : UInt8} (h : b ∈ trimSpace s) : b ∈ s := by
  obtain ⟨lead, trail, -, hrunes⟩ := runesOf_trimSpace s
  rw [← flatten_runesOf s, hrunes, map_append, map_append, flatten_append,
    flatten_append, flatten_runesOf]
  exact mem_append_left _ (mem_append_right _ h)

/-- No byte of the text is ASCII white space. -/
def NoSpace (s : Bytes) : Prop := ∀ b ∈ s, IsASCII b → isSpace b.toNat = false

theorem noSpace_of_mem_runesOf (h : r ∈ runesOf s) (hr : r.2 = false) : NoSpace r.1 := by
  intro b hb hascii
  rcases mem_runesOf h with ⟨b', rfl, -⟩ | hall
  · obtain rfl := mem_singleton.1 hb
    exact hr
  · exact absurd hascii (hall b hb)

theorem mem_fieldsAux {cur f : Bytes} (h : f ∈ fieldsAux rs cur)
    (hrs : ∀ r ∈ rs, r.2 = false → NoSpace r.1) (hcur : NoSpace cur) :
    f <:+: cur ++ (rs.map (·.1)).flatten ∧ NoSpace f := by
  induction rs generalizing cur with
  | nil =>
    by_cases hc : cur = []
    · simp [fieldsAux, hc] at h
    · rw [fieldsAux, if_neg hc, mem_singleton] at h
      subst h
      exact ⟨by simp, hcur⟩
  | cons r rs ih =>
    obtain ⟨b, sp⟩ := r
    have hrest : ∀ r ∈ rs, r.2 = false → NoSpace r.1 :=
      fun r hr => hrs r (mem_cons_of_mem _ hr)
    have hnil : NoSpace [] := fun b hb => absurd hb not_mem_nil
    cases sp with
    | false =>
      have hb : NoSpace (cur ++ b) := by
        intro c hc
        rcases mem_append.1 hc with hc | hc
        · exact hcur c hc
        · exact hrs _ mem_cons_self rfl c hc
      obtain ⟨hinf, hf⟩ := ih h hrest hb
      exact ⟨by simpa using hinf, hf⟩
    | true =>
      have hback : f ∈ fieldsAux rs [] → f <:+: cur ++ (((b, true) :: rs).map (·.1)).flatten ∧
          NoSpace f := by
        intro hf
        obtain ⟨hinf, hno⟩ := ih hf hrest hnil
        refine ⟨hinf.trans ?_, hno⟩
        simp only [nil_append, map_cons, flatten_cons, ← append_assoc]
        exact (suffix_append _ _).isInfix
      by_cases hc : cur = []
      · rw [fieldsAux, if_pos rfl, if_pos hc] at h
        exact hback h
      · rw [fieldsAux, if_pos rfl, if_neg hc] at h
        rcases mem_cons.1 h with rfl | h
        · exact ⟨(prefix_append _ _).isInfix, hcur⟩
        · exact hback h

theorem mem_fields {f : Bytes} (h : f ∈ fields s) : f <:+: s ∧ NoSpace f := by
  have hmem := mem_fieldsAux h (fun r hr => noSpace_of_mem_runesOf hr)
    fun b hb => absurd hb not_mem_nil
  rwa [nil_append, ← runesOf, flatten_runesOf] at hmem

/-- A text of ASCII characters without white space. -/
def IsToken (s : Bytes) : Prop := ∀ b ∈ s, IsASCII b ∧ isSpace b.toNat = false

theorem fieldsAux_token {tok : Bytes} (h : IsToken tok) (t cur : Bytes) :
    fieldsAux (runesOf (tok ++ t)) cur = fieldsAux (runesOf t) (cur ++ tok) := by
  induction tok generalizing cur with
  | nil => rw [nil_append, append_nil]
  | cons b tok ih =>
    obtain ⟨hb, hsp⟩ := h b mem_cons_self
    have hrunes := runesOf_append hb [] (tok ++ t)
    rw [nil_append, runesOf_nil, nil_append, hsp] at hrunes
    rw [cons_append, hrunes, fieldsAux, if_neg (by decide),
      ih fun b hb => h b (mem_cons_of_mem _ hb), append_assoc, singleton_append]

theorem fields_token {tok : Bytes} (h : IsToken tok) (hne : tok ≠ []) : fields tok = [tok] := by
  have haux := fieldsAux_token h [] []
  rw [append_nil, nil_append] at haux
  rw [fields_eq, haux, runesOf_nil, fieldsAux, if_neg hne]

theorem fieldsAux_head (rs : List (Bytes × Bool)) {cur : Bytes} (hcur : cur ≠ []) :
    ∃ f fs, fieldsAux rs cur = (cur ++ f) :: fs := by
  induction rs generalizing cur with
  | nil => exact ⟨[], [], by rw [fieldsAux, if_neg hcur, append_nil]⟩
  | cons r rs ih =>
    obtain ⟨b, sp⟩ := r
    cases sp with
    | true => exact ⟨[], _, by rw [fieldsAux, if_pos rfl, if_neg hcur, append_nil]⟩
    | false =>
      have hcur' : cur ++ b ≠ [] := by simp [hcur]
      obtain ⟨f, fs, hf⟩ := ih hcur'
      exact ⟨b ++ f, fs, by rw [fieldsAux, if_neg (by decide), hf, append_assoc]⟩

theorem ne_nil_of_mem_fieldsAux {rs : List (Bytes × Bool)} {cur f : Bytes}
    (h : f ∈ fieldsAux rs cur) : f ≠ [] := by
  induction rs generalizing cur with
  | nil =>
    rw [fieldsAux] at h
    split_ifs at h with hcur
    · cases h
    · exact mem_singleton.1 h ▸ hcur
  | cons r rs ih =>
    rw [fieldsAux] at h
    split_ifs at h with hsp hcur
    · exact ih h
    · rcases mem_cons.1 h with rfl | h
      · exact hcur
      · exact ih h
    · exact ih h

theorem ne_nil_of_mem_fields {f : Bytes} (h : f ∈ fields s) : f ≠ [] := ne_nil_of_mem_fieldsAux h

theorem fields_cons (hc : IsASCII c) (hsp : isSpace c.toNat = false) (t : Bytes) :
    ∃ f fs, fields (c :: t) = (c :: f) :: fs := by
  have hc' : IsToken [c] := by simpa [IsToken] using ⟨hc, hsp⟩
  have haux := fieldsAux_token hc' t []
  rw [singleton_append, nil_append] at haux
  rw [fields_eq, haux]
  exact fieldsAux_head _ (cons_ne_nil c [])

/-! ### Texts without white space -/

/-- No character of the text is white space. -/
def SpaceFree (s : Bytes) : Prop := ∀ r ∈ runesOf s, r.2 = false

instance (s : Bytes) : Decidable (SpaceFree s) :=
  inferInstanceAs (Decidable (∀ r ∈ runesOf s, r.2 = false))

theorem IsToken.spaceFree (h : IsToken s) : SpaceFree s := by
  induction s with
  | nil => exact nofun
  | cons b s ih =>
    obtain ⟨hb, hsp⟩ := h b mem_cons_self
    have hrunes := runesOf_append hb [] s
    rw [nil_append, runesOf_nil, nil_append] at hrunes
    intro r hr
    rw [hrunes] at hr
    rcases mem_cons.1 hr with rfl | hr
    · exact hsp
    · exact ih (fun c hc => h c (mem_cons_of_mem _ hc)) r hr

theorem fieldsAux_spaceFree (h : ∀ r ∈ rs, r.2 = false) (cur : Bytes)
    (hne : cur ++ (rs.map (·.1)).flatten ≠ []) :
    fieldsAux rs cur = [cur ++ (rs.map (·.1)).flatten] := by
  induction rs generalizing cur with
  | nil =>
    rw [map_nil, flatten_nil, append_nil] at hne ⊢
    rw [fieldsAux, if_neg hne]
  | cons r rs ih =>
    obtain ⟨b, sp⟩ := r
    obtain rfl : sp = false := h _ mem_cons_self
    rw [map_cons, flatten_cons, ← append_assoc] at hne ⊢
    exact ih (fun r hr => h r (mem_cons_of_mem _ hr)) _ hne

theorem fields_spaceFree (h : SpaceFree s) (hne : s ≠ []) : fields s = [s] := by
  have haux := fieldsAux_spaceFree h []
  rw [nil_append, flatten_runesOf] at haux
  rw [fields_eq, haux hne]

theorem SpaceFree.notMem (h : SpaceFree s) (hc : IsASCII c)
    (hsp : isSpace c.toNat = true) : c ∉ s := by
  intro hmem
  obtain ⟨a, b, rfl⟩ := append_of_mem hmem
  have hr := h ([c], isSpace c.toNat) (by rw [runesOf_append hc]; simp)
  exact absurd (hsp.symm.trans hr) (by decide)

/-! ### Lines -/

/-- The lines of a text. -/
def lines (s : Bytes) : List Bytes := s.splitOn nl

theorem lines_append (s t : Bytes) : lines (s ++ nl :: t) = lines s ++ lines t :=
  splitOn_append_cons_self s t

theorem lines_of_not_mem (h : nl ∉ s) : lines s = [s] := splitOn_eq_singleton h

theorem cutLine_spec (s : Bytes) : nl ∉ (cutLine s).1 ∧
    s = (cutLine s).1 ++ match (cutLine s).2 with
      | some r => nl :: r
      | none => [] := by
  induction s with
  | nil => simp [cutLine]
  | cons b s ih =>
    by_cases hb : b = nl
    · simp [cutLine, hb]
    · rw [cutLine, if_neg hb]
      refine ⟨?_, ?_⟩
      · intro h
        rcases mem_cons.1 h with h | h
        · exact hb h.symm
        · exact ih.1 h
      · exact congrArg (b :: ·) ih.2

variable {l : Bytes}

theorem cutLine_append (h : nl ∉ l) (r : Bytes) : cutLine (l ++ nl :: r) = (l, some r) := by
  induction l with
  | nil => simp [cutLine]
  | cons b l ih =>
    have hb : b ≠ nl := fun hb => h (hb ▸ mem_cons_self)
    rw [cons_append, cutLine, if_neg hb, ih fun hl => h (mem_cons_of_mem _ hl)]

theorem cutLine_length_lt {r : Bytes} (h : (cutLine s).2 = some r) : r.length < s.length := by
  have hs := congrArg length (cutLine_spec s).2
  rw [h, length_append, length_cons] at hs
  omega

theorem scanLinesAux_succ (hs : s ≠ []) (n : ℕ) :
    scanLinesAux (n + 1) s =
      if maxScanTokenSize ≤ (cutLine s).1.length then ([], true)
      else match (cutLine s).2 with
        | none => ([dropCR (cutLine s).1], false)
        | some r => (dropCR (cutLine s).1 :: (scanLinesAux n r).1, (scanLinesAux n r).2) := by
  cases s with
  | nil => exact absurd rfl hs
  | cons b s => rfl

theorem scanLinesAux_of_length_le {n : ℕ} (h : s.length ≤ n) : scanLinesAux n s = scanLines s := by
  induction n using Nat.strong_induction_on generalizing s with
  | _ n ih =>
    rcases eq_or_ne s [] with rfl | hs
    · cases n <;> rfl
    · have hpos := length_pos_of_ne_nil hs
      obtain ⟨n, rfl⟩ : ∃ m, n = m + 1 := ⟨n - 1, by omega⟩
      obtain ⟨k, hk⟩ : ∃ k, s.length = k + 1 := ⟨s.length - 1, by omega⟩
      rw [scanLines, hk, scanLinesAux_succ hs, scanLinesAux_succ hs]
      cases hrest : (cutLine s).2 with
      | none => rfl
      | some r =>
        have hlt := cutLine_length_lt hrest
        dsimp only
        rw [ih n (by omega) (by omega), ih k (by omega) (by omega)]

/-- A scanner reads the first line, unless it does not fit the buffer, and then the others. -/
theorem scanLines_append (h : nl ∉ l) (r : Bytes) :
    scanLines (l ++ nl :: r) =
      if maxScanTokenSize ≤ l.length then ([], true)
      else (dropCR l :: (scanLines r).1, (scanLines r).2) := by
  have hlen : (l ++ nl :: r).length ≤ l.length + r.length + 1 := by simp; omega
  rw [← scanLinesAux_of_length_le hlen, scanLinesAux_succ (by simp), cutLine_append h]
  dsimp only
  rw [scanLinesAux_of_length_le (Nat.le_add_left _ _)]

theorem line_induction (last : ∀ l, nl ∉ l → P l)
    (cons : ∀ l r, nl ∉ l → P r → P (l ++ nl :: r)) (s : Bytes) : P s := by
  induction hn : s.length using Nat.strong_induction_on generalizing s with
  | _ n ih =>
    subst hn
    obtain ⟨hmem, hs⟩ := cutLine_spec s
    cases hrest : (cutLine s).2 with
    | none =>
      rw [hrest, append_nil] at hs
      exact last s (hs ▸ hmem)
    | some r =>
      have hlt := cutLine_length_lt hrest
      rw [hrest] at hs
      exact hs ▸ cons _ r hmem (ih r.length hlt r rfl)

theorem cutLine_of_not_mem (h : nl ∉ l) : cutLine l = (l, none) := by
  induction l with
  | nil => rfl
  | cons b l ih =>
    have hb : b ≠ nl := fun hb => h (hb ▸ mem_cons_self)
    rw [cutLine, if_neg hb, ih fun hl => h (mem_cons_of_mem _ hl)]

/-- The lines read are lines of the text, up to a trailing carriage return. -/
theorem scanLines_sublist (s : Bytes) : (scanLines s).1.Sublist ((lines s).map dropCR) := by
  induction s using line_induction with
  | last l hl =>
    rcases eq_or_ne l [] with rfl | hne
    · exact nil_sublist _
    · rw [lines_of_not_mem hl, ← scanLinesAux_of_length_le (Nat.le_succ _), scanLinesAux_succ hne,
        cutLine_of_not_mem hl]
      split_ifs
      · exact nil_sublist _
      · exact Sublist.refl _
  | cons l r hl ih =>
    rw [scanLines_append hl, lines_append, lines_of_not_mem hl]
    split_ifs
    · exact nil_sublist _
    · exact ih.cons_cons _

theorem mem_lines (h : l ∈ lines s) : nl ∉ l ∧ l <:+: s := by
  induction s using line_induction with
  | last l' hl =>
    rw [lines_of_not_mem hl, mem_singleton] at h
    subst h
    exact ⟨hl, infix_rfl⟩
  | cons l' r hl ih =>
    rw [lines_append, lines_of_not_mem hl, singleton_append] at h
    rcases mem_cons.1 h with rfl | h
    · exact ⟨hl, (prefix_append _ _).isInfix⟩
    · obtain ⟨hno, hinf⟩ := ih h
      exact ⟨hno, hinf.trans ((suffix_cons nl r).trans (suffix_append _ _)).isInfix⟩

/-- A stretch without the separator lies on one side of it. -/
theorem infix_of_not_mem {w : Bytes} (h : w <:+: s ++ c :: t) (hc : c ∉ w) :
    w <:+: s ∨ w <:+: t := by
  obtain ⟨pre, post, heq⟩ := h
  rcases append_eq_append_iff.1 heq with ⟨a', hs, -⟩ | ⟨c', hs, ht⟩
  · exact Or.inl ⟨pre, a', hs.symm⟩
  · rcases c' with _ | ⟨c₀, c'⟩
    · rw [append_nil] at hs
      exact Or.inl ⟨pre, [], by rw [append_nil, hs]⟩
    · rw [cons_append] at ht
      obtain ⟨rfl, rfl⟩ := cons.inj ht
      rcases append_eq_append_iff.1 hs with ⟨a', -, hw⟩ | ⟨b', -, hb⟩
      · exact absurd (hw ▸ mem_append_right _ mem_cons_self) hc
      · rcases b' with _ | ⟨b₀, b'⟩
        · rw [nil_append] at hb
          exact absurd (hb ▸ mem_cons_self) hc
        · rw [cons_append] at hb
          exact Or.inr ⟨b', post, by rw [(cons.inj hb).2]⟩

theorem not_mem_of_mem_scanLines (h : l ∈ (scanLines s).1) : nl ∉ l := by
  obtain ⟨l', hl', rfl⟩ := mem_map.1 ((scanLines_sublist s).subset h)
  have hno := (mem_lines hl').1
  unfold dropCR
  split_ifs
  · exact fun hmem => hno (mem_of_mem_dropLast hmem)
  · exact hno

/-! ### Texts made of lines -/

@[simp] theorem unlines_nil : unlines [] = [] := rfl

theorem unlines_cons (l : Bytes) (ls : List Bytes) : unlines (l :: ls) = l ++ nl :: unlines ls := by
  simp [unlines]

theorem unlines_append (ls ls' : List Bytes) :
    unlines (ls ++ ls') = unlines ls ++ unlines ls' := flatMap_append

variable {ls : List Bytes}

section

variable (h : ∀ l ∈ ls, nl ∉ l ∧ l.length < maxScanTokenSize)
include h

/-- Lines that fit the buffer are read, and then what follows them. -/
theorem scanLines_unlines_append (t : Bytes) :
    scanLines (unlines ls ++ t) = (ls.map dropCR ++ (scanLines t).1, (scanLines t).2) := by
  induction ls with
  | nil => rfl
  | cons l ls ih =>
    obtain ⟨hnl, hlen⟩ := h l mem_cons_self
    rw [unlines_cons, append_assoc, cons_append, scanLines_append hnl,
      if_neg (by omega), ih fun l hl => h l (mem_cons_of_mem _ hl)]
    rfl

/-- A scanner reads back lines that fit its buffer, up to carriage returns. -/
theorem scanLines_unlines_fit : scanLines (unlines ls) = (ls.map dropCR, false) := by
  have hscan := scanLines_unlines_append h []
  rw [append_nil] at hscan
  rw [hscan, show scanLines [] = ([], false) from rfl, append_nil]

end

/-- Lines that a search has no answer for can be left out. -/
theorem findSome?_filter {α β : Type} {p : α → Bool} {g : α → Option β}
    (h : ∀ a, p a = false → g a = none) (xs : List α) :
    (xs.filter p).findSome? g = xs.findSome? g := by
  induction xs with
  | nil => rfl
  | cons a xs ih =>
    cases hp : p a with
    | true => rw [filter_cons_of_pos hp, findSome?_cons, findSome?_cons, ih]
    | false => rw [filter_cons_of_neg (by rw [hp]; decide), findSome?_cons, h a hp, ih]

theorem dropCR_of_notMem (h : cr ∉ l) : dropCR l = l := by
  rw [dropCR, if_neg]
  exact fun hlast => h (mem_of_getLast? hlast)

theorem scanLines_unlines_short (h : ∀ l ∈ ls, nl ∉ l ∧ cr ∉ l ∧ l.length < maxScanTokenSize) :
    scanLines (unlines ls) = (ls, false) := by
  rw [scanLines_unlines_fit fun l hl => ⟨(h l hl).1, (h l hl).2.2⟩,
    map_congr_left fun l hl => dropCR_of_notMem (h l hl).2.1, map_id']

end Go

end BuddyNet
