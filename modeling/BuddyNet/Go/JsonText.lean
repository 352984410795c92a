import BuddyNet.Go.Json
import BuddyNet.Go.Lines

/-!
# The size of what `encoding/json` decodes

Reading a text never produces more ASCII characters than the text has bytes: an escape or a rune
takes at least one byte and stands for at most one ASCII character, and what is not ASCII (the
replacement character among it) does not count. `members_size` says this of all members of an
object together, whatever escapes, white space or nesting the text has.
-/

namespace BuddyNet.Go

open List

/-- The number of ASCII bytes of a text. -/
def asciiLen (s : Bytes) : ℕ := s.countP (·.toNat < 0x80)

@[simp] theorem asciiLen_nil : asciiLen [] = 0 := rfl

@[simp] theorem asciiLen_append (s t : Bytes) : asciiLen (s ++ t) = asciiLen s + asciiLen t :=
  countP_append

theorem asciiLen_eq_length {s : Bytes} (h : ∀ c ∈ s, c.toNat < 0x80) : asciiLen s = s.length :=
  countP_eq_length.2 fun c hc => by simpa using h c hc

theorem asciiLen_encodeRune_le (r : ℕ) : asciiLen (encodeRune r) ≤ 1 := by
  unfold encodeRune
  generalize (if 0x10FFFF < r || (0xD800 ≤ r && r ≤ 0xDFFF) then runeError else r) = q
  dsimp only
  split_ifs with h1 h2 h3
  · exact countP_le_length
  all_goals
    simp only [asciiLen, countP_cons, countP_nil, Nat.toUInt8, UInt8.toNat_ofNat',
      decide_eq_true_eq]
    split_ifs <;> omega

namespace Json

/-! ### Strings -/

variable {s rest : Bytes}

theorem hex4_length {v : ℕ} (h : hex4 s = some (v, rest)) : s.length = rest.length + 4 := by
  rcases s with _ | ⟨a, _ | ⟨b, _ | ⟨c, _ | ⟨d, s⟩⟩⟩⟩ <;> simp only [hex4] at h
  all_goals try cases h
  simp only [Option.bind_eq_bind, Option.bind_eq_some_iff] at h
  obtain ⟨_, -, _, -, _, -, _, -, h⟩ := h
  cases h
  rfl

theorem lowSurrogate_length {v : ℕ} (h : lowSurrogate s = some (v, rest)) :
    rest.length ≤ s.length := by
  unfold lowSurrogate at h
  split at h
  · next s' =>
    obtain ⟨⟨r, rest'⟩, hhex, h⟩ := Option.bind_eq_some_iff.1 h
    dsimp only at h
    split_ifs at h
    cases h
    have := hex4_length hhex
    simp only [length_cons]
    omega
  · cases h

theorem escape_size {b : Bytes} (h : escape s = some (b, rest)) :
    asciiLen b ≤ 1 ∧ rest.length < s.length := by
  rcases s with _ | ⟨c, s⟩
  · cases h
  · simp only [escape] at h
    split_ifs at h
    · obtain ⟨⟨r, rest1⟩, hhex, h⟩ := Option.bind_eq_some_iff.1 h
      have hlen := hex4_length hhex
      dsimp only at h
      split_ifs at h
      · split at h
        · next r' rest2 hlow =>
          have := lowSurrogate_length hlow
          obtain ⟨rfl, rfl⟩ := Prod.mk.inj (Option.some.inj h)
          exact ⟨asciiLen_encodeRune_le _, by simp only [length_cons]; omega⟩
        · cases h
          exact ⟨asciiLen_encodeRune_le _, by simp only [length_cons]; omega⟩
      · cases h
        exact ⟨asciiLen_encodeRune_le _, by simp only [length_cons]; omega⟩
    · obtain ⟨b', -, hb'⟩ := Option.map_eq_some_iff.1 h
      cases hb'
      exact ⟨countP_le_length, by simp⟩

variable {fuel : ℕ}

/-- A string takes its closing quote and at least a byte for each ASCII character. -/
theorem stringBody_size {d : Bytes}
    (h : stringBody fuel s = some (d, rest)) : asciiLen d + rest.length < s.length := by
  induction fuel generalizing s d rest with
  | zero => cases h
  | succ fuel ih =>
    rcases s with _ | ⟨c, s⟩
    · cases h
    · simp only [stringBody] at h
      split_ifs at h
      · cases h
        simp
      · obtain ⟨⟨b, rest1⟩, hesc, h⟩ := Option.bind_eq_some_iff.1 h
        obtain ⟨⟨d', rest2⟩, hbody, h⟩ := Option.bind_eq_some_iff.1 h
        cases h
        have hsize := escape_size hesc
        have hrest : asciiLen d' + rest2.length < rest1.length := ih hbody
        simp only [asciiLen_append, length_cons]
        omega
      · obtain ⟨⟨d', rest2⟩, hbody, h⟩ := Option.bind_eq_some_iff.1 h
        cases h
        have hw := decodeRune_width (cons_ne_nil c s)
        have hrune := asciiLen_encodeRune_le (decodeRune (c :: s)).1
        have := ih hbody
        rw [length_drop] at this
        simp only [asciiLen_append, length_cons] at hw this ⊢
        omega

/-! ### Numbers and keywords -/

theorem skipWs_length (s : Bytes) : (skipWs s).length ≤ s.length := length_dropWhile_le _ _

variable {ds : Bytes}

theorem digits1_length (h : digits1 s = some (ds, rest)) : rest.length ≤ s.length := by
  unfold digits1 at h
  rw [span_eq_takeWhile_dropWhile] at h
  split at h
  · cases h
  · next heq =>
    cases h
    rw [← (Prod.mk.inj heq).2]
    exact length_dropWhile_le _ _

theorem intPart_length (h : intPart s = some (ds, rest)) : rest.length ≤ s.length := by
  rcases s with _ | ⟨c, s⟩
  · cases h
  · simp only [intPart] at h
    split_ifs at h
    · cases h
      simp
    · exact digits1_length h

theorem fracPart_length (h : fracPart s = some (ds, rest)) : rest.length ≤ s.length := by
  unfold fracPart at h
  split at h
  · obtain ⟨⟨ds', rest'⟩, hd, h⟩ := Option.map_eq_some_iff.1 h
    cases h
    exact (digits1_length hd).trans (by simp)
  · cases h
    exact le_rfl

theorem expPart_length (h : expPart s = some (ds, rest)) : rest.length ≤ s.length := by
  rcases s with _ | ⟨c, s⟩
  · cases h
    exact le_rfl
  · simp only [expPart] at h
    split_ifs at h
    · rcases s with _ | ⟨g, s⟩
      · cases h
      · dsimp only at h
        split_ifs at h <;> obtain ⟨⟨ds', rest'⟩, hd, h⟩ := Option.map_eq_some_iff.1 h <;>
          cases h <;> have := digits1_length hd <;> simp only [length_cons] at * <;> omega
    · cases h
      exact le_rfl

theorem number_length (h : number s = some (ds, rest)) : rest.length ≤ s.length := by
  have hsign : (if s.head? = some 45 then ([45], s.tail) else (([] : Bytes), s)).2.length ≤
      s.length := by
    split_ifs <;> simp
  obtain ⟨⟨i, s2⟩, hi, h⟩ := Option.bind_eq_some_iff.1 h
  obtain ⟨⟨f, s3⟩, hf, h⟩ := Option.bind_eq_some_iff.1 h
  obtain ⟨⟨e, s4⟩, he, h⟩ := Option.bind_eq_some_iff.1 h
  cases h
  exact (expPart_length he).trans ((fracPart_length hf).trans ((intPart_length hi).trans hsign))

theorem keyword_length {w : Bytes} (h : keyword w s = some rest) : rest.length ≤ s.length := by
  unfold keyword at h
  split_ifs at h
  cases h
  simp

/-! ### Values -/

/-- The ASCII characters of a string value. -/
def textLen : Json → ℕ
  | str s => asciiLen s
  | _ => 0

/-- The ASCII characters of the string values of an object. -/
def membersLen (ms : List (Bytes × Json)) : ℕ := (ms.map fun m => textLen m.2).sum

/-- The ASCII characters of a value and, one level down, of an object's values. -/
def outerLen : Json → ℕ
  | obj ms => membersLen ms
  | v => textLen v

theorem textLen_le_outerLen (v : Json) : textLen v ≤ outerLen v := by
  cases v <;> simp [textLen, outerLen]

/-- What reading one value, the elements of an array and the members of an object leaves. -/
structure Sized (fuel : ℕ) : Prop where
  value : ∀ {depth s v rest}, value fuel depth s = some (v, rest) →
    outerLen v + rest.length ≤ s.length
  elements : ∀ {depth s vs rest}, elements fuel depth s = some (vs, rest) →
    rest.length ≤ s.length
  members : ∀ {depth s ms rest}, members fuel depth s = some (ms, rest) →
    membersLen ms + rest.length ≤ s.length

variable {depth : ℕ} {v : Json}

theorem Sized.value_succ (ih : Sized fuel) (h : Json.value (fuel + 1) depth s = some (v, rest)) :
    outerLen v + rest.length ≤ s.length := by
  have hws := skipWs_length s
  rw [Json.value] at h
  rcases hs : skipWs s with _ | ⟨c, s'⟩ <;> rw [hs] at h hws
  · cases h
  · rw [length_cons] at hws
    have hws' := skipWs_length s'
    dsimp only at h
    split_ifs at h
    · obtain ⟨⟨d, rest'⟩, hbody, h⟩ := Option.map_eq_some_iff.1 h
      cases h
      have := stringBody_size hbody
      simp only [outerLen, textLen]
      omega
    · split at h
      · next rest' hclose =>
        cases h
        rw [hclose, length_cons] at hws'
        simp only [outerLen, membersLen, map_nil, sum_nil]
        omega
      · obtain ⟨⟨ms, rest'⟩, hms, h⟩ := Option.map_eq_some_iff.1 h
        cases h
        have := ih.members hms
        simp only [outerLen]
        omega
    · split at h
      · next rest' hclose =>
        cases h
        rw [hclose, length_cons] at hws'
        simp only [outerLen, textLen]
        omega
      · obtain ⟨⟨vs, rest'⟩, hvs, h⟩ := Option.map_eq_some_iff.1 h
        cases h
        have := ih.elements hvs
        simp only [outerLen, textLen]
        omega
    all_goals
      obtain ⟨r, hr, h⟩ := Option.map_eq_some_iff.1 h
      cases h
      first
        | have := keyword_length hr
        | have := number_length hr
      simp only [outerLen, textLen, length_cons] at *
      omega

variable {vs : List Json}

theorem Sized.elements_succ (ih : Sized fuel)
    (h : Json.elements (fuel + 1) depth s = some (vs, rest)) : rest.length ≤ s.length := by
  obtain ⟨⟨v, rest1⟩, hv, h⟩ := Option.bind_eq_some_iff.1 h
  have hval : outerLen v + rest1.length ≤ s.length := ih.value hv
  have hws := skipWs_length rest1
  dsimp only at h
  split at h
  · next rest2 hcomma =>
    obtain ⟨⟨vs', rest3⟩, hvs, h⟩ := Option.bind_eq_some_iff.1 h
    cases h
    have hmore : rest3.length ≤ rest2.length := ih.elements hvs
    rw [hcomma, length_cons] at hws
    show rest3.length ≤ s.length
    omega
  · next rest2 hclose =>
    cases h
    rw [hclose, length_cons] at hws
    omega
  · cases h

variable {ms : List (Bytes × Json)}

theorem Sized.members_succ (ih : Sized fuel)
    (h : Json.members (fuel + 1) depth s = some (ms, rest)) :
    membersLen ms + rest.length ≤ s.length := by
  have hws := skipWs_length s
  rw [Json.members] at h
  split at h
  · next body hquote =>
    rw [hquote, length_cons] at hws
    obtain ⟨⟨k, rest1⟩, hk, h⟩ := Option.bind_eq_some_iff.1 h
    have hkey : asciiLen k + rest1.length < body.length := stringBody_size hk
    have hws1 := skipWs_length rest1
    dsimp only at h
    split at h
    · next rest2 hcolon =>
      rw [hcolon, length_cons] at hws1
      obtain ⟨⟨v, rest3⟩, hv, h⟩ := Option.bind_eq_some_iff.1 h
      have hval : outerLen v + rest3.length ≤ rest2.length := ih.value hv
      have htext := textLen_le_outerLen v
      have hws3 := skipWs_length rest3
      split at h
      · next rest4 hcomma =>
        rw [hcomma, length_cons] at hws3
        obtain ⟨⟨kvs, rest5⟩, hkvs, h⟩ := Option.bind_eq_some_iff.1 h
        cases h
        have := ih.members hkvs
        simp only [membersLen, map_cons, sum_cons] at this ⊢
        omega
      · next rest4 hclose =>
        rw [hclose, length_cons] at hws3
        cases h
        simp only [membersLen, map_cons, map_nil, sum_cons, sum_nil]
        omega
      · cases h
    · cases h
  · cases h

theorem sized (fuel : ℕ) : Sized fuel := by
  induction fuel with
  | zero =>
    refine ⟨fun {_ _ _ _} h => ?_, fun {_ _ _ _} h => ?_, fun {_ _ _ _} h => ?_⟩
    · simp [Json.value] at h
    · simp [Json.elements] at h
    · simp [Json.members] at h
  | succ fuel ih => exact ⟨ih.value_succ, ih.elements_succ, ih.members_succ⟩

/-- **The string values of an object together have no more ASCII characters than its text has
bytes.** -/
theorem members_size (h : parse s = some v)
    (hms : structMembers v = some ms) : membersLen ms ≤ s.length := by
  obtain ⟨⟨v', rest⟩, hv, h⟩ := Option.bind_eq_some_iff.1 h
  dsimp only at h
  split_ifs at h
  cases h
  have hsize := (sized _).value hv
  cases v with
  | obj ms' =>
    cases hms
    simp only [outerLen] at hsize
    omega
  | null =>
    cases hms
    simp [membersLen]
  | _ => cases hms

/-! ### Struct fields -/

/-- What a fold keeps is what it started with or the text of one of the values. -/
theorem mem_of_foldlM {g : Bytes → Json → Option Bytes}
    (hg : ∀ cur v d, g cur v = some d → d = cur ∨ v = str d) {ws : List Json} {cur : Bytes}
    (h : ws.foldlM g cur = some s) : s = cur ∨ str s ∈ ws := by
  induction ws generalizing cur with
  | nil => exact Or.inl (Option.some.inj h).symm
  | cons v ws ih =>
    obtain ⟨d, hd, h⟩ := Option.bind_eq_some_iff.1 h
    rcases ih h with rfl | hmem
    · rcases hg cur v s hd with rfl | rfl
      · exact Or.inl rfl
      · exact Or.inr mem_cons_self
    · exact Or.inr (mem_cons_of_mem _ hmem)

theorem mem_of_stringField (h : stringField vs = some s) : s = [] ∨ str s ∈ vs := by
  -- the text held so far is empty or came from an earlier value
  refine mem_of_foldlM (fun cur v d hd => ?_) h
  cases v with
  | null => exact Or.inl (Option.some.inj hd).symm
  | str e => exact Or.inr (congrArg str (Option.some.inj hd))
  | _ => cases hd

variable {fieldNames : List Bytes}

theorem mem_valuesOf {f : Bytes}
    (h : v ∈ valuesOf fieldNames ms f) : ∃ k, (k, v) ∈ ms ∧ resolve fieldNames k = some f := by
  obtain ⟨m, hm, hv⟩ := mem_filterMap.1 h
  split_ifs at hv with hk
  cases hv
  exact ⟨m.1, hm, hk⟩

theorem membersLen_mem {m : Bytes × Json} (h : m ∈ ms) : textLen m.2 ≤ membersLen ms :=
  le_sum_of_mem (mem_map_of_mem h)

theorem membersLen_pair {m m' : Bytes × Json} (h : m ∈ ms)
    (h' : m' ∈ ms) (hne : m.1 ≠ m'.1) : textLen m.2 + textLen m'.2 ≤ membersLen ms := by
  induction ms with
  | nil => cases h
  | cons a ms ih =>
    have hcons : membersLen (a :: ms) = textLen a.2 + membersLen ms := by
      simp [membersLen]
    rcases mem_cons.1 h with rfl | hm <;> rcases mem_cons.1 h' with rfl | hm'
    · exact absurd rfl hne
    · have := membersLen_mem hm'
      omega
    · have := membersLen_mem hm
      omega
    · have := ih hm hm'
      omega

/-- **Two string fields of a struct together have no more ASCII characters than the text they were
decoded from has bytes.** -/
theorem stringFields_size {body : Bytes} {f f' s' : Bytes} (h : parse body = some v)
    (hms : structMembers v = some ms) (hf : f ≠ f')
    (hs : stringField (valuesOf fieldNames ms f) = some s)
    (hs' : stringField (valuesOf fieldNames ms f') = some s') :
    asciiLen s + asciiLen s' ≤ body.length := by
  have hsize := members_size h hms
  rcases mem_of_stringField hs with rfl | hmem <;> rcases mem_of_stringField hs' with rfl | hmem'
  · simp
  · obtain ⟨k', hk', -⟩ := mem_valuesOf hmem'
    have : asciiLen s' ≤ membersLen ms := membersLen_mem hk'
    simp only [asciiLen_nil]
    omega
  · obtain ⟨k, hk, -⟩ := mem_valuesOf hmem
    have : asciiLen s ≤ membersLen ms := membersLen_mem hk
    simp only [asciiLen_nil]
    omega
  · obtain ⟨k, hk, hres⟩ := mem_valuesOf hmem
    obtain ⟨k', hk', hres'⟩ := mem_valuesOf hmem'
    have hne : k ≠ k' := by
      rintro rfl
      exact hf (Option.some.inj (hres.symm.trans hres'))
    have : asciiLen s + asciiLen s' ≤ membersLen ms := membersLen_pair hk hk' hne
    omega

/-! ### Writing plain text -/

/-- A character that `quote` writes as it is. -/
def Plain (c : UInt8) : Prop :=
  0x20 ≤ c.toNat ∧ c.toNat < 0x80 ∧ c ≠ 34 ∧ c ≠ 92 ∧ c ≠ 60 ∧ c ≠ 62 ∧ c ≠ 38

theorem Plain.quoteByte {c : UInt8} (h : Plain c) : quoteByte c = [c] := by
  obtain ⟨hlow, -, hq, hb, hlt, hgt, hamp⟩ := h
  have hne : ∀ d : UInt8, d.toNat < 0x20 → c ≠ d := fun d hd hcd => by
    rw [hcd] at hlow
    omega
  simp [Json.quoteByte, hq, hb, hlt, hgt, hamp, hne 8 (by decide), hne 12 (by decide),
    hne 10 (by decide), hne 13 (by decide), hne 9 (by decide), not_lt.2 hlow]

theorem quote_plain (h : ∀ c ∈ s, Plain c) : quote s = [34] ++ s ++ [34] := by
  have hbody : (runesOf s).flatMap (fun p => quoteRune p.1) = s := by
    induction s with
    | nil => rfl
    | cons c s ih =>
      have hc := h c mem_cons_self
      rw [show runesOf (c :: s) = ([c], isSpace c.toNat) :: runesOf s from
        runesOf_append hc.2.1 [] s, flatMap_cons, ih fun d hd => h d
          (mem_cons_of_mem c hd)]
      simp [quoteRune, hc.2.1, hc.quoteByte]
  show [34] ++ (runesOf s).flatMap (fun p => quoteRune p.1) ++ [34] = _
  rw [hbody]

end Json

end BuddyNet.Go
