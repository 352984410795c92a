import BuddyNet.Go.Text

/-!
# `encoding/base64`

The decoder of the Go standard library as it is: carriage returns and newlines are ignored
anywhere in the input, the unused low bits of a final partial quantum are not looked at, and a
padded encoding wants exactly the padding its last quantum needs. Several strings therefore
decode to the same bytes; `encode` picks one of them, and `decode_encode` says that it is one.

An `Encoding` is given by its two special characters and whether it pads.
-/

namespace BuddyNet

open List

/-- An `*base64.Encoding`: the characters for 62 and 63, and whether `=` pads the last quantum. -/
structure Encoding where
  char62 : UInt8
  char63 : UInt8
  padded : Bool
  deriving DecidableEq

/-- `base64.StdEncoding`. -/
def stdEncoding : Encoding := ⟨43, 47, true⟩

/-- `base64.RawURLEncoding`. -/
def rawURLEncoding : Encoding := ⟨45, 95, false⟩

/-- The padding character. -/
def padChar : UInt8 := 61

namespace Encoding

variable (enc : Encoding)

/-- The character of a six-bit value. -/
def char (v : ℕ) : UInt8 :=
  if v < 26 then (65 + v).toUInt8
  else if v < 52 then (97 + (v - 26)).toUInt8
  else if v < 62 then (48 + (v - 52)).toUInt8
  else if v = 62 then enc.char62 else enc.char63

/-- `decodeMap`: the six-bit value of a character. -/
def value (c : UInt8) : Option ℕ :=
  if 65 ≤ c.toNat ∧ c.toNat ≤ 90 then some (c.toNat - 65)
  else if 97 ≤ c.toNat ∧ c.toNat ≤ 122 then some (c.toNat - 97 + 26)
  else if 48 ≤ c.toNat ∧ c.toNat ≤ 57 then some (c.toNat - 48 + 52)
  else if c = enc.char62 then some 62
  else if c = enc.char63 then some 63
  else none

/-- `EncodeToString`. -/
def encode : Bytes → Bytes
  | [] => []
  | [a] =>
    let n := a.toNat * 65536
    [enc.char (n / 262144), enc.char (n / 4096 % 64)] ++
      if enc.padded then [padChar, padChar] else []
  | [a, b] =>
    let n := a.toNat * 65536 + b.toNat * 256
    [enc.char (n / 262144), enc.char (n / 4096 % 64), enc.char (n / 64 % 64)] ++
      if enc.padded then [padChar] else []
  | a :: b :: c :: rest =>
    let n := a.toNat * 65536 + b.toNat * 256 + c.toNat
    enc.char (n / 262144) :: enc.char (n / 4096 % 64) :: enc.char (n / 64 % 64) ::
      enc.char (n % 64) :: encode rest

/-- The bytes of a quantum of which `k` characters were present. -/
def quantum (v0 v1 v2 v3 k : ℕ) : Bytes :=
  let n := v0 * 262144 + v1 * 4096 + v2 * 64 + v3
  [(n / 65536).toUInt8, (n / 256).toUInt8, n.toUInt8].take (k - 1)

/-- `decodeQuantum` over an input without newlines. -/
def decodeQuanta : Bytes → Option Bytes
  | [] => some []
  | [_] => none
  | [a, b] => do
    if enc.padded then none
    else return quantum (← enc.value a) (← enc.value b) 0 0 2
  | [a, b, c] => do
    if enc.padded then none
    else return quantum (← enc.value a) (← enc.value b) (← enc.value c) 0 3
  | a :: b :: c :: d :: rest => do
    let va ← enc.value a
    let vb ← enc.value b
    match enc.value c, enc.value d with
    | some vc, some vd => return quantum va vb vc vd 4 ++ (← decodeQuanta rest)
    | some vc, none =>
      if enc.padded ∧ d = padChar ∧ rest = [] then some (quantum va vb vc 0 3) else none
    | none, _ =>
      if enc.padded ∧ c = padChar ∧ d = padChar ∧ rest = [] then some (quantum va vb 0 0 2)
      else none

/-- Newlines are skipped wherever they stand. -/
def isNewline (c : UInt8) : Bool := c == Go.nl || c == Go.cr

theorem isNewline_iff {c : UInt8} : isNewline c = true ↔ c = 10 ∨ c = 13 := by
  simp [isNewline, Go.nl, Go.cr]

/-- `DecodeString`; an error keeps no bytes. -/
def decode (s : Bytes) : Option Bytes := enc.decodeQuanta (s.filter (!isNewline ·))

end Encoding

/-! ### Round trip -/

/-- The two encodings the program uses. -/
def Encoding.Proper (enc : Encoding) : Prop := enc = stdEncoding ∨ enc = rawURLEncoding

namespace Encoding

variable {enc : Encoding}

theorem value_char (henc : enc.Proper) {v : ℕ} (hv : v < 64) : enc.value (enc.char v) = some v := by
  have key : ∀ w : Fin 64, enc.value (enc.char w) = some (w : ℕ) := by
    rcases henc with rfl | rfl <;> decide
  exact key ⟨v, hv⟩

theorem char_not_newline (henc : enc.Proper) {v : ℕ} (hv : v < 64) :
    isNewline (enc.char v) = false := by
  have key : ∀ w : Fin 64, isNewline (enc.char w) = false := by
    rcases henc with rfl | rfl <;> decide
  exact key ⟨v, hv⟩

theorem value_padChar (henc : enc.Proper) : enc.value padChar = none := by
  rcases henc with rfl | rfl <;> decide

variable {a : UInt8} {n : ℕ}

theorem quantum_four {b c : UInt8} (hn : n = a.toNat * 65536 + b.toNat * 256 + c.toNat) :
    quantum (n / 262144) (n / 4096 % 64) (n / 64 % 64) (n % 64) 4 = [a, b, c] := by
  have ha := a.toNat_lt
  have hb := b.toNat_lt
  have hc := c.toNat_lt
  have hsum : n / 262144 * 262144 + n / 4096 % 64 * 4096 + n / 64 % 64 * 64 + n % 64 = n := by
    omega
  simp only [quantum, hsum, take, cons.injEq, and_true]
  refine ⟨?_, ?_, ?_⟩ <;> apply UInt8.toNat_inj.1 <;> simp <;> omega

theorem quantum_three {b : UInt8} (hn : n = a.toNat * 65536 + b.toNat * 256) :
    quantum (n / 262144) (n / 4096 % 64) (n / 64 % 64) 0 3 = [a, b] := by
  have ha := a.toNat_lt
  have hb := b.toNat_lt
  have hsum : n / 262144 * 262144 + n / 4096 % 64 * 4096 + n / 64 % 64 * 64 + 0 = n := by omega
  simp only [quantum, hsum, take, cons.injEq, and_true]
  refine ⟨?_, ?_⟩ <;> apply UInt8.toNat_inj.1 <;> simp <;> omega

theorem quantum_two (hn : n = a.toNat * 65536) :
    quantum (n / 262144) (n / 4096 % 64) 0 0 2 = [a] := by
  have ha := a.toNat_lt
  have hsum : n / 262144 * 262144 + n / 4096 % 64 * 4096 + 0 * 64 + 0 = n := by omega
  simp only [quantum, hsum, take, cons.injEq, and_true]
  apply UInt8.toNat_inj.1
  simp
  omega

variable {s : Bytes}

theorem mem_encode {x : UInt8} (h : x ∈ enc.encode s) :
    (∃ v, v < 64 ∧ x = enc.char v) ∨ (enc.padded ∧ x = padChar) := by
  induction s using Encoding.encode.induct with
  | case1 => simp [encode] at h
  | case2 a =>
    have ha := a.toNat_lt
    simp only [encode, mem_append, mem_cons, not_mem_nil, or_false] at h
    rcases h with (rfl | rfl) | h
    · exact Or.inl ⟨_, by omega, rfl⟩
    · exact Or.inl ⟨_, by omega, rfl⟩
    · split_ifs at h with hp <;> simp at h
      exact Or.inr ⟨hp, h⟩
  | case3 a b =>
    have ha := a.toNat_lt
    have hb := b.toNat_lt
    simp only [encode, mem_append, mem_cons, not_mem_nil, or_false] at h
    rcases h with (rfl | rfl | rfl) | h
    · exact Or.inl ⟨_, by omega, rfl⟩
    · exact Or.inl ⟨_, by omega, rfl⟩
    · exact Or.inl ⟨_, by omega, rfl⟩
    · split_ifs at h with hp <;> simp at h
      exact Or.inr ⟨hp, h⟩
  | case4 a b c rest ih =>
    have ha := a.toNat_lt
    have hb := b.toNat_lt
    have hc := c.toNat_lt
    simp only [encode, mem_cons] at h
    rcases h with rfl | rfl | rfl | rfl | h
    · exact Or.inl ⟨_, by omega, rfl⟩
    · exact Or.inl ⟨_, by omega, rfl⟩
    · exact Or.inl ⟨_, by omega, rfl⟩
    · exact Or.inl ⟨_, by omega, rfl⟩
    · exact ih h

theorem encode_not_newline (henc : enc.Proper) {x : UInt8} (h : x ∈ enc.encode s) :
    isNewline x = false := by
  rcases mem_encode h with ⟨v, hv, rfl⟩ | ⟨-, rfl⟩
  · exact char_not_newline henc hv
  · decide

theorem decodeQuanta_encode (henc : enc.Proper) (s : Bytes) :
    enc.decodeQuanta (enc.encode s) = some s := by
  induction s using Encoding.encode.induct with
  | case1 => rfl
  | case2 a =>
    have ha := a.toNat_lt
    have h0 := value_char henc (v := a.toNat * 65536 / 262144) (by omega)
    have h1 := value_char henc (v := a.toNat * 65536 / 4096 % 64) (by omega)
    cases hp : enc.padded <;>
      simp [encode, decodeQuanta, hp, h0, h1, value_padChar henc, quantum_two rfl]
  | case3 a b =>
    have ha := a.toNat_lt
    have hb := b.toNat_lt
    have h0 := value_char henc (v := (a.toNat * 65536 + b.toNat * 256) / 262144) (by omega)
    have h1 := value_char henc (v := (a.toNat * 65536 + b.toNat * 256) / 4096 % 64) (by omega)
    have h2 := value_char henc (v := (a.toNat * 65536 + b.toNat * 256) / 64 % 64) (by omega)
    cases hp : enc.padded <;>
      simp [encode, decodeQuanta, hp, h0, h1, h2, value_padChar henc, quantum_three rfl]
  | case4 a b c rest ih =>
    have ha := a.toNat_lt
    have hb := b.toNat_lt
    have hc := c.toNat_lt
    obtain ⟨n, hn⟩ : ∃ n, n = a.toNat * 65536 + b.toNat * 256 + c.toNat := ⟨_, rfl⟩
    have h0 := value_char henc (v := n / 262144) (by omega)
    have h1 := value_char henc (v := n / 4096 % 64) (by omega)
    have h2 := value_char henc (v := n / 64 % 64) (by omega)
    have h3 := value_char henc (v := n % 64) (by omega)
    simp [encode, decodeQuanta, ← hn, h0, h1, h2, h3, ih, quantum_four hn]

/-- **`DecodeString` inverts `EncodeToString`.** -/
theorem decode_encode (henc : enc.Proper) (s : Bytes) : enc.decode (enc.encode s) = some s := by
  have hfil : (enc.encode s).filter (!isNewline ·) = enc.encode s := by
    rw [filter_eq_self]
    intro x hx
    simp [encode_not_newline henc hx]
  rw [decode, hfil, decodeQuanta_encode henc]

variable {r : Bytes}

/-- What decodes: so many characters of the alphabet, and behind them the padding of a short last
quantum. -/
theorem decodeQuanta_spec (h : enc.decodeQuanta s = some r) :
    ∃ n pad, s.length = n + pad ∧ r.length = n * 3 / 4 ∧ n % 4 ≠ 1 ∧ pad ≤ 2 ∧
      (enc.padded = true → 4 ∣ n + pad) ∧ (pad = 0 ∨ enc.padded = true ∧ padChar ∈ s) ∧
      ∀ x ∈ s, (∃ v, enc.value x = some v) ∨ pad ≠ 0 ∧ x = padChar := by
  induction hn : s.length using Nat.strong_induction_on generalizing s r with
  | _ n ih =>
    subst hn
    rcases s with _ | ⟨a, _ | ⟨b, _ | ⟨c, _ | ⟨d, rest⟩⟩⟩⟩
    · cases h
      exact ⟨0, 0, by simp⟩
    · cases h
    · cases hp : enc.padded <;> simp [decodeQuanta, hp, Option.bind_eq_some_iff] at h
      obtain ⟨va, ha, vb, hb, rfl⟩ := h
      exact ⟨2, 0, by simp [quantum, ha, hb]⟩
    · cases hp : enc.padded <;> simp [decodeQuanta, hp, Option.bind_eq_some_iff] at h
      obtain ⟨va, ha, vb, hb, vc, hc, rfl⟩ := h
      exact ⟨3, 0, by simp [quantum, ha, hb, hc]⟩
    · simp only [decodeQuanta, Option.bind_eq_bind, Option.bind_eq_some_iff] at h
      obtain ⟨va, ha, vb, hb, h⟩ := h
      split at h
      · next hc hd =>
        obtain ⟨r', hr', h⟩ := Option.bind_eq_some_iff.1 h
        cases h
        obtain ⟨n, pad, hs, hr, hmod, hle, hdvd, hpad, hrest⟩ :=
          ih rest.length (by simp; omega) hr' rfl
        refine ⟨n + 4, pad, by simp [hs]; omega, by simp [quantum, hr]; omega, by omega, hle,
          fun hp => by have := hdvd hp; omega, hpad.imp_right fun hmem => by simp [hmem], ?_⟩
        simpa [ha, hb, hc, hd] using hrest
      · next hc hd =>
        split_ifs at h with hpads
        obtain ⟨hp, rfl, rfl⟩ := hpads
        cases h
        exact ⟨3, 1, by simp [quantum, hp, ha, hb, hc]⟩
      · split_ifs at h with hpads
        obtain ⟨hp, rfl, rfl, rfl⟩ := hpads
        cases h
        exact ⟨2, 2, by simp [quantum, hp, ha, hb]⟩

theorem decodeQuanta_length (hp : enc.padded = true)
    (h : enc.decodeQuanta s = some r) : ∃ q pad, s.length = 4 * q ∧ r.length + pad = 3 * q ∧
      pad ≤ 2 ∧ (pad = 0 ∨ padChar ∈ s) := by
  obtain ⟨n, pad, hs, hr, hmod, hle, hdvd, hpad, -⟩ := decodeQuanta_spec h
  obtain ⟨q, hq⟩ := hdvd hp
  exact ⟨q, pad, by omega, by omega, hle, hpad.imp_right And.right⟩

theorem decodeQuanta_alphabet (h : enc.decodeQuanta s = some r) :
    ∀ x ∈ s, (∃ v, enc.value x = some v) ∨ x = padChar := by
  obtain ⟨n, pad, -, -, -, -, -, -, hchars⟩ := decodeQuanta_spec h
  exact fun x hx => (hchars x hx).imp_right And.right

/-- Without padding the output has three quarters of the length of the input, which is written with
the alphabet alone. -/
theorem decodeQuanta_raw (hp : enc.padded = false) (h : enc.decodeQuanta s = some r) :
    r.length = s.length * 3 / 4 ∧ s.length % 4 ≠ 1 ∧ ∀ x ∈ s, (enc.value x).isSome = true := by
  obtain ⟨n, pad, hs, hr, hmod, -, -, hpad, hchars⟩ := decodeQuanta_spec h
  have hzero : pad = 0 := hpad.resolve_right fun h => by simp [hp] at h
  subst hzero
  refine ⟨by rw [hr, hs]; rfl, by omega, fun x hx => ?_⟩
  exact Option.isSome_iff_exists.2 ((hchars x hx).resolve_right fun h => h.1 rfl)

theorem encode_length_raw (hp : enc.padded = false) (s : Bytes) :
    (enc.encode s).length = (s.length * 4 + 2) / 3 := by
  induction s using Encoding.encode.induct with
  | case1 => rfl
  | case2 a | case3 a b => simp [encode, hp]
  | case4 a b c rest ih =>
    simp only [encode, length_cons, ih]
    omega

theorem encode_length_padded (hp : enc.padded = true) (s : Bytes) :
    (enc.encode s).length = (s.length + 2) / 3 * 4 := by
  induction s using Encoding.encode.induct with
  | case1 => rfl
  | case2 a | case3 a b => simp [encode, hp]
  | case4 a b c rest ih =>
    simp only [encode, length_cons, ih]
    omega

theorem zero_notMem_of_decode (henc : enc.Proper) (h : enc.decode s = some r) : 0 ∉ s := by
  intro hmem
  have hkept : (0 : UInt8) ∈ s.filter (!isNewline ·) := mem_filter.2 ⟨hmem, by decide⟩
  have hvalue : enc.value 0 = none := by rcases henc with rfl | rfl <;> decide
  rcases decodeQuanta_alphabet h 0 hkept with ⟨v, hv⟩ | hpad
  · rw [hvalue] at hv
    cases hv
  · exact absurd hpad (by decide)

theorem encode_injective (henc : enc.Proper) : Function.Injective enc.encode := by
  intro s t h
  have hd := congrArg enc.decode h
  simpa [decode_encode henc] using hd

end Encoding

/-! ### The URL-safe alphabet -/

/-- A letter, a digit, `-` or `_`. -/
def UrlSafe (c : UInt8) : Prop :=
  (65 ≤ c.toNat ∧ c.toNat ≤ 90) ∨ (97 ≤ c.toNat ∧ c.toNat ≤ 122) ∨
    (48 ≤ c.toNat ∧ c.toNat ≤ 57) ∨ c.toNat = 45 ∨ c.toNat = 95

theorem urlSafe_of_value {c : UInt8} (h : (rawURLEncoding.value c).isSome = true) : UrlSafe c := by
  unfold Encoding.value at h
  split_ifs at h with h1 h2 h3 h4 h5
  · exact Or.inl h1
  · exact Or.inr (Or.inl h2)
  · exact Or.inr (Or.inr (Or.inl h3))
  · exact Or.inr (Or.inr (Or.inr (Or.inl (congrArg UInt8.toNat h4))))
  · exact Or.inr (Or.inr (Or.inr (Or.inr (congrArg UInt8.toNat h5))))
  · cases h

theorem urlSafe_encode {s : Bytes} {c : UInt8} (h : c ∈ rawURLEncoding.encode s) : UrlSafe c := by
  rcases Encoding.mem_encode h with ⟨v, hv, rfl⟩ | ⟨hpad, -⟩
  · refine urlSafe_of_value ?_
    rw [Encoding.value_char (Or.inr rfl) hv]
    rfl
  · cases hpad

end BuddyNet
