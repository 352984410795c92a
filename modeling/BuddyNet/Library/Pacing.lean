import Mathlib.Tactic

/-!
# Paced admissions

The counting bound of a token bucket, for any admission rule that a potential pays for, over any
ordered ring of amounts and times. A call at time `t` never raises the potential; a call that admits
lowers it by the price, leaves it below what a full bucket at `t` would have, and leaves it covered
at `t` (`Pace.Call`). Nothing is assumed about the order of the calls' times.

* `Pace.Books`: in every window of time the admissions cost at most the burst and the rate times the
  length of the window;
* `Pace.Since`: from a first call on, all the admissions cost at most the burst and the rate times
  the way from the time of this call to the latest time so far.
-/

namespace Pacing

variable {K : Type*} [CommRing K] [LinearOrder K] [IsStrictOrderedRing K]

/-- So much at once, so much for each unit of time, so much for each admission. -/
structure Pace (K : Type*) [Zero K] [LE K] where
  burst : K
  rate : K
  price : K
  burst_nonneg : 0 ≤ burst
  rate_nonneg : 0 ≤ rate

variable {p : Pace K} {a b t φ φ' first top : K} {n : ℕ} {ok : Bool}

/-- A call at time `t` takes the potential from `φ` to `φ'` and answers `ok`. -/
structure Pace.Call (p : Pace K) (t φ φ' : K) (ok : Bool) : Prop where
  falls : φ' ≤ φ
  paid : ok = true → φ' + p.price ≤ φ
  capped : ok = true → φ' + p.price ≤ p.burst - p.rate * t
  covered : ok = true → -(p.rate * t) ≤ φ'

omit [IsStrictOrderedRing K] in
/-- A call may have started from a lower potential. -/
theorem Pace.Call.mono {ψ : K} (h : p.Call t φ φ' ok) (hφ : φ ≤ ψ) : p.Call t ψ φ' ok where
  falls := h.falls.trans hφ
  paid := fun hok => (h.paid hok).trans hφ
  capped := h.capped
  covered := h.covered

omit [IsStrictOrderedRing K] in
/-- What is charged may be admitted by one answer out of several. -/
theorem Pace.Call.weaken {ok' : Bool} (h : p.Call t φ φ' ok) (hok : ok' = true → ok = true) :
    p.Call t φ φ' ok' where
  falls := h.falls
  paid := fun h' => h.paid (hok h')
  capped := fun h' => h.capped (hok h')
  covered := fun h' => h.covered (hok h')

omit [IsStrictOrderedRing K] in
/-- A call that admits nothing only has to keep the potential from rising. -/
theorem Pace.Call.refused (h : φ' ≤ φ) : p.Call t φ φ' false where
  falls := h
  paid := nofun
  capped := nofun
  covered := nofun

omit [IsStrictOrderedRing K] in
/-- A call at `t` that does not end above a full bucket may have started from one. -/
theorem Pace.Call.fromFull (h : p.Call t φ φ' ok) (hfull : φ' ≤ p.burst - p.rate * t) :
    p.Call t (p.burst - p.rate * t) φ' ok where
  falls := hfull
  paid := h.capped
  capped := h.capped
  covered := h.covered

/-! ### Windows -/

/-- The books of the window from `a` to `b` after `n` admissions in it. -/
structure Pace.Books (p : Pace K) (a b φ : K) (n : ℕ) : Prop where
  level : 0 < n → φ + p.price * n ≤ p.burst - p.rate * a
  bound : p.price * n ≤ p.burst + p.rate * (b - a)

theorem Pace.Books.new (hab : a ≤ b) : p.Books a b φ 0 where
  level := nofun
  bound := by
    have hlen := mul_nonneg p.rate_nonneg (sub_nonneg.2 hab)
    have hburst := p.burst_nonneg
    simp only [Nat.cast_zero, mul_zero]
    linarith

theorem Pace.Books.fall (h : p.Books a b φ n) (hφ : φ' ≤ φ) : p.Books a b φ' n where
  level := fun hn => by
    have hlevel := h.level hn
    linarith
  bound := h.bound

theorem Pace.Books.pass (h : p.Books a b φ n) (hc : p.Call t φ φ' true) (ha : a ≤ t)
    (hb : t ≤ b) : p.Books a b φ' (n + 1) := by
  have hprice : p.price * ((n + 1 : ℕ) : K) = p.price * n + p.price := by
    push_cast
    ring
  have hstart : p.rate * a ≤ p.rate * t := mul_le_mul_of_nonneg_left ha p.rate_nonneg
  have hlevel : φ' + p.price * ((n + 1 : ℕ) : K) ≤ p.burst - p.rate * a := by
    rcases Nat.eq_zero_or_pos n with rfl | hn
    · have hcap := hc.capped rfl
      simp only [zero_add, Nat.cast_one, mul_one]
      linarith
    · have hold := h.level hn
      have hpaid := hc.paid rfl
      linarith
  refine ⟨fun _ => hlevel, ?_⟩
  have hend : p.rate * t ≤ p.rate * b := mul_le_mul_of_nonneg_left hb p.rate_nonneg
  have hcover := hc.covered rfl
  linarith

/-- A call, counted only if it admits within the window. -/
theorem Pace.Books.call (h : p.Books a b φ n) (hc : p.Call t φ φ' ok) {counted : Bool}
    (hcount : counted = true → ok = true ∧ a ≤ t ∧ t ≤ b) : p.Books a b φ' (n + counted.toNat) := by
  cases counted with
  | false => exact h.fall hc.falls
  | true =>
    obtain ⟨rfl, ha, hb⟩ := hcount rfl
    exact h.pass hc ha hb

/-! ### From a first call on -/

/-- The books since the time `first`, when `top` is the latest time so far. -/
structure Pace.Since (p : Pace K) (first top φ : K) (n : ℕ) : Prop where
  level : φ + p.price * n ≤ p.burst - p.rate * first
  bound : p.price * n ≤ p.burst + p.rate * (top - first)

theorem Pace.Since.new (hφ : φ ≤ p.burst - p.rate * first) : p.Since first first φ 0 where
  level := by
    simp only [Nat.cast_zero, mul_zero]
    linarith
  bound := by
    have hburst := p.burst_nonneg
    simp only [Nat.cast_zero, mul_zero, sub_self]
    linarith

theorem Pace.Since.mono {top' : K} (h : p.Since first top φ n) (htop : top ≤ top') :
    p.Since first top' φ n where
  level := h.level
  bound := by
    have hlen := mul_le_mul_of_nonneg_left (sub_le_sub_right htop first) p.rate_nonneg
    have hbound := h.bound
    linarith

theorem Pace.Since.call (h : p.Since first top φ n) (hc : p.Call t φ φ' ok) :
    p.Since first (max top t) φ' (n + ok.toNat) := by
  have hlevel := h.level
  have htop : p.rate * top ≤ p.rate * max top t :=
    mul_le_mul_of_nonneg_left (le_max_left _ _) p.rate_nonneg
  have hlen : ∀ u, p.rate * (u - first) = p.rate * u - p.rate * first := fun u => mul_sub _ _ _
  cases ok with
  | false =>
    have hfall := hc.falls
    have hbound := h.bound
    refine ⟨?_, ?_⟩
    · show φ' + p.price * ((n + 0 : ℕ) : K) ≤ _
      rw [Nat.add_zero]
      linarith
    · show p.price * ((n + 0 : ℕ) : K) ≤ _
      rw [Nat.add_zero, hlen]
      linarith
  | true =>
    have hpaid := hc.paid rfl
    have hcover := hc.covered rfl
    have hend : p.rate * t ≤ p.rate * max top t :=
      mul_le_mul_of_nonneg_left (le_max_right _ _) p.rate_nonneg
    have hprice : p.price * ((n + 1 : ℕ) : K) = p.price * n + p.price := by
      push_cast
      ring
    refine ⟨?_, ?_⟩
    · show φ' + p.price * ((n + 1 : ℕ) : K) ≤ _
      linarith
    · show p.price * ((n + 1 : ℕ) : K) ≤ _
      linarith

end Pacing
