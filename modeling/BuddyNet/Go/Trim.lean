import BuddyNet.Go.Json
import BuddyNet.Go.Lines

/-!
# `strings.TrimSpace`

A text is trimmed when neither its first nor its last rune is white space. `trimSpace` gives the
trimmed text that is left when white space is taken off both ends (`trimSpace_eq_of_runes`), so what
a caller has to know is where the runes of a text are cut: before and after an ASCII character.
-/

namespace BuddyNet.Go

open List

/-- Neither the first nor the last rune is white space. -/
structure Trimmed (s : Bytes) : Prop where
  first : ∀ r ∈ (runesOf s).head?, r.2 = false
  last : ∀ r ∈ (runesOf s).getLast?, r.2 = false

/-- A text of white space. -/
def Blank (s : Bytes) : Prop := ∀ r ∈ runesOf s, r.2 = true

variable {s t : Bytes} {c : UInt8}

theorem dropWhile_space {rs : List (Bytes × Bool)} (h : ∀ r ∈ rs.head?, r.2 = false) :
    rs.dropWhile (·.2) = rs := by
  cases rs with
  | nil => rfl
  | cons r rs => exact dropWhile_cons_of_neg (by simp [h r rfl])

/-- **What is left between white space and white space.** -/
theorem trimSpace_eq_of_runes {lead trail : List (Bytes × Bool)} (ht : Trimmed t)
    (hspace : ∀ r ∈ lead ++ trail, r.2 = true) (h : runesOf s = lead ++ runesOf t ++ trail) :
    trimSpace s = t := by
  have hlead : ∀ r ∈ lead, r.2 = true := fun r hr => hspace r (mem_append_left _ hr)
  have htrail : ∀ r ∈ trail.reverse, r.2 = true := fun r hr =>
    hspace r (mem_append_right _ (mem_reverse.1 hr))
  have hback : ((runesOf t ++ trail).reverse.dropWhile (·.2)).reverse = runesOf t := by
    rw [reverse_append, dropWhile_append_of_pos htrail, dropWhile_space, reverse_reverse]
    rw [head?_reverse]
    exact ht.last
  show ((((runesOf s).dropWhile (·.2)).reverse.dropWhile (·.2)).reverse.map (·.1)).flatten = t
  rw [h, append_assoc, dropWhile_append_of_pos hlead]
  cases hrunes : runesOf t with
  | nil =>
    have hnil : t = [] := by rw [← flatten_runesOf t, hrunes]; rfl
    rw [nil_append, dropWhile_eq_nil_iff.2 fun r hr => htrail r (mem_reverse.2 hr), hnil]
    rfl
  | cons r rs =>
    have hr : r.2 = false := ht.first r (by rw [hrunes]; rfl)
    rw [cons_append, dropWhile_cons_of_neg (by simp [hr]), ← cons_append, ← hrunes,
      hback, flatten_runesOf]

theorem trimSpace_of_trimmed (h : Trimmed s) : trimSpace s = s := by
  have hrunes : runesOf s = [] ++ runesOf s ++ [] := by simp
  exact trimSpace_eq_of_runes h (by simp) hrunes

theorem trimmed_trimSpace (s : Bytes) : Trimmed (trimSpace s) := by
  set body := (runesOf s).dropWhile (·.2) with hbody
  have hrunes : runesOf (trimSpace s) = (body.reverse.dropWhile (·.2)).reverse :=
    runesOf_trimSpace_eq s
  constructor
  · intro r hr
    -- what is left of the body begins like the body
    obtain ⟨rest, hrest⟩ : runesOf (trimSpace s) <+: body := by
      rw [hrunes]
      exact rdropWhile_prefix _ body
    have hnot := head?_dropWhile_not (·.2) (runesOf s)
    rw [← hbody, ← hrest, head?_append, Option.mem_def.1 hr] at hnot
    exact hnot
  · intro r hr
    rw [hrunes, getLast?_reverse] at hr
    have hnot := head?_dropWhile_not (·.2) body.reverse
    rw [Option.mem_def.1 hr] at hnot
    exact hnot

theorem Trimmed.dropCR (h : Trimmed s) : dropCR s = s := by
  refine if_neg fun hcr => ?_
  obtain ⟨u, rfl⟩ := getLast?_eq_some_iff.1 hcr
  have hspace := h.last ([cr], true) (by
    rw [runesOf_append (by unfold IsASCII; decide), runesOf_nil, getLast?_concat]
    rfl)
  cases hspace

theorem trimSpace_token (h : IsToken s) : trimSpace s = s :=
  trimSpace_of_trimmed ⟨fun r hr => h.spaceFree r (mem_of_mem_head? hr),
    fun r hr => h.spaceFree r (mem_of_mem_getLast? hr)⟩

/-! ### Where the runes are cut -/

theorem runesOf_cons (hc : IsASCII c) (t : Bytes) :
    runesOf (c :: t) = ([c], isSpace c.toNat) :: runesOf t := runesOf_append hc [] t

/-- The runes of a text are cut after an ASCII character. -/
theorem runesOf_concat_append (hc : IsASCII c) (s t : Bytes) :
    runesOf (s ++ [c] ++ t) = runesOf (s ++ [c]) ++ runesOf t := by
  rw [append_assoc, singleton_append, runesOf_append hc, runesOf_append hc, runesOf_nil,
    append_assoc, singleton_append]

/-- An ASCII character that is not white space. -/
def Solid (c : UInt8) : Prop := IsASCII c ∧ isSpace c.toNat = false

theorem solid_of_visible (h : 33 ≤ c.toNat ∧ c.toNat < 0x80) : Solid c := by
  refine ⟨h.2, ?_⟩
  unfold isSpace
  simp
  omega

theorem itoa_isToken (n : ℕ) : IsToken (itoa n) := fun c hc => by
  have hdigit := mem_itoa hc
  exact solid_of_visible ⟨by omega, by omega⟩

/-- A text that begins and ends with such a character. -/
structure Firm (s : Bytes) : Prop where
  first : ∃ c t, s = c :: t ∧ Solid c
  last : ∃ u c, s = u ++ [c] ∧ Solid c

variable (h : Firm s)
include h

theorem Firm.runesOf_append (t : Bytes) : runesOf (s ++ t) = runesOf s ++ runesOf t := by
  obtain ⟨u, d, rfl, hlast⟩ := h.last
  exact runesOf_concat_append hlast.1 u t

/-- Behind a firm text the end decides. -/
theorem Firm.trimmed_append (ht : ∀ r ∈ (runesOf t).getLast?, r.2 = false) : Trimmed (s ++ t) := by
  constructor
  · obtain ⟨c, u, rfl, hfirst⟩ := h.first
    rw [cons_append, runesOf_cons hfirst.1]
    rintro r ⟨⟩
    exact hfirst.2
  · rw [h.runesOf_append, getLast?_append]
    cases hr : (runesOf t).getLast? with
    | some r =>
      rw [hr] at ht
      exact ht
    | none =>
      obtain ⟨u, d, rfl, hlast⟩ := h.last
      rw [Go.runesOf_append hlast.1, runesOf_nil, getLast?_concat]
      rintro r ⟨⟩
      exact hlast.2

theorem Firm.trimmed : Trimmed s := by
  simpa using h.trimmed_append (t := []) (by simp)

theorem Firm.trimSpace_pad {pre post : Bytes} (hpre : Blank pre) (hpost : Blank post) :
    trimSpace (pre ++ s ++ post) = s := by
  have hrunes : runesOf (pre ++ s ++ post) = runesOf pre ++ runesOf s ++ runesOf post := by
    have hright := h.runesOf_append post
    obtain ⟨c, u, rfl, hfirst⟩ := h.first
    rw [append_assoc, cons_append, Go.runesOf_append hfirst.1, ← runesOf_cons hfirst.1,
      ← cons_append, hright, append_assoc]
  exact trimSpace_eq_of_runes h.trimmed
    (fun r hr => (mem_append.1 hr).elim (hpre r) (hpost r)) hrunes

/-- Behind a firm text, trimming takes from the end only. -/
theorem Firm.trimSpace_append (t : Bytes) : ∃ y, y <+: t ∧ trimSpace (s ++ t) = s ++ y := by
  have hfirst : ∀ r ∈ (runesOf s ++ runesOf t).head?, r.2 = false := by
    obtain ⟨c, u, rfl, hc⟩ := h.first
    rw [runesOf_cons hc.1]
    rintro r ⟨⟩
    exact hc.2
  have hlast : (runesOf s).reverse.dropWhile (·.2) = (runesOf s).reverse := by
    refine dropWhile_space ?_
    rw [head?_reverse]
    exact h.trimmed.last
  set kept := (runesOf t).reverse.dropWhile (·.2) with hkept
  obtain ⟨rest, hrest⟩ : kept.reverse <+: runesOf t := rdropWhile_prefix _ _
  refine ⟨(kept.reverse.map (·.1)).flatten, ⟨(rest.map (·.1)).flatten, ?_⟩, ?_⟩
  · rw [← flatten_append, ← map_append, hrest, flatten_runesOf]
  · have hback : ((runesOf s ++ runesOf t).reverse.dropWhile (·.2)).reverse =
        runesOf s ++ kept.reverse := by
      rw [reverse_append, dropWhile_append, ← hkept]
      split_ifs with hnil
      · rw [hlast, reverse_reverse, isEmpty_iff.1 hnil, reverse_nil, append_nil]
      · rw [reverse_append, reverse_reverse]
    show ((((runesOf (s ++ t)).dropWhile (·.2)).reverse.dropWhile (·.2)).reverse.map
      (·.1)).flatten = _
    rw [h.runesOf_append, dropWhile_space hfirst, hback, map_append, flatten_append,
      flatten_runesOf]

end BuddyNet.Go
