import Mathlib

/-!
# Words that begin with a word of a list

A finite list of words over a finite alphabet describes the words of length `n` that begin with one
of them. `size` counts these words: it adds up the words that begin with each member of the list
that extends no other member (`outermost`). So there is a word that begins with none of them exactly
when the sum is less than the number of all words (`exists_free_iff`), which is a computation on the
list.
-/

namespace Cylinder

variable {A : Type*} [DecidableEq A] {n : ℕ} {L : List (List A)} {σ τ : List A}

/-- The members that extend no other member, each once. -/
def outermost (L : List (List A)) : List (List A) :=
  L.dedup.filter fun σ => ∀ τ ∈ L, τ <+: σ → τ = σ

theorem mem_outermost : σ ∈ outermost L ↔ σ ∈ L ∧ ∀ τ ∈ L, τ <+: σ → τ = σ := by
  simp [outermost]

theorem nodup_outermost (L : List (List A)) : (outermost L).Nodup := (List.nodup_dedup L).filter _

theorem exists_outermost (h : σ ∈ L) : ∃ τ ∈ outermost L, τ <+: σ := by
  induction hn : σ.length using Nat.strong_induction_on generalizing σ with
  | _ n ih =>
    by_cases hmin : ∀ τ ∈ L, τ <+: σ → τ = σ
    · exact ⟨σ, mem_outermost.2 ⟨h, hmin⟩, List.prefix_refl σ⟩
    · push Not at hmin
      obtain ⟨τ, hτ, hpre, hne⟩ := hmin
      have hlt : τ.length < n := hn ▸ lt_of_le_of_ne hpre.length_le fun hlen =>
        hne (hpre.eq_of_length hlen)
      obtain ⟨ρ, hρ, hle⟩ := ih _ hlt hτ rfl
      exact ⟨ρ, hρ, hle.trans hpre⟩

variable [Fintype A]

/-- How many words of length `n` begin with a member of the list. -/
def size (n : ℕ) (L : List (List A)) : ℕ :=
  ((outermost L).map fun σ => Fintype.card A ^ (n - σ.length)).sum

/-- The words of length `n` that begin with `σ`. -/
def cylinder (n : ℕ) (σ : List A) : Finset (List.Vector A n) :=
  Finset.univ.filter fun w => σ <+: w.1

theorem mem_cylinder {w : List.Vector A n} : w ∈ cylinder n σ ↔ σ <+: w.1 := by
  simp [cylinder]

/-- The rest of a word that begins with `σ` is free. -/
theorem card_cylinder (h : σ.length ≤ n) :
    (cylinder n σ).card = Fintype.card A ^ (n - σ.length) := by
  rw [← card_vector (α := A) (n - σ.length), ← Finset.card_univ]
  symm
  refine Finset.card_bij (fun v _ => ⟨σ ++ v.1, ?_⟩) (fun v _ => ?_) (fun v _ v' _ heq => ?_)
    (fun w hw => ?_)
  · rw [List.length_append, v.2]
    omega
  · exact mem_cylinder.2 (List.prefix_append σ v.1)
  · exact Subtype.ext (List.append_cancel_left (congrArg Subtype.val heq))
  · obtain ⟨ρ, hρ⟩ := mem_cylinder.1 hw
    have hlen : ρ.length = n - σ.length := by
      have := congrArg List.length hρ
      rw [List.length_append, w.2] at this
      omega
    exact ⟨⟨ρ, hlen⟩, Finset.mem_univ _, Subtype.ext hρ⟩

/-- No word begins with two outermost members. -/
theorem disjoint_cylinder (hσ : σ ∈ outermost L) (hτ : τ ∈ outermost L) (hne : σ ≠ τ) :
    Disjoint (cylinder n σ) (cylinder n τ) := by
  rw [Finset.disjoint_left]
  intro w hw hw'
  obtain ⟨hmem, hmin⟩ := mem_outermost.1 hσ
  obtain ⟨hmem', hmin'⟩ := mem_outermost.1 hτ
  rcases List.prefix_or_prefix_of_prefix (mem_cylinder.1 hw) (mem_cylinder.1 hw') with h | h
  · exact hne (hmin' σ hmem h)
  · exact hne (hmin τ hmem' h).symm

/-- The words of length `n` that begin with a member of the list. -/
def covered (n : ℕ) (L : List (List A)) : Finset (List.Vector A n) :=
  (outermost L).toFinset.biUnion (cylinder n)

theorem mem_covered {w : List.Vector A n} : w ∈ covered n L ↔ ∃ σ ∈ L, σ <+: w.1 := by
  simp only [covered, Finset.mem_biUnion, List.mem_toFinset, mem_cylinder]
  constructor
  · rintro ⟨σ, hσ, hpre⟩
    exact ⟨σ, (mem_outermost.1 hσ).1, hpre⟩
  · rintro ⟨σ, hσ, hpre⟩
    obtain ⟨τ, hτ, hle⟩ := exists_outermost hσ
    exact ⟨τ, hτ, hle.trans hpre⟩

theorem card_covered (hlen : ∀ σ ∈ L, σ.length ≤ n) : (covered n L).card = size n L := by
  rw [covered, Finset.card_biUnion, size, ← List.sum_toFinset _ (nodup_outermost L)]
  · refine Finset.sum_congr rfl fun σ hσ => card_cylinder (hlen σ ?_)
    exact (mem_outermost.1 (List.mem_toFinset.1 hσ)).1
  · intro σ hσ τ hτ hne
    exact disjoint_cylinder (List.mem_toFinset.1 hσ) (List.mem_toFinset.1 hτ) hne

/-- **A word begins with none of the members exactly when they do not add up to all words.** -/
theorem exists_free_iff (hlen : ∀ σ ∈ L, σ.length ≤ n) :
    (∃ w : List A, w.length = n ∧ ∀ σ ∈ L, ¬ σ <+: w) ↔ size n L < Fintype.card A ^ n := by
  rw [← card_covered hlen, ← card_vector (α := A) n, Finset.card_lt_iff_ne_univ, ne_eq,
    Finset.eq_univ_iff_forall, not_forall]
  constructor
  · rintro ⟨w, hw, hfree⟩
    refine ⟨⟨w, hw⟩, fun hmem => ?_⟩
    obtain ⟨σ, hσ, hpre⟩ := mem_covered.1 hmem
    exact hfree σ hσ hpre
  · rintro ⟨w, hw⟩
    exact ⟨w.1, w.2, fun σ hσ hpre => hw (mem_covered.2 ⟨σ, hσ, hpre⟩)⟩

end Cylinder
