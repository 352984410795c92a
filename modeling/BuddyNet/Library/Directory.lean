import Mathlib.Data.Set.Insert
import Mathlib.Tactic

/-!
# Directories

A directory finds the records that live under a key. Several records may live under one key; the
table then holds one of them. `live` is the truth the table is compared with:

* `Sound`: what the table holds is a record that lives under that key;
* `Complete`: where a record lives, the table holds something;
* `Owned`: where a record lives, the table holds that record.

A record is added by `bind`, which overwrites the entry of its key, and a set of records is removed
by `dropAll`, which clears the entry of every key a removed record lived under. Soundness survives
both. Completeness survives a removal exactly when no record stays under a cleared key
(`complete_dropAll_iff`), and ownership survives an addition exactly when no record lived under the
key (`owned_bind_iff`, `owned_move_iff`).
-/

/-- A table of keys and the records that really live under them. -/
@[ext]
structure Directory (K R : Type*) where
  table : K → Option R
  live : Set (R × K)

namespace Directory

variable {K R : Type*} {d : Directory K R} {r : R} {k k' : K} {D : Set (R × K)}

/-- The table holds only live records, each under its own key. -/
def Sound (d : Directory K R) : Prop := ∀ k r, d.table k = some r → (r, k) ∈ d.live

/-- The table holds something wherever a record lives. -/
def Complete (d : Directory K R) : Prop := ∀ r k, (r, k) ∈ d.live → ∃ r', d.table k = some r'

open Classical in
/-- Enter a record under a key, over whatever the table held there. -/
noncomputable def bind (d : Directory K R) (r : R) (k : K) : Directory K R where
  table := fun k' => if k' = k then some r else d.table k'
  live := insert (r, k) d.live

open Classical in
/-- Remove records, clearing the entry of each of their keys. -/
noncomputable def dropAll (d : Directory K R) (D : Set (R × K)) : Directory K R where
  table := fun k => if ∃ r, (r, k) ∈ D then none else d.table k
  live := d.live \ D

@[simp] theorem bind_live : (d.bind r k).live = insert (r, k) d.live := rfl

@[simp] theorem dropAll_live : (d.dropAll D).live = d.live \ D := rfl

theorem bind_table_self : (d.bind r k).table k = some r := by simp [bind]

theorem bind_table_ne (h : k' ≠ k) : (d.bind r k).table k' = d.table k' := by simp [bind, h]

theorem dropAll_table_mem (h : (r, k) ∈ D) : (d.dropAll D).table k = none := by
  simp only [dropAll, if_pos (⟨r, h⟩ : ∃ r, (r, k) ∈ D)]

theorem dropAll_table_not_mem (h : ∀ r, (r, k) ∉ D) : (d.dropAll D).table k = d.table k := by
  simp only [dropAll, if_neg (not_exists.2 h)]

theorem dropAll_empty : d.dropAll ∅ = d := by
  simp [dropAll]

theorem dropAll_dropAll (D E : Set (R × K)) : (d.dropAll D).dropAll E = d.dropAll (D ∪ E) := by
  have htable : ((d.dropAll D).dropAll E).table = (d.dropAll (D ∪ E)).table := by
    funext k
    by_cases hE : ∃ r, (r, k) ∈ E
    · obtain ⟨r, hr⟩ := hE
      rw [dropAll_table_mem hr, dropAll_table_mem (Set.mem_union_right D hr)]
    · rw [dropAll_table_not_mem (not_exists.1 hE)]
      by_cases hD : ∃ r, (r, k) ∈ D
      · obtain ⟨r, hr⟩ := hD
        rw [dropAll_table_mem hr, dropAll_table_mem (Set.mem_union_left E hr)]
      · rw [dropAll_table_not_mem (not_exists.1 hD), dropAll_table_not_mem]
        rintro r (hr | hr)
        · exact hD ⟨r, hr⟩
        · exact hE ⟨r, hr⟩
  have hlive : ((d.dropAll D).dropAll E).live = (d.dropAll (D ∪ E)).live := by
    simp [Set.sdiff_sdiff]
  exact Directory.ext htable hlive

/-! ### Soundness -/

theorem Sound.bind (h : d.Sound) : (d.bind r k).Sound := by
  intro k' r' h'
  by_cases hk : k' = k
  · subst hk
    rw [bind_table_self, Option.some.injEq] at h'
    exact Or.inl (by rw [h'])
  · rw [bind_table_ne hk] at h'
    exact Or.inr (h k' r' h')

theorem Sound.dropAll (h : d.Sound) : (d.dropAll D).Sound := by
  intro k r h'
  by_cases hk : ∃ r, (r, k) ∈ D
  · obtain ⟨r', hr'⟩ := hk
    rw [dropAll_table_mem hr'] at h'
    cases h'
  · rw [dropAll_table_not_mem (not_exists.1 hk)] at h'
    exact ⟨h k r h', fun hD => hk ⟨r, hD⟩⟩

/-! ### Completeness -/

theorem Complete.bind (h : d.Complete) : (d.bind r k).Complete := by
  intro r' k' hr'
  by_cases hk : k' = k
  · subst hk
    exact ⟨r, bind_table_self⟩
  · rw [bind_table_ne hk]
    rcases hr' with heq | hr'
    · exact absurd (congrArg Prod.snd heq) hk
    · exact h r' k' hr'

/-- **Removal keeps completeness exactly when nobody stays under a cleared key.** -/
theorem complete_dropAll_iff (h : d.Complete) :
    (d.dropAll D).Complete ↔ ∀ r r' k, (r, k) ∈ D → (r', k) ∈ d.live → (r', k) ∈ D := by
  constructor
  · intro hc r r' k hD hlive
    by_contra hr'
    obtain ⟨_, hsome⟩ := hc r' k ⟨hlive, hr'⟩
    rw [dropAll_table_mem hD] at hsome
    cases hsome
  · rintro hcl r k ⟨hlive, hD⟩
    rw [dropAll_table_not_mem fun r' hr' => hD (hcl r' r k hr' hlive)]
    exact h r k hlive

/-- Move a record from one key to another: the old entry is cleared, the new one overwritten. -/
noncomputable def move (d : Directory K R) (r : R) (k k' : K) : Directory K R :=
  (d.dropAll {(r, k)}).bind r k'

theorem Sound.move (h : d.Sound) : (d.move r k k').Sound := h.dropAll.bind

/-- A move keeps completeness exactly when the record was alone under its old key. -/
theorem complete_move_iff (h : d.Complete) (hk : k ≠ k') :
    (d.move r k k').Complete ↔ ∀ r', (r', k) ∈ d.live → r' = r := by
  have hdrop : (d.dropAll {(r, k)}).Complete ↔ ∀ r', (r', k) ∈ d.live → r' = r := by
    rw [complete_dropAll_iff h]
    constructor
    · intro hcl r' hr'
      have := hcl r r' k rfl hr'
      simpa using this
    · rintro hcl r₁ r₂ k₁ heq hr₂
      obtain ⟨rfl, rfl⟩ := Prod.mk.inj (Set.mem_singleton_iff.1 heq)
      rw [hcl r₂ hr₂]
      rfl
  rw [← hdrop]
  refine ⟨fun hm r₁ k₁ hr₁ => ?_, Complete.bind⟩
  by_cases hk₁ : k₁ = k'
  · -- the entry of the new key was there before and is not touched by the removal
    subst hk₁
    rw [dropAll_table_not_mem (by rintro r₂ heq; exact hk (Prod.mk.inj heq).2.symm)]
    exact h r₁ k₁ hr₁.1
  · obtain ⟨r₂, hr₂⟩ := hm r₁ k₁ (Or.inr hr₁)
    rw [move, bind_table_ne hk₁] at hr₂
    exact ⟨r₂, hr₂⟩

/-! ### Ownership -/

/-- The table holds every live record under its key. -/
def Owned (d : Directory K R) : Prop := ∀ r k, (r, k) ∈ d.live → d.table k = some r

theorem owned_bind_iff (h : d.Owned) :
    (d.bind r k).Owned ↔ ∀ r', (r', k) ∈ d.live → r' = r := by
  constructor
  · intro ho r' hr'
    have hself := ho r' k (Or.inr hr')
    rw [bind_table_self] at hself
    exact (Option.some.inj hself).symm
  · intro halone r' k' hr'
    by_cases hk : k' = k
    · subst hk
      rw [bind_table_self]
      rcases hr' with heq | hr'
      · rw [(Prod.mk.inj heq).1]
      · rw [halone r' hr']
    · rw [bind_table_ne hk]
      rcases hr' with heq | hr'
      · exact absurd (Prod.mk.inj heq).2 hk
      · exact h r' k' hr'

/-- No other record lives under a cleared key. -/
theorem Owned.dropAll (h : d.Owned) (hD : D ⊆ d.live) : (d.dropAll D).Owned := by
  rintro r k ⟨hr, hnot⟩
  rw [dropAll_table_not_mem, h r k hr]
  intro r' hr'
  have heq : r' = r := Option.some.inj ((h r' k (hD hr')).symm.trans (h r k hr))
  exact hnot (heq ▸ hr')

theorem owned_move_iff (h : d.Owned) (hr : (r, k) ∈ d.live) (hk : k ≠ k') :
    (d.move r k k').Owned ↔ ∀ r', (r', k') ∈ d.live → r' = r := by
  have hother : ∀ r', (r', k') ∈ (d.dropAll {(r, k)}).live ↔ (r', k') ∈ d.live := by
    intro r'
    refine and_iff_left fun heq => ?_
    exact hk (Prod.mk.inj heq).2.symm
  rw [move, owned_bind_iff (h.dropAll (Set.singleton_subset_iff.2 hr))]
  simp only [hother]

end Directory
