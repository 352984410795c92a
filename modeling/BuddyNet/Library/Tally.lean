import Mathlib.Data.List.AList
import Mathlib.Algebra.BigOperators.Group.List.Basic
import Mathlib.Algebra.GroupWithZero.Nat

/-!
# Sums over a map, and counters that mirror them

* `total w m` adds up a weight over the values of an association list, and splits off the value
  under one key (`total_of_lookup`, `total_of_lookup_none`, `total_insert`);
* a map of counters `Counts` a function when it holds its positive values and nothing else;
  `charge` and `discharge` move both sides by one.
-/

namespace Tally

open List

variable {K V : Type*} [DecidableEq K] {m : AList fun _ : K => V} {k : K} {v : V}

/-! ### Sums -/

/-- The sum of a weight over the values of a map. -/
def total (w : V → ℕ) (m : AList fun _ : K => V) : ℕ := (m.entries.map fun e => w e.2).sum

section

variable (w : V → ℕ)

theorem total_insert (m : AList fun _ : K => V) (k : K) (v : V) :
    total w (m.insert k v) = w v + total w (m.erase k) := by
  rfl

theorem total_of_lookup (h : m.lookup k = some v) : total w m = w v + total w (m.erase k) := by
  have hmem : k ∈ m.entries.keys := AList.mem_keys.1 (AList.lookup_isSome.1 (by simp [h]))
  obtain ⟨b, l₁, l₂, hl₁, hl, herase⟩ := exists_of_kerase hmem
  have hb : b = v := by
    have hlook : m.entries.dlookup k = some v := h
    rw [hl, dlookup_append, dlookup_eq_none.2 hl₁, dlookup_cons_eq] at hlook
    simpa using hlook
  subst hb
  have hsplit : total w (m.erase k) = ((l₁ ++ l₂).map fun e => w e.2).sum := by
    rw [← herase]
    rfl
  rw [hsplit, total, hl]
  simp only [map_append, map_cons, sum_append, sum_cons]
  omega

theorem total_of_lookup_none (h : m.lookup k = none) : total w m = total w (m.erase k) := by
  have hmem : k ∉ m.entries.keys := fun hk => by
    have := AList.lookup_isSome.2 (AList.mem_keys.2 hk)
    simp [h] at this
  have herase : (m.erase k).entries = m.entries := kerase_of_notMem_keys hmem
  simp only [total, herase]

theorem total_erase_le (m : AList fun _ : K => V) (k : K) : total w (m.erase k) ≤ total w m := by
  cases h : m.lookup k with
  | none => rw [total_of_lookup_none w h]
  | some v =>
    rw [total_of_lookup w h]
    omega

end

/-- Replacing one element of a list moves a count by that element. -/
theorem countP_set_add {α : Type*} (p : α → Bool) {l : List α} {i : ℕ} {a : α} (b : α)
    (h : l[i]? = some a) :
    (l.set i b).countP p + (if p a then 1 else 0) = l.countP p + (if p b then 1 else 0) := by
  induction l generalizing i with
  | nil => cases h
  | cons x l ih =>
    cases i with
    | zero =>
      cases h
      rw [set_cons_zero, countP_cons, countP_cons]
      omega
    | succ i =>
      have := ih h
      rw [set_cons_succ, countP_cons, countP_cons]
      omega

/-! ### Counters -/

variable {c : AList fun _ : K => ℕ} {n r : K → ℕ}

/-- The counters hold the positive values of `n`, and no entry is zero. -/
def Counts (c : AList fun _ : K => ℕ) (n : K → ℕ) : Prop :=
  ∀ k, c.lookup k = if n k = 0 then none else some (n k)

theorem Counts.getD (h : Counts c n) (k : K) : (c.lookup k).getD 0 = n k := by
  rw [h k]
  split_ifs with h0
  · exact h0.symm
  · rfl

theorem Counts.ne_zero (h : Counts c n) (k : K) : c.lookup k ≠ some 0 := by
  rw [h k]
  split_ifs with h0
  · exact nofun
  · exact fun hk => h0 (Option.some.inj hk)

/-- Count one more under a key. -/
def charge (c : AList fun _ : K => ℕ) (k : K) : AList fun _ : K => ℕ :=
  c.insert k ((c.lookup k).getD 0 + 1)

/-- Count one less under a key; the entry goes when nothing is left. -/
def discharge (c : AList fun _ : K => ℕ) (k : K) : AList fun _ : K => ℕ :=
  let n := (c.lookup k).getD 0
  if n ≤ 1 then c.erase k else c.insert k (n - 1)

theorem Counts.charge (h : Counts c n)
    (hn : ∀ k', r k' = n k' + if k' = k then 1 else 0) : Counts (charge c k) r := by
  intro k'
  rw [hn]
  by_cases hk : k' = k
  · subst hk
    rw [Tally.charge, AList.lookup_insert, h.getD]
    simp
  · rw [Tally.charge, AList.lookup_insert_ne hk, h k']
    simp [hk]

theorem Counts.discharge (h : Counts c n)
    (hn : ∀ k', n k' = r k' + if k' = k then 1 else 0) : Counts (discharge c k) r := by
  intro k'
  have hk' := hn k'
  unfold Tally.discharge
  rw [h.getD]
  dsimp only
  by_cases hk : k' = k
  · subst hk
    rw [if_pos rfl] at hk'
    by_cases h1 : n k' ≤ 1
    · rw [if_pos h1, if_pos (by omega)]
      exact AList.lookup_erase k' c
    · rw [if_neg h1, if_neg (by omega), AList.lookup_insert, hk']
      rfl
  · rw [if_neg hk, Nat.add_zero] at hk'
    rw [← hk', ← h k']
    split_ifs
    · exact AList.lookup_erase_ne hk
    · exact AList.lookup_insert_ne hk

theorem total_charge (c : AList fun _ : K => ℕ) (k : K) :
    total id (charge c k) = total id c + 1 := by
  rw [Tally.charge, total_insert]
  cases h : c.lookup k with
  | none =>
    rw [total_of_lookup_none id h]
    exact Nat.add_comm _ _
  | some v =>
    rw [total_of_lookup id h]
    simp only [Option.getD_some, id_eq]
    omega

theorem total_discharge (h : 0 < (c.lookup k).getD 0) :
    total id (discharge c k) + 1 = total id c := by
  cases hv : c.lookup k with
  | none => simp [hv] at h
  | some v =>
    rw [hv, Option.getD_some] at h
    rw [total_of_lookup id hv, Tally.discharge, hv]
    simp only [Option.getD_some, id_eq]
    split_ifs with h1
    · omega
    · rw [total_insert, id_eq]
      omega

/-- Discharging a list of keys takes each away as often as it occurs. -/
theorem Counts.foldl_discharge [BEq K] [LawfulBEq K] (ks : List K) (h : Counts c n)
    (hn : ∀ k', n k' = r k' + ks.count k') : Counts (ks.foldl Tally.discharge c) r := by
  induction ks generalizing c n with
  | nil =>
    have heq : n = r := funext fun k' => by simpa using hn k'
    exact heq ▸ h
  | cons k ks ih =>
    refine ih (n := fun k' => r k' + ks.count k') (h.discharge fun k' => ?_) fun _ => rfl
    rw [hn k', count_cons]
    by_cases hk : k' = k
    · simp [hk, Nat.add_assoc]
    · simp [hk, Ne.symm hk]

end Tally
