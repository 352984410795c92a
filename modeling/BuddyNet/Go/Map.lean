import Mathlib.Data.List.AList
import Mathlib.Data.List.Dedup
import Mathlib.Data.List.Induction

/-!
# Ranging over a Go map

A Go map is an `AList`. A `range` loop visits every key once in an order the language leaves open;
an event of a model therefore carries a list, and `visitOrder` turns any list into an order of the
keys. Every order of the keys is the order of some list. A loop that looks for the entry with the
least time is `oldest` of the visited keys.
-/

namespace BuddyNet.Go

open List

variable {K : Type*} [DecidableEq K]

/-- The order in which a range over the keys visits them. -/
def visitOrder (order keys : List K) : List K :=
  order.dedup.filter (· ∈ keys) ++ keys.filter (· ∉ order)

theorem mem_visitOrder {order keys : List K} {k : K} : k ∈ visitOrder order keys ↔ k ∈ keys := by
  simp only [visitOrder, mem_append, mem_filter, mem_dedup, decide_eq_true_eq]
  by_cases h : k ∈ order <;> simp [h]

theorem nodup_visitOrder {order keys : List K} (h : keys.Nodup) :
    (visitOrder order keys).Nodup := by
  refine nodup_append.2 ⟨(nodup_dedup order).filter _, h.filter _, ?_⟩
  intro a ha b hb hab
  subst hab
  have hin : a ∈ order := mem_dedup.1 (mem_of_mem_filter ha)
  simp [hin] at hb

/-! ### The oldest entry -/

section Oldest

variable {J : Type*} {age : J → ℤ}

/-- One turn of a loop for the oldest entry: a later one replaces it only when it is older. -/
def older (age : J → ℤ) (best : Option (J × ℤ)) (k : J) : Option (J × ℤ) :=
  match best with
  | some (_, old) => if age k < old then some (k, age k) else best
  | none => some (k, age k)

/-- The oldest entry of a range: the first visited of those with the least time. -/
def oldest (age : J → ℤ) (ks : List J) : Option J := (ks.foldl (older age) none).map (·.1)

theorem foldl_older_spec (age : J → ℤ) (ks : List J) :
    (ks.foldl (older age) none = none → ks = []) ∧
    ∀ k a, ks.foldl (older age) none = some (k, a) →
      k ∈ ks ∧ a = age k ∧ ∀ k' ∈ ks, a ≤ age k' := by
  induction ks using List.reverseRecOn with
  | nil => exact ⟨fun _ => rfl, nofun⟩
  | append_singleton ks x ih =>
    rw [foldl_append, foldl_cons, foldl_nil]
    obtain ⟨hnone, hsome⟩ := ih
    cases hbest : ks.foldl (older age) none with
    | none =>
      obtain rfl := hnone hbest
      refine ⟨fun h => (by cases h), fun k a h => ?_⟩
      obtain ⟨rfl, rfl⟩ := Prod.mk.inj (Option.some.inj h)
      simp
    | some best =>
      obtain ⟨k₀, a₀⟩ := best
      obtain ⟨hmem, rfl, hle⟩ := hsome k₀ a₀ hbest
      unfold older
      dsimp only
      split_ifs with hlt
      · refine ⟨fun h => (by cases h), fun k a h => ?_⟩
        obtain ⟨rfl, rfl⟩ := Prod.mk.inj (Option.some.inj h)
        refine ⟨by simp, rfl, fun k' hk' => ?_⟩
        rcases mem_append.1 hk' with hold | hnew
        · have := hle k' hold
          omega
        · exact Int.le_of_eq (by rw [mem_singleton.1 hnew])
      · refine ⟨fun h => (by cases h), fun k a h => ?_⟩
        obtain ⟨rfl, rfl⟩ := Prod.mk.inj (Option.some.inj h)
        refine ⟨mem_append_left _ hmem, rfl, fun k' hk' => ?_⟩
        rcases mem_append.1 hk' with hold | hnew
        · exact hle k' hold
        · rw [mem_singleton.1 hnew]
          omega

variable {ks : List J}

theorem oldest_mem {k : J} (h : oldest age ks = some k) : k ∈ ks := by
  obtain ⟨⟨k', a⟩, hfold, rfl⟩ := Option.map_eq_some_iff.1 h
  exact ((foldl_older_spec age ks).2 k' a hfold).1

theorem oldest_le {k k' : J} (h : oldest age ks = some k) (hk' : k' ∈ ks) : age k ≤ age k' := by
  obtain ⟨⟨k, a⟩, hfold, rfl⟩ := Option.map_eq_some_iff.1 h
  obtain ⟨-, rfl, hle⟩ := (foldl_older_spec age ks).2 k a hfold
  exact hle k' hk'

theorem exists_oldest (h : ks ≠ []) : ∃ k, oldest age ks = some k := by
  cases hfold : ks.foldl (older age) none with
  | none => exact absurd ((foldl_older_spec age ks).1 hfold) h
  | some best => exact ⟨best.1, by rw [oldest, hfold]; rfl⟩

end Oldest

/-! ### Entries -/

theorem mem_keys_of_lookup {V : Type*} {m : AList fun _ : K => V} {k : K} {v : V}
    (h : m.lookup k = some v) : k ∈ m.keys :=
  AList.mem_keys.1 (AList.lookup_isSome.1 (by simp [h]))

variable {α β : Type*}

theorem exists_lookup_of_ne_empty [DecidableEq α] {m : AList fun _ : α => β}
    (h : m ≠ ∅) : ∃ k v, m.lookup k = some v := by
  cases hes : m.entries with
  | nil => exact absurd (AList.ext hes) h
  | cons e es => exact ⟨e.1, e.2, AList.mem_lookup_iff.2 (hes ▸ mem_cons_self)⟩

theorem erase_insert_self [DecidableEq α] {m : AList fun _ : α => β} {k : α}
    (h : k ∉ m) (v : β) : (m.insert k v).erase k = m := by
  apply AList.ext
  show ((m.insert k v).entries.kerase k) = m.entries
  rw [AList.entries_insert_of_notMem h]
  exact kerase_cons_eq rfl

theorem lookup_insert_cases [DecidableEq α] {m : AList fun _ : α => β} {k k' : α}
    {v v' : β} (h : (m.insert k' v').lookup k = some v) :
    m.lookup k = some v ∨ k = k' ∧ v = v' := by
  by_cases hk : k = k'
  · subst hk
    rw [AList.lookup_insert] at h
    exact Or.inr ⟨rfl, (Option.some.inj h).symm⟩
  · rw [AList.lookup_insert_ne hk] at h
    exact Or.inl h

theorem lookup_of_erase [DecidableEq α] {m : AList fun _ : α => β} {k k' : α} {v : β}
    (h : (m.erase k').lookup k = some v) : m.lookup k = some v := by
  by_cases hk : k = k'
  · subst hk
    rw [AList.lookup_erase] at h
    cases h
  · rwa [AList.lookup_erase_ne hk] at h

/-! ### Filling a map -/

/-- A loop that stores one entry for each item. -/
def fill {A V : Type*} (key : A → K) (val : A → V) (as : List A) (m : AList fun _ : K => V) :
    AList fun _ : K => V :=
  as.foldl (fun m a => m.insert (key a) (val a)) m

theorem lookup_fill {A V : Type*} {key : A → K} {val : A → V} {as : List A}
    (h : (as.map key).Nodup) (k : K) (v : V) :
    (fill key val as ∅).lookup k = some v ↔ ∃ a ∈ as, key a = k ∧ val a = v := by
  induction as using List.reverseRecOn with
  | nil => simp [fill]
  | append_singleton as a ih =>
    rw [map_append, nodup_append'] at h
    have hfill : fill key val (as ++ [a]) ∅ = (fill key val as ∅).insert (key a) (val a) := by
      rw [fill, foldl_append]
      rfl
    have hnew : ∀ b ∈ as, key b ≠ key a := fun b hb heq =>
      h.2.2 (mem_map_of_mem hb) (by rw [heq]; exact mem_singleton_self _)
    rw [hfill]
    by_cases hk : k = key a
    · rw [hk, AList.lookup_insert, Option.some.injEq]
      constructor
      · intro hv
        exact ⟨a, by simp, rfl, hv⟩
      · rintro ⟨b, hb, hkey, hv⟩
        rcases mem_append.1 hb with hold | hlast
        · exact absurd hkey (hnew b hold)
        · rw [← mem_singleton.1 hlast]
          exact hv
    · rw [AList.lookup_insert_ne hk, ih h.1]
      constructor
      · rintro ⟨b, hb, hrest⟩
        exact ⟨b, mem_append_left _ hb, hrest⟩
      · rintro ⟨b, hb, hkey, hv⟩
        rcases mem_append.1 hb with hold | hlast
        · exact ⟨b, hold, hkey, hv⟩
        · rw [mem_singleton.1 hlast] at hkey
          exact absurd hkey.symm hk

/-! ### Deleting in a range loop -/

section DeleteIf

variable {V : Type*}

/-- A range loop that deletes the entries with a property. -/
def deleteIf (p : V → Bool) (m : AList fun _ : K => V) : AList fun _ : K => V :=
  m.entries.foldl (fun m e => if p e.2 then m.erase e.1 else m) m

theorem lookup_foldl_erase (p : V → Bool) (es : List (Sigma fun _ : K => V))
    (m : AList fun _ : K => V) (k : K) :
    (es.foldl (fun m e => if p e.2 then m.erase e.1 else m) m).lookup k =
      if ∃ e ∈ es, e.1 = k ∧ p e.2 = true then none else m.lookup k := by
  induction es generalizing m with
  | nil => simp
  | cons e es ih =>
    rw [foldl_cons, ih]
    by_cases hes : ∃ e ∈ es, e.1 = k ∧ p e.2 = true
    · obtain ⟨x, hx, hk⟩ := hes
      rw [if_pos ⟨x, hx, hk⟩, if_pos ⟨x, mem_cons_of_mem e hx, hk⟩]
    · rw [if_neg hes]
      by_cases hp : p e.2 = true
      · rw [if_pos hp]
        by_cases hk : e.1 = k
        · rw [if_pos ⟨e, mem_cons_self, hk, hp⟩, ← hk, AList.lookup_erase]
        · rw [if_neg (by simpa [hk] using hes), AList.lookup_erase_ne (Ne.symm hk)]
      · rw [if_neg hp, if_neg (by simpa [hp] using hes)]

theorem lookup_deleteIf (p : V → Bool) (m : AList fun _ : K => V) (k : K) :
    (deleteIf p m).lookup k = (m.lookup k).filter fun v => !p v := by
  refine (lookup_foldl_erase p m.entries m k).trans ?_
  cases hb : m.lookup k with
  | none => simp
  | some b =>
    show _ = if (!p b) = true then some b else none
    have hmem : ∀ e ∈ m.entries, e.1 = k → e.2 = b := by
      rintro ⟨k', b'⟩ he rfl
      exact Option.some.inj ((AList.mem_lookup_iff.2 he).symm.trans hb)
    by_cases hp : p b = true
    · rw [if_pos ⟨⟨k, b⟩, AList.mem_lookup_iff.1 hb, rfl, hp⟩]
      simp [hp]
    · rw [if_neg]
      · simp [hp]
      · rintro ⟨e, he, hk, hf⟩
        rw [hmem e he hk] at hf
        exact hp hf

end DeleteIf

/-! ### Sizes -/

section Size

variable {V W : Type*} {m : AList fun _ : K => V} {k : K}

theorem keys_length_insert (m : AList fun _ : K => V) (k : K) (v : V) :
    (m.insert k v).keys.length = (m.erase k).keys.length + 1 := by
  rw [AList.keys_insert, AList.keys_erase, length_cons]

theorem keys_length_erase_of_mem (h : k ∈ m) : (m.erase k).keys.length + 1 = m.keys.length := by
  have hk := AList.mem_keys.1 h
  have hpos := length_pos_of_mem hk
  rw [AList.keys_erase, length_erase_of_mem hk]
  omega

theorem keys_erase_of_notMem (h : k ∉ m) : (m.erase k).keys = m.keys := by
  rw [AList.keys_erase]
  exact erase_of_not_mem fun hk => h (AList.mem_keys.2 hk)

theorem keys_length_erase_le (m : AList fun _ : K => V) (k : K) :
    (m.erase k).keys.length ≤ m.keys.length := by
  rw [AList.keys_erase]
  exact length_erase_le

omit [DecidableEq K] in
theorem keys_length_pos (h : k ∈ m) : 1 ≤ m.keys.length :=
  length_pos_of_mem (AList.mem_keys.1 h)

omit [DecidableEq K] in
theorem keys_length_le {m' : AList fun _ : K => W} (h : ∀ k, k ∈ m → k ∈ m') :
    m.keys.length ≤ m'.keys.length :=
  (subperm_of_subset m.keys_nodup fun k hk =>
    AList.mem_keys.1 (h k (AList.mem_keys.2 hk))).length_le

end Size

end BuddyNet.Go
