import Mathlib.Data.List.Basic
import Mathlib.Tactic

/-!
# The first few different elements of a list

A reader that collects a set and stops when it has `cap` elements keeps the first `cap` different
ones. What it keeps grows with the list until it is full (`mem_firstDistinct_concat`), and leaving
elements out of the list makes room for later ones but loses none of the others
(`mem_firstDistinct_filter`). It keeps everything exactly when there are at most `cap` different
elements (`forall_mem_firstDistinct_iff`).
-/

namespace FirstDistinct

open List

variable {α : Type*} [DecidableEq α] {cap : ℕ}

/-- One more element, unless it is there or the collection is full. -/
def enlist (cap : ℕ) (acc : List α) (x : α) : List α :=
  if x ∈ acc ∨ cap ≤ acc.length then acc else acc ++ [x]

/-- The first `cap` different elements. -/
def firstDistinct (cap : ℕ) (xs : List α) : List α := xs.foldl (enlist cap) []

theorem firstDistinct_concat (xs : List α) (x : α) :
    firstDistinct cap (xs ++ [x]) = enlist cap (firstDistinct cap xs) x := foldl_concat _ _ _ _

variable {acc : List α}

theorem enlist_full (h : cap ≤ acc.length) (x : α) : enlist cap acc x = acc :=
  if_pos (Or.inr h)

theorem foldl_enlist_full (h : cap ≤ acc.length) (xs : List α) :
    xs.foldl (enlist cap) acc = acc := by
  induction xs with
  | nil => rfl
  | cons x xs ih => rw [foldl_cons, enlist_full h, ih]

variable {x y : α}

theorem mem_enlist (h : acc.length < cap) : y ∈ enlist cap acc x ↔ y ∈ acc ∨ y = x := by
  unfold enlist
  split_ifs with hx
  · rcases hx with hx | hx
    · exact ⟨Or.inl, fun hy => hy.elim id fun heq => heq ▸ hx⟩
    · omega
  · simp

variable {xs : List α}

theorem mem_firstDistinct_concat (h : (firstDistinct cap xs).length < cap) :
    y ∈ firstDistinct cap (xs ++ [x]) ↔ y ∈ firstDistinct cap xs ∨ y = x := by
  rw [firstDistinct_concat, mem_enlist h]

theorem mem_of_mem_firstDistinct (h : y ∈ firstDistinct cap xs) : y ∈ xs := by
  induction xs using List.reverseRecOn with
  | nil => exact h
  | append_singleton xs x ih =>
    rw [firstDistinct_concat, enlist] at h
    split_ifs at h
    · exact mem_append_left _ (ih h)
    · rcases mem_append.1 h with h | h
      · exact mem_append_left _ (ih h)
      · exact mem_append_right _ h

theorem mem_firstDistinct_of_room (h : (firstDistinct cap xs).length < cap) :
    y ∈ firstDistinct cap xs ↔ y ∈ xs := by
  induction xs using List.reverseRecOn with
  | nil => rfl
  | append_singleton xs x ih =>
    have hroom : (firstDistinct cap xs).length < cap := by
      by_contra hfull
      rw [firstDistinct_concat, enlist_full (not_lt.1 hfull)] at h
      exact hfull h
    rw [mem_firstDistinct_concat hroom, ih hroom, mem_append, mem_singleton]

theorem length_firstDistinct_le (xs : List α) : (firstDistinct cap xs).length ≤ cap := by
  induction xs using List.reverseRecOn with
  | nil => exact Nat.zero_le _
  | append_singleton xs x ih =>
    rw [firstDistinct_concat, enlist]
    split_ifs with h
    · exact ih
    · rw [length_append, length_singleton]
      omega

theorem nodup_firstDistinct (xs : List α) : (firstDistinct cap xs).Nodup := by
  induction xs using List.reverseRecOn with
  | nil => exact nodup_nil
  | append_singleton xs x ih =>
    rw [firstDistinct_concat, enlist]
    split_ifs with h
    · exact ih
    · rw [not_or] at h
      exact nodup_append.2 ⟨ih, nodup_singleton x, fun a ha b hb => by
        rw [mem_singleton.1 hb]
        exact ne_of_mem_of_not_mem ha h.1⟩

/-- Everything is kept exactly when there are no more different elements than room. -/
theorem forall_mem_firstDistinct_iff (xs : List α) :
    (∀ x ∈ xs, x ∈ firstDistinct cap xs) ↔ xs.dedup.length ≤ cap := by
  constructor
  · intro h
    have hsub : xs.dedup ⊆ firstDistinct cap xs := fun x hx => h x (mem_dedup.1 hx)
    exact ((nodup_dedup xs).subperm hsub).length_le.trans (length_firstDistinct_le xs)
  · intro h x hx
    by_contra hmissing
    -- what is missing was turned away by a full collection
    have hfull : cap ≤ (firstDistinct cap xs).length :=
      not_lt.1 fun hroom => hmissing ((mem_firstDistinct_of_room hroom).2 hx)
    have hnodup : (x :: firstDistinct cap xs).Nodup :=
      nodup_cons.2 ⟨hmissing, nodup_firstDistinct xs⟩
    have hsub : x :: firstDistinct cap xs ⊆ xs.dedup := by
      intro y hy
      rcases mem_cons.1 hy with rfl | hy
      · exact mem_dedup.2 hx
      · exact mem_dedup.2 (mem_of_mem_firstDistinct hy)
    have hle := (hnodup.subperm hsub).length_le
    rw [length_cons] at hle
    omega

/-- When an element comes that is not kept, it is reported: an element that is kept is reported
once, any other each time it comes. This is what one more element adds. -/
theorem reports_concat [BEq α] [LawfulBEq α] (xs : List α) (x y : α) :
    (if y ∈ firstDistinct cap (xs ++ [x]) then 1 else (xs ++ [x]).count y) =
      (if y ∈ firstDistinct cap xs then 1 else xs.count y) +
        (if x ∈ firstDistinct cap xs then ([] : List α) else [x]).count y := by
  rw [count_append]
  by_cases hx : x ∈ firstDistinct cap xs
  · rw [firstDistinct_concat, enlist, if_pos (Or.inl hx), if_pos hx, count_nil]
    by_cases hy : y ∈ firstDistinct cap xs
    · rw [if_pos hy, if_pos hy]
    · have hne : x ≠ y := fun heq => hy (heq ▸ hx)
      rw [if_neg hy, if_neg hy, count_singleton, if_neg (by simp [hne])]
  · rw [if_neg hx]
    by_cases hroom : (firstDistinct cap xs).length < cap
    · by_cases heq : y = x
      · subst heq
        -- it is new, or it would have been kept
        have hnew : xs.count y = 0 :=
          count_eq_zero.2 fun hy => hx ((mem_firstDistinct_of_room hroom).2 hy)
        rw [if_pos ((mem_firstDistinct_concat hroom).2 (Or.inr rfl)), if_neg hx, hnew,
          count_singleton_self]
      · have hiff : y ∈ firstDistinct cap (xs ++ [x]) ↔ y ∈ firstDistinct cap xs := by
          rw [mem_firstDistinct_concat hroom]
          exact ⟨fun h => h.resolve_right heq, Or.inl⟩
        have hnone : [x].count y = 0 := by simp [Ne.symm heq]
        simp only [hiff, hnone, Nat.add_zero]
    · rw [firstDistinct_concat, enlist_full (not_lt.1 hroom)]
      split_ifs with hy
      · have hnone : [x].count y = 0 := by
          rw [count_eq_zero, mem_singleton]
          exact ne_of_mem_of_not_mem hy hx
        rw [hnone]
      · rfl

theorem exists_enlist (acc : List α) (x : α) : ∃ more, enlist cap acc x = acc ++ more := by
  unfold enlist
  split_ifs
  · exact ⟨[], (append_nil acc).symm⟩
  · exact ⟨[x], rfl⟩

variable {p : α → Bool}

/-- While there is room, leaving elements out commutes with collecting them. -/
theorem enlist_filter (h : acc.length < cap) (hx : p x = true) :
    enlist cap (acc.filter p) x = (enlist cap acc x).filter p := by
  have hlen : (acc.filter p).length < cap := (length_filter_le p acc).trans_lt h
  unfold enlist
  by_cases hmem : x ∈ acc
  · rw [if_pos (Or.inl (mem_filter.2 ⟨hmem, hx⟩)), if_pos (Or.inl hmem)]
  · have hmem' : x ∉ acc.filter p := fun h => hmem (mem_of_mem_filter h)
    rw [if_neg (not_or.2 ⟨hmem', not_le.2 hlen⟩), if_neg (not_or.2 ⟨hmem, not_le.2 h⟩),
      filter_append, filter_singleton, hx]
    rfl

theorem filter_enlist (hx : p x = false) (acc : List α) :
    (enlist cap acc x).filter p = acc.filter p := by
  unfold enlist
  split_ifs
  · rfl
  · simp [hx]

/-- What is left out makes room for later elements, once the collection is full. -/
theorem firstDistinct_filter (p : α → Bool) (xs : List α) :
    ∃ extra, firstDistinct cap (xs.filter p) = (firstDistinct cap xs).filter p ++ extra ∧
      ((firstDistinct cap xs).length < cap → extra = []) := by
  induction xs using List.reverseRecOn with
  | nil => exact ⟨[], rfl, fun _ => rfl⟩
  | append_singleton xs x ih =>
    obtain ⟨extra, heq, hroom⟩ := ih
    rw [firstDistinct_concat, filter_append]
    by_cases hfull : cap ≤ (firstDistinct cap xs).length
    · rw [enlist_full hfull]
      have hmore : ∃ more, firstDistinct cap (xs.filter p ++ [x].filter p) =
          firstDistinct cap (xs.filter p) ++ more := by
        cases hx : p x with
        | true =>
          rw [filter_singleton, hx, cond_true, firstDistinct_concat]
          exact exists_enlist _ x
        | false =>
          rw [filter_singleton, hx, cond_false, append_nil]
          exact ⟨[], (append_nil _).symm⟩
      obtain ⟨more, hmore⟩ := hmore
      refine ⟨extra ++ more, ?_, fun hlt => absurd hfull (not_le.2 hlt)⟩
      rw [hmore, heq, append_assoc]
    · have hlt := not_le.1 hfull
      rw [hroom hlt, append_nil] at heq
      refine ⟨[], ?_, fun _ => rfl⟩
      rw [append_nil]
      cases hx : p x with
      | true =>
        rw [filter_singleton, hx, cond_true, firstDistinct_concat, heq, enlist_filter hlt hx]
      | false => rw [filter_singleton, hx, cond_false, append_nil, heq, filter_enlist hx]

/-- An element that is kept is kept when others are left out. -/
theorem mem_firstDistinct_filter
    (h : y ∈ firstDistinct cap xs) (hy : p y = true) : y ∈ firstDistinct cap (xs.filter p) := by
  obtain ⟨extra, heq, -⟩ := @firstDistinct_filter α _ cap p xs
  rw [heq]
  exact mem_append_left _ (mem_filter.2 ⟨h, hy⟩)

end FirstDistinct
