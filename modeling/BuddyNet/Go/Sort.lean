import Mathlib.Data.List.Sort
import BuddyNet.Go.Text

/-!
# Sorting by a string

The order of Go strings is a strict total order, so a `sort.Slice` by a string that is different for
every element has one result, and sorting it again changes nothing (`insertionSort_sorted`).
-/

namespace BuddyNet.Go

open List

theorem strLt_of_ne {a b : Bytes} (h : a ≠ b) : strLt b a = !strLt a b := by
  induction a generalizing b with
  | nil =>
    cases b with
    | nil => exact absurd rfl h
    | cons y ys => rfl
  | cons x xs ih =>
    cases b with
    | nil => rfl
    | cons y ys =>
      rcases eq_or_ne x y with rfl | hne
      · simp [strLt, ih fun heq => h (heq ▸ rfl)]
      · rcases lt_or_gt_of_ne fun heq => hne (UInt8.toNat_inj.1 heq) with hlt | hgt
        · simp [strLt, hlt, not_lt.2 hlt.le, hne.symm]
        · simp [strLt, hgt, not_lt.2 hgt.le, hne]

theorem strLt_cons {x y : UInt8} {xs ys : Bytes} : strLt (x :: xs) (y :: ys) = true ↔
    x.toNat < y.toNat ∨ x = y ∧ strLt xs ys = true := by
  simp [strLt]

theorem strLt_trans {a b c : Bytes} (hab : strLt a b = true) (hbc : strLt b c = true) :
    strLt a c = true := by
  induction a generalizing b c with
  | nil =>
    match b, c, hbc with
    | [], _ :: _, _ => rfl
    | _ :: _, _ :: _, _ => rfl
  | cons x xs ih =>
    match b, c, hab, hbc with
    | y :: ys, z :: zs, hab, hbc =>
      rw [strLt_cons] at hab hbc ⊢
      rcases hab with hxy | ⟨rfl, hxy⟩
      · rcases hbc with hyz | ⟨rfl, -⟩
        · exact Or.inl (hxy.trans hyz)
        · exact Or.inl hxy
      · rcases hbc with hyz | ⟨rfl, hyz⟩
        · exact Or.inl hyz
        · exact Or.inr ⟨rfl, ih hxy hyz⟩

section ByKey

variable {α : Type*} (key : α → Bytes)

/-- The order by a key. -/
abbrev keyLt (a b : α) : Prop := strLt (key a) (key b) = true

variable {key}

theorem pairwise_orderedInsert {l : List α} (hl : l.Pairwise (keyLt key)) {a : α}
    (ha : ∀ b ∈ l, key a ≠ key b) : (l.orderedInsert (keyLt key) a).Pairwise (keyLt key) := by
  induction l with
  | nil => exact pairwise_singleton _ a
  | cons b l ih =>
    obtain ⟨hb, hl'⟩ := pairwise_cons.1 hl
    rw [orderedInsert_cons]
    split_ifs with hab
    · refine pairwise_cons.2 ⟨fun c hc => ?_, hl⟩
      rcases mem_cons.1 hc with rfl | hc
      · exact hab
      · exact strLt_trans hab (hb c hc)
    · have htail := ih hl' fun c hc => ha c (mem_cons_of_mem b hc)
      refine pairwise_cons.2 ⟨fun c hc => ?_, htail⟩
      rcases (mem_orderedInsert _).1 hc with rfl | hc
      · show strLt (key b) (key c) = true
        rw [strLt_of_ne (ha b mem_cons_self), Bool.eq_false_of_not_eq_true hab]
        rfl
      · exact hb c hc

theorem pairwise_insertionSort {l : List α} (h : (l.map key).Nodup) :
    (l.insertionSort (keyLt key)).Pairwise (keyLt key) := by
  induction l with
  | nil => exact Pairwise.nil
  | cons a l ih =>
    rw [map_cons, nodup_cons] at h
    refine pairwise_orderedInsert (ih h.2) fun b hb heq => h.1 ?_
    rw [heq]
    exact mem_map_of_mem ((mem_insertionSort _).1 hb)

/-- **What is sorted stays as it is**, if no two elements have the same key. -/
theorem insertionSort_sorted {l : List α} (h : (l.map key).Nodup) :
    (l.insertionSort (keyLt key)).insertionSort (keyLt key) = l.insertionSort (keyLt key) :=
  (pairwise_insertionSort h).insertionSort_eq

end ByKey

end BuddyNet.Go
