import Mathlib.Data.List.Forall2
import Mathlib.Tactic

/-!
# Loops that gather checked items

A loop over some inputs that stops at the first one it cannot use succeeds exactly when each input
gives an item (`mapM_eq_ok`). A loop that also refuses two items with one key succeeds exactly when
the items exist and their keys are different (`foldlM_step_eq_ok`).
-/

namespace Gather

open List

universe u

variable {ι κ ε : Type*} {α β : Type u}

/-- Each input gives one item. -/
def Gives (make : ι → Except ε α) (xs : List ι) (as : List α) : Prop :=
  List.Forall₂ (fun x a => make x = .ok a) xs as

variable {make : ι → Except ε α} {xs : List ι} {as : List α}

theorem mapM_eq_ok : xs.mapM make = .ok as ↔ Gives make xs as := by
  unfold Gives
  induction xs generalizing as with
  | nil =>
    rw [mapM_nil, forall₂_nil_left_iff]
    exact ⟨fun h => by cases h; rfl, fun h => by rw [h]; rfl⟩
  | cons x xs ih =>
    rw [mapM_cons, forall₂_cons_left_iff]
    cases hx : make x with
    | error e => simp [bind, Except.bind]
    | ok a =>
      cases hxs : xs.mapM make with
      | error e =>
        have hnone : ∀ as, ¬List.Forall₂ (fun x a => make x = .ok a) xs as := fun as h => by
          rw [← ih, hxs] at h
          cases h
        simp [bind, Except.bind, hnone]
      | ok as' =>
        have hsome : ∀ as, List.Forall₂ (fun x a => make x = .ok a) xs as ↔ as' = as := fun as => by
          rw [← ih, hxs, Except.ok.injEq]
        simp only [bind, Except.bind, pure, Except.pure, Except.ok.injEq, hsome]
        constructor
        · rintro rfl
          exact ⟨a, as', rfl, rfl, rfl⟩
        · rintro ⟨a', as'', rfl, rfl, rfl⟩
          rfl

/-- Inputs that the loop passes over can be left out. -/
theorem foldlM_filter {f g : α → ι → Except ε α} {p : ι → Bool}
    (hskip : ∀ a x, p x = false → f a x = .ok a) (huse : ∀ a x, p x = true → f a x = g a x)
    (xs : List ι) (a : α) : xs.foldlM f a = (xs.filter p).foldlM g a := by
  induction xs generalizing a with
  | nil => rfl
  | cons x xs ih =>
    cases hx : p x with
    | true =>
      rw [filter_cons_of_pos hx, foldlM_cons, foldlM_cons, huse a x hx]
      cases g a x with
      | error e => rfl
      | ok b => exact ih b
    | false =>
      rw [filter_cons_of_neg (by rw [hx]; decide), foldlM_cons, hskip a x hx]
      exact ih a

theorem Gives.mem (h : Gives make xs as) {a : α} (ha : a ∈ as) : ∃ x ∈ xs, make x = .ok a := by
  induction h with
  | nil => cases ha
  | cons hx _ ih =>
    rcases mem_cons.1 ha with rfl | ha
    · exact ⟨_, mem_cons_self, hx⟩
    · obtain ⟨x, hmem, hmake⟩ := ih ha
      exact ⟨x, mem_cons_of_mem _ hmem, hmake⟩

theorem Gives.exists_of_mem (h : Gives make xs as) {x : ι}
    (hx : x ∈ xs) : ∃ a ∈ as, make x = .ok a := by
  induction h with
  | nil => cases hx
  | cons hmake _ ih =>
    rcases mem_cons.1 hx with rfl | hx
    · exact ⟨_, mem_cons_self, hmake⟩
    · obtain ⟨a, hmem, hmake'⟩ := ih hx
      exact ⟨a, mem_cons_of_mem _ hmem, hmake'⟩

theorem exists_gives (h : ∀ x ∈ xs, ∃ a, make x = .ok a) : ∃ as, Gives make xs as := by
  induction xs with
  | nil => exact ⟨[], .nil⟩
  | cons x xs ih =>
    obtain ⟨a, ha⟩ := h x mem_cons_self
    obtain ⟨as, has⟩ := ih fun y hy => h y (mem_cons_of_mem x hy)
    exact ⟨a :: as, .cons ha has⟩

theorem gives_bind {next : α → Except ε β} {bs : List β} :
    Gives (fun x => make x >>= next) xs bs ↔ ∃ as, Gives make xs as ∧ Gives next as bs := by
  constructor
  · intro h
    induction h with
    | nil => exact ⟨[], .nil, .nil⟩
    | @cons x b xs bs hx _ ih =>
      obtain ⟨as, hmake, hnext⟩ := ih
      dsimp only at hx
      cases ha : make x with
      | error e =>
        rw [ha] at hx
        cases hx
      | ok a =>
        rw [ha] at hx
        exact ⟨a :: as, .cons ha hmake, .cons hx hnext⟩
  · rintro ⟨as, hmake, hnext⟩
    induction hmake generalizing bs with
    | nil =>
      cases hnext
      exact .nil
    | cons hx _ ih =>
      cases hnext with
      | cons ha hrest =>
        refine .cons ?_ (ih hrest)
        dsimp only
        rw [hx]
        exact ha

/-! ### Items with different keys -/

variable [DecidableEq κ] {key : α → κ} {dup : α → ε}

/-- One more item, unless its key was seen. -/
def step (make : ι → Except ε α) (key : α → κ) (dup : α → ε) (acc : List α) (x : ι) :
    Except ε (List α) := do
  let a ← make x
  if key a ∈ acc.map key then .error (dup a) else .ok (acc ++ [a])

variable {res : List α}

theorem step_eq_ok {acc : List α} {x : ι} : step make key dup acc x = .ok res ↔
    ∃ a, make x = .ok a ∧ key a ∉ acc.map key ∧ res = acc ++ [a] := by
  unfold step
  cases make x with
  | error e => simp [bind, Except.bind]
  | ok a =>
    simp only [bind, Except.bind, Except.ok.injEq, exists_eq_left']
    by_cases hmem : key a ∈ acc.map key
    · rw [if_pos hmem]
      constructor
      · rintro ⟨⟩
      · exact fun h => absurd hmem h.1
    · rw [if_neg hmem, Except.ok.injEq]
      exact ⟨fun h => ⟨hmem, h.symm⟩, fun h => h.2.symm⟩

theorem foldlM_step_append {acc : List α} (hacc : (acc.map key).Nodup) : xs.foldlM
    (step make key dup) acc = .ok res ↔
      ∃ as, Gives make xs as ∧ res = acc ++ as ∧ (res.map key).Nodup := by
  induction xs generalizing acc with
  | nil =>
    constructor
    · intro h
      obtain rfl : acc = res := Except.ok.inj h
      exact ⟨[], .nil, (append_nil acc).symm, hacc⟩
    · rintro ⟨as, hgives, rfl, -⟩
      cases hgives
      rw [append_nil]
      rfl
  | cons x xs ih =>
    rw [foldlM_cons]
    constructor
    · intro h
      cases hstep : step make key dup acc x with
      | error e =>
        rw [hstep] at h
        cases h
      | ok next =>
        obtain ⟨a, hmake, hnew, rfl⟩ := step_eq_ok.1 hstep
        rw [hstep] at h
        have hnext : ((acc ++ [a]).map key).Nodup := by
          rw [map_append, nodup_append]
          refine ⟨hacc, nodup_singleton _, fun k hk k' hk' => ?_⟩
          rw [mem_singleton.1 hk']
          exact fun heq => hnew (heq ▸ hk)
        obtain ⟨as, hgives, rfl, hnodup⟩ := (ih hnext).1 h
        exact ⟨a :: as, .cons hmake hgives, by rw [append_assoc]; rfl, hnodup⟩
    · rintro ⟨as, hgives, rfl, hnodup⟩
      obtain ⟨a, as, hmake, hrest, rfl⟩ := forall₂_cons_left_iff.1 hgives
      have hsplit : acc ++ a :: as = (acc ++ [a]) ++ as := by rw [append_assoc]; rfl
      have hfirst : ((acc ++ [a]).map key).Nodup := by
        rw [hsplit, map_append] at hnodup
        exact (nodup_append.1 hnodup).1
      have hnew : key a ∉ acc.map key := by
        rw [map_append, nodup_append] at hfirst
        exact fun hmem => hfirst.2.2 _ hmem _ (mem_singleton_self _) rfl
      rw [step_eq_ok.2 ⟨a, hmake, hnew, rfl⟩]
      exact (ih hfirst).2 ⟨as, hrest, hsplit, hnodup⟩

/-- **The loop succeeds exactly when every input gives an item and no two have one key.** -/
theorem foldlM_step_eq_ok :
    xs.foldlM (step make key dup) [] = .ok res ↔ Gives make xs res ∧ (res.map key).Nodup := by
  have hnil : (([] : List α).map key).Nodup := nodup_nil
  rw [foldlM_step_append hnil]
  constructor
  · rintro ⟨as, has, rfl, hnodup⟩
    exact ⟨has, hnodup⟩
  · rintro ⟨has, hnodup⟩
    exact ⟨res, has, rfl, hnodup⟩

end Gather
