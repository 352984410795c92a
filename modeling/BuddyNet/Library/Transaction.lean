import Mathlib.Data.List.Basic
import Mathlib.Tactic

/-!
# Transactions of several durable writes

A transaction reads a state, writes it a number of times and ends with a result or an error. Each
write is all-or-nothing; the transaction as a whole is not, since the machine can stop between two
writes, and a write that fails ends it. Its meaning is therefore the list of states it writes.

* `Tx σ ε α`, a monad, with `read`, `write` and `throw`;
* `cut x s n`: the state that the first `n` writes leave behind;
* `Meets x s C Q`: every proper cut satisfies `C`, and the end satisfies `Q`, with one rule for each
  operation.
-/

/-- The states written, in order, and the result. -/
def Transaction (σ ε α : Type) : Type := σ → List σ × Except ε α

namespace Transaction

open List

variable {σ ε α β : Type}

/-- The state after all the writes. -/
def final (x : Transaction σ ε α) (s : σ) : σ := (x s).1.getLastD s

/-- The state after the first `n` writes. -/
def cut (x : Transaction σ ε α) (s : σ) (n : ℕ) : σ := ((x s).1.take n).getLastD s

instance : Monad (Transaction σ ε) where
  pure a := fun _ => ([], .ok a)
  bind x f := fun s =>
    match (x s).2 with
    | .ok a => ((x s).1 ++ (f a (x.final s)).1, (f a (x.final s)).2)
    | .error e => ((x s).1, .error e)

/-- The current state. -/
def read : Transaction σ ε σ := fun s => ([], .ok s)

/-- One durable write. -/
def write (f : σ → σ) : Transaction σ ε Unit := fun s => ([f s], .ok ())

/-- Stop with an error. -/
def throw (e : ε) : Transaction σ ε α := fun _ => ([], .error e)

/-- A computation that may fail and does not write. -/
def ofExcept (r : Except ε α) : Transaction σ ε α := fun _ => ([], r)

/-! ### Cuts -/

theorem getLastD_append (ws ws' : List σ) (s : σ) :
    (ws ++ ws').getLastD s = ws'.getLastD (ws.getLastD s) := by
  cases ws' using reverseRecOn with
  | nil => simp
  | append_singleton ws' t => simp [← append_assoc]

theorem cut_of_length_le {x : Transaction σ ε α} {s : σ} {n : ℕ} (h : (x s).1.length ≤ n) :
    x.cut s n = x.final s := by
  rw [cut, take_of_length_le h]
  rfl

variable {f : α → Transaction σ ε β} {a : α}

theorem bind_ok {x : Transaction σ ε α} {s : σ} (h : (x s).2 = .ok a) :
    (x >>= f) s = ((x s).1 ++ (f a (x.final s)).1, (f a (x.final s)).2) := by
  show (match (x s).2 with
    | .ok a => ((x s).1 ++ (f a (x.final s)).1, (f a (x.final s)).2)
    | .error e => ((x s).1, .error e)) = _
  rw [h]

variable {e : ε}

theorem bind_error {x : Transaction σ ε α} {s : σ}
    (h : (x s).2 = .error e) : (x >>= f) s = ((x s).1, .error e) := by
  show (match (x s).2 with
    | .ok a => ((x s).1 ++ (f a (x.final s)).1, (f a (x.final s)).2)
    | .error e => ((x s).1, .error e)) = _
  rw [h]

theorem bind_eq_ok {x : Transaction σ ε α} {s : σ} {b : β} :
    ((x >>= f) s).2 = .ok b ↔ ∃ a, (x s).2 = .ok a ∧ (f a (x.final s)).2 = .ok b := by
  cases hx : (x s).2 with
  | ok a =>
    rw [bind_ok hx]
    constructor
    · intro hb
      exact ⟨a, rfl, hb⟩
    · rintro ⟨a', heq, hb⟩
      cases heq
      exact hb
  | error e =>
    rw [bind_error hx]
    constructor
    · rintro ⟨⟩
    · rintro ⟨a, heq, -⟩
      cases heq

theorem pure_eq_ok {s : σ} {b : α} : ((pure a : Transaction σ ε α) s).2 = .ok b ↔ b = a := by
  show (Except.ok a : Except ε α) = .ok b ↔ b = a
  rw [Except.ok.injEq, eq_comm]

theorem read_bind_apply (f : σ → Transaction σ ε β) (s : σ) : (read >>= f) s = f s s := rfl

variable {r : Except ε α}

theorem ofExcept_ok_bind (h : r = .ok a) (f : α → Transaction σ ε β) (s : σ) :
    (ofExcept r >>= f) s = f a s := by
  rw [h]
  rfl

theorem ofExcept_error_bind (h : r = .error e)
    (f : α → Transaction σ ε β) (s : σ) : (ofExcept r >>= f) s = ([], .error e) := by
  rw [h]
  rfl

/-- What comes first matters only at the state it starts in. -/
theorem bind_congr {x x' : Transaction σ ε α} {s : σ} (h : x s = x' s)
    (f : α → Transaction σ ε β) : (x >>= f) s = (x' >>= f) s := by
  have hfinal : x.final s = x'.final s := congrArg (fun w => w.1.getLastD s) h
  cases hend : (x s).2 with
  | ok a => rw [bind_ok hend, bind_ok (h ▸ hend), h, hfinal]
  | error e => rw [bind_error hend, bind_error (h ▸ hend), h]

/-! ### Specifications that hold at every cut -/

/-- Every proper cut satisfies `C`, and the result with the state at the end satisfies `Q`. -/
structure Meets (x : Transaction σ ε α) (s : σ) (C : σ → Prop) (Q : Except ε α → σ → Prop) :
    Prop where
  crash : ∀ n < (x s).1.length, C (x.cut s n)
  post : Q (x s).2 (x.final s)

variable {x : Transaction σ ε α} {s : σ} {C : σ → Prop} {Q : Except ε α → σ → Prop}

/-- A cut is a proper one, or it is the end. -/
theorem Meets.cut (h : Meets x s C Q) (n : ℕ) :
    C (x.cut s n) ∨ (x s).1.length ≤ n ∧ Q (x s).2 (x.cut s n) := by
  rcases Nat.lt_or_ge n (x s).1.length with hlt | hge
  · exact Or.inl (h.crash n hlt)
  · refine Or.inr ⟨hge, ?_⟩
    rw [cut_of_length_le hge]
    exact h.post

theorem Meets.mono {C' : σ → Prop} {Q' : Except ε α → σ → Prop} (h : Meets x s C Q)
    (hC : ∀ t, C t → C' t) (hQ : ∀ r t, Q r t → Q' r t) : Meets x s C' Q' :=
  ⟨fun n hn => hC _ (h.crash n hn), hQ _ _ h.post⟩

theorem Meets.pure (h : Q (.ok a) s) : Meets (pure a : Transaction σ ε α) s C Q :=
  ⟨fun n hn => absurd hn (Nat.not_lt_zero n), h⟩

theorem Meets.throw (h : Q (.error e) s) : Meets (throw e : Transaction σ ε α) s C Q :=
  ⟨fun n hn => absurd hn (Nat.not_lt_zero n), h⟩

variable {R : Except ε β → σ → Prop}

/-- Sequencing: the second part starts from what the first part left. -/
theorem Meets.bind (h : Meets x s C Q) (herr : ∀ e t, Q (.error e) t → R (.error e) t)
    (hok : ∀ a t, Q (.ok a) t → Meets (f a) t C R) : Meets (x >>= f) s C R := by
  cases hres : (x s).2 with
  | error e =>
    have hpost := h.post
    rw [hres] at hpost
    refine ⟨fun n hn => ?_, ?_⟩
    · rw [bind_error hres] at hn
      have hC := h.crash n hn
      rwa [Transaction.cut, bind_error hres]
    · rw [final, bind_error hres]
      exact herr e _ hpost
  | ok a =>
    have hpost := h.post
    rw [hres] at hpost
    have hf := hok a _ hpost
    refine ⟨fun n hn => ?_, ?_⟩
    · rw [bind_ok hres, length_append] at hn
      rw [Transaction.cut, bind_ok hres, take_append, getLastD_append]
      rcases Nat.lt_or_ge n (x s).1.length with hlt | hge
      · rw [Nat.sub_eq_zero_of_le hlt.le, take_zero]
        exact h.crash n hlt
      · rw [take_of_length_le hge]
        exact hf.crash (n - (x s).1.length) (by omega)
    · rw [final, bind_ok hres, getLastD_append]
      exact hf.post

theorem Meets.read_bind {f : σ → Transaction σ ε β}
    (h : Meets (f s) s C R) : Meets (read >>= f) s C R := ⟨h.crash, h.post⟩

theorem Meets.ofExcept_bind (herr : ∀ e, r = .error e → R (.error e) s)
    (hok : ∀ a, r = .ok a → Meets (f a) s C R) : Meets (ofExcept r >>= f) s C R := by
  cases r with
  | error e => exact ⟨fun n hn => absurd hn (Nat.not_lt_zero n), herr e rfl⟩
  | ok a => exact ⟨(hok a rfl).crash, (hok a rfl).post⟩

theorem Meets.write {g : σ → σ} {R : Except ε Unit → σ → Prop} (hC : C s)
    (h : R (.ok ()) (g s)) : Meets (write g : Transaction σ ε Unit) s C R := by
  refine ⟨fun n hn => ?_, h⟩
  obtain rfl : n = 0 := Nat.lt_one_iff.1 hn
  exact hC

theorem Meets.write_bind {g : σ → σ} {f : Unit → Transaction σ ε β}
    (hC : C s) (h : Meets (f ()) (g s) C R) : Meets (Transaction.write g >>= f) s C R := by
  refine (Meets.write (R := fun r t => r = .ok () ∧ g s = t) hC ⟨rfl, rfl⟩).bind ?_ ?_
  · rintro e t ⟨he, -⟩
    cases he
  · rintro _ _ ⟨-, rfl⟩
    exact h

/-! ### What holds after success -/

/-- When the transaction succeeds, its result and the state it leaves satisfy `R`. -/
def Ensures (x : Transaction σ ε α) (s : σ) (R : α → σ → Prop) : Prop :=
  ∀ a, (x s).2 = .ok a → R a (x.final s)

section Ensures

variable {R : α → σ → Prop} {R' : β → σ → Prop}

theorem Meets.ensures (h : Meets x s C Q) : Ensures x s fun a t => Q (.ok a) t := fun a ha => by
  have hpost := h.post
  rwa [ha] at hpost

theorem Ensures.pure {a : α} (h : R a s) : Ensures (pure a : Transaction σ ε α) s R := by
  rintro _ ⟨⟩
  exact h

theorem Ensures.throw {e : ε} : Ensures (throw e : Transaction σ ε α) s R := by
  rintro _ ⟨⟩

theorem Ensures.mono {Q : α → σ → Prop} (h : Ensures x s Q) (hQ : ∀ a t, Q a t → R a t) :
    Ensures x s R := fun a ha => hQ a _ (h a ha)

theorem Ensures.bind {f : α → Transaction σ ε β} (h : Ensures x s R)
    (hf : ∀ a t, R a t → Ensures (f a) t R') : Ensures (x >>= f) s R' := by
  intro b hb
  cases hres : (x s).2 with
  | error e =>
    rw [bind_error hres] at hb
    cases hb
  | ok a =>
    rw [bind_ok hres] at hb
    have hpost := hf a _ (h a hres) b hb
    rwa [final, bind_ok hres, getLastD_append]

theorem Ensures.read_bind {f : σ → Transaction σ ε β} (h : Ensures (f s) s R') :
    Ensures (read >>= f) s R' := fun b hb => h b hb

theorem Ensures.ofExcept_bind {r : Except ε α} {f : α → Transaction σ ε β}
    (h : ∀ a, r = .ok a → Ensures (f a) s R') : Ensures (ofExcept r >>= f) s R' := by
  cases r with
  | error e =>
    intro b hb
    cases hb
  | ok a => exact fun b hb => h a rfl b hb

theorem Ensures.write_bind {g : σ → σ} {f : Unit → Transaction σ ε β}
    (h : Ensures (f ()) (g s) R') : Ensures (Transaction.write g >>= f) s R' := by
  have hwrite : Ensures (Transaction.write g : Transaction σ ε Unit) s fun _ t => t = g s :=
    fun _ _ => rfl
  refine hwrite.bind ?_
  rintro _ _ rfl
  exact h

end Ensures

end Transaction
