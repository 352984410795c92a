import BuddyNet.Library.Transaction

/-!
# Programs that keep a log

A transaction whose state is the list of what it has done so far. `Justified P log` says that every
entry of a log is justified by the entries before it, and `Keeps P x log Q` that a program extends a
log with justified entries only, with one rule for each operation.
-/

namespace Transaction

open List

variable {α ε β γ : Type}

/-- Every entry satisfies `P` after the entries before it. -/
def Justified (P : List α → α → Prop) (log : List α) : Prop :=
  ∀ pre a post, log = pre ++ a :: post → P pre a

/-- Add one entry. -/
def emit (a : α) : Transaction (List α) ε Unit := write (· ++ [a])

/-- From `log` the program only adds justified entries, and a result satisfies `Q`. -/
structure Keeps (P : List α → α → Prop) (x : Transaction (List α) ε β) (log : List α)
    (Q : β → List α → Prop) : Prop where
  justified : Justified P (x.final log)
  grows : log <+: x.final log
  post : ∀ b, (x log).2 = .ok b → Q b (x.final log)

variable {P : List α → α → Prop} {x : Transaction (List α) ε β} {log : List α}
  {Q : β → List α → Prop}

theorem justified_nil : Justified P [] := by
  intro pre a post h
  simp at h

theorem Justified.concat {a : α} (h : Justified P log) (ha : P log a) :
    Justified P (log ++ [a]) := by
  intro pre b post hlog
  rcases eq_nil_or_concat post with rfl | ⟨post, c, rfl⟩
  · obtain ⟨rfl, hab⟩ := append_inj' hlog rfl
    cases hab
    exact ha
  · have hlog : log ++ [a] = (pre ++ b :: post) ++ [c] := by simpa using hlog
    exact h pre b post (append_inj' hlog rfl).1

namespace Keeps

theorem mono {R : β → List α → Prop} (h : Keeps P x log Q) (hQ : ∀ b t, Q b t → R b t) :
    Keeps P x log R := ⟨h.justified, h.grows, fun b hb => hQ b _ (h.post b hb)⟩

/-- What holds of the log before also holds after, as far as it only grows. -/
theorem grown {R : β → List α → Prop} (h : Keeps P x log Q)
    (hR : ∀ t, log <+: t → ∀ b, R b t) : Keeps P x log R :=
  ⟨h.justified, h.grows, fun b _ => hR _ h.grows b⟩

section

variable (hlog : Justified P log)
include hlog

theorem pure {b : β} (h : Q b log) : Keeps P (pure b : Transaction (List α) ε β) log Q := by
  refine ⟨hlog, prefix_rfl, ?_⟩
  rintro _ ⟨⟩
  exact h

theorem throw {e : ε} : Keeps P (throw e : Transaction (List α) ε β) log Q := by
  refine ⟨hlog, prefix_rfl, ?_⟩
  rintro _ ⟨⟩

theorem ofExcept {r : Except ε β} (h : ∀ b, r = .ok b → Q b log) :
    Keeps P (ofExcept r) log Q := ⟨hlog, prefix_rfl, h⟩

theorem emit {a : α} {R : Unit → List α → Prop} (ha : P log a)
    (h : R () (log ++ [a])) : Keeps P (emit a : Transaction (List α) ε Unit) log R :=
  ⟨hlog.concat ha, prefix_append log [a], fun _ _ => h⟩

end

/-- Sequencing: the second part starts from a justified log that extends the first one. -/
theorem bind {f : β → Transaction (List α) ε γ} {R : γ → List α → Prop} (h : Keeps P x log Q)
    (hf : ∀ b t, Justified P t → log <+: t → Q b t → Keeps P (f b) t R) :
    Keeps P (x >>= f) log R := by
  cases hres : (x log).2 with
  | error e =>
    have hfinal : (x >>= f).final log = x.final log := by rw [final, bind_error hres, final]
    refine ⟨hfinal ▸ h.justified, hfinal ▸ h.grows, fun c hc => ?_⟩
    rw [bind_error hres] at hc
    cases hc
  | ok b =>
    have hfinal : (x >>= f).final log = (f b).final (x.final log) := by
      rw [final, bind_ok hres, getLastD_append]
      rfl
    have hb := hf b _ h.justified h.grows (h.post b hres)
    refine ⟨hfinal ▸ hb.justified, hfinal ▸ h.grows.trans hb.grows, fun c hc => ?_⟩
    rw [bind_ok hres] at hc
    rw [hfinal]
    exact hb.post c hc

end Keeps

end Transaction
