import BuddyNet.Library.Machine

/-!
# Refinement of a machine

A machine refines another one through an abstraction of its states when each of its steps is either
invisible or a step of the other machine. Then each of its runs is a run of the other machine.
-/

namespace Machine

variable {σ ε τ δ : Type*} {step : σ → ε → σ} {astep : τ → δ → τ} {abs : σ → τ}
  {I : σ → Prop} {G : σ → ε → Prop} {A : δ → Prop} {s : σ}

/-- **A run whose steps are invisible or allowed abstract steps is an abstract run** of allowed
events. -/
theorem refines_run (hI : ∀ s e, I s → G s e → I (step s e)) (hstep : ∀ s e, I s → G s e →
      abs (step s e) = abs s ∨ ∃ d, A d ∧ abs (step s e) = astep (abs s) d)
    (hs : I s) {es : List ε} (hG : Along step G s es) :
    ∃ ds, (∀ d ∈ ds, A d) ∧ abs (run step s es) = run astep (abs s) ds := by
  induction es generalizing s with
  | nil => exact ⟨[], List.forall_mem_nil _, rfl⟩
  | cons e es ih =>
    obtain ⟨ds, hds, hrun⟩ := ih (hI s e hs hG.1) hG.2
    rcases hstep s e hs hG.1 with hsame | ⟨d, hd, hone⟩
    · rw [hsame] at hrun
      exact ⟨ds, hds, hrun⟩
    · rw [hone] at hrun
      exact ⟨d :: ds, List.forall_mem_cons.2 ⟨hd, hds⟩, hrun⟩

end Machine
