import Mathlib.Data.List.Infix
import Mathlib.Tactic

/-!
# Machines driven by a list of events

A machine is a total step function `σ → ε → σ`; an event that is not enabled leaves the state as it
is. A run is the fold of the step over a list of events, and every interleaving of several
components is one such list.

* `run`, and how it splits along the list;
* `Along G s es`: every step of the run meets the guard `G`;
* `Throughout P s es`: `P` holds in every state the run goes through;
* the invariant rules: unconditional (`invariant_run`), under a guard (`invariant_along`), and for
  a property that also speaks of the events so far (`history_run`, `history_along`);
* `heldSince`: since when a property of the states has held without a break;
* `trace`: the observations a run makes, one at most for each step, and the rule for two runs that
  differ in hidden events (`trace_unwind`);
* machines with more to their state than another one, and what they have in common with it.
-/

namespace Machine

variable {σ ε : Type*} {step : σ → ε → σ} {s : σ}

/-- The state after a list of events. -/
def run (step : σ → ε → σ) (s : σ) (es : List ε) : σ := es.foldl step s

@[simp] theorem run_nil : run step s [] = s := rfl

@[simp] theorem run_cons (e : ε) (es : List ε) :
    run step s (e :: es) = run step (step s e) es := rfl

theorem run_append (es es' : List ε) :
    run step s (es ++ es') = run step (run step s es) es' := List.foldl_append

theorem run_concat (es : List ε) (e : ε) : run step s (es ++ [e]) = step (run step s es) e := by
  rw [run_append]; rfl

/-- Every step of the run meets the guard. -/
def Along (step : σ → ε → σ) (G : σ → ε → Prop) : σ → List ε → Prop
  | _, [] => True
  | s, e :: es => G s e ∧ Along step G (step s e) es

/-- The property holds in every state the run goes through, the first and the last included. -/
def Throughout (step : σ → ε → σ) (P : σ → Prop) (s : σ) (es : List ε) : Prop :=
  ∀ pre, pre <+: es → P (run step s pre)

instance decidableAlong (G : σ → ε → Prop) [∀ s e, Decidable (G s e)] :
    (s : σ) → (es : List ε) → Decidable (Along step G s es)
  | _, [] => isTrue trivial
  | s, e :: es =>
    have := decidableAlong G (step s e) es
    inferInstanceAs (Decidable (G s e ∧ Along step G (step s e) es))

instance decidableThroughout (P : σ → Prop) [DecidablePred P] (es : List ε) :
    Decidable (Throughout step P s es) :=
  decidable_of_iff (∀ pre ∈ es.inits, P (run step s pre)) <| by simp [Throughout]

variable {G : σ → ε → Prop} {es : List ε}

theorem along_append {es' : List ε} :
    Along step G s (es ++ es') ↔ Along step G s es ∧ Along step G (run step s es) es' := by
  induction es generalizing s with
  | nil => simp [Along]
  | cons e es ih => simp [Along, ih, and_assoc]

theorem Along.mono {G' : σ → ε → Prop} (h : Along step G s es)
    (hmono : ∀ s e, G s e → G' s e) : Along step G' s es := by
  induction es generalizing s with
  | nil => trivial
  | cons e es ih => exact ⟨hmono s e h.1, ih h.2⟩

theorem Along.of_prefix {pre : List ε} (h : Along step G s es) (hp : pre <+: es) :
    Along step G s pre := by
  obtain ⟨post, rfl⟩ := hp
  exact (along_append.1 h).1

theorem along_of_forall (h : ∀ s, ∀ e ∈ es, G s e) : Along step G s es := by
  induction es generalizing s with
  | nil => trivial
  | cons e es ih =>
    exact ⟨h s e List.mem_cons_self, ih fun s e he => h s e (List.mem_cons_of_mem _ he)⟩

theorem Along.and {G' : σ → ε → Prop} (h : Along step G s es)
    (h' : Along step G' s es) : Along step (fun s e => G s e ∧ G' s e) s es := by
  induction es generalizing s with
  | nil => trivial
  | cons e es ih => exact ⟨⟨h.1, h'.1⟩, ih h.2 h'.2⟩

variable {P : σ → Prop}

theorem Throughout.along (h : Throughout step P s es) : Along step (fun s _ => P s) s es := by
  induction es generalizing s with
  | nil => trivial
  | cons e es ih =>
    refine ⟨h [] List.nil_prefix, ih fun pre hp => ?_⟩
    exact h (e :: pre) (List.cons_prefix_cons.2 ⟨rfl, hp⟩)

theorem Throughout.along_steps (h : Throughout step P s es) :
    Along step (fun s e => P s ∧ P (step s e)) s es := by
  induction es generalizing s with
  | nil => trivial
  | cons e es ih =>
    refine ⟨⟨h [] List.nil_prefix, h [e] (by simp)⟩, ih fun pre hp => ?_⟩
    exact h (e :: pre) (List.cons_prefix_cons.2 ⟨rfl, hp⟩)

/-- A guard that every event meets after the events before it. -/
theorem along_of_prefixes
    (h : ∀ log e, log ++ [e] <+: es → G (run step s log) e) : Along step G s es := by
  induction es using List.reverseRecOn with
  | nil => trivial
  | append_singleton es e ih =>
    refine along_append.2 ⟨ih fun log e' hp => h log e' (hp.trans (List.prefix_append _ _)), ?_⟩
    exact ⟨h es e List.prefix_rfl, trivial⟩

/-! ### Invariant rules -/

/-- What every step keeps, every run keeps. -/
theorem invariant_run (hstep : ∀ s e, P s → P (step s e)) (h : P s)
    (es : List ε) : P (run step s es) := by
  induction es generalizing s with
  | nil => exact h
  | cons e es ih => exact ih (hstep s e h)

/-- What every guarded step keeps holds after every run of guarded steps. -/
theorem invariant_along (hstep : ∀ s e, P s → G s e → P (step s e)) (h : P s)
    (hG : Along step G s es) : P (run step s es) := by
  induction es generalizing s with
  | nil => exact h
  | cons e es ih => exact ih (hstep s e h hG.1) hG.2

theorem throughout_along (hstep : ∀ s e, P s → G s e → P (step s e)) (h : P s)
    (hG : Along step G s es) : Throughout step P s es :=
  fun _ hp => invariant_along hstep h (hG.of_prefix hp)

/-- In the runs that meet `H`: when the steps that meet `G` are exactly those that keep the
property, the runs of such steps are exactly the runs that have the property throughout. -/
theorem along_iff_throughout_of {I : σ → Prop} {H : σ → ε → Prop}
    (hI : ∀ s e, I s → H s e → I (step s e))
    (hstep : ∀ s e, I s → P s → H s e → (P (step s e) ↔ G s e)) (hs : I s) (h : P s)
    (hH : Along step H s es) : Along step G s es ↔ Throughout step P s es := by
  induction es generalizing s with
  | nil =>
    refine ⟨fun _ pre hp => ?_, fun _ => trivial⟩
    rw [List.prefix_nil.1 hp]
    exact h
  | cons e es ih =>
    constructor
    · rintro ⟨he, hes⟩ pre hp
      have hnext := (hstep s e hs h hH.1).2 he
      rcases List.prefix_cons_iff.1 hp with rfl | ⟨pre', rfl, hp'⟩
      · exact h
      · exact (ih (hI s e hs hH.1) hnext hH.2).1 hes pre' hp'
    · intro hall
      have hnext : P (step s e) := hall [e] (by simp)
      refine ⟨(hstep s e hs h hH.1).1 hnext, (ih (hI s e hs hH.1) hnext hH.2).2 fun pre hp => ?_⟩
      exact hall (e :: pre) (List.cons_prefix_cons.2 ⟨rfl, hp⟩)

/-- When a guarded step is exactly a step that keeps the property, the guarded runs are exactly
the runs that have the property throughout. -/
theorem along_iff_throughout {I : σ → Prop} (hI : ∀ s e, I s → I (step s e))
    (hstep : ∀ s e, I s → P s → (P (step s e) ↔ G s e)) (hs : I s) (h : P s) (es : List ε) :
    Along step G s es ↔ Throughout step P s es :=
  along_iff_throughout_of (fun s e hi _ => hI s e hi) (fun s e hi hp _ => hstep s e hi hp) hs h
    (along_of_forall (G := fun _ _ => True) fun _ _ _ => trivial)

/-- The rule for a property of the events so far and the state they lead to. -/
theorem history_run {P : List ε → σ → Prop} (h0 : P [] s)
    (hstep : ∀ log e, P log (run step s log) → P (log ++ [e]) (step (run step s log) e))
    (es : List ε) : P es (run step s es) := by
  induction es using List.reverseRecOn with
  | nil => exact h0
  | append_singleton es e ih =>
    rw [run_concat]
    exact hstep es e ih

/-- The same for runs of guarded steps. -/
theorem history_along {P : List ε → σ → Prop} (h0 : P [] s)
    (hstep : ∀ log e, P log (run step s log) → G (run step s log) e →
      P (log ++ [e]) (step (run step s log) e)) (hG : Along step G s es) :
    P es (run step s es) := by
  induction es using List.reverseRecOn with
  | nil => exact h0
  | append_singleton es e ih =>
    obtain ⟨hes, he, -⟩ := along_append.1 hG
    rw [run_concat]
    exact hstep es e (ih hes) he

/-! ### How long a property has held -/

section HeldSince

variable {T : Type*}

/-- Since when a property has held without a break: the time of the event after which it last
became true, or the given answer when it has held from the first state on. -/
def heldSince (step : σ → ε → σ) (time : ε → T) (p : σ → Bool) :
    Option T → σ → List ε → Option T
  | since, _, [] => since
  | since, s, e :: es =>
    heldSince step time p
      (if p (step s e) then if p s then since else some (time e) else none) (step s e) es

theorem heldSince_concat (time : ε → T) (p : σ → Bool) (since : Option T) (es : List ε) (e : ε) :
    heldSince step time p since s (es ++ [e]) =
      if p (step (run step s es) e) then
        if p (run step s es) then heldSince step time p since s es else some (time e)
      else none := by
  induction es generalizing s since with
  | nil => rfl
  | cons a es ih => exact ih _

end HeldSince

/-! ### Observations -/

section Trace

variable {α : Type*}

/-- The observations of a run, in order. -/
def trace (step : σ → ε → σ) (obs : σ → ε → Option α) : σ → List ε → List α
  | _, [] => []
  | s, e :: es => (obs s e).toList ++ trace step obs (step s e) es

theorem trace_append (obs : σ → ε → Option α) (es es' : List ε) :
    trace step obs s (es ++ es') = trace step obs s es ++ trace step obs (run step s es) es' := by
  induction es generalizing s with
  | nil => rfl
  | cons a es ih => simp [trace, ih]

theorem trace_concat (obs : σ → ε → Option α) (es : List ε) (e : ε) :
    trace step obs s (es ++ [e]) = trace step obs s es ++ (obs (run step s es) e).toList := by
  simp [trace_append, trace]

theorem filter_trace (obs : σ → ε → Option α) (p : α → Bool) (es : List ε) :
    (trace step obs s es).filter p = trace step (fun s e => (obs s e).filter p) s es := by
  induction es generalizing s with
  | nil => rfl
  | cons e es ih =>
    rw [trace, trace, List.filter_append, ih]
    congr 1
    cases obs s e with
    | none => rfl
    | some x => cases hp : p x <;> simp [hp, Option.filter]

/-- **Unwinding.** A relation between the states of two runs is kept by a hidden event of one run
alone, which makes no observation, and by a visible event of both, with the same observation. Then
two runs with the same visible events make the same observations. -/
theorem trace_unwind {R : σ → σ → Prop} {obs : σ → ε → Option α} {visible : ε → Bool}
    (hleft : ∀ s f e, R s f → G s e → visible e = false → R (step s e) f ∧ obs s e = none)
    (hright : ∀ s f e, R s f → G f e → visible e = false → R s (step f e) ∧ obs f e = none)
    (hboth : ∀ s f e, R s f → G s e → G f e → visible e = true →
      R (step s e) (step f e) ∧ obs s e = obs f e)
    {f : σ} (h : R s f) {es es' : List ε} (hsame : es.filter visible = es'.filter visible)
    (hG : Along step G s es) (hG' : Along step G f es') :
    trace step obs s es = trace step obs f es' := by
  induction es generalizing s f es' with
  | nil =>
    -- the second run goes on with hidden events only
    induction es' generalizing f with
    | nil => rfl
    | cons e es' ih =>
      cases hv : visible e with
      | true => simp [hv] at hsame
      | false =>
        obtain ⟨hR, hnone⟩ := hright s f e h hG'.1 hv
        rw [List.filter_cons_of_neg (by simp [hv])] at hsame
        simpa [trace, hnone] using ih hR hsame hG'.2
  | cons e es ih =>
    cases hv : visible e with
    | false =>
      obtain ⟨hR, hnone⟩ := hleft s f e h hG.1 hv
      rw [List.filter_cons_of_neg (by simp [hv])] at hsame
      simpa [trace, hnone] using ih hR hsame hG.2 hG'
    | true =>
      rw [List.filter_cons_of_pos hv] at hsame
      -- hidden events of the second run up to the same visible one
      induction es' generalizing f with
      | nil => cases hsame
      | cons e' es' ih' =>
        cases hv' : visible e' with
        | false =>
          obtain ⟨hR, hnone⟩ := hright s f e' h hG'.1 hv'
          rw [List.filter_cons_of_neg (by simp [hv'])] at hsame
          simpa [trace, hnone] using ih' hR hsame hG'.2
        | true =>
          rw [List.filter_cons_of_pos hv'] at hsame
          obtain ⟨rfl, hrest⟩ := List.cons.inj hsame
          obtain ⟨hR, hobs⟩ := hboth s f e h hG.1 hG'.1 hv
          simp only [trace, hobs, ih hR hrest hG.2 hG'.2]

end Trace

/-! ### A machine that keeps more -/

section Projection

variable {τ α : Type*} {step' : τ → ε → τ} {π : τ → σ} (hπ : ∀ t e, π (step' t e) = step (π t) e)
include hπ

theorem run_proj (t : τ) (es : List ε) : π (run step' t es) = run step (π t) es := by
  induction es generalizing t with
  | nil => rfl
  | cons e es ih => rw [run_cons, run_cons, ih, hπ]

theorem along_proj {t : τ} :
    Along step' (fun t e => G (π t) e) t es ↔ Along step G (π t) es := by
  induction es generalizing t with
  | nil => exact Iff.rfl
  | cons e es ih => rw [Along, Along, ih, hπ]

theorem trace_proj (obs : σ → ε → Option α) (t : τ) (es : List ε) :
    trace step' (fun t e => obs (π t) e) t es = trace step obs (π t) es := by
  induction es generalizing t with
  | nil => rfl
  | cons e es ih => rw [trace, trace, ih, hπ]

end Projection

end Machine
