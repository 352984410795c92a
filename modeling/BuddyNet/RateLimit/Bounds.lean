import BuddyNet.RateLimit

/-!
# What the limiter admits, and what it keeps

* `global_since`: what the global bucket admits, whatever the order of the times;
* `Forgets`: a limiter that has forgotten full buckets of another one;
* `source_books`: what the bucket of one source admits at a clock that does not go back;
* `answers_unbounded`: the answers are those of a limiter that never forgets a source;
* `Rated`: what the limiters of the servers, which have whole rates, admit in a window of time;
* `limiter_bounds` puts them together.
-/

namespace BuddyNet

open Pacing List AList

namespace Limiter

variable {l l' u : Limiter} {src k : Bytes} {now τ : ℤ}

/-! ### The global bucket -/

section

variable (l : Limiter)

theorem sourceBucket_cases (src : Bytes) (now : ℤ) :
    (l.sourceBucket src now).1 = l ∨ (l.sourceBucket src now).1 = l.pruneLocked now := by
  unfold sourceBucket
  split
  · exact Or.inl rfl
  · dsimp only
    split_ifs
    · exact Or.inr rfl
    · exact Or.inl rfl

theorem chargeSource_frame (src : Bytes) (now : ℤ) :
    (l.chargeSource src now).1.toLimits = l.toLimits ∧
      (l.chargeSource src now).1.global = l.global := by
  have hbucket := l.sourceBucket_cases src now
  unfold chargeSource
  generalize l.sourceBucket src now = res at hbucket ⊢
  obtain ⟨l', _ | b⟩ := res <;> dsimp only at hbucket ⊢ <;> rcases hbucket with rfl | rfl <;>
    exact ⟨rfl, rfl⟩

theorem serve_cases (c : Call) :
    (l.reaches c = true ∧ (l.serve c).1.toLimits = l.toLimits ∧
      (l.serve c).1.global = (l.global.take c.now l.globalRate l.globalBurst).1 ∧
      (l.serve c).2 = (l.global.take c.now l.globalRate l.globalBurst).2) ∨
    (l.reaches c = false ∧ (l.serve c).1.toLimits = l.toLimits ∧
      (l.serve c).1.global = l.global ∧ (l.serve c).2 = false) := by
  cases c with
  | allowGlobal now => exact Or.inl ⟨rfl, rfl, rfl, rfl⟩
  | allow src now =>
    obtain ⟨hlimits, hglobal⟩ := l.chargeSource_frame src now
    unfold serve reaches
    dsimp only
    unfold allow
    generalize l.chargeSource src now = res at hlimits hglobal ⊢
    obtain ⟨l', _ | _ | _⟩ := res
    · exact Or.inr ⟨rfl, hlimits, hglobal, rfl⟩
    · exact Or.inr ⟨rfl, hlimits, hglobal, rfl⟩
    · dsimp only at hlimits hglobal
      refine Or.inl ⟨rfl, hlimits, ?_, ?_⟩
      · show (l'.global.take now l'.globalRate l'.globalBurst).1 = _
        rw [hlimits, hglobal]
        rfl
      · show (l'.global.take now l'.globalRate l'.globalBurst).2 = _
        rw [hlimits, hglobal]
        rfl

variable (cs : List Call)

theorem run_limits : (l.run cs).toLimits = l.toLimits := by
  refine Machine.invariant_run (P := fun l' : Limiter => l'.toLimits = l.toLimits)
    (fun l' c h => ?_) rfl cs
  rcases l'.serve_cases c with ⟨-, hlimits, -⟩ | ⟨-, hlimits, -⟩ <;> exact hlimits.trans h

theorem charges_concat (c : Call) :
    l.charges (cs ++ [c]) = l.charges cs ++
      if (l.run cs).reaches c then [(c.now, ((l.run cs).serve c).2)] else [] := by
  unfold charges
  rw [Machine.trace_concat]
  show _ ++ (if (l.run cs).reaches c then _ else none).toList = _
  split_ifs <;> rfl

theorem admitted_concat (c : Call) :
    l.admitted (cs ++ [c]) = l.admitted cs +
      ((l.run cs).reaches c && ((l.run cs).serve c).2).toNat := by
  unfold admitted
  rw [charges_concat, countP_append]
  cases hreach : (l.run cs).reaches c with
  | false => rfl
  | true => cases hok : ((l.run cs).serve c).2 <;> rfl

theorem run_concat (c : Call) :
    l.run (cs ++ [c]) = ((l.run cs).serve c).1 := Machine.run_concat cs c

end

variable {c : Call}

theorem globalPace_call (hlimits : l'.toLimits = l.toLimits) {g : Bucket} {ok : Bool}
    (hg : g = (l'.global.take c.now l'.globalRate l'.globalBurst).1)
    (hok : ok = (l'.global.take c.now l'.globalRate l'.globalBurst).2) :
    l.globalPace.Call (seconds c.now) (l'.global.level l.globalRate) (g.level l.globalRate) ok ∧
      g.level l.globalRate ≤ l.globalBurst - l.globalRate * seconds c.now := by
  subst hg hok
  rw [hlimits]
  exact l'.global.take_call c.now l.globalRate_nonneg l.globalBurst_nonneg

/-- The global bucket pays for every call that is admitted. -/
theorem serve_call (l : Limiter) (c : Call) :
    l.globalPace.Call (seconds c.now) (l.global.level l.globalRate)
      ((l.serve c).1.global.level l.globalRate) (l.serve c).2 := by
  rcases l.serve_cases c with ⟨-, -, hg, hok⟩ | ⟨-, -, hg, hok⟩
  · exact (globalPace_call rfl hg hok).1
  · rw [hg, hok]
    exact .refused le_rfl

variable {cs : List Call}

/-- The books after one more call. -/
theorem since_concat {first top : ℤ}
    (h : l.globalPace.Since (seconds first) (seconds top) ((l.run cs).global.level l.globalRate)
      (l.admitted cs)) (htop : ∀ e ∈ l.charges (cs ++ [c]), e.1 ≤ top) :
    l.globalPace.Since (seconds first) (seconds top)
      ((l.run (cs ++ [c])).global.level l.globalRate) (l.admitted (cs ++ [c])) := by
  rw [admitted_concat, run_concat]
  rw [charges_concat] at htop
  rcases (l.run cs).serve_cases c with ⟨hreach, -, hg, hok⟩ | ⟨hreach, -, hg, hok⟩ <;>
    rw [hreach] at htop ⊢
  · have hnow : c.now ≤ top := htop _ (mem_append_right _ (mem_singleton_self _))
    have hcall := h.call (globalPace_call (l.run_limits cs) hg hok).1
    rwa [max_eq_left (seconds_mono hnow)] at hcall
  · rw [hg]
    exact h

/-- The books from the first charge on. -/
theorem since_first {top : ℤ} (hreach : (l.run cs).reaches c = true)
    (hnone : l.charges cs = []) (htop : c.now ≤ top) :
    l.globalPace.Since (seconds c.now) (seconds top)
      ((l.run (cs ++ [c])).global.level l.globalRate) (l.admitted (cs ++ [c])) := by
  have hzero : l.admitted cs = 0 := by rw [admitted, hnone]; rfl
  rw [admitted_concat, run_concat, hzero]
  rcases (l.run cs).serve_cases c with ⟨-, -, hg, hok⟩ | ⟨hnot, -⟩
  · obtain ⟨hcall, hcap⟩ := globalPace_call (l.run_limits cs) hg hok
    rw [hreach]
    have hfull : l.globalPace.Since (seconds c.now) (seconds c.now)
        (l.globalBurst - l.globalRate * seconds c.now) 0 := Pace.Since.new le_rfl
    have hsince := hfull.call (hcall.fromFull hcap)
    rw [max_self] at hsince
    exact hsince.mono (seconds_mono htop)
  · rw [hreach] at hnot
    cases hnot

/-- **The books of the global bucket**, since its first charge, and since any time at which it had
no more than a full bucket has. -/
theorem global_since (l : Limiter) (cs : List Call) :
    (∀ first ∈ (l.charges cs).head?, ∀ top, (∀ e ∈ l.charges cs, e.1 ≤ top) →
      l.globalPace.Since (seconds first.1) (seconds top)
        ((l.run cs).global.level l.globalRate) (l.admitted cs)) ∧
    ∀ made top, l.global.level l.globalRate ≤ l.globalBurst - l.globalRate * seconds made →
      made ≤ top → (∀ e ∈ l.charges cs, e.1 ≤ top) →
        l.globalPace.Since (seconds made) (seconds top)
          ((l.run cs).global.level l.globalRate) (l.admitted cs) := by
  -- induction on the calls, the last one first
  induction cs using reverseRecOn with
  | nil =>
    refine ⟨fun first hfirst => by simp [charges, Machine.trace] at hfirst, ?_⟩
    exact fun made top hmade hle _ =>
      (Pace.Since.new (p := l.globalPace) hmade).mono (seconds_mono hle)
  | append_singleton cs c ih =>
    obtain ⟨ihfirst, ihmade⟩ := ih
    have hsub : ∀ e ∈ l.charges cs, e ∈ l.charges (cs ++ [c]) := by
      intro e he
      rw [charges_concat]
      exact mem_append_left _ he
    refine ⟨fun first hfirst top htop => ?_, fun made top hmade hle htop => ?_⟩
    · cases hcs : l.charges cs with
      | nil =>
        -- the call is the first charge, if it is one at all
        rw [charges_concat, hcs] at hfirst
        split_ifs at hfirst with hreach
        · obtain rfl := Option.some.inj hfirst
          have hin : (c.now, ((l.run cs).serve c).2) ∈ l.charges (cs ++ [c]) := by
            rw [charges_concat, if_pos hreach]
            exact mem_append_right _ (mem_singleton_self _)
          exact since_first hreach hcs (htop _ hin)
        · cases hfirst
      | cons e es =>
        have hhead : first ∈ (l.charges cs).head? := by
          rw [charges_concat, hcs] at hfirst
          rw [hcs]
          exact hfirst
        exact since_concat (ihfirst first hhead top fun e he => htop e (hsub e he)) htop
    · exact since_concat (ihmade made top hmade hle fun e he => htop e (hsub e he)) htop

/-! ### Forgotten buckets -/

/-- The limiter is the other one, except that it has forgotten some buckets that are full. -/
structure Forgets (now : ℤ) (l u : Limiter) : Prop where
  limits : l.toLimits = u.toLimits
  global : l.global = u.global
  lookup : ∀ k, l.perSrc.lookup k = u.perSrc.lookup k ∨ l.perSrc.lookup k = none ∧
    ∃ b, u.perSrc.lookup k = some b ∧ b.full now u.srcRate u.srcBurst = true

theorem Forgets.refl (now : ℤ) (l : Limiter) : Forgets now l l := ⟨rfl, rfl, fun _ => Or.inl rfl⟩

/-- What is full stays full, and what was forgotten of what was forgotten is forgotten. -/
theorem Forgets.trans (h : Forgets now l' l) (hu : Forgets τ l u) (hτ : τ ≤ now) :
    Forgets now l' u where
  limits := h.limits.trans hu.limits
  global := h.global.trans hu.global
  lookup := by
    intro k
    rcases h.lookup k with hsame | ⟨hnone, b, hb, hfull⟩
    · rw [hsame]
      refine (hu.lookup k).imp_right ?_
      rintro ⟨hnone, b, hb, hfull⟩
      exact ⟨hnone, b, hb, Bucket.full_mono u.srcRate_nonneg hfull hτ⟩
    · rw [hu.limits] at hfull
      rcases hu.lookup k with hsame' | ⟨hnone', -⟩
      · exact Or.inr ⟨hnone, b, hsame' ▸ hb, hfull⟩
      · rw [hnone'] at hb
        cases hb

theorem pruneLocked_lookup (l : Limiter) (now : ℤ) (k : Bytes) :
    (l.pruneLocked now).perSrc.lookup k =
      (l.perSrc.lookup k).filter fun b => !b.full now l.srcRate l.srcBurst :=
  Go.lookup_deleteIf (fun b : Bucket => b.full now l.srcRate l.srcBurst) l.perSrc k

/-- `pruneLocked` forgets full buckets. -/
theorem pruneLocked_forgets (l : Limiter) (now : ℤ) : Forgets now (l.pruneLocked now) l where
  limits := rfl
  global := rfl
  lookup := by
    intro k
    rw [pruneLocked_lookup]
    cases hb : l.perSrc.lookup k with
    | none => exact Or.inl rfl
    | some b =>
      by_cases hfull : b.full now l.srcRate l.srcBurst = true
      · exact Or.inr ⟨by simp [hfull], b, rfl, hfull⟩
      · exact Or.inl (by simp [hfull])

/-- Finding the bucket of a source forgets full buckets at most, and finds the one in the map, or
makes a new one for which there is room. -/
theorem sourceBucket_spec (l : Limiter) (src : Bytes) (now : ℤ) :
    Forgets now (l.sourceBucket src now).1 l ∧
    ∀ b, (l.sourceBucket src now).2 = some b →
      b = ((l.sourceBucket src now).1.perSrc.lookup src).getD ⟨l.srcBurst, now⟩ ∧
      (src ∈ (l.sourceBucket src now).1.perSrc ∨
        (l.sourceBucket src now).1.perSrc.keys.length < l.maxSources) := by
  refine ⟨?_, ?_⟩
  · rcases l.sourceBucket_cases src now with heq | heq <;> rw [heq]
    · exact Forgets.refl now l
    · exact l.pruneLocked_forgets now
  · unfold sourceBucket
    cases hb : l.perSrc.lookup src with
    | some b =>
      intro b' hb'
      obtain rfl := Option.some.inj hb'
      exact ⟨by rw [hb]; rfl, Or.inl (lookup_isSome.1 (by simp [hb]))⟩
    | none =>
      dsimp only
      intro b' hb'
      by_cases hfull : l.maxSources ≤ l.perSrc.keys.length
      · rw [if_pos hfull] at hb' ⊢
        have hnone : (l.pruneLocked now).perSrc.lookup src = none := by
          rw [pruneLocked_lookup, hb]
          rfl
        split_ifs at hb' with hstill
        obtain rfl := Option.some.inj hb'
        exact ⟨by rw [hnone]; rfl, Or.inr (not_le.1 hstill)⟩
      · rw [if_neg hfull, if_neg hfull] at hb'
        obtain rfl := Option.some.inj hb'
        rw [if_neg hfull]
        exact ⟨by rw [hb]; rfl, Or.inr (not_le.1 hfull)⟩

theorem chargeSource_some {ok : Bool} (h : l.chargeSource src now = (l', some ok)) :
    ∃ l₀, Forgets now l₀ l ∧ (src ∈ l₀.perSrc ∨ l₀.perSrc.keys.length < l.maxSources) ∧
      l' = (l₀.charge src now ((l₀.perSrc.lookup src).getD ⟨l.srcBurst, now⟩)).1 ∧
      ok = (l₀.charge src now ((l₀.perSrc.lookup src).getD ⟨l.srcBurst, now⟩)).2 := by
  obtain ⟨hforget, hsome⟩ := l.sourceBucket_spec src now
  unfold chargeSource at h
  generalize l.sourceBucket src now = res at hforget hsome h
  obtain ⟨l₀, _ | b⟩ := res
  · cases h
  · obtain ⟨hb, hroom⟩ := hsome b rfl
    obtain ⟨rfl, hok⟩ := Prod.mk.inj h
    obtain rfl := Option.some.inj hok
    exact ⟨l₀, hforget, hroom, by rw [← hb], by rw [← hb]⟩

theorem chargeSource_none (h : l.chargeSource src now = (l', none)) : Forgets now l' l := by
  obtain ⟨hforget, -⟩ := l.sourceBucket_spec src now
  unfold chargeSource at h
  generalize l.sourceBucket src now = res at hforget h
  obtain ⟨l₀, _ | b⟩ := res
  · cases h
    exact hforget
  · cases h

/-! ### The bucket of one source -/

/-- The potential of a source: of its bucket, or of the full one it would get at time `τ`. -/
def sourceLevel (l : Limiter) (k : Bytes) (τ : ℤ) : ℚ :=
  match l.perSrc.lookup k with
  | some b => b.level l.srcRate
  | none => l.srcBurst - l.srcRate * seconds τ

/-- The potential of a source rises neither with the clock nor by forgetting. -/
theorem Forgets.sourceLevel_le (h : Forgets now l' l) (hτ : τ ≤ now) (k : Bytes) :
    l'.sourceLevel k now ≤ l.sourceLevel k τ := by
  have hclock : l.srcRate * seconds τ ≤ l.srcRate * seconds now :=
    mul_le_mul_of_nonneg_left (seconds_mono hτ) l.srcRate_nonneg
  unfold sourceLevel
  rw [h.limits]
  rcases h.lookup k with hsame | ⟨hnone, b, hb, hfull⟩
  · rw [hsame]
    cases l.perSrc.lookup k with
    | none =>
      linarith
    | some b => exact le_rfl
  · rw [hnone, hb]
    exact Bucket.full_level hfull

section

variable (l : Limiter)

theorem charge_sourceLevel_self (src : Bytes) (now : ℤ) (b : Bucket) (τ : ℤ) :
    (l.charge src now b).1.sourceLevel src τ =
      (b.take now l.srcRate l.srcBurst).1.level l.srcRate := by
  unfold sourceLevel charge
  rw [lookup_insert]

theorem charge_sourceLevel_ne (now : ℤ) (b : Bucket) (τ : ℤ) (hk : k ≠ src) :
    (l.charge src now b).1.sourceLevel k τ = l.sourceLevel k τ := by
  unfold sourceLevel charge
  rw [lookup_insert_ne hk]

variable (src : Bytes)

theorem level_getD (now : ℤ) :
    ((l.perSrc.lookup src).getD ⟨l.srcBurst, now⟩).level l.srcRate = l.sourceLevel src now := by
  unfold sourceLevel
  cases l.perSrc.lookup src with
  | none => rfl
  | some b => rfl

/-- **A source's own bucket pays** for what it admits, and no charge raises the potential of another
source. -/
theorem chargeSource_level (hτ : τ ≤ now) :
    l.srcPace.Call (seconds now) (l.sourceLevel src τ)
      ((l.chargeSource src now).1.sourceLevel src now)
      ((l.chargeSource src now).2 == some true) ∧
    ∀ k, k ≠ src → (l.chargeSource src now).1.sourceLevel k now ≤ l.sourceLevel k τ := by
  rcases hres : l.chargeSource src now with ⟨l', _ | ok⟩
  · have hforget := chargeSource_none hres
    exact ⟨.refused (hforget.sourceLevel_le hτ src), fun k _ => hforget.sourceLevel_le hτ k⟩
  · obtain ⟨l₀, hforget, -, rfl, rfl⟩ := chargeSource_some hres
    rw [← hforget.limits]
    refine ⟨?_, fun k hk => ?_⟩
    · -- the bucket in the map, or a full one, has the potential of the source
      have hcall := (Bucket.take_call ((l₀.perSrc.lookup src).getD ⟨l₀.srcBurst, now⟩) now
        l₀.srcRate_nonneg l₀.srcBurst_nonneg).1
      rw [level_getD] at hcall
      rw [charge_sourceLevel_self]
      refine (hcall.mono (hforget.sourceLevel_le hτ src)).weaken fun hok => ?_
      exact Option.some.inj (beq_iff_eq.1 hok)
    · rw [charge_sourceLevel_ne _ _ _ _ hk]
      exact hforget.sourceLevel_le hτ k

theorem allow_perSrc (now : ℤ) :
    (l.allow src now).1.perSrc = (l.chargeSource src now).1.perSrc := by
  unfold allow
  rcases l.chargeSource src now with ⟨l', _ | _ | _⟩ <;> rfl

end

theorem sourceLevel_congr (hlimits : l'.toLimits = l.toLimits) (hmap : l'.perSrc = l.perSrc)
    (k : Bytes) (τ : ℤ) : l'.sourceLevel k τ = l.sourceLevel k τ := by
  unfold sourceLevel
  rw [hlimits, hmap]

/-- One call, seen from one source. -/
theorem serve_level (l : Limiter) (src : Bytes) (c : Call) (hτ : τ ≤ c.now) :
    l.srcPace.Call (seconds c.now) (l.sourceLevel src τ) ((l.serve c).1.sourceLevel src c.now)
      (hit src l c).isSome := by
  cases c with
  | allowGlobal now =>
    refine .refused ?_
    exact (Forgets.refl now l).sourceLevel_le hτ src
  | allow src' now =>
    obtain ⟨hself, hother⟩ := l.chargeSource_level src' hτ
    have hlimits : (l.serve (.allow src' now)).1.toLimits =
        (l.chargeSource src' now).1.toLimits := by
      rcases l.serve_cases (.allow src' now) with ⟨-, h, -⟩ | ⟨-, h, -⟩ <;>
        exact h.trans (l.chargeSource_frame src' now).1.symm
    rw [sourceLevel_congr hlimits (l.allow_perSrc src' now)]
    by_cases hsrc : src' = src
    · subst hsrc
      refine hself.weaken fun hhit => ?_
      unfold hit at hhit
      dsimp only at hhit
      split_ifs at hhit with hreach
      · exact hreach.2
      · cases hhit
    · have hnone : hit src l (.allow src' now) = none := if_neg fun h => hsrc h.1
      rw [hnone]
      exact .refused (hother src (Ne.symm hsrc))

theorem admittedFrom_concat (src : Bytes) (l : Limiter) (cs : List Call) (c : Call) :
    admittedFrom src l (cs ++ [c]) =
      admittedFrom src l cs + (hit src (l.run cs) c).isSome.toNat := by
  unfold admittedFrom
  rw [Machine.trace_concat, length_append]
  show _ + (hit src (l.run cs) c).toList.length = _
  cases hit src (l.run cs) c <;> rfl

/-- **The books of one source** at a clock that does not go back, over a time that its calls lie
in. -/
theorem source_books (l : Limiter) (src : Bytes) {lo hi : ℤ} (hle : lo ≤ hi)
    (hsorted : cs.Pairwise fun c d => c.now ≤ d.now)
    (hin : ∀ now, Call.allow src now ∈ cs → lo ≤ now ∧ now ≤ hi) {τ : ℤ}
    (hτ : ∀ c ∈ cs, c.now ≤ τ) :
    l.srcPace.Books (seconds lo) (seconds hi) ((l.run cs).sourceLevel src τ)
      (admittedFrom src l cs) := by
  induction cs using reverseRecOn generalizing τ with
  | nil => exact Pace.Books.new (seconds_mono hle)
  | append_singleton cs c ih =>
    obtain ⟨hcs, -, hbefore⟩ := pairwise_append.1 hsorted
    have hbooks := ih hcs (fun now h => hin now (mem_append_left _ h))
      (fun d hd => hbefore d hd c (mem_singleton_self c))
    have hcall := (l.run cs).serve_level src c le_rfl
    have hpace : (l.run cs).srcPace = l.srcPace := by rw [l.run_limits cs]
    rw [hpace] at hcall
    rw [admittedFrom_concat, run_concat]
    have hwindow : (hit src (l.run cs) c).isSome = true →
        (hit src (l.run cs) c).isSome = true ∧
          seconds lo ≤ seconds c.now ∧ seconds c.now ≤ seconds hi := by
      intro hhit
      refine ⟨hhit, ?_⟩
      cases c with
      | allowGlobal now => cases hhit
      | allow src' now =>
        by_cases hsrc : src' = src
        · subst hsrc
          obtain ⟨hlo, hhi⟩ := hin now (by simp)
          exact ⟨seconds_mono hlo, seconds_mono hhi⟩
        · have hnone : hit src (l.run cs) (.allow src' now) = none := if_neg fun h => hsrc h.1
          rw [hnone] at hhit
          cases hhit
    exact (hbooks.call hcall hwindow).fall ((Forgets.refl τ _).sourceLevel_le (hτ c (by simp)) src)

/-! ### A map without a bound -/

/-- A call on the bucket of a source does not tell whether a full one was forgotten. -/
theorem Forgets.take_eq (h : Forgets now l u) (src : Bytes) :
    ((l.perSrc.lookup src).getD ⟨u.srcBurst, now⟩).take now u.srcRate u.srcBurst =
      ((u.perSrc.lookup src).getD ⟨u.srcBurst, now⟩).take now u.srcRate u.srcBurst := by
  rcases h.lookup src with hsame | ⟨hnone, b, hb, hfull⟩
  · rw [hsame]
  · rw [hnone, hb]
    exact (Bucket.take_of_full hfull).symm

theorem Forgets.charge (h : Forgets now l u) (src : Bytes) :
    Forgets now (l.charge src now ((l.perSrc.lookup src).getD ⟨u.srcBurst, now⟩)).1
      (u.charge src now ((u.perSrc.lookup src).getD ⟨u.srcBurst, now⟩)).1 ∧
    (l.charge src now ((l.perSrc.lookup src).getD ⟨u.srcBurst, now⟩)).2 =
      (u.charge src now ((u.perSrc.lookup src).getD ⟨u.srcBurst, now⟩)).2 := by
  have htake := h.take_eq src
  unfold Limiter.charge
  rw [h.limits, htake]
  refine ⟨⟨rfl, h.global, fun k => ?_⟩, rfl⟩
  by_cases hk : k = src
  · subst hk
    rw [lookup_insert, lookup_insert]
    exact Or.inl rfl
  · rw [lookup_insert_ne hk, lookup_insert_ne hk]
    exact h.lookup k

theorem Forgets.allowGlobal (h : Forgets now l u) (t : ℤ) :
    Forgets now (l.allowGlobal t).1 (u.allowGlobal t).1 ∧
      (l.allowGlobal t).2 = (u.allowGlobal t).2 := by
  unfold Limiter.allowGlobal
  rw [h.limits, h.global]
  exact ⟨⟨rfl, rfl, h.lookup⟩, rfl⟩

/-- **One call on both.** -/
theorem Forgets.serve (h : Forgets τ l u) (hτ : τ ≤ c.now) (hdrop : l.drops c = false) :
    Forgets c.now (l.serve c).1 (u.serveUnbounded c).1 ∧
    (l.serve c).2 = (u.serveUnbounded c).2 := by
  cases c with
  | allowGlobal now => exact ((Forgets.refl now l).trans h hτ).allowGlobal now
  | allow src now =>
    show Forgets now (l.allow src now).1 (u.allowUnbounded src now).1 ∧
      (l.allow src now).2 = (u.allowUnbounded src now).2
    unfold allow allowUnbounded
    rcases hres : l.chargeSource src now with ⟨l', _ | ok⟩
    · simp [drops, hres] at hdrop
    · obtain ⟨l₀, hforget, -, hl', hok⟩ := chargeSource_some hres
      rw [h.limits] at hl' hok
      obtain ⟨hcharged, hanswer⟩ := (hforget.trans h hτ).charge src
      rw [← hl'] at hcharged
      rw [← hok] at hanswer
      generalize u.charge src now ((u.perSrc.lookup src).getD ⟨u.srcBurst, now⟩) = res at *
      obtain ⟨u', ok'⟩ := res
      obtain rfl : ok = ok' := hanswer
      cases ok with
      | false => exact ⟨hcharged, rfl⟩
      | true => exact hcharged.allowGlobal now

/-- **Forgetting full buckets changes no answer**, as long as no call is dropped for want of
room. -/
theorem answers_unbounded (h : Forgets τ l u)
    (hsorted : cs.Pairwise fun c d => c.now ≤ d.now) (hτ : ∀ c ∈ cs, τ ≤ c.now)
    (hdrop : Machine.Along step (fun l c => l.drops c = false) l cs) :
    l.answers cs = u.answersUnbounded cs := by
  induction cs generalizing l u τ with
  | nil => rfl
  | cons c cs ih =>
    obtain ⟨hfirst, hrest⟩ := pairwise_cons.1 hsorted
    obtain ⟨hnext, hanswer⟩ := h.serve (hτ c mem_cons_self) hdrop.1
    have htail := ih hnext hrest hfirst hdrop.2
    show (l.serve c).2 :: answers (l.serve c).1 cs =
      (u.serveUnbounded c).2 :: answersUnbounded (u.serveUnbounded c).1 cs
    rw [hanswer, htail]

/-! ### How many sources are kept -/

theorem Forgets.keys_length_le (h : Forgets now l u) :
    l.perSrc.keys.length ≤ u.perSrc.keys.length := by
  refine Go.keys_length_le fun k hk => ?_
  rcases h.lookup k with hsame | ⟨hnone, -⟩
  · exact lookup_isSome.1 (hsame ▸ lookup_isSome.2 hk)
  · exact absurd hk (lookup_eq_none.1 hnone)

theorem serve_tracked (c : Call) (h : l.perSrc.keys.length ≤ l.maxSources) :
    (l.serve c).1.perSrc.keys.length ≤ l.maxSources := by
  cases c with
  | allowGlobal now => exact h
  | allow src now =>
    show (l.allow src now).1.perSrc.keys.length ≤ l.maxSources
    rw [allow_perSrc]
    rcases hres : l.chargeSource src now with ⟨l', _ | ok⟩
    · exact (chargeSource_none hres).keys_length_le.trans h
    · obtain ⟨l₀, hforget, hroom, rfl, -⟩ := chargeSource_some hres
      have hold := hforget.keys_length_le
      show (l₀.perSrc.insert src _).keys.length ≤ l.maxSources
      rw [Go.keys_length_insert]
      rcases hroom with hmem | hlt
      · have := Go.keys_length_erase_of_mem hmem
        omega
      · have := Go.keys_length_erase_le l₀.perSrc src
        omega

theorem run_tracked (l : Limiter) (h : l.perSrc.keys.length ≤ l.maxSources) (cs : List Call) :
    (l.run cs).perSrc.keys.length ≤ l.maxSources := by
  induction cs using reverseRecOn with
  | nil => exact h
  | append_singleton cs c ih =>
    have hmax : (l.run cs).maxSources = l.maxSources := by rw [l.run_limits cs]
    rw [run_concat, ← hmax]
    exact serve_tracked c (hmax ▸ ih)

/-! ### Whole rates -/

/-- The limiter runs at these rates in tokens a second, with bursts of twice that. -/
structure Rated (l : Limiter) (g r : ℕ) : Prop where
  globalRate : l.globalRate = g
  globalBurst : l.globalBurst = 2 * g
  srcRate : l.srcRate = r
  srcBurst : l.srcBurst = 2 * r

theorem rated_new (g r maxSources : ℕ) (now : ℤ) : (new g r maxSources now).Rated g r where
  globalRate := NNRat.cast_natCast g
  globalBurst := by simp [new]
  srcRate := NNRat.cast_natCast r
  srcBurst := by simp [new]

theorem rated_newGlobal (g : ℕ) (now : ℤ) : (newGlobal g now).Rated g 0 where
  globalRate := NNRat.cast_natCast g
  globalBurst := by simp [newGlobal]
  srcRate := Nat.cast_zero.symm
  srcBurst := by simp [newGlobal]

/-- The pace of a bucket with the given rate in tokens a second and a burst of twice that. -/
def tokenPace (rate : ℕ) : Pace ℚ :=
  pace rate (2 * rate) (Nat.cast_nonneg rate) (by positivity)

theorem tokenPace_count_le {r n : ℕ} {a b : ℤ} {φ : ℚ}
    (h : (tokenPace r).Books (seconds a) (seconds b) φ n) :
    (n : ℚ) ≤ 2 * r + r * seconds (b - a) := by
  have hbound := h.bound
  rw [← seconds_sub] at hbound
  simpa [tokenPace, pace] using hbound

section

variable {g r : ℕ} (h : l.Rated g r)
include h

theorem Rated.of_limits (hlimits : l'.toLimits = l.toLimits) : l'.Rated g r := by
  obtain ⟨h1, h2, h3, h4⟩ := h
  constructor <;> rwa [hlimits]

theorem Rated.globalPace_eq : l.globalPace = tokenPace g := by
  simp only [Limits.globalPace, tokenPace, h.globalRate, h.globalBurst]

theorem Rated.srcPace_eq : l.srcPace = tokenPace r := by
  simp only [Limits.srcPace, tokenPace, h.srcRate, h.srcBurst]

theorem Rated.serve (c : Call) : (l.serve c).1.Rated g r := by
  rcases l.serve_cases c with ⟨-, hlimits, -⟩ | ⟨-, hlimits, -⟩ <;> exact h.of_limits hlimits

theorem Rated.allow (src : Bytes) (now : ℤ) : (l.allow src now).1.Rated g r :=
  h.serve (.allow src now)

theorem Rated.allowGlobal (now : ℤ) : (l.allowGlobal now).1.Rated g r := h.serve (.allowGlobal now)

/-- The global bucket pays for every admission. -/
theorem Rated.serve_call (c : Call) :
    (tokenPace g).Call (seconds c.now) (l.global.level (tokenPace g).rate)
      ((l.serve c).1.global.level (tokenPace g).rate) (l.serve c).2 := by
  rw [← h.globalPace_eq]
  exact l.serve_call c

theorem Rated.allow_call (src : Bytes) (now : ℤ) :
    (tokenPace g).Call (seconds now) (l.global.level (tokenPace g).rate)
      ((l.allow src now).1.global.level (tokenPace g).rate) (l.allow src now).2 :=
  h.serve_call (.allow src now)

theorem Rated.allowGlobal_call (now : ℤ) :
    (tokenPace g).Call (seconds now) (l.global.level (tokenPace g).rate)
      ((l.allowGlobal now).1.global.level (tokenPace g).rate) (l.allowGlobal now).2 :=
  h.serve_call (.allowGlobal now)

/-- A source's own bucket pays for every admission of the source, and no call raises the potential
of another. -/
theorem Rated.allow_source_call (src : Bytes) (hτ : τ ≤ now) :
    (tokenPace r).Call (seconds now) (l.sourceLevel src τ)
      ((l.allow src now).1.sourceLevel src now) (l.allow src now).2 ∧
    ∀ k, (l.allow src now).1.sourceLevel k now ≤ l.sourceLevel k τ := by
  refine ⟨?_, fun k => (l.serve_level k (.allow src now) hτ).falls⟩
  rw [← h.srcPace_eq]
  refine (l.serve_level src (.allow src now) hτ).weaken fun hpassed => ?_
  -- what passes the global bucket has passed the source's own
  rcases l.serve_cases (.allow src now) with ⟨hreach, -⟩ | ⟨-, -, -, hno⟩
  · simp [hit, hreach]
  · cases hpassed.symm.trans hno

end

end Limiter

/-! ### All together -/

/-- **The bounds of a limiter** made at any time with any rates and any number of sources, over any
sequence of calls with any times. The global bucket admits at most its burst and its rate times the
way from the first time that it is charged at, or from its making, to the latest. When the times do
not go back, this holds for each source as well, and the answers are those of a limiter that never
forgets a source, if no call was dropped for want of room. There are never more sources than
allowed. -/
theorem limiter_bounds (globalRate srcRate : ℚ≥0) (maxSources : ℕ) (made : ℤ)
    (cs : List Limiter.Call) :
    let l := Limiter.new globalRate srcRate maxSources made
    (∀ first ∈ (l.charges cs).head?, ∀ largest, (∀ e ∈ l.charges cs, e.1 ≤ largest) →
      (l.admitted cs : ℚ) ≤ 2 * globalRate + globalRate * seconds (largest - first.1)) ∧
    (∀ largest, made ≤ largest → (∀ e ∈ l.charges cs, e.1 ≤ largest) →
      (l.admitted cs : ℚ) ≤ 2 * globalRate + globalRate * seconds (largest - made)) ∧
    ((cs.Pairwise fun c d => c.now ≤ d.now) →
      (∀ src first largest, first ≤ largest →
        (∀ now, Limiter.Call.allow src now ∈ cs → first ≤ now ∧ now ≤ largest) →
          (Limiter.admittedFrom src l cs : ℚ) ≤
            2 * srcRate + srcRate * seconds (largest - first)) ∧
      (Machine.Along Limiter.step (fun l c => l.drops c = false) l cs →
        l.answers cs = l.answersUnbounded cs)) ∧
    Machine.Throughout Limiter.step (fun l => l.perSrc.keys.length ≤ maxSources) l cs := by
  intro l
  -- a bound in the terms of a pace, with single tokens at the price of one
  have hprice : ∀ {p : Pace ℚ} {n : ℕ} {a b : ℤ}, p.price = 1 →
      p.price * n ≤ p.burst + p.rate * (seconds b - seconds a) →
      (n : ℚ) ≤ p.burst + p.rate * seconds (b - a) := by
    intro p n a b hone h
    rw [hone, one_mul, ← seconds_sub] at h
    exact h
  obtain ⟨hfirst, hmade⟩ := l.global_since cs
  refine ⟨?_, ?_, ?_, ?_⟩
  · intro first hmem largest hle
    exact hprice (p := l.globalPace) rfl (hfirst first hmem largest hle).bound
  · intro largest hge hle
    exact hprice (p := l.globalPace) rfl (hmade made largest le_rfl hge hle).bound
  · intro hsorted
    refine ⟨fun src first largest hge hin => ?_, fun hdrop => ?_⟩
    · -- any clock past the last call will do
      obtain ⟨τ, hτ⟩ := (finite_toSet (cs.map Limiter.Call.now)).bddAbove
      have hτ : ∀ c ∈ cs, c.now ≤ τ := fun c hc => hτ (mem_map_of_mem hc)
      exact hprice (p := l.srcPace) rfl (l.source_books src hge hsorted hin hτ).bound
    · cases cs with
      | nil => rfl
      | cons c cs =>
        refine l.answers_unbounded (Limiter.Forgets.refl c.now l) hsorted ?_ hdrop
        intro d hd
        rcases mem_cons.1 hd with rfl | hd
        · exact le_rfl
        · exact (pairwise_cons.1 hsorted).1 d hd
  · exact fun pre _ => l.run_tracked (Nat.zero_le _) pre

end BuddyNet
