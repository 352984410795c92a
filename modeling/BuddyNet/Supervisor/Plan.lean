import BuddyNet.Supervisor

/-!
# What a reload plans

A reload compares the manifest with the scopes that the supervisor remembers for the running
buddies, and works its plan off while the workers go on.

* `afterwards`: what the actions of a plan come to, on the scopes that the running buddies are known
  to have. A plan of a reload comes to the manifest (`afterwards_reloadPlan`);
* `manifest`: what was loaded last in a run;
* `planned_run`: at all times, when the rest of the plan has been carried out, every running buddy
  has the scope of the manifest.
-/

namespace BuddyNet.Supervisor

open List

variable {flag : Option Nft.Scope} {s : State} {e : Event}

/-! ### What a plan comes to -/

/-- The scopes of the running buddies as a function. -/
def known (running : AList fun _ : Bytes => Handle) (key : Bytes) : Option (Option Nft.Scope) :=
  (running.lookup key).map Handle.expose

/-- The buddy an action is about. -/
def Action.key : Action → Bytes
  | .stop key => key
  | .rescope key _ => key
  | .start spec => spec.key

/-- What an action makes of the scope of its buddy. -/
def Action.apply : Action → Option (Option Nft.Scope) → Option (Option Nft.Scope)
  | .stop _, _ => none
  | .rescope _ expose, some _ => some expose
  | .rescope _ _, none => none
  | .start _, some expose => some expose
  | .start spec, none => some spec.expose

/-- What is known of a buddy when the actions have been carried out. -/
def afterwards (key : Bytes) (actions : List Action) (known : Option (Option Nft.Scope)) :
    Option (Option Nft.Scope) :=
  actions.foldl (fun known a => if a.key = key then a.apply known else known) known

theorem afterwards_append (key : Bytes) (as as' : List Action) (known : Option (Option Nft.Scope)) :
    afterwards key (as ++ as') known = afterwards key as' (afterwards key as known) :=
  foldl_append

variable {key : Bytes}

theorem afterwards_of_ne {as : List Action} (h : ∀ a ∈ as, a.key ≠ key)
    (known : Option (Option Nft.Scope)) : afterwards key as known = known := by
  induction as with
  | nil => rfl
  | cons a as ih =>
    obtain ⟨hne, has⟩ := forall_mem_cons.1 h
    show afterwards key as (if a.key = key then a.apply known else known) = known
    rw [if_neg hne, ih has]

theorem afterwards_stops (key : Bytes) (keys : List Bytes) (known : Option (Option Nft.Scope)) :
    afterwards key (keys.map .stop) known = if key ∈ keys then none else known := by
  induction keys generalizing known with
  | nil => rfl
  | cons key' keys ih =>
    show afterwards key (keys.map .stop) (if key' = key then none else known) = _
    rw [ih]
    by_cases hkey : key' = key
    · simp [hkey]
    · simp [hkey, Ne.symm hkey]

/-- A plan with at most one action for each buddy. -/
theorem afterwards_filterMap {keys : List Bytes} {f : Bytes → Option Action}
    (hf : ∀ key a, f key = some a → a.key = key) (hnodup : keys.Nodup)
    (known : Option (Option Nft.Scope)) :
    afterwards key (keys.filterMap f) known =
      if key ∈ keys then ((f key).elim known fun a => a.apply known) else known := by
  split_ifs with hmem
  · obtain ⟨l₁, l₂, rfl⟩ := append_of_mem hmem
    have hother : ∀ l : List Bytes, key ∉ l → ∀ a ∈ l.filterMap f, a.key ≠ key := by
      intro l hl a ha heq
      obtain ⟨key', hkey', hfa⟩ := mem_filterMap.1 ha
      exact hl (heq ▸ hf _ _ hfa ▸ hkey')
    have hl₁ : key ∉ l₁ := fun h => (nodup_append'.1 hnodup).2.2 h mem_cons_self
    have hl₂ : key ∉ l₂ := (nodup_cons.1 (nodup_append'.1 hnodup).2.1).1
    rw [filterMap_append, afterwards_append, afterwards_of_ne (hother l₁ hl₁)]
    cases hfk : f key with
    | none =>
      rw [filterMap_cons_none hfk]
      exact afterwards_of_ne (hother l₂ hl₂) _
    | some a =>
      rw [filterMap_cons_some hfk]
      show afterwards key _ (if a.key = key then a.apply known else known) = a.apply known
      rw [if_pos (hf _ _ hfk)]
      exact afterwards_of_ne (hother l₂ hl₂) _
  · refine afterwards_of_ne ?_ _
    intro a ha heq
    obtain ⟨key', hkey', hfa⟩ := mem_filterMap.1 ha
    exact hmem (heq ▸ hf _ _ hfa ▸ hkey')

/-- The buddy has the scope that the manifest gives it, and is in the manifest. -/
def Matches (manifest : AList fun _ : Bytes => Spec) (key : Bytes)
    (known : Option (Option Nft.Scope)) : Prop :=
  ∀ expose ∈ known, ∃ spec, manifest.lookup key = some spec ∧ sameScope expose spec.expose = true

theorem sameScope_refl (expose : Option Nft.Scope) : sameScope expose expose = true := by
  cases expose with
  | none => rfl
  | some scope => exact beq_self_eq_true _

theorem key_of_wanted {desired : List Spec} {spec : Spec}
    (h : (State.wanted desired).lookup key = some spec) : spec.key = key := by
  induction desired using reverseRecOn with
  | nil => cases h
  | append_singleton desired spec' ih =>
    rw [State.wanted, foldl_append] at h
    rcases Go.lookup_insert_cases h with hold | ⟨rfl, rfl⟩
    · exact ih hold
    · rfl

/-- **What a reload plans comes to the manifest.** -/
theorem afterwards_reloadPlan (s : State) (desired : List Spec) (stopOrder wantOrder : List Bytes)
    (key : Bytes) :
    Matches (State.wanted desired) key
      (afterwards key (s.reloadPlan desired stopOrder wantOrder) (known s.running key)) := by
  unfold State.reloadPlan
  rw [afterwards_append, afterwards_stops, afterwards_filterMap ?hf
    (Go.nodup_visitOrder (AList.keys_nodup _))]
  case hf =>
    intro key a h
    split at h
    · next spec hd hwant hrun =>
      split_ifs at h
      cases h
      rfl
    · next spec hwant hrun =>
      cases h
      exact key_of_wanted hwant
    · cases h
  simp only [mem_filter, Go.mem_visitOrder, decide_eq_true_eq]
  cases hwant : (State.wanted desired).lookup key with
  | none =>
    have hout : key ∉ State.wanted desired := AList.lookup_eq_none.1 hwant
    rw [if_neg (fun h => hout (AList.mem_keys.2 h))]
    intro expose hexpose
    split_ifs at hexpose with hin
    · cases hexpose
    · -- a buddy that is not running has no scope
      have hnone : s.running.lookup key = none :=
        AList.lookup_eq_none.2 fun h => hin ⟨AList.mem_keys.1 h, hout⟩
      rw [known, hnone] at hexpose
      cases hexpose
  | some spec =>
    have hin : key ∈ State.wanted desired := AList.lookup_isSome.1 (by simp [hwant])
    rw [if_pos (AList.mem_keys.1 hin), if_neg (fun h => h.2 hin)]
    unfold known
    cases hrun : s.running.lookup key with
    | none =>
      rintro expose ⟨⟩
      exact ⟨spec, hwant, sameScope_refl _⟩
    | some hd =>
      dsimp only
      split_ifs with hsame
      · rintro expose ⟨⟩
        exact ⟨spec, hwant, hsame⟩
      · rintro expose ⟨⟩
        exact ⟨spec, hwant, sameScope_refl _⟩

/-- A buddy that runs is not started again. -/
theorem afterwards_starts_some (specs : List Spec) (key : Bytes) (expose : Option Nft.Scope) :
    afterwards key (specs.map .start) (some expose) = some expose := by
  induction specs with
  | nil => rfl
  | cons spec specs ih =>
    show afterwards key (specs.map .start) (if spec.key = key then some expose else some expose) = _
    rw [ite_self, ih]

/-- What `supervise` is called with comes to the first entry for each buddy. -/
theorem afterwards_starts (specs : List Spec) (key : Bytes) :
    afterwards key (specs.map .start) none =
      ((State.wanted specs.reverse).lookup key).map Spec.expose := by
  induction specs with
  | nil => rfl
  | cons spec specs ih =>
    have hwanted : State.wanted (spec :: specs).reverse =
        (State.wanted specs.reverse).insert spec.key spec := by
      rw [reverse_cons, State.wanted, foldl_append]
      rfl
    show afterwards key (specs.map .start) (if spec.key = key then some spec.expose else none) = _
    rw [hwanted]
    by_cases hkey : spec.key = key
    · subst hkey
      rw [if_pos rfl, afterwards_starts_some, AList.lookup_insert]
      rfl
    · rw [if_neg hkey, ih, AList.lookup_insert_ne (Ne.symm hkey)]

/-! ### The manifest -/

/-- The manifest that a step loads: a reload that the supervisor takes. -/
def loads (s : State) : Event → Option (AList fun _ : Bytes => Spec)
  | .reload desired _ _ =>
    if s.todo = [] ∧ s.waiting = false then some (State.wanted desired) else none
  | _ => none

/-- The manifest that was loaded last; the first one is what `supervise` is called with. -/
def manifest (flag : Option Nft.Scope) (specs : List Spec) (es : List Event) :
    AList fun _ : Bytes => Spec :=
  (Machine.trace (step flag) loads (State.new specs) es).getLast?.getD (State.wanted specs.reverse)

theorem manifest_concat (flag : Option Nft.Scope) (specs : List Spec) (es : List Event)
    (e : Event) :
    manifest flag specs (es ++ [e]) = (loads (runFrom flag specs es) e).getD
    (manifest flag specs es) := by
  unfold manifest
  rw [Machine.trace_concat, ← runFrom]
  cases loads (runFrom flag specs es) e with
  | none => simp
  | some m => simp

/-- When the rest of the plan has been carried out, every running buddy has the scope of the
manifest. -/
def Planned (m : AList fun _ : Bytes => Spec) (s : State) : Prop :=
  ∀ key, Matches m key (afterwards key s.todo (known s.running key))

theorem planned_new (specs : List Spec) :
    Planned (State.wanted specs.reverse) (State.new specs) := by
  intro key expose hexpose
  have hstart := afterwards_starts specs key
  change afterwards key (specs.map .start) none = some expose at hexpose
  rw [hstart] at hexpose
  obtain ⟨spec, hspec, rfl⟩ := Option.map_eq_some_iff.1 hexpose
  exact ⟨spec, hspec, sameScope_refl _⟩

section

variable (running : AList fun _ : Bytes => Handle)

theorem known_erase (key key' : Bytes) :
    known (running.erase key) key' = if key = key' then none else known running key' := by
  unfold known
  split_ifs with hkey
  · rw [hkey, AList.lookup_erase]
    rfl
  · rw [AList.lookup_erase_ne (Ne.symm hkey)]

theorem known_insert (key key' : Bytes) (hd : Handle) :
    known (running.insert key hd) key' =
    if key = key' then some hd.expose else known running key' := by
  unfold known
  split_ifs with hkey
  · rw [hkey, AList.lookup_insert]
    rfl
  · rw [AList.lookup_insert_ne (Ne.symm hkey)]

end

theorem known_stop (s : State) (key key' : Bytes) :
    known (s.stop key).running key' = if key = key' then none else known s.running key' := by
  unfold State.stop
  split
  · exact known_erase _ _ _
  · next hnone =>
    split_ifs with hkey
    · rw [known, ← hkey, hnone]
      rfl
    · rfl

theorem known_rescope (ok : Bool) (s : State) (key key' : Bytes) (expose : Option Nft.Scope) :
    known (s.rescope flag ok key expose).running key' =
      if key = key' then (Action.rescope key expose).apply (known s.running key')
      else known s.running key' := by
  unfold State.rescope
  split
  · next hd hrun =>
    refine (known_insert _ _ _ _).trans ?_
    split_ifs with hkey
    · rw [known, ← hkey, hrun]
      rfl
    · rfl
  · next hnone =>
    split_ifs with hkey
    · rw [known, ← hkey, hnone]
      rfl
    · rfl

theorem known_start (s : State) (spec : Spec) (key' : Bytes) :
    known (s.start spec).running key' =
      if spec.key = key' then (Action.start spec).apply (known s.running key')
      else known s.running key' := by
  unfold State.start
  split
  · next hmem =>
    obtain ⟨hd, hrun⟩ := Option.isSome_iff_exists.1 (AList.lookup_isSome.2 hmem)
    split_ifs with hkey
    · rw [known, ← hkey, hrun]
      rfl
    · rfl
  · next hnew =>
    refine (known_insert _ _ _ _).trans ?_
    split_ifs with hkey
    · rw [known, ← hkey, AList.lookup_eq_none.2 hnew]
      rfl
    · rfl

theorem known_noteExit (s : State) (key key' : Bytes) (g : ℕ) :
    (s.noteExit key g).todo = s.todo ∧
      ∀ expose ∈ known (s.noteExit key g).running key', expose ∈ known s.running key' := by
  unfold State.noteExit
  split
  · split
    · refine ⟨rfl, fun expose hexpose => ?_⟩
      rw [known_erase] at hexpose
      split_ifs at hexpose
      · cases hexpose
      · exact hexpose
    · exact ⟨rfl, fun _ => id⟩
  · exact ⟨rfl, fun _ => id⟩

variable {m : AList fun _ : Bytes => Spec}

/-- Every step but a reload keeps to the plan. -/
theorem Planned.worked (h : Planned m s)
    (hload : ∀ desired stopOrder wantOrder, e ≠ .reload desired stopOrder wantOrder) :
    Planned m (Supervisor.step flag s e) := by
  have heff := step_effect flag s e
  generalize Supervisor.step flag s e = s' at heff ⊢
  cases heff with
  | plan => exact absurd rfl (hload _ _ _)
  | @stopped ok key' rest htodo =>
    intro key
    have hkey := h key
    rw [htodo] at hkey
    rw [known_stop]
    exact hkey
  | @rescoped ok key' expose rest htodo =>
    intro key
    have hkey := h key
    rw [htodo] at hkey
    rw [known_rescope]
    exact hkey
  | @started ok spec rest htodo =>
    intro key
    have hkey := h key
    rw [htodo] at hkey
    rw [known_start]
    exact hkey
  | @noted key' g rest hexit htodo =>
    intro key expose hexpose
    obtain ⟨hsame, hless⟩ := known_noteExit s key' key g
    have hkey := h key expose
    rw [htodo] at hkey
    rw [hsame, htodo] at hexpose
    exact hkey (hless expose hexpose)
  | _ => exact h

theorem Planned.step (h : Planned m s) (e : Event) :
    Planned ((loads s e).getD m) (Supervisor.step flag s e) := by
  cases e with
  | reload desired stopOrder wantOrder =>
    by_cases hfree : s.todo = [] ∧ s.waiting = false
    · rw [loads, if_pos hfree, Supervisor.step, if_pos hfree]
      exact afterwards_reloadPlan s desired stopOrder wantOrder
    · rw [loads, if_neg hfree, Supervisor.step, if_neg hfree]
      exact h
  | _ => exact h.worked nofun

theorem planned_run (flag : Option Nft.Scope) (specs : List Spec) (es : List Event) :
    Planned (manifest flag specs es) (runFrom flag specs es) :=
  Machine.history_run (P := fun log s => Planned (manifest flag specs log) s) (planned_new specs)
    (fun log e h => by rw [manifest_concat]; exact h.step e) es

end BuddyNet.Supervisor
