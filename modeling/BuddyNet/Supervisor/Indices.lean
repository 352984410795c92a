import BuddyNet.Exposure

/-!
# Who holds an interface index

The index map is keyed by buddy, a worker keeps the index it was started with, and the supervisor
forgets a worker when a reload drops its buddy, long before the worker is done.

* `indices_distinct`: no two workers at work have the same index, as long as a buddy's worker is
  started only after the earlier workers of that buddy have returned;
* `indices_given_back`: the buddies in the index map are those with a worker whose exit is still to
  be handled, as long as the last exit of a buddy to be handled is that of the worker in the map of
  running ones.

The first is part of the invariant `Staffed`; the second rests on an account of what a step does to
workers, notifications and maps (`step_books`).
-/

namespace BuddyNet.Supervisor

open Machine AList

variable {flag : Option Nft.Scope} {s s' : State} {e : Event}

/-! ### Indices of workers at work -/

/-- A worker at work, with its buddy and its index. -/
def Holds (s : State) (g : ℕ) (key : Bytes) (idx : ℕ) : Prop :=
  ∃ w, s.workers.lookup g = some w ∧ w.AtWork ∧ w.key = key ∧ w.ifIndex = idx

/-- Workers at work have pairwise different indices. -/
def Distinct (s : State) : Prop :=
  ∀ g g' key key' idx, Holds s g key idx → Holds s g' key' idx → g = g'

theorem Staffed.distinct (h : Staffed s) : Distinct s := by
  rintro g g' _ _ _ ⟨w, hw, hat, -, rfl⟩ ⟨w', hw', hat', -, hidx⟩
  exact h.same_of_name hw hw' hat hat' (by rw [hidx])

/-- **No two workers at work share an interface index**, provided that a buddy's worker is started
only after the earlier workers of that buddy have returned. -/
theorem indices_distinct (flag : Option Nft.Scope) (specs : List Spec) (es : List Event)
    (hG : Along (step flag) (fun s e => drained s e) (State.new specs) es) :
    Throughout (step flag) Distinct (State.new specs) es := by
  intro pre hpre
  have hstaffed : Staffed (run (step flag) (State.new specs) pre) :=
    invariant_along (fun _ _ h hd => staffed_step h hd) (staffed_new specs)
      (hG.of_prefix hpre)
  exact hstaffed.distinct

/-- A buddy that is dropped by one reload and wanted again by the next gets a second worker with the
index of the first one, which has not returned. -/
theorem indices_distinct_fails :
    ¬ Throughout (step none) Distinct (State.new [Sample.spec])
      (.act true :: Sample.restart) := by
  intro hall
  have hfirst : (runFrom none [Sample.spec] (.act true :: Sample.restart)).workers.lookup 1 =
      some ⟨Sample.spec.key, 0, none, true, .looping true⟩ := by decide +kernel
  have hsecond : (runFrom none [Sample.spec] (.act true :: Sample.restart)).workers.lookup 2 =
      some ⟨Sample.spec.key, 0, none, false, .looping true⟩ := by decide +kernel
  have hsame := hall _ List.prefix_rfl 1 2 _ _ 0 ⟨_, hfirst, by simp [Worker.AtWork], rfl, rfl⟩
    ⟨_, hsecond, by simp [Worker.AtWork], rfl, rfl⟩
  exact absurd hsame (by decide)

/-- The same after the first worker has returned: the second one is alone with the index. -/
theorem indices_distinct_restart :
    let es := .act true :: .ret 1 :: Sample.restart
    (runFrom none [Sample.spec] es).workers.keys.length = 2 ∧
      Distinct (runFrom none [Sample.spec] es) :=
  ⟨by decide +kernel, indices_distinct none [Sample.spec] _ (by decide +kernel) _ List.prefix_rfl⟩

/-! ### The books -/

/-- A worker whose exit has not been handled. -/
def Pending (s : State) (key : Bytes) (g : ℕ) : Prop :=
  (∃ w, s.workers.lookup g = some w ∧ w.key = key) ∨ (key, g) ∈ s.exited

/-- Workers go on and may be forgotten. -/
structure Worked (s s' : State) : Prop where
  gen : s'.gen = s.gen
  ifIndexOf : s'.ifIndexOf = s.ifIndexOf
  pending : ∀ key g, Pending s' key g ↔ Pending s key g
  running : ∀ {key h}, s'.running.lookup key = some h →
    ∃ h₀, s.running.lookup key = some h₀ ∧ h₀.gen = h.gen

/-- A worker is started. -/
structure Started (s : State) (spec : Spec) (s' : State) : Prop where
  gen : s'.gen = s.gen + 1
  ifIndexOf : s'.ifIndexOf = s.ifIndexOf.insert spec.key (allocIf s.ifIndexOf spec.key)
  workers : s'.workers = s.workers.insert (s.gen + 1)
    ⟨spec.key, allocIf s.ifIndexOf spec.key, spec.expose, false, .looping true⟩
  running : s'.running = s.running.insert spec.key ⟨s.gen + 1, spec.expose⟩
  exited : s'.exited = s.exited

/-- The exit of a worker is handled. -/
structure Handled (s : State) (key : Bytes) (g : ℕ) (s' : State) : Prop where
  idle : s.todo = []
  serving : s.waiting = false
  gen : s'.gen = s.gen
  workers : s'.workers = s.workers
  exited : s.exited = (key, g) :: s'.exited

/-- What a step does to the books; a worker whose exit is handled is the running one or not. -/
inductive BookEffect (s : State) (e : Event) (s' : State) : Prop
  | worked (hworked : Worked s s')
  | started (spec : Spec) (ok : Bool) (rest : List Action) (hact : e = .act ok)
      (htodo : s.todo = .start spec :: rest) (hfree : spec.key ∉ s.running)
      (hstarted : Started s spec s')
  | freed (key : Bytes) (g : ℕ) (h : Handle) (hexit : e = .exit) (hhandled : Handled s key g s')
      (hrun : s.running.lookup key = some h) (hcurrent : h.gen = g)
      (hindex : s'.ifIndexOf = s.ifIndexOf.erase key) (hrunning : s'.running = s.running.erase key)
  | stale (key : Bytes) (g : ℕ) (hexit : e = .exit) (hhandled : Handled s key g s')
      (hother : ∀ h, s.running.lookup key = some h → h.gen ≠ g)
      (hindex : s'.ifIndexOf = s.ifIndexOf) (hrunning : s'.running = s.running)

theorem BookEffect.same (hgen : s'.gen = s.gen) (hindex : s'.ifIndexOf = s.ifIndexOf)
    (hworkers : s'.workers = s.workers) (hrunning : s'.running = s.running)
    (hexited : s'.exited = s.exited) : BookEffect s e s' := by
  refine .worked ⟨hgen, hindex, fun key g => ?_, fun hlook => ⟨_, hrunning ▸ hlook, rfl⟩⟩
  rw [Pending, Pending, hworkers, hexited]

variable {g : ℕ} {w : Worker}

/-- A worker keeps its buddy. -/
theorem pending_update (s' : State) (w' : Worker) (hw : s.workers.lookup g = some w)
    (hkey : w'.key = w.key) (hworkers : s'.workers = s.workers.insert g w')
    (hexited : s'.exited = s.exited) (key : Bytes) (g₁ : ℕ) :
    Pending s' key g₁ ↔ Pending s key g₁ := by
  rw [Pending, Pending, hworkers, hexited]
  refine or_congr_left ?_
  by_cases hg : g₁ = g
  · subst hg
    simp [hw, hkey]
  · rw [lookup_insert_ne hg]

theorem BookEffect.move {phase : Phase} (hw : s.workers.lookup g = some w) (nft : Nft.State)
    (links : AList fun _ : Bytes => ℕ) (n : ℕ) :
    BookEffect s e { s.move g w phase with nft := nft, links := links, nextLink := n } :=
  .worked ⟨rfl, rfl, pending_update _ { w with phase := phase } hw rfl rfl rfl,
    fun hlook => ⟨_, hlook, rfl⟩⟩

theorem pending_withWorker (s' : State) (g : ℕ) (f : Worker → Worker)
    (hkey : ∀ w, (f w).key = w.key)
    (hworkers : s'.workers = s.withWorker g f) (hexited : s'.exited = s.exited) (key : Bytes)
    (g₁ : ℕ) : Pending s' key g₁ ↔ Pending s key g₁ := by
  unfold State.withWorker at hworkers
  split at hworkers
  · next w hw => exact pending_update s' (f w) hw (hkey w) hworkers hexited key g₁
  · rw [Pending, Pending, hworkers, hexited]

theorem BookEffect.stop (s : State) (key : Bytes) (rest : List Action) :
    BookEffect s e { s.stop key with todo := rest } := by
  unfold State.stop
  split
  · next h hrun =>
    refine .worked ⟨rfl, rfl, ?_, fun hlook => ⟨_, Go.lookup_of_erase hlook, rfl⟩⟩
    exact pending_withWorker _ h.gen (fun w => { w with cancelled := true }) (fun _ => rfl) rfl rfl
  · exact .same rfl rfl rfl rfl rfl

theorem BookEffect.rescope (flag : Option Nft.Scope) (ok : Bool) (s : State) (key : Bytes)
    (expose : Option Nft.Scope) (rest : List Action) :
    BookEffect s e { s.rescope flag ok key expose with todo := rest } := by
  unfold State.rescope
  split
  · next h hrun =>
    refine .worked ⟨rfl, rfl, ?_, fun hlook => ?_⟩
    · exact pending_withWorker _ h.gen (fun w => { w with cell := expose }) (fun _ => rfl) rfl rfl
    · rcases Go.lookup_insert_cases hlook with hold | ⟨rfl, rfl⟩
      · exact ⟨_, hold, rfl⟩
      · exact ⟨h, hrun, rfl⟩
  · exact .same rfl rfl rfl rfl rfl

variable {spec : Spec}

theorem BookEffect.start {rest : List Action} (ok : Bool) (htodo : s.todo = .start spec :: rest) :
    BookEffect s (.act ok) { s.start spec with todo := rest } := by
  unfold State.start
  split
  · exact .same rfl rfl rfl rfl rfl
  · next hfree => exact .started spec ok rest rfl htodo hfree ⟨rfl, rfl, rfl, rfl, rfl⟩

variable {key : Bytes}

theorem BookEffect.noteExit {rest : List (Bytes × ℕ)}
    (hexit : s.exited = (key, g) :: rest) (hidle : s.todo = []) (hwait : s.waiting = false) :
    BookEffect s .exit { s.noteExit key g with exited := rest } := by
  unfold State.noteExit
  split
  · next h hrun =>
    split
    · next hgen => exact .freed key g h rfl ⟨hidle, hwait, rfl, rfl, hexit⟩ hrun hgen rfl rfl
    · next hgen =>
      refine .stale key g rfl ⟨hidle, hwait, rfl, rfl, hexit⟩ (fun h' hlook => ?_) rfl rfl
      obtain rfl := Option.some.inj (hrun.symm.trans hlook)
      exact hgen
  · next hnone =>
    refine .stale key g rfl ⟨hidle, hwait, rfl, rfl, hexit⟩ (fun h' hlook => ?_) rfl rfl
    simp [hnone] at hlook

/-- A notification is sent: the worker is pending as before. -/
theorem BookEffect.sent (hw : s.workers.lookup g = some w) :
    BookEffect s e { s with workers := s.workers.erase g, exited := s.exited ++ [(w.key, g)] } := by
  refine .worked ⟨rfl, rfl, fun key g₁ => ?_, fun hlook => ⟨_, hlook, rfl⟩⟩
  simp only [Pending, List.mem_append, List.mem_singleton, Prod.mk.injEq]
  by_cases hg : g₁ = g
  · subst hg
    simp [hw, or_comm, eq_comm]
  · simp [lookup_erase_ne hg, hg]

/-- **Every step keeps the books.** -/
theorem step_books (flag : Option Nft.Scope) (s : State) (e : Event) :
    BookEffect s e (step flag s e) := by
  have heff := step_effect flag s e
  generalize step flag s e = s' at heff ⊢
  cases heff with
  | idle | plan | cancelled | waiting => exact .same rfl rfl rfl rfl rfl
  | stopped => exact .stop s _ _
  | rescoped => exact .rescope flag _ s _ _ _
  | started htodo => exact .start _ htodo
  | noted hexit htodo hwait => exact .noteExit hexit htodo hwait
  | drawn hw | failed hw | returned hw | applied hw | upped hw | upFailed hw | downed hw
  | removed hw => exact .move hw _ _ _
  | sent hw => exact .sent hw

section

variable {key' : Bytes} {g' : ℕ}

theorem Started.pending_cases (hs : Started s spec s') (h : Pending s' key g) :
    Pending s key g ∨ key = spec.key ∧ g = s.gen + 1 := by
  rcases h with ⟨w', hlook, rfl⟩ | hexit
  · rw [hs.workers] at hlook
    rcases Go.lookup_insert_cases hlook with hold | ⟨rfl, rfl⟩
    · exact .inl (.inl ⟨w', hold, rfl⟩)
    · exact .inr ⟨rfl, rfl⟩
  · exact .inl (.inr (hs.exited ▸ hexit))

theorem Handled.pending (hs : Handled s key g s') (h : Pending s' key' g') : Pending s key' g' := by
  rcases h with hw | hexit
  · exact .inl (hs.workers ▸ hw)
  · exact .inr (hs.exited ▸ List.mem_cons_of_mem _ hexit)

theorem Handled.pending_of_ne (hs : Handled s key g s') (h : Pending s key' g')
    (hne : (key', g') ≠ (key, g)) : Pending s' key' g' := by
  rcases h with hw | hexit
  · exact .inl (hs.workers ▸ hw)
  · rw [hs.exited] at hexit
    exact .inr ((List.mem_cons.1 hexit).resolve_left hne)

end

/-! ### Indices are given back -/

/-- The workers whose exit has not been handled, by buddy and generation. -/
def unhandled (s : State) : List (Bytes × ℕ) :=
  s.workers.entries.map (fun x => (x.2.key, x.1)) ++ s.exited

theorem mem_unhandled : (key, g) ∈ unhandled s ↔ Pending s key g := by
  unfold unhandled Pending
  rw [List.mem_append, List.mem_map]
  refine or_congr_left ⟨?_, ?_⟩
  · rintro ⟨⟨g', w⟩, hmem, heq⟩
    obtain ⟨rfl, rfl⟩ := Prod.mk.inj heq
    exact ⟨w, mem_lookup_iff.2 hmem, rfl⟩
  · rintro ⟨w, hw, rfl⟩
    exact ⟨⟨g, w⟩, mem_lookup_iff.1 hw, rfl⟩

/-- The worker a step starts. -/
def started (s : State) : Event → Option (Bytes × ℕ)
  | .act _ =>
    match s.todo with
    | .start spec :: _ => if spec.key ∈ s.running then none else some (spec.key, s.gen + 1)
    | _ => none
  | _ => none

/-- The workers started in a run, by buddy and generation. -/
def starts (flag : Option Nft.Scope) (s : State) (es : List Event) : List (Bytes × ℕ) :=
  trace (step flag) started s es

/-- The indices are with the buddies they belong to: a buddy whose last worker's exit was handled
has none, and the buddies that have one are those with a worker whose exit is still to be
handled. -/
structure GivenBack (log : List (Bytes × ℕ)) (s : State) : Prop where
  last : ∀ key g, (key, g) ∈ log → (∀ g', (key, g') ∈ log → g' ≤ g) → ¬ Pending s key g →
    key ∉ s.ifIndexOf
  holders : ∀ key, key ∈ s.ifIndexOf ↔ ∃ g, Pending s key g

/-- When an exit is handled, a newer worker of the buddy is still to be handled; or it is the exit
of the running worker, and no other worker of the buddy is still to be handled. -/
def inOrder (s : State) : Event → Bool
  | .exit =>
    match s.exited with
    | (key, g) :: rest =>
      let others := (unhandled { s with exited := rest }).filter (·.1 = key)
      s.todo ≠ [] || s.waiting || others.any (g < ·.2) ||
        ((s.running.lookup key).any (·.gen = g) && others.isEmpty)
    | [] => true
  | _ => true

theorem started_eq_none (h : (step flag s e).gen = s.gen) : started s e = none := by
  unfold started
  split
  · next ok =>
    split
    · next spec rest htodo =>
      split_ifs with hmem
      · rfl
      · simp [step, htodo, State.start, hmem] at h
    · rfl
  · rfl

/-- What is known of the workers started so far: those whose exit is still to be handled are among
them, the running one is the last one of its buddy, and when any worker of a buddy is still to be
handled, its last one is. -/
structure Tracked (log : List (Bytes × ℕ)) (s : State) : Prop where
  gen_le : ∀ {key g}, (key, g) ∈ log → g ≤ s.gen
  logged : ∀ {key g}, Pending s key g → (key, g) ∈ log
  running : ∀ {key h}, s.running.lookup key = some h →
    Pending s key h.gen ∧ ∀ g, (key, g) ∈ log → g ≤ h.gen
  newest : ∀ {key g}, (key, g) ∈ log → (∀ g', (key, g') ∈ log → g' ≤ g) →
    (∃ g', Pending s key g') → Pending s key g
  holders : ∀ key, key ∈ s.ifIndexOf ↔ ∃ g, Pending s key g

variable {log : List (Bytes × ℕ)}

theorem Tracked.givenBack (h : Tracked log s) : GivenBack log s := by
  refine ⟨fun key g hmem hlast hnot hin => ?_, h.holders⟩
  exact hnot (h.newest hmem hlast ((h.holders key).1 hin))

theorem tracked_new (specs : List Spec) : Tracked [] (State.new specs) := by
  have hnone {key : Bytes} {g : ℕ} : ¬ Pending (State.new specs) key g := by
    rintro (⟨w, hw, -⟩ | hexit)
    · cases hw
    · cases hexit
  refine ⟨fun h => (nomatch h), fun h => absurd h hnone, fun h => (nomatch h), fun h => (nomatch h),
    fun key => ⟨fun h => absurd h (notMem_empty key), ?_⟩⟩
  rintro ⟨g, hg⟩
  exact absurd hg hnone

theorem Tracked.worked (h : Tracked log s) (hw : Worked s s') : Tracked log s' := by
  refine ⟨fun hmem => hw.gen ▸ h.gen_le hmem, fun hp => h.logged ((hw.pending _ _).1 hp),
    ?_, ?_, ?_⟩
  · intro key hd hlook
    obtain ⟨h₀, hold, heq⟩ := hw.running hlook
    rw [← heq, hw.pending]
    exact h.running hold
  · intro key g hmem hlast
    simp only [hw.pending]
    exact h.newest hmem hlast
  · intro key
    simp only [hw.ifIndexOf, hw.pending]
    exact h.holders key

theorem Tracked.started (h : Tracked log s) (hs : Started s spec s') :
    Tracked (log ++ [(spec.key, s.gen + 1)]) s' := by
  have hnew : Pending s' spec.key (s.gen + 1) :=
    .inl ⟨_, by rw [hs.workers]; exact lookup_insert _, rfl⟩
  have hpending (key : Bytes) (g : ℕ) :
      Pending s' key g ↔ Pending s key g ∨ key = spec.key ∧ g = s.gen + 1 := by
    refine ⟨hs.pending_cases, ?_⟩
    rintro ((⟨w, hw, hkey⟩ | hexit) | ⟨rfl, rfl⟩)
    · have hle := h.gen_le (h.logged (.inl ⟨w, hw, hkey⟩))
      refine .inl ⟨w, ?_, hkey⟩
      rw [hs.workers, lookup_insert_ne (by omega), hw]
    · exact .inr (hs.exited ▸ hexit)
    · exact hnew
  have hmem {key : Bytes} {g : ℕ} : (key, g) ∈ log ++ [(spec.key, s.gen + 1)] ↔
      (key, g) ∈ log ∨ key = spec.key ∧ g = s.gen + 1 := by simp
  refine ⟨fun hg => ?_, fun hg => ?_, fun {key hd} hlook => ?_, fun {key g} hg hlast hex => ?_,
    fun key => ?_⟩
  · rw [hs.gen]
    rcases hmem.1 hg with hold | ⟨-, rfl⟩
    · exact (h.gen_le hold).trans (Nat.le_succ _)
    · exact le_rfl
  · exact hmem.2 (((hpending _ _).1 hg).imp_left h.logged)
  · rw [hs.running] at hlook
    by_cases hkey : key = spec.key
    · subst hkey
      rw [lookup_insert] at hlook
      obtain rfl := Option.some.inj hlook
      refine ⟨hnew, fun g hg => ?_⟩
      rcases hmem.1 hg with hold | ⟨-, rfl⟩
      · exact (h.gen_le hold).trans (Nat.le_succ _)
      · exact le_rfl
    · rw [lookup_insert_ne hkey] at hlook
      obtain ⟨hpend, hlast⟩ := h.running hlook
      refine ⟨(hpending _ _).2 (.inl hpend), fun g hg => hlast g ?_⟩
      exact (hmem.1 hg).resolve_right fun heq => hkey heq.1
  · by_cases hkey : key = spec.key
    · -- the new worker is the last one
      subst hkey
      have hge := hlast (s.gen + 1) (hmem.2 (.inr ⟨rfl, rfl⟩))
      rcases hmem.1 hg with hold | ⟨-, rfl⟩
      · have := h.gen_le hold
        omega
      · exact hnew
    · have hold {g' : ℕ} (hg' : (key, g') ∈ log ++ [(spec.key, s.gen + 1)]) : (key, g') ∈ log :=
        (hmem.1 hg').resolve_right fun heq => hkey heq.1
      refine (hpending _ _).2 (.inl (h.newest (hold hg) (fun g' hg' => ?_) ?_))
      · exact hlast g' (hmem.2 (.inl hg'))
      · obtain ⟨g', hg'⟩ := hex
        exact ⟨g', ((hpending _ _).1 hg').resolve_right fun heq => hkey heq.1⟩
  · simp only [hs.ifIndexOf, mem_insert, h.holders key, hpending]
    refine ⟨?_, ?_⟩
    · rintro (rfl | ⟨g, hg⟩)
      · exact ⟨_, .inr ⟨rfl, rfl⟩⟩
      · exact ⟨g, .inl hg⟩
    · rintro ⟨g, hg | ⟨rfl, -⟩⟩
      · exact .inr ⟨g, hg⟩
      · exact .inl rfl

theorem inOrder_spec (h : inOrder s .exit = true) (hs : Handled s key g s') :
    (∃ g', g < g' ∧ Pending s' key g') ∨
      (∃ hd, s.running.lookup key = some hd ∧ hd.gen = g) ∧ ∀ g', ¬ Pending s' key g' := by
  have hpending (g' : ℕ) :
      (key, g') ∈ unhandled { s with exited := s'.exited } ↔ Pending s' key g' := by
    rw [mem_unhandled, Pending, Pending, hs.workers]
  simp only [inOrder, hs.exited, hs.idle, hs.serving, Bool.or_eq_true, Bool.and_eq_true,
    List.any_eq_true, List.mem_filter, decide_eq_true_eq, List.isEmpty_iff,
    List.filter_eq_nil_iff] at h
  rcases h with ((h | h) | ⟨⟨key', g'⟩, ⟨hmem, rfl⟩, hlt⟩) | ⟨hrun, hnone⟩
  · simp at h
  · cases h
  · exact .inl ⟨g', hlt, (hpending g').1 hmem⟩
  · refine .inr ⟨?_, fun g' hg' => hnone (key, g') ((hpending g').2 hg') rfl⟩
    cases hlook : s.running.lookup key with
    | none => simp [hlook] at hrun
    | some hd => exact ⟨hd, rfl, by simpa [hlook] using hrun⟩

theorem Tracked.freed (h : Tracked log s) (hs : Handled s key g s')
    (hnone : ∀ g', ¬ Pending s' key g') (hindex : s'.ifIndexOf = s.ifIndexOf.erase key)
    (hrunning : s'.running = s.running.erase key) : Tracked log s' := by
  have hkept {key' : Bytes} {g' : ℕ} (hkey : key' ≠ key) (hp : Pending s key' g') :
      Pending s' key' g' := hs.pending_of_ne hp fun heq => hkey (Prod.mk.inj heq).1
  refine ⟨fun hmem => hs.gen ▸ h.gen_le hmem, fun hp => h.logged (hs.pending hp),
    fun {key' hd} hlook => ?_, fun {key' g'} hmem hlast hex => ?_, fun key' => ?_⟩
  · rw [hrunning] at hlook
    have hkey : key' ≠ key := by
      rintro rfl
      rw [lookup_erase] at hlook
      cases hlook
    obtain ⟨hp, hlast⟩ := h.running (Go.lookup_of_erase hlook)
    exact ⟨hkept hkey hp, hlast⟩
  · obtain ⟨g₁, hg₁⟩ := hex
    have hkey : key' ≠ key := by
      rintro rfl
      exact hnone g₁ hg₁
    exact hkept hkey (h.newest hmem hlast ⟨g₁, hs.pending hg₁⟩)
  · rw [hindex, mem_erase, h.holders key']
    refine ⟨?_, ?_⟩
    · rintro ⟨hkey, g', hp⟩
      exact ⟨g', hkept hkey hp⟩
    · rintro ⟨g', hp⟩
      refine ⟨?_, g', hs.pending hp⟩
      rintro rfl
      exact hnone g' hp

theorem Tracked.stale (h : Tracked log s) (hs : Handled s key g s')
    (hother : ∀ hd, s.running.lookup key = some hd → hd.gen ≠ g)
    (hnewer : ∃ g', g < g' ∧ Pending s' key g') (hindex : s'.ifIndexOf = s.ifIndexOf)
    (hrunning : s'.running = s.running) : Tracked log s' := by
  obtain ⟨gNew, hlt, hpNew⟩ := hnewer
  refine ⟨fun hmem => hs.gen ▸ h.gen_le hmem, fun hp => h.logged (hs.pending hp),
    fun {key' hd} hlook => ?_, fun {key' g'} hmem hlast hex => ?_, fun key' => ?_⟩
  · rw [hrunning] at hlook
    obtain ⟨hp, hlast⟩ := h.running hlook
    refine ⟨hs.pending_of_ne hp ?_, hlast⟩
    rintro heq
    obtain ⟨rfl, hsame⟩ := Prod.mk.inj heq
    exact hother hd hlook hsame
  · obtain ⟨g₁, hg₁⟩ := hex
    refine hs.pending_of_ne (h.newest hmem hlast ⟨g₁, hs.pending hg₁⟩) ?_
    rintro heq
    obtain ⟨rfl, rfl⟩ := Prod.mk.inj heq
    have := hlast gNew (h.logged (hs.pending hpNew))
    omega
  · rw [hindex, h.holders key']
    refine ⟨?_, fun ⟨g', hp⟩ => ⟨g', hs.pending hp⟩⟩
    rintro ⟨g', hp⟩
    by_cases hkey : key' = key
    · exact ⟨gNew, hkey ▸ hpNew⟩
    · exact ⟨g', hs.pending_of_ne hp fun heq => hkey (Prod.mk.inj heq).1⟩

theorem Tracked.step (h : Tracked log s) (hG : inOrder s e) :
    Tracked (log ++ (Supervisor.started s e).toList) (step flag s e) := by
  have hbooks := step_books flag s e
  have hlog (hgen : (Supervisor.step flag s e).gen = s.gen) :
      log ++ (Supervisor.started s e).toList = log := by
    rw [started_eq_none hgen, Option.toList_none, List.append_nil]
  cases hbooks with
  | worked hw =>
    rw [hlog hw.gen]
    exact h.worked hw
  | started spec ok rest hact htodo hfree hs =>
    have hstart : Supervisor.started s e = some (spec.key, s.gen + 1) := by
      simp [Supervisor.started, hact, htodo, hfree]
    rw [hstart]
    exact h.started hs
  | freed key g hd hexit hs hrun hcurrent hindex hrunning =>
    rw [hlog hs.gen]
    refine h.freed hs ?_ hindex hrunning
    rw [hexit] at hG
    rcases inOrder_spec hG hs with ⟨g', hlt, hp⟩ | ⟨-, hnone⟩
    · -- the running worker is the last one
      have := (h.running hrun).2 g' (h.logged (hs.pending hp))
      omega
    · exact hnone
  | stale key g hexit hs hother hindex hrunning =>
    rw [hlog hs.gen]
    refine h.stale hs hother ?_ hindex hrunning
    rw [hexit] at hG
    rcases inOrder_spec hG hs with hnewer | ⟨⟨hd, hlook, hcurrent⟩, -⟩
    · exact hnewer
    · exact absurd hcurrent (hother hd hlook)

/-- **Indices are given back**, provided that exits are handled in order: each while a newer worker
of the buddy is still to be handled, or as that of the running worker with no other one to come. -/
theorem indices_given_back (flag : Option Nft.Scope) (specs : List Spec) (es : List Event)
    (hG : Along (step flag) (fun s e => inOrder s e) (State.new specs) es) :
    ∀ pre, pre <+: es → GivenBack (starts flag (State.new specs) pre) (runFrom flag specs pre) := by
  intro pre hpre
  have htracked := history_along
    (P := fun log (s : State) => Tracked (starts flag (State.new specs) log) s)
    (tracked_new specs)
    (fun log e ih hG => by
      rw [starts, trace_concat]
      exact ih.step hG)
    (hG.of_prefix hpre)
  exact htracked.givenBack

/-- A buddy that a reload drops: its worker returns, its exit is handled, and the index stays with a
buddy that has no worker. -/
theorem indices_given_back_fails :
    ∃ es : List Event,
      starts none (State.new [Sample.spec]) es = [(Sample.spec.key, 1)] ∧
      unhandled (runFrom none [Sample.spec] es) = [] ∧
      (runFrom none [Sample.spec] es).running.keys = [] ∧
      (runFrom none [Sample.spec] es).ifIndexOf.lookup Sample.spec.key = some 0 :=
  ⟨[.act true, .reload [] [] [], .act true, .ret 1, .send 1, .exit], by decide +kernel⟩

/-- A worker that returns by itself gives its index back, and so does one that is dropped and
replaced before its exit is handled. -/
theorem indices_given_back_replaced :
    let es := .act true :: Sample.restart ++ [.ret 1, .send 1, .exit, .ret 2, .send 2, .exit]
    GivenBack (starts none (State.new [Sample.spec]) es) (runFrom none [Sample.spec] es) ∧
      (runFrom none [Sample.spec] es).ifIndexOf.keys = [] :=
  ⟨indices_given_back none [Sample.spec] _ (by decide +kernel) _ List.prefix_rfl,
    by decide +kernel⟩

end BuddyNet.Supervisor
