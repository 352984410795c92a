import BuddyNet.Supervisor.Rescope

/-!
# A scope that could not be programmed

A reload compares the manifest with the scope that the supervisor remembers for a running buddy, and
the supervisor remembers a scope whether or not `reprogramScope` could put it into the firewall.

* `Followed`: a run together with the buddies whose last change of scope failed;
* `rescope_retried`: as long as no failed change of scope is followed by a reload with the same
  scope, every reload programs what differs, and leaves the rules of the manifest. A reload with the
  scope that failed takes it for done.
-/

namespace BuddyNet.Supervisor

open Machine List

variable {flag : Option Nft.Scope} {s : State} {e : Event} {key : Bytes} {w : Worker}

/-! ### The plan of a reload -/

/-- The action ends the scope that a running buddy has. -/
def Action.edits : Action → Bool
  | .stop _ => true
  | .rescope _ _ => true
  | .start _ => false

/-- The reload under way still has something to do about the buddy. -/
def InPlan (todo : List Action) (key : Bytes) : Prop := ∃ a ∈ todo, a.key = key ∧ a.edits = true

theorem not_inPlan_nil : ¬ InPlan [] key := fun ⟨_, ha, _⟩ => nomatch ha

theorem InPlan.tail {a : Action} {todo : List Action} (h : InPlan (a :: todo) key)
    (hother : a.key ≠ key ∨ a.edits = false) : InPlan todo key := by
  obtain ⟨a', ha', hkey, hedits⟩ := h
  rcases mem_cons.1 ha' with rfl | hrest
  · rcases hother with hne | hkeeps
    · exact absurd hkey hne
    · rw [hkeeps] at hedits
      cases hedits
  · exact ⟨a', hrest, hkey, hedits⟩

section Plan

variable {desired : List Spec} {hd : Handle} (stopOrder wantOrder : List Bytes)

variable (hrun : s.running.lookup key = some hd)
include hrun

theorem stop_mem_plan (hwant : (State.wanted desired).lookup key = none) :
    .stop key ∈ s.reloadPlan desired stopOrder wantOrder := by
  refine mem_append_left _ (mem_map.2 ⟨key, mem_filter.2 ⟨?_, ?_⟩, rfl⟩)
  · exact Go.mem_visitOrder.2 (AList.mem_keys.1 (AList.lookup_isSome.1 (by simp [hrun])))
  · exact decide_eq_true (AList.lookup_eq_none.1 hwant)

theorem rescope_mem_plan {spec : Spec} (hwant : (State.wanted desired).lookup key = some spec)
    (hdiff : sameScope hd.expose spec.expose = false) :
    .rescope key spec.expose ∈ s.reloadPlan desired stopOrder wantOrder := by
  refine mem_append_right _ (mem_filterMap.2 ⟨key, ?_, ?_⟩)
  · exact Go.mem_visitOrder.2 (AList.mem_keys.1 (AList.lookup_isSome.1 (by simp [hwant])))
  · simp [hwant, hrun, hdiff]

end Plan

/-! ### Buddies that are behind -/

/-- A run, and the buddies whose last change of scope failed. -/
structure Followed where
  state : State
  behind : List Bytes

def Followed.step (flag : Option Nft.Scope) (f : Followed) (e : Event) : Followed where
  state := Supervisor.step flag f.state e
  behind := (misses flag f.state e).toList ++
    f.behind.filter fun key => heals flag f.state e ≠ some key

/-- A reload is taken that gives the scope remembered for it to a running buddy that is behind and
whose rules are in place. -/
def Followed.repeats (f : Followed) : Event → Bool
  | .reload desired _ _ => f.state.todo.isEmpty && !f.state.waiting &&
      f.state.running.entries.any fun e => decide (e.1 ∈ f.behind) &&
        ((State.wanted desired).lookup e.1).any (fun spec => sameScope e.2.expose spec.expose) &&
        (f.state.workers.lookup e.2.gen).any fun w => decide w.phase.Scoped
  | _ => false

/-- The running buddies without their rules are those that are behind. -/
structure Followed.Sound (flag : Option Nft.Scope) (f : Followed) : Prop where
  books : Books f.state
  carried : Carried flag (· ∈ f.behind) f.state

theorem Followed.sound_new (flag : Option Nft.Scope) (specs : List Spec) :
    Followed.Sound flag ⟨State.new specs, []⟩ where
  books := ⟨sane_new specs, cells_new specs⟩
  carried := nofun

theorem Followed.Sound.step {f : Followed} (h : f.Sound flag) (hdrained : drained f.state e)
    (hsettled : settled f.state e) : (f.step flag e).Sound flag where
  books := h.books.step hdrained hsettled
  carried := by
    refine carried_step h.carried h.books.sane h.books.cells (fun hheals hmem => ?_)
      fun hmisses => ?_
    · exact mem_append_right _ (mem_filter.2 ⟨hmem, decide_eq_true hheals⟩)
    · exact mem_append_left _ (Option.mem_toList.2 hmisses)

/-- Within a reload that goes well, the plan takes care of every buddy that lacks its rules. -/
theorem inPlan_step (hok : e ≠ .act false) (hheals : heals flag s e ≠ some key)
    (h : InPlan s.todo key) : InPlan (step flag s e).todo key := by
  have heff := step_effect flag s e
  generalize step flag s e = s' at heff ⊢
  cases heff with
  | plan htodo =>
    rw [htodo] at h
    exact absurd h not_inPlan_nil
  | stopped htodo =>
    rw [htodo] at h
    exact h.tail (Or.inl fun heq => hheals (by simp [heals, htodo, ← heq, Action.key]))
  | @rescoped ok key' expose rest htodo =>
    rw [htodo] at h
    refine h.tail (Or.inl fun heq => hheals ?_)
    cases ok with
    | true => simp [heals, htodo, ← heq, Action.key]
    | false => exact absurd rfl hok
  | started htodo =>
    rw [htodo] at h
    exact h.tail (Or.inr rfl)
  | noted =>
    unfold State.noteExit
    split
    · split <;> exact h
    · exact h
  | _ => exact h

variable {desired : List Spec} {stopOrder wantOrder : List Bytes}

/-- Every reload programs what differs: a running buddy whose rules are in place and are not those
of the manifest is reprogrammed. -/
def Retries (flag : Option Nft.Scope) (s : State) (desired : List Spec)
    (stopOrder wantOrder : List Bytes) : Prop :=
  ∀ key hd w spec, s.running.lookup key = some hd → s.workers.lookup hd.gen = some w →
    w.phase.Scoped → (State.wanted desired).lookup key = some spec →
    ¬ HasRules s.nft (wgIfName w.ifIndex) (effectiveScopeOf flag spec.expose) →
    .rescope key spec.expose ∈ s.reloadPlan desired stopOrder wantOrder

section

variable {f : Followed} (h : f.Sound flag)
  (hnew : f.repeats (.reload desired stopOrder wantOrder) = false)
  (hfree : f.state.todo = [] ∧ f.state.waiting = false)
include h hnew hfree

/-- A buddy that is given the scope remembered for it has its rules. -/
theorem Followed.Sound.hasRules {hd : Handle} {spec : Spec}
    (hrun : f.state.running.lookup key = some hd) (hw : f.state.workers.lookup hd.gen = some w)
    (hsc : w.phase.Scoped) (hwant : (State.wanted desired).lookup key = some spec)
    (hsame : sameScope hd.expose spec.expose = true) :
    HasRules f.state.nft (wgIfName w.ifIndex) (effectiveScopeOf flag hd.expose) := by
  refine (h.carried hrun hw hsc).resolve_left fun hbehind => ?_
  have hentry := AList.mem_lookup_iff.1 hrun
  rw [repeats, hfree.1, hfree.2] at hnew
  refine absurd hnew (Bool.not_eq_false _ ▸ ?_)
  simp only [isEmpty_nil, Bool.not_false, Bool.true_and]
  refine any_eq_true.2 ⟨⟨key, hd⟩, hentry, ?_⟩
  simp [hbehind, hwant, hsame, hw, hsc]

theorem Followed.Sound.retries : Retries flag f.state desired stopOrder wantOrder := by
  intro key hd w spec hrun hw hsc hwant hrules
  refine rescope_mem_plan _ _ hrun hwant ?_
  by_contra hsame
  rw [Bool.not_eq_false] at hsame
  exact hrules ((h.hasRules hnew hfree hrun hw hsc hwant hsame).of_sameScope hsame)

/-- The reload plans something for every buddy that lacks its rules. -/
theorem Followed.Sound.planned :
    Carried flag (InPlan (f.state.reloadPlan desired stopOrder wantOrder)) f.state := by
  intro key hd w hrun hw hsc
  cases hwant : (State.wanted desired).lookup key with
  | none => exact Or.inl ⟨_, stop_mem_plan _ _ hrun hwant, rfl, rfl⟩
  | some spec =>
    cases hsame : sameScope hd.expose spec.expose with
    | true => exact Or.inr (h.hasRules hnew hfree hrun hw hsc hwant hsame)
    | false => exact Or.inl ⟨_, rescope_mem_plan _ _ hrun hwant hsame, rfl, rfl⟩

end

/-- **A failed re-scope is made up for**, provided that a buddy's worker is started only after the
earlier workers of that buddy have returned, that a worker has no attempt in hand when its scope is
changed, and that no reload gives a buddy again the scope that could not be programmed for it, while
the buddy still has the rules from before. Whichever batches fail, every reload programs the buddies
whose rules are not those of the manifest; and when it is carried out and its own batches are all
taken, every running buddy whose rules are in place has those of the manifest. -/
theorem rescope_retried (flag : Option Nft.Scope) (specs : List Spec) (es₁ es₂ : List Event)
    (desired : List Spec) (stopOrder wantOrder : List Bytes)
    (hG : Along (Followed.step flag)
      (fun f e => drained f.state e ∧ settled f.state e ∧ f.repeats e = false)
      ⟨State.new specs, []⟩ (es₁ ++ .reload desired stopOrder wantOrder :: es₂))
    (hfree : (runFrom flag specs es₁).todo = [] ∧ (runFrom flag specs es₁).waiting = false) :
    Retries flag (runFrom flag specs es₁) desired stopOrder wantOrder ∧
    ((∀ ok, .act ok ∈ es₂ → ok = true) →
      (runFrom flag specs (es₁ ++ .reload desired stopOrder wantOrder :: es₂)).todo = [] →
      Agrees flag (manifest flag specs (es₁ ++ .reload desired stopOrder wantOrder :: es₂))
        (runFrom flag specs (es₁ ++ .reload desired stopOrder wantOrder :: es₂))) := by
  have hstate : ∀ es, (run (Followed.step flag) ⟨State.new specs, []⟩ es).state =
      runFrom flag specs es :=
    run_proj (π := Followed.state) (fun _ _ => rfl) ⟨State.new specs, []⟩
  obtain ⟨hbefore, hreload, hafter⟩ := along_append.1 hG
  have hsound := invariant_along (P := Followed.Sound flag)
    (fun _ _ h hg => h.step hg.1 hg.2.1) (Followed.sound_new flag specs) hbefore
  have hsoon := hsound.step hreload.1 hreload.2.1
  generalize hf : run (Followed.step flag) ⟨State.new specs, []⟩ es₁ = f at *
  rw [← hstate, hf] at hfree
  refine ⟨?_, fun hclean htodo => ?_⟩
  · rw [← hstate, hf]
    exact hsound.retries hreload.2.2 hfree
  -- the reload itself, and then the steps after it
  have hstart : Carried flag (InPlan (f.step flag (.reload desired stopOrder wantOrder)).state.todo)
      (f.step flag (.reload desired stopOrder wantOrder)).state := by
    rw [Followed.step, step, if_pos hfree]
    exact hsound.planned hreload.2.2 hfree
  have hend := invariant_along (P := fun f => Books f.state ∧
      Carried flag (InPlan f.state.todo) f.state)
    (fun f e h hg => ⟨h.1.step hg.1.1 hg.1.2.1, carried_step h.2 h.1.sane h.1.cells
      (inPlan_step hg.2) fun hmisses => absurd hmisses (misses_ne hg.2 _)⟩)
    ⟨hsoon.books, hstart⟩
    (hafter.and (along_of_forall (G := fun _ e => e ≠ .act false)
      fun _ e he heq => absurd (hclean false (heq ▸ he)) Bool.false_ne_true))
  have hplanned := planned_run flag specs (es₁ ++ .reload desired stopOrder wantOrder :: es₂)
  rw [← hstate, run_append, hf, run_cons] at hplanned htodo ⊢
  exact hend.2.agrees (fun key hp => not_inPlan_nil (htodo ▸ hp)) hplanned htodo

/-! ### A reload that takes a failed scope for done -/

namespace Sample

/-- The buddy may reach one port. -/
def ssh : Spec := { spec with expose := some { ports := [⟨.tcp, 22⟩] } }

/-- The buddy is connected and may reach the whole host; the manifest takes this back, and the batch
fails. -/
def missed : List Event := .act true :: connect 1 ++ [.reload [spec] [] [], .act false]

end Sample

/-- The same manifest is loaded again and nothing fails: the reload has nothing to do, and the buddy
can still reach the whole host. -/
theorem rescope_retried_fails :
    let s := runFrom none [Sample.wide] Sample.missed
    let es := Sample.missed ++ [.reload [Sample.spec] [] []]
    Along (step none) (fun s e => drained s e ∧ settled s e) (State.new [Sample.wide]) es ∧
      s.todo = [] ∧ s.waiting = false ∧
      .rescope Sample.spec.key none ∉ s.reloadPlan [Sample.spec] [] [] ∧
      (runFrom none [Sample.wide] es).todo = [] ∧
      (runFrom none [Sample.wide] es).running.lookup Sample.spec.key = some ⟨1, none⟩ ∧
      (runFrom none [Sample.wide] es).workers.lookup 1 =
        some ⟨Sample.spec.key, 0, none, false, .up 0⟩ ∧
      (manifest none [Sample.wide] es).lookup Sample.spec.key = some Sample.spec ∧
      HasRules (runFrom none [Sample.wide] es).nft (wgIfName 0) { all := true } ∧
      ¬ HasRules (runFrom none [Sample.wide] es).nft (wgIfName 0)
        (effectiveScopeOf none Sample.spec.expose) := by
  decide +kernel

/-- Another scope is loaded after the failed one. -/
theorem rescope_retried_other :
    let es := Sample.missed ++ .reload [Sample.ssh] [] [] :: [.act true]
    (runFrom none [Sample.wide] es).workers.lookup 1 =
        some ⟨Sample.spec.key, 0, Sample.ssh.expose, false, .up 0⟩ ∧
      HasRules (runFrom none [Sample.wide] es).nft (wgIfName 0) { ports := [⟨.tcp, 22⟩] } := by
  intro es
  have hw : (runFrom none [Sample.wide] es).workers.lookup 1 =
      some ⟨Sample.spec.key, 0, Sample.ssh.expose, false, .up 0⟩ := by decide +kernel
  refine ⟨hw, ?_⟩
  have h := (rescope_retried none [Sample.wide] Sample.missed [.act true] [Sample.ssh] [] []
    (by decide +kernel) (by decide +kernel)).2 (by simp) (by decide +kernel)
  obtain ⟨spec, hspec, hrules⟩ := h Sample.spec.key ⟨1, Sample.ssh.expose⟩ _ (by decide +kernel) hw
    trivial
  have hlast : (manifest none [Sample.wide] es).lookup Sample.spec.key = some Sample.ssh := by
    decide +kernel
  obtain rfl := Option.some.inj (hspec.symm.trans hlast)
  exact hrules

end BuddyNet.Supervisor
