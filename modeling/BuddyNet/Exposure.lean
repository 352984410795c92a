import BuddyNet.Nft.Failures
import BuddyNet.Supervisor

/-!
# An interface is never up without its rules

`exposure_enforced`: as long as a buddy's worker is started only after the earlier workers of that
buddy have returned, every interface that exists has the rules of its scope in the kernel. A worker
that is replaced while it is still winding down takes the rules of its successor with it; the run is
given after the theorem.

The invariant `Staffed` ties the kernel to the workers: an interface belongs to a worker that has it
up, a worker between `applyScope` and `removeScope` has a scope in the firewall, and no two workers
at work share an index. It survives every failure; that the kernel has the rules of the scopes is
added by `Sane`.
-/

namespace BuddyNet.Supervisor

open Machine List AList Go

variable {flag : Option Nft.Scope} {s : State} {g g' : ℕ} {w w' : Worker} {key : Bytes}

/-! ### Indices -/

theorem firstFree_not_mem (used : List ℕ) : firstFree used ∉ used := by
  unfold firstFree
  cases hfind : (range (used.length + 1)).find? (· ∉ used) with
  | some idx =>
    have := find?_some hfind
    simpa using this
  | none =>
    -- otherwise the list would hold more numbers than it has places
    rw [find?_eq_none] at hfind
    have hsub : range (used.length + 1) ⊆ used := fun idx hidx => by
      simpa using hfind idx hidx
    have hle := (subperm_of_subset nodup_range hsub).length_le
    rw [length_range] at hle
    omega

/-- Different keys have different indices. -/
def IndexInj (ifIndexOf : AList fun _ : Bytes => ℕ) : Prop :=
  ∀ ⦃key key' idx⦄, ifIndexOf.lookup key = some idx → ifIndexOf.lookup key' = some idx → key = key'

variable {ifIndexOf : AList fun _ : Bytes => ℕ}

theorem allocIf_fresh {key key' : Bytes}
    (hinj : IndexInj ifIndexOf) (h : ifIndexOf.lookup key' = some (allocIf ifIndexOf key)) :
    key' = key := by
  unfold allocIf at h
  split at h
  · next idx hidx => exact hinj h hidx
  · exfalso
    refine firstFree_not_mem (ifIndexOf.entries.map (·.2)) ?_
    exact mem_map.2 ⟨⟨key', _⟩, mem_lookup_iff.1 h, rfl⟩

theorem IndexInj.alloc (hinj : IndexInj ifIndexOf)
    (key : Bytes) : IndexInj (ifIndexOf.insert key (allocIf ifIndexOf key)) := by
  intro key₁ key₂ idx h₁ h₂
  rcases lookup_insert_cases h₁ with hold₁ | ⟨rfl, rfl⟩
  · rcases lookup_insert_cases h₂ with hold₂ | ⟨rfl, rfl⟩
    · exact hinj hold₁ hold₂
    · exact allocIf_fresh hinj hold₁
  · rcases lookup_insert_cases h₂ with hold₂ | ⟨rfl, -⟩
    · exact (allocIf_fresh hinj hold₂).symm
    · rfl

/-! ### The invariant -/

/-- Between `applyScope` and `removeScope`. -/
def Phase.Scoped : Phase → Prop
  | .scoped => True
  | .up _ => True
  | .closing => True
  | _ => False

instance : DecidablePred Phase.Scoped
  | .scoped => isTrue trivial
  | .up _ => isTrue trivial
  | .closing => isTrue trivial
  | .looping _ => isFalse id
  | .drawn _ => isFalse id
  | .returned => isFalse id

/-- The worker's `peerLoop` has not returned. -/
def Worker.AtWork (w : Worker) : Prop := w.phase ≠ .returned

theorem Worker.atWork_of_scoped (h : w.phase.Scoped) : w.AtWork := by
  intro hret
  rw [hret] at h
  exact h

/-- The invariant of runs in which workers are replaced only after they have returned. -/
structure Staffed (s : State) : Prop where
  gen_le : ∀ {g w}, s.workers.lookup g = some w → g ≤ s.gen
  exited : ∀ {key g}, (key, g) ∈ s.exited → g ≤ s.gen ∧ s.workers.lookup g = none
  one : ∀ {g g' w w'}, s.workers.lookup g = some w → s.workers.lookup g' = some w' → w.AtWork →
    w'.AtWork → w.key = w'.key → g = g'
  running : ∀ {key h g w}, s.running.lookup key = some h → s.workers.lookup g = some w →
    w.AtWork → w.key = key → g = h.gen
  index : ∀ {g w}, s.workers.lookup g = some w → w.AtWork →
    s.ifIndexOf.lookup w.key = some w.ifIndex
  index_inj : IndexInj s.ifIndexOf
  owner : ∀ {name link}, s.links.lookup name = some link →
    ∃ g w, s.workers.lookup g = some w ∧ w.phase = .up link ∧ wgIfName w.ifIndex = name
  has_scope : ∀ {g w}, s.workers.lookup g = some w → w.phase.Scoped →
    wgIfName w.ifIndex ∈ s.nft.scopes

/-- The same, with what holds of the firewall whichever batches fail. -/
structure Sane (s : State) : Prop extends Staffed s where
  follows : Nft.Follows s.nft

theorem staffed_new (specs : List Spec) : Staffed (State.new specs) where
  gen_le := nofun
  exited := nofun
  one := nofun
  running := nofun
  index := nofun
  index_inj := nofun
  owner := nofun
  has_scope := nofun

theorem sane_new (specs : List Spec) : Sane (State.new specs) :=
  ⟨staffed_new specs, Nft.follows_empty⟩

theorem Staffed.same_of_name (h : Staffed s) (hw : s.workers.lookup g = some w)
    (hw' : s.workers.lookup g' = some w') (hat : w.AtWork) (hat' : w'.AtWork)
    (hname : wgIfName w.ifIndex = wgIfName w'.ifIndex) : g = g' := by
  have hidx := wgIfName_injective hname
  have hkey := h.index_inj (h.index hw hat) (hidx ▸ h.index hw' hat')
  exact h.one hw hw' hat hat' hkey

variable {nft' : Nft.State} {links' : AList fun _ : Bytes => ℕ}

section

variable (h : Staffed s)
include h

/-- **One worker moves.** What has to be shown of its step: the firewall loses at most the
scope of this worker's interface, the worker has its scope if it is to have one, and every
interface is the worker's new one or an old one that the worker did not give up. -/
theorem Staffed.update (w' : Worker) (hw : s.workers.lookup g = some w)
    (hat : w'.AtWork → w.AtWork) (hkey : w'.key = w.key) (hidx : w'.ifIndex = w.ifIndex) {n : ℕ}
    (hnft : ∀ name ∈ s.nft.scopes, name ∈ nft'.scopes ∨ w.AtWork ∧ name = wgIfName w.ifIndex)
    (hscoped : w'.phase.Scoped → wgIfName w.ifIndex ∈ nft'.scopes)
    (hlinks : ∀ {name link}, links'.lookup name = some link →
      (name = wgIfName w.ifIndex ∧ w'.phase = .up link) ∨ (s.links.lookup name = some link ∧
        (name = wgIfName w.ifIndex → w.phase = .up link → w'.phase = .up link))) :
    Staffed
      { s with workers := s.workers.insert g w', nft := nft', links := links', nextLink := n } := by
  have hcases : ∀ {g₁ w₁}, (s.workers.insert g w').lookup g₁ = some w₁ →
      (g₁ = g ∧ w₁ = w') ∨ (g₁ ≠ g ∧ s.workers.lookup g₁ = some w₁) := by
    intro g₁ w₁ h₁
    by_cases hg : g₁ = g
    · subst hg
      rw [lookup_insert] at h₁
      exact Or.inl ⟨rfl, (Option.some.inj h₁).symm⟩
    · rw [lookup_insert_ne hg] at h₁
      exact Or.inr ⟨hg, h₁⟩
  refine ⟨?_, ?_, ?_, ?_, ?_, h.index_inj, ?_, ?_⟩
  · intro g₁ w₁ h₁
    rcases hcases h₁ with ⟨rfl, -⟩ | ⟨-, hold⟩
    · exact h.gen_le hw
    · exact h.gen_le hold
  · intro key g₁ h₁
    obtain ⟨hle, hnone⟩ := h.exited h₁
    refine ⟨hle, ?_⟩
    have hne : g₁ ≠ g := by
      rintro rfl
      rw [hnone] at hw
      cases hw
    exact (lookup_insert_ne hne).trans hnone
  · intro g₁ g₂ w₁ w₂ h₁ h₂ hat₁ hat₂ hk
    rcases hcases h₁ with ⟨rfl, rfl⟩ | ⟨-, hold₁⟩
    · rcases hcases h₂ with ⟨rfl, -⟩ | ⟨-, hold₂⟩
      · rfl
      · exact h.one hw hold₂ (hat hat₁) hat₂ (hkey.symm.trans hk)
    · rcases hcases h₂ with ⟨rfl, rfl⟩ | ⟨-, hold₂⟩
      · exact h.one hold₁ hw hat₁ (hat hat₂) (hk.trans hkey)
      · exact h.one hold₁ hold₂ hat₁ hat₂ hk
  · intro key hd g₁ w₁ hrun h₁ hat₁ hk
    rcases hcases h₁ with ⟨rfl, rfl⟩ | ⟨-, hold⟩
    · exact h.running hrun hw (hat hat₁) (hkey.symm.trans hk)
    · exact h.running hrun hold hat₁ hk
  · intro g₁ w₁ h₁ hat₁
    rcases hcases h₁ with ⟨rfl, rfl⟩ | ⟨-, hold⟩
    · rw [hkey, hidx]
      exact h.index hw (hat hat₁)
    · exact h.index hold hat₁
  · intro name link hlink
    rcases hlinks hlink with ⟨rfl, hup⟩ | ⟨hold, hkeep⟩
    · exact ⟨g, w', lookup_insert _, hup, by rw [hidx]⟩
    · obtain ⟨g₁, w₁, h₁, hup, hname⟩ := h.owner hold
      by_cases hg : g₁ = g
      · subst hg
        obtain rfl := Option.some.inj (h₁.symm.trans hw)
        exact ⟨g₁, w', lookup_insert _, hkeep hname.symm hup, by rw [hidx, hname]⟩
      · exact ⟨g₁, w₁, (lookup_insert_ne hg).trans h₁, hup, hname⟩
  · intro g₁ w₁ h₁ hsc
    rcases hcases h₁ with ⟨rfl, rfl⟩ | ⟨hg, hold⟩
    · rw [hidx]
      exact hscoped hsc
    · rcases hnft _ (h.has_scope hold hsc) with hkept | ⟨hat, hname⟩
      · exact hkept
      · -- another worker's scope is under another name
        exact absurd (h.same_of_name hold hw (Worker.atWork_of_scoped hsc) hat hname) hg

theorem Staffed.control (todo : List Action) (cancelled waiting : Bool) :
    Staffed { s with todo := todo, cancelled := cancelled, waiting := waiting } :=
  { h with }

theorem Staffed.kernelMove (phase : Phase) (hw : s.workers.lookup g = some w)
    (hat : w.AtWork) {n : ℕ}
    (hnft : ∀ name ∈ s.nft.scopes, name ∈ nft'.scopes ∨ name = wgIfName w.ifIndex)
    (hscoped : phase.Scoped → wgIfName w.ifIndex ∈ nft'.scopes)
    (hlinks : ∀ {name link}, links'.lookup name = some link →
      (name = wgIfName w.ifIndex ∧ phase = .up link) ∨
      (s.links.lookup name = some link ∧ (name = wgIfName w.ifIndex → w.phase ≠ .up link))) :
    Staffed { s.move g w phase with nft := nft', links := links', nextLink := n } := by
  refine h.update { w with phase := phase } hw (fun _ => hat) rfl rfl ?_ hscoped ?_
  · exact fun name hname => (hnft name hname).imp_right fun heq => ⟨hat, heq⟩
  · exact fun hlink => (hlinks hlink).imp_right fun ⟨hold, hup⟩ =>
      ⟨hold, fun hname hphase => absurd hphase (hup hname)⟩

theorem Staffed.move (hw : s.workers.lookup g = some w) {phase : Phase}
    (hat : w.AtWork) (hup : ∀ link, w.phase ≠ .up link) (hphase : ¬phase.Scoped) :
    Staffed (s.move g w phase) :=
  h.kernelMove phase hw hat (fun _ hname => Or.inl hname) (fun hsc => absurd hsc hphase)
    fun hlink => Or.inr ⟨hlink, fun _ => hup _⟩

/-- What the supervisor writes into a running worker is not part of the invariant. -/
theorem Staffed.withWorker {f : Worker → Worker} (hkey : ∀ w, (f w).key = w.key)
    (hidx : ∀ w, (f w).ifIndex = w.ifIndex) (hphase : ∀ w, (f w).phase = w.phase) :
    Staffed { s with workers := s.withWorker g f } := by
  unfold State.withWorker
  split
  · next w hw =>
    refine h.update (f w) hw ?_ (hkey w) (hidx w) (fun _ hname => Or.inl hname) ?_ ?_
    · exact fun hat hret => hat ((hphase w).trans hret)
    · exact fun hsc => h.has_scope hw (hphase w ▸ hsc)
    · exact fun hlink => Or.inr ⟨hlink, fun _ hup => (hphase w).trans hup⟩
  · exact h

theorem Staffed.setRunning {running' : AList fun _ : Bytes => Handle}
    (hrun : ∀ {key hd}, running'.lookup key = some hd →
      ∃ hd₀, s.running.lookup key = some hd₀ ∧ hd₀.gen = hd.gen) :
    Staffed { s with running := running' } where
  __ := h
  running := by
    intro key hd g w hlookup hw hat hkey
    obtain ⟨hd₀, hold, hgen⟩ := hrun hlookup
    exact (h.running hold hw hat hkey).trans hgen

theorem Staffed.growNft (nft' : Nft.State)
    (hnft : ∀ name ∈ s.nft.scopes, name ∈ nft'.scopes) : Staffed { s with nft := nft' } where
  __ := h
  has_scope := fun hw hsc => hnft _ (h.has_scope hw hsc)

/-! ### The supervisor keeps it -/

theorem Staffed.stop (key : Bytes) : Staffed (s.stop key) := by
  unfold State.stop
  split
  · next hd hrun =>
    have hw := h.withWorker (f := fun w => { w with cancelled := true }) (g := hd.gen)
      (fun _ => rfl) (fun _ => rfl) fun _ => rfl
    exact hw.setRunning fun hlookup => ⟨_, lookup_of_erase hlookup, rfl⟩
  · exact h

theorem Staffed.rescope (ok : Bool) (key : Bytes) (expose : Option Nft.Scope) :
    Staffed (s.rescope flag ok key expose) := by
  unfold State.rescope
  split
  · next hd hrun =>
    have hw := h.withWorker (f := fun w => { w with cell := expose }) (g := hd.gen)
      (fun _ => rfl) (fun _ => rfl) fun _ => rfl
    have hnft := hw.growNft (Nft.apply ok s.nft (wgIfName ((s.ifIndexOf.lookup key).getD 0))
        (effectiveScopeOf flag expose)).1
      fun name hname => Nft.mem_apply_of_mem ok hname
    refine hnft.setRunning fun {key' hd'} hlookup => ?_
    rcases lookup_insert_cases hlookup with hold | ⟨rfl, rfl⟩
    · exact ⟨hd', hold, rfl⟩
    · exact ⟨hd, hrun, rfl⟩
  · exact h

theorem Staffed.start (spec : Spec)
    (hgone : ∀ g w, s.workers.lookup g = some w → w.key = spec.key → w.phase = .returned) :
    Staffed (s.start spec) := by
  unfold State.start
  split
  · exact h
  · next hnew =>
    set idx := allocIf s.ifIndexOf spec.key
    set wNew : Worker := ⟨spec.key, idx, spec.expose, false, .looping true⟩
    have hcases : ∀ {g w}, (s.workers.insert (s.gen + 1) wNew).lookup g = some w →
        s.workers.lookup g = some w ∨ g = s.gen + 1 ∧ w = wNew := lookup_insert_cases
    have hkeep : ∀ {g w}, s.workers.lookup g = some w →
        (s.workers.insert (s.gen + 1) wNew).lookup g = some w := by
      intro g w hw
      have := h.gen_le hw
      rwa [lookup_insert_ne (by omega)]
    have hother : ∀ {g w}, s.workers.lookup g = some w → w.AtWork → w.key ≠ spec.key :=
      fun hw hat hkey => hat (hgone _ _ hw hkey)
    refine ⟨?_, ?_, ?_, ?_, ?_, h.index_inj.alloc _, ?_, ?_⟩
    · intro g w hw
      rcases hcases hw with hold | ⟨rfl, -⟩
      · have := h.gen_le hold
        show g ≤ s.gen + 1
        omega
      · exact le_rfl
    · intro key g hexit
      obtain ⟨hle, hnone⟩ := h.exited hexit
      refine ⟨Nat.le_succ_of_le hle, ?_⟩
      exact (lookup_insert_ne (by omega)).trans hnone
    · intro g g' w w' hw hw' hat hat' hkey
      rcases hcases hw with hold | ⟨rfl, rfl⟩
      · rcases hcases hw' with hold' | ⟨rfl, rfl⟩
        · exact h.one hold hold' hat hat' hkey
        · exact absurd hkey (hother hold hat)
      · rcases hcases hw' with hold' | ⟨rfl, -⟩
        · exact absurd hkey.symm (hother hold' hat')
        · rfl
    · intro key hd g w hrun hw hat hkey
      rcases lookup_insert_cases hrun with hrun | ⟨rfl, rfl⟩
      · rcases hcases hw with hold | ⟨rfl, rfl⟩
        · exact h.running hrun hold hat hkey
        · obtain rfl : spec.key = key := hkey
          exact absurd (lookup_isSome.1 (by rw [hrun]; rfl)) hnew
      · rcases hcases hw with hold | ⟨rfl, -⟩
        · exact absurd hkey (hother hold hat)
        · rfl
    · intro g w hw hat
      rcases hcases hw with hold | ⟨rfl, rfl⟩
      · exact (lookup_insert_ne (hother hold hat)).trans (h.index hold hat)
      · exact lookup_insert _
    · intro name link hlink
      obtain ⟨g, w, hw, hup, hname⟩ := h.owner hlink
      exact ⟨g, w, hkeep hw, hup, hname⟩
    · intro g w hw hsc
      rcases hcases hw with hold | ⟨rfl, rfl⟩
      · exact h.has_scope hold hsc
      · exact absurd hsc id

/-- The worker of the notification is gone, so nobody works under the index that is given back. -/
theorem Staffed.noteExit {rest : List (Bytes × ℕ)}
    (hexit : s.exited = (key, g) :: rest) : Staffed { s.noteExit key g with exited := rest } := by
  have hrest : ∀ {key' g'}, (key', g') ∈ rest → g' ≤ s.gen ∧ s.workers.lookup g' = none :=
    fun hmem => h.exited (hexit ▸ mem_cons_of_mem _ hmem)
  unfold State.noteExit
  split
  · next hd hrun =>
    split
    · next hgen =>
      have hgone : ∀ {g' w}, s.workers.lookup g' = some w → w.AtWork → w.key ≠ key := by
        intro g' w hw hat hkey
        have hnone := (h.exited (hexit ▸ mem_cons_self)).2
        rw [← hgen, ← h.running hrun hw hat hkey, hw] at hnone
        cases hnone
      exact { h with
          exited := hrest
          running := fun hlookup => h.running (lookup_of_erase hlookup)
          index := fun hw hat => (lookup_erase_ne (hgone hw hat)).trans (h.index hw hat)
          index_inj := fun _ _ _ h₁ h₂ =>
            h.index_inj (lookup_of_erase h₁) (lookup_of_erase h₂) }
    · exact { h with exited := hrest }
  · exact { h with exited := hrest }

theorem Staffed.sent (hw : s.workers.lookup g = some w) (hphase : w.phase = .returned) :
    Staffed { s with workers := s.workers.erase g, exited := s.exited ++ [(w.key, g)] } where
  gen_le := fun hw => h.gen_le (lookup_of_erase hw)
  exited := by
    intro key g' hmem
    rcases mem_append.1 hmem with hold | hnew
    · obtain ⟨hle, hnone⟩ := h.exited hold
      have hne : g' ≠ g := by
        rintro rfl
        rw [hnone] at hw
        cases hw
      exact ⟨hle, (lookup_erase_ne hne).trans hnone⟩
    · cases mem_singleton.1 hnew
      exact ⟨h.gen_le hw, lookup_erase _ _⟩
  one := fun h₁ h₂ => h.one (lookup_of_erase h₁) (lookup_of_erase h₂)
  running := fun hrun hw => h.running hrun (lookup_of_erase hw)
  index := fun hw => h.index (lookup_of_erase hw)
  index_inj := h.index_inj
  owner := by
    intro name link hlink
    obtain ⟨g', w', hw', hup, hname⟩ := h.owner hlink
    refine ⟨g', w', ?_, hup, hname⟩
    have hne : g' ≠ g := by
      rintro rfl
      cases hw.symm.trans hw'
      cases hphase.symm.trans hup
    exact (lookup_erase_ne hne).trans hw'
  has_scope := fun hw => h.has_scope (lookup_of_erase hw)

end

/-! ### Every step keeps it -/

/-- The kernel takes what it is given. -/
def Event.kernelOk : Event → Bool
  | .act ok => ok
  | .apply _ ok => ok
  | .up _ ok => ok
  | .remove _ ok => ok
  | _ => true

/-- The earlier workers of the buddy that is about to be started have returned. -/
def drained (s : State) : Event → Bool
  | .act _ =>
    match s.todo with
    | .start spec :: _ => s.workers.entries.all fun e => e.2.key ≠ spec.key ∨ e.2.phase = .returned
    | _ => true
  | _ => true

theorem returned_of_drained {ok : Bool} {spec : Spec} {rest : List Action}
    (h : drained s (.act ok)) (htodo : s.todo = .start spec :: rest)
    (hw : s.workers.lookup g = some w) (hkey : w.key = spec.key) : w.phase = .returned := by
  unfold drained at h
  rw [htodo] at h
  have hentry := all_eq_true.1 h _ (mem_lookup_iff.1 hw)
  rcases of_decide_eq_true hentry with hne | hret
  · exact absurd hkey hne
  · exact hret

theorem lookup_delLink {links : AList fun _ : Bytes => ℕ} {ifName name : Bytes} {link link' : ℕ}
    (h : (delLink links ifName link).lookup name = some link') :
    links.lookup name = some link' ∧ ¬(name = ifName ∧ link' = link) := by
  unfold delLink at h
  split at h
  · refine ⟨lookup_of_erase h, ?_⟩
    rintro ⟨rfl, -⟩
    rw [lookup_erase] at h
    cases h
  · next hother =>
    refine ⟨h, ?_⟩
    rintro ⟨rfl, rfl⟩
    exact hother h

variable {e : Event}

theorem staffed_step (h : Staffed s) (hdrained : drained s e) : Staffed (step flag s e) := by
  have heff := step_effect flag s e
  generalize step flag s e = s' at heff ⊢
  cases heff with
  | idle => exact h
  | plan | cancelled | waiting => exact h.control _ _ _
  | stopped => exact (h.stop _).control _ _ _
  | rescoped => exact (h.rescope _ _ _).control _ _ _
  | started htodo =>
    exact (h.start _ fun _ _ => returned_of_drained hdrained htodo).control _ _ _
  | noted hexit => exact h.noteExit hexit
  | drawn hw hphase | failed hw hphase =>
    exact h.move hw (by simp [Worker.AtWork, hphase]) (by simp [hphase]) id
  | returned hw hphase =>
    rcases hphase with ⟨_, hphase⟩ | ⟨_, hphase⟩
    · exact h.move hw (by simp [Worker.AtWork, hphase]) (by simp [hphase]) id
    · exact h.move hw (by simp [Worker.AtWork, hphase]) (by simp [hphase]) id
  | @applied g ok w expose hw hphase res hres =>
    subst hres
    refine h.kernelMove _ hw (by simp [Worker.AtWork, hphase])
      (fun _ hname => Or.inl (Nft.mem_apply_of_mem ok hname)) (fun hsc => ?_)
      fun hlink => Or.inr ⟨hlink, by simp [hphase]⟩
    cases ok with
    | true => exact Nft.mem_apply.2 (Or.inl rfl)
    | false => rw [(Nft.apply_false _ _ _).1] at hsc; exact absurd hsc id
  | @upped g w hw hphase =>
    refine h.kernelMove _ hw (by simp [Worker.AtWork, hphase]) (fun _ hname => Or.inl hname)
      (fun _ => h.has_scope hw (by rw [hphase]; trivial)) ?_
    intro name link hlink
    rcases lookup_insert_cases hlink with hold | ⟨rfl, rfl⟩
    · exact Or.inr ⟨hold, by simp [hphase]⟩
    · exact Or.inl ⟨rfl, rfl⟩
  | @upFailed g w hw hphase =>
    exact h.kernelMove _ hw (by simp [Worker.AtWork, hphase]) (fun _ hname => Or.inl hname)
      (fun _ => h.has_scope hw (by rw [hphase]; trivial))
      fun hlink => Or.inr ⟨lookup_of_erase hlink, by simp [hphase]⟩
  | @downed g w link hw hphase =>
    refine h.kernelMove _ hw (by simp [Worker.AtWork, hphase]) (fun _ hname => Or.inl hname)
      (fun _ => h.has_scope hw (by rw [hphase]; trivial)) ?_
    intro name link' hlink
    obtain ⟨hold, hne⟩ := lookup_delLink hlink
    refine Or.inr ⟨hold, fun hname hup => hne ⟨hname, ?_⟩⟩
    cases hphase.symm.trans hup
    rfl
  | @removed g ok w hw hphase =>
    refine h.kernelMove _ hw (by simp [Worker.AtWork, hphase]) ?_ False.elim
      fun hlink => Or.inr ⟨hlink, by simp [hphase]⟩
    intro name hname
    by_cases heq : name = wgIfName w.ifIndex
    · exact Or.inr heq
    · exact Or.inl (Nft.mem_remove_of_ne ok heq hname)
  | sent hw hphase => exact h.sent hw hphase

theorem nft_step {P : Nft.State → Prop} (h : P s.nft)
    (happly : ∀ {ok} ifName scope, P (Nft.apply ok s.nft ifName scope).1)
    (hremove : ∀ {ok} ifName, P (Nft.remove ok s.nft ifName).1) : P (step flag s e).nft := by
  have heff := step_effect flag s e
  generalize step flag s e = s' at heff ⊢
  cases heff with
  | stopped =>
    unfold State.stop
    split <;> exact h
  | rescoped =>
    unfold State.rescope
    split
    · exact happly _ _
    · exact h
  | started =>
    unfold State.start
    split <;> exact h
  | noted =>
    unfold State.noteExit
    split
    · split <;> exact h
    · exact h
  | applied hw hphase hres =>
    subst hres
    exact happly _ _
  | removed => exact hremove _
  | _ => exact h

theorem sane_step (h : Sane s) (hdrained : drained s e) : Sane (step flag s e) where
  toStaffed := staffed_step h.toStaffed hdrained
  follows := nft_step h.follows (fun _ _ => h.follows.apply _ _ _) fun _ => h.follows.remove _ _

/-! ### Runs -/

/-- Every interface that exists has the rules of its wanted scope in the kernel. -/
def Enforced (s : State) : Prop :=
  ∀ name ∈ s.links, ∃ scope, s.nft.scopes.lookup name = some scope ∧
    Nft.Programmed s.nft.kernel name scope

theorem Sane.enforced (h : Sane s) : Enforced s := by
  intro name hname
  obtain ⟨link, hlink⟩ := Option.isSome_iff_exists.1 (lookup_isSome.2 hname)
  obtain ⟨g, w, hw, hup, rfl⟩ := h.owner hlink
  have hmem := h.has_scope hw (by rw [hup]; trivial)
  obtain ⟨scope, hscope⟩ := Option.isSome_iff_exists.1 (lookup_isSome.2 hmem)
  exact ⟨scope, hscope, h.follows.programmed hscope⟩

/-- **An interface is never up without its rules**, whichever batches and link operations fail,
provided that a buddy's worker is started only after the earlier workers of that buddy have
returned. -/
theorem exposure_enforced (flag : Option Nft.Scope) (specs : List Spec) (es : List Event)
    (hes : Along (step flag) (fun s e => drained s e) (State.new specs) es) :
    Throughout (step flag) Enforced (State.new specs) es := by
  intro pre hpre
  have hsane : Sane (run (step flag) (State.new specs) pre) :=
    invariant_along (P := Sane) (fun _ _ h hG => sane_step h hG) (sane_new specs)
      (hes.of_prefix hpre)
  exact hsane.enforced

/-! ### A worker that is replaced too early -/

namespace Sample

/-- A buddy that may reach nothing. -/
def spec : Spec := ⟨replicate 32 7, none⟩

/-- The worker with this generation connects. -/
def connect (g : ℕ) : List Event := [.draw g, .apply g true, .up g true]

/-- The worker with this generation tears its connection down. -/
def teardown (g : ℕ) : List Event := [.down g, .remove g true]

/-- The buddy is taken out of the manifest and put back. -/
def restart : List Event := [.reload [] [] [], .act true, .reload [spec] [] [], .act true]

end Sample

/-- Without the condition it fails: the buddy is removed and added again while its first worker is
still connected. The second worker gets the same interface name and replaces the interface; then the
first one winds down, and its `removeScope` takes the rules of the new interface away. -/
theorem exposure_enforced_fails :
    ∃ es : List Event, (∀ e ∈ es, e.kernelOk) ∧
      (wgIfName 0 ∈ (runFrom none [Sample.spec] es).links) ∧
      (runFrom none [Sample.spec] es).nft.kernel = [] :=
  ⟨.act true :: Sample.connect 1 ++ Sample.restart ++ Sample.connect 2 ++ Sample.teardown 1,
    by decide +kernel⟩

/-- The same restart after the first worker has returned. -/
theorem exposure_enforced_restart :
    let es := .act true :: Sample.connect 1 ++ Sample.teardown 1 ++ .ret 1 :: Sample.restart ++
      Sample.connect 2
    wgIfName 0 ∈ (runFrom none [Sample.spec] es).links ∧
      Enforced (runFrom none [Sample.spec] es) :=
  ⟨by decide +kernel, exposure_enforced none [Sample.spec] _ (by decide +kernel) _ prefix_rfl⟩

end BuddyNet.Supervisor
