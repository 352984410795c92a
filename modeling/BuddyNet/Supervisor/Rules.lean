import BuddyNet.Exposure
import BuddyNet.Supervisor.Plan

/-!
# The rules that a running buddy has

A change of scope is written into the worker's cell and programmed; the worker programs what it read
from the cell when it drew its attempt. The supervisor remembers a scope whether or not it could put
it into the firewall.

* `Cells`: a running worker's cell and its attempt agree with what the supervisor remembers;
* `Carried`: the running buddies that lack the rules of the scope remembered for them are among the
  given ones; `carried_step` says what a step does to them;
* `Carried.agrees`: when there are none and no plan is left, the rules are those of the manifest.
-/

namespace BuddyNet.Supervisor

open AList Go

variable {flag : Option Nft.Scope} {s : State} {e : Event} {key : Bytes}

/-! ### Cells and attempts -/

/-- A running worker has the scope its handle remembers, and an attempt has the scope of its
worker's cell. No failure of the kernel touches this. -/
structure Cells (s : State) : Prop where
  gen_le : ∀ {key h}, s.running.lookup key = some h → h.gen ≤ s.gen
  index : ∀ {key}, key ∈ s.running → key ∈ s.ifIndexOf
  key : ∀ {key h w}, s.running.lookup key = some h → s.workers.lookup h.gen = some w → w.key = key
  cell : ∀ {key h w}, s.running.lookup key = some h → s.workers.lookup h.gen = some w →
    w.cell = h.expose
  drawn : ∀ {g w expose}, s.workers.lookup g = some w → w.phase = .drawn expose → expose = w.cell

theorem cells_new (specs : List Spec) : Cells (State.new specs) where
  gen_le := nofun
  index := fun h => absurd h (notMem_empty _)
  key := nofun
  cell := nofun
  drawn := nofun

variable {g : ℕ} {w : Worker}

theorem lookup_withWorker (s : State) (g g' : ℕ) (f : Worker → Worker) :
    (s.withWorker g f).lookup g' =
      if g' = g then (s.workers.lookup g').map f else s.workers.lookup g' := by
  unfold State.withWorker
  split
  · next w hw =>
    split_ifs with hg
    · subst hg
      rw [lookup_insert, hw]
      rfl
    · exact lookup_insert_ne hg
  · next hw =>
    split_ifs with hg
    · subst hg
      rw [hw]
      rfl
    · rfl

variable {phase : Phase} {g' : ℕ} {w' : Worker}

theorem lookup_move (h : (s.move g w phase).workers.lookup g' = some w') :
    (g' = g ∧ w' = { w with phase := phase }) ∨ (g' ≠ g ∧ s.workers.lookup g' = some w') := by
  by_cases hg : g' = g
  · subst hg
    rw [State.move, lookup_insert] at h
    exact Or.inl ⟨rfl, (Option.some.inj h).symm⟩
  · rw [State.move, lookup_insert_ne hg] at h
    exact Or.inr ⟨hg, h⟩

theorem lookup_stopped
    (h : (s.withWorker g fun w => { w with cancelled := true }).lookup g' = some w') :
    ∃ w₀, s.workers.lookup g' = some w₀ ∧ w'.key = w₀.key ∧ w'.ifIndex = w₀.ifIndex ∧
      w'.cell = w₀.cell ∧ w'.phase = w₀.phase := by
  rw [lookup_withWorker] at h
  split_ifs at h
  · obtain ⟨w₀, hw₀, rfl⟩ := Option.map_eq_some_iff.1 h
    exact ⟨w₀, hw₀, rfl, rfl, rfl, rfl⟩
  · exact ⟨w', h, rfl, rfl, rfl, rfl⟩

variable {expose : Option Nft.Scope}

theorem lookup_rescoped
    (h : (s.withWorker g fun w => { w with cell := expose }).lookup g' = some w') :
    (g' = g ∧ ∃ w₀, s.workers.lookup g = some w₀ ∧ w' = { w₀ with cell := expose }) ∨
      (g' ≠ g ∧ s.workers.lookup g' = some w') := by
  rw [lookup_withWorker] at h
  split_ifs at h with hg
  · obtain ⟨w₀, hw₀, rfl⟩ := Option.map_eq_some_iff.1 h
    exact Or.inl ⟨hg, w₀, hg ▸ hw₀, rfl⟩
  · exact Or.inr ⟨hg, h⟩

/-- A worker goes on: it draws from its cell. -/
theorem Cells.move (h : Cells s) (hw : s.workers.lookup g = some w)
    (hdrawn : ∀ expose, phase = .drawn expose → expose = w.cell) (nft : Nft.State)
    (links : AList fun _ : Bytes => ℕ) (n : ℕ) :
    Cells { s.move g w phase with nft := nft, links := links, nextLink := n } := by
  refine ⟨h.gen_le, h.index, ?_, ?_, ?_⟩
  · intro key hd w' hrun hw'
    rcases lookup_move hw' with ⟨hg, rfl⟩ | ⟨-, hold⟩
    · show w.key = key
      exact h.key hrun (hg ▸ hw)
    · exact h.key hrun hold
  · intro key hd w' hrun hw'
    rcases lookup_move hw' with ⟨hg, rfl⟩ | ⟨-, hold⟩
    · show w.cell = hd.expose
      exact h.cell hrun (hg ▸ hw)
    · exact h.cell hrun hold
  · intro g' w' expose hw' hphase
    rcases lookup_move hw' with ⟨-, rfl⟩ | ⟨-, hold⟩
    · exact hdrawn expose hphase
    · exact h.drawn hold hphase

theorem Cells.control (h : Cells s) (todo : List Action) (cancelled waiting : Bool) :
    Cells { s with todo := todo, cancelled := cancelled, waiting := waiting } :=
  { h with }

theorem Cells.stop (h : Cells s) (key : Bytes) : Cells (s.stop key) := by
  unfold State.stop
  split
  · next hd hrun =>
    refine ⟨fun hlookup => h.gen_le (lookup_of_erase hlookup), ?_, ?_, ?_, ?_⟩
    · exact fun hmem => h.index (mem_erase.1 hmem).2
    · intro key' hd' w hrun' hw
      obtain ⟨w₀, hw₀, hkey, -⟩ := lookup_stopped hw
      exact hkey.trans (h.key (lookup_of_erase hrun') hw₀)
    · intro key' hd' w hrun' hw
      obtain ⟨w₀, hw₀, -, -, hcell, -⟩ := lookup_stopped hw
      exact hcell.trans (h.cell (lookup_of_erase hrun') hw₀)
    · intro g w expose hw hphase
      obtain ⟨w₀, hw₀, -, -, hcell, hsame⟩ := lookup_stopped hw
      exact (h.drawn hw₀ (hsame ▸ hphase)).trans hcell.symm
  · exact h

/-- **The scope of a running buddy is changed** while its worker has no attempt in hand. -/
theorem Cells.rescope (h : Cells s) (ok : Bool)
    (hsettled : ∀ hd w, s.running.lookup key = some hd → s.workers.lookup hd.gen = some w →
      ∀ old, w.phase ≠ .drawn old) (expose : Option Nft.Scope) :
    Cells (s.rescope flag ok key expose) := by
  unfold State.rescope
  split
  · next hd hrun =>
    have hhandle : ∀ {key' hd'}, (s.running.insert key { hd with expose := expose }).lookup key' =
        some hd' → ∃ hd₀, s.running.lookup key' = some hd₀ ∧ hd₀.gen = hd'.gen := by
      intro key' hd' hrun'
      rcases lookup_insert_cases hrun' with hold | ⟨rfl, rfl⟩
      · exact ⟨hd', hold, rfl⟩
      · exact ⟨hd, hrun, rfl⟩
    refine ⟨?_, ?_, ?_, ?_, ?_⟩
    · intro key' hd' hrun'
      obtain ⟨hd₀, hrun₀, hgen⟩ := hhandle hrun'
      exact hgen ▸ h.gen_le hrun₀
    · intro key' hmem
      rcases (mem_insert _).1 hmem with rfl | hold
      · exact h.index (lookup_isSome.1 (by simp [hrun]))
      · exact h.index hold
    · intro key' hd' w hrun' hw
      obtain ⟨hd₀, hrun₀, hgen⟩ := hhandle hrun'
      rcases lookup_rescoped hw with ⟨hg, w₀, hw₀, rfl⟩ | ⟨-, hold⟩
      · show w₀.key = key'
        exact h.key hrun₀ (hgen.trans hg ▸ hw₀)
      · exact h.key hrun₀ (hgen ▸ hold)
    · intro key' hd' w hrun' hw
      by_cases hkey : key' = key
      · subst hkey
        obtain rfl := Option.some.inj ((lookup_insert _).symm.trans hrun')
        rcases lookup_rescoped hw with ⟨-, w₀, -, rfl⟩ | ⟨hne, -⟩
        · rfl
        · exact absurd rfl hne
      · change (s.running.insert key _).lookup key' = some hd' at hrun'
        rw [lookup_insert_ne hkey] at hrun'
        rcases lookup_rescoped hw with ⟨hg, w₀, hw₀, rfl⟩ | ⟨-, hold⟩
        · exact absurd ((h.key hrun' (hg ▸ hw₀)).symm.trans (h.key hrun hw₀)) hkey
        · exact h.cell hrun' hold
    · intro g w old hw hphase
      rcases lookup_rescoped hw with ⟨-, w₀, hw₀, rfl⟩ | ⟨-, hold⟩
      · exact absurd hphase (hsettled hd w₀ hrun hw₀ old)
      · exact h.drawn hold hphase
  · exact h

/-- The name that `rescope` programs is that of the buddy's worker, and of no other worker. -/
theorem rescope_name (hs : Staffed s) (hc : Cells s) {hd : Handle} {g : ℕ} {w : Worker}
    (hrun : s.running.lookup key = some hd) (hw : s.workers.lookup g = some w) (hat : w.AtWork) :
    wgIfName w.ifIndex = wgIfName ((s.ifIndexOf.lookup key).getD 0) ↔ g = hd.gen := by
  obtain ⟨idx, hidx⟩ := Option.isSome_iff_exists.1 (lookup_isSome.2
    (hc.index (lookup_isSome.1 (by simp [hrun] : (s.running.lookup key).isSome))))
  rw [hidx, Option.getD_some]
  constructor
  · intro hname
    -- a worker at work under this index is that of the handle
    have hkey : w.key = key := hs.index_inj (hs.index hw hat) (wgIfName_injective hname ▸ hidx)
    exact hs.running hrun hw hat hkey
  · rintro rfl
    have hsame := hs.index hw hat
    rw [hc.key hrun hw, hidx] at hsame
    rw [Option.some.inj hsame]

theorem Cells.start (h : Cells s) (spec : Spec) : Cells (s.start spec) := by
  unfold State.start
  split
  · exact h
  · set wNew : Worker := ⟨spec.key, allocIf s.ifIndexOf spec.key, spec.expose, false, .looping true⟩
    have hcases : ∀ {g w}, (s.workers.insert (s.gen + 1) wNew).lookup g = some w →
        s.workers.lookup g = some w ∨ g = s.gen + 1 ∧ w = wNew := lookup_insert_cases
    -- an old handle does not have the new generation
    have hworker : ∀ {key hd w}, s.running.lookup key = some hd →
        (s.workers.insert (s.gen + 1) wNew).lookup hd.gen = some w →
        s.workers.lookup hd.gen = some w := by
      intro key hd w hrun hw
      have hle := h.gen_le hrun
      rwa [lookup_insert_ne (by omega)] at hw
    have hnew : ∀ {w}, (s.workers.insert (s.gen + 1) wNew).lookup (s.gen + 1) = some w →
        w = wNew := fun hw => (Option.some.inj ((lookup_insert _).symm.trans hw)).symm
    refine ⟨?_, ?_, ?_, ?_, ?_⟩
    · intro key hd hrun
      rcases lookup_insert_cases hrun with hold | ⟨rfl, rfl⟩
      · exact Nat.le_succ_of_le (h.gen_le hold)
      · exact le_rfl
    · intro key hmem
      rcases (mem_insert _).1 hmem with rfl | hold
      · exact (mem_insert _).2 (Or.inl rfl)
      · exact (mem_insert _).2 (Or.inr (h.index hold))
    · intro key hd w hrun hw
      rcases lookup_insert_cases hrun with hold | ⟨rfl, rfl⟩
      · exact h.key hold (hworker hold hw)
      · rw [hnew hw]
    · intro key hd w hrun hw
      rcases lookup_insert_cases hrun with hold | ⟨rfl, rfl⟩
      · exact h.cell hold (hworker hold hw)
      · rw [hnew hw]
    · intro g w expose hw hphase
      rcases hcases hw with hold | ⟨-, rfl⟩
      · exact h.drawn hold hphase
      · cases hphase

theorem Cells.noteExit (h : Cells s) (key : Bytes) (g : ℕ) (rest : List (Bytes × ℕ)) :
    Cells { s.noteExit key g with exited := rest } := by
  unfold State.noteExit
  split
  · split
    · exact { h with
          gen_le := fun hrun => h.gen_le (lookup_of_erase hrun)
          index := fun hmem =>
            have ⟨hne, hold⟩ := mem_erase.1 hmem
            mem_erase.2 ⟨hne, h.index hold⟩
          key := fun hrun => h.key (lookup_of_erase hrun)
          cell := fun hrun => h.cell (lookup_of_erase hrun) }
    · exact { h with }
  · exact { h with }

theorem Cells.sent (h : Cells s) (g : ℕ) (exited : List (Bytes × ℕ)) :
    Cells { s with workers := s.workers.erase g, exited := exited } :=
  { h with
    key := fun hrun hw => h.key hrun (lookup_of_erase hw)
    cell := fun hrun hw => h.cell hrun (lookup_of_erase hw)
    drawn := fun hw => h.drawn (lookup_of_erase hw) }

/-- When the scope of a running buddy is changed, its worker is not between drawing an attempt and
programming its scope. -/
def settled (s : State) : Event → Bool
  | .act _ =>
    match s.todo with
    | .rescope key _ :: _ =>
      match (s.running.lookup key).bind fun hd => s.workers.lookup hd.gen with
      | some ⟨_, _, _, _, .drawn _⟩ => false
      | _ => true
    | _ => true
  | _ => true

theorem not_drawn_of_settled {ok : Bool}
    {rest : List Action} (h : settled s (.act ok)) (htodo : s.todo = .rescope key expose :: rest)
    (hd : Handle) (w : Worker) (hrun : s.running.lookup key = some hd)
    (hw : s.workers.lookup hd.gen = some w) (old : Option Nft.Scope) : w.phase ≠ .drawn old := by
  intro hphase
  obtain ⟨_, _, _, _, phase⟩ := w
  obtain rfl : phase = .drawn old := hphase
  simp [settled, htodo, hrun, hw] at h

theorem cells_step (h : Cells s) (hsettled : settled s e) : Cells (step flag s e) := by
  have heff := step_effect flag s e
  generalize step flag s e = s' at heff ⊢
  cases heff with
  | idle => exact h
  | plan | cancelled | waiting => exact h.control _ _ _
  | stopped => exact (h.stop _).control _ _ _
  | rescoped htodo =>
    exact (h.rescope _ (not_drawn_of_settled hsettled htodo) _).control _ _ _
  | started => exact (h.start _).control _ _ _
  | noted => exact h.noteExit _ _ _
  | drawn hw => exact h.move hw (fun _ heq => by cases heq; rfl) _ _ _
  | failed hw | returned hw | upped hw | upFailed hw | downed hw | removed hw =>
    exact h.move hw (fun _ heq => by cases heq) _ _ _
  | applied hw =>
    refine h.move hw (fun _ heq => ?_) _ _ _
    split at heq <;> cases heq
  | sent => exact h.sent _ _

/-- What holds at all times, whichever batches fail. -/
structure Books (s : State) : Prop where
  sane : Sane s
  cells : Cells s

theorem Books.step (h : Books s) (hdrained : drained s e) (hsettled : settled s e) :
    Books (Supervisor.step flag s e) :=
  ⟨sane_step h.sane hdrained, cells_step h.cells hsettled⟩

/-! ### The rules of an interface -/

/-- The kernel has exactly the rules of this scope for the interface. -/
def HasRules (nft : Nft.State) (ifName : Bytes) (scope : Nft.Scope) : Prop :=
  Nft.installed nft ifName = Nft.ruleExprs ifName scope ++ Nft.forwardExprs ifName

instance (nft : Nft.State) (ifName : Bytes) (scope : Nft.Scope) :
    Decidable (HasRules nft ifName scope) := inferInstanceAs (Decidable (_ = _))

variable {ifName : Bytes}

/-- A call about another interface leaves the rules of this one. -/
theorem HasRules.of_lookup_eq {nft nft' : Nft.State} {scope : Nft.Scope}
    (h : HasRules nft ifName scope) (hf : Nft.Follows nft) (hf' : Nft.Follows nft')
    (hmem : ifName ∈ nft.scopes) (hsame : nft'.scopes.lookup ifName = nft.scopes.lookup ifName) :
    HasRules nft' ifName scope := by
  obtain ⟨scope', hscope'⟩ := Option.isSome_iff_exists.1 (lookup_isSome.2 hmem)
  have hold := hf.enforced _ _ hscope'
  have hnew := hf'.enforced _ _ (hsame.trans hscope')
  exact (hnew.trans hold.symm).trans h

theorem ruleExprs_of_sameScope {a b : Option Nft.Scope} (h : sameScope a b = true)
    (flag : Option Nft.Scope) (ifName : Bytes) :
    Nft.ruleExprs ifName (effectiveScopeOf flag a) =
    Nft.ruleExprs ifName (effectiveScopeOf flag b) := by
  cases a with
  | none =>
    cases b with
    | none => rfl
    | some _ => cases h
  | some a =>
    cases b with
    | none => cases h
    | some b => exact Nft.ruleExprs_of_string (eq_of_beq h) ifName

theorem HasRules.of_sameScope {nft : Nft.State} {a b : Option Nft.Scope}
    (h : HasRules nft ifName (effectiveScopeOf flag a)) (hsame : sameScope a b = true) :
    HasRules nft ifName (effectiveScopeOf flag b) := by
  rwa [HasRules, ← ruleExprs_of_sameScope hsame]

/-! ### Changes of scope that failed -/

/-- The buddy that a step stops, or whose scope it puts into the kernel: the batch is taken, or the
kernel has the rules anyway. -/
def heals (flag : Option Nft.Scope) (s : State) : Event → Option Bytes
  | .act ok =>
    match s.todo with
    | .stop key :: _ => some key
    | .rescope key expose :: _ =>
      if ok ∨ HasRules s.nft (wgIfName ((s.ifIndexOf.lookup key).getD 0))
        (effectiveScopeOf flag expose) then some key else none
    | _ => none
  | .apply g true =>
    (s.workers.lookup g).bind fun w =>
      match w.phase with
      | .drawn _ => some w.key
      | _ => none
  | _ => none

/-- The buddy whose change of scope fails in a step. -/
def misses (flag : Option Nft.Scope) (s : State) : Event → Option Bytes
  | .act ok =>
    match s.todo with
    | .rescope key expose :: _ =>
      if ok ∨ HasRules s.nft (wgIfName ((s.ifIndexOf.lookup key).getD 0))
        (effectiveScopeOf flag expose) then none else some key
    | _ => none
  | _ => none

/-! ### Buddies without their rules -/

variable {P Q : Bytes → Prop}

/-- The running buddies whose rules are in place and are not those of the scope that is remembered
for them are among these. -/
def Carried (flag : Option Nft.Scope) (P : Bytes → Prop) (s : State) : Prop :=
  ∀ ⦃key hd w⦄, s.running.lookup key = some hd → s.workers.lookup hd.gen = some w →
    w.phase.Scoped →
      P key ∨ HasRules s.nft (wgIfName w.ifIndex) (effectiveScopeOf flag hd.expose)

/-- A worker goes on and leaves the scopes of other interfaces alone. -/
theorem Carried.move (h : Carried flag P s) (hs : Sane s) (hw : s.workers.lookup g = some w)
    (hat : w.AtWork) {nft' : Nft.State} (links : AList fun _ : Bytes => ℕ) (n : ℕ)
    (hf' : Nft.Follows nft') (hPQ : ∀ {key}, key ≠ w.key → P key → Q key)
    (hscope : phase.Scoped → ∀ {key hd}, s.running.lookup key = some hd → hd.gen = g →
      Q key ∨ HasRules nft' (wgIfName w.ifIndex) (effectiveScopeOf flag hd.expose))
    (hother : ∀ name, name ≠ wgIfName w.ifIndex →
      nft'.scopes.lookup name = s.nft.scopes.lookup name) :
    Carried flag Q { s.move g w phase with nft := nft', links := links, nextLink := n } := by
  intro key hd w' hrun hw' hsc
  rcases lookup_move hw' with ⟨hg, rfl⟩ | ⟨hne, hold⟩
  · exact hscope hsc hrun hg
  · have hname : wgIfName w'.ifIndex ≠ wgIfName w.ifIndex := fun hname =>
      hne (hs.same_of_name hold hw (Worker.atWork_of_scoped hsc) hat hname)
    have hkey : key ≠ w.key := fun hkey => hne (hs.running hrun hw hat hkey.symm).symm
    exact (h hrun hold hsc).imp (hPQ hkey) fun hrules =>
      hrules.of_lookup_eq hs.follows hf' (hs.has_scope hold hsc) (hother _ hname)

/-- A worker goes on without touching the firewall. -/
theorem Carried.idleMove (h : Carried flag P s) (hs : Sane s) (hw : s.workers.lookup g = some w)
    (hat : w.AtWork) (links : AList fun _ : Bytes => ℕ) (n : ℕ)
    (hscoped : phase.Scoped → w.phase.Scoped) :
    Carried flag P { s.move g w phase with links := links, nextLink := n } := by
  refine h.move hs hw hat links n hs.follows (fun _ hP => hP) (fun hsc key hd hrun hg => ?_)
    fun _ _ => rfl
  subst hg
  exact h hrun hw (hscoped hsc)

section

variable (h : Carried flag P s)
include h

theorem Carried.mono (hPQ : ∀ {key}, P key → Q key) : Carried flag Q s :=
  fun _ _ _ hrun hw hsc => (h hrun hw hsc).imp_left hPQ

theorem Carried.stop {key' : Bytes} (hPQ : ∀ {key}, key ≠ key' → P key → Q key) :
    Carried flag Q (s.stop key') := by
  unfold State.stop
  split
  · intro key hd w hrun hw hsc
    obtain ⟨w₀, hw₀, -, hidx, -, hsame⟩ := lookup_stopped hw
    have hne : key ≠ key' := by
      rintro rfl
      have hnone : (s.running.erase key).lookup key = none := lookup_erase _ _
      cases hnone.symm.trans hrun
    have hkey := h (lookup_of_erase hrun) hw₀ (hsame ▸ hsc)
    rw [← hidx] at hkey
    exact hkey.imp_left (hPQ hne)
  · next hnone =>
    intro key hd w hrun hw hsc
    have hne : key ≠ key' := by
      rintro rfl
      cases hnone.symm.trans hrun
    exact (h hrun hw hsc).imp_left (hPQ hne)

/-- **A scope is changed**: the others keep their rules, and the buddy has those of the new scope if
the batch is taken or the kernel had them. -/
theorem Carried.rescope (hs : Sane s) (hc : Cells s) {ok : Bool} {key' : Bytes}
    {expose : Option Nft.Scope} (hPQ : ∀ {key}, key ≠ key' → P key → Q key)
    (hkey' : ok = true ∨ Q key' ∨ HasRules s.nft (wgIfName ((s.ifIndexOf.lookup key').getD 0))
      (effectiveScopeOf flag expose)) :
    Carried flag Q (s.rescope flag ok key' expose) := by
  unfold State.rescope
  split
  · next hd hrun =>
    have hf' := hs.follows.apply ok (wgIfName ((s.ifIndexOf.lookup key').getD 0))
      (effectiveScopeOf flag expose)
    intro key hd' w' hrun' hw' hsc
    by_cases hkey : key = key'
    · subst hkey
      obtain rfl := Option.some.inj ((lookup_insert _).symm.trans hrun')
      rcases lookup_rescoped hw' with ⟨-, w₀, hw₀, rfl⟩ | ⟨hne, -⟩
      · have hname := (rescope_name hs.toStaffed hc hrun hw₀ (Worker.atWork_of_scoped hsc)).2 rfl
        cases ok with
        | true =>
          refine Or.inr (hf'.enforced _ _ ?_)
          rw [← hname]
          exact lookup_insert _
        | false =>
          refine (hkey'.resolve_left Bool.false_ne_true).imp_right fun hrules => ?_
          rw [← hname] at hrules
          exact (Nft.installed_congr (Nft.apply_false s.nft _ _).2.2.2 _).trans hrules
      · exact absurd rfl hne
    · rw [lookup_insert_ne hkey] at hrun'
      rcases lookup_rescoped hw' with ⟨hg, w₀, hw₀, rfl⟩ | ⟨hne, hold⟩
      · exact absurd ((hc.key hrun' (hg ▸ hw₀)).symm.trans (hc.key hrun hw₀)) hkey
      · have hname := mt (rescope_name hs.toStaffed hc hrun hold
          (Worker.atWork_of_scoped hsc)).1 hne
        exact (h hrun' hold hsc).imp (hPQ hkey) fun hrules =>
          hrules.of_lookup_eq hs.follows hf' (hs.has_scope hold hsc)
            (Nft.lookup_apply_of_ne ok hname)
  · next hnone =>
    intro key hd w hrun hw hsc
    have hne : key ≠ key' := by
      rintro rfl
      cases hnone.symm.trans hrun
    exact (h hrun hw hsc).imp_left (hPQ hne)

theorem Carried.start (hc : Cells s) (spec : Spec) : Carried flag P (s.start spec) := by
  unfold State.start
  split
  · exact h
  · intro key hd w hrun hw hsc
    rcases lookup_insert_cases hrun with hold | ⟨rfl, rfl⟩
    · have hle := hc.gen_le hold
      rw [lookup_insert_ne (by omega)] at hw
      exact h hold hw hsc
    · -- the new worker has programmed nothing yet
      obtain rfl := Option.some.inj ((lookup_insert _).symm.trans hw)
      exact absurd hsc id

theorem Carried.noteExit (key : Bytes) (g : ℕ) (rest : List (Bytes × ℕ)) :
    Carried flag P { s.noteExit key g with exited := rest } := by
  unfold State.noteExit
  split
  · split
    · exact fun _ _ _ hrun => h (lookup_of_erase hrun)
    · exact h
  · exact h

/-- The steps that program no scope, and do not stop a buddy. -/
theorem Carried.rest (hs : Sane s) (hact : ∀ ok, e ≠ .act ok) (happly : ∀ g ok, e ≠ .apply g ok) :
    Carried flag P (step flag s e) := by
  have heff := step_effect flag s e
  generalize step flag s e = s' at heff ⊢
  cases heff with
  | idle | plan | cancelled | waiting => exact h
  | stopped | rescoped | started => exact absurd rfl (hact _)
  | applied => exact absurd rfl (happly _ _)
  | noted => exact h.noteExit _ _ _
  | drawn hw hphase | failed hw hphase =>
    exact h.idleMove hs hw (by simp [Worker.AtWork, hphase]) _ _ False.elim
  | @returned g w hw hphase =>
    have hat : w.AtWork := by
      rcases hphase with ⟨_, hphase⟩ | ⟨_, hphase⟩ <;> simp [Worker.AtWork, hphase]
    exact h.idleMove hs hw hat _ _ False.elim
  | upped hw hphase | upFailed hw hphase | downed hw hphase =>
    exact h.idleMove hs hw (by simp [Worker.AtWork, hphase]) _ _ fun _ => by rw [hphase]; trivial
  | removed hw hphase =>
    exact h.move hs hw (by simp [Worker.AtWork, hphase]) _ _ (hs.follows.remove _ _)
      (fun _ hP => hP) False.elim fun name hname => Nft.lookup_remove_of_ne _ hname
  | sent => exact fun _ _ _ hrun hw => h hrun (lookup_of_erase hw)

/-- **What a step does to the buddies without their rules.** -/
theorem carried_step (hs : Sane s) (hc : Cells s)
    (hPQ : ∀ {key}, heals flag s e ≠ some key → P key → Q key)
    (hmisses : ∀ {key}, misses flag s e = some key → Q key) :
    Carried flag Q (step flag s e) := by
  cases e with
  | act ok =>
    unfold step
    dsimp only
    split
    · next key' rest htodo =>
      exact h.stop fun hne => hPQ (by simpa [heals, htodo] using hne.symm)
    · next key' expose rest htodo =>
      by_cases hgood : ok = true ∨ HasRules s.nft (wgIfName ((s.ifIndexOf.lookup key').getD 0))
          (effectiveScopeOf flag expose)
      · refine h.rescope hs hc (fun hne => hPQ ?_) (hgood.imp_right Or.inr)
        simpa [heals, htodo, hgood] using hne.symm
      · refine h.rescope hs hc (fun _ => hPQ ?_) (Or.inr (Or.inl (hmisses ?_)))
        · simp [heals, htodo, hgood]
        · simp [misses, htodo, hgood]
    · next spec rest htodo => exact (h.mono (hPQ (by simp [heals, htodo]))).start hc spec
    · next htodo => exact h.mono (hPQ (by simp [heals, htodo]))
  | apply g ok =>
    have hquiet : heals flag s (.apply g ok) = none → ∀ {key}, P key → Q key :=
      fun hnone _ => hPQ (by simp [hnone])
    unfold step
    dsimp only
    split
    · next w hw =>
      split
      · next expose hphase =>
        have hat : w.AtWork := by simp [Worker.AtWork, hphase]
        have hf' := hs.follows.apply ok (wgIfName w.ifIndex) (effectiveScopeOf flag expose)
        cases ok with
        | true =>
          refine h.move hs hw hat _ _ hf' (fun hne => hPQ ?_) (fun _ key hd hrun hg => Or.inr ?_)
            fun name hname => Nft.lookup_apply_of_ne true hname
          · simpa [heals, hw, hphase] using hne.symm
          · subst hg
            rw [← hc.cell hrun hw, ← hc.drawn hw hphase]
            exact hf'.enforced _ _ (lookup_insert _)
        | false =>
          have hfailed := (Nft.apply_false s.nft (wgIfName w.ifIndex)
            (effectiveScopeOf flag expose)).1
          refine h.move hs hw hat _ _ hf' (fun _ => hquiet rfl) (fun hsc => ?_)
            fun name hname => Nft.lookup_apply_of_ne false hname
          rw [hfailed] at hsc
          exact absurd hsc id
      · next hphase =>
        refine h.mono (hquiet ?_)
        cases ok with
        | true =>
          rw [heals, hw, Option.bind_some]
          split
          · next expose heq => exact absurd heq (hphase expose)
          · rfl
        | false => rfl
    · next hnone => exact h.mono (hquiet (by cases ok <;> simp [heals, hnone]))
  | _ => exact (h.mono (hPQ (by simp [heals]))).rest hs (by simp) (by simp)

end

theorem misses_ne (hok : e ≠ .act false) (key : Bytes) : misses flag s e ≠ some key := by
  cases e with
  | act ok =>
    obtain rfl : ok = true := by
      cases ok
      · exact absurd rfl hok
      · rfl
    unfold misses
    dsimp only
    split
    · rw [if_pos (Or.inl rfl)]
      exact nofun
    · exact nofun
  | _ => exact nofun

/-! ### When the plan is worked off -/

/-- Every running buddy whose rules are in place has those of the manifest. -/
def Agrees (flag : Option Nft.Scope) (m : AList fun _ : Bytes => Spec) (s : State) : Prop :=
  ∀ key hd w, s.running.lookup key = some hd → s.workers.lookup hd.gen = some w →
    w.phase.Scoped → ∃ spec, m.lookup key = some spec ∧
      HasRules s.nft (wgIfName w.ifIndex) (effectiveScopeOf flag spec.expose)

/-- When nothing is left to do, what is remembered is what the manifest says. -/
theorem Carried.agrees {m : AList fun _ : Bytes => Spec} (h : Carried flag P s)
    (hnone : ∀ key, ¬ P key) (hplan : Planned m s) (htodo : s.todo = []) : Agrees flag m s := by
  intro key hd w hrun hw hsc
  obtain ⟨spec, hspec, hsame⟩ := hplan key hd.expose (by rw [htodo, known, hrun]; rfl)
  exact ⟨spec, hspec, ((h hrun hw hsc).resolve_left (hnone key)).of_sameScope hsame⟩

end BuddyNet.Supervisor
