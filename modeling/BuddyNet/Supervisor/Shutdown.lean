import BuddyNet.Library.Tally
import BuddyNet.Exposure
import BuddyNet.Trust.Gates

/-!
# The supervisor shuts down

When its context is cancelled, `supervise` stops receiving and waits for its workers. A worker
counts as done only after it has put its exit notification into a channel of 16 places.

* every schedule of steps after the cancellation is finite: each one uses up some of `rank`;
* when the workers and notifications that are left as the supervisor starts waiting fit into the
  channel, a schedule that cannot go on has ended with `supervise` returned and no worker left
  (`shutdown_completes`);
* with a seventeenth worker it does not: the last one is stuck with its notification.
-/

namespace BuddyNet.Supervisor

open Machine List

variable {flag : Option Nft.Scope} {s : State} {e : Event}

/-! ### Schedules -/

/-- A signal from outside: it is not a step of the supervisor or of a worker. -/
def Event.signal : Event → Bool
  | .reload _ _ _ => true
  | .cancel => true
  | _ => false

/-- A step of the supervisor or of a worker that does something. -/
def Active (flag : Option Nft.Scope) (s : State) (e : Event) : Prop :=
  e.signal = false ∧ step flag s e ≠ s

/-- No step is left. -/
def Quiet (flag : Option Nft.Scope) (s : State) : Prop := ∀ e, ¬ Active flag s e

/-- `supervise` has returned, and its workers are gone. -/
def Finished (s : State) : Prop := s.waiting = true ∧ s.workers = ∅

/-! ### The measure -/

/-- How many steps a cancelled worker can still take, its notification counted twice. -/
def Phase.rank : Phase → ℕ
  | .looping true => 8
  | .drawn _ => 7
  | .scoped => 6
  | .up _ => 5
  | .closing => 4
  | .looping false => 3
  | .returned => 2

/-- What is left to do after the cancellation. -/
def State.rank (s : State) : ℕ :=
  Tally.total (fun w => w.phase.rank) s.workers + s.exited.length + 9 * s.todo.length +
    (!s.waiting).toNat

variable {g : ℕ} {w : Worker}

/-- The ranks of the workers after one of them was replaced. -/
theorem total_update (w' : Worker) (hw : s.workers.lookup g = some w) :
    Tally.total (fun w => w.phase.rank) (s.workers.insert g w') + w.phase.rank =
      Tally.total (fun w => w.phase.rank) s.workers + w'.phase.rank := by
  rw [Tally.total_insert, Tally.total_of_lookup _ hw]
  omega

theorem total_withWorker (s : State) (g : ℕ) (f : Worker → Worker)
    (hf : ∀ w, (f w).phase = w.phase) :
    Tally.total (fun w => w.phase.rank) (s.withWorker g f) =
      Tally.total (fun w => w.phase.rank) s.workers := by
  unfold State.withWorker
  split
  · next w hw =>
    have hsum := total_update (f w) hw
    rw [hf] at hsum
    omega
  · rfl

theorem rank_move {phase : Phase} (hw : s.workers.lookup g = some w)
    (hlt : phase.rank < w.phase.rank) (nft : Nft.State) (links : AList fun _ : Bytes => ℕ) (n : ℕ) :
    State.rank { s.move g w phase with nft := nft, links := links, nextLink := n } < s.rank := by
  have hsum := total_update { w with phase := phase } hw
  dsimp only at hsum
  simp only [State.rank, State.move]
  omega

theorem rank_stop (s : State) (key : Bytes) (rest : List Action) :
    State.rank { s.stop key with todo := rest } = State.rank { s with todo := rest } := by
  unfold State.stop
  split
  · next h hrun =>
    have hsum := total_withWorker s h.gen (fun w => { w with cancelled := true }) fun _ => rfl
    simp only [State.rank, hsum]
  · rfl

theorem rank_rescope (flag : Option Nft.Scope) (ok : Bool) (s : State) (key : Bytes)
    (expose : Option Nft.Scope) (rest : List Action) :
    State.rank { s.rescope flag ok key expose with todo := rest } =
      State.rank { s with todo := rest } := by
  unfold State.rescope
  split
  · next h hrun =>
    have hsum := total_withWorker s h.gen (fun w => { w with cell := expose }) fun _ => rfl
    simp only [State.rank, hsum]
  · rfl

theorem rank_start (s : State) (spec : Spec) (rest : List Action) :
    State.rank { s.start spec with todo := rest } ≤ State.rank { s with todo := rest } + 8 := by
  unfold State.start
  split
  · exact Nat.le_add_right _ _
  · have hle := Tally.total_erase_le (fun w : Worker => w.phase.rank) s.workers (s.gen + 1)
    have hnew : (Phase.looping true).rank = 8 := rfl
    simp only [State.rank, Tally.total_insert, hnew]
    omega

section

variable (hcancel : s.cancelled = true)
include hcancel

/-- **Every step after the cancellation uses up some of the rank.** -/
theorem rank_step (hactive : Active flag s e) : (step flag s e).rank < s.rank := by
  obtain ⟨hsignal, hne⟩ := hactive
  have heff := step_effect flag s e
  generalize step flag s e = s' at hne heff ⊢
  cases heff with
  | idle => exact absurd rfl hne
  | plan => cases hsignal
  | @stopped ok key rest htodo =>
    rw [rank_stop]
    simp only [State.rank, htodo, length_cons]
    omega
  | @rescoped ok key expose rest htodo =>
    rw [rank_rescope]
    simp only [State.rank, htodo, length_cons]
    omega
  | @started ok spec rest htodo =>
    have hle := rank_start s spec rest
    simp only [State.rank, htodo, length_cons] at hle ⊢
    omega
  | @noted key g rest hexit =>
    have hframe : (s.noteExit key g).workers = s.workers ∧ (s.noteExit key g).todo = s.todo ∧
        (s.noteExit key g).waiting = s.waiting := by
      unfold State.noteExit
      split
      · split <;> exact ⟨rfl, rfl, rfl⟩
      · exact ⟨rfl, rfl, rfl⟩
    simp only [State.rank, hframe, hexit, length_cons]
    omega
  | cancelled => cases hsignal
  | waiting =>
    cases hwait : s.waiting with
    | true => exact absurd (by rw [← hwait]) hne
    | false =>
      simp only [State.rank, hwait, Bool.not_true, Bool.not_false, Bool.toNat_true,
        Bool.toNat_false]
      omega
  | @drawn g w first hw hphase hlive =>
    obtain rfl : first = true := by simpa [hcancel] using hlive
    exact rank_move hw (by simp [hphase, Phase.rank]) _ _ _
  | failed hw hphase | upped hw hphase | upFailed hw hphase | downed hw hphase
  | removed hw hphase => exact rank_move hw (by simp [hphase, Phase.rank]) _ _ _
  | @applied g ok w expose hw hphase res hres =>
    refine rank_move hw ?_ _ _ _
    split <;> simp [hphase, Phase.rank]
  | @returned g w hw hphase =>
    refine rank_move hw ?_ _ _ _
    rcases hphase with ⟨first, hphase⟩ | ⟨expose, hphase⟩
    · cases first <;> simp [hphase, Phase.rank]
    · simp [hphase, Phase.rank]
  | @sent g w hw hphase =>
    have hsum := Tally.total_of_lookup (fun w : Worker => w.phase.rank) hw
    have hrank : w.phase.rank = 2 := by rw [hphase]; rfl
    simp only [State.rank, length_append, length_singleton]
    omega

theorem cancelled_step (e : Event) : (step flag s e).cancelled = true := by
  have heff := step_effect flag s e
  generalize step flag s e = s' at heff ⊢
  cases heff with
  | stopped => unfold State.stop; split <;> exact hcancel
  | rescoped => unfold State.rescope; split <;> exact hcancel
  | started => unfold State.start; split <;> exact hcancel
  | noted =>
    unfold State.noteExit
    split
    · split <;> exact hcancel
    · exact hcancel
  | cancelled => rfl
  | _ => exact hcancel

/-- Schedules after the cancellation are finite. -/
theorem active_length_le {es : List Event}
    (hes : Along (step flag) (Active flag) s es) : es.length ≤ s.rank := by
  induction es generalizing s with
  | nil => exact Nat.zero_le _
  | cons e es ih =>
    have hlt := rank_step hcancel hes.1
    have hle := ih (cancelled_step hcancel e) hes.2
    rw [length_cons]
    omega

end

/-! ### The channel has room -/

/-- The places of the channel that are taken or will be. -/
def State.load (s : State) : ℕ := s.workers.keys.length + s.exited.length

/-- The supervisor starts waiting only when what is left fits into the channel. -/
def fits (s : State) : Event → Bool
  | .wait =>
    if s.todo = [] ∧ s.cancelled = true ∧ s.waiting = false then s.load ≤ exitedCap else true
  | _ => true

/-- While the supervisor waits, it has nothing to do and everybody can report. -/
def Roomy (s : State) : Prop := s.waiting = true → s.todo = [] ∧ s.load ≤ exitedCap

/-- A worker that goes on takes no other place. -/
theorem load_move (hw : s.workers.lookup g = some w) (phase : Phase)
    (nft : Nft.State) (links : AList fun _ : Bytes => ℕ) (n : ℕ) :
    State.load { s.move g w phase with nft := nft, links := links, nextLink := n } = s.load := by
  have hmem : g ∈ s.workers := AList.lookup_isSome.1 (by simp [hw])
  simp only [State.load, State.move, Go.keys_length_insert, Go.keys_length_erase_of_mem hmem]

theorem waiting_step (hroomy : Roomy s) (hwait : s.waiting = true) (e : Event) :
    (step flag s e).waiting = true ∧ (step flag s e).todo = [] ∧
      (step flag s e).load = s.load := by
  obtain ⟨htodo, -⟩ := hroomy hwait
  have heff := step_effect flag s e
  generalize step flag s e = s' at heff ⊢
  cases heff with
  | idle | cancelled => exact ⟨hwait, htodo, rfl⟩
  | plan _ hnot | noted _ _ hnot => exact absurd (hwait.symm.trans hnot) (by decide)
  | stopped h | rescoped h | started h => exact absurd (htodo.symm.trans h) (by simp)
  | waiting => exact ⟨rfl, htodo, rfl⟩
  | @sent g w hw =>
    have hmem : g ∈ s.workers := AList.lookup_isSome.1 (by simp [hw])
    have hlen := Go.keys_length_erase_of_mem hmem
    refine ⟨hwait, htodo, ?_⟩
    simp only [State.load, length_append, length_singleton]
    omega
  | drawn hw | failed hw | applied hw | upped hw | upFailed hw | downed hw | removed hw
  | returned hw => exact ⟨hwait, htodo, load_move hw _ _ _ _⟩

/-- Only one step makes the supervisor wait. -/
theorem starts_waiting (hnot : s.waiting = false) (hwait : (step flag s e).waiting = true) :
    e = .wait ∧ s.todo = [] ∧ s.cancelled = true := by
  have heff := step_effect flag s e
  generalize step flag s e = s' at heff hwait
  have hsame : ∀ {b : Bool}, b = true → b = s.waiting → False := fun hb hs => by
    rw [hs, hnot] at hb
    exact nomatch hb
  cases heff with
  | waiting htodo hcancel => exact ⟨rfl, htodo, hcancel⟩
  | stopped => exact (hsame hwait (by unfold State.stop; split <;> rfl)).elim
  | rescoped => exact (hsame hwait (by unfold State.rescope; split <;> rfl)).elim
  | started => exact (hsame hwait (by unfold State.start; split <;> rfl)).elim
  | noted =>
    refine (hsame hwait ?_).elim
    unfold State.noteExit
    split
    · split <;> rfl
    · rfl
  | _ => exact (hsame hwait rfl).elim

theorem Roomy.step (h : Roomy s) (hfits : fits s e) : Roomy (Supervisor.step flag s e) := by
  intro hnext
  cases hwait : s.waiting with
  | true =>
    obtain ⟨-, htodo, hload⟩ := waiting_step h hwait e
    exact ⟨htodo, hload.trans_le (h hwait).2⟩
  | false =>
    obtain ⟨rfl, htodo, hcancel⟩ := starts_waiting hwait hnext
    have hle : s.load ≤ exitedCap := by simpa [fits, htodo, hcancel, hwait] using hfits
    have hstep : Supervisor.step flag s .wait = { s with waiting := true } := by
      simp [Supervisor.step, htodo, hcancel]
    rw [hstep]
    exact ⟨htodo, hle⟩

/-! ### Where a schedule ends -/

theorem active_of_lookup (g : ℕ) (hsignal : e.signal = false)
    (h : (step flag s e).workers.lookup g ≠ s.workers.lookup g) : Active flag s e :=
  ⟨hsignal, fun heq => h (by rw [heq])⟩

theorem lookup_move_ne (s : State) (g : ℕ) {before after : Phase}
    (hphase : w.phase = before) (hne : after ≠ before) :
    (s.move g w after).workers.lookup g ≠ some w := by
  rw [State.move, AList.lookup_insert]
  exact fun h => hne ((congrArg Worker.phase (Option.some.inj h)).trans hphase)

/-- A worker that has a place in the channel is never at the end of its schedule. -/
theorem worker_active (hw : s.workers.lookup g = some w)
    (hroom : s.exited.length < exitedCap) : ∃ e, Active flag s e := by
  cases hphase : w.phase with
  | looping first | drawn expose =>
    refine ⟨.ret g, active_of_lookup g rfl ?_⟩
    simp only [step, hw, hphase]
    exact lookup_move_ne s g hphase (by simp)
  | «scoped» =>
    refine ⟨.up g true, active_of_lookup g rfl ?_⟩
    simp only [step, hw, hphase]
    exact lookup_move_ne s g hphase (by simp)
  | up link =>
    refine ⟨.down g, active_of_lookup g rfl ?_⟩
    simp only [step, hw, hphase]
    exact lookup_move_ne s g hphase (by simp)
  | closing =>
    refine ⟨.remove g true, active_of_lookup g rfl ?_⟩
    simp only [step, hw, hphase]
    exact lookup_move_ne s g hphase (by simp)
  | returned =>
    refine ⟨.send g, active_of_lookup g rfl ?_⟩
    simp only [step, hw, hphase, hroom, and_self, if_true, AList.lookup_erase]
    exact nofun

/-- A supervisor with something to do, or one that has not noticed the cancellation, goes on. -/
theorem supervisor_active (hcancel : s.cancelled = true)
    (h : s.todo ≠ [] ∨ s.waiting = false) : ∃ e, Active flag s e := by
  cases htodo : s.todo with
  | nil =>
    have hwait : s.waiting = false := h.resolve_left fun hne => hne htodo
    refine ⟨.wait, rfl, fun heq => ?_⟩
    have hnow := congrArg State.waiting heq
    simp [step, htodo, hcancel, hwait] at hnow
  | cons a rest =>
    refine ⟨.act true, rfl, fun heq => ?_⟩
    have hrest : rest = a :: rest := by
      rw [← htodo, ← congrArg State.todo heq]
      simp only [step, htodo]
      cases a <;> rfl
    exact absurd (congrArg length hrest) (by simp)

/-- **A schedule that cannot go on has ended well.** -/
theorem Roomy.finished (h : Roomy s) (hcancel : s.cancelled = true) (hquiet : Quiet flag s) :
    Finished s := by
  have hbusy : ¬ (s.todo ≠ [] ∨ s.waiting = false) := fun hbusy => by
    obtain ⟨e, he⟩ := supervisor_active hcancel hbusy
    exact hquiet e he
  have hwait : s.waiting = true := by simpa using fun hw => hbusy (Or.inr hw)
  refine ⟨hwait, ?_⟩
  by_contra hne
  obtain ⟨g, w, hw⟩ := Go.exists_lookup_of_ne_empty hne
  have hsome : (s.workers.lookup g).isSome := by simp [hw]
  have hpos := Go.keys_length_pos (AList.lookup_isSome.1 hsome)
  have hload := (h hwait).2
  unfold State.load at hload
  obtain ⟨e, he⟩ := worker_active hw (by omega)
  exact hquiet e he

/-- A waiting supervisor can be brought to its end. -/
theorem Roomy.finishes (h : Roomy s) (hcancel : s.cancelled = true) (hwait : s.waiting = true) :
    ∃ es, Along (Supervisor.step flag) (Active flag) s es ∧
      Finished (run (Supervisor.step flag) s es) := by
  -- every step that is left lowers the rank and keeps the supervisor waiting
  induction hn : s.rank using Nat.strong_induction_on generalizing s with
  | _ n ih =>
    by_cases hquiet : Quiet flag s
    · exact ⟨[], trivial, h.finished hcancel hquiet⟩
    · simp only [Quiet, not_forall, not_not] at hquiet
      obtain ⟨e, he⟩ := hquiet
      obtain ⟨hwait', htodo, hload⟩ := waiting_step h hwait e
      obtain ⟨es, hes, hfin⟩ := ih _ (hn ▸ rank_step hcancel he)
        (fun _ => ⟨htodo, hload.trans_le (h hwait).2⟩) (cancelled_step hcancel e) hwait' rfl
      exact ⟨e :: es, ⟨he, hes⟩, hfin⟩

/-- **The supervisor shuts down**, provided that what is left when it starts waiting fits into its
channel. After the cancellation every schedule is finite, one that cannot go on has ended with
`supervise` returned and all workers gone, and a waiting supervisor always has such a schedule. -/
theorem shutdown_completes (flag : Option Nft.Scope) (specs : List Spec) (es : List Event)
    (hG : Along (step flag) (fun s e => fits s e) (State.new specs) es)
    (hcancel : (runFrom flag specs es).cancelled = true) :
    (Quiet flag (runFrom flag specs es) → Finished (runFrom flag specs es)) ∧
      ((runFrom flag specs es).waiting = true →
        ∃ es', Along (step flag) (Active flag) (runFrom flag specs es) es' ∧
          Finished (runFrom flag specs (es ++ es'))) ∧
      ∀ es', Along (step flag) (Active flag) (runFrom flag specs es) es' →
        es'.length ≤ (runFrom flag specs es).rank := by
  have hroomy : Roomy (runFrom flag specs es) :=
    invariant_along (P := Roomy) (fun _ _ h hf => h.step hf)
      (fun h => Bool.noConfusion h) hG
  refine ⟨hroomy.finished hcancel, fun hwait => ?_, fun es' => active_length_le hcancel⟩
  obtain ⟨es', hes', hfin⟩ := hroomy.finishes hcancel hwait
  refine ⟨es', hes', ?_⟩
  rw [runFrom, run_append]
  exact hfin

/-! ### Seventeen workers -/

/-- The channel is full and nobody reads it. -/
structure Stuck (s : State) : Prop where
  waiting : s.waiting = true
  cancelled : s.cancelled = true
  todo : s.todo = []
  full : exitedCap ≤ s.exited.length
  returned : ∀ g w, s.workers.lookup g = some w → w.phase = .returned

theorem Stuck.step (h : Stuck s) (e : Event) : Supervisor.step flag s e = s := by
  have hphase : ∀ {g w p}, s.workers.lookup g = some w → w.phase = p → p ≠ .returned → False :=
    fun hw hp hne => hne (hp.symm.trans (h.returned _ _ hw))
  have heff := step_effect flag s e
  generalize Supervisor.step flag s e = s' at heff
  cases heff with
  | idle => rfl
  | plan _ hnot | noted _ _ hnot => exact absurd (h.waiting.symm.trans hnot) (by decide)
  | stopped htodo | rescoped htodo | started htodo =>
    exact absurd (h.todo.symm.trans htodo) (by simp)
  | cancelled => rw [← h.cancelled]
  | waiting => rw [← h.waiting]
  | sent _ _ hroom => exact absurd h.full (by omega)
  | drawn hw hp | failed hw hp | applied hw hp | upped hw hp | upFailed hw hp | downed hw hp
  | removed hw hp => exact (hphase hw hp (by simp)).elim
  | returned hw hp =>
    rcases hp with ⟨first, hp⟩ | ⟨expose, hp⟩
    · exact (hphase hw hp (by simp)).elim
    · exact (hphase hw hp (by simp)).elim

namespace Sample

/-- A number of buddies with different keys. -/
def buddies (n : ℕ) : List Spec := (range n).map fun i => ⟨replicate 32 i.toUInt8, none⟩

/-- The buddies' workers are started, the context is cancelled, and the supervisor waits. -/
def shutdown (n : ℕ) : List Event := replicate n (.act true) ++ [.cancel, .wait]

/-- The workers return, and a number of them report. -/
def reports (n m : ℕ) : List Event :=
  (range n).map (fun i => .ret (i + 1)) ++ (range m).map fun i => .send (i + 1)

end Sample

/-- With seventeen buddies the last worker finds the channel full and never finishes. -/
theorem shutdown_completes_fails :
    ∃ (specs : List Spec) (es : List Event), specs.length ≤ Trust.maxBuddies ∧
      (runFrom none specs es).cancelled = true ∧ (runFrom none specs es).waiting = true ∧
      (runFrom none specs es).workers.keys = [17] ∧
      ∀ es', runFrom none specs (es ++ es') = runFrom none specs es := by
  refine ⟨Sample.buddies 17, Sample.shutdown 17 ++ Sample.reports 17 16, ?_⟩
  generalize hs : runFrom none (Sample.buddies 17) (Sample.shutdown 17 ++ Sample.reports 17 16) = s
  have hfields : s.cancelled = true ∧ s.waiting = true ∧ s.workers.keys = [17] ∧ s.todo = [] ∧
      exitedCap ≤ s.exited.length ∧ (s.workers.lookup 17).map Worker.phase = some .returned := by
    subst hs
    decide +kernel
  obtain ⟨hcancel, hwait, hkeys, htodo, hfull, hlast⟩ := hfields
  have hstuck : Stuck s := ⟨hwait, hcancel, htodo, hfull, fun g w hw => by
    have hg : g ∈ s.workers.keys := Go.mem_keys_of_lookup hw
    obtain rfl : g = 17 := by simpa [hkeys] using hg
    simpa [hw] using hlast⟩
  refine ⟨by decide, hcancel, hwait, hkeys, fun es' => ?_⟩
  rw [runFrom, run_append, ← runFrom, hs]
  refine invariant_run (P := fun s' => s' = s) (fun s' e h => ?_) rfl es'
  rw [h]
  exact hstuck.step e

/-- With sixteen buddies the supervisor can always come to its end. -/
theorem shutdown_completes_sixteen :
    let es := Sample.shutdown 16
    (runFrom none (Sample.buddies 16) es).workers.keys.length = 16 ∧
      ∃ es', Finished (runFrom none (Sample.buddies 16) (es ++ es')) := by
  refine ⟨by decide +kernel, ?_⟩
  obtain ⟨es', -, hfin⟩ := (shutdown_completes none (Sample.buddies 16) (Sample.shutdown 16)
    (by decide +kernel) (by decide +kernel)).2.1 (by decide +kernel)
  exact ⟨es', hfin⟩

end BuddyNet.Supervisor
