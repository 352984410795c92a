import BuddyNet.Library.Machine
import BuddyNet.Library.Transaction

/-!
# Processes that read first and lock later

Several processes share a state. A process reads it some number of times without a lock, and then
ends or enters one locked section, in which it runs a transaction. A read and a locked section are
one step each, so every interleaving is a list of process names.

* `Process`, and `settle`: what its reads come to when all of them see one state;
* `alone`: the process with nobody else around;
* `State`, `step`: the processes side by side;
* `Reads p q`: `q` is what is left of `p` after some reads;
* `exists_serial`: when every section is entered on reads that are still good, and a section that
  fails has written nothing, the processes that succeeded can be run one after the other.
-/

namespace Optimistic

open Machine List

/-- What is left of a process: it has ended, it reads next, or it enters its section. -/
inductive Process (σ ε α κ : Type) where
  | done (r : Except ε α)
  | read (next : σ → Process σ ε α κ)
  | enter (k : κ)

variable {σ ε α κ ι : Type}

/-- Where the reads lead when all of them see the same state: to an end or to a section. -/
def Process.settle (s : σ) : Process σ ε α κ → Except ε α ⊕ κ
  | .done r => .inl r
  | .read next => (next s).settle s
  | .enter k => .inr k

variable (body : κ → Transaction σ ε α)

/-- The process on its own. -/
def Process.alone (p : Process σ ε α κ) : Transaction σ ε α := fun s =>
  match p.settle s with
  | .inl r => ([], r)
  | .inr k => body k s

variable {p : Process σ ε α κ}

theorem Process.alone_section {s : σ} {k : κ} (h : p.settle s = .inr k) :
    p.alone body s = body k s ∧ (p.alone body).final s = (body k).final s := by
  have halone : p.alone body s = body k s := by rw [Process.alone, h]
  exact ⟨halone, congrArg (fun w => w.1.getLastD s) halone⟩

theorem Process.alone_end {s : σ} {r : Except ε α} (h : p.settle s = .inl r) :
    (p.alone body s).2 = r ∧ (p.alone body).final s = s := by
  have halone : p.alone body s = ([], r) := by rw [Process.alone, h]
  exact ⟨congrArg Prod.snd halone, congrArg (fun w => w.1.getLastD s) halone⟩

/-- The shared state, and what is left of each process. -/
structure State (σ ε α κ ι : Type) where
  shared : σ
  procs : ι → Process σ ε α κ

/-- The next step of process `i`. -/
def step [DecidableEq ι] (st : State σ ε α κ ι) (i : ι) : State σ ε α κ ι :=
  match st.procs i with
  | .done _ => st
  | .read next => { st with procs := Function.update st.procs i (next st.shared) }
  | .enter k => ⟨(body k).final st.shared, Function.update st.procs i (.done (body k st.shared).2)⟩

/-- The process has ended well. -/
def State.succeeded (st : State σ ε α κ ι) (i : ι) : Bool :=
  match st.procs i with
  | .done (.ok _) => true
  | _ => false

variable {i : ι}

theorem State.succeeded_iff {st : State σ ε α κ ι} :
    st.succeeded i = true ↔ ∃ a, st.procs i = .done (.ok a) := by
  unfold State.succeeded
  split
  · next a h => simp [h]
  · next h =>
    constructor
    · rintro ⟨⟩
    · rintro ⟨a, ha⟩
      exact absurd ha (h a)

/-! ### What is left after some reads -/

/-- `q` is what is left of `p` after some reads, each of any state. -/
inductive Reads (p : Process σ ε α κ) : Process σ ε α κ → Prop
  | refl : Reads p p
  | read {next : σ → Process σ ε α κ} (h : Reads p (.read next)) (s : σ) : Reads p (next s)

variable {q : Process σ ε α κ}

/-- What holds of the process and is kept by its reads holds of what is left. -/
theorem Reads.invariant {S : Process σ ε α κ → Prop} (h : Reads p q)
    (hp : S p) (hread : ∀ next, S (.read next) → ∀ s, S (next s)) : S q := by
  induction h with
  | refl => exact hp
  | read _ s ih => exact hread _ ih s

theorem reads_enter {k : κ} (h : Reads (.enter k) q) : q = .enter k :=
  h.invariant (S := (· = .enter k)) rfl nofun

theorem reads_done {r : Except ε α} (h : Reads (.done r) q) : q = .done r :=
  h.invariant (S := (· = .done r)) rfl nofun

/-- Every end of the process by its reads satisfies `D`, and every section it can enter `K`. -/
def Process.Leads (D : Except ε α → Prop) (K : κ → Prop) : Process σ ε α κ → Prop
  | .done r => D r
  | .read next => ∀ s, (next s).Leads D K
  | .enter k => K k

variable {K : κ → Prop}

theorem Process.Leads.reads {D : Except ε α → Prop}
    (h : p.Leads D K) (hq : Reads p q) : q.Leads D K :=
  hq.invariant h fun _ hnext s => hnext s

/-! ### Reads that can fail -/

section Look

variable {β : Type}

/-- A read that ends the process when it fails. -/
def Process.look (get : σ → Except ε β) (k : β → Process σ ε α κ) : Process σ ε α κ :=
  .read fun s =>
    match get s with
    | .ok b => k b
    | .error e => .done (.error e)

variable {get : σ → Except ε β} {k : β → Process σ ε α κ} {s : σ}

theorem settle_look_ok {b : β} (h : get s = .ok b) :
    (Process.look get k).settle s = (k b).settle s := by
  simp only [Process.look, Process.settle, h]

theorem settle_look_error {e : ε} (h : get s = .error e) :
    (Process.look get k).settle s = .inl (.error e) := by
  simp only [Process.look, Process.settle, h]

theorem leads_look {D : Except ε α → Prop} {K : κ → Prop} (herror : ∀ e, D (.error e))
    (hk : ∀ b, (k b).Leads D K) : (Process.look get k).Leads D K := by
  intro s
  dsimp only
  split
  · exact hk _
  · exact herror _

/-- What is left of such a process: all of it, some of what follows the read, or its failure. -/
theorem reads_look {q : Process σ ε α κ} (h : Reads (Process.look get k) q) :
    q = .look get k ∨ (∃ s b, get s = .ok b ∧ Reads (k b) q) ∨ ∃ e, q = .done (.error e) := by
  induction h with
  | refl => exact Or.inl rfl
  | @read next _ s ih =>
    rcases ih with heq | ⟨s', b, hb, hreads⟩ | ⟨e, he⟩
    · cases heq
      dsimp only
      split
      · next b hb => exact Or.inr (Or.inl ⟨s, b, hb, .refl⟩)
      · next e _ => exact Or.inr (Or.inr ⟨e, rfl⟩)
    · exact Or.inr (Or.inl ⟨s', b, hb, hreads.read s⟩)
    · cases he

end Look

/-- Each process is somewhere on its way, or has ended. -/
def OnWay (P : ι → Process σ ε α κ) (st : State σ ε α κ ι) : Prop :=
  ∀ i, Reads (P i) (st.procs i) ∨ ∃ r, st.procs i = .done r

variable [DecidableEq ι] {body} {P : ι → Process σ ε α κ} {st : State σ ε α κ ι}

theorem onWay_step (h : OnWay P st) (i : ι) : OnWay P (step body st i) := by
  intro j
  unfold step
  split
  · exact h j
  · next next hi =>
    by_cases hj : j = i
    · subst hj
      rcases h j with hreads | ⟨r, hr⟩
      · rw [hi] at hreads
        simpa using Or.inl (hreads.read st.shared)
      · rw [hi] at hr
        cases hr
    · simpa [hj] using h j
  · by_cases hj : j = i
    · subst hj
      exact Or.inr ⟨_, Function.update_self ..⟩
    · simpa [hj] using h j

/-! ### Serial runs -/

/-- One process after the other, each on its own. -/
def serialStep (body : κ → Transaction σ ε α) (P : ι → Process σ ε α κ) (s : σ) (i : ι) : σ :=
  ((P i).alone body).final s

/-- The process, on its own, ends well. -/
def EndsWell (body : κ → Transaction σ ε α) (P : ι → Process σ ε α κ) (s : σ) (i : ι) : Prop :=
  ∃ a, ((P i).alone body s).2 = .ok a

/-- The processes that succeeded, in an order in which they succeed one after the other and lead
from `s` to the shared state. -/
def Serial (body : κ → Transaction σ ε α) (P : ι → Process σ ε α κ) (s : σ)
    (st : State σ ε α κ ι) : Prop :=
  ∃ order : List ι, order.Nodup ∧ (∀ i, i ∈ order ↔ st.succeeded i = true) ∧
    Along (serialStep body P) (EndsWell body P) s order ∧
    run (serialStep body P) s order = st.shared

/-- A section that ends well is entered on reads that are still good, and one that fails writes
nothing. -/
def Sound (body : κ → Transaction σ ε α) (P : ι → Process σ ε α κ) (st : State σ ε α κ ι)
    (i : ι) : Prop :=
  ∀ k, st.procs i = .enter k →
    (∀ a, (body k st.shared).2 = .ok a → (P i).settle st.shared = .inr k) ∧
    ∀ e, (body k st.shared).2 = .error e → (body k).final st.shared = st.shared

/-- A process that ends well by reading alone would do so if all its reads were the last one. -/
def Prompt (p : Process σ ε α κ) : Prop :=
  ∀ next, Reads p (.read next) → ∀ s a, next s = .done (.ok a) → p.settle s = .inl (.ok a)

/-- A process of which no end by reading is a good one. -/
theorem Process.Leads.not_ok {next : σ → Process σ ε α κ}
    (h : p.Leads (fun r => ∀ a, r ≠ .ok a) K) (hreads : Reads p (.read next)) (s : σ) (a : α) :
    next s ≠ .done (.ok a) := by
  intro ha
  have hend := h.reads hreads s
  rw [ha] at hend
  exact hend a rfl

theorem prompt_of_leads (h : p.Leads (fun r => ∀ a, r ≠ .ok a) K) : Prompt p :=
  fun _ hreads s a ha => absurd ha (h.not_ok hreads s a)

/-- A process that ends well by reading only with its first read. -/
theorem prompt_look {β : Type} {get : σ → Except ε β} {k : β → Process σ ε α κ}
    (hk : ∀ b, (k b).Leads (fun r => ∀ a, r ≠ .ok a) K ∨ ∃ r, k b = .done r) :
    Prompt (Process.look get k) := by
  intro next hreads s a ha
  rcases reads_look hreads with heq | ⟨s', b, -, hb⟩ | ⟨e, he⟩
  · rw [← heq, Process.settle, ha]
    rfl
  · rcases hk b with hquiet | ⟨r, hr⟩
    · exact absurd ha (hquiet.not_ok hb s a)
    · rw [hr] at hb
      cases reads_done hb
  · cases he

variable {s : σ}

omit [DecidableEq ι] in
/-- Steps that neither end a process well nor write leave a serial run as it is. -/
theorem Serial.of_same {st' : State σ ε α κ ι} (h : Serial body P s st)
    (hshared : st'.shared = st.shared) (hsame : ∀ i, st'.succeeded i = st.succeeded i) :
    Serial body P s st' := by
  obtain ⟨order, hnodup, hmem, halong, hrun⟩ := h
  exact ⟨order, hnodup, fun i => by rw [hmem, hsame], halong, hrun.trans hshared.symm⟩

/-- A process that ends well now, as it would on its own, comes last in the order. -/
theorem Serial.concat {st' : State σ ε α κ ι} (h : Serial body P s st)
    (hbefore : st.succeeded i = false) (hafter : st'.succeeded i = true)
    (hother : ∀ j, j ≠ i → st'.succeeded j = st.succeeded j) (hwell : EndsWell body P st.shared i)
    (hshared : st'.shared = serialStep body P st.shared i) : Serial body P s st' := by
  obtain ⟨order, hnodup, hmem, halong, hrun⟩ := h
  have hnew : i ∉ order := fun hi => by
    rw [hmem, hbefore] at hi
    cases hi
  refine ⟨order ++ [i], nodup_append.2 ⟨hnodup, nodup_singleton i, ?_⟩, fun j => ?_,
    along_append.2 ⟨halong, ?_, trivial⟩, ?_⟩
  · rintro a ha b hb rfl
    exact hnew (mem_singleton.1 hb ▸ ha)
  · rw [mem_append, mem_singleton]
    by_cases hj : j = i
    · subst hj
      simp [hafter]
    · rw [hmem, hother j hj]
      simp [hj]
  · rw [hrun]
    exact hwell
  · rw [run_concat, hrun, hshared]

theorem succeeded_update {t : σ} {j : ι} (hj : j ≠ i) :
    (State.mk t (Function.update st.procs i p)).succeeded j = st.succeeded j := by
  simp [State.succeeded, Function.update_of_ne hj]

/-- One step, by what it does: nothing, a read, or a section. -/
theorem serial_step (hprompt : ∀ i, Prompt (P i)) (hway : OnWay P st)
    (h : Serial body P s st) (hsound : Sound body P st i) : Serial body P s (step body st i) := by
  unfold step
  split
  · exact h
  · next next hi =>
    have hbefore : st.succeeded i = false := by simp [State.succeeded, hi]
    by_cases hwell : ∃ a, next st.shared = .done (.ok a)
    · obtain ⟨a, ha⟩ := hwell
      have hreads : Reads (P i) (.read next) := by
        rcases hway i with hreads | ⟨r, hr⟩
        · rwa [hi] at hreads
        · rw [hi] at hr
          cases hr
      obtain ⟨hend, hfinal⟩ := Process.alone_end body (hprompt i next hreads st.shared a ha)
      exact h.concat hbefore (by simp [State.succeeded, ha]) (fun j hj => succeeded_update hj)
        ⟨a, hend⟩ hfinal.symm
    · refine h.of_same rfl fun j => ?_
      by_cases hj : j = i
      · subst hj
        rw [hbefore, Bool.eq_false_iff]
        intro hdone
        obtain ⟨a, ha⟩ := State.succeeded_iff.1 hdone
        exact hwell ⟨a, by simpa using ha⟩
      · exact succeeded_update hj
  · next k hi =>
    have hbefore : st.succeeded i = false := by simp [State.succeeded, hi]
    obtain ⟨hgood, hfailed⟩ := hsound k hi
    cases hend : (body k st.shared).2 with
    | ok a =>
      obtain ⟨halone, hfinal⟩ := Process.alone_section body (hgood a hend)
      exact h.concat hbefore (by simp [State.succeeded]) (fun j hj => succeeded_update hj)
        ⟨a, by rw [halone, hend]⟩ hfinal.symm
    | error e =>
      refine h.of_same (hfailed e hend) fun j => ?_
      by_cases hj : j = i
      · subst hj
        rw [hbefore]
        simp [State.succeeded]
      · exact succeeded_update hj

/-- **Optimistic runs are serial** when every section is sound. -/
theorem exists_serial (hprompt : ∀ i, Prompt (P i)) (hstart : ∀ i a, P i ≠ .done (.ok a))
    {es : List ι} (h : Along (step body) (Sound body P) ⟨s, P⟩ es) :
    Serial body P s (run (step body) ⟨s, P⟩ es) := by
  have hempty : Serial body P s ⟨s, P⟩ := by
    refine ⟨[], nodup_nil, fun i => ?_, trivial, rfl⟩
    constructor
    · rintro ⟨⟩
    · intro hi
      obtain ⟨a, ha⟩ := State.succeeded_iff.1 hi
      exact absurd ha (hstart i a)
  have hboth : OnWay P (run (step body) ⟨s, P⟩ es) ∧ Serial body P s (run (step body) ⟨s, P⟩ es) :=
    invariant_along (P := fun st => OnWay P st ∧ Serial body P s st)
      (fun st i hst hi => ⟨onWay_step hst.1 i, serial_step hprompt hst.1 hst.2 hi⟩)
      ⟨fun _ => Or.inl .refl, hempty⟩ h
  exact hboth.2

end Optimistic
