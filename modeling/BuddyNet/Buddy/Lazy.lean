import BuddyNet.Library.Machine

/-!
# The lazy tunnel

`internal/role/lazy.go`: local connections call `get`, which wakes the reconnect loop and waits on a
channel; the loop sets a session or an error, closes the channel, and later resets the tunnel. A
waiter leaves the channel without the lock and takes the lock again to read the result. In between
the loop may already have reset the tunnel, and then the waiter reads neither a session nor an
error.

* `handover_iff`: every call returns a session or an error exactly when no waiter reads between a
  reset and the next result;
* a session is returned only while it is set and not marked idle;
* a call that waits on an open channel has woken the loop.

Sessions and errors are arbitrary types. The channels are numbered in the order they are made.
-/

namespace BuddyNet.Buddy.Lazy

open Machine

variable {S E : Type}

/-! ### The code -/

/-- `lazyTunnel`; `wake` says whether the buffer of the wake channel is full. -/
structure LazyTunnel (S E : Type) where
  sess : Option S := none
  ready : ℕ := 0
  waking : Bool := false
  err : Option E := none
  wake : Bool := false

/-- Where the reconnect loop is: before `<-lt.wake`, in `buddyRun` before its result, or after
`setSession` or `setFailed` and before `markIdle`. -/
inductive Loop (S E : Type) where
  | sleeping
  | dialing
  | up (s : S)
  | failed (e : E)

/-- Where a call of `get` is. -/
inductive Call (S E : Type) where
  | notCalled
  /-- Before `<-ready`. -/
  | waiting (ch : ℕ)
  /-- Between `<-ready` and the second lock. -/
  | released
  | returned (sess : Option S) (err : Option E)

/-- The tunnel, the channels that are closed, the loop and the calls. -/
structure State (S E : Type) where
  lt : LazyTunnel S E := {}
  closed : ℕ → Bool := fun _ => false
  loop : Loop S E := .sleeping
  calls : ℕ → Call S E := fun _ => .notCalled

/-- A step of a call or of the loop. -/
inductive Event (S E : Type) where
  /-- The first section of `get` under the lock. -/
  | get (i : ℕ)
  /-- `<-ready`. -/
  | release (i : ℕ)
  /-- `<-ctx.Done()`, with the error of the context. -/
  | cancel (i : ℕ) (e : E)
  /-- The second section of `get`. -/
  | read (i : ℕ)
  /-- The loop receives from `lt.wake`. -/
  | wake
  | setSession (s : S)
  | setFailed (e : E)
  | markIdle

/-- A call goes on. -/
def State.setCall (s : State S E) (i : ℕ) (c : Call S E) : State S E :=
  { s with calls := Function.update s.calls i c }

/-- The first waiter wakes the loop; the send is dropped when the buffer is full already. -/
def LazyTunnel.rouse (lt : LazyTunnel S E) : LazyTunnel S E :=
  if lt.waking then lt else { lt with waking := true, wake := true }

/-- The first section of `get`: the session, or the channel to wait on. -/
def LazyTunnel.get (lt : LazyTunnel S E) : LazyTunnel S E × Call S E :=
  match lt.sess with
  | some s => (lt, .returned (some s) none)
  | none => (lt.rouse, .waiting lt.ready)

/-- `setSession`, without the close. -/
def LazyTunnel.setSession (lt : LazyTunnel S E) (s : S) : LazyTunnel S E :=
  { lt with sess := some s, err := none }

/-- `setFailed`, without the close. -/
def LazyTunnel.setFailed (lt : LazyTunnel S E) (e : E) : LazyTunnel S E :=
  { lt with err := some e, sess := none, waking := false }

/-- `markIdle`. -/
def LazyTunnel.markIdle (lt : LazyTunnel S E) : LazyTunnel S E :=
  { lt with sess := none, err := none, waking := false, ready := lt.ready + 1 }

/-- The close of the ready channel. -/
def State.closeReady (s : State S E) : ℕ → Bool := Function.update s.closed s.lt.ready true

/-- A step; one whose turn it is not does nothing. -/
def State.step (s : State S E) : Event S E → State S E
  | .get i =>
    match s.calls i with
    | .notCalled => { s with lt := s.lt.get.1 }.setCall i s.lt.get.2
    | _ => s
  | .release i =>
    match s.calls i with
    | .waiting ch => if s.closed ch then s.setCall i .released else s
    | _ => s
  | .cancel i e =>
    match s.calls i with
    | .waiting _ => s.setCall i (.returned none (some e))
    | _ => s
  | .read i =>
    match s.calls i with
    | .released => s.setCall i (.returned s.lt.sess s.lt.err)
    | _ => s
  | .wake =>
    match s.loop with
    | .sleeping => if s.lt.wake then { s with lt := { s.lt with wake := false }, loop := .dialing }
      else s
    | _ => s
  | .setSession x =>
    match s.loop with
    | .dialing => { s with lt := s.lt.setSession x, closed := s.closeReady, loop := .up x }
    | _ => s
  | .setFailed e =>
    match s.loop with
    | .dialing => { s with lt := s.lt.setFailed e, closed := s.closeReady, loop := .failed e }
    | _ => s
  | .markIdle =>
    match s.loop with
    | .up _ => { s with lt := s.lt.markIdle, loop := .sleeping }
    | .failed _ => { s with lt := s.lt.markIdle, loop := .sleeping }
    | _ => s

/-! ### What the parts know of each other -/

/-- The loop has published a result that it has not taken back. -/
def Loop.Published : Loop S E → Prop
  | .up _ => True
  | .failed _ => True
  | _ => False

/-- The session that is set and not marked idle. -/
def Loop.session : Loop S E → Option S
  | .up s => some s
  | _ => none

/-- The error that is set and not taken back. -/
def Loop.error : Loop S E → Option E
  | .failed e => some e
  | _ => none

/-- **What holds in every state.** The tunnel has what the loop has published; the channels before
the present one are closed, and the present one when a result is published; a call that waits on an
open channel has woken the loop. -/
structure Sound (s : State S E) : Prop where
  sess : s.lt.sess = s.loop.session
  err : s.lt.err = s.loop.error
  closed : ∀ ch, s.closed ch = true ↔ ch < s.lt.ready ∨ ch = s.lt.ready ∧ s.loop.Published
  known : ∀ {i ch}, s.calls i = .waiting ch → ch ≤ s.lt.ready
  waking : ∀ {i ch}, s.calls i = .waiting ch → s.closed ch = true ∨ s.lt.waking = true
  queued : s.lt.waking = true → s.loop = .sleeping → s.lt.wake = true

theorem sound_start : Sound ({} : State S E) where
  sess := rfl
  err := rfl
  closed := fun ch => by simp [Loop.Published]
  known := by rintro i ch ⟨⟩
  waking := by rintro i ch ⟨⟩
  queued := by rintro ⟨⟩

variable {s : State S E}

theorem calls_setCall (s : State S E) (i j : ℕ) (c : Call S E) :
    (s.setCall i c).calls j = if j = i then c else s.calls j :=
  Function.update_apply s.calls i c j

/-! ### Calls -/

theorem Sound.setCall (h : Sound s) (i : ℕ) {c : Call S E} (hc : ∀ ch, c ≠ .waiting ch) :
    Sound (s.setCall i c) := by
  have hcalls : ∀ {j ch}, (s.setCall i c).calls j = .waiting ch → s.calls j = .waiting ch := by
    intro j ch hj
    rw [calls_setCall] at hj
    split_ifs at hj
    · exact absurd hj (hc ch)
    · exact hj
  exact ⟨h.sess, h.err, h.closed, fun hj => h.known (hcalls hj), fun hj => h.waking (hcalls hj),
    h.queued⟩

theorem LazyTunnel.rouse_spec (lt : LazyTunnel S E) :
    lt.rouse.sess = lt.sess ∧ lt.rouse.err = lt.err ∧ lt.rouse.ready = lt.ready ∧
      lt.rouse.waking = true ∧ (lt.rouse = lt ∨ lt.rouse.wake = true) := by
  unfold LazyTunnel.rouse
  split_ifs with hw
  · exact ⟨rfl, rfl, rfl, hw, Or.inl rfl⟩
  · exact ⟨rfl, rfl, rfl, rfl, Or.inr rfl⟩

theorem Sound.wait (h : Sound s) (i : ℕ) :
    Sound ({ s with lt := s.lt.rouse }.setCall i (.waiting s.lt.ready)) := by
  obtain ⟨hsess, herr, hready, hwaking, hwake⟩ := s.lt.rouse_spec
  refine ⟨hsess.trans h.sess, herr.trans h.err, fun ch => ?_, fun {j ch} hj => ?_,
    fun _ => Or.inr hwaking, fun _ hloop => ?_⟩
  · show s.closed ch = true ↔ ch < s.lt.rouse.ready ∨ ch = s.lt.rouse.ready ∧ s.loop.Published
    rw [hready]
    exact h.closed ch
  · show ch ≤ s.lt.rouse.ready
    rw [hready]
    rw [calls_setCall] at hj
    split_ifs at hj
    · cases hj
      exact le_rfl
    · exact h.known hj
  · show s.lt.rouse.wake = true
    rcases hwake with hsame | hfull
    · rw [hsame] at hwaking ⊢
      exact h.queued hwaking hloop
    · exact hfull

theorem get_cases (lt : LazyTunnel S E) :
    (∃ x, lt.sess = some x ∧ lt.get = (lt, .returned (some x) none)) ∨
      lt.sess = none ∧ lt.get = (lt.rouse, .waiting lt.ready) := by
  unfold LazyTunnel.get
  cases lt.sess with
  | some x => exact Or.inl ⟨x, rfl, rfl⟩
  | none => exact Or.inr ⟨rfl, rfl⟩

theorem Sound.get (h : Sound s) (i : ℕ) :
    Sound ({ s with lt := s.lt.get.1 }.setCall i s.lt.get.2) := by
  rcases get_cases s.lt with ⟨x, -, hget⟩ | ⟨-, hget⟩ <;> rw [hget]
  · exact h.setCall i nofun
  · exact h.wait i

/-! ### The loop -/

theorem Sound.closeReady (h : Sound s) {lt : LazyTunnel S E} {loop : Loop S E}
    (hready : lt.ready = s.lt.ready) (hpub : loop.Published) (hsess : lt.sess = loop.session)
    (herr : lt.err = loop.error) (hloop : loop ≠ .sleeping) :
    Sound { s with lt := lt, closed := s.closeReady, loop := loop } := by
  have hclosed : ∀ ch, s.closeReady ch = true ↔ ch < s.lt.ready ∨ ch = s.lt.ready := by
    intro ch
    rw [State.closeReady, Function.update_apply]
    split_ifs with heq
    · simp [heq]
    · rw [h.closed ch]
      tauto
  refine ⟨hsess, herr, fun ch => ?_, fun {i ch} hi => ?_, fun {i ch} hi => Or.inl ?_,
    fun _ hsleep => absurd hsleep hloop⟩
  · show s.closeReady ch = true ↔ ch < lt.ready ∨ ch = lt.ready ∧ loop.Published
    rw [hclosed, hready]
    simp only [hpub, and_true]
  · show ch ≤ lt.ready
    rw [hready]
    exact h.known hi
  · exact (hclosed ch).2 (lt_or_eq_of_le (h.known hi))

/-- The reset: every channel that a call waits on was closed before. -/
theorem Sound.markIdle (h : Sound s) (hpub : s.loop.Published) :
    Sound { s with lt := s.lt.markIdle, loop := .sleeping } := by
  have hclosed : ∀ ch, s.closed ch = true ↔ ch < s.lt.ready + 1 := by
    intro ch
    rw [h.closed ch]
    simp only [hpub, and_true]
    omega
  refine ⟨rfl, rfl, fun ch => ?_, fun {i ch} hi => ?_, fun {i ch} hi => Or.inl ?_, fun hw => ?_⟩
  · show s.closed ch = true ↔ ch < s.lt.ready + 1 ∨ ch = s.lt.ready + 1 ∧ False
    rw [hclosed]
    simp
  · exact (h.known hi).trans (Nat.le_succ _)
  · exact (hclosed ch).2 (Nat.lt_succ_of_le (h.known hi))
  · cases hw

theorem Sound.step (h : Sound s) (e : Event S E) : Sound (s.step e) := by
  cases e with
  | get i =>
    simp only [State.step]
    split
    · exact h.get i
    · exact h
  | release i =>
    simp only [State.step]
    split
    · split_ifs
      · exact h.setCall i nofun
      · exact h
    · exact h
  | cancel i e | read i =>
    simp only [State.step]
    split
    · exact h.setCall i nofun
    · exact h
  | wake =>
    simp only [State.step]
    split
    · next hloop =>
      split_ifs
      · -- the loop goes on without a result
        refine ⟨h.sess.trans (by rw [hloop]; rfl), h.err.trans (by rw [hloop]; rfl), fun ch => ?_,
          h.known, h.waking, ?_⟩
        · rw [h.closed ch, hloop]
          rfl
        · rintro - ⟨⟩
      · exact h
    · exact h
  | setSession x | setFailed e =>
    simp only [State.step]
    split
    · exact h.closeReady rfl trivial rfl rfl (by rintro ⟨⟩)
    · exact h
  | markIdle =>
    simp only [State.step]
    split
    · next hloop => exact h.markIdle (by rw [hloop]; trivial)
    · next hloop => exact h.markIdle (by rw [hloop]; trivial)
    · exact h

/-! ### What is returned -/

/-- A call that returned has a session or an error. -/
def Call.Answered : Call S E → Prop
  | .returned sess err => sess ≠ none ∨ err ≠ none
  | _ => True

/-- Every call that returned has a session or an error. -/
def State.Answered (s : State S E) : Prop := ∀ i, (s.calls i).Answered

/-- A waiter that was released reads while a result is published. -/
def Prompt (s : State S E) : Event S E → Prop
  | .read i => s.calls i = .released → s.loop.Published
  | _ => True

theorem answered_setCall (h : s.Answered) (i : ℕ) (c : Call S E) :
    (s.setCall i c).Answered ↔ c.Answered := by
  constructor
  · intro hs
    have hi := hs i
    rwa [calls_setCall, if_pos rfl] at hi
  · intro hc j
    rw [calls_setCall]
    split_ifs
    · exact hc
    · exact h j

theorem Sound.published_iff (h : Sound s) :
    s.lt.sess ≠ none ∨ s.lt.err ≠ none ↔ s.loop.Published := by
  rw [h.sess, h.err]
  cases s.loop <;> simp [Loop.session, Loop.error, Loop.Published]

/-- **One step**: only a waiter that reads late can return nothing. -/
theorem answered_step (h : Sound s) (ha : s.Answered) (e : Event S E) :
    (s.step e).Answered ↔ Prompt s e := by
  cases e with
  | get i =>
    refine iff_of_true ?_ trivial
    simp only [State.step]
    split
    · rcases get_cases s.lt with ⟨x, -, hget⟩ | ⟨-, hget⟩ <;> rw [hget]
      · exact (answered_setCall ha i _).2 (Or.inl (by simp))
      · exact (answered_setCall (s := { s with lt := s.lt.rouse }) ha i _).2 trivial
    · exact ha
  | release i =>
    refine iff_of_true ?_ trivial
    simp only [State.step]
    split
    · split_ifs
      · exact (answered_setCall ha i _).2 trivial
      · exact ha
    · exact ha
  | cancel i e =>
    refine iff_of_true ?_ trivial
    simp only [State.step]
    split
    · exact (answered_setCall ha i _).2 (Or.inr (by simp))
    · exact ha
  | read i =>
    simp only [State.step, Prompt]
    split
    · next hcall =>
      rw [answered_setCall ha, hcall]
      exact h.published_iff.trans ⟨fun hp _ => hp, fun hp => hp rfl⟩
    · next hcall => exact iff_of_true ha fun hrel => absurd hrel hcall
  | wake =>
    refine iff_of_true ?_ trivial
    simp only [State.step]
    split
    · split_ifs <;> exact ha
    · exact ha
  | setSession x | setFailed e | markIdle =>
    refine iff_of_true ?_ trivial
    simp only [State.step]
    split <;> exact ha

/-- A call that returns a session in this step returns the one that is set and not marked idle. -/
def Live (s : State S E) (e : Event S E) : Prop :=
  ∀ i x err, (s.step e).calls i = .returned (some x) err → s.calls i ≠ .returned (some x) err →
    s.loop = .up x

theorem session_eq_some {loop : Loop S E} {x : S} : loop.session = some x ↔ loop = .up x := by
  cases loop <;> simp [Loop.session]

theorem Sound.live (h : Sound s) (e : Event S E) : Live s e := by
  intro i x err hafter hbefore
  -- a step that returns `c` for the call `j`, and nothing else for the others
  have hcall : ∀ {j c}, (if i = j then c else s.calls i) = .returned (some x) err →
      i = j ∧ c = .returned (some x) err := by
    intro j c hif
    split_ifs at hif with hij
    · exact ⟨hij, hif⟩
    · exact absurd hif hbefore
  cases e with
  | get j =>
    simp only [State.step] at hafter
    split at hafter
    · rw [calls_setCall] at hafter
      obtain ⟨-, hret⟩ := hcall hafter
      rcases get_cases s.lt with ⟨y, hy, hget⟩ | ⟨-, hget⟩ <;> rw [hget] at hret
      · cases hret
        exact session_eq_some.1 (h.sess.symm.trans hy)
      · cases hret
    · exact absurd hafter hbefore
  | release j =>
    simp only [State.step] at hafter
    split at hafter
    · split_ifs at hafter
      · rw [calls_setCall] at hafter
        cases (hcall hafter).2
      · exact absurd hafter hbefore
    · exact absurd hafter hbefore
  | cancel j e =>
    simp only [State.step] at hafter
    split at hafter
    · rw [calls_setCall] at hafter
      cases (hcall hafter).2
    · exact absurd hafter hbefore
  | read j =>
    simp only [State.step] at hafter
    split at hafter
    · rw [calls_setCall] at hafter
      have hret := (hcall hafter).2
      injection hret with hsess herr
      exact session_eq_some.1 (h.sess.symm.trans hsess)
    · exact absurd hafter hbefore
  | wake =>
    simp only [State.step] at hafter
    split at hafter
    · split_ifs at hafter <;> exact absurd hafter hbefore
    · exact absurd hafter hbefore
  | setSession y | setFailed e | markIdle =>
    simp only [State.step] at hafter
    split at hafter <;> exact absurd hafter hbefore

/-- A call waits on an open channel only while the loop dials or is about to. -/
theorem Sound.woken (h : Sound s) {i ch : ℕ} (hi : s.calls i = .waiting ch)
    (hopen : s.closed ch = false) : s.loop = .dialing ∨ s.loop = .sleeping ∧ s.lt.wake = true := by
  have hwaking : s.lt.waking = true := (h.waking hi).resolve_left (by simp [hopen])
  have hunpublished : ¬ s.loop.Published := by
    intro hpub
    have hclosed := (h.closed ch).2 ((lt_or_eq_of_le (h.known hi)).imp_right fun heq => ⟨heq, hpub⟩)
    rw [hopen] at hclosed
    cases hclosed
  cases hloop : s.loop with
  | sleeping => exact Or.inr ⟨rfl, h.queued hwaking hloop⟩
  | dialing => exact Or.inl rfl
  | up x | failed e => exact absurd (by rw [hloop]; trivial) hunpublished

/-- **The hand-over.** In every interleaving all calls that return have a session or an error
exactly when no released waiter reads between a reset and the next result. Whatever the
interleaving, a session is returned only while it is set and not marked idle, and a call waits on an
open channel only while the loop dials or a wake is queued for it. -/
theorem handover_iff (es : List (Event S E)) :
    (Along State.step Prompt {} es ↔ Throughout State.step State.Answered {} es) ∧
    Along State.step Live {} es ∧
    ∀ i ch, (run State.step {} es).calls i = .waiting ch →
      (run State.step {} es).closed ch = false →
      (run State.step {} es).loop = .dialing ∨
        (run State.step {} es).loop = .sleeping ∧
          (run State.step {} es).lt.wake = true := by
  have hsound : ∀ es : List (Event S E), Sound (run State.step {} es) :=
    invariant_run (fun _ e h => h.step e) sound_start
  refine ⟨?_, ?_, fun i ch hi hopen => (hsound es).woken hi hopen⟩
  · exact along_iff_throughout (I := Sound) (fun _ e h => h.step e)
      (fun _ e h ha => answered_step h ha e) sound_start (fun _ => trivial) es
  · exact along_of_prefixes fun log e _ => (hsound log).live e

/-! ### A short session -/

namespace Sample

/-- A call waits; the loop sets session 7 and the waiter is released. -/
def handedOver : List (Event ℕ ℕ) := [.get 0, .wake, .setSession 7, .release 0]

end Sample

open Sample in
/-- The session ends before the waiter has the lock again: the call returns neither a session nor an
error. -/
theorem handover_fails :
    (run State.step {} (handedOver ++ [.markIdle, .read 0])).calls 0 = .returned none none ∧
      ¬ (run State.step {} (handedOver ++ [.markIdle, .read 0])).Answered := by
  have hcall : (run State.step {} (handedOver ++ [.markIdle, .read 0])).calls 0 =
      .returned none none := rfl
  refine ⟨hcall, fun h => ?_⟩
  have hzero := h 0
  rw [hcall] at hzero
  exact hzero.elim (absurd rfl) (absurd rfl)

open Sample in
/-- A waiter that is in time gets the session. -/
theorem handover_in_time :
    (run State.step {} (handedOver ++ [.read 0, .markIdle])).calls 0 =
        .returned (some 7) none ∧
      Throughout State.step State.Answered {} (handedOver ++ [.read 0, .markIdle]) := by
  refine ⟨rfl, (handover_iff (handedOver ++ [.read 0, .markIdle])).1.1 ?_⟩
  exact ⟨trivial, trivial, trivial, trivial, fun _ => trivial, trivial, trivial⟩

end BuddyNet.Buddy.Lazy
