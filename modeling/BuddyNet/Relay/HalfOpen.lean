import BuddyNet.Relay.Reachability

/-!
# How long a session may hold one leg

`pendingPairTimeout` bounds a session that waits for its first partner: the flag `paired` is not
set, so the session's age is how long it has held one leg (`unpaired_run`), and a pass of the
reaper removes it when that is too long. The flag is never cleared again, so a session that has
lost its partner is not bounded by it, only by the idle timer of its remaining leg.

* `loneSince`: since when a session has held exactly one leg;
* `half_open_bounded`: the bound after every pass, when such a session is quiet by then;
* `half_open_bounded_fails`: a run in which it is not.
-/

namespace BuddyNet.Relay

open Machine

/-- Since when the session has held exactly one leg. -/
def loneSince (cr : Crypto) (P : Params) (start : ℤ) (es : List Event) (tok : Bytes) : Option ℤ :=
  heldSince (step cr P) Event.time (fun s => halfOpen s.toTable tok) none
    (State.new start) es

variable {cr : Crypto} {P : Params} {t t' : Table} {tok : Bytes} {ses ses' : Session} {now : ℤ}

theorem halfOpen_iff : halfOpen t tok = true ↔
    ∃ ses, t.sessions.lookup tok = some ses ∧ ses.legs.length = 1 := by
  unfold halfOpen
  cases t.sessions.lookup tok <;> simp

theorem halfOpen_of_lookup (h : t.sessions.lookup tok = some ses) :
    halfOpen t tok = (ses.legs.length == 1) := by
  simp [halfOpen, h]

/-! ### Sessions that never had a partner -/

/-- A session that never had two legs has one. -/
def LoneUnpaired (t : Table) : Prop :=
  ∀ tok ses, t.sessions.lookup tok = some ses → ses.paired = false → ses.legs.length = 1

/-- A session without a partner was there before the event, or has been created by it. -/
theorem unpaired_origin (hlone : LoneUnpaired t) (hstep : TableStep P now t t')
    (hlook : t'.sessions.lookup tok = some ses') (hnew : ses'.paired = false) :
    ses'.legs.length = 1 ∧
      ((∃ ses, t.sessions.lookup tok = some ses ∧ ses.paired = false ∧
          ses.created = ses'.created) ∨
        t.sessions.lookup tok = none ∧ ses'.created = now) := by
  have stored : t.sessions.lookup tok = some ses' → ses'.legs.length = 1 ∧
      ((∃ ses, t.sessions.lookup tok = some ses ∧ ses.paired = false ∧
          ses.created = ses'.created) ∨
        t.sessions.lookup tok = none ∧ ses'.created = now) :=
    fun h => ⟨hlone tok ses' h hnew, Or.inl ⟨ses', h, hnew, rfl⟩⟩
  cases hstep with
  | same | touch f => exact stored hlook
  | bind hb =>
    cases hb with
    | refused | keepAlive l hl haddr => exact stored hlook
    | claimed ses hses hlegs hcap =>
      rcases Go.lookup_insert_cases hlook with hlook | ⟨rfl, rfl⟩
      · exact stored hlook
      · simp only [Bool.or_eq_false_iff, List.length_append, List.length_singleton,
          beq_eq_false_iff_ne, ne_eq] at hnew ⊢
        rcases hses with hses | ⟨hnone, -, rfl⟩
        · -- a second leg would have set the flag
          have := hlone tok ses hses hnew.1
          omega
        · exact ⟨rfl, Or.inr ⟨hnone, rfl⟩⟩
    | migrated ses held _ hses hfind =>
      rcases Go.lookup_insert_cases hlook with hlook | ⟨rfl, rfl⟩
      · exact stored hlook
      · refine ⟨?_, Or.inl ⟨ses, hses, hnew, rfl⟩⟩
        simpa using hlone tok ses hses hnew
  | reap order =>
    rw [lookup_reap] at hlook
    obtain ⟨ses, hses, hkept⟩ := Option.bind_eq_some_iff.1 hlook
    split_ifs at hkept with hnil
    obtain rfl := Option.some.inj hkept
    have hlen := (kept_sublist P t now ses).length_le
    have hpos := List.length_pos_iff.2 hnil
    rw [hlone tok ses hses hnew] at hlen
    exact ⟨show (kept P t now ses).length = 1 by omega, Or.inl ⟨ses, hses, hnew, rfl⟩⟩

/-- **The age of a session that never had two legs is how long it has held one.** -/
theorem unpaired_run (cr : Crypto) (P : Params) (start : ℤ) (es : List Event) :
    ∀ tok ses, (runFrom cr P start es).sessions.lookup tok = some ses → ses.paired = false →
      ses.legs.length = 1 ∧ loneSince cr P start es tok = some ses.created := by
  refine history_run
    (P := fun log (s : State) => ∀ tok ses, s.sessions.lookup tok = some ses → ses.paired = false →
      ses.legs.length = 1 ∧ loneSince cr P start log tok = some ses.created)
    ?_ ?_ es
  · intro tok ses hses
    cases hses
  intro log e ih tok ses' hlook hnew
  obtain ⟨hlen, horigin⟩ := unpaired_origin (fun tok ses h h' => (ih tok ses h h').1)
    (step_table _ e) hlook hnew
  refine ⟨hlen, ?_⟩
  rw [loneSince, heldSince_concat, if_pos (halfOpen_iff.2 ⟨ses', hlook, hlen⟩)]
  rcases horigin with ⟨ses, hses, hold, hcreated⟩ | ⟨hnone, hcreated⟩
  · obtain ⟨hlen', hsince⟩ := ih tok ses hses hold
    rw [if_pos (halfOpen_iff.2 ⟨ses, hses, hlen'⟩), ← hcreated]
    exact hsince
  · have hbefore : halfOpen (run (step cr P) (State.new start) log).toTable tok =
        false := by
      simp [halfOpen, hnone]
    rw [if_neg (by simp [hbefore]), hcreated]

/-! ### The bound -/

/-- At a pass of the reaper, a session that has lost its partner is quiet: its remaining leg has
sent nothing for longer than the lifetime. -/
def LeftAloneIsQuiet (P : Params) (s : State) : Event → Prop
  | .reap now _ => ∀ e ∈ s.sessions.entries, e.2.paired = true → e.2.legs.length = 1 →
      ∀ l ∈ e.2.legs, idle P s.toTable now l = true
  | _ => True

instance (P : Params) (s : State) : (e : Event) → Decidable (LeftAloneIsQuiet P s e)
  | .reap now _ => inferInstanceAs (Decidable (∀ e ∈ s.sessions.entries, e.2.paired = true →
      e.2.legs.length = 1 → ∀ l ∈ e.2.legs, idle P s.toTable now l = true))
  | .recv _ _ _ => isTrue trivial
  | .verify _ _ => isTrue trivial
  | .apply _ _ => isTrue trivial

/-- A session that survives a pass with one leg had two before it, or never had a partner. -/
theorem lone_after_reap {s : State} {order : List Bytes}
    (hquiet : LeftAloneIsQuiet P s (.reap now order))
    (hlook : (reap P s.toTable now order).sessions.lookup tok = some ses')
    (hlone : ses'.legs.length = 1) :
    halfOpen s.toTable tok = false ∨
      ses'.paired = false ∧ now - ses'.created ≤ P.pendingPair := by
  rw [lookup_reap] at hlook
  obtain ⟨ses, hses, hkept⟩ := Option.bind_eq_some_iff.1 hlook
  split_ifs at hkept with hnil
  obtain rfl := Option.some.inj hkept
  rw [halfOpen_of_lookup hses]
  have hexp : expired P now ses = false := by
    by_contra hexp
    exact hnil (by simp [kept, hexp])
  by_cases hpaired : ses.paired = true
  · refine Or.inl (beq_eq_false_iff_ne.2 fun hone => hnil ?_)
    have hidle := hquiet ⟨tok, ses⟩ (AList.mem_lookup_iff.1 hses) hpaired hone
    simpa [kept, hexp] using hidle
  · refine Or.inr ⟨by simpa using hpaired, ?_⟩
    simpa [expired, hpaired] using hexp

/-- **One-legged sessions are bounded absolutely** while every session that has lost its partner
is quiet at the next pass of the reaper: after a pass, no session has held exactly one leg for
longer than the half-open timeout. -/
theorem half_open_bounded (cr : Crypto) (cfg : Config) (key : Bytes) (start : ℤ)
    (es : List Event)
    (hquiet : Along (step cr (cfg.params key)) (LeftAloneIsQuiet (cfg.params key))
      (State.new start) es) :
    ∀ pre now order, pre ++ [.reap now order] <+: es → ∀ tok since,
      loneSince cr (cfg.params key) start (pre ++ [.reap now order]) tok = some since →
        now - since ≤ pendingPairTimeout := by
  intro pre now order hpre tok since hsince
  obtain ⟨-, hreap, -⟩ := along_append.1 (hquiet.of_prefix hpre)
  have hcopy := hsince
  rw [loneSince, heldSince_concat] at hsince
  split_ifs at hsince with hafter hbefore
  · -- it held one leg before the pass too, so it never had a partner
    obtain ⟨ses', hlook, hlone⟩ := halfOpen_iff.1 hafter
    rcases lone_after_reap hreap hlook hlone with h | ⟨hunpaired, hage⟩
    · rw [h] at hbefore
      cases hbefore
    · have hrun := unpaired_run cr (cfg.params key) start (pre ++ [.reap now order]) tok ses'
      rw [runFrom, run_concat] at hrun
      rw [(hrun hlook hunpaired).2] at hcopy
      obtain rfl := Option.some.inj hcopy
      exact hage
  · obtain rfl := Option.some.inj hsince
    simp [Event.time, pendingPairTimeout, second]

/-! ### A partner that comes and goes -/

namespace Abandoned

open Reconnect

/-- Two buddies pair; the partner falls silent and is reaped after four minutes; the other sends a
datagram now and then and is still there two minutes later. -/
def events : List Event :=
  [bindFrom 0 buddy newToken, bindFrom second partner newToken, .reap (120 * second) [],
    .recv (200 * second) buddy (lit "data"), .reap (240 * second) [],
    .recv (300 * second) buddy (lit "data"), .reap (360 * second) []]

/-- The other buddy falls silent too; the partner comes back in a session of its own and waits. -/
def silent : List Event :=
  [bindFrom 0 buddy newToken, bindFrom second partner newToken, .reap (120 * second) [],
    .recv (200 * second) buddy (lit "data"), .reap (240 * second) [],
    bindFrom (330 * second) partner oldToken, .reap (360 * second) []]

end Abandoned

open Reconnect in
/-- The session has held one leg for 120 s after the last pass. -/
theorem half_open_bounded_fails :
    loneSince crypto params 0 Abandoned.events newToken = some (240 * second) ∧
      ¬ 360 * second - 240 * second ≤ pendingPairTimeout := by
  decide +kernel

open Reconnect in
/-- The pass removes the session both have left, and the new one is within the bound. -/
theorem half_open_bounded_silent :
    loneSince crypto params 0 Abandoned.silent newToken = none ∧
      loneSince crypto params 0 Abandoned.silent oldToken = some (330 * second) ∧
      360 * second - 330 * second ≤ pendingPairTimeout := by
  have hsince : loneSince crypto params 0 Abandoned.silent oldToken = some (330 * second) := by
    decide +kernel
  have hquiet : Along (step crypto params) (LeftAloneIsQuiet params) (State.new 0)
      Abandoned.silent := by decide +kernel
  exact ⟨by decide +kernel, hsince, half_open_bounded crypto _ _ 0 _ hquiet
    (Abandoned.silent.take 6) _ [] (List.prefix_refl _) oldToken _ hsince⟩

end BuddyNet.Relay
