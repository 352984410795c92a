import BuddyNet.Library.Tally
import BuddyNet.Relay.Isolation

/-!
# Accounting of legs and sessions

`legsPerIP` is a map of counters in the sense of `Tally`: it counts, for every accounting key, the
live legs charged to it (`Table.charged`, a sum over all sessions). Claiming a leg is a charge,
moving one a discharge of the old key and a charge of the new, and a pass of the reaper discharges
the keys of the legs it drops. `Accounted` adds the two caps, `Named` the names of a ticketed
session's legs; both hold in every reachable state.
-/

namespace BuddyNet.Relay

open List

/-- The accounting keys the legs of a session are charged to. -/
def Session.acctKeys (ses : Session) : List Bytes := ses.legs.map (·.acctKey)

/-- The number of live legs charged to an accounting key. -/
def Table.charged (t : Table) (k : Bytes) : ℕ :=
  Tally.total (fun ses => ses.acctKeys.count k) t.sessions

/-- The counters mirror the live legs, and both caps are kept. -/
structure Accounted (P : Params) (t : Table) : Prop where
  counts : Tally.Counts t.legsPerIP t.charged
  perSource : ∀ k, t.charged k ≤ P.maxLegsPerIP
  sessions : t.sessions.keys.length ≤ P.maxSessions

/-- The legs of a session have different names. -/
def Named (t : Table) : Prop :=
  ∀ tok ses, t.sessions.lookup tok = some ses → (ses.legs.map (·.name)).Nodup

variable {P : Params} {t t' : Table} {tok : Bytes} {ses ses' : Session} {held : Leg} {now : ℤ}
  {src : UDPAddr} {acct name epk : Bytes}

/-! ### The charge of a session -/

theorem charged_of_lookup (h : t.sessions.lookup tok = some ses) (k : Bytes) :
    t.charged k = ses.acctKeys.count k +
      Tally.total (fun ses => ses.acctKeys.count k) (t.sessions.erase tok) :=
  Tally.total_of_lookup _ h

/-- Storing a session exchanges its charge for the one of the session it replaces. -/
theorem charged_of_insert
    (hses : t.sessions.lookup tok = some ses ∨ t.sessions.lookup tok = none ∧ ses.legs = [])
    (h : t'.sessions = t.sessions.insert tok ses') (k : Bytes) :
    t'.charged k + ses.acctKeys.count k = t.charged k + ses'.acctKeys.count k := by
  have hnew : t'.charged k = ses'.acctKeys.count k +
      Tally.total (fun ses => ses.acctKeys.count k) (t.sessions.erase tok) := by
    rw [Table.charged, h, Tally.total_insert]
  rcases hses with hses | ⟨hnone, hnil⟩
  · rw [hnew, charged_of_lookup hses k]
    omega
  · have hold : t.charged k =
        Tally.total (fun ses => ses.acctKeys.count k) (t.sessions.erase tok) :=
      Tally.total_of_lookup_none _ hnone
    rw [hnew, hold]
    simp [Session.acctKeys, hnil]
    omega

theorem keys_length_insert_of_lookup (h : t.sessions.lookup tok = some ses) (ses' : Session) :
    (t.sessions.insert tok ses').keys.length = t.sessions.keys.length := by
  have hmem : tok ∈ t.sessions := AList.lookup_isSome.1 (by simp [h])
  rw [Go.keys_length_insert, Go.keys_length_erase_of_mem hmem]

/-! ### Claiming a leg -/

theorem charged_claimLeg
    (hses : t.sessions.lookup tok = some ses ∨ t.sessions.lookup tok = none ∧ ses.legs = [])
    (k : Bytes) :
    (claimLeg t now tok ses src acct name epk).charged k =
      t.charged k + if k = acct then 1 else 0 := by
  have h := charged_of_insert hses
    (show (claimLeg t now tok ses src acct name epk).sessions = _ from rfl) k
  simp only [Session.acctKeys, map_append, map_cons, map_nil, count_append,
    count_singleton, beq_iff_eq] at h
  simp only [eq_comm (a := k)]
  omega

theorem Accounted.claimLeg (h : Accounted P t) (hses : t.sessions.lookup tok = some ses ∨
      t.sessions.lookup tok = none ∧ t.sessions.keys.length < P.maxSessions ∧
        ses = ⟨tok, [], false, now⟩) (hcap : t.legCount acct < P.maxLegsPerIP) :
    Accounted P (claimLeg t now tok ses src acct name epk) where
  counts := h.counts.charge (charged_claimLeg (claimed_session hses))
  perSource := by
    intro k
    rw [charged_claimLeg (claimed_session hses)]
    have hk := h.perSource k
    split_ifs with hka
    · have hcount : t.legCount acct = t.charged acct := h.counts.getD acct
      subst hka
      omega
    · exact hk
  sessions := by
    rcases hses with hses | ⟨hnone, hlt, -⟩
    · exact (keys_length_insert_of_lookup hses _).trans_le h.sessions
    · refine (Go.keys_length_insert t.sessions tok _).trans_le (lt_of_le_of_lt ?_ hlt)
      exact Go.keys_length_erase_le _ _

theorem Named.claimLeg (h : Named t)
    (hses : t.sessions.lookup tok = some ses ∨ t.sessions.lookup tok = none ∧ ses.legs = [])
    (hfree : ∀ l ∈ ses.legs, l.name ≠ name) : Named (claimLeg t now tok ses src acct name epk) := by
  have hold : (ses.legs.map (·.name)).Nodup := by
    rcases hses with hses | ⟨-, hnil⟩
    · exact h _ _ hses
    · simp [hnil]
  intro tok' ses' hlook
  rcases Go.lookup_insert_cases hlook with hlook | ⟨-, rfl⟩
  · exact h _ _ hlook
  · simp only [map_append, map_cons, map_nil]
    refine nodup_append.2 ⟨hold, nodup_singleton _, ?_⟩
    intro a ha b hb heq
    obtain ⟨l, hl, rfl⟩ := mem_map.1 ha
    exact hfree l hl (heq.trans (mem_singleton.1 hb))

/-! ### Moving a leg -/

/-- The legs of a session after one of them has moved. -/
def movedLegs (legs : List Leg) (held : Leg) (src : UDPAddr) (acct : Bytes) : List Leg :=
  legs.map fun l => if l.fwd = held.fwd then held.movedTo src acct else l

variable {fwd : ℕ → Fwd} {legs : List Leg}

theorem count_movedLegs (h : Linked fwd legs)
    (hheld : held ∈ legs) (src : UDPAddr) (acct k : Bytes) :
    ((movedLegs legs held src acct).map (·.acctKey)).count k +
        (if k = held.acctKey then 1 else 0) =
      (legs.map (·.acctKey)).count k + if k = acct then 1 else 0 := by
  have hmoved : (held.movedTo src acct).acctKey = acct := rfl
  rcases h.cases with ⟨a, rfl, -⟩ | ⟨a, b, rfl, hne, -, -⟩
  · obtain rfl := mem_singleton.1 hheld
    simp [movedLegs, hmoved, count_singleton, eq_comm (a := k), Nat.add_comm]
  · rcases mem_pair.1 hheld with rfl | rfl
    · simp [movedLegs, hne.symm, hmoved, count_cons, eq_comm (a := k)]
      omega
    · simp [movedLegs, hne, hmoved, count_cons, eq_comm (a := k)]
      omega

theorem names_movedLegs (h : Linked fwd legs) (hheld : held ∈ legs) (src : UDPAddr) (acct : Bytes) :
    (movedLegs legs held src acct).map (·.name) = legs.map (·.name) := by
  have hmoved : (held.movedTo src acct).name = held.name := rfl
  rcases h.cases with ⟨a, rfl, -⟩ | ⟨a, b, rfl, hne, -, -⟩
  · obtain rfl := mem_singleton.1 hheld
    simp [movedLegs, hmoved]
  · rcases mem_pair.1 hheld with rfl | rfl
    · simp [movedLegs, hne.symm, hmoved]
    · simp [movedLegs, hne, hmoved]

theorem charged_migrateLeg (hw : WellFormed t) (hses : t.sessions.lookup tok = some ses)
    (hheld : held ∈ ses.legs) (now : ℤ) (src : UDPAddr) (acct k : Bytes) :
    (migrateLeg t now tok ses held src acct).charged k + (if k = held.acctKey then 1 else 0) =
      t.charged k + if k = acct then 1 else 0 := by
  have h := charged_of_insert (Or.inl hses)
    (show (migrateLeg t now tok ses held src acct).sessions = _ from rfl) k
  have hcount := count_movedLegs (hw.linked hses) hheld src acct k
  simp only [movedLegs, Leg.movedTo] at hcount
  simp only [Session.acctKeys] at h
  omega

theorem Accounted.migrateLeg (h : Accounted P t) (hw : WellFormed t)
    (hses : t.sessions.lookup tok = some ses) (hheld : held ∈ ses.legs)
    (hcap : held.acctKey = acct ∨ t.legCount acct < P.maxLegsPerIP) :
    Accounted P (migrateLeg t now tok ses held src acct) := by
  have hmove := charged_migrateLeg hw hses hheld now src acct
  refine ⟨?_, fun k => ?_, (keys_length_insert_of_lookup hses _).trans_le h.sessions⟩
  · by_cases hacct : held.acctKey = acct
    · have heq : (Relay.migrateLeg t now tok ses held src acct).charged = t.charged := by
        funext k
        have := hmove k
        rw [hacct] at this
        omega
      rw [heq]
      simp only [Relay.migrateLeg, if_pos hacct]
      exact h.counts
    · simp only [Relay.migrateLeg, if_neg hacct]
      have hpos : ∀ k, (if k = held.acctKey then 1 else 0) ≤ t.charged k := by
        intro k
        split_ifs with hk
        · have := hmove k
          rw [if_pos hk, if_neg (by rw [hk]; exact hacct)] at this
          omega
        · exact Nat.zero_le _
      -- what is left of the charges between the release and the new charge
      refine (h.counts.discharge
        (r := fun k => t.charged k - if k = held.acctKey then 1 else 0) fun k => ?_).charge
        fun k => ?_
      · have := hpos k
        omega
      · have := hpos k
        have hk := hmove k
        simp only [Relay.migrateLeg, if_neg hacct] at hk
        omega
  · have hk := hmove k
    have hold := h.perSource k
    by_cases hka : k = acct
    · subst hka
      rw [if_pos rfl] at hk
      rcases hcap with hcap | hcap
      · rw [if_pos hcap.symm] at hk
        omega
      · have hcount : t.legCount k = t.charged k := h.counts.getD k
        omega
    · rw [if_neg hka] at hk
      omega

theorem Named.migrateLeg (h : Named t) (hw : WellFormed t)
    (hses : t.sessions.lookup tok = some ses) (hheld : held ∈ ses.legs) :
    Named (migrateLeg t now tok ses held src acct) := by
  intro tok' ses' hlook
  rcases Go.lookup_insert_cases hlook with hlook | ⟨-, rfl⟩
  · exact h _ _ hlook
  · have hnames := names_movedLegs (hw.linked hses) hheld src acct
    simp only [movedLegs, Leg.movedTo] at hnames
    rw [hnames]
    exact h _ _ hses

/-! ### The reaper -/

theorem foldl_dropLeg_legsPerIP (ls : List Leg) (t : Table) :
    (ls.foldl dropLeg t).legsPerIP = (ls.map (·.acctKey)).foldl Tally.discharge t.legsPerIP := by
  induction ls generalizing t with
  | nil => rfl
  | cons l ls ih => exact ih (dropLeg t l)

/-- Every leg of a session is kept or reaped. -/
theorem count_kept_add_reaped (P : Params) (t : Table) (now : ℤ) (ses : Session) (k : Bytes) :
    ((kept P t now ses).map (·.acctKey)).count k + ((reaped P t now ses).map (·.acctKey)).count k =
      ses.acctKeys.count k := by
  unfold kept reaped
  split_ifs
  · simp [Session.acctKeys]
  · rw [Nat.add_comm, ← count_append, ← map_append]
    exact ((filter_append_perm (idle P t now) ses.legs).map _).count_eq k

theorem charged_reapSession (P : Params) (now : ℤ) (h : t.sessions.lookup tok = some ses)
    (k : Bytes) :
    t.charged k = (reapSession P now t tok).charged k +
      ((reaped P t now ses).map (·.acctKey)).count k := by
  obtain ⟨hs, -, -⟩ := foldl_dropLeg_frame (reaped P t now ses) t
  have hpart := count_kept_add_reaped P t now ses k
  rw [charged_of_lookup h k]
  have hafter : (reapSession P now t tok).charged k =
      ((kept P t now ses).map (·.acctKey)).count k +
        Tally.total (fun ses => ses.acctKeys.count k) (t.sessions.erase tok) := by
    simp only [Table.charged, reapSession, h, hs]
    split_ifs with hnil
    · simp [hnil]
    · rw [Tally.total_insert]
      rfl
  omega

theorem Accounted.reapSession (h : Accounted P t) (now : ℤ) (tok : Bytes) :
    Accounted P (reapSession P now t tok) := by
  cases hlook : t.sessions.lookup tok with
  | none => rwa [reapSession_of_none hlook]
  | some ses =>
    have hcharged := charged_reapSession P now hlook
    refine ⟨?_, fun k => ?_, ?_⟩
    · have hcounters : (Relay.reapSession P now t tok).legsPerIP =
          ((reaped P t now ses).map (·.acctKey)).foldl Tally.discharge t.legsPerIP := by
        rw [← foldl_dropLeg_legsPerIP]
        simp only [Relay.reapSession, hlook]
      rw [hcounters]
      exact h.counts.foldl_discharge _ hcharged
    · have := h.perSource k
      have := hcharged k
      omega
    · obtain ⟨hs, -, -⟩ := foldl_dropLeg_frame (reaped P t now ses) t
      simp only [Relay.reapSession, hlook, hs]
      split_ifs
      · exact (Go.keys_length_erase_le _ _).trans h.sessions
      · exact (keys_length_insert_of_lookup hlook _).trans_le h.sessions

theorem Named.reapSession (h : Named t) (now : ℤ) (tok : Bytes) :
    Named (reapSession P now t tok) := by
  intro tok' ses' hlook
  cases hs : t.sessions.lookup tok with
  | none =>
    rw [reapSession_of_none hs] at hlook
    exact h _ _ hlook
  | some ses =>
    rw [reapSession_lookup hs] at hlook
    split_ifs at hlook
    · cases hlook
      exact ((kept_sublist P t now ses).map _).nodup (h _ _ hs)
    · exact h _ _ hlook

/-! ### Runs -/

/-- One step keeps the accounts, the names of a ticketed session, and the shape they rest on. -/
theorem accounted_step (hw : WellFormed t) (h : Accounted P t)
    (hn : P.ticketMode = true → Named t) (hstep : TableStep P now t t') :
    Accounted P t' ∧ (P.ticketMode = true → Named t') := by
  cases hstep with
  | same => exact ⟨h, hn⟩
  | touch f => exact ⟨⟨h.counts, h.perSource, h.sessions⟩, hn⟩
  | bind hb hmode =>
    cases hb with
    | refused => exact ⟨h, hn⟩
    | keepAlive l hl haddr => exact ⟨⟨h.counts, h.perSource, h.sessions⟩, hn⟩
    | claimed ses hses hlegs hcap hfree =>
      exact ⟨h.claimLeg hses hcap, fun htm =>
        (hn htm).claimLeg (claimed_session hses) (hfree (hmode htm))⟩
    | migrated ses held _ hses hfind hepk haddr hcap =>
      have hheld := mem_of_find?_eq_some hfind
      exact ⟨h.migrateLeg hw hses hheld hcap, fun htm => (hn htm).migrateLeg hw hses hheld⟩
  | reap order =>
    unfold Relay.reap
    induction Go.visitOrder order t.sessions.keys generalizing t with
    | nil => exact ⟨h, hn⟩
    | cons tok toks ih =>
      exact ih (hw.reapSession tok) (h.reapSession now tok) fun htm =>
        (hn htm).reapSession now tok

theorem accounted_run (cr : Crypto) (P : Params) (start : ℤ) (es : List Event) :
    WellFormed (runFrom cr P start es).toTable ∧ Accounted P (runFrom cr P start es).toTable ∧
      (P.ticketMode = true → Named (runFrom cr P start es).toTable) :=
  Machine.invariant_run
    (P := fun s : State => WellFormed s.toTable ∧ Accounted P s.toTable ∧
      (P.ticketMode = true → Named s.toTable))
    (fun s e h => ⟨h.1.step (step_table s e), accounted_step h.1 h.2.1 h.2.2 (step_table s e)⟩)
    ⟨wellFormed_new start, ⟨fun _ => rfl, fun _ => Nat.zero_le _, Nat.zero_le _⟩,
      nofun⟩ es

/-! ### Refused binds -/

/-- The event handles a bind: in the read loop, or in its goroutine. -/
def Event.handlesBind : Event → Bool
  | .recv _ _ pkt => (parseBind pkt).isSome
  | .verify _ _ => true
  | .apply _ _ => true
  | .reap _ _ => false

/-- The event handles a bind and acknowledges none. -/
def Refused (cr : Crypto) (P : Params) (s : State) (e : Event) : Prop :=
  e.handlesBind = true ∧ ∀ tok src, ack tok src ∉ (stepOut cr P s e).2

theorem Answered.of_no_ack {out : List Output} (h : Answered t t' tok src out)
    (hno : ∀ tok src, ack tok src ∉ out) : t' = t := by
  rcases h with rfl | ⟨h, -⟩
  · exact absurd (mem_singleton.2 rfl) (hno tok src)
  · exact h

/-- No event that handles a bind and acknowledges none changes the table. -/
theorem table_of_refused {cr : Crypto} {s : State} {e : Event} (h : Refused cr P s e) :
    (step cr P s e).toTable = s.toTable := by
  obtain ⟨hbind, hno⟩ := h
  cases e with
  | recv now src pkt =>
    obtain ⟨b, hb⟩ := Option.isSome_iff_exists.1 hbind
    simp only [step, stepOut, hb] at hno ⊢
    obtain ⟨rl, ⟨hout, -⟩ | ⟨cookie, -, hout⟩⟩ := bind_cases cr P s now b src pkt.length
    · rw [hout]
    · rw [hout] at hno ⊢
      by_cases htm : P.ticketMode = true
      · rw [if_pos htm, admitTicketBind_toTable]
      · rw [if_neg htm] at hno ⊢
        exact (bindNetworkMode_spec s.toTable now b.sessionToken src _).2.of_no_ack hno
  | verify now i =>
    simp only [step, stepOut]
    split
    · split <;> rfl
    · rfl
  | apply now i =>
    simp only [step, stepOut] at hno ⊢
    split at hno
    · next p src acct hjob =>
      exact (bindTicketed_spec s.toTable now p src acct).2.of_no_ack hno
    · rfl
  | reap now order => cases hbind

/-- **Relay accounting is exact.** In every reachable state, in both modes: the counter of every
accounting key is the number of live legs charged to it, no counter is zero, and none exceeds the
cap per source; there are at most `maxSessions` sessions; each has one or two legs, in ticket mode
with different names. A bind that is not acknowledged leaves the table as it was. -/
theorem relay_accounting (cr : Crypto) (P : Params) (start : ℤ) (es : List Event) :
    (∀ k, (runFrom cr P start es).legCount k = (runFrom cr P start es).charged k ∧
      (runFrom cr P start es).legsPerIP.lookup k ≠ some 0 ∧
      (runFrom cr P start es).legCount k ≤ P.maxLegsPerIP) ∧
    (runFrom cr P start es).sessions.keys.length ≤ P.maxSessions ∧
    (∀ tok ses, (runFrom cr P start es).sessions.lookup tok = some ses →
      (ses.legs.length = 1 ∨ ses.legs.length = 2) ∧
      (P.ticketMode = true → ∀ a b, ses.legs = [a, b] → a.name ≠ b.name)) ∧
    ∀ e, Refused cr P (runFrom cr P start es) e →
      (step cr P (runFrom cr P start es) e).toTable = (runFrom cr P start es).toTable := by
  obtain ⟨hw, hacc, hnamed⟩ := accounted_run cr P start es
  refine ⟨fun k => ?_, hacc.sessions, fun tok ses hses => ⟨?_, ?_⟩, fun e => table_of_refused⟩
  · have hcount : (runFrom cr P start es).legCount k = (runFrom cr P start es).charged k :=
      hacc.counts.getD k
    exact ⟨hcount, hacc.counts.ne_zero k, hcount ▸ hacc.perSource k⟩
  · rcases (hw.linked hses).cases with ⟨a, h, -⟩ | ⟨a, b, h, -⟩
    · exact Or.inl (by simp [h])
    · exact Or.inr (by simp [h])
  · intro htm a b hlegs
    have := hnamed htm tok ses hses
    simpa [hlegs] using this

end BuddyNet.Relay
