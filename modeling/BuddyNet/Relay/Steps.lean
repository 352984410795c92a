import BuddyNet.Relay.Server

/-!
# What one event of the relay can do

Every event leaves the relay's table as it is, stores a time in a forwarding record, does what a
bind can do, or is a pass of the reaper. `BindEffect` lists the outcomes of a bind, the same for
both modes, with what the code has established by then; `step_table` says that there is nothing
else, so an invariant of the table is checked once per outcome. `mem_jobs_step` is the same for
the verification goroutines.
-/

namespace BuddyNet.Relay

open List

/-- A leg of the session stored under the token. -/
def Table.Live (t : Table) (tok : Bytes) (l : Leg) : Prop :=
  ∃ ses, t.sessions.lookup tok = some ses ∧ l ∈ ses.legs

/-- The outcomes of a bind for leg `name` of session `tok` by the key `epk`, from `src`. Only a
ticketed bind can move a leg. -/
inductive BindEffect (P : Params) (ticketed : Bool) (t : Table) (now : ℤ) (tok : Bytes)
    (src : UDPAddr) (acct name epk : Bytes) : Table → Prop
  | refused : BindEffect P ticketed t now tok src acct name epk t
  | keepAlive (l : Leg) (hl : t.Live tok l) (haddr : l.addr.string = src.string) :
    BindEffect P ticketed t now tok src acct name epk { t with fwd := touch t.fwd l.fwd now }
  | claimed (ses : Session)
    (hses : t.sessions.lookup tok = some ses ∨
      t.sessions.lookup tok = none ∧ t.sessions.keys.length < P.maxSessions ∧
        ses = ⟨tok, [], false, now⟩)
    (hlegs : ses.legs.length < maxLegsPerSes) (hcap : t.legCount acct < P.maxLegsPerIP)
    (hfree : ticketed = true → ∀ l ∈ ses.legs, l.name ≠ name) :
    BindEffect P ticketed t now tok src acct name epk (claimLeg t now tok ses src acct name epk)
  | migrated (ses : Session) (held : Leg) (hmode : ticketed = true)
    (hses : t.sessions.lookup tok = some ses)
    (hfind : ses.legs.find? (·.name == name) = some held) (hepk : held.epk = epk)
    (haddr : held.addr.string ≠ src.string)
    (hcap : held.acctKey = acct ∨ t.legCount acct < P.maxLegsPerIP) :
    BindEffect P ticketed t now tok src acct name epk (migrateLeg t now tok ses held src acct)

variable {cr : Crypto} {P : Params}

/-! ### The session of a bind -/

/-- `enterSession` finds a session and leaves the table, or enters one without legs. -/
theorem enterSession_cases (t : Table) (now : ℤ) (tok : Bytes) :
    (∃ ses, t.sessions.lookup tok = some ses ∧ enterSession t now tok = (t, ses, false)) ∨
    (t.sessions.lookup tok = none ∧ enterSession t now tok =
      ({ t with sessions := t.sessions.insert tok ⟨tok, [], false, now⟩ },
        ⟨tok, [], false, now⟩, true)) := by
  unfold enterSession
  cases h : t.sessions.lookup tok with
  | some ses => exact Or.inl ⟨ses, rfl, rfl⟩
  | none => exact Or.inr ⟨rfl, rfl⟩

theorem enterSession_found {t : Table} {tok : Bytes} {ses : Session} (now : ℤ)
    (h : t.sessions.lookup tok = some ses) : enterSession t now tok = (t, ses, false) := by
  simp [enterSession, h]

/-- Taking the entered session out again restores the table. -/
theorem dropIfEmpty_entered {t : Table} {tok : Bytes} (ses : Session) (hlegs : ses.legs = [])
    (h : t.sessions.lookup tok = none) :
    dropIfEmpty { t with sessions := t.sessions.insert tok ses } tok ses true = t := by
  have herase : (t.sessions.insert tok ses).erase tok = t.sessions := by
    have hmem : tok ∉ t.sessions.keys := fun hk => by
      have := AList.lookup_isSome.2 (AList.mem_keys.2 hk)
      simp [h] at this
    apply AList.ext
    refine (kerase_cons_eq (s := (⟨tok, ses⟩ : Sigma fun _ : Bytes => Session)) rfl).trans ?_
    exact kerase_of_notMem_keys hmem
  simp [dropIfEmpty, hlegs, herase]

theorem claimLeg_entered (t : Table) (now : ℤ) (tok : Bytes) (ses ses' : Session) (src : UDPAddr)
    (acct name epk : Bytes) :
    claimLeg { t with sessions := t.sessions.insert tok ses' } now tok ses src acct name epk =
      claimLeg t now tok ses src acct name epk := by
  simp [claimLeg, Table.legCount, AList.insert_insert]

/-! ### The outcomes of a bind -/

/-- A bind is acknowledged, or refused with the table as it was. -/
def Answered (t t' : Table) (tok : Bytes) (src : UDPAddr) (out : List Output) : Prop :=
  out = [ack tok src] ∨ t' = t ∧ ∀ o ∈ out, ∃ reason leg, o = .rejected reason tok leg

theorem bindTicketed_spec (t : Table) (now : ℤ) (p : Ticket.Payload) (src : UDPAddr)
    (acct : Bytes) :
    BindEffect P true t now p.sid src acct p.leg p.epk (bindTicketed P t now p src acct).1 ∧
      Answered t (bindTicketed P t now p src acct).1 p.sid src
        (bindTicketed P t now p src acct).2 := by
  have refused : ∀ reason, BindEffect P true t now p.sid src acct p.leg p.epk t ∧
      Answered t t p.sid src [.rejected reason p.sid p.leg] := fun reason =>
    ⟨.refused, Or.inr ⟨rfl, fun o ho => ⟨reason, p.leg, mem_singleton.1 ho⟩⟩⟩
  unfold bindTicketed
  by_cases hcap : t.sessions.lookup p.sid = none ∧ P.maxSessions ≤ t.sessions.keys.length
  · rw [if_pos hcap]
    exact refused _
  rw [if_neg hcap]
  rcases enterSession_cases t now p.sid with ⟨ses, hlook, henter⟩ | ⟨hnone, henter⟩ <;>
    rw [henter] <;> dsimp only
  · split
    · next hfree =>
      split_ifs with hlegs hip
      · exact refused _
      · exact refused _
      · refine ⟨.claimed ses (Or.inl hlook) (not_le.1 hlegs) (not_le.1 hip) ?_, Or.inl rfl⟩
        intro _ l hl
        simpa using find?_eq_none.1 hfree l hl
    · next held hfind =>
      split_ifs with hepk haddr hip
      · exact refused _
      · exact ⟨.keepAlive held ⟨ses, hlook, mem_of_find?_eq_some hfind⟩ haddr, Or.inl rfl⟩
      · exact refused _
      · refine ⟨.migrated ses held rfl hlook hfind (not_not.1 hepk) haddr ?_, Or.inl rfl⟩
        by_cases hacct : held.acctKey = acct
        · exact Or.inl hacct
        · exact Or.inr (not_le.1 fun hle => hip ⟨hacct, hle⟩)
  · -- a session entered by the call has no legs: its leg is claimed, or it is taken out again
    split_ifs with hlegs hip
    · rw [dropIfEmpty_entered _ rfl hnone]
      exact refused _
    · rw [dropIfEmpty_entered _ rfl hnone]
      exact refused _
    · rw [claimLeg_entered]
      exact ⟨.claimed _ (Or.inr ⟨hnone, not_le.1 fun hle => hcap ⟨hnone, hle⟩, rfl⟩)
        (not_le.1 hlegs) (not_le.1 hip) (nofun), Or.inl rfl⟩

theorem bindTicketed_effect (t : Table) (now : ℤ) (p : Ticket.Payload) (src : UDPAddr)
    (acct : Bytes) :
    BindEffect P true t now p.sid src acct p.leg p.epk (bindTicketed P t now p src acct).1 :=
  (bindTicketed_spec t now p src acct).1

theorem bindNetworkMode_spec (t : Table) (now : ℤ) (tok : Bytes) (src : UDPAddr) (acct : Bytes) :
    BindEffect P false t now tok src acct [] [] (bindNetworkMode P t now tok src acct).1 ∧
      Answered t (bindNetworkMode P t now tok src acct).1 tok src
        (bindNetworkMode P t now tok src acct).2 := by
  have refused : BindEffect P false t now tok src acct [] [] t ∧ Answered t t tok src [] :=
    ⟨.refused, Or.inr ⟨rfl, nofun⟩⟩
  unfold bindNetworkMode
  by_cases hcap : t.sessions.lookup tok = none ∧ P.maxSessions ≤ t.sessions.keys.length
  · rw [if_pos hcap]
    exact refused
  rw [if_neg hcap]
  rcases enterSession_cases t now tok with ⟨ses, hlook, henter⟩ | ⟨hnone, henter⟩ <;>
    rw [henter] <;> dsimp only
  · split
    · split_ifs with hlegs hip
      · exact refused
      · exact refused
      · exact ⟨.claimed ses (Or.inl hlook) (not_le.1 hlegs) (not_le.1 hip) (nomatch ·), Or.inl rfl⟩
    · next l hfind =>
      exact ⟨.keepAlive l ⟨ses, hlook, mem_of_find?_eq_some hfind⟩
        (by simpa using find?_some hfind), Or.inl rfl⟩
  · rw [find?_nil]
    split_ifs with hlegs hip
    · rw [dropIfEmpty_entered _ rfl hnone]
      exact refused
    · rw [dropIfEmpty_entered _ rfl hnone]
      exact refused
    · rw [claimLeg_entered]
      exact ⟨.claimed _ (Or.inr ⟨hnone, not_le.1 fun hle => hcap ⟨hnone, hle⟩, rfl⟩)
        (not_le.1 hlegs) (not_le.1 hip) (nomatch ·), Or.inl rfl⟩

theorem bindNetworkMode_effect (t : Table) (now : ℤ) (tok : Bytes) (src : UDPAddr) (acct : Bytes) :
    BindEffect P false t now tok src acct [] [] (bindNetworkMode P t now tok src acct).1 :=
  (bindNetworkMode_spec t now tok src acct).1

/-! ### The read loop -/

theorem chargeBudget_frame (s : State) (sid : Bytes) (now : ℤ) :
    (chargeBudget s sid now).1.toTable = s.toTable ∧ (chargeBudget s sid now).1.jobs = s.jobs := by
  have hreserve : (chargeReserve s sid now).1.toTable = s.toTable ∧
      (chargeReserve s sid now).1.jobs = s.jobs := by
    unfold chargeReserve
    split_ifs <;> exact ⟨rfl, rfl⟩
  unfold chargeBudget
  dsimp only
  split_ifs <;> exact hreserve

theorem admitTicketBind_toTable (s : State) (now : ℤ) (b : Bind) (src : UDPAddr)
    (acct cookie : Bytes) : (admitTicketBind s now b src acct cookie).1.toTable = s.toTable := by
  unfold admitTicketBind
  dsimp only
  split_ifs
  · rfl
  all_goals exact (chargeBudget_frame s b.sessionToken now).1

variable {s : State} {j : Job} {src : UDPAddr}

theorem mem_jobs_admitTicketBind {now : ℤ} {b : Bind} {acct cookie : Bytes}
    (hj : j ∈ (admitTicketBind s now b src acct cookie).1.jobs) :
    j ∈ s.jobs ∨ j = .queued b src acct cookie := by
  unfold admitTicketBind at hj
  dsimp only at hj
  split_ifs at hj
  · exact Or.inl hj
  all_goals rw [(chargeBudget_frame s b.sessionToken now).2] at hj
  · exact Or.inl hj
  · exact Or.inl hj
  · simpa using hj

/-- The challenge an unproven source is answered with. -/
def challenge (cr : Crypto) (P : Params) (src : UDPAddr) (now : ℤ) : Bytes :=
  marshalChallenge (computeCookie cr P src (epochOf now))

/-- The outcomes of `bind`: refused before the mode matters, with at most a challenge as the
answer, or handed to the mode's own code by a source with a valid cookie. -/
theorem bind_cases (cr : Crypto) (P : Params) (s : State) (now : ℤ) (b : Bind) (src : UDPAddr)
    (n : ℕ) : ∃ rl, ((bind cr P s now b src n).1 = { s with bindRL := rl } ∧
        ∀ o ∈ (bind cr P s now b src n).2,
          o = .send src (challenge cr P src now) ∧ (challenge cr P src now).length < n) ∨
      ∃ cookie, validCookie cr P b.cookie src now = some cookie ∧
        bind cr P s now b src n =
          if P.ticketMode then
            admitTicketBind { s with bindRL := rl } now b src (fromIP src.ip) cookie
          else
            ({ s with
                bindRL := rl
                toTable :=
                  (bindNetworkMode P s.toTable now b.sessionToken src (fromIP src.ip)).1 },
              (bindNetworkMode P s.toTable now b.sessionToken src (fromIP src.ip)).2) := by
  unfold bind
  split
  · exact ⟨s.bindRL, Or.inl ⟨rfl, nofun⟩⟩
  · dsimp only
    refine ⟨(s.bindRL.allow (fromIP src.ip) now).1, ?_⟩
    split
    · exact Or.inl ⟨rfl, nofun⟩
    · cases hcookie : validCookie cr P b.cookie src now with
      | none =>
        refine Or.inl ⟨rfl, fun o ho => ?_⟩
        dsimp only at ho
        split_ifs at ho with hlen
        · exact ⟨mem_singleton.1 ho, hlen⟩
        · cases ho
      | some cookie => exact Or.inr ⟨cookie, rfl, rfl⟩

/-- In ticket mode the read loop never touches the table for a bind. -/
theorem bind_toTable_of_ticketMode (htm : P.ticketMode = true) (s : State) (now : ℤ) (b : Bind)
    (src : UDPAddr) (n : ℕ) : (bind cr P s now b src n).1.toTable = s.toTable := by
  obtain ⟨rl, ⟨h, -⟩ | ⟨cookie, -, h⟩⟩ := bind_cases cr P s now b src n
  · rw [h]
  · rw [h, if_pos htm, admitTicketBind_toTable]

theorem bind_effect (cr : Crypto) (P : Params) (s : State) (now : ℤ) (b : Bind) (src : UDPAddr)
    (n : ℕ) :
    BindEffect P false s.toTable now b.sessionToken src (fromIP src.ip) [] []
      (bind cr P s now b src n).1.toTable := by
  obtain ⟨rl, ⟨h, -⟩ | ⟨cookie, -, h⟩⟩ := bind_cases cr P s now b src n
  · rw [h]
    exact .refused
  · rw [h]
    split
    · rw [admitTicketBind_toTable]
      exact .refused
    · exact bindNetworkMode_effect s.toTable now b.sessionToken src (fromIP src.ip)

theorem mem_jobs_bind {now : ℤ} {b : Bind} {n : ℕ} (hj : j ∈ (bind cr P s now b src n).1.jobs) :
    j ∈ s.jobs ∨ ∃ cookie, validCookie cr P b.cookie src now = some cookie ∧
      j = .queued b src (fromIP src.ip) cookie := by
  obtain ⟨rl, ⟨h, -⟩ | ⟨cookie, hv, h⟩⟩ := bind_cases cr P s now b src n
  · rw [h] at hj
    exact Or.inl hj
  · rw [h] at hj
    split at hj
    · rcases mem_jobs_admitTicketBind hj with hj | hj
      · exact Or.inl hj
      · exact Or.inr ⟨cookie, hv, hj⟩
    · exact Or.inl hj

/-! ### Events -/

/-- The clock reading of an event. -/
def Event.time : Event → ℤ
  | .recv now _ _ => now
  | .verify now _ => now
  | .apply now _ => now
  | .reap now _ => now

/-- Everything an event at time `now` can do to the table. -/
inductive TableStep (P : Params) (now : ℤ) (t : Table) : Table → Prop
  | same : TableStep P now t t
  | touch (f : ℕ) : TableStep P now t { t with fwd := touch t.fwd f now }
  | bind {ticketed : Bool} {tok : Bytes} {src : UDPAddr} {acct name epk : Bytes}
    {t' : Table} (h : BindEffect P ticketed t now tok src acct name epk t')
    (hmode : P.ticketMode = true → ticketed = true) : TableStep P now t t'
  | reap (order : List Bytes) : TableStep P now t (reap P t now order)

/-- Inversion of a step on the table. -/
theorem step_table (s : State) (e : Event) :
    TableStep P e.time s.toTable (step cr P s e).toTable := by
  cases e with
  | recv now src pkt =>
    simp only [step, stepOut, Event.time]
    split
    · next b _ =>
      by_cases htm : P.ticketMode = true
      · rw [bind_toTable_of_ticketMode htm]
        exact .same
      · exact .bind (bind_effect cr P s now b src pkt.length) fun h => absurd h htm
    · unfold forward
      split
      · exact .same
      · exact .touch _
  | verify now i =>
    simp only [step, stepOut]
    split
    · split <;> exact .same
    · exact .same
  | apply now i =>
    simp only [step, stepOut, Event.time]
    split
    · next p src acct _ => exact .bind (bindTicketed_effect s.toTable now p src acct) fun _ => rfl
    · exact .same
  | reap now order => exact .reap order

/-- Inversion of a step on the goroutines: one is started by a bind with a valid cookie, and
becomes a verified one when its verification succeeds. -/
theorem mem_jobs_step {e : Event} (hj : j ∈ (step cr P s e).jobs) :
    j ∈ s.jobs ∨ (∃ now src pkt b cookie, e = .recv now src pkt ∧ parseBind pkt = some b ∧
      validCookie cr P b.cookie src now = some cookie ∧
      j = .queued b src (fromIP src.ip) cookie) ∨ (∃ now i b src acct cookie p, e = .verify now i ∧
      s.jobs[i]? = some (.queued b src acct cookie) ∧
      verifyTicketBind cr P now b cookie = .ok p ∧ j = .verified p src acct) := by
  cases e with
  | recv now src pkt =>
    simp only [step, stepOut] at hj
    split at hj
    · next b hb =>
      rcases mem_jobs_bind hj with hj | ⟨cookie, hcookie, hj⟩
      · exact Or.inl hj
      · exact Or.inr (Or.inl ⟨now, src, pkt, b, cookie, rfl, hb, hcookie, hj⟩)
    · exact Or.inl hj
  | verify now i =>
    simp only [step, stepOut] at hj
    split at hj
    · next b src acct cookie hjob =>
      split at hj
      · next p hp =>
        rcases mem_or_eq_of_mem_set hj with hj | hj
        · exact Or.inl hj
        · exact Or.inr (Or.inr ⟨now, i, b, src, acct, cookie, p, rfl, hjob, hp, hj⟩)
      · exact Or.inl (mem_of_mem_eraseIdx hj)
    · exact Or.inl hj
  | apply now i =>
    simp only [step, stepOut] at hj
    split at hj
    · exact Or.inl (mem_of_mem_eraseIdx hj)
    · exact Or.inl hj
  | reap now order => exact Or.inl hj

end BuddyNet.Relay
