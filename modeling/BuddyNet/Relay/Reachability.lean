import BuddyNet.Relay.Isolation

/-!
# Reachability of live legs

The converse of isolation: wherever a live leg is, the address table should hold a live leg of that
address. A reaper pass and a migration clear the entry of an address without looking whether
another leg is still there, so the property does not survive every step. It survives exactly those
that leave nobody behind at a cleared address (`Considerate`).

A leg can send only while the entry of its address is its own. A bind and a migration overwrite the
entry, and a keep-alive does not store it again, so every leg keeps its entry exactly when no leg is
claimed at, or moved to, the address of another (`Solitary`). `relay_reachability` states both for
whole runs; `relay_reachability_fails` has a run that violates each.
-/

namespace BuddyNet.Relay

open Machine List

/-- Wherever a live leg is, the table holds the record of a live leg of that address. -/
def TableComplete (t : Table) : Prop :=
  ∀ tok l, t.Live tok l → ∃ tok' l', t.Live tok' l' ∧ l'.addr.string = l.addr.string ∧
    t.byAddr.lookup l.addr.string = some l'.fwd

/-- A verified bind that moves the leg `held`. -/
structure Moves (P : Params) (t : Table) (p : Ticket.Payload) (src : UDPAddr) (acct : Bytes)
    (ses : Session) (held : Leg) : Prop where
  session : t.sessions.lookup p.sid = some ses
  found : ses.legs.find? (·.name == p.leg) = some held
  owner : held.epk = p.epk
  elsewhere : held.addr.string ≠ src.string
  budget : held.acctKey = acct ∨ t.legCount acct < P.maxLegsPerIP

/-- The event leaves no live leg behind at an address whose entry it clears. -/
def Considerate (P : Params) (s : State) : Event → Prop
  | .reap now _ => ∀ tok l tok' l', Reaped P s.toTable now tok l → s.Live tok' l' →
      l'.addr.string = l.addr.string → Reaped P s.toTable now tok' l'
  | .apply _ i => ∀ p src acct ses held, s.jobs[i]? = some (.verified p src acct) →
      Moves P s.toTable p src acct ses held →
      ∀ tok l, s.Live tok l → l.addr.string = held.addr.string → l.fwd = held.fwd
  | _ => True

/-- The table holds every live leg's own record under its address. -/
def TableOwned (t : Table) : Prop :=
  ∀ tok l, t.Live tok l → t.byAddr.lookup l.addr.string = some l.fwd

/-- A leg that is claimed or moved between the tables comes to an address at which no leg was
live. -/
def ArriveAlone (t t' : Table) : Prop :=
  ∀ tok l, t'.Live tok l → ¬ t.Live tok l → ∀ tok' l', t.Live tok' l' →
    l'.addr.string ≠ l.addr.string

/-- The event claims no leg at, and moves none to, an address at which a leg is live. -/
def Solitary (cr : Crypto) (P : Params) (s : State) (e : Event) : Prop :=
  ArriveAlone s.toTable (step cr P s e).toTable

variable {cr : Crypto} {P : Params} {t : Table} {now : ℤ}

theorem WellFormed.tableComplete_iff (h : WellFormed t) : TableComplete t ↔ t.dir.Complete := by
  constructor
  · rintro hc r k ⟨tok, l, hl, heq⟩
    obtain ⟨-, rfl⟩ := Prod.mk.inj heq
    obtain ⟨tok', l', -, -, hlook⟩ := hc tok l hl
    exact ⟨l'.fwd, hlook⟩
  · intro hc tok l hl
    obtain ⟨f, hf⟩ := hc l.fwd l.addr.string ⟨tok, l, hl, rfl⟩
    obtain ⟨tok', l', hl', heq⟩ := h.sound _ _ hf
    obtain ⟨rfl, hk⟩ := Prod.mk.inj heq
    exact ⟨tok', l', hl', hk.symm, hf⟩

variable {p : Ticket.Payload} {src : UDPAddr} {acct : Bytes} {ses : Session} {held : Leg}

theorem Moves.held_mem (h : Moves P t p src acct ses held) : held ∈ ses.legs :=
  mem_of_find?_eq_some h.found

theorem Moves.bindTicketed_eq (h : Moves P t p src acct ses held) :
    (bindTicketed P t now p src acct).1 = migrateLeg t now p.sid ses held src acct := by
  have hcap : ¬ (held.acctKey ≠ acct ∧ P.maxLegsPerIP ≤ t.legCount acct) := by
    rintro ⟨hne, hle⟩
    rcases h.budget with hb | hb
    · exact hne hb
    · omega
  simp [bindTicketed, enterSession_found now h.session, h.session, h.found, h.owner, h.elsewhere,
    if_neg hcap]

/-! ### One step -/

theorem complete_reap_iff (h : WellFormed t) (hc : t.dir.Complete) {order : List Bytes} :
    (reap P t now order).dir.Complete ↔
      ∀ tok l tok' l', Reaped P t now tok l → t.Live tok' l' →
        l'.addr.string = l.addr.string → Reaped P t now tok' l' := by
  rw [dir_reap h.distinct, Directory.complete_dropAll_iff hc]
  constructor
  · intro hcl tok l tok' l' hr hl' hk
    obtain ⟨tok'', l'', hr'', heq⟩ :=
      hcl l.fwd l'.fwd l.addr.string ⟨tok, l, hr, rfl⟩ ⟨tok', l', hl', by rw [hk]⟩
    obtain ⟨rfl, rfl⟩ := h.distinct hl' (live_of_reaped hr'') (Prod.mk.inj heq).1
    exact hr''
  · rintro hcl f f' k ⟨tok, l, hr, heq⟩ ⟨tok', l', hl', heq'⟩
    obtain ⟨rfl, rfl⟩ := Prod.mk.inj heq
    obtain ⟨rfl, hk⟩ := Prod.mk.inj heq'
    exact ⟨tok', l', hcl tok l tok' l' hr hl' hk.symm, by rw [hk]⟩

variable {tok : Bytes}

theorem complete_migrateLeg_iff (h : WellFormed t) (hc : t.dir.Complete)
    (hses : t.sessions.lookup tok = some ses) (hheld : held ∈ ses.legs)
    (haddr : held.addr.string ≠ src.string) :
    (migrateLeg t now tok ses held src acct).dir.Complete ↔
      ∀ tok' l, t.Live tok' l → l.addr.string = held.addr.string → l.fwd = held.fwd := by
  rw [dir_migrateLeg h.distinct hses hheld, Directory.complete_move_iff hc haddr]
  constructor
  · intro hcl tok' l hl hk
    exact hcl l.fwd ⟨tok', l, hl, by rw [hk]⟩
  · rintro hcl f ⟨tok', l, hl, heq⟩
    obtain ⟨rfl, hk⟩ := Prod.mk.inj heq
    exact hcl tok' l hl hk.symm

/-- Every bind outcome but a move keeps the table complete. -/
theorem complete_of_effect {ticketed : Bool} {name epk : Bytes} {t' : Table}
    (h : BindEffect P ticketed t now tok src acct name epk t') (hc : t.dir.Complete) :
    t'.dir.Complete ∨ (ticketed = true ∧ ∃ ses held, t.sessions.lookup tok = some ses ∧
      ses.legs.find? (·.name == name) = some held ∧ held.epk = epk ∧
      held.addr.string ≠ src.string ∧
      (held.acctKey = acct ∨ t.legCount acct < P.maxLegsPerIP)) := by
  cases h with
  | refused => exact Or.inl hc
  | keepAlive l hl haddr => exact Or.inl hc
  | claimed ses hses hlegs hcap =>
    rw [dir_claimLeg (claimed_session hses)]
    exact Or.inl hc.bind
  | migrated ses held hmode hses hfind hepk haddr hcap =>
    exact Or.inr ⟨hmode, ses, held, hses, hfind, hepk, haddr, hcap⟩

theorem complete_bind {s : State} (hc : s.toTable.dir.Complete) {b : Bind}
    {n : ℕ} : (bind cr P s now b src n).1.toTable.dir.Complete := by
  rcases complete_of_effect (bind_effect cr P s now b src n) hc with h | ⟨h, -⟩
  · exact h
  · cases h

theorem complete_bindTicketed_iff (h : WellFormed t) (hc : t.dir.Complete) :
    (bindTicketed P t now p src acct).1.dir.Complete ↔
      ∀ ses held, Moves P t p src acct ses held →
        ∀ tok l, t.Live tok l → l.addr.string = held.addr.string → l.fwd = held.fwd := by
  by_cases hmove : ∃ ses held, Moves P t p src acct ses held
  · obtain ⟨ses, held, hm⟩ := hmove
    rw [hm.bindTicketed_eq, complete_migrateLeg_iff h hc hm.session hm.held_mem hm.elsewhere]
    constructor
    · intro hcl ses' held' hm'
      -- the bind determines the leg it moves
      have hs : ses = ses' := Option.some.inj (hm.session.symm.trans hm'.session)
      subst hs
      have hh : held = held' := Option.some.inj (hm.found.symm.trans hm'.found)
      subst hh
      exact hcl
    · intro hcl
      exact hcl ses held hm
  · rcases complete_of_effect (bindTicketed_effect t now p src acct) hc with
      hdone | ⟨-, ses, held, hses, hfind, hepk, haddr, hcap⟩
    · exact ⟨fun _ ses held hm => absurd ⟨ses, held, hm⟩ hmove, fun _ => hdone⟩
    · exact absurd ⟨ses, held, hses, hfind, hepk, haddr, hcap⟩ hmove

/-- **One step from a complete table leads to a complete table exactly when it is considerate.** -/
theorem complete_step_iff {s : State} (h : WellFormed s.toTable) (hc : s.toTable.dir.Complete)
    (e : Event) : (step cr P s e).toTable.dir.Complete ↔ Considerate P s e := by
  cases e with
  | recv now src pkt =>
    simp only [Considerate, iff_true, step, stepOut]
    split
    · exact complete_bind hc
    · unfold forward
      split <;> exact hc
  | verify now i =>
    simp only [Considerate, iff_true, step, stepOut]
    split
    · split <;> exact hc
    · exact hc
  | apply now i =>
    simp only [Considerate, step, stepOut]
    split
    · next p src acct hjob =>
      rw [complete_bindTicketed_iff h hc]
      constructor
      · intro hcl p' src' acct' ses held hjob'
        obtain ⟨rfl, rfl, rfl⟩ := Job.verified.inj (Option.some.inj (hjob.symm.trans hjob'))
        exact hcl ses held
      · intro hcl ses held
        exact hcl p src acct ses held hjob
    · next hjob =>
      exact ⟨fun _ p src acct ses held hjob' => absurd hjob' (hjob p src acct), fun _ => hc⟩
  | reap now order => exact complete_reap_iff h hc

/-! ### Entries of one's own -/

theorem tableOwned_iff : TableOwned t ↔ t.dir.Owned := by
  constructor
  · rintro h r k ⟨tok, l, hl, heq⟩
    obtain ⟨rfl, rfl⟩ := Prod.mk.inj heq
    exact h tok l hl
  · exact fun h tok l hl => h l.fwd l.addr.string ⟨tok, l, hl, rfl⟩

theorem arriveAlone_of_subset {t' : Table} (h : ∀ tok l, t'.Live tok l → t.Live tok l) :
    ArriveAlone t t' := fun tok l hl hnew => absurd (h tok l hl) hnew

section

variable (h : WellFormed t)
include h

theorem owned_claimLeg_iff (ho : t.dir.Owned) {name epk : Bytes}
    (hses : t.sessions.lookup tok = some ses ∨ t.sessions.lookup tok = none ∧ ses.legs = []) :
    (claimLeg t now tok ses src acct name epk).dir.Owned ↔
      ArriveAlone t (claimLeg t now tok ses src acct name epk) := by
  rw [dir_claimLeg hses, Directory.owned_bind_iff ho]
  constructor
  · intro halone tok' l hl hnew tok'' l' hl' hk
    rcases (live_claimLeg hses).1 hl with hold | ⟨-, rfl⟩
    · exact hnew hold
    · have hfwd := halone l'.fwd ⟨tok'', l', hl', by rw [hk]; rfl⟩
      exact absurd (h.fresh hl') (hfwd ▸ lt_irrefl _)
  · rintro halone f ⟨tok', l', hl', heq⟩
    obtain ⟨rfl, hk⟩ := Prod.mk.inj heq
    have hnew : ¬ t.Live tok (newLeg t src acct name epk) := fun hl => lt_irrefl _ (h.fresh hl)
    exact absurd hk.symm
      (halone tok _ ((live_claimLeg hses).2 (Or.inr ⟨rfl, rfl⟩)) hnew tok' l' hl')

theorem owned_migrateLeg_iff (ho : t.dir.Owned) (hses : t.sessions.lookup tok = some ses)
    (hheld : held ∈ ses.legs) (haddr : held.addr.string ≠ src.string) :
    (migrateLeg t now tok ses held src acct).dir.Owned ↔
      ArriveAlone t (migrateLeg t now tok ses held src acct) := by
  have hlive : t.Live tok held := ⟨ses, hses, hheld⟩
  -- the leg is at its old address and nowhere else
  have hother : ∀ {tok' l'}, t.Live tok' l' → l'.addr.string = src.string → l'.fwd ≠ held.fwd := by
    intro tok' l' hl' hk hfwd
    obtain ⟨-, rfl⟩ := h.distinct hl' hlive hfwd
    exact haddr hk
  rw [dir_migrateLeg h.distinct hses hheld,
    Directory.owned_move_iff ho ⟨tok, held, hlive, rfl⟩ haddr]
  constructor
  · intro halone tok' l hl hnew tok'' l' hl' hk
    rcases (live_migrateLeg hses hheld).1 hl with ⟨-, rfl⟩ | ⟨hold, -⟩
    · exact hother hl' hk (halone l'.fwd ⟨tok'', l', hl', by rw [hk]; rfl⟩)
    · exact hnew hold
  · rintro halone f ⟨tok', l', hl', heq⟩
    obtain ⟨rfl, hk⟩ := Prod.mk.inj heq
    have hnew : ¬ t.Live tok (held.movedTo src acct) := fun hl => hother hl rfl rfl
    exact absurd hk.symm
      (halone tok _ ((live_migrateLeg hses hheld).2 (Or.inl ⟨rfl, rfl⟩)) hnew tok' l' hl')

/-- **From a table in which every leg has its entry, a step leads to such a table exactly when what
it claims or moves comes to a free address.** -/
theorem owned_step_iff (ho : t.dir.Owned) {t' : Table} (hstep : TableStep P now t t') :
    t'.dir.Owned ↔ ArriveAlone t t' := by
  cases hstep with
  | same | touch => exact iff_of_true ho (arriveAlone_of_subset fun _ _ hl => hl)
  | bind heff =>
    cases heff with
    | refused | keepAlive => exact iff_of_true ho (arriveAlone_of_subset fun _ _ hl => hl)
    | claimed ses hses => exact owned_claimLeg_iff h ho (claimed_session hses)
    | migrated ses held hmode hses hfind hepk haddr =>
      exact owned_migrateLeg_iff h ho hses (mem_of_find?_eq_some hfind) haddr
  | reap order =>
    refine iff_of_true ?_ (arriveAlone_of_subset fun _ _ hl => (live_reap.1 hl).1)
    rw [dir_reap h.distinct]
    refine ho.dropAll ?_
    rintro _ ⟨tok, l, hl, rfl⟩
    exact ⟨tok, l, live_of_reaped hl, rfl⟩

end

/-! ### Runs -/

/-- The runs that keep every leg's entry are the runs of solitary steps. -/
theorem along_solitary_iff (cr : Crypto) (P : Params) (start : ℤ) (es : List Event) :
    Along (step cr P) (Solitary cr P) (State.new start) es ↔
      Throughout (step cr P) (fun s => TableOwned s.toTable) (State.new start) es := by
  have hnew : TableOwned (State.new start).toTable := by
    rintro tok l ⟨ses, hses, -⟩
    cases hses
  refine along_iff_throughout (I := fun s => WellFormed s.toTable)
    (fun s e h => h.step (step_table s e)) (fun s e h ho => ?_) (wellFormed_new start) hnew es
  rw [tableOwned_iff]
  exact owned_step_iff h (tableOwned_iff.1 ho) (step_table s e)

theorem tableComplete_new (start : ℤ) : TableComplete (State.new start).toTable := by
  rintro tok l ⟨ses, hses, -⟩
  cases hses

/-- The runs that keep the table complete are the runs of considerate steps. -/
theorem along_considerate_iff (cr : Crypto) (P : Params) (start : ℤ) (es : List Event) :
    Along (step cr P) (Considerate P) (State.new start) es ↔
      Throughout (step cr P) (fun s => TableComplete s.toTable) (State.new start) es := by
  refine along_iff_throughout (I := fun s => WellFormed s.toTable)
    (fun s e h => h.step (step_table s e)) ?_ (wellFormed_new start) (tableComplete_new start) es
  intro s e h hc
  have h' : WellFormed (step cr P s e).toTable := h.step (step_table s e)
  rw [h'.tableComplete_iff]
  exact complete_step_iff h (h.tableComplete_iff.1 hc) e

/-- What is live in a table with one session. -/
theorem mem_of_sole {tok' : Bytes} {l : Leg}
    (hsole : t.sessions.keys = [tok] ∧ t.sessions.lookup tok = some ses) (hl : t.Live tok' l) :
    tok' = tok ∧ l ∈ ses.legs := by
  have htok : tok' = tok := by
    have := mem_sessions_keys hl
    rwa [hsole.1, mem_singleton] at this
  subst htok
  exact ⟨rfl, (live_iff_of_lookup hsole.2).1 hl⟩

section

variable {l l' : Leg} {S : UDPAddr} {pkt : Bytes} (h : WellFormed t)
  (hses : t.sessions.lookup tok = some ses) (hlegs : ses.legs = [l, l'] ∨ ses.legs = [l', l])
include h hses hlegs

/-- A leg whose entry is its own reaches its partner. -/
theorem WellFormed.forward_of_entry (hentry : t.byAddr.lookup S.string = some l.fwd) :
    (forward t now S pkt).2 = [.send l'.addr pkt] := by
  have hpeer : (t.fwd l.fwd).peer = some l'.addr := by
    have hlinked := h.linked hses
    rcases hlegs with hlegs | hlegs
    · rw [hlegs] at hlinked
      exact hlinked.2.1
    · rw [hlegs] at hlinked
      exact hlinked.2.2
  simp [forward, hentry, hpeer]

/-- From a complete table a leg that is alone at its address reaches its partner. -/
theorem WellFormed.forward_of_sole (hc : TableComplete t) (haddr : l.addr.string = S.string)
    (hsole : ∀ tok' x, t.Live tok' x → x.addr.string = S.string → x = l) :
    (forward t now S pkt).2 = [.send l'.addr pkt] := by
  have hl : l ∈ ses.legs := by rcases hlegs with hlegs | hlegs <;> simp [hlegs]
  obtain ⟨tok', x, hx, hxaddr, hentry⟩ := hc tok l ⟨ses, hses, hl⟩
  have hxl : x = l := hsole tok' x hx (hxaddr.trans haddr)
  rw [haddr, hxl] at hentry
  exact h.forward_of_entry hses hlegs hentry

end

/-- **Reachability.** In every run the table is complete in all states exactly when no step clears
the address of a leg that stays; then a leg that is alone at its address can send to its partner in
every state of the run. Every live leg has the entry of its address in all states exactly when no
step claims a leg at, or moves one to, an address at which a leg is live; then every leg can send to
its partner in every state of the run. -/
theorem relay_reachability (cr : Crypto) (P : Params) (start : ℤ) (es : List Event) :
    (Along (step cr P) (Considerate P) (State.new start) es ↔
      ∀ pre, pre <+: es → TableComplete (runFrom cr P start pre).toTable) ∧
    (Along (step cr P) (Considerate P) (State.new start) es →
      ∀ pre, pre <+: es → ∀ tok ses l l' S now pkt,
        (runFrom cr P start pre).sessions.lookup tok = some ses →
        (ses.legs = [l, l'] ∨ ses.legs = [l', l]) → l.addr.string = S.string →
        (∀ tok' x, (runFrom cr P start pre).Live tok' x → x.addr.string = S.string → x = l) →
        parseBind pkt = none →
        (stepOut cr P (runFrom cr P start pre) (.recv now S pkt)).2 = [.send l'.addr pkt]) ∧
    (Along (step cr P) (Solitary cr P) (State.new start) es ↔
      ∀ pre, pre <+: es → TableOwned (runFrom cr P start pre).toTable) ∧
    (Along (step cr P) (Solitary cr P) (State.new start) es →
      ∀ pre, pre <+: es → ∀ tok ses l l' S now pkt,
        (runFrom cr P start pre).sessions.lookup tok = some ses →
        (ses.legs = [l, l'] ∨ ses.legs = [l', l]) → l.addr.string = S.string →
        parseBind pkt = none →
        (stepOut cr P (runFrom cr P start pre) (.recv now S pkt)).2 = [.send l'.addr pkt]) := by
  refine ⟨along_considerate_iff cr P start es, ?_, along_solitary_iff cr P start es, ?_⟩
  · intro hG pre hp tok ses l l' S now pkt hses hlegs haddr hsole hpkt
    have hc : TableComplete (runFrom cr P start pre).toTable :=
      (along_considerate_iff cr P start es).1 hG pre hp
    simp only [stepOut, hpkt]
    exact (wellFormed_run cr P start pre).forward_of_sole hses hlegs hc haddr hsole
  · intro hG pre hp tok ses l l' S now pkt hses hlegs haddr hpkt
    have ho : TableOwned (runFrom cr P start pre).toTable :=
      (along_solitary_iff cr P start es).1 hG pre hp
    have hl : l ∈ ses.legs := by rcases hlegs with hlegs | hlegs <;> simp [hlegs]
    simp only [stepOut, hpkt]
    exact (wellFormed_run cr P start pre).forward_of_entry hses hlegs
      (haddr ▸ ho tok l ⟨ses, hses, hl⟩)

/-! ### A buddy that reconnects from the same port -/

namespace Reconnect

/-- Cookies are the end of their input; no signatures are used. -/
def crypto : Crypto where
  ed25519Sign := fun _ _ => []
  ed25519Verify := fun _ _ _ => false
  hmacSHA256 := fun _ msg => msg.reverse
  sha256 := fun m => m

/-- A relay in network mode, open to every IPv4 source. -/
def params : Params :=
  Config.params { ttl := 120 * second, allowCIDRs := [⟨[0, 0, 0, 0], 0⟩] } []

/-- The buddy that reconnects. -/
def buddy : UDPAddr := ⟨[192, 0, 2, 7], 40000, []⟩

/-- Its partner. -/
def partner : UDPAddr := ⟨[192, 0, 2, 9], 40000, []⟩

/-- The session the buddy gave up. -/
def oldToken : Bytes := lit "AAAAAAAAAAAAAAAAAAAAAA"

/-- The session it is in now. -/
def newToken : Bytes := lit "BBBBBBBBBBBBBBBBBBBBBA"

/-- A bind with the cookie of its source. -/
def bindFrom (now : ℤ) (src : UDPAddr) (tok : Bytes) : Event :=
  .recv now src (marshalBind
    { sessionToken := tok
      cookie := rawURLEncoding.encode (computeCookie crypto params src (epochOf now)) })

/-- The old session times out half-open after the new one is paired. -/
def events : List Event :=
  [bindFrom 0 buddy oldToken, bindFrom (50 * second) buddy newToken,
    bindFrom (51 * second) partner newToken, .reap (120 * second) []]

/-- The buddy and its partner pair in a session. -/
def paired : List Event := [bindFrom 0 buddy newToken, bindFrom second partner newToken]

/-- From the same port the buddy binds another session, then keeps the first alive. -/
def shared : List Event :=
  paired ++ [bindFrom (2 * second) buddy oldToken, bindFrom (3 * second) buddy newToken]

/-- The buddy's leg of the new session. -/
def buddyLeg (fwd : ℕ) : Leg := ⟨buddy, fwd, fromIP buddy.ip, [], []⟩

/-- The partner's leg of the new session. -/
def partnerLeg (fwd : ℕ) : Leg := ⟨partner, fwd, fromIP partner.ip, [], []⟩

theorem paired_solitary :
    Along (step crypto params) (Solitary crypto params) (State.new 0) paired := by
  refine ⟨?_, ?_, trivial⟩
  · rintro tok l - - tok' l' ⟨ses, hses, -⟩
    cases hses
  · have hone : (runFrom crypto params 0 (paired.take 1)).sessions.keys = [newToken] ∧
        (runFrom crypto params 0 (paired.take 1)).sessions.lookup newToken =
          some ⟨newToken, [buddyLeg 0], false, 0⟩ := by decide +kernel
    have htwo : (runFrom crypto params 0 paired).sessions.keys = [newToken] ∧
        (runFrom crypto params 0 paired).sessions.lookup newToken =
          some ⟨newToken, [buddyLeg 0, partnerLeg 1], true, 0⟩ := by decide +kernel
    intro tok l hl hnew tok' l' hl'
    obtain ⟨rfl, hmem⟩ := mem_of_sole htwo hl
    rw [mem_singleton.1 (mem_of_sole hone hl').2]
    rcases mem_pair.1 hmem with rfl | rfl
    · exact absurd ⟨_, hone.2, mem_singleton_self _⟩ hnew
    · decide +kernel

end Reconnect

open Reconnect in
/-- The reaper removes the half-open session and with it the address of the paired one: the
buddy's leg is alone at its address, the table has no entry for it, and its data is dropped. And a
bind alone takes the address from a paired leg: each step of the run is considerate, the keep-alive
of the leg is acknowledged, and its data is dropped. -/
theorem relay_reachability_fails :
    ((runFrom crypto params 0 events).Live newToken (buddyLeg 1) ∧
      (∀ tok l, (runFrom crypto params 0 events).Live tok l →
        l.addr.string = buddy.string → l = buddyLeg 1) ∧
      (runFrom crypto params 0 events).byAddr.lookup buddy.string = none ∧
      (stepOut crypto params (runFrom crypto params 0 events)
        (.recv (121 * second) buddy (lit "data"))).2 = [] ∧
      ¬ TableComplete (runFrom crypto params 0 events).toTable) ∧
    (Along (step crypto params) (Considerate params) (State.new 0) shared ∧
      ((runFrom crypto params 0 shared).sessions.lookup newToken).map (·.legs) =
        some [buddyLeg 0, partnerLeg 1] ∧
      (stepOut crypto params (runFrom crypto params 0 (shared.take 3))
        (bindFrom (3 * second) buddy newToken)).2 = [ack newToken buddy] ∧
      (runFrom crypto params 0 shared).byAddr.lookup buddy.string = some 2 ∧
      (stepOut crypto params (runFrom crypto params 0 shared)
        (.recv (4 * second) buddy (lit "data"))).2 = []) := by
  have hsole : (runFrom crypto params 0 events).sessions.keys = [newToken] ∧
      (runFrom crypto params 0 events).sessions.lookup newToken =
        some ⟨newToken, [buddyLeg 1, partnerLeg 2], true, 50 * second⟩ := by decide +kernel
  have hentry : (runFrom crypto params 0 events).byAddr.lookup buddy.string = none := by
    decide +kernel
  have hlive : (runFrom crypto params 0 events).Live newToken (buddyLeg 1) :=
    ⟨_, hsole.2, mem_cons_self⟩
  refine ⟨⟨hlive, ?_, hentry, by decide +kernel, ?_⟩, ⟨trivial, trivial, trivial, trivial, trivial⟩,
    by decide +kernel, by decide +kernel, by decide +kernel, by decide +kernel⟩
  · intro tok l hl haddr
    rcases mem_pair.1 (mem_of_sole hsole hl).2 with rfl | rfl
    · rfl
    · exact absurd haddr (by decide +kernel)
  · intro hc
    obtain ⟨tok, l, -, -, hsome⟩ := hc newToken (buddyLeg 1) hlive
    exact absurd (hentry.symm.trans hsome) (Option.some_ne_none _).symm

open Reconnect in
/-- Without the reaper pass the first run is considerate, and the table is complete after it. When
a buddy and its partner pair, every step is solitary, and the buddy reaches the partner. -/
theorem relay_reachability_before_reap :
    TableComplete (runFrom crypto params 0 (events.take 3)).toTable ∧
    (stepOut crypto params (runFrom crypto params 0 paired)
      (.recv (2 * second) buddy (lit "data"))).2 = [.send partner (lit "data")] := by
  constructor
  · refine (relay_reachability crypto params 0 (events.take 3)).1.1 ?_ _ (prefix_refl _)
    exact ⟨trivial, trivial, trivial, trivial⟩
  · exact (relay_reachability crypto params 0 paired).2.2.2 paired_solitary _ (prefix_refl _)
      newToken ⟨newToken, [buddyLeg 0, partnerLeg 1], true, 0⟩ (buddyLeg 0) (partnerLeg 1) buddy
      (2 * second) (lit "data") (by decide +kernel) (Or.inl rfl) rfl (by decide +kernel)

end BuddyNet.Relay
