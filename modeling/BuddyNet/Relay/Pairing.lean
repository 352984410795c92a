import BuddyNet.Relay.Isolation

/-!
# Two binds make a session

From any table the relay can have, a first ticketed bind of a session claims its leg
(`bindTicketed_first`), and once the other leg is bound from another address each of the two
addresses forwards to the other (`bindTicketed_second`). Between the two binds anything may happen
that leaves the first leg where it is.
-/

namespace BuddyNet.Relay

variable {P : Params} {t : Table} {now : ℤ} {p q : Ticket.Payload} {src src' : UDPAddr}
  {acct : Bytes}

/-- The session of the ticket has one leg, the ticket's, and the address leads to it. -/
def HoldsAlone (t : Table) (p : Ticket.Payload) (src : UDPAddr) : Prop :=
  ∃ ses l, t.sessions.lookup p.sid = some ses ∧ ses.legs = [l] ∧ l.name = p.leg ∧ l.addr = src ∧
    t.byAddr.lookup src.string = some l.fwd

variable (h : WellFormed t)
include h

theorem WellFormed.lookup_none {sid : Bytes} (hnone : ∀ l, ¬ t.Live sid l) :
    t.sessions.lookup sid = none := by
  cases hses : t.sessions.lookup sid with
  | none => rfl
  | some ses =>
    rcases (h.linked hses).cases with ⟨a, hlegs, -⟩ | ⟨a, b, hlegs, -⟩
    · exact absurd ⟨ses, hses, by simp [hlegs]⟩ (hnone a)
    · exact absurd ⟨ses, hses, by simp [hlegs]⟩ (hnone a)

/-- **The first bind claims its leg.** -/
theorem bindTicketed_first (hnone : ∀ l, ¬ t.Live p.sid l)
    (hroom : t.sessions.keys.length < P.maxSessions) (hcap : t.legCount acct < P.maxLegsPerIP) :
    (bindTicketed P t now p src acct).2 = [ack p.sid src] ∧
      HoldsAlone (bindTicketed P t now p src acct).1 p src := by
  have hlook := h.lookup_none hnone
  have hbind : bindTicketed P t now p src acct =
      (claimLeg t now p.sid ⟨p.sid, [], false, now⟩ src acct p.leg p.epk, [ack p.sid src]) := by
    have hcount : ∀ ses, Table.legCount { t with sessions := t.sessions.insert p.sid ses } acct =
        t.legCount acct := fun _ => rfl
    simp [bindTicketed, enterSession, hlook, not_le.2 hroom, hcount, not_le.2 hcap, maxLegsPerSes,
      claimLeg_entered]
  rw [hbind]
  exact ⟨rfl, _, _, AList.lookup_insert _, rfl, rfl, rfl, AList.lookup_insert _⟩

/-- **Once both legs are bound, each address forwards to the other.** -/
theorem bindTicketed_second (hold : HoldsAlone t p src) (hsid : q.sid = p.sid)
    (hleg : q.leg ≠ p.leg) (hne : src.string ≠ src'.string)
    (hcap : t.legCount acct < P.maxLegsPerIP) (later : ℤ) (pkt : Bytes) :
    (bindTicketed P t now q src' acct).2 = [ack q.sid src'] ∧
      (forward (bindTicketed P t now q src' acct).1 later src pkt).2 = [.send src' pkt] ∧
      (forward (bindTicketed P t now q src' acct).1 later src' pkt).2 = [.send src pkt] := by
  obtain ⟨ses, l, hses, hlegs, hname, haddr, hentry⟩ := hold
  have hses' : t.sessions.lookup q.sid = some ses := hsid ▸ hses
  have hother : l.name ≠ q.leg := fun heq => hleg (heq.symm.trans hname)
  have hbind : bindTicketed P t now q src' acct =
      (claimLeg t now q.sid ses src' acct q.leg q.epk, [ack q.sid src']) := by
    simp [bindTicketed, enterSession_found now hses', hses', hother, hlegs, maxLegsPerSes,
      not_le.2 hcap]
  rw [hbind]
  -- the pointers of the two legs are those the invariant gives after the bind
  have hwf : WellFormed (claimLeg t now q.sid ses src' acct q.leg q.epk) :=
    h.claimLeg (Or.inl hses') (by simp [hlegs, maxLegsPerSes])
  have hlinked := hwf.linked (AList.lookup_insert t.sessions)
  rw [hlegs] at hlinked
  obtain ⟨-, hpeer, hpeer'⟩ := hlinked
  have hlook : (claimLeg t now q.sid ses src' acct q.leg q.epk).byAddr.lookup src.string =
      some l.fwd := (AList.lookup_insert_ne hne).trans hentry
  have hlook' : (claimLeg t now q.sid ses src' acct q.leg q.epk).byAddr.lookup src'.string =
      some t.nextFwd := AList.lookup_insert _
  refine ⟨rfl, ?_, ?_⟩
  · simp only [forward, hlook, hpeer]
  · simp only [forward, hlook', hpeer', haddr]

end BuddyNet.Relay
