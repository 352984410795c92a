import BuddyNet.Relay.Legs

/-!
# Admission of a leg in ticket mode

A leg comes to an address only through a bind that arrived from that address with its cookie, a
ticket of a configured server for exactly this leg, and a proof made with the ephemeral key over
that ticket and that cookie. The three stages of a bind are tied together by a history invariant:
a queued goroutine goes back to a datagram, a verified one to a verification of a queued one.

* `LegAt`: a leg stands at an address;
* `Proven`: what the bind carried and when it was checked;
* `verifyTicketBind_proven`: a verification that succeeds has checked all of it;
* `leg_admission`: the main result.
-/

namespace BuddyNet.Relay

open List

/-- The leg `name` of session `sid`, owned by the ephemeral key `epk`, is at address `X`. -/
def LegAt (t : Table) (sid name epk : Bytes) (X : UDPAddr) : Prop :=
  ∃ l, t.Live sid l ∧ l.name = name ∧ l.epk = epk ∧ l.addr = X

/-- The decoded credentials of a bind. -/
structure Credentials where
  cookie : Bytes
  payload : Bytes
  sig : Bytes
  epk : Bytes

/-- The bind `b` from `src` carried the credentials `c` for the ticket `p`, and they were good:
the cookie at the time of arrival, the ticket at the time of verification. -/
structure Proven (cr : Crypto) (P : Params) (Signed : Bytes → Bytes → Prop) (b : Bind)
    (src : UDPAddr) (arrival verification : ℤ) (p : Ticket.Payload) (c : Credentials) : Prop where
  cookie_sent : rawURLEncoding.decode b.cookie = some c.cookie
  cookie_fresh : c.cookie = computeCookie cr P src (epochOf arrival) ∨
    c.cookie = computeCookie cr P src (epochOf arrival - 1)
  ticket_sent : rawURLEncoding.decode b.ticket = some c.payload
  sig_sent : rawURLEncoding.decode b.ticketSig = some c.sig
  ticket_signed : ∃ k ∈ P.serverKeys, Signed k (Ticket.signedBytes c.payload)
  ticket_read : Ticket.parse c.payload = .ok p
  relay : p.rid = P.relayID
  session : b.sessionToken = p.sid
  window : p.checkWindow verification = .ok ()
  key : p.ephPub = some c.epk
  possession : Signed c.epk (Ticket.bindSigningBytes cr c.payload c.sig c.cookie)

variable {cr : Crypto} {P : Params} {Signed : Bytes → Bytes → Prop}

/-! ### The checks -/

variable {src : UDPAddr}

theorem validCookie_spec {b64 : Bytes} {now : ℤ} {cookie : Bytes}
    (h : validCookie cr P b64 src now = some cookie) :
    rawURLEncoding.decode b64 = some cookie ∧ (cookie = computeCookie cr P src (epochOf now) ∨
        cookie = computeCookie cr P src (epochOf now - 1)) := by
  unfold validCookie at h
  split_ifs at h
  split at h
  · cases h
  · next got hgot =>
    split_ifs at h with hlen heq
    cases h
    exact ⟨hgot, heq⟩

variable {p : Ticket.Payload}

theorem checkRelay_ok {rid : Bytes} {u : Unit} (h : p.checkRelay rid = .ok u) : p.rid = rid := by
  unfold Ticket.Payload.checkRelay at h
  split_ifs at h with hrid
  exact not_not.1 fun hne => hrid (Or.inr hne)

/-- **A verification that succeeds has checked every credential.** -/
theorem verifyTicketBind_proven (hsig : cr.Unforgeable Signed) {arrival verification : ℤ} {b : Bind}
    {cookie : Bytes} (hcookie : validCookie cr P b.cookie src arrival = some cookie)
    (hver : verifyTicketBind cr P verification b cookie = .ok p) :
    ∃ c : Credentials, c.cookie = cookie ∧
      Proven cr P Signed b src arrival verification p c := by
  obtain ⟨hsent, hfresh⟩ := validCookie_spec hcookie
  unfold verifyTicketBind at hver
  split at hver
  · next payload sig bindSig hpayload hsigdec _ =>
    split_ifs at hver with hlen hserver
    split at hver
    · cases hver
    · next q hparse =>
      split at hver
      · cases hver
      · next hwindow =>
        split at hver
        · cases hver
        · next hrelay =>
          split_ifs at hver with hsid
          split at hver
          · cases hver
          · next epk hepk =>
            split_ifs at hver with hproof
            cases hver
            have hserver' : Ticket.verify cr P.serverKeys payload sig = true := by
              simpa using hserver
            have hproof' : Ticket.verifyBind cr epk payload sig cookie bindSig = true := by
              simpa using hproof
            obtain ⟨k, hk, hkver⟩ := Ticket.verify_eq_true cr hserver'
            exact ⟨⟨cookie, payload, sig, epk⟩, rfl,
              { cookie_sent := hsent
                cookie_fresh := hfresh
                ticket_sent := hpayload
                sig_sent := hsigdec
                ticket_signed := ⟨k, hk, hsig k _ _ hkver⟩
                ticket_read := hparse
                relay := checkRelay_ok hrelay
                session := not_not.1 hsid
                window := hwindow
                key := hepk
                possession := hsig epk _ _ (Ticket.verifyBind_eq_true cr hproof') }⟩
  · cases hver

/-! ### Where the goroutines come from -/

/-- The datagram a queued goroutine goes back to. -/
def QueuedFrom (cr : Crypto) (P : Params) (es : List Event) (b : Bind) (src : UDPAddr)
    (cookie : Bytes) : Prop :=
  ∃ arrival pkt, Event.recv arrival src pkt ∈ es ∧ parseBind pkt = some b ∧
    validCookie cr P b.cookie src arrival = some cookie

/-- The verification a verified goroutine goes back to. -/
def VerifiedFrom (cr : Crypto) (P : Params) (start : ℤ) (es : List Event) (p : Ticket.Payload)
    (src : UDPAddr) : Prop :=
  ∃ pre verification i post b acct cookie,
    es = pre ++ Event.verify verification i :: post ∧
    (runFrom cr P start pre).jobs[i]? = some (.queued b src acct cookie) ∧
    QueuedFrom cr P pre b src cookie ∧ verifyTicketBind cr P verification b cookie = .ok p

/-- The origin of a goroutine, whichever stage it is in. -/
def JobFrom (cr : Crypto) (P : Params) (start : ℤ) (es : List Event) : Job → Prop
  | .queued b src _ cookie => QueuedFrom cr P es b src cookie
  | .verified p src _ => VerifiedFrom cr P start es p src

theorem JobFrom.concat {start : ℤ} {es : List Event} {j : Job} (h : JobFrom cr P start es j)
    (e : Event) : JobFrom cr P start (es ++ [e]) j := by
  cases j with
  | queued b src acct cookie =>
    obtain ⟨arrival, pkt, hmem, hb, hc⟩ := h
    exact ⟨arrival, pkt, mem_append_left _ hmem, hb, hc⟩
  | verified p src acct =>
    obtain ⟨pre, v, i, post, b, acct', cookie, hes, hjob, hq, hver⟩ := h
    exact ⟨pre, v, i, post ++ [e], b, acct', cookie, by simp [hes], hjob, hq, hver⟩

/-- Every goroutine of every reachable state has its origin in the run. -/
theorem jobs_origin (start : ℤ) (es : List Event) :
    ∀ j ∈ (runFrom cr P start es).jobs, JobFrom cr P start es j := by
  refine Machine.history_run (P := fun es (s : State) => ∀ j ∈ s.jobs, JobFrom cr P start es j)
    ?_ ?_ es
  · intro j hj
    cases hj
  · intro es e ih j hj
    rcases mem_jobs_step hj with hj | ⟨now, src, pkt, b, cookie, rfl, hb, hc, rfl⟩ |
        ⟨now, i, b, src, acct, cookie, p, rfl, hjob, hver, rfl⟩
    · exact (ih j hj).concat e
    · exact ⟨now, pkt, by simp, hb, hc⟩
    · exact ⟨es, now, i, [], b, acct, cookie, rfl, hjob, ih _ (mem_of_getElem? hjob), hver⟩

/-! ### Where the legs come from -/

variable {sid : Bytes} {X : UDPAddr}

theorem legAt_of_live_subset {t t' : Table} {name epk : Bytes}
    (h : ∀ tok l, t'.Live tok l → t.Live tok l) (hat : LegAt t' sid name epk X) :
    LegAt t sid name epk X := by
  obtain ⟨l, hl, hrest⟩ := hat
  exact ⟨l, h sid l hl, hrest⟩

/-- A bind puts only its own leg at its own source address. -/
theorem BindEffect.legAt {ticketed : Bool} {t t' : Table} {now : ℤ} {tok : Bytes}
    {acct name epk : Bytes} (h : BindEffect P ticketed t now tok src acct name epk t')
    {name' epk' : Bytes} (hat : LegAt t' sid name' epk' X) :
    LegAt t sid name' epk' X ∨ (sid = tok ∧ name' = name ∧ epk' = epk ∧ X = src) := by
  cases h with
  | refused | keepAlive l hl haddr => exact Or.inl hat
  | claimed ses hses hlegs hcap =>
    obtain ⟨l, hl, rfl, rfl, rfl⟩ := hat
    rcases (live_claimLeg (claimed_session hses)).1 hl with hl | ⟨rfl, rfl⟩
    · exact Or.inl ⟨l, hl, rfl, rfl, rfl⟩
    · exact Or.inr ⟨rfl, rfl, rfl, rfl⟩
  | migrated ses held hmode hses hfind hepk haddr hcap =>
    obtain ⟨l, hl, rfl, rfl, rfl⟩ := hat
    have hname : held.name = name := by simpa using find?_some hfind
    rcases (live_migrateLeg hses (mem_of_find?_eq_some hfind)).1 hl with
      ⟨rfl, rfl⟩ | ⟨hl, -⟩
    · exact Or.inr ⟨rfl, hname, hepk, rfl⟩
    · exact Or.inl ⟨l, hl, rfl, rfl, rfl⟩

/-- In ticket mode a leg comes to an address only in the critical section of a verified bind. -/
theorem legAt_step (htm : P.ticketMode = true) {s : State} {e : Event} {name epk : Bytes}
    (hat : LegAt (step cr P s e).toTable sid name epk X) :
    LegAt s.toTable sid name epk X ∨
      ∃ now i p acct, e = .apply now i ∧ s.jobs[i]? = some (.verified p X acct) ∧
        p.sid = sid ∧ p.leg = name ∧ p.epk = epk := by
  cases e with
  | recv now src pkt =>
    refine Or.inl ?_
    simp only [step, stepOut] at hat
    split at hat
    · rwa [bind_toTable_of_ticketMode htm] at hat
    · unfold forward at hat
      split at hat <;> exact hat
  | verify now i =>
    refine Or.inl ?_
    simp only [step, stepOut] at hat
    split at hat
    · split at hat <;> exact hat
    · exact hat
  | apply now i =>
    simp only [step, stepOut] at hat
    split at hat
    · next p src acct hjob =>
      rcases (bindTicketed_effect s.toTable now p src acct).legAt hat with
        hat | ⟨rfl, rfl, rfl, rfl⟩
      · exact Or.inl hat
      · exact Or.inr ⟨now, i, p, acct, rfl, hjob, rfl, rfl, rfl⟩
    · exact Or.inl hat
  | reap now order =>
    exact Or.inl (legAt_of_live_subset (fun tok l hl => (live_reap.1 hl).1) hat)

/-! ### Cookies name one address -/

theorem be16_injective : Function.Injective be16 := by
  intro a b h
  have ha := a.toNat_lt
  have hb := b.toNat_lt
  simp only [be16, cons.injEq, and_true] at h
  have h1 := congrArg UInt8.toNat h.1
  have h2 := congrArg UInt8.toNat h.2
  simp only [Nat.toUInt8, UInt8.toNat_ofNat'] at h1 h2
  apply UInt16.toNat_inj.1
  omega

/-- Both inputs are of fixed width, so no two addresses have the same MAC input. -/
theorem cookieInput_inj {Y : UDPAddr} {m n : ℤ} (h : cookieInput X m = cookieInput Y n) :
    Go.to16 X.ip = Go.to16 Y.ip ∧ X.port = Y.port := by
  unfold cookieInput at h
  rw [append_assoc, append_assoc] at h
  obtain ⟨-, h⟩ := append_inj h (by simp [be64])
  obtain ⟨hip, hport⟩ := append_inj' h (by simp [be16])
  exact ⟨hip, be16_injective hport⟩

/-- No cookie of `X` is also the cookie of an address in the set, unless the MAC input is the
same. -/
def CollisionFree (cr : Crypto) (P : Params) (own : Set UDPAddr) (X : UDPAddr) : Prop :=
  ∀ Y ∈ own, ∀ m n, computeCookie cr P Y m = computeCookie cr P X n →
    cookieInput Y m = cookieInput X n

/-- Proofs made only over cookies of one's own addresses are good only there. -/
theorem Proven.own_address {b : Bind} {arrival verification : ℤ} {c : Credentials}
    (h : Proven cr P Signed b X arrival verification p c) {own : Set UDPAddr}
    (hfree : CollisionFree cr P own X)
    (hown : ∀ payload sig cookie, Signed c.epk (Ticket.bindSigningBytes cr payload sig cookie) →
      ∃ Y ∈ own, ∃ n, cookie = computeCookie cr P Y n) :
    ∃ Y ∈ own, Go.to16 Y.ip = Go.to16 X.ip ∧ Y.port = X.port := by
  obtain ⟨Y, hY, m, hm⟩ := hown _ _ _ h.possession
  refine ⟨Y, hY, ?_⟩
  rcases h.cookie_fresh with hX | hX
  · exact cookieInput_inj (hfree Y hY m _ (hm ▸ hX))
  · exact cookieInput_inj (hfree Y hY m _ (hm ▸ hX))

/-- **A leg is created at, or moved to, an address only by a proven bind from that address.** The
event is the critical section of a verified goroutine; its verification succeeded earlier in the
run, for a bind that had arrived from exactly this address; and the signatures it carried were
made by the holders of the keys. A holder of the ephemeral key who proves possession only over
cookies of their own addresses therefore has the leg at one of these addresses. -/
theorem leg_admission (htm : P.ticketMode = true) (hsig : cr.Unforgeable Signed) (start : ℤ)
    (es : List Event) (e : Event) {sid name epk : Bytes} {X : UDPAddr}
    (hafter : LegAt (runFrom cr P start (es ++ [e])).toTable sid name epk X)
    (hbefore : ¬ LegAt (runFrom cr P start es).toTable sid name epk X) :
    (∃ now i, e = .apply now i) ∧
    ∃ pre verification i post arrival pkt b acct p c,
      es = pre ++ Event.verify verification i :: post ∧
      Event.recv arrival X pkt ∈ pre ∧ parseBind pkt = some b ∧
      (runFrom cr P start pre).jobs[i]? = some (.queued b X acct c.cookie) ∧
      Proven cr P Signed b X arrival verification p c ∧
      p.sid = sid ∧ p.leg = name ∧ p.epk = epk ∧
      ∀ own : Set UDPAddr, CollisionFree cr P own X →
        (∀ payload sig cookie,
          Signed c.epk (Ticket.bindSigningBytes cr payload sig cookie) →
          ∃ Y ∈ own, ∃ n, cookie = computeCookie cr P Y n) →
        ∃ Y ∈ own, Go.to16 Y.ip = Go.to16 X.ip ∧ Y.port = X.port := by
  rw [runFrom, Machine.run_concat] at hafter
  rcases legAt_step htm hafter with hat | ⟨now, k, p, acct, rfl, hjob, hsid, hleg, hepk⟩
  · exact absurd hat hbefore
  · refine ⟨⟨now, k, rfl⟩, ?_⟩
    obtain ⟨pre, v, i, post, b, acct', cookie, hes, hq, ⟨arrival, pkt, hmem, hb, hc⟩, hver⟩ :=
      jobs_origin start es _ (mem_of_getElem? hjob)
    obtain ⟨c, rfl, hproven⟩ := verifyTicketBind_proven hsig hc hver
    exact ⟨pre, v, i, post, arrival, pkt, b, acct', p, c, hes, hmem, hb, hq, hproven, hsid, hleg,
      hepk, fun own hfree hown => hproven.own_address hfree hown⟩

/-! ### A run in which a leg is created -/

namespace Example

/-- The relay's id. -/
def rid : Bytes := Ticket.newID (replicate 16 7)

/-- The ticket of leg `a`. -/
def payload : Ticket.Payload where
  v := 1
  rid := rid
  sid := Ticket.newID (replicate 16 9)
  leg := Ticket.legA
  epk := rawURLEncoding.encode (replicate 32 5)
  iat := 1000
  exp := 1090
  nonce := Ticket.newID (replicate 16 1)

/-- The signatures ever made: the server's over the ticket, the buddy's over its first cookie. -/
def signatures (cookie : Bytes) : List (Bytes × Bytes × Bytes) :=
  [(replicate 32 3, Ticket.signedBytes (Ticket.marshal payload), replicate 64 11),
    (replicate 32 5, Ticket.bindContext ++ replicate 32 0 ++ cookie,
      replicate 64 12)]

/-- The buddy's address. -/
def buddy : UDPAddr := ⟨[192, 0, 2, 7], 40000, []⟩

/-- A cookie is the end of its input, so that it tells addresses apart. -/
def cookie : Bytes := (cookieInput buddy 33).reverse.take cookieLen

/-- Signatures verify when they are among those made. -/
def crypto : Crypto where
  ed25519Sign := fun _ _ => []
  ed25519Verify := fun k m s => decide ((k, m, s) ∈ signatures cookie)
  hmacSHA256 := fun _ msg => msg.reverse
  sha256 := fun _ => replicate 32 0

/-- A relay in ticket mode with one server key. -/
def params : Params :=
  Config.params { ttl := 120 * second, serverKeys := [replicate 32 3], relayID := rid } []

/-- The bind the buddy answers the challenge with. -/
def pkt : Bytes := marshalBind
  { sessionToken := payload.sid
    cookie := rawURLEncoding.encode cookie
    ticket := rawURLEncoding.encode (Ticket.marshal payload)
    ticketSig := rawURLEncoding.encode (replicate 64 11)
    bindSig := rawURLEncoding.encode (replicate 64 12) }

/-- The bind arrives and is verified. -/
def events : List Event := [.recv (1000 * second) buddy pkt, .verify (1001 * second) 0]

/-- The leg that is created. -/
def leg : Leg := ⟨buddy, 0, fromIP buddy.ip, Ticket.legA, payload.epk⟩

end Example

open Example in
theorem leg_admission_example :
    LegAt (runFrom crypto params 0 (events ++ [.apply (1002 * second) 0])).toTable
      payload.sid Ticket.legA payload.epk buddy ∧
    ∃ arrival pkt', Event.recv arrival buddy pkt' ∈ events := by
  -- one evaluation for both states, since most of its time goes into the bind
  have hlook : (runFrom crypto params 0 events).sessions.lookup payload.sid = none ∧
      (runFrom crypto params 0 (events ++ [.apply (1002 * second) 0])).sessions.lookup payload.sid =
        some ⟨payload.sid, [leg], false, 1002 * second⟩ := by
    decide +kernel
  have hafter : LegAt (runFrom crypto params 0 (events ++ [.apply (1002 * second) 0])).toTable
      payload.sid Ticket.legA payload.epk buddy :=
    ⟨leg, ⟨⟨payload.sid, [leg], false, 1002 * second⟩, hlook.2, by simp⟩, rfl, rfl, rfl⟩
  have hbefore : ¬ LegAt (runFrom crypto params 0 events).toTable
      payload.sid Ticket.legA payload.epk buddy := by
    rintro ⟨l, ⟨ses, hses, -⟩, -⟩
    rw [hlook.1] at hses
    cases hses
  have hsig : crypto.Unforgeable fun k m => ∃ s, (k, m, s) ∈ signatures cookie :=
    fun k m s h => ⟨s, of_decide_eq_true h⟩
  obtain ⟨-, pre, v, i, post, arrival, pkt', -, -, -, -, hes, hmem, -⟩ :=
    leg_admission (by decide) hsig 0 events (.apply (1002 * second) 0) hafter hbefore
  exact ⟨hafter, arrival, pkt', hes ▸ mem_append_left _ hmem⟩

end BuddyNet.Relay
