import BuddyNet.Buddy.Roster
import BuddyNet.Handshake.Issuing
import BuddyNet.Relay.Pairing

/-!
# Relay tickets from end to end

The handshake server, the buddies and the relay together. Two buddies that are paired with each
other get tickets for one session and for opposite legs; each can adopt its ticket and bind with it;
and once both have bound, the relay forwards between their addresses.

* `Deployment`: what the operator sets on both servers;
* `Usable`: a ticket takes its holder through `adopt`, `ParseBind` and `verifyTicketBind`;
* `Forwards`: the binds of two tickets connect the addresses they come from;
* `relay_tickets`: the result over runs of the handshake server.
-/

namespace BuddyNet

open Machine List

open Buddy (RelayTicket newRelayCred adopt bindFor RelayClock CookieOf)
open Handshake (Issued Message Peer issueTicket permit)

/-- The handshake server and the relay share the relay id, and the relay pins the server's key. -/
structure Deployment (cr : Crypto) (P : Handshake.Params) (R : Relay.Params) (serverPub : Bytes) :
    Prop where
  rid : Ticket.validID P.rid = true
  server : cr.KeyPair serverPub P.priv
  relayID : R.relayID = P.rid
  pinned : serverPub ∈ R.serverKeys

/-- The holder of the ephemeral key adopts the ticket. Under any cookie the bind made from it is
accepted by `ParseBind`; and at the address the cookie belongs to it is verified, while the ticket
lasts by the server's clock and the relay's clock is at most 10 s away from that. -/
def Usable (cr : Crypto) (R : Relay.Params) (rt : RelayTicket) (p : Ticket.Payload)
    (pub priv : Bytes) : Prop :=
  ∃ c, adopt (some (newRelayCred pub priv)) (some rt) = .ok c ∧
    ∀ derived cookie, cookie.length = Relay.cookieLen →
      Relay.parseBind (Relay.marshalBind (bindFor cr (some c) derived cookie)) =
        some (bindFor cr (some c) derived cookie) ∧
      ∀ src now serverNow, RelayClock now → |now - serverNow| ≤ 10 * 1000000000 →
        p.iat ≤ serverNow / 1000000000 → serverNow / 1000000000 ≤ p.exp →
        CookieOf cr R src now cookie →
        Relay.validCookie cr R (bindFor cr (some c) derived cookie).cookie src now = some cookie ∧
        Relay.verifyTicketBind cr R now (bindFor cr (some c) derived cookie) cookie = .ok p

/-- On a relay with no leg on the session and below its caps, the bind of the first ticket stands;
and whatever happens until the second is bound from another address, if the first leg is still there
and alone, then `forward` from either address writes to the other. -/
def Forwards (cr : Crypto) (R : Relay.Params) (p q : Ticket.Payload) : Prop :=
  ∀ (start : ℤ) (es : List Relay.Event) (src src' : UDPAddr) (now now' later : ℤ) (pkt : Bytes),
    let t := (Relay.runFrom cr R start es).toTable
    (∀ l, ¬ t.Live p.sid l) → t.sessions.keys.length < R.maxSessions →
    t.legCount (fromIP src.ip) < R.maxLegsPerIP → src.string ≠ src'.string →
    let t₁ := (Relay.bindTicketed R t now p src (fromIP src.ip)).1
    Relay.HoldsAlone t₁ p src ∧
    ∀ (s : Relay.State) (mid : List Relay.Event), s.toTable = t₁ →
      let t₂ := (run (Relay.step cr R) s mid).toTable
      Relay.HoldsAlone t₂ p src → t₂.legCount (fromIP src'.ip) < R.maxLegsPerIP →
      let t₃ := (Relay.bindTicketed R t₂ now' q src' (fromIP src'.ip)).1
      (Relay.forward t₃ later src pkt).2 = [.send src' pkt] ∧
      (Relay.forward t₃ later src' pkt).2 = [.send src pkt]

/-! ### The parts -/

theorem forwards_of_legs (cr : Crypto) (R : Relay.Params) {p q : Ticket.Payload}
    (hsid : q.sid = p.sid) (hleg : q.leg ≠ p.leg) : Forwards cr R p q := by
  intro start es src src' now now' later pkt t hnone hroom hcap hne t₁
  have hwf := Relay.wellFormed_run cr R start es
  refine ⟨(Relay.bindTicketed_first hwf hnone hroom hcap).2, ?_⟩
  intro s mid hs t₂ hold hcap' t₃
  have hwf₁ : Relay.WellFormed s.toTable := by
    rw [hs]
    exact hwf.step (.bind (Relay.bindTicketed_effect t now p src (fromIP src.ip)) fun _ => rfl)
  have hwf₂ : Relay.WellFormed t₂ :=
    invariant_run (P := fun s : Relay.State => Relay.WellFormed s.toTable)
      (fun s e h => h.step (Relay.step_table s e)) hwf₁ mid
  exact (Relay.bindTicketed_second hwf₂ hold hsid hleg hne hcap' later pkt).2

variable {cr : Crypto} {P : Handshake.Params} {R : Relay.Params} {serverPub pub priv : Bytes}

theorem usable_permit (dep : Deployment cr P R serverPub) {p : Ticket.Payload}
    (h : Buddy.Permit cr serverPub P.priv p) (hkey : cr.KeyPair pub priv)
    (hepk : p.epk = rawURLEncoding.encode pub) (hrid : p.rid = P.rid)
    (hexp : p.exp = p.iat + Ticket.maxTTL) :
    Usable cr R (Buddy.relayTicket cr P.priv p) p pub priv := by
  refine ⟨_, Buddy.adopt_issued h hepk, fun derived cookie hlen => ?_⟩
  refine ⟨Buddy.parseBind_bindFor h hkey hepk derived hlen, ?_⟩
  intro src now serverNow hclock hskew hfrom huntil hcookie
  have hwindow := Buddy.checkWindow_of_skew hexp hclock hskew hfrom huntil
  refine ⟨?_, Buddy.verifyTicketBind_bindFor h hkey hepk dep.pinned (dep.relayID.trans hrid.symm)
    derived cookie hwindow⟩
  rw [Buddy.bindFor_adopted h]
  exact Buddy.validCookie_encode hcookie hlen

/-! ### Issuing for a generated key -/

theorem sent_issuedOf (cr : Crypto) (priv : Bytes) (p : Ticket.Payload) :
    sent (Handshake.issuedOf p (Ticket.marshal p,
      cr.ed25519Sign priv (Ticket.signedBytes (Ticket.marshal p)))) =
      Buddy.relayTicket cr priv p := by
  simp only [sent, Handshake.issuedOf, Buddy.relayTicket]

section Issue

variable {ids : ℕ → Bytes} {r r' : Handshake.Registry} {drawn : ℕ} {now : ℤ} {m : Message}
  {partner : Peer} {sid : Bytes}

/-- A registration with a generated ephemeral key gets a ticket as soon as there is a session id. -/
theorem issueTicket_generated (dep : Deployment cr P R serverPub)
    (hids : ∀ n, Ticket.validID (ids n) = true) (hdrawn : Handshake.SidsDrawn ids r)
    (hclock : Handshake.ClockInRange now) (hkey : cr.KeyPair pub priv)
    (hepk : m.ephPub = rawURLEncoding.encode pub) (hne : m.pubkey ≠ partner.pubkey)
    (hsid : r.sidFor m.token (ids drawn) = (r', some sid)) :
    ∃ n t, issueTicket cr P ids r drawn now m partner = (r', n, some t) ∧
      t.payload.sid = sid ∧ t.payload.leg = Handshake.legOf m.pubkey partner.pubkey ∧
      Usable cr R (sent t) t.payload pub priv := by
  have hdec : (rawURLEncoding.decode m.ephPub).map (·.length) = some publicKeySize := by
    rw [hepk, decode_encode_url, Option.map_some, hkey.pub_length]
  obtain ⟨k, hk⟩ := Handshake.sidFor_drawn hdrawn hsid
  obtain ⟨n, hreg, hticket⟩ :=
    Handshake.issueTicket_eq cr now (Ticket.validID_ne_nil dep.rid) hdec hne hsid
  have hform : (permit P now m partner sid (ids n)).WellFormed :=
    Handshake.permit_wellFormed dep.rid (hk ▸ hids k) (hids n) hclock hdec
  have hbreaks : lineBreaks m.ephPub = 0 := by
    rw [hepk]
    refine countP_eq_zero.2 fun c hc => ?_
    simp [Encoding.encode_not_newline (Or.inr rfl) hc]
  have hsize := @Handshake.payloadLength_le m now hclock (by omega)
  have hpermit : Buddy.Permit cr serverPub P.priv (permit P now m partner sid (ids n)) :=
    ⟨dep.server, hform, (Handshake.permit_length hform).trans_le hsize⟩
  rw [Handshake.sign_permit cr hform, if_pos hsize] at hticket
  have hexp := Handshake.permit_exp P now m partner sid (ids n)
  have hepk' : (permit P now m partner sid (ids n)).epk = rawURLEncoding.encode pub := hepk
  have hrid : (permit P now m partner sid (ids n)).rid = P.rid := rfl
  have hpsid : (permit P now m partner sid (ids n)).sid = sid := rfl
  have hleg : (permit P now m partner sid (ids n)).leg =
    Handshake.legOf m.pubkey partner.pubkey := rfl
  have husable := usable_permit dep hpermit hkey hepk' hrid hexp
  rw [← sent_issuedOf] at husable
  generalize issueTicket cr P ids r drawn now m partner = res at hreg hticket ⊢
  obtain ⟨r₁, n₁, t₁⟩ := res
  dsimp only [Option.map_some] at hreg hticket
  rw [hreg, hticket]
  exact ⟨n₁, _, rfl, hpsid, hleg, husable⟩

theorem sidFor_of_issueTicket {t : Issued}
    (h : (issueTicket cr P ids r drawn now m partner).2.2 = some t) :
    ∃ r' sid, r.sidFor m.token (ids drawn) = (r', some sid) := by
  rcases hres : r.sidFor m.token (ids drawn) with ⟨r', _ | sid⟩
  · simp only [issueTicket, hres] at h
    split_ifs at h
  · exact ⟨r', sid, rfl⟩

theorem lookup_sidFor {tok fresh : Bytes} (h : r.sidFor tok fresh = (r', some sid)) :
    r'.sids.lookup tok = some sid := by
  unfold Handshake.Registry.sidFor at h
  cases hold : r.sids.lookup tok with
  | some sid' =>
    simp only [hold, Prod.mk.injEq, Option.some.injEq] at h
    obtain ⟨rfl, rfl⟩ := h
    exact hold
  | none =>
    simp only [hold] at h
    split_ifs at h
    · cases (Prod.mk.inj h).2
    · obtain ⟨rfl, hsid⟩ := Prod.mk.inj h
      obtain rfl := Option.some.inj hsid
      exact AList.lookup_insert _

theorem sidFor_of_lookup {tok : Bytes} (fresh : Bytes) (h : r.sids.lookup tok = some sid) :
    r.sidFor tok fresh = (r, some sid) := by
  simp [Handshake.Registry.sidFor, h]

end Issue

/-! ### The result -/

theorem answers_issue (cr : Crypto) (P : Handshake.Params) (ids : ℕ → Bytes) {s : Handshake.State}
    {req partner : ℕ} (now : ℤ) {m : Message} {entry : Peer}
    (h : s.requests.lookup req = some (.rendered m partner entry)) :
    (Handshake.step cr P ids s (.issue req now)).answers = s.answers ++
        [⟨m, entry, (issueTicket cr P ids s.reg s.drawn now m entry).2.2⟩] ∧
      (Handshake.step cr P ids s (.issue req now)).reg =
        (issueTicket cr P ids s.reg s.drawn now m entry).1 := by
  simp only [Handshake.step, h, and_self]

/-- The session id that one answer on a token leaves is what the next one finds, if the bucket of
the token stays until then. -/
theorem sid_shared {ids : ℕ → Bytes} {es mid : List Handshake.Event} {req partner : ℕ} {now : ℤ}
    {m : Message} {entry : Peer} {r' : Handshake.Registry} {sid : Bytes}
    (hreq : (Handshake.runFrom cr P ids es).requests.lookup req = some (.rendered m partner entry))
    (hissue : (issueTicket cr P ids (Handshake.runFrom cr P ids es).reg
      (Handshake.runFrom cr P ids es).drawn now m entry).1 = r')
    (hsid : r'.sids.lookup m.token = some sid)
    (hbucket : Throughout (Handshake.step cr P ids) (fun s => m.token ∈ s.reg.waiting)
      (Handshake.runFrom cr P ids es) (.issue req now :: mid)) :
    (Handshake.runFrom cr P ids (es ++ .issue req now :: mid)).reg.sids.lookup m.token =
      some sid := by
  obtain ⟨-, hreg⟩ := answers_issue cr P ids now hreq
  rw [Handshake.runFrom, run_append, run_cons]
  refine Handshake.sid_kept ?_ fun pre hp => ?_
  · exact (congrArg (fun r => r.sids.lookup m.token) (hreg.trans hissue)).trans hsid
  · exact hbucket (.issue req now :: pre) (cons_prefix_cons.2 ⟨rfl, hp⟩)

/-- **Relay tickets work from end to end.** Let two buddies with different key strings be answered
with rosters that name each other, on one token whose bucket stays from the first answer to the
second, and let each have registered a generated ephemeral key. The first gets a ticket if a session
id is available. If it does, so does the second: the two tickets name one session and opposite legs,
each is usable by its buddy, and the two binds, in either order, connect their addresses. -/
theorem relay_tickets (cr : Crypto) (P : Handshake.Params) (R : Relay.Params) (serverPub : Bytes)
    (dep : Deployment cr P R serverPub) (ids random : ℕ → Bytes)
    (hids : ∀ n, ids n = Ticket.newID (random n)) (hrandom : ∀ n, (random n).length = 16)
    (pubA privA pubB privB : Bytes) (hkeyA : cr.KeyPair pubA privA) (hkeyB : cr.KeyPair pubB privB)
    (es mid : List Handshake.Event) (reqA reqB partnerA partnerB : ℕ) (mA mB : Message)
    (entryA entryB : Peer) (nowA nowB : ℤ) (hclockA : Handshake.ClockInRange nowA)
    (hclockB : Handshake.ClockInRange nowB)
    (hreqA : (Handshake.runFrom cr P ids es).requests.lookup reqA =
      some (.rendered mA partnerA entryA))
    (hreqB : (Handshake.runFrom cr P ids (es ++ .issue reqA nowA :: mid)).requests.lookup reqB =
      some (.rendered mB partnerB entryB))
    (hepkA : mA.ephPub = Buddy.epk (some (newRelayCred pubA privA)))
    (hepkB : mB.ephPub = Buddy.epk (some (newRelayCred pubB privB)))
    (htoken : mB.token = mA.token) (hkeys : mA.pubkey ≠ mB.pubkey)
    (hpairA : entryA.pubkey = mB.pubkey) (hpairB : entryB.pubkey = mA.pubkey)
    (hbucket : Throughout (Handshake.step cr P ids) (fun s => mA.token ∈ s.reg.waiting)
      (Handshake.runFrom cr P ids es) (.issue reqA nowA :: mid)) :
    ∃ ticketA ticketB : Option Issued,
      (Handshake.runFrom cr P ids (es ++ [.issue reqA nowA])).answers =
        (Handshake.runFrom cr P ids es).answers ++ [⟨mA, entryA, ticketA⟩] ∧
      (Handshake.runFrom cr P ids (es ++ .issue reqA nowA :: mid ++ [.issue reqB nowB])).answers =
        (Handshake.runFrom cr P ids (es ++ .issue reqA nowA :: mid)).answers ++
          [⟨mB, entryB, ticketB⟩] ∧
      (((Handshake.runFrom cr P ids es).reg.sidFor mA.token
        (ids (Handshake.runFrom cr P ids es).drawn)).2 ≠ none → ticketA ≠ none) ∧
      ∀ tA ∈ ticketA, ∃ tB ∈ ticketB,
        tA.payload.sid = tB.payload.sid ∧
        (tA.payload.leg = Ticket.legA ∧ tB.payload.leg = Ticket.legB ∨
          tA.payload.leg = Ticket.legB ∧ tB.payload.leg = Ticket.legA) ∧
        Usable cr R (sent tA) tA.payload pubA privA ∧
        Usable cr R (sent tB) tB.payload pubB privB ∧
        Forwards cr R tA.payload tB.payload ∧ Forwards cr R tB.payload tA.payload := by
  have hvalid : ∀ n, Ticket.validID (ids n) = true := fun n => by
    rw [hids]
    exact Ticket.validID_newID (hrandom n)
  have hneA : mA.pubkey ≠ entryA.pubkey := by rwa [hpairA]
  have hneB : mB.pubkey ≠ entryB.pubkey := by
    rw [hpairB]
    exact hkeys.symm
  have hdrawn := Handshake.sidsDrawn_run cr P ids
  obtain ⟨hansA, -⟩ := answers_issue cr P ids nowA hreqA
  obtain ⟨hansB, -⟩ := answers_issue cr P ids nowB hreqB
  have hrunA : Handshake.runFrom cr P ids (es ++ [.issue reqA nowA]) =
      Handshake.step cr P ids (Handshake.runFrom cr P ids es) (.issue reqA nowA) :=
    run_concat _ _
  have hrunB : Handshake.runFrom cr P ids (es ++ .issue reqA nowA :: mid ++ [.issue reqB nowB]) =
      Handshake.step cr P ids (Handshake.runFrom cr P ids (es ++ .issue reqA nowA :: mid))
        (.issue reqB nowB) := run_concat _ _
  have hissueA := fun r' sid => @issueTicket_generated cr P R serverPub pubA privA ids
    (Handshake.runFrom cr P ids es).reg r' (Handshake.runFrom cr P ids es).drawn nowA mA entryA sid
    dep hvalid (hdrawn es) hclockA hkeyA hepkA hneA
  refine ⟨_, _, by rw [hrunA, hansA], by rw [hrunB, hansB], ?_, ?_⟩
  · intro havail
    rcases hres : (Handshake.runFrom cr P ids es).reg.sidFor mA.token
      (ids (Handshake.runFrom cr P ids es).drawn) with ⟨r', _ | sid⟩
    · rw [hres] at havail
      exact absurd rfl havail
    · obtain ⟨n, t, ht, -⟩ := hissueA r' sid hres
      rw [ht]
      exact Option.some_ne_none t
  · intro tA htA
    obtain ⟨r', sid, hres⟩ := sidFor_of_issueTicket htA
    obtain ⟨n, t, ht, hsidA, hlegA, huseA⟩ := hissueA r' sid hres
    have hkept := sid_shared hreqA (congrArg Prod.fst ht) (lookup_sidFor hres) hbucket
    rw [ht] at htA
    obtain rfl : t = tA := Option.some.inj htA
    rw [← htoken] at hkept
    obtain ⟨n', tB, htB, hsidB, hlegB, huseB⟩ := issueTicket_generated dep hvalid (hdrawn _) hclockB
      hkeyB hepkB hneB (sidFor_of_lookup
        (ids (Handshake.runFrom cr P ids (es ++ .issue reqA nowA :: mid)).drawn) hkept)
    rw [hpairA] at hlegA
    rw [hpairB] at hlegB
    have hsame : t.payload.sid = tB.payload.sid := hsidA.trans hsidB.symm
    have hlegs := Handshake.legOf_opposite hkeys
    rw [← hlegA, ← hlegB] at hlegs
    have hdiff : t.payload.leg ≠ tB.payload.leg := by
      rcases hlegs with ⟨ha, hb⟩ | ⟨ha, hb⟩ <;> rw [ha, hb] <;> decide
    refine ⟨tB, by rw [htB]; rfl, hsame, hlegs, huseA, huseB, ?_, ?_⟩
    · exact forwards_of_legs cr R hsame.symm hdiff.symm
    · exact forwards_of_legs cr R hsame hdiff

/-! ### A meeting -/

namespace Meeting

/-- The handshake server signs with key 9. -/
def params : Handshake.Params := { Handshake.Sample.params with priv := key 9 }

/-- The relay pins it. -/
def relay : Relay.Params :=
  Relay.Config.params
    { ttl := 60 * 1000000000, serverKeys := [key 9], relayID := params.rid } (key 1)

/-- The first buddy registers, the second finds it, and the first comes back. -/
def events : List Handshake.Event :=
  [Handshake.Sample.register 0 2 (lit "idA") 100 [],
    Handshake.Sample.register 1 3 (lit "idB") 100 [],
    Handshake.Sample.register 2 2 (lit "idA") 101 [], .note 1, .render 1, .note 2, .render 2]

/-- The server when both rosters are rendered. -/
def state : Handshake.State := Handshake.runFrom crypto params Handshake.Sample.drawnID events

/-- A registration as it was accepted. -/
def accepted (k : UInt8) (id : Bytes) (sec : ℕ) : Message :=
  { Handshake.Sample.registration k id sec [] with virtualIP := virtualIPString crypto (key k) }

/-- The roster entry of a record. -/
def entry (ref : ℕ) : Peer := (state.reg.heap ref).asProtocolPeer params.endpoint

end Meeting

open Meeting Handshake.Sample in
/-- Both buddies of the meeting get a ticket, and their binds connect them. -/
theorem relay_tickets_meeting :
    ∃ ticketA ticketB : Option Issued, ticketA ≠ none ∧ ∀ tA ∈ ticketA, ∃ tB ∈ ticketB,
      tA.payload.sid = tB.payload.sid ∧ Forwards Meeting.crypto relay tA.payload tB.payload := by
  have hclock : Handshake.ClockInRange (101 * 1000000000) := by
    unfold Handshake.ClockInRange Ticket.maxTTL
    omega
  have hdrawn : ∀ n, drawnID n = Ticket.newID (replicate 15 0 ++ [UInt8.ofNat n]) :=
    fun _ => rfl
  have hlen : ∀ n : ℕ, (replicate 15 0 ++ [UInt8.ofNat n]).length = 16 := by simp
  have dep : Deployment Meeting.crypto Meeting.params relay (Meeting.key 9) :=
    ⟨by decide +kernel, keyPair 9, rfl, mem_singleton.2 rfl⟩
  have hstays : lit "token" ∈ state.reg.waiting ∧
      lit "token" ∈ (Handshake.step Meeting.crypto Meeting.params drawnID state
        (.issue 1 (101 * 1000000000))).reg.waiting := by decide +kernel
  have hbucket : Throughout (Handshake.step Meeting.crypto Meeting.params drawnID)
      (fun s => lit "token" ∈ s.reg.waiting) state [.issue 1 (101 * 1000000000)] := by
    intro pre hp
    rcases prefix_cons_iff.1 hp with rfl | ⟨pre', rfl, hp'⟩
    · exact hstays.1
    · rw [prefix_nil.1 hp']
      exact hstays.2
  obtain ⟨ticketA, ticketB, -, -, havail, htickets⟩ := relay_tickets Meeting.crypto Meeting.params
    relay (Meeting.key 9) dep drawnID _ hdrawn hlen (Meeting.key 3) (Meeting.key 3) (Meeting.key 2)
    (Meeting.key 2) (keyPair 3) (keyPair 2) events [] 1 2 0 1 (Meeting.accepted 3 (lit "idB") 100)
    (Meeting.accepted 2 (lit "idA") 101) (entry 0) (entry 1) (101 * 1000000000) (101 * 1000000000)
    hclock hclock (by decide +kernel) (by decide +kernel) rfl rfl rfl (by decide +kernel)
    (by decide +kernel) (by decide +kernel) hbucket
  refine ⟨ticketA, ticketB, havail (by decide +kernel), fun tA htA => ?_⟩
  obtain ⟨tB, htB, hsid, -, -, -, hforwards, -⟩ := htickets tA htA
  exact ⟨tB, htB, hsid, hforwards⟩

end BuddyNet
