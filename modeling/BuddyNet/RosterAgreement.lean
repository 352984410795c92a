import BuddyNet.Buddy.Register
import BuddyNet.Buddy.Roster
import BuddyNet.Go.Sort
import BuddyNet.Handshake.Entries

/-!
# Server and buddy agree on the roster

The server signs a roster that it renders from its map, and the buddy verifies the signature over
bytes it rebuilds from what it decoded, copied and sorted. The two are the same bytes, and what the
server signs passes the checks that the buddy makes for itself (`roster_agreement`).

* `Acceptable`: an entry that the buddy decodes, leaves in place and accepts;
* `acceptable_entry`: every record that can be presented is rendered to one;
* `pairRegister_roster`, `replyTo_answer`: what the server answers;
* `reply_understood`, `hear_understood`: what the buddy makes of the answer.
-/

namespace BuddyNet

open Handshake Buddy Handshake.Registry List Go

variable {cr : Crypto} {srv : Server} {ids : ℕ → Bytes}

/-! ### Entries -/

/-- An endpoint that a request came from passes the buddy's check. -/
theorem checkCandidate_candidateOf {src : UDPAddr} (h : src.Unicast) :
    checkCandidate (candidateOf src) = true := by
  have hread : parseAddrPort (candidateOf src).addr = some (src.addr, src.port) :=
    parseAddrPort_string h.toLiteral
  rw [checkCandidate, hread]
  simp [unmap_addr, h.port, h.specified, h.unicast]

theorem utf8_of_validName {s : Bytes} (h : validName s = true) : Utf8 s := by
  refine utf8_of_ascii fun c hc => ?_
  show c.toNat < 0x80
  simp only [validName, Bool.and_eq_true, all_eq_true] at h
  have hchar := h.1.1.1.2 c hc
  simp only [isNameChar, Bool.or_eq_true, Bool.and_eq_true, decide_eq_true_eq, beq_iff_eq] at hchar
  rcases hchar with (hchar | hchar) | rfl
  · omega
  · omega
  · decide

/-- An entry that the buddy decodes, leaves in place and accepts. -/
structure Acceptable (cr : Crypto) (p : Peer) : Prop where
  textual : PeerTextual p
  canonical : canonicalPeers [p] = [p]
  checked : checkRosterPeer p = true
  vip : ∃ pub, decodePubKey p.pubkey = some pub ∧ checkPartnerVIP cr p pub = .ok ()

/-- The candidates of a record are in the order in which the buddy puts them. -/
theorem sortedCandidates_sorted {p : HsPeer} (h : ∀ {k c}, p.cands.lookup k = some c → c.addr = k) :
    (sortedCandidates p.cands).insertionSort (fun a b => strLt a.addr b.addr = true) =
      sortedCandidates p.cands := by
  have hkeys : (p.cands.entries.map (·.2)).map (·.addr) = p.cands.keys := by
    rw [map_map]
    refine map_congr_left fun e he => ?_
    exact h (AList.mem_lookup_iff.2 he)
  exact insertionSort_sorted (hkeys ▸ p.cands.keys_nodup)

/-- **A record that can be presented is rendered to an acceptable entry.** -/
theorem acceptable_entry {p : HsPeer} (h : Presentable cr p) {relay : Bytes}
    (hrelay : Utf8 relay) (hlen : relay.length ≤ maxFieldLen) :
    Acceptable cr (p.asProtocolPeer relay) := by
  obtain ⟨pub, hpub, hvip⟩ := h.vip
  have hcands : ∀ c ∈ sortedCandidates p.cands, ∃ src : UDPAddr, src.Unicast ∧
      c = candidateOf src := by
    intro c hc
    obtain ⟨k, hk⟩ := mem_sortedCandidates hc
    exact h.endpoints hk
  have hlength : (sortedCandidates p.cands).length = p.cands.keys.length := by
    rw [sortedCandidates, length_insertionSort, length_map]
    exact (length_map _).symm
  refine ⟨⟨utf8_of_validField h.id, h.pubkey, ?_, ?_, ?_, hrelay, h.seen⟩, ?_, ?_, pub, hpub, ?_⟩
  · show Utf8 p.virtualIP
    rw [hvip]
    exact utf8_dotted _
  · rcases h.name with hname | hname
    · show Utf8 p.name
      rw [hname]
      exact .nil
    · exact utf8_of_validName hname
  · intro c hc
    obtain ⟨src, hsrc, rfl⟩ := hcands c hc
    exact utf8_string hsrc.toLiteral hsrc.zone_text
  · have hsorted := sortedCandidates_sorted h.addressed
    simp only [canonicalPeers, HsPeer.asProtocolPeer, map_cons, map_nil, hsorted,
      insertionSort_cons, insertionSort_nil, orderedInsert_nil]
  · have hall : (sortedCandidates p.cands).all checkCandidate = true := by
      refine all_eq_true.2 fun c hc => ?_
      obtain ⟨src, hsrc, rfl⟩ := hcands c hc
      exact checkCandidate_candidateOf hsrc
    have hfew : (sortedCandidates p.cands).length ≤ maxRosterCands := hlength ▸ h.few_cands
    simp [checkRosterPeer, HsPeer.asProtocolPeer, h.id, h.name, hall, hfew, hlen]
  · exact if_pos (Or.inr hvip)

/-! ### Replies -/

/-- A ticket is two base64url texts. -/
theorem issueTicket_textual {P : Params} {r : Registry} {drawn : ℕ} {now : ℤ} {m : Message}
    {partner : Peer} : ∀ x ∈ (issueTicket cr P ids r drawn now m partner).2.2, TicketTextual x := by
  intro x hx
  unfold issueTicket at hx
  split_ifs at hx
  · cases hx
  · cases hx
  · cases hx
  all_goals
    dsimp only at hx
    split at hx
    · cases hx
    · split at hx
      · cases hx
      · cases hx
        exact ⟨utf8_of_plain (plain_encode _), utf8_of_plain (plain_encode _)⟩

/-- A roster is empty, or it renders one record in use. -/
theorem pairRegister_roster {s s' : Shared} {t : Clock} {o : Orders} {src : UDPAddr} {m : Message}
    {peers : List Peer} (h : pairRegister cr srv s t o src m = (s', some peers)) :
    peers = [] ∨ ∃ tok id ref, s'.reg.Holds tok id ref ∧
      peers = [(s'.reg.heap ref).asProtocolPeer srv.params.endpoint] := by
  unfold pairRegister at h
  dsimp only at h
  split_ifs at h
  · cases h
  · cases h
  · split at h
    · cases h
    · next m' hvip =>
      split at h
      · cases h
      · cases h
        exact Or.inl rfl
      · next reg own partner hup =>
        cases h
        have hlatch := notePaired_latchOnly reg m'.token
        obtain ⟨id, -, hholds⟩ := (upsert_spec hup).partner_holds rfl
        exact Or.inr ⟨m'.token, id, partner, hlatch.holds_iff.2 hholds, rfl⟩

/-- The bytes that the server signs. -/
def signedBytes (t : Clock) (m : Message) (peers : List Peer) : Bytes :=
  peerListPayload m.token (t.sign / 1000000000) peers

/-- The reply to a registration carries the roster, its signature and at most a ticket. -/
theorem replyTo_answer (s : Shared) (t : Clock) (m : Message) (peers : List Peer) :
    ∃ ticket, (∀ x ∈ ticket, TicketTextual x) ∧ (replyTo cr srv ids s t m peers).2 =
      .answer (peerListReply (t.sign / 1000000000) peers
        (stdEncoding.encode (cr.ed25519Sign srv.params.priv (signedBytes t m peers))) ticket) := by
  cases peers with
  | nil =>
    refine ⟨none, ?_, rfl⟩
    rintro x ⟨⟩
  | cons partner rest => exact ⟨_, issueTicket_textual, rfl⟩

/-- A roster of at most one acceptable entry is in canonical order. -/
theorem canonicalPeers_eq {peers : List Peer} (hone : peers.length ≤ 1)
    (h : ∀ p ∈ peers, Acceptable cr p) : canonicalPeers peers = peers := by
  match peers, hone with
  | [], _ => rfl
  | [p], _ => exact (h p mem_cons_self).canonical

/-- The buddy rebuilds the bytes that were signed, and the signature verifies over them. -/
theorem reply_understood {serverPub : Bytes} (hkeys : cr.KeyPair serverPub srv.params.priv)
    {s : Shared} {t : Clock} (hsign : Unix64 t.sign) {m : Message} {peers : List Peer}
    (hone : peers.length ≤ 1) (hpeers : ∀ p ∈ peers, Acceptable cr p) :
    ∃ ticket body r, (replyTo cr srv ids s t m peers).2 = .answer body ∧
      body = peerListReply (t.sign / 1000000000) peers
        (stdEncoding.encode (cr.ed25519Sign srv.params.priv (signedBytes t m peers))) ticket ∧
      readMessage body = some r ∧ r.typ = lit "PEER_LIST" ∧ r.ver = version ∧ r.peers = peers ∧
      peerListPayload m.token r.ts (canonicalPeers r.peers) = signedBytes t m peers ∧
      rosterSigned cr serverPub m.token r = true := by
  obtain ⟨ticket, hticket, hreply⟩ := @replyTo_answer cr srv ids s t m peers
  have hread := @readMessage_peerListReply _ _
    (stdEncoding.encode (cr.ed25519Sign srv.params.priv (signedBytes t m peers))) _ hsign
    (fun p hp => (hpeers p hp).textual) (Registration.utf8_stdEncode _) hticket
  have hsame : peerListPayload m.token (t.sign / 1000000000) (canonicalPeers peers) =
      signedBytes t m peers := by
    rw [canonicalPeers_eq hone hpeers]
    rfl
  refine ⟨ticket, _, _, hreply, rfl, hread, rfl, rfl, rfl, hsame, ?_⟩
  rw [rosterSigned, Encoding.decode_encode (Or.inl rfl)]
  rw [hsame]
  exact hkeys.verifies _

/-- What the buddy's loop makes of a reply that it has decoded, while it is fresh. -/
theorem hear_understood {serverPub rendezvous body : Bytes} {r : PeerList} {now : ℤ}
    (hread : readMessage body = some r) (htyp : r.typ = lit "PEER_LIST") (hver : r.ver = version)
    (hsigned : rosterSigned cr serverPub rendezvous r = true)
    (hnow : |now - r.ts * 1000000000| ≤ 60 * 1000000000)
    (hpeers : ∀ p ∈ canonicalPeers r.peers, checkRosterPeer p = true) :
    hear cr serverPub rendezvous now body =
      match canonicalPeers r.peers with
      | [] => .waiting false
      | p :: _ => .partner p r.ticket := by
  obtain ⟨hlow, hhigh⟩ := abs_le.1 hnow
  have hfresh : ¬(60 * 1000000000 < now - r.ts * 1000000000 ∨
      now - r.ts * 1000000000 < -60 * 1000000000) := by omega
  rw [hear, hread]
  dsimp only
  rw [if_neg (not_not.2 htyp), if_neg (not_not.2 hver), hsigned, Bool.not_true,
    if_neg Bool.false_ne_true, if_neg hfresh]
  cases hroster : canonicalPeers r.peers with
  | nil => rfl
  | cons p rest =>
    dsimp only
    rw [if_pos (hpeers p (by rw [hroster]; exact mem_cons_self))]

/-- **Server and buddy agree on the roster.** Whatever requests from unicast addresses the server
has handled, a reply to the next one is decoded by the buddy to the roster that was signed, the
bytes that the buddy rebuilds are the signed ones, their signature verifies, and an entry passes the
checks that the buddy makes of it. An empty body is no reply. -/
theorem roster_agreement (cr : Crypto) (srv : Server) (ids : ℕ → Bytes) {serverPub : Bytes}
    (hkeys : cr.KeyPair serverPub srv.params.priv) (hendpoint : Utf8 srv.params.endpoint)
    (hsize : srv.params.endpoint.length ≤ 128) {start : Shared}
    (hstart : start.reg = Registry.empty) {es : List Turn} (hes : ∀ e ∈ es, e.Plausible)
    {t : Clock} {o : Orders} {req : ControlRequest} (hreq : (Turn.request t o req).Plausible)
    (hsign : Unix64 t.sign) {body : Bytes}
    (hbody : (handleControlReq cr srv ids (Machine.run (turn cr srv ids) start es) t o req).2 =
      .answer body) (hne : body ≠ []) :
    ∃ w m peers ticket r, parseRegister req.payload = some w ∧
      resolveToken srv.openCode w = some m ∧
      body = peerListReply (t.sign / 1000000000) peers
        (stdEncoding.encode (cr.ed25519Sign srv.params.priv (signedBytes t m peers))) ticket ∧
      readMessage body = some r ∧ r.typ = lit "PEER_LIST" ∧ r.ver = version ∧ r.peers = peers ∧
      peerListPayload m.token r.ts (canonicalPeers r.peers) = signedBytes t m peers ∧
      rosterSigned cr serverPub m.token r = true ∧
      (∀ p ∈ canonicalPeers r.peers, checkRosterPeer p = true ∧
        ∃ pub, decodePubKey p.pubkey = some pub ∧ checkPartnerVIP cr p pub = .ok ()) ∧
      ∀ now, |now - r.ts * 1000000000| ≤ 60 * 1000000000 →
        hear cr serverPub m.token now body =
          match canonicalPeers r.peers with
          | [] => .waiting false
          | p :: _ => .partner p r.ticket := by
  have hrecords := @presentable_run cr srv ids start hstart es hes
  generalize Machine.run (turn cr srv ids) start es = s at hrecords hbody
  rcases handleControlReq_inv cr srv ids s t o req with
    ⟨-, hempty⟩ | ⟨src, rl, w, m, hremote, hparse, -, htoken, heq⟩
  · exact absurd (hempty body hbody) hne
  have hpair := presentable_pairRegister (s := { s with rl := rl }) hrecords hparse htoken
    (hreq.1 src hremote) hreq.2 o
  rw [heq] at hbody
  generalize hres : pairRegister cr srv { s with rl := rl } t o src m = res at hpair hbody
  obtain ⟨s', _ | peers⟩ := res
  · cases hbody
    exact absurd rfl hne
  -- the roster has at most one entry, which renders a record in use
  have hroster : peers.length ≤ 1 ∧ ∀ p ∈ peers, Acceptable cr p := by
    rcases pairRegister_roster hres with rfl | ⟨tok, id, ref, hholds, rfl⟩
    · exact ⟨Nat.zero_le _, fun p hp => nomatch hp⟩
    · refine ⟨le_rfl, fun p hp => ?_⟩
      rw [mem_singleton.1 hp]
      exact acceptable_entry (hpair tok id ref hholds) hendpoint hsize
  obtain ⟨ticket, body', r, hreply, htext, hread, htyp, hver, hpeers, hsame, hsigned⟩ :=
    @reply_understood cr srv ids serverPub hkeys s' t hsign m peers hroster.1 hroster.2
  obtain rfl : body' = body := by
    rw [hreply] at hbody
    exact Reply.answer.inj hbody
  have hchecks : ∀ p ∈ canonicalPeers r.peers, checkRosterPeer p = true ∧
      ∃ pub, decodePubKey p.pubkey = some pub ∧ checkPartnerVIP cr p pub = .ok () := by
    intro p hp
    rw [hpeers, canonicalPeers_eq hroster.1 hroster.2] at hp
    exact ⟨(hroster.2 p hp).checked, (hroster.2 p hp).vip⟩
  exact ⟨w, m, peers, ticket, r, hparse, htoken, htext, hread, htyp, hver, hpeers, hsame, hsigned,
    hchecks, fun now hnow => hear_understood hread htyp hver hsigned hnow fun p hp =>
      (hchecks p hp).1⟩

namespace TwoBuddies

open Handshake.Sample (home registration drawnID)

/-- The server signs with key 9. -/
def server : Server :=
  { FirstContact.server with params := { Handshake.Sample.params with priv := Meeting.key 9 } }

/-- A registration by a key, over a connection that was authenticated with it. -/
def request (k : UInt8) (id : Bytes) : ControlRequest where
  remote := some (home k)
  clientKey := Meeting.key k
  payload := Handshake.Sample.payload (registration k id 100 [])

/-- The first buddy has registered. -/
def turns : List Turn := [.request FirstContact.clock ⟨[], [], []⟩ (request 2 (lit "idA"))]

/-- The server's answer to the second one. -/
def reply : Reply :=
  (handleControlReq Meeting.crypto server drawnID
    (Machine.run (turn Meeting.crypto server drawnID) FirstContact.start turns) FirstContact.clock
    ⟨[], [], []⟩ (request 3 (lit "idB"))).2

/-- Its bytes. -/
def body : Bytes :=
  match reply with
  | .answer body => body
  | _ => []

theorem honest_entry (k : UInt8) (id : Bytes) :
    (Turn.request FirstContact.clock ⟨[], [], []⟩ (request k id)).Plausible := by
  refine ⟨?_, by constructor <;> decide⟩
  rintro src ⟨⟩
  have hport : (40000 : UInt16) ≠ 0 := by decide
  exact ⟨⟨Or.inl rfl, fun h => absurd rfl h⟩, .nil, hport, rfl, rfl⟩

end TwoBuddies

open TwoBuddies in
/-- The second of two buddies is given a roster that it accepts. -/
theorem roster_agreement_two : ∃ r, readMessage body = some r ∧ r.peers.length = 1 ∧
    rosterSigned Meeting.crypto (Meeting.key 9) (lit "token") r = true ∧
    ∀ p ∈ canonicalPeers r.peers, checkRosterPeer p = true := by
  have hes : ∀ e ∈ turns, e.Plausible := by
    intro e he
    rw [mem_singleton.1 he]
    exact honest_entry 2 _
  have hendpoint : Utf8 server.params.endpoint :=
    show Utf8 (lit "relay:1") from utf8_of_all (by decide)
  have hreply : reply = .answer body ∧ body ≠ [] ∧
      (readMessage body).map (·.peers.length) = some 1 := by decide +kernel
  obtain ⟨w, m, peers, ticket, r, -, htoken, -, hread, -, -, -, -, hsigned, hchecks, -⟩ :=
    roster_agreement Meeting.crypto server Handshake.Sample.drawnID (Meeting.keyPair 9) hendpoint
      (by decide) (rfl : FirstContact.start.reg = Registry.empty) hes (honest_entry 3 (lit "idB"))
      (by constructor <;> decide) hreply.1 hreply.2.1
  have hone := hreply.2.2
  rw [hread] at hone
  have hm : m.token = lit "token" := by
    unfold resolveToken at htoken
    split at htoken
    · next tok htok =>
      split_ifs at htoken
      rw [← Option.some.inj htoken, ← Option.some.inj htok]
    · cases htoken
  rw [hm] at hsigned
  exact ⟨r, hread, Option.some.inj hone, hsigned, fun p hp => (hchecks p hp).1⟩

end BuddyNet
