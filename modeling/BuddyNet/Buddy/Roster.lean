import BuddyNet.Buddy.Paths
import BuddyNet.Buddy.RelayCred
import BuddyNet.Handshake.WireText

/-!
# What a buddy makes of a reply

The part of `buddyRegister` that reads one reply of the server: the message is decoded, its roster
is put into the order the server signed (`canonicalPeers`), the signature is checked over the bytes
rebuilt from it, and the first entry has to pass `checkRosterPeer`.

`readMessage_peerListReply`: a reply is decoded to the roster it was made of.
-/

namespace BuddyNet

open Go.Json Handshake List

/-- The ticket of a reply, as it travels. -/
def sent (t : Issued) : Buddy.RelayTicket := ⟨t.wire, t.sig⟩

namespace Buddy

/-! ### Decoding -/

/-- The JSON names of the fields of a `protocol.Candidate`. -/
def candidateFields : List Bytes := [lit "addr", lit "v6"]

/-- `json.Unmarshal` into a `protocol.Candidate`. -/
def decodeCandidate (v : Go.Json) : Option Candidate := do
  let ms ← structMembers v
  let vals := valuesOf candidateFields ms
  return { addr := ← stringField (vals (lit "addr"))
           v6 := ← boolField (vals (lit "v6")) }

/-- The JSON names of the fields of a `protocol.Peer`. -/
def peerFields : List Bytes :=
  [lit "id", lit "pubkey", lit "virtual_ip", lit "name", lit "candidates", lit "relay",
    lit "last_seen"]

/-- `json.Unmarshal` into a `protocol.Peer`. -/
def decodePeer (v : Go.Json) : Option Peer := do
  let ms ← structMembers v
  let vals := valuesOf peerFields ms
  return { id := ← stringField (vals (lit "id"))
           pubkey := ← stringField (vals (lit "pubkey"))
           virtualIP := ← stringField (vals (lit "virtual_ip"))
           name := ← stringField (vals (lit "name"))
           candidates := ← sliceField decodeCandidate (vals (lit "candidates"))
           relay := ← stringField (vals (lit "relay"))
           lastSeen := ← intField (vals (lit "last_seen")) }

/-- The JSON names of the fields of a `protocol.RelayTicket`. -/
def ticketFields : List Bytes := [lit "p", lit "s"]

/-- `json.Unmarshal` into a `*protocol.RelayTicket`; `null` stores no ticket. -/
def ticketField (vs : List Go.Json) : Option (Option RelayTicket) :=
  vs.foldlM (fun _ v => match v with
    | .null => some none
    | .obj ms => do
      let vals := valuesOf ticketFields ms
      return some { payload := ← stringField (vals (lit "p"))
                    sig := ← stringField (vals (lit "s")) }
    | _ => none) none

/-- The fields of a `protocol.Message` that a `PEER_LIST` is made of. -/
structure PeerList where
  typ : Bytes
  ver : ℤ
  ts : ℤ
  peers : List Peer
  sig : Bytes
  ticket : Option RelayTicket

/-- The fields that a reply has no use for; all of them are strings. -/
def unreadFields : List Bytes :=
  [lit "token_enc", lit "role", lit "id", lit "pubkey", lit "virtual_ip", lit "name", lit "nonce",
    lit "reg_sig", lit "code_enc", lit "epk", lit "from", lit "to", lit "relay_endpoint",
    lit "relay_pubkey", lit "from_pubkey", lit "to_pubkey", lit "session_token"]

/-- `json.Unmarshal` of a reply into a `protocol.Message`. -/
def readMessage (resp : Bytes) : Option PeerList := do
  let v ← Go.Json.parse resp
  let ms ← structMembers v
  let vals := valuesOf messageFields ms
  if unreadFields.all fun f => (vals f).all fitsString then do
    return { typ := ← stringField (vals (lit "type"))
             ver := ← intField (vals (lit "ver"))
             ts := ← intField (vals (lit "ts"))
             peers := ← sliceField decodePeer (vals (lit "peers"))
             sig := ← stringField (vals (lit "sig"))
             ticket := ← ticketField (vals (lit "ticket")) }
  else none

/-! ### Reading -/

def canonicalPeers (ps : List Peer) : List Peer :=
  (ps.map fun p => { p with
      candidates := p.candidates.insertionSort fun a b => Go.strLt a.addr b.addr = true
    }).insertionSort fun p q => Go.strLt p.id q.id = true

/-- The signature of a reply verifies over the bytes that the buddy rebuilds. -/
def rosterSigned (cr : Crypto) (serverPub rendezvous : Bytes) (r : PeerList) : Bool :=
  match stdEncoding.decode r.sig with
  | none => false
  | some sig =>
    cr.ed25519Verify serverPub (peerListPayload rendezvous r.ts (canonicalPeers r.peers)) sig

/-- What a reply comes to. -/
inductive Heard where
  /-- It is not a `PEER_LIST`. -/
  | nothing
  | incompatible (ver : ℤ)
  | badSignature
  /-- The roster is empty, or too old or too new to be used. -/
  | waiting (skewed : Bool)
  | invalidRoster
  | partner (p : Peer) (ticket : Option RelayTicket)

/-- One reply in the loop of `buddyRegister`. -/
def hear (cr : Crypto) (serverPub rendezvous : Bytes) (now : ℤ) (resp : Bytes) : Heard :=
  match readMessage resp with
  | none => .nothing
  | some r =>
    if r.typ ≠ lit "PEER_LIST" then .nothing
    else if r.ver ≠ version then .incompatible r.ver
    else if !rosterSigned cr serverPub rendezvous r then .badSignature
    else
      let d := now - r.ts * 1000000000
      if 60 * 1000000000 < d ∨ d < -60 * 1000000000 then .waiting true
      else match canonicalPeers r.peers with
        | [] => .waiting false
        | p :: _ => if checkRosterPeer p then .partner p r.ticket else .invalidRoster

/-! ### The text of a roster -/

/-- The fields of a candidate as they are written. -/
def candidateText (c : Candidate) : Fields :=
  [(lit "addr", stringMember c.addr), (lit "v6", if c.v6 then trueMember else none)]

theorem candidate_json_eq (c : Candidate) : c.json = object (candidateText c).texts := by
  simp only [Candidate.json, candidateText, Fields.texts_stringMember, Fields.texts_optTrue,
    Fields.texts_nil, append_nil, singleton_append]

/-- The value a candidate is read as. -/
def candidateValue (c : Candidate) : Go.Json := .obj (candidateText c).values

theorem candidate_reads {c : Candidate} (h : Go.Utf8 c.addr) :
    Reads c.json (candidateValue c) 1 := by
  rw [candidate_json_eq]
  refine Fields.reads rfl ?_
  simp only [candidateText, forall_mem_cons]
  refine ⟨reads_stringMember h _, ?_, nofun⟩
  split_ifs
  · rintro p hp
    cases hp
    exact reads_true
  · exact nofun

theorem decodeCandidate_value (c : Candidate) : decodeCandidate (candidateValue c) = some c := by
  have hsub : (candidateText c).map (·.1) ⊆ candidateFields := List.Subset.refl _
  have hnodup : ((candidateText c).map (·.1)).Nodup := by
    show candidateFields.Nodup
    decide
  have haddr : stringField (valuesOf candidateFields (candidateText c).values (lit "addr")) =
      some c.addr := by
    rw [valuesOf_mem hsub hnodup mem_cons_self, stringField_stringMember]
  have hv6 : boolField (valuesOf candidateFields (candidateText c).values (lit "v6")) =
      some c.v6 := by
    rw [valuesOf_mem hsub hnodup (mem_cons_of_mem _ mem_cons_self), boolField_optTrue]
  simp only [decodeCandidate, candidateValue, structMembers, Option.bind_eq_bind, Option.bind_some,
    haddr, hv6]
  rfl

/-- The texts of an entry are well-formed UTF-8 and its time stamp has 64 bits. -/
structure PeerTextual (p : Peer) : Prop where
  id : Go.Utf8 p.id
  pubkey : Go.Utf8 p.pubkey
  virtualIP : Go.Utf8 p.virtualIP
  name : Go.Utf8 p.name
  candidates : ∀ c ∈ p.candidates, Go.Utf8 c.addr
  relay : Go.Utf8 p.relay
  lastSeen : -2 ^ 63 ≤ p.lastSeen ∧ p.lastSeen < 2 ^ 63

/-- The fields of an entry as they are written. -/
def peerText (p : Peer) : Fields :=
  [(lit "id", stringMember p.id), (lit "pubkey", stringMember p.pubkey),
    (lit "virtual_ip", stringMember p.virtualIP),
    (lit "name", if p.name = [] then none else stringMember p.name),
    (lit "candidates", if p.candidates = [] then none
      else sliceMember Candidate.json candidateValue p.candidates),
    (lit "relay", if p.relay = [] then none else stringMember p.relay),
    (lit "last_seen", if p.lastSeen = 0 then none else intMember p.lastSeen)]

theorem peer_json_eq (p : Peer) : p.json = object (peerText p).texts := by
  simp only [Peer.json, peerText, Fields.texts_stringMember, Fields.texts_optString,
    Fields.texts_optSlice, Fields.texts_optInt, Fields.texts_nil, append_nil,
    cons_append, nil_append, append_assoc]

/-- The value an entry is read as. -/
def peerValue (p : Peer) : Go.Json := .obj (peerText p).values

theorem PeerTextual.reads {p : Peer} (h : PeerTextual p) : Reads p.json (peerValue p) 3 := by
  rw [peer_json_eq]
  refine Fields.reads rfl ?_
  simp only [peerText, forall_mem_cons]
  exact ⟨reads_stringMember h.id _, reads_stringMember h.pubkey _,
    reads_stringMember h.virtualIP _, reads_omitted _ (reads_stringMember h.name _),
    reads_omitted _ (reads_sliceMember fun c hc => candidate_reads (h.candidates c hc)),
    reads_omitted _ (reads_stringMember h.relay _), reads_omitted _ (reads_intMember _ _),
    nofun⟩

theorem PeerTextual.decodePeer_value {p : Peer} (h : PeerTextual p) :
    decodePeer (peerValue p) = some p := by
  have hsub : (peerText p).map (·.1) ⊆ peerFields := List.Subset.refl _
  have hnodup : ((peerText p).map (·.1)).Nodup := by
    show peerFields.Nodup
    decide
  have hstring : ∀ name s, (name, stringMember s) ∈ peerText p →
      stringField (valuesOf peerFields (peerText p).values name) = some s := by
    intro name s hmem
    rw [valuesOf_mem hsub hnodup hmem, stringField_stringMember]
  have hopt : ∀ name s, (name, if s = [] then none else stringMember s) ∈ peerText p →
      stringField (valuesOf peerFields (peerText p).values name) = some s := by
    intro name s hmem
    rw [valuesOf_mem hsub hnodup hmem, stringField_omitted]
  have hcands : sliceField decodeCandidate
      (valuesOf peerFields (peerText p).values (lit "candidates")) = some p.candidates := by
    rw [valuesOf_mem hsub hnodup (o := if p.candidates = [] then none
      else sliceMember Candidate.json candidateValue p.candidates) (by simp [peerText]),
      sliceField_omitted fun c _ => decodeCandidate_value c]
  have hseen : intField (valuesOf peerFields (peerText p).values (lit "last_seen")) =
      some p.lastSeen := by
    rw [valuesOf_mem hsub hnodup (o := if p.lastSeen = 0 then none else intMember p.lastSeen)
      (by simp [peerText]), intField_omitted h.lastSeen.1 h.lastSeen.2]
  simp only [decodePeer, peerValue, structMembers, Option.bind_eq_bind, Option.bind_some,
    hstring (lit "id") p.id (by simp [peerText]),
    hstring (lit "pubkey") p.pubkey (by simp [peerText]),
    hstring (lit "virtual_ip") p.virtualIP (by simp [peerText]),
    hopt (lit "name") p.name (by simp [peerText]), hcands,
    hopt (lit "relay") p.relay (by simp [peerText]), hseen]
  rfl

/-- The fields of a ticket as they are written. -/
def ticketText (t : Issued) : Fields :=
  [(lit "p", stringMember t.wire), (lit "s", stringMember t.sig)]

/-- A ticket that is there. -/
def ticketMember (t : Option Issued) : Option (Bytes × Go.Json) :=
  t.map fun t => (t.json, .obj (ticketText t).values)

/-- A ticket travels as text. -/
def TicketTextual (t : Issued) : Prop := Go.Utf8 t.wire ∧ Go.Utf8 t.sig

theorem reads_ticketMember {t : Option Issued} (h : ∀ x ∈ t, TicketTextual x) :
    ∀ p ∈ ticketMember t, Reads p.1 p.2 1 := by
  rintro p hp
  obtain ⟨x, hx, rfl⟩ := Option.map_eq_some_iff.1 hp
  have hjson : x.json = object (ticketText x).texts := rfl
  rw [hjson]
  refine Fields.reads rfl ?_
  simp only [ticketText, forall_mem_cons]
  exact ⟨reads_stringMember (h x hx).1 _, reads_stringMember (h x hx).2 _, nofun⟩

theorem ticketField_member (t : Option Issued) :
    ticketField ((ticketMember t).map (·.2)).toList = some (t.map sent) := by
  cases t <;> rfl

/-- The fields of a reply as they are written. -/
def replyText (ts : ℤ) (peers : List Peer) (sig : Bytes) (ticket : Option Issued) : Fields :=
  [(lit "type", stringMember (lit "PEER_LIST")), (lit "ver", intMember version),
    (lit "ts", if ts = 0 then none else intMember ts),
    (lit "peers", if peers = [] then none else sliceMember Peer.json peerValue peers),
    (lit "sig", if sig = [] then none else stringMember sig), (lit "ticket", ticketMember ticket)]

theorem peerListReply_eq (ts : ℤ) (peers : List Peer) (sig : Bytes) (ticket : Option Issued) :
    peerListReply ts peers sig ticket = object (replyText ts peers sig ticket).texts := by
  cases ticket with
  | none =>
    have hnone : Fields.texts [(lit "ticket", ticketMember none)] = [] := rfl
    simp only [peerListReply, replyText, Fields.texts_stringMember, Fields.texts_intMember,
      Fields.texts_optInt, Fields.texts_optSlice, Fields.texts_optString, hnone, cons_append,
      nil_append, append_assoc]
  | some t =>
    have hsome : Fields.texts [(lit "ticket", ticketMember (some t))] =
        [(lit "ticket", t.json)] := rfl
    simp only [peerListReply, replyText, Fields.texts_stringMember, Fields.texts_intMember,
      Fields.texts_optInt, Fields.texts_optSlice, Fields.texts_optString, hsome, cons_append,
      nil_append, append_assoc]

/-- **A reply is decoded to what it was made of.** -/
theorem readMessage_peerListReply {ts : ℤ} {peers : List Peer} {sig : Bytes}
    {ticket : Option Issued} (hts : -2 ^ 63 ≤ ts ∧ ts < 2 ^ 63)
    (hpeers : ∀ p ∈ peers, PeerTextual p)
    (hsig : Go.Utf8 sig) (hticket : ∀ t ∈ ticket, TicketTextual t) :
    readMessage (peerListReply ts peers sig ticket) =
      some ⟨lit "PEER_LIST", version, ts, peers, sig, ticket.map sent⟩ := by
  have htype : Go.Utf8 (lit "PEER_LIST") := Go.utf8_of_all (by decide)
  have hread : Reads (object (replyText ts peers sig ticket).texts)
      (.obj (replyText ts peers sig ticket).values) 5 := by
    refine Fields.reads rfl ?_
    simp only [replyText, forall_mem_cons]
    exact ⟨reads_stringMember htype _, reads_intMember _ _, reads_omitted _ (reads_intMember _ _),
      reads_omitted _ (reads_sliceMember fun p hp => (hpeers p hp).reads),
      reads_omitted _ (reads_stringMember hsig _),
      fun p hp => (reads_ticketMember hticket p hp).mono (by decide), nofun⟩
  have hnames : (replyText ts peers sig ticket).map (·.1) =
      [lit "type", lit "ver", lit "ts", lit "peers", lit "sig", lit "ticket"] := rfl
  have hsub : (replyText ts peers sig ticket).map (·.1) ⊆ messageFields := by
    rw [hnames]
    decide
  have hnodup : ((replyText ts peers sig ticket).map (·.1)).Nodup := by
    rw [hnames]
    decide
  have hunread : (unreadFields.all fun f => (valuesOf messageFields
      (replyText ts peers sig ticket).values f).all fitsString) = true := by
    refine all_eq_true.2 fun f hf => ?_
    have hall : ∀ f ∈ unreadFields,
        f ∉ [lit "type", lit "ver", lit "ts", lit "peers", lit "sig", lit "ticket"] := by decide
    rw [valuesOf_notMem hsub (hall f hf)]
    rfl
  have hmem : ∀ name o, (name, o) ∈ replyText ts peers sig ticket →
      valuesOf messageFields (replyText ts peers sig ticket).values name =
        (o.map (·.2)).toList := fun _ _ h => valuesOf_mem hsub hnodup h
  simp only [readMessage, peerListReply_eq, hread.parse (by decide), structMembers,
    Option.bind_eq_bind, Option.bind_some, hunread, if_true,
    hmem (lit "type") (stringMember (lit "PEER_LIST")) (by simp [replyText]),
    hmem (lit "ver") (intMember version) (by simp [replyText]),
    hmem (lit "ts") (if ts = 0 then none else intMember ts) (by simp [replyText]),
    hmem (lit "peers") (if peers = [] then none else sliceMember Peer.json peerValue peers)
      (by simp [replyText]),
    hmem (lit "sig") (if sig = [] then none else stringMember sig) (by simp [replyText]),
    hmem (lit "ticket") (ticketMember ticket) (by simp [replyText]), stringField_stringMember,
    intField_omitted hts.1 hts.2,
    sliceField_omitted fun p hp => (hpeers p hp).decodePeer_value, stringField_omitted,
    ticketField_member]
  rfl

end Buddy

end BuddyNet
