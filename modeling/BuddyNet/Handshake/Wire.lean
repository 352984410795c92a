import BuddyNet.Go.Base64Text
import BuddyNet.Handshake.Control

/-!
# Messages on the control plane

What arrives is one JSON object. `parseRegister` decodes it into the fields of a `protocol.Message`
and checks their sizes; the pairing token arrives sealed, and `resolveToken` puts the opened one in
its place. What is sent back is a `PEER_LIST`, signed over `peerListPayload`.

A message that was decoded is well-formed UTF-8 in every field, so the bytes that a client signs
(`registrationPayload`) determine all eleven fields they are made of: `registrationPayload_inj`.
-/

namespace BuddyNet.Handshake

open Go Go.Json List

/-- `protocol.Version`. -/
def version : ℤ := 8

def maxCodeEncLen : ℕ := 512

/-! ### Reading -/

/-- The JSON names of the fields of a `protocol.Message`. The opened token has none. -/
def messageFields : List Bytes :=
  [lit "type", lit "ver", lit "token_enc", lit "role", lit "id", lit "pubkey", lit "virtual_ip",
    lit "name", lit "ts", lit "nonce", lit "reg_sig", lit "code_enc", lit "epk", lit "peers",
    lit "sig", lit "ticket", lit "from", lit "to", lit "relay_endpoint", lit "relay_pubkey",
    lit "from_pubkey", lit "to_pubkey", lit "session_token"]

/-- A `protocol.Candidate`. -/
def fitsCandidate : Json → Bool := fitsStruct [(lit "addr", fitsString), (lit "v6", fitsBool)]

/-- A `protocol.Peer`. -/
def fitsPeer : Json → Bool :=
  fitsStruct [(lit "id", fitsString), (lit "pubkey", fitsString), (lit "virtual_ip", fitsString),
    (lit "name", fitsString), (lit "candidates", fitsSlice fitsCandidate),
    (lit "relay", fitsString), (lit "last_seen", fitsInt)]

/-- A `protocol.RelayTicket`. -/
def fitsTicket : Json → Bool := fitsStruct [(lit "p", fitsString), (lit "s", fitsString)]

/-- The fields that a registration has no use for. -/
def unusedFields : List (Bytes × (Json → Bool)) :=
  [(lit "peers", fitsSlice fitsPeer), (lit "sig", fitsString), (lit "ticket", fitsTicket),
    (lit "from", fitsString), (lit "to", fitsString), (lit "relay_endpoint", fitsString),
    (lit "relay_pubkey", fitsString), (lit "from_pubkey", fitsString),
    (lit "to_pubkey", fitsString), (lit "session_token", fitsString)]

/-- A message as it was decoded: its type and the sealed token besides the registration. -/
structure Wire extends Message where
  typ : Bytes
  tokenEnc : Bytes

/-- `json.Unmarshal` into a `protocol.Message`. -/
def decodeMessage (ms : List (Bytes × Json)) : Option Wire :=
  let vals := valuesOf messageFields ms
  if unusedFields.all fun f => (vals f.1).all f.2 then do
    return { typ := ← stringField (vals (lit "type"))
             ver := ← intField (vals (lit "ver"))
             tokenEnc := ← stringField (vals (lit "token_enc"))
             role := ← stringField (vals (lit "role"))
             id := ← stringField (vals (lit "id"))
             pubkey := ← stringField (vals (lit "pubkey"))
             virtualIP := ← stringField (vals (lit "virtual_ip"))
             name := ← stringField (vals (lit "name"))
             ts := ← intField (vals (lit "ts"))
             nonce := ← stringField (vals (lit "nonce"))
             regSig := ← stringField (vals (lit "reg_sig"))
             codeEnc := ← stringField (vals (lit "code_enc"))
             ephPub := ← stringField (vals (lit "epk"))
             token := [] }
  else none

/-- The size checks of `parseRegister`. -/
def Wire.wellSized (w : Wire) : Bool :=
  w.typ == lit "REGISTER" && validField w.id && w.pubkey.length ≤ maxFieldLen &&
    w.codeEnc.length ≤ maxCodeEncLen && w.nonce.length ≤ maxFieldLen &&
    w.tokenEnc != [] && w.tokenEnc.length ≤ maxCodeEncLen

def parseRegister (raw : Bytes) : Option Wire := do
  let v ← Json.parse raw
  let ms ← structMembers v
  let w ← decodeMessage ms
  if w.wellSized then some w else none

def requireV7Fields (m : Message) : Bool :=
  validNonce m.nonce && match stdEncoding.decode m.pubkey, stdEncoding.decode m.regSig with
    | some pub, some sig => pub.length == publicKeySize && sig.length == signatureSize
    | _, _ => false

def registrationMatchesTLSKey (m : Message) (clientKey : Bytes) : Bool :=
  clientKey.length == publicKeySize && match stdEncoding.decode m.pubkey with
    | some claimed => claimed.length == publicKeySize && clientKey == claimed
    | none => false

/-- `resolveToken`; `openCode` is `bcrypto.OpenCode` with the server's key. -/
def resolveToken (openCode : Bytes → Option Bytes) (w : Wire) : Option Message :=
  match openCode w.tokenEnc with
  | some tok => if validField tok then some { w.toMessage with token := tok } else none
  | none => none

/-! ### Writing -/

/-- `json.Marshal` of a candidate. -/
def Candidate.json (c : Candidate) : Bytes :=
  object ([(lit "addr", quote c.addr)] ++ if c.v6 then [(lit "v6", lit "true")] else [])

/-- `json.Marshal` of a roster entry. -/
def Peer.json (p : Peer) : Bytes :=
  object ([(lit "id", quote p.id), (lit "pubkey", quote p.pubkey),
      (lit "virtual_ip", quote p.virtualIP)] ++
    optString (lit "name") p.name ++
    (if p.candidates = [] then [] else
      [(lit "candidates", array (p.candidates.map Candidate.json))]) ++
    optString (lit "relay") p.relay ++
    if p.lastSeen = 0 then [] else [(lit "last_seen", formatInt p.lastSeen)])

/-- `PeerListPayload`; an empty roster is a `nil` slice. -/
def peerListPayload (token : Bytes) (ts : ℤ) (peers : List Peer) : Bytes :=
  object [(lit "token", quote token), (lit "ts", formatInt ts),
    (lit "peers", if peers = [] then lit "null" else array (peers.map Peer.json))]

/-- `json.Marshal` of a ticket. -/
def Issued.json (t : Issued) : Bytes := object [(lit "p", quote t.wire), (lit "s", quote t.sig)]

/-- `json.Marshal` of the reply that `signedPeerList` builds, with its ticket. -/
def peerListReply (ts : ℤ) (peers : List Peer) (sig : Bytes) (ticket : Option Issued) : Bytes :=
  object ([(lit "type", quote (lit "PEER_LIST")), (lit "ver", formatInt version)] ++
    (if ts = 0 then [] else [(lit "ts", formatInt ts)]) ++
    (if peers = [] then [] else [(lit "peers", array (peers.map Peer.json))]) ++
    optString (lit "sig") sig ++
    match ticket with
    | none => []
    | some t => [(lit "ticket", t.json)])

/-- `json.Marshal` of `replyIncompatible`. -/
def replyIncompatible : Bytes :=
  object [(lit "type", quote (lit "PEER_LIST")), (lit "ver", formatInt version)]

/-! ### What is signed -/

/-- The fields a registration signature covers. -/
structure SignedFields where
  ver : ℤ
  role : Bytes
  token : Bytes
  id : Bytes
  pubkey : Bytes
  virtualIP : Bytes
  name : Bytes
  ts : ℤ
  nonce : Bytes
  codeEnc : Bytes
  ephPub : Bytes
  deriving DecidableEq

/-- The signed fields of a message. -/
def Message.signed (m : Message) : SignedFields :=
  ⟨m.ver, m.role, m.token, m.id, m.pubkey, m.virtualIP, m.name, m.ts, m.nonce, m.codeEnc, m.ephPub⟩

/-- Every signed text is well-formed UTF-8. -/
structure Message.Textual (m : Message) : Prop where
  role : Utf8 m.role
  token : Utf8 m.token
  id : Utf8 m.id
  pubkey : Utf8 m.pubkey
  virtualIP : Utf8 m.virtualIP
  name : Utf8 m.name
  nonce : Utf8 m.nonce
  codeEnc : Utf8 m.codeEnc
  ephPub : Utf8 m.ephPub

/-- An integer member is followed by a comma. -/
theorem formatInt_member_inj {a b : ℤ} {x y : Bytes} (h : formatInt a ++ 44 :: x =
    formatInt b ++ 44 :: y) : a = b ∧ x = y := by
  have hcomma : ∀ z : Bytes, ∀ c ∈ (44 :: z).head?, isDigit c = false := by
    intro z c hc
    obtain rfl : 44 = c := Option.some.inj hc
    decide
  obtain ⟨hab, hxy⟩ := formatInt_append_inj (hcomma x) (hcomma y) h
  exact ⟨hab, (cons.inj hxy).2⟩

variable {m : Message}

/-- **The signed bytes determine the signed fields**: no other message at all has the payload of a
message that was decoded. -/
theorem registrationPayload_inj {m' : Message} (hm : m.Textual)
    (h : registrationPayload m' = registrationPayload m) : m'.signed = m.signed := by
  unfold registrationPayload at h
  simp only [append_assoc] at h
  obtain ⟨hver, h⟩ := formatInt_member_inj (append_cancel_left h)
  obtain ⟨hrole, h⟩ :=
    quote_append_inj hm.role (@append_cancel_left _ (lit "\"role\":") _ _ h)
  obtain ⟨htoken, h⟩ := quote_append_inj hm.token (append_cancel_left h)
  obtain ⟨hid, h⟩ := quote_append_inj hm.id (append_cancel_left h)
  obtain ⟨hpubkey, h⟩ := quote_append_inj hm.pubkey (append_cancel_left h)
  obtain ⟨hvip, h⟩ := quote_append_inj hm.virtualIP (append_cancel_left h)
  obtain ⟨hname, h⟩ := quote_append_inj hm.name (append_cancel_left h)
  obtain ⟨hts, h⟩ := formatInt_member_inj (append_cancel_left h)
  obtain ⟨hnonce, h⟩ :=
    quote_append_inj hm.nonce (@append_cancel_left _ (lit "\"nonce\":") _ _ h)
  obtain ⟨hcode, h⟩ := quote_append_inj hm.codeEnc (append_cancel_left h)
  obtain ⟨hepk, -⟩ := quote_append_inj hm.ephPub (append_cancel_left h)
  simp only [Message.signed, hver, hrole, htoken, hid, hpubkey, hvip, hname, hts, hnonce, hcode,
    hepk]

/-! ### Decoded messages -/

theorem utf8_of_validField {s : Bytes} (h : validField s = true) : Utf8 s :=
  utf8_of_plain fun c hc => ((validField_iff.1 h).2.2 c hc).plain

variable {openCode : Bytes → Option Bytes}

/-- A decoded message is well-formed UTF-8 in every signed field, the token that was opened for it
included. -/
theorem resolveToken_textual {raw : Bytes} {w : Wire} (hw : parseRegister raw = some w)
    (hm : resolveToken openCode w = some m) : m.Textual := by
  obtain ⟨v, hv, hw⟩ := Option.bind_eq_some_iff.1 hw
  obtain ⟨ms, hms, hw⟩ := Option.bind_eq_some_iff.1 hw
  obtain ⟨w', hdec, hw⟩ := Option.bind_eq_some_iff.1 hw
  split_ifs at hw
  cases hw
  have htext : ∀ {f d : Bytes}, stringField (valuesOf messageFields ms f) = some d → Utf8 d :=
    fun hd => stringField_utf8 hv hms hd
  unfold decodeMessage at hdec
  dsimp only at hdec
  split_ifs at hdec
  obtain ⟨typ, -, hdec⟩ := Option.bind_eq_some_iff.1 hdec
  obtain ⟨ver, -, hdec⟩ := Option.bind_eq_some_iff.1 hdec
  obtain ⟨tokenEnc, -, hdec⟩ := Option.bind_eq_some_iff.1 hdec
  obtain ⟨role, hrole, hdec⟩ := Option.bind_eq_some_iff.1 hdec
  obtain ⟨id, hid, hdec⟩ := Option.bind_eq_some_iff.1 hdec
  obtain ⟨pubkey, hpubkey, hdec⟩ := Option.bind_eq_some_iff.1 hdec
  obtain ⟨vip, hvip, hdec⟩ := Option.bind_eq_some_iff.1 hdec
  obtain ⟨name, hname, hdec⟩ := Option.bind_eq_some_iff.1 hdec
  obtain ⟨ts, -, hdec⟩ := Option.bind_eq_some_iff.1 hdec
  obtain ⟨nonce, hnonce, hdec⟩ := Option.bind_eq_some_iff.1 hdec
  obtain ⟨regSig, -, hdec⟩ := Option.bind_eq_some_iff.1 hdec
  obtain ⟨codeEnc, hcode, hdec⟩ := Option.bind_eq_some_iff.1 hdec
  obtain ⟨ephPub, hepk, hdec⟩ := Option.bind_eq_some_iff.1 hdec
  cases hdec
  unfold resolveToken at hm
  split at hm
  · split_ifs at hm with htok
    cases hm
    exact ⟨htext hrole, utf8_of_validField htok, htext hid, htext hpubkey,
      htext hvip, htext hname, htext hnonce, htext hcode, htext hepk⟩
  · cases hm

theorem resolveToken_id {raw : Bytes} {w : Wire}
    (hw : parseRegister raw = some w) (hm : resolveToken openCode w = some m) :
    validField m.id = true := by
  obtain ⟨v, -, hw⟩ := Option.bind_eq_some_iff.1 hw
  obtain ⟨ms, -, hw⟩ := Option.bind_eq_some_iff.1 hw
  obtain ⟨w', -, hw⟩ := Option.bind_eq_some_iff.1 hw
  split_ifs at hw with hsize
  cases hw
  have hid : validField w.id = true := by
    simp only [Wire.wellSized, Bool.and_eq_true] at hsize
    exact hsize.1.1.1.1.1.2
  unfold resolveToken at hm
  split at hm
  · split_ifs at hm
    cases hm
    exact hid
  · cases hm

/-- The bytes of a registration whose token is sealed. -/
def Sample.payload (m : Message) : Bytes :=
  Json.object [(lit "type", Json.quote (lit "REGISTER")), (lit "ver", formatInt m.ver),
    (lit "token_enc", Json.quote (lit "sealed")), (lit "role", Json.quote m.role),
    (lit "id", Json.quote m.id), (lit "pubkey", Json.quote m.pubkey),
    (lit "ts", formatInt m.ts), (lit "nonce", Json.quote m.nonce),
    (lit "reg_sig", Json.quote m.regSig), (lit "epk", Json.quote m.ephPub)]

end BuddyNet.Handshake
