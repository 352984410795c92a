import BuddyNet.Library.Machine
import BuddyNet.Handshake.Registry

/-!
# Control requests

One control request of the handshake server from `pairRegister` on: the key-ownership proof and the
virtual address (`accept`), the pairing (`upsert`), the announcement (`notePaired`), the roster
entry rendered from the partner's record, and the relay ticket (`issueTicket`). Requests run
concurrently. Each critical section and the rendering is a step of its own here, so a run of the
machine is any interleaving of them with other requests and with the reaper.

The approval list and the rate limiters only refuse requests; a run that they shorten is a run here.
-/

namespace BuddyNet.Handshake

/-! ### Checks -/

/-- `regSkew`, in nanoseconds. -/
def regSkew : ℤ := 60 * 1000000000

/-- `protocol.ValidNonce`. -/
def validNonce (s : Bytes) : Bool :=
  s.length == 22 && match rawURLEncoding.decode s with
    | some raw => raw.length == 16
    | none => false

/-- `protocol.RegistrationPayload`. -/
def registrationPayload (m : Message) : Bytes :=
  lit "\x7b\"ver\":" ++ Go.formatInt m.ver ++ lit ",\"role\":" ++ Go.Json.quote m.role ++
    lit ",\"token\":" ++ Go.Json.quote m.token ++ lit ",\"id\":" ++ Go.Json.quote m.id ++
    lit ",\"pubkey\":" ++ Go.Json.quote m.pubkey ++
    lit ",\"virtual_ip\":" ++ Go.Json.quote m.virtualIP ++
    lit ",\"name\":" ++ Go.Json.quote m.name ++ lit ",\"ts\":" ++ Go.formatInt m.ts ++
    lit ",\"nonce\":" ++ Go.Json.quote m.nonce ++ lit ",\"code_enc\":" ++ Go.Json.quote m.codeEnc ++
    lit ",\"epk\":" ++ Go.Json.quote m.ephPub ++ lit "\x7d"

variable (cr : Crypto)

/-- `verifyRegistration`: the sender proves that it holds the key it registers. -/
def verifyRegistration (now : ℤ) (m : Message) : Bool :=
  let d := now - m.ts * 1000000000
  validNonce m.nonce && d ≤ regSkew && -regSkew ≤ d &&
    match stdEncoding.decode m.pubkey, stdEncoding.decode m.regSig with
    | some pub, some sig => pub.length == publicKeySize && sig.length == signatureSize &&
        cr.ed25519Verify pub (registrationPayload m) sig
    | _, _ => false

/-- `deriveVIP`: the message with the virtual address its key derives, unless it claims another. -/
def deriveVIP (m : Message) : Option Message :=
  if m.pubkey = [] then some m
  else match decodePubKey m.pubkey with
    | none => none
    | some pub =>
      let want := virtualIPString cr pub
      if m.virtualIP ≠ [] ∧ m.virtualIP ≠ want then none else some { m with virtualIP := want }

/-- The checks of `pairRegister` in front of `upsert`. -/
def accept (now : ℤ) (m : Message) : Option Message :=
  if verifyRegistration cr now m then deriveVIP cr m else none

/-! ### Tickets -/

/-- What the server is configured with. -/
structure Params where
  ttl : ℤ
  rid : Bytes := []
  endpoint : Bytes := []
  priv : Bytes := []

/-- A ticket that was issued: what it says, and the two texts that travel. -/
structure Issued where
  payload : Ticket.Payload
  wire : Bytes
  sig : Bytes
  deriving DecidableEq

/-- The leg of a buddy: the lower key is leg `a`. -/
def legOf (key partner : Bytes) : Bytes :=
  if Go.strLt partner key then Ticket.legB else Ticket.legA

variable (P : Params)

/-- `issueTicket`. `ids` are the results of successive calls of `ticket.NewID` and `drawn` counts
the calls; the ticket is refused without an error. -/
def issueTicket (ids : ℕ → Bytes) (r : Registry) (drawn : ℕ) (now : ℤ) (m : Message)
    (partner : Peer) : Registry × ℕ × Option Issued :=
  if P.rid = [] ∨ m.ephPub = [] then (r, drawn, none)
  else if ((rawURLEncoding.decode m.ephPub).map (·.length)) ≠ some publicKeySize then
    (r, drawn, none)
  else if m.pubkey = partner.pubkey then (r, drawn, none)
  else
    let drawn' := if m.token ∈ r.sids ∨ maxTokens ≤ r.sids.keys.length then drawn else drawn + 1
    match r.sidFor m.token (ids drawn) with
    | (r, none) => (r, drawn', none)
    | (r, some sid) =>
      let p : Ticket.Payload :=
        { v := Ticket.formatVersion
          rid := P.rid
          sid := sid
          leg := legOf m.pubkey partner.pubkey
          epk := m.ephPub
          iat := now / 1000000000
          exp := (now + Ticket.maxTTL * 1000000000) / 1000000000
          nonce := ids drawn' }
      match Ticket.sign cr P.priv p with
      | none => (r, drawn' + 1, none)
      | some (payload, sig) =>
        (r, drawn' + 1, some ⟨p, rawURLEncoding.encode payload, rawURLEncoding.encode sig⟩)

/-! ### The machine -/

/-- How far a request has come: paired, announced, or with its roster entry rendered. -/
inductive Stage where
  | paired (m : Message) (partner : ℕ)
  | noted (m : Message) (partner : ℕ)
  | rendered (m : Message) (partner : ℕ) (entry : Peer)

/-- The registration a request is about. -/
def Stage.msg : Stage → Message
  | paired m _ => m
  | noted m _ => m
  | rendered m _ _ => m

/-- The partner's record. -/
def Stage.partner : Stage → ℕ
  | paired _ p => p
  | noted _ p => p
  | rendered _ p _ => p

/-- A reply with a roster: the registration it answers, the entry that was signed, the ticket. -/
structure Answer where
  msg : Message
  entry : Peer
  ticket : Option Issued

/-- The registry, the requests under way, the number of ids drawn and the replies sent. -/
structure State where
  reg : Registry
  requests : AList fun _ : ℕ => Stage
  drawn : ℕ
  answers : List Answer

/-- A server that has just started. -/
def State.new : State := ⟨Registry.empty, ∅, 0, []⟩

/-- The steps of the server. A request is named by a number that is not in use. -/
inductive Event where
  | register (req : ℕ) (now : ℤ) (src : UDPAddr) (m : Message) (evict order : List Bytes)
  | note (req : ℕ)
  | render (req : ℕ)
  | issue (req : ℕ) (now : ℤ)
  | reap (now : ℤ)

variable (ids : ℕ → Bytes)

/-- One step. A request without a partner is answered with an empty roster and is done. -/
def step (s : State) : Event → State
  | .register req now src m evict order =>
    if req ∈ s.requests then s
    else match accept cr now m with
      | none => s
      | some m =>
        let res := s.reg.upsert P.ttl now src evict order m
        match res.2 with
        | some (_, some partner) =>
          { s with reg := res.1, requests := s.requests.insert req (.paired m partner) }
        | _ => { s with reg := res.1 }
  | .note req =>
    match s.requests.lookup req with
    | some (.paired m partner) =>
      { s with
        reg := (s.reg.notePaired m.token).1
        requests := s.requests.insert req (.noted m partner) }
    | _ => s
  | .render req =>
    match s.requests.lookup req with
    | some (.noted m partner) =>
      let entry := (s.reg.heap partner).asProtocolPeer P.endpoint
      { s with requests := s.requests.insert req (.rendered m partner entry) }
    | _ => s
  | .issue req now =>
    match s.requests.lookup req with
    | some (.rendered m _ entry) =>
      let res := issueTicket cr P ids s.reg s.drawn now m entry
      { reg := res.1
        requests := s.requests.erase req
        drawn := res.2.1
        answers := s.answers ++ [⟨m, entry, res.2.2⟩] }
    | _ => s
  | .reap now => { s with reg := s.reg.reap P.ttl now }

/-- The state after a list of steps. -/
def runFrom (es : List Event) : State := Machine.run (step cr P ids) State.new es

end BuddyNet.Handshake
