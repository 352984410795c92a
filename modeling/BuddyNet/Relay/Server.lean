import BuddyNet.NetKey
import BuddyNet.RateLimit
import BuddyNet.Relay.Offer

/-!
# The relay server

`internal/relay/server.go` and `internal/relay/tickets.go` as a machine. Everything that runs under
`s.mu`, and `forward`, is one step; a ticketed bind takes three, because the read loop only admits
it (`recv`), a goroutine verifies it at some later time (`verify`), and the state is updated in a
critical section of its own (`apply`). Between these any other event can happen, and goroutines
finish in any order.

* a forwarding record is shared between a leg and the address table, so records live in a heap
  `fwd` and are named by their position;
* the reaper ranges over a Go map: the event carries the order in which it does;
* `Output` is what leaves the relay: datagrams, and the refusals it would log (the throttling of
  log lines and the counters of the statistics line are left out).
-/

namespace BuddyNet.Relay

/-! ### State -/

/-- `leg`: one bound end of a session. `name` and `epk` are set in ticket mode only. -/
structure Leg where
  addr : UDPAddr
  fwd : ℕ
  acctKey : Bytes
  name : Bytes := []
  epk : Bytes := []
  deriving DecidableEq

/-- `fwd`: a leg's forwarding record. -/
structure Fwd where
  peer : Option UDPAddr
  seen : ℤ
  deriving DecidableEq

/-- `session`: the legs that share a token. -/
structure Session where
  token : Bytes
  legs : List Leg
  paired : Bool
  created : ℤ
  deriving DecidableEq

/-- A verification goroutine: waiting to verify, or verified and waiting for the lock. -/
inductive Job where
  | queued (b : Bind) (src : UDPAddr) (acct cookie : Bytes)
  | verified (p : Ticket.Payload) (src : UDPAddr) (acct : Bytes)
  deriving DecidableEq

/-- The fields of `Server` that `New` sets once. -/
structure Params where
  ttl : ℤ
  allowed : List Prefix
  cookieKey : Bytes
  maxSessions : ℕ
  maxLegsPerIP : ℕ
  pendingPair : ℤ
  serverKeys : List Bytes
  relayID : Bytes

/-- What the relay knows of its legs: the maps `sessions` and `legsPerIP`, the address table, and
the heap of forwarding records with the first name not in use. -/
structure Table where
  sessions : AList fun _ : Bytes => Session
  legsPerIP : AList fun _ : Bytes => ℕ
  byAddr : AList fun _ : Bytes => ℕ
  fwd : ℕ → Fwd
  nextFwd : ℕ

/-- The fields of `Server` that change. -/
structure State extends Table where
  bindRL : Limiter
  sigRL : Limiter
  reserveRL : Limiter
  jobs : List Job

/-- What leaves the relay. -/
inductive Output where
  | send (dst : UDPAddr) (pkt : Bytes)
  | rejected (reason sid leg : Bytes)
  deriving DecidableEq

/-! ### Constants and construction -/

def maxLegsPerSes : ℕ := 2

def maxSigInFlight : ℕ := 32

/-- One second, in nanoseconds. -/
def second : ℤ := 1000000000

def pendingPairTimeout : ℤ := 60 * second

def cookieEpoch : ℤ := 30 * second

/-- `Config`: the policy a relay is started with. -/
structure Config where
  ttl : ℤ
  serverKeys : List Bytes := []
  relayID : Bytes := []
  allowCIDRs : List Prefix := []
  maxSessions : ℤ := 0
  maxLegsPerIP : ℤ := 0

/-- `New`: the fields set once. -/
def Config.params (cfg : Config) (cookieKey : Bytes) : Params where
  ttl := cfg.ttl
  allowed := cfg.allowCIDRs
  cookieKey := cookieKey
  maxSessions := if cfg.maxSessions ≤ 0 then 4096 else cfg.maxSessions.toNat
  maxLegsPerIP := if cfg.maxLegsPerIP ≤ 0 then 64 else cfg.maxLegsPerIP.toNat
  pendingPair := pendingPairTimeout
  serverKeys := cfg.serverKeys
  relayID := cfg.relayID

/-- `New`: the state of a relay started at time `now`. -/
def State.new (now : ℤ) : State where
  sessions := ∅
  legsPerIP := ∅
  byAddr := ∅
  fwd := fun _ => ⟨none, 0⟩
  nextFwd := 0
  bindRL := Limiter.new (1000 : ℕ) (50 : ℕ) 8192 now
  sigRL := Limiter.newGlobal (200 : ℕ) now
  reserveRL := Limiter.new (20 : ℕ) (4 : ℕ) 1024 now
  jobs := []

/-- `ticketMode`. -/
def Params.ticketMode (P : Params) : Bool := P.serverKeys.length > 0

/-- `cidrAllowed`. -/
def Params.cidrAllowed (P : Params) (ip : Bytes) : Bool :=
  P.allowed.isEmpty || match Go.addrFromSlice ip with
    | none => false
    | some a => P.allowed.any (Go.prefixContains · a)

/-! ### Cookies -/

/-- `binary.BigEndian.PutUint64` of an `int64`. -/
def be64 (n : ℤ) : Bytes :=
  let m := (n % 2 ^ 64).toNat
  [56, 48, 40, 32, 24, 16, 8, 0].map fun k => (m / 2 ^ k).toUInt8

/-- `binary.BigEndian.PutUint16`. -/
def be16 (n : UInt16) : Bytes := [(n.toNat / 256).toUInt8, n.toNat.toUInt8]

/-- The bytes a cookie is the MAC of: epoch, canonical address and port. -/
def cookieInput (src : UDPAddr) (epoch : ℤ) : Bytes :=
  be64 epoch ++ Go.to16 src.ip ++ be16 src.port

variable (cr : Crypto) (P : Params)

def computeCookie (src : UDPAddr) (epoch : ℤ) : Bytes :=
  (cr.hmacSHA256 P.cookieKey (cookieInput src epoch)).take cookieLen

/-- The cookie epoch of a point in time. -/
def epochOf (now : ℤ) : ℤ := now.tdiv cookieEpoch

/-- `validCookie`: the raw cookie when it is the source's for this epoch or the last. -/
def validCookie (b64 : Bytes) (src : UDPAddr) (now : ℤ) : Option Bytes :=
  if b64 = [] then none
  else match rawURLEncoding.decode b64 with
    | none => none
    | some got =>
      if got.length ≠ cookieLen then none
      else if got = computeCookie cr P src (epochOf now) ∨
          got = computeCookie cr P src (epochOf now - 1) then some got
      else none

/-! ### Rejection reasons of the relay itself -/

def reasonNoTicket : Bytes := lit "no ticket presented (this relay verifies tickets)"

def reasonEncoding : Bytes := lit "ticket fields are not well-formed base64url"

def reasonSIDClaim : Bytes := lit "bind names a different session than its ticket"

def reasonBudget : Bytes := lit "verification budget exhausted"

def reasonInFlight : Bytes := lit "too many verifications already in flight"

def reasonLegTaken : Bytes := lit "leg already held by another ephemeral key"

def reasonLegCap : Bytes := lit "session or source is at its leg cap"

def reasonCapacity : Bytes := lit "relay is at capacity"

def reasonMigration : Bytes := lit "address migration refused"

/-! ### Critical sections -/

/-- The number of legs charged to an accounting key. -/
def Table.legCount (s : Table) (acct : Bytes) : ℕ := (s.legsPerIP.lookup acct).getD 0

/-- `releaseIPLocked`. -/
def releaseIP (m : AList fun _ : Bytes => ℕ) (acct : Bytes) : AList fun _ : Bytes => ℕ :=
  let n := (m.lookup acct).getD 0
  if n ≤ 1 then m.erase acct else m.insert acct (n - 1)

/-- Publish the partner pointers of a session with two legs. -/
def publish (fwd : ℕ → Fwd) (legs : List Leg) : ℕ → Fwd :=
  match legs with
  | [a, b] =>
    let fwd := Function.update fwd a.fwd { fwd a.fwd with peer := some b.addr }
    Function.update fwd b.fwd { fwd b.fwd with peer := some a.addr }
  | _ => fwd

/-- Store the time a record was last used. -/
def touch (fwd : ℕ → Fwd) (f : ℕ) (now : ℤ) : ℕ → Fwd :=
  Function.update fwd f { fwd f with seen := now }

/-- The free leg of a session is claimed: both modes allocate a record, enter it in the address
table, charge the source and publish the pointers once there are two legs. -/
def claimLeg (s : Table) (now : ℤ) (tok : Bytes) (ses : Session) (src : UDPAddr)
    (acct name epk : Bytes) : Table :=
  let l : Leg := ⟨src, s.nextFwd, acct, name, epk⟩
  let legs := ses.legs ++ [l]
  { sessions := s.sessions.insert tok
      { ses with legs := legs, paired := ses.paired || legs.length == 2 }
    byAddr := s.byAddr.insert src.string l.fwd
    legsPerIP := s.legsPerIP.insert acct (s.legCount acct + 1)
    fwd := touch (publish (Function.update s.fwd l.fwd ⟨none, 0⟩) legs) l.fwd now
    nextFwd := s.nextFwd + 1 }

/-- A leg moves to a new address: the old key leaves the table, the budget follows, and the
partner pointers are published again. -/
def migrateLeg (s : Table) (now : ℤ) (tok : Bytes) (ses : Session) (held : Leg) (src : UDPAddr)
    (acct : Bytes) : Table :=
  let moved : Leg := { held with addr := src, acctKey := acct }
  let legs := ses.legs.map fun l => if l.fwd = held.fwd then moved else l
  { s with
    sessions := s.sessions.insert tok { ses with legs := legs }
    byAddr := (s.byAddr.erase held.addr.string).insert src.string held.fwd
    legsPerIP :=
      if held.acctKey = acct then s.legsPerIP
      else
        let m := releaseIP s.legsPerIP held.acctKey
        m.insert acct ((m.lookup acct).getD 0 + 1)
    fwd := touch (publish s.fwd legs) held.fwd now }

/-- The acknowledgement of a bind. -/
def ack (tok : Bytes) (src : UDPAddr) : Output := .send src (marshalBind { sessionToken := tok })

/-- The session a bind names: the one in the map, or a new one that this call enters. -/
def enterSession (s : Table) (now : ℤ) (tok : Bytes) : Table × Session × Bool :=
  match s.sessions.lookup tok with
  | some ses => (s, ses, false)
  | none =>
    let ses : Session := ⟨tok, [], false, now⟩
    ({ s with sessions := s.sessions.insert tok ses }, ses, true)

/-- `dropIfEmptyLocked`: a session created by the call that refuses its leg is taken out again. -/
def dropIfEmpty (s : Table) (tok : Bytes) (ses : Session) (created : Bool) : Table :=
  if created && ses.legs.isEmpty then { s with sessions := s.sessions.erase tok } else s

/-- `bindTicketed`: the state update of a verified bind. -/
def bindTicketed (s : Table) (now : ℤ) (p : Ticket.Payload) (src : UDPAddr) (acct : Bytes) :
    Table × List Output :=
  let sid := p.sid
  if s.sessions.lookup sid = none ∧ P.maxSessions ≤ s.sessions.keys.length then
    (s, [.rejected reasonCapacity sid p.leg])
  else
    let (s, ses, created) := enterSession s now sid
    match ses.legs.find? (·.name == p.leg) with
    | none =>
      if maxLegsPerSes ≤ ses.legs.length then
        (dropIfEmpty s sid ses created, [.rejected reasonLegCap sid p.leg])
      else if P.maxLegsPerIP ≤ s.legCount acct then
        (dropIfEmpty s sid ses created, [.rejected reasonLegCap sid p.leg])
      else (claimLeg s now sid ses src acct p.leg p.epk, [ack sid src])
    | some held =>
      if held.epk ≠ p.epk then
        (dropIfEmpty s sid ses created, [.rejected reasonLegTaken sid p.leg])
      else if held.addr.string = src.string then
        ({ s with fwd := touch s.fwd held.fwd now }, [ack sid src])
      else if held.acctKey ≠ acct ∧ P.maxLegsPerIP ≤ s.legCount acct then
        (s, [.rejected reasonMigration sid p.leg])
      else (migrateLeg s now sid ses held src acct, [ack sid src])

/-- `bindNetworkMode`: any allowed source may claim a leg. -/
def bindNetworkMode (s : Table) (now : ℤ) (tok : Bytes) (src : UDPAddr) (acct : Bytes) :
    Table × List Output :=
  if s.sessions.lookup tok = none ∧ P.maxSessions ≤ s.sessions.keys.length then (s, [])
  else
    let (s, ses, created) := enterSession s now tok
    match ses.legs.find? (·.addr.string == src.string) with
    | none =>
      if maxLegsPerSes ≤ ses.legs.length then (dropIfEmpty s tok ses created, [])
      else if P.maxLegsPerIP ≤ s.legCount acct then (dropIfEmpty s tok ses created, [])
      else (claimLeg s now tok ses src acct [] [], [ack tok src])
    | some l => ({ s with fwd := touch s.fwd l.fwd now }, [ack tok src])

/-! ### The read loop -/

def halfOpen (s : Table) (sid : Bytes) : Bool :=
  match s.sessions.lookup sid with
  | some ses => ses.legs.length == 1
  | none => false

/-- The reserve is charged for a half-open session only. -/
def chargeReserve (s : State) (sid : Bytes) (now : ℤ) : State × Bool :=
  if halfOpen s.toTable sid then
    let r := s.reserveRL.allow sid now
    ({ s with reserveRL := r.1 }, r.2)
  else (s, false)

/-- The verification budget of a bind: the reserve of a half-open session, otherwise the global
ceiling. -/
def chargeBudget (s : State) (sid : Bytes) (now : ℤ) : State × Bool :=
  let r := chargeReserve s sid now
  if r.2 then (r.1, true)
  else
    let g := r.1.sigRL.allowGlobal now
    ({ r.1 with sigRL := g.1 }, g.2)

def admitTicketBind (s : State) (now : ℤ) (b : Bind) (src : UDPAddr) (acct cookie : Bytes) :
    State × List Output :=
  if b.ticket = [] ∨ b.ticketSig = [] ∨ b.bindSig = [] then
    (s, [.rejected reasonNoTicket b.sessionToken []])
  else
    let r := chargeBudget s b.sessionToken now
    if !r.2 then (r.1, [.rejected reasonBudget b.sessionToken []])
    else if maxSigInFlight ≤ r.1.jobs.length then
      (r.1, [.rejected reasonInFlight b.sessionToken []])
    else ({ r.1 with jobs := r.1.jobs ++ [.queued b src acct cookie] }, [])

/-- `bind`: the fixed check order. -/
def bind (s : State) (now : ℤ) (b : Bind) (src : UDPAddr) (reqLen : ℕ) : State × List Output :=
  if !P.cidrAllowed src.ip then (s, [])
  else
    let acct := fromIP src.ip
    let r := s.bindRL.allow acct now
    let s := { s with bindRL := r.1 }
    if !r.2 then (s, [])
    else match validCookie cr P b.cookie src now with
      | none =>
        let chal := marshalChallenge (computeCookie cr P src (epochOf now))
        (s, if chal.length < reqLen then [.send src chal] else [])
      | some cookie =>
        if P.ticketMode then admitTicketBind s now b src acct cookie
        else
          let r := bindNetworkMode P s.toTable now b.sessionToken src acct
          ({ s with toTable := r.1 }, r.2)

/-- `forward`: one table lookup, and the partner's address when there is a partner. -/
def forward (s : Table) (now : ℤ) (src : UDPAddr) (pkt : Bytes) : Table × List Output :=
  match s.byAddr.lookup src.string with
  | none => (s, [])
  | some f =>
    ({ s with fwd := touch s.fwd f now },
      match (s.fwd f).peer with
      | some dst => [.send dst pkt]
      | none => [])

/-! ### Verification -/

/-- `verifyTicketBind` up to the state update: the payload, or the refusal it logs. -/
def verifyTicketBind (now : ℤ) (b : Bind) (cookie : Bytes) : Except Output Ticket.Payload :=
  match rawURLEncoding.decode b.ticket, rawURLEncoding.decode b.ticketSig,
      rawURLEncoding.decode b.bindSig with
  | some payload, some sig, some bindSig =>
    if sig.length ≠ signatureSize ∨ bindSig.length ≠ signatureSize then
      .error (.rejected reasonEncoding b.sessionToken [])
    else if !Ticket.verify cr P.serverKeys payload sig then
      .error (.rejected Ticket.Reason.signature.text b.sessionToken [])
    else match Ticket.parse payload with
      | .error r => .error (.rejected r.text b.sessionToken [])
      | .ok p =>
        match p.checkWindow now with
        | .error _ => .error (.rejected Ticket.Reason.window.text p.sid p.leg)
        | .ok _ =>
          match p.checkRelay P.relayID with
          | .error _ => .error (.rejected Ticket.Reason.relay.text p.sid p.leg)
          | .ok _ =>
            if b.sessionToken ≠ p.sid then .error (.rejected reasonSIDClaim p.sid p.leg)
            else match p.ephPub with
              | none => .error (.rejected Ticket.Reason.malformed.text p.sid p.leg)
              | some epk =>
                if !Ticket.verifyBind cr epk payload sig cookie bindSig then
                  .error (.rejected Ticket.Reason.proof.text p.sid p.leg)
                else .ok p
  | _, _, _ => .error (.rejected reasonEncoding b.sessionToken [])

/-! ### The reaper -/

/-- Remove a leg's table entry and release its budget. -/
def dropLeg (s : Table) (l : Leg) : Table :=
  { s with byAddr := s.byAddr.erase l.addr.string, legsPerIP := releaseIP s.legsPerIP l.acctKey }

/-- The leg has been quiet longer than the lifetime. -/
def idle (s : Table) (now : ℤ) (l : Leg) : Bool := P.ttl < now - (s.fwd l.fwd).seen

/-- The session never had two legs and is older than the half-open timeout. -/
def expired (now : ℤ) (ses : Session) : Bool :=
  !ses.paired && P.pendingPair < now - ses.created

/-- The legs of a session a pass of the reaper drops. -/
def reaped (s : Table) (now : ℤ) (ses : Session) : List Leg :=
  if expired P now ses then ses.legs else ses.legs.filter (idle P s now)

/-- The legs of a session a pass of the reaper keeps. -/
def kept (s : Table) (now : ℤ) (ses : Session) : List Leg :=
  if expired P now ses then [] else ses.legs.filter (!idle P s now ·)

/-- A lone leg stops forwarding to the partner it lost. -/
def clearLone (fwd : ℕ → Fwd) (legs : List Leg) : ℕ → Fwd :=
  match legs with
  | [l] => Function.update fwd l.fwd { fwd l.fwd with peer := none }
  | _ => fwd

/-- The reaper's body for one session. -/
def reapSession (now : ℤ) (s : Table) (tok : Bytes) : Table :=
  match s.sessions.lookup tok with
  | none => s
  | some ses =>
    let dropped := (reaped P s now ses).foldl dropLeg s
    let legs := kept P s now ses
    { dropped with
      sessions :=
        if legs = [] then dropped.sessions.erase tok
        else dropped.sessions.insert tok { ses with legs := legs }
      fwd := clearLone dropped.fwd legs }

/-- `reap`: one pass over all sessions. -/
def reap (s : Table) (now : ℤ) (order : List Bytes) : Table :=
  (Go.visitOrder order s.sessions.keys).foldl (reapSession P now) s

/-! ### The machine -/

/-- The events of a relay. -/
inductive Event where
  | recv (now : ℤ) (src : UDPAddr) (pkt : Bytes)
  | verify (now : ℤ) (job : ℕ)
  | apply (now : ℤ) (job : ℕ)
  | reap (now : ℤ) (order : List Bytes)
  deriving DecidableEq

/-- One event: the new state and what leaves the relay. -/
def stepOut (s : State) : Event → State × List Output
  | .recv now src pkt =>
    match parseBind pkt with
    | some b => bind cr P s now b src pkt.length
    | none =>
      let r := forward s.toTable now src pkt
      ({ s with toTable := r.1 }, r.2)
  | .verify now i =>
    match s.jobs[i]? with
    | some (.queued b src acct cookie) =>
      match verifyTicketBind cr P now b cookie with
      | .ok p => ({ s with jobs := s.jobs.set i (.verified p src acct) }, [])
      | .error o => ({ s with jobs := s.jobs.eraseIdx i }, [o])
    | _ => (s, [])
  | .apply now i =>
    match s.jobs[i]? with
    | some (.verified p src acct) =>
      let r := bindTicketed P s.toTable now p src acct
      ({ s with toTable := r.1, jobs := s.jobs.eraseIdx i }, r.2)
    | _ => (s, [])
  | .reap now order => ({ s with toTable := reap P s.toTable now order }, [])

/-- One event, without its outputs. -/
def step (s : State) (e : Event) : State := (stepOut cr P s e).1

/-- A relay started at time `now`, after a list of events. -/
def runFrom (now : ℤ) (es : List Event) : State := Machine.run (step cr P) (State.new now) es

end BuddyNet.Relay
