import BuddyNet.Go.Netip
import BuddyNet.Handshake.Registry
import BuddyNet.Trust.Gates

/-!
# Paths to a partner

`internal/relay/fallback.go`, `relaytrust.go`, `direct.go` and the path walks of `connect.go` and
`wgpath.go`: which relay a buddy accepts, which paths it tries and in which order, and which of the
two ends listens. What the network answers on each path is given by `PathAnswers`.
-/

namespace BuddyNet.Buddy

open Handshake (Peer Candidate)

/-- The parts of `BuddyConfig` that one attempt reads. -/
structure Config extends Trust.Config where
  server : Bytes := []
  listenPort : ℕ := 0
  peerEndpoint : Bytes := []
  peerRelay : Bytes := []
  wireGuard : Bool := false
  interactive : Bool := false
  inviting : Bool := false
  sasShow : Bool := false

/-- The errors of one attempt. -/
inductive BuddyError where
  | openSocket (listenPort : ℕ)
  | relayKey
  | trust (e : Trust.TrustError)
  | noStore
  /-- The trust files cannot be locked, read or written. -/
  | storeBroken
  /-- `--peer-key` is the key of this node. -/
  | ownIdentity
  /-- The server names a partner with the key of this node. -/
  | sameIdentity
  | register
  | partnerKey
  | vipMismatch (claimed want : Bytes)
  | noCachedPeer
  | noPath
  | punch
  | resolve (endpoint : Bytes)
  | relayBind
  | noUsablePath
  | quic
  /-- First contact without a terminal. -/
  | unattended (pubkey : Bytes)
  | channelBinding
  | noEndpoint
  | sasRejected
  | sasTimeout
  | sessionSecret
  | wgUnavailable
  | scope
  | bringUp
  | noHandshake
  deriving DecidableEq

/-! ### Roster entries -/

def maxRosterCands : ℕ := Handshake.maxCandsPerPeer

/-- A candidate that is a literal unicast endpoint. -/
def checkCandidate (c : Candidate) : Bool :=
  match Go.parseAddrPort c.addr with
  | some (addr, port) => port != 0 && !addr.unmap.isUnspecified && !addr.unmap.isMulticast
  | none => false

def checkRosterPeer (p : Peer) : Bool :=
  validField p.id && (p.name == [] || validName p.name) &&
    p.candidates.length ≤ maxRosterCands && p.candidates.all checkCandidate &&
    p.relay.length ≤ maxFieldLen

/-- `time.Unix(sec, 0)` in nanoseconds; it counts the seconds from the year 1 in 64 bits. -/
def timeUnix (sec : ℤ) : ℤ := (wrap64 (sec + 62135596800) - 62135596800) * 1000000000

/-- `peer.Fresh`; both times in nanoseconds, the stamp in seconds. `time.Since` stops at the ends of
its range, which are on the same side of `ttl` as what is beyond them. -/
def fresh (now ttl : ℤ) (p : Peer) : Bool :=
  p.lastSeen != 0 && now - timeUnix p.lastSeen ≤ ttl

def checkPartnerVIP (cr : Crypto) (partner : Peer) (partnerPub : Bytes) : Except BuddyError Unit :=
  let want := virtualIPString cr partnerPub
  if partner.virtualIP = [] ∨ partner.virtualIP = want then .ok ()
  else .error (.vipMismatch partner.virtualIP want)

/-! ### The relay -/

section

-- `strings.ToLower`: the letters beyond ASCII are the library's
variable (toLower : Bytes → Bytes)

def hostOf (hostport : Bytes) : Option Bytes :=
  (Go.splitHostPort hostport).map fun (host, _) =>
    let host := toLower (if host.getLast? = some 46 then host.dropLast else host)
    match Go.parseAddr host with
    | some ip => ip.unmap.string
    | none => host

/-- `relayOffer`: the endpoint to use, or the value that was set aside and why. -/
structure RelayOffer where
  endpoint : Bytes := []
  skipped : Bytes := []
  reason : Bytes := []
  deriving DecidableEq

def trustedRelay (peerRelay server advertised : Bytes) : RelayOffer :=
  if peerRelay ≠ [] then { endpoint := peerRelay }
  else if advertised = [] then {}
  else match hostOf toLower advertised with
    | none => { skipped := advertised, reason := lit "offer is not a HOST:PORT" }
    | some aHost =>
      if (hostOf toLower server).getD [] = [] then
        { skipped := advertised, reason := lit "no --server host to compare against" }
      else if hostOf toLower server ≠ some aHost then
        { skipped := advertised
          reason := lit
            "offer names a host other than --server; pass it as --peer-relay to allow it" }
      else { endpoint := advertised }

end

/-! ### The fallback chain -/

/-- `Path`, by its kind. -/
inductive Path where
  | direct (candidates : List Candidate)
  | relayed (relayEndpoint : Bytes)
  | configured (endpoint : Bytes)
  deriving DecidableEq

/-- `relay.Chain` without offers of the server; `cached` is the cache entry in use. -/
def chain (partner : Peer) (serverRelay : Bytes) (cached : Option Peer) : List Path :=
  (if partner.candidates = [] then [] else [.direct partner.candidates]) ++
    (if serverRelay = [] then [] else [.relayed serverRelay]) ++
    match cached with
    | some c =>
      if partner.candidates = [] ∧ c.candidates ≠ [] then [.direct c.candidates] else []
    | none => []

/-- `relay.DirectChain`. -/
def directChain (endpoint relayEndpoint : Bytes) : List Path :=
  .configured endpoint :: if relayEndpoint = [] then [] else [.relayed relayEndpoint]

def directListening (cfg : Config) (myPub peerPub : Bytes) : Bool :=
  if cfg.listenPort = 0 then false
  else if cfg.peerEndpoint = [] then true
  else Go.strLt myPub peerPub

/-- What the network answers on one path: the punched address, the resolved address, whether the
relay takes the leg and whether a QUIC session comes up. -/
structure PathAnswers where
  punch : Option UDPAddr := none
  resolve : Option UDPAddr := none
  bindLeg : Bool := false
  session : Bool := false

/-- `primeOne`: the endpoint of a path that is ready, if it has one. -/
def primeOne (a : PathAnswers) : Path → Except BuddyError (Option UDPAddr)
  | .direct _ =>
    match a.punch with
    | some remote => .ok (some remote)
    | none => .error .punch
  | .configured endpoint =>
    if endpoint = [] then .ok none
    else match a.resolve with
      | some addr => .ok (some addr)
      | none => .error (.resolve endpoint)
  | .relayed endpoint =>
    match a.resolve with
    | some addr => if a.bindLeg then .ok (some addr) else .error .relayBind
    | none => .error (.resolve endpoint)

variable (answers : ℕ → PathAnswers)

/-- `dialChain`: the first path on which a session comes up. `i` is the position of the path, and
the error is that of the last path tried. -/
def dialChain : List Path → ℕ → BuddyError → Except BuddyError Unit
  | [], _, lastErr => .error lastErr
  | p :: rest, i, _ =>
    match primeOne (answers i) p with
    | .error e => dialChain rest (i + 1) e
    | .ok _ => if (answers i).session then .ok () else dialChain rest (i + 1) .quic

/-- The walk of `listenAllPaths` and `armWGPaths`: how many paths were armed, how many of them have
an endpoint, and the last error. -/
def armPaths (paths : List Path) : ℕ × ℕ × Option BuddyError :=
  paths.zipIdx.foldl (fun (armed, primed, lastErr) (p, i) =>
    match primeOne (answers i) p with
    | .error e => (armed, primed, some e)
    | .ok none => (armed + 1, primed, lastErr)
    | .ok (some _) => (armed + 1, primed + 1, lastErr)) (0, 0, none)

/-- `listenAllPaths`; one session is awaited on all the paths. -/
def listenAllPaths (paths : List Path) (session : Bool) : Except BuddyError Unit :=
  match armPaths answers paths with
  | (_, 0, some e) => if 1 < paths.length then .error e else listen
  | _ => listen
where
  listen : Except BuddyError Unit := if session then .ok () else .error .quic

def armWGPaths (paths : List Path) : Except BuddyError Unit :=
  match armPaths answers paths with
  | (0, _, some e) => .error e
  | _ => .ok ()

/-- `primeWGPath`: the endpoint of the first path that is ready. -/
def primeWGPath : List Path → ℕ → BuddyError → Except BuddyError (Option UDPAddr)
  | [], _, lastErr => .error lastErr
  | p :: rest, i, _ =>
    match primeOne (answers i) p with
    | .error e => primeWGPath rest (i + 1) e
    | .ok remote => .ok remote

end BuddyNet.Buddy
