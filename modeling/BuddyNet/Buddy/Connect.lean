import BuddyNet.Library.Log
import BuddyNet.Buddy.Paths

/-!
# One connection attempt

`buddyRun` and `runWG`, up to the point where the tunnel is up and its partner is remembered. The
attempt is a program that logs what matters about it (`Act`); everything it hears from outside, the
server, the network, the kernel, the human and the trust files at the moment they are read, is given
by `Env`. Every exit of the source is an error here, so a run covers every point of failure.
-/

namespace BuddyNet.Buddy

open Handshake (Peer)
open Trust (Attempt Files TrustPolicy TrustError)
open Transaction

/-- What an attempt has done. -/
inductive Act where
  /-- `decide` returned no error for this key. -/
  | decided (partnerPub : Bytes) (needSAS : Bool)
  /-- The data plane completed a handshake that this key authenticates. -/
  | opened (partnerPub : Bytes)
  /-- The human matched the short authentication string of this key. -/
  | matched (partnerPub : Bytes)
  /-- `learnPeer` wrote a trust-on-first-use line. -/
  | learned (token partnerPub : Bytes)
  /-- An entry of the peer cache was written. -/
  | remembered (p : Peer)
  /-- A session line was written. -/
  | stored (inviteToken partnerKey secret : Bytes)
  deriving DecidableEq

/-- The node: its identity key, its trust policy and whether it has a session store. -/
structure Node where
  key : Bytes
  trust : TrustPolicy
  store : Bool := true

/-- The text of the identity key. -/
def Node.pub (nd : Node) : Bytes := pubKeyB64 nd.key

/-- What one attempt hears from outside. The files are those on disk when `decide`, `confirm` and
`saveSession` use them, or none when they cannot be locked, read or written. -/
structure Env where
  socket : Bool := true
  relayKey : Bool := true
  /-- Whether the name of the server resolves. -/
  serverFound : Bool := true
  /-- The outcome of `buddyRegister`. -/
  register : Option Peer := none
  now : ℤ := 0
  /-- `reg.List()`. -/
  cached : List Peer := []
  filesAtDecide : Option Files := none
  filesAtConfirm : Option Files := none
  filesAtSave : Option Files := none
  answers : ℕ → PathAnswers := fun _ => {}
  /-- A session that arrives while all the paths are armed. -/
  session : Bool := false
  /-- `ExportKeyingMaterial` for the string, and `runBindingOverConn`. -/
  sasBinding : Option Bytes := none
  /-- What the human answers to a code. -/
  promptSAS : Bytes → Except BuddyError Unit := fun _ => .error .sasTimeout
  /-- The keying material of `deriveSessionSecret`, and `PairSecret`. -/
  secret : Option Bytes := none
  wgAvailable : Bool := false
  scopeApplied : Bool := false
  linkUp : Bool := false
  handshake : Bool := false
  /-- `strings.ToLower`. -/
  toLower : Bytes → Bytes := Go.lowerASCII

/-- A step of the attempt. -/
abbrev Run (α : Type) := Transaction (List Act) BuddyError α

/-- Go on when the condition holds. -/
def require (c : Bool) (e : BuddyError) : Run Unit := if c then pure () else throw e

/-- A value that may be missing. -/
def fromOption {α : Type} (o : Option α) (e : BuddyError) : Run α :=
  match o with
  | some a => pure a
  | none => throw e

/-- A function of the trust files. -/
def trusted {α : Type} (r : Except TrustError α) : Run α :=
  match r with
  | .ok a => pure a
  | .error e => throw (.trust e)

variable (cr : Crypto) (cfg : Config) (nd : Node) (att : Attempt) (env : Env)

/-! ### Who the partner is -/

def keyTag (pubB64 : Bytes) : Bytes := pubB64.take 8

def directPartner : Except TrustError Peer :=
  if cfg.peerKey = [] then .error .directNoKey
  else match decodePubKey cfg.peerKey with
    | none => .error .badKey
    | some pub => .ok
      { id := keyTag cfg.peerKey
        pubkey := pubKeyB64 pub
        virtualIP := virtualIPString cr pub
        name := []
        candidates := []
        relay := []
        lastSeen := 0 }

/-- The trust files that `decide` reads; a node without a store has none. -/
def readTrust : Run Files :=
  if nd.store then fromOption env.filesAtDecide .storeBroken else pure ⟨none, none, none⟩

def decide (partnerPub : Bytes) : Run Bool := do
  let files ← readTrust nd env
  trusted (nd.trust.decide cr files att.inviteToken partnerPub)

/-- The pins of the attempt, or the trust policy without one, judge a key; whether the human has to
verify it. -/
def judge (partnerPub : Bytes) : Run Bool :=
  if att.pin ≠ none then do
    trusted (Trust.enforcePins att partnerPub)
    pure false
  else do
    let needSAS ← decide cr nd att env partnerPub
    emit (.decided partnerPub needSAS)
    pure needSAS

/-- The partner, whether the human has to verify it, and the cache entry that names it. -/
structure Found where
  partner : Peer
  needSAS : Bool
  cached : Option Peer

/-- Direct mode: the partner is the key that the operator pinned. -/
def findDirect : Run Found := do
  let partner ← trusted (directPartner cr cfg)
  require (partner.pubkey ≠ nd.pub) .ownIdentity
  pure ⟨partner, false, none⟩

/-- The partner that the server vouched for. -/
def checkVouched (partner : Peer) : Run Found := do
  let partnerPub ← fromOption (decodePubKey partner.pubkey) .partnerKey
  require (partner.pubkey ≠ nd.pub) .sameIdentity
  let needSAS ← judge cr nd att env partnerPub
  ofExcept (checkPartnerVIP cr partner partnerPub)
  pure ⟨partner, needSAS, none⟩

/-- How old a cache entry may be. -/
def cacheTTL : ℤ := 24 * 3600 * 1000000000

/-- Without a partner from the server: the first fresh entry of the cache that passes the checks. -/
def findCached : Run Found := do
  let c ← fromOption (env.cached.find? fun c => fresh env.now cacheTTL c && checkRosterPeer c)
    .noCachedPeer
  let partnerPub ← fromOption (decodePubKey c.pubkey) .partnerKey
  let needSAS ← judge cr nd att env partnerPub
  pure ⟨c, needSAS, some c⟩

/-- The partner from the server, or from the cache when the server named none. -/
def findServer : Run Found :=
  if env.serverFound then do
    let partner ← fromOption env.register .register
    if partner.pubkey ≠ [] then checkVouched cr nd att env partner else findCached cr nd att env
  else findCached cr nd att env

/-- Where the partner comes from. -/
def findPartner : Run Found := if cfg.direct then findDirect cr cfg nd else findServer cr nd att env

/-! ### First contact -/

/-- `bytes.Compare` orders the two keys. -/
def sortedKeys (a b : Bytes) : Bytes × Bytes := if Go.strLt b a then (b, a) else (a, b)

def sasAlphabet : Bytes := lit "0123456789ABCDEFGHJKMNPQRSTVWXYZ"

/-- `ComputeSAS`: the first four bytes of the digest, without its top two bits, in base 32. -/
def computeSAS (myPub peerPub sessionID : Bytes) : Bytes :=
  let (a, b) := sortedKeys myPub peerPub
  let sum := cr.sha256 (a ++ b ++ sessionID)
  let v := (sum.take 4).foldl (fun n c => n * 256 + c.toNat) 0
  [5, 4, 3, 2, 1, 0].map fun i => sasAlphabet.getD (v / 32 ^ i % 32) 0

def confirm (partnerPub : Bytes) : Run Unit :=
  if nd.trust.pinned ≠ none ∨ nd.trust.insecure ∨ !nd.store then pure ()
  else do
    let files ← fromOption env.filesAtConfirm .storeBroken
    trusted (Trust.learnPeerLocked cr att.inviteToken (pubKeyB64 partnerPub) files).2
    emit (.learned att.inviteToken partnerPub)

/-- The short-authentication-string step, which the two data planes share. `ready` says whether
there is an endpoint to run the channel binding over. -/
def firstContact (partner : Peer) (partnerPub : Bytes) (needSAS ready : Bool) : Run Unit :=
  let showOnly := !needSAS && cfg.sasShow && att.firstPairing
  if needSAS || showOnly then do
    require (!needSAS || cfg.interactive) (.unattended partner.pubkey)
    require ready .noEndpoint
    let binding ← fromOption env.sasBinding .channelBinding
    let sas := computeSAS cr nd.key partnerPub binding
    if showOnly then pure ()
    else do
      ofExcept (env.promptSAS sas)
      emit (.matched partnerPub)
      confirm cr nd att env partnerPub
  else pure ()

/-! ### Persistence -/

def rememberPeer (p : Peer) : Run Unit := if p.pubkey = [] then pure () else emit (.remembered p)

def saveSession (partnerKey secret : Bytes) : Run Unit := do
  require nd.store .noStore
  let files ← fromOption env.filesAtSave .storeBroken
  trusted (Trust.saveSessionLocked cr att.inviteToken partnerKey secret files).2
  emit (.stored att.inviteToken partnerKey secret)

/-! ### The data planes -/

/-- The end of `buddyRun` on the QUIC data plane. -/
def runQUIC (found : Found) (partnerPub : Bytes) (paths : List Path) : Run Unit := do
  let partner := found.partner
  ofExcept (
    if cfg.direct ∧ directListening cfg nd.pub partner.pubkey then
      listenAllPaths env.answers paths env.session
    else dialChain env.answers paths 0 .noUsablePath)
  emit (.opened partnerPub)
  firstContact cr cfg nd att env partner partnerPub found.needSAS true
  rememberPeer partner
  if att.firstPairing then do
    let ekm ← fromOption env.secret .sessionSecret
    saveSession cr nd att env partner.pubkey (rawURLEncoding.encode ekm)
  else pure ()

/-- The endpoint that `runWG` aims at; none on the listening side of direct mode. -/
def wgRemote (partner : Peer) (paths : List Path) : Except BuddyError (Option UDPAddr) :=
  if cfg.direct ∧ directListening cfg nd.pub partner.pubkey then
    (armWGPaths env.answers paths).map fun _ => none
  else primeWGPath env.answers paths 0 .noUsablePath

/-- The secret that `runWG` derives for a first pairing. -/
def wgSecret : Run Bytes :=
  if att.firstPairing then fromOption env.secret .sessionSecret else pure []

/-- `runWG`. The session secret is derived before the interface exists, and stored after its
handshake. -/
def runWG (found : Found) (partnerPub : Bytes) (paths : List Path) : Run Unit := do
  let partner := found.partner
  require env.wgAvailable .wgUnavailable
  let remote ← ofExcept (wgRemote cfg nd env partner paths)
  firstContact cr cfg nd att env partner partnerPub found.needSAS remote.isSome
  let secret ← wgSecret att env
  require env.scopeApplied .scope
  require env.linkUp .bringUp
  require env.handshake .noHandshake
  emit (.opened partnerPub)
  rememberPeer partner
  if att.firstPairing then
    saveSession cr nd att env partner.pubkey (rawURLEncoding.encode secret)
  else pure ()

def buddyRun : Run Unit := do
  require env.socket (.openSocket cfg.listenPort)
  require env.relayKey .relayKey
  let found ← findPartner cr cfg nd att env
  let partnerPub ← fromOption (decodePubKey found.partner.pubkey) .partnerKey
  let offer := trustedRelay env.toLower cfg.peerRelay cfg.server found.partner.relay
  let paths :=
    if cfg.direct then directChain cfg.peerEndpoint cfg.peerRelay
    else chain found.partner offer.endpoint found.cached
  require (paths ≠ []) .noPath
  if cfg.wireGuard then runWG cr cfg nd att env found partnerPub paths
  else runQUIC cr cfg nd att env found partnerPub paths

/-- The log of an attempt. -/
def attemptLog : List Act := (buddyRun cr cfg nd att env).final []

end BuddyNet.Buddy
