import BuddyNet.Trust.Manifest

/-!
# Who may connect

The functions that decide from the trust files whom a node talks to: `assemblePeers` picks the
workers, `peerSource` and `nextAttempt` draw an attempt for a worker and for the single-peer loop,
`decide` and `enforcePins` judge the partner that the server names.
-/

namespace BuddyNet.Trust

/-- The parts of `BuddyConfig` these functions read. `peersFile` says whether a manifest path is
set; the path of the session store is always set here. -/
structure Config where
  peersFile : Bool := false
  peerKey : Bytes := []
  token : Bytes := []
  direct : Bool := false
  ephemeral : Bool := false
  insecure : Bool := false

/-- `MaxBuddies`. -/
def maxBuddies : ℕ := 48

variable (cr : Crypto) (y : Yaml) (cfg : Config)

/-! ### Workers -/

/-- The check for two keys with one virtual address; `vips` are the addresses seen so far. -/
def checkVIPs : List PeerSpec → List (Bytes × Bytes) → Except TrustError Unit
  | [], _ => .ok ()
  | s :: rest, vips =>
    let v := virtualIP cr s.pin
    match vips.lookup v with
    | some existing => .error (.vipCollision existing (pubKeyB64 s.pin))
    | none => checkVIPs rest ((v, pubKeyB64 s.pin) :: vips)

/-- `assemblePeers`: the manifest and the stored sessions, without the revoked keys. -/
def assemblePeers (f : Files) : Except TrustError (List PeerSpec) := do
  let manifest ← loadPeersFile y cfg.peersFile f
  let revoked ← revokedSet f
  let listed := manifest.filter fun s => pubKeyB64 s.pin ∉ revoked
  let sessions ← loadSessions f
  let stored := sessions.filter fun s =>
    pubKeyB64 s.pin ∉ revoked ∧ pubKeyB64 s.pin ∉ listed.map fun s => pubKeyB64 s.pin
  let specs := listed ++ stored.map fun s => { pin := s.pin }
  if maxBuddies < specs.length then .error (.tooManyBuddies specs.length)
  else do
    checkVIPs cr specs []
    return specs

/-! ### Attempts -/

/-- `attempt`; the interface index is added by the supervisor. -/
structure Attempt where
  rendezvous : Bytes := []
  inviteToken : Bytes := []
  pin : Option Bytes := none
  cfgPin : Option Bytes := none
  firstPairing : Bool := false
  expose : Option Nft.Scope := none
  deriving DecidableEq

def sessionFallbackAfter : ℕ := 3

/-- The bootstrap token the manifest has for a buddy now; none while the manifest cannot be read. -/
def liveToken (spec : PeerSpec) (f : Files) : Bytes :=
  if cfg.peersFile then
    match loadPeersFile y cfg.peersFile f with
    | .ok live => ((live.find? (·.pin = spec.pin)).map (·.token)).getD []
    | .error _ => []
  else spec.token

/-- The first pairing over a bootstrap token. -/
def bootstrap (spec : PeerSpec) (cell : Option Nft.Scope) (token : Bytes) : Attempt :=
  { rendezvous := token
    inviteToken := token
    pin := some spec.pin
    firstPairing := true
    expose := cell }

/-- `peerSource`: the attempt of a worker, whose scope cell is `cell`, after a number of
failures. -/
def peerSource (spec : PeerSpec) (cell : Option Nft.Scope) (failures : ℕ) (f : Files) :
    Except TrustError Attempt := do
  let keyB64 := pubKeyB64 spec.pin
  if ← isRevoked f keyB64 then .error (.revoked keyB64)
  else do
    let token := liveToken y cfg spec f
    match ← loadSessionFor f spec.pin with
    | some secret =>
      if token ≠ [] ∧ ¬cfg.insecure ∧ sessionFallbackAfter ≤ failures ∧ failures % 2 = 1 then
        return bootstrap spec cell token
      else return { rendezvous := secret, pin := some spec.pin, expose := cell }
    | none => if token = [] then .error .noSession else return bootstrap spec cell token

/-- `--peer-key`, decoded. -/
def cfgPin : Except TrustError (Option Bytes) :=
  if cfg.peerKey = [] then .ok none
  else match decodePubKey cfg.peerKey with
    | some pin => .ok (some pin)
    | none => .error .badKey

/-- The part of `nextAttempt` behind the checks of `--peer-key`. -/
def storedAttempt (pin : Option Bytes) (f : Files) : Except TrustError Attempt := do
  match ← loadSession f with
  | some session =>
    let keyB64 := pubKeyB64 session.pin
    if ← isRevoked f keyB64 then .error (.revoked keyB64)
    else if pin ≠ none ∧ pin ≠ some session.pin then .error (.pinConflict cfg.peerKey keyB64)
    else return { rendezvous := session.secret, pin := some session.pin, cfgPin := pin }
  | none =>
    if cfg.token ≠ [] then
      return { rendezvous := cfg.token
               inviteToken := cfg.token
               firstPairing := cfg.ephemeral
               cfgPin := pin }
    else .error .noWayIn

/-- Whether the key of `--peer-key`, if there is one, is revoked. -/
def pinRevoked (f : Files) : Option Bytes → Except TrustError Bool
  | some pin => isRevoked f (pubKeyB64 pin)
  | none => .ok false

def nextAttempt (f : Files) : Except TrustError Attempt := do
  let pin ← cfgPin cfg
  if ← pinRevoked f pin then .error (.revoked (pubKeyB64 (pin.getD [])))
  else if cfg.direct then
    match pin with
    | none => .error .directNoKey
    | some pin => return { pin := some pin, cfgPin := some pin }
  else storedAttempt cfg pin f

/-! ### Partners -/

/-- `trustPolicy`; its store is the node's session store. -/
structure TrustPolicy where
  pinned : Option Bytes
  insecure : Bool

/-- `decide`: whether the partner has to be verified by a human. -/
def TrustPolicy.decide (t : TrustPolicy) (f : Files) (token partnerPub : Bytes) :
    Except TrustError Bool := do
  let partnerB64 := pubKeyB64 partnerPub
  if ← isRevoked f partnerB64 then .error (.revoked partnerB64)
  else match t.pinned with
    | some pinned => if partnerPub = pinned then return false else .error .pinMismatch
    | none =>
      if t.insecure then return false
      else do
        let known ← loadKnownPeer cr f token
        if known = [] then return true
        else if known ≠ partnerB64 then .error (.keyChanged known partnerB64)
        else return false

def enforcePins (att : Attempt) (partnerPub : Bytes) : Except TrustError Unit :=
  if att.pin ≠ none ∧ att.pin ≠ some partnerPub then .error .pinMismatch
  else if att.cfgPin ≠ none ∧ att.cfgPin ≠ some partnerPub then .error .pinMismatch
  else .ok ()

/-- Each of the two pins that is set has to be the key of the partner. -/
theorem enforcePins_eq_ok {att : Attempt} {pub : Bytes} :
    enforcePins att pub = .ok () ↔
      (att.pin = none ∨ att.pin = some pub) ∧ (att.cfgPin = none ∨ att.cfgPin = some pub) := by
  unfold enforcePins
  split_ifs with hpin hcfg
  · exact iff_of_false nofun fun h => h.1.elim hpin.1 hpin.2
  · exact iff_of_false nofun fun h => h.2.elim hcfg.1 hcfg.2
  · exact iff_of_true rfl ⟨by tauto, by tauto⟩

end BuddyNet.Trust
