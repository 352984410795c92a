import BuddyNet.Trust.Gates

/-!
# The `peers` commands

`internal/role/peerscmd.go`: `PeersAdd`, `PeersAllow`, `PeersRemove` and `PeersMigrate`. Each
command has a part that reads the files without the lock (`resolveKeyRef`, `peersAddCheck`) and a
part that holds it, so the two parts can see different files. The output of the commands is left
out.
-/

namespace BuddyNet.Trust

open Transaction

variable (y : Yaml)

/-- `resolveKeyRef`: a full key is used as it is; anything else is a prefix of a known key. -/
def resolveKeyRef (peersFile : Bool) (f : Files) (ref : Bytes) : Except TrustError Bytes :=
  match decodePubKey ref with
  | some pin => .ok (pubKeyB64 pin)
  | none => do
    let specs ← loadPeersFile y peersFile f
    let sessions ← loadSessions f
    let revoked ← revokedSet f
    let known := specs.map (fun s => pubKeyB64 s.pin) ++ sessions.map (fun s => pubKeyB64 s.pin) ++
      revoked
    match known.dedup.filter ref.isPrefixOf with
    | [key] => .ok key
    | [] => .error (.noMatch ref)
    | ks => .error (.ambiguous ref ks.length)

/-! ### `PeersRemove` -/

/-- `removeManifestEntryLocked`: how many entries went. -/
def removeManifestEntryLocked (peersFile : Bool) (keyB64 : Bytes) : Tx ℕ :=
  if peersFile then do
    let f ← read
    let legacy ← ofExcept (manifestNeedsMigration f)
    if legacy then throw .legacyManifest
    else do
      let specs ← ofExcept (loadPeersFile y peersFile f)
      let removed := specs.countP (pubKeyB64 ·.pin = keyB64)
      if removed = 0 then pure 0
      else do
        saveManifestLocked y (specs.filter (pubKeyB64 ·.pin ≠ keyB64))
        pure removed
  else pure 0

/-- The locked part of `PeersRemove`: first the tombstone, then the session, then the manifest.
Returns the numbers of entries and sessions removed, and whether the key was revoked before. -/
def peersRemoveLocked (today : Date) (peersFile : Bool) (keyB64 : Bytes) : Tx (ℕ × ℕ × Bool) := do
  let added ← addRevokedLocked today keyB64
  let sessionRemoved ← removeSessionLocked keyB64
  let manifestRemoved ← removeManifestEntryLocked y peersFile keyB64
  pure (manifestRemoved, sessionRemoved, !added)

/-- `PeersRemove`, alone on the files. -/
def peersRemove (today : Date) (peersFile : Bool) (key : Bytes) : Tx (ℕ × ℕ × Bool) := do
  let f ← read
  let keyB64 ← ofExcept (resolveKeyRef y peersFile f key)
  peersRemoveLocked y today peersFile keyB64

/-! ### `PeersAllow` -/

/-- The locked part of `PeersAllow`: whether a revocation was lifted. -/
def peersAllowLocked (today : Date) (keyB64 : Bytes) : Tx Bool := removeRevokedLocked today keyB64

/-- `PeersAllow`, alone on the files. -/
def peersAllow (today : Date) (peersFile : Bool) (key : Bytes) : Tx Bool := do
  let f ← read
  let keyB64 ← ofExcept (resolveKeyRef y peersFile f key)
  peersAllowLocked today keyB64

/-! ### `PeersAdd` -/

/-- The arguments of `PeersAdd` after the checks. -/
structure AddRequest where
  pin : Bytes
  token : Bytes
  name : Bytes
  expose : Option Nft.Scope
  deriving DecidableEq

/-- The `--expose` argument; an empty one is no scope. -/
def parseExpose (expose : Bytes) : Except TrustError (Option Nft.Scope) :=
  if expose = [] then .ok none
  else match Nft.parseScope expose with
    | .ok s => .ok (some s)
    | .error _ => .error .badScope

/-- The checks of `PeersAdd` in front of the lock. -/
def peersAddCheck (peersFile : Bool) (f : Files) (key token name expose : Bytes) :
    Except TrustError AddRequest :=
  if peersFile then
    match decodePubKey key with
    | none => .error .badKey
    | some pin =>
      if token.any fun c => c == 32 || c == 9 then .error .tokenSpace
      else if validateBuddyName name then do
        let scope ← parseExpose expose
        let legacy ← manifestNeedsMigration f
        if legacy then .error .legacyManifest else return ⟨pin, token, name, scope⟩
      else .error (.badName name)
  else .error .peersFileRequired

/-- What `PeersAdd` reports. -/
inductive AddResult where
  | alreadyListed
  | allowedAgain
  | added
  deriving DecidableEq

/-- The locked part of `PeersAdd`: first the manifest entry, then the revocation. -/
def peersAddLocked (today : Date) (r : AddRequest) : Tx AddResult := do
  let keyB64 := pubKeyB64 r.pin
  let f ← read
  let existing ← ofExcept (loadPeersFile y true f)
  let revoked ← ofExcept (isRevoked f keyB64)
  if keyB64 ∈ existing.map (fun s => pubKeyB64 s.pin) then
    if revoked then do
      let _ ← removeRevokedLocked today keyB64
      pure .allowedAgain
    else pure .alreadyListed
  else if maxBuddies ≤ existing.length then throw (.tooManyBuddies (existing.length + 1))
  else do
    saveManifestLocked y (existing ++ [⟨r.pin, r.token, r.name, r.expose⟩])
    if revoked then do
      let _ ← removeRevokedLocked today keyB64
      pure .allowedAgain
    else pure .added

/-- `PeersAdd`, alone on the files. -/
def peersAdd (today : Date) (peersFile : Bool) (key token name expose : Bytes) : Tx AddResult := do
  let f ← read
  let r ← ofExcept (peersAddCheck peersFile f key token name expose)
  peersAddLocked y today r

/-! ### `PeersMigrate` -/

/-- The trust files and the backup of the manifest. -/
structure Disk where
  files : Files
  backup : Option Bytes
  deriving DecidableEq

/-- `PeersMigrate`, alone on the files: the backup first, then the manifest. Returns whether there
was something to do. -/
def peersMigrate (peersFile : Bool) : Transaction Disk TrustError Bool :=
  if peersFile then do
    let d ← read
    let legacy ← ofExcept (manifestNeedsMigration d.files)
    if legacy then do
      let specs ← ofExcept (loadPeersFile y true d.files)
      match d.files.manifest with
      | none => throw .notExist
      | some data => do
        write fun d => { d with backup := some data }
        write fun d => { d with files := (saveManifestLocked y specs).final d.files }
        pure true
    else pure false
  else throw .peersFileRequired

end BuddyNet.Trust
