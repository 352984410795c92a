import BuddyNet.Library.Transaction
import BuddyNet.Keys

/-!
# The trust files

`internal/role/session.go`, `trust.go` and `trustlock.go`: what a node with a session store keeps on
disk about its buddies, and the functions that read and write it. A writer holds the trust-state
lock, so it is one `Transaction` over the files; a reader takes a snapshot of one file.

* `loadRevoked`, `addRevokedLocked`, `removeRevokedLocked`: the revocation list;
* `saveSessionLocked`, `removeSessionLocked`, `loadSessions`: the session lines of `known_peers`;
* `learnPeerLocked`, `loadKnownPeer`: its trust-on-first-use lines.
-/

namespace BuddyNet.Trust

/-- The three files, each absent or with its content. -/
structure Files where
  knownPeers : Option Bytes
  revoked : Option Bytes
  manifest : Option Bytes
  deriving DecidableEq

/-- The errors of the readers and writers, with the data their messages carry. -/
inductive TrustError where
  /-- `bufio.ErrTooLong`. -/
  | tooLong
  /-- `os.ErrNotExist`. -/
  | notExist
  /-- `errPeerRevoked`, with the key. -/
  | revoked (keyB64 : Bytes)
  /-- `errSessionRevoked`. -/
  | noSession
  /-- A key that does not decode. -/
  | badKey
  /-- A manifest above the size limit. -/
  | manifestSize (n : ℕ)
  /-- A line of the old manifest format with more than two fields. -/
  | legacyFields (line n : ℕ)
  /-- A key that the manifest lists twice. -/
  | duplicateKey (keyB64 : Bytes)
  /-- The YAML decoder refuses the manifest. -/
  | yaml
  | missingKey
  | badToken (token : Bytes)
  | badName (name : Bytes)
  | badScope
  /-- `errLegacyManifest`. -/
  | legacyManifest
  /-- `errTooManyBuddies`. -/
  | tooManyBuddies (found : ℕ)
  | vipCollision (keyB64 other : Bytes)
  | peersFileRequired
  | tokenSpace
  | noMatch (ref : Bytes)
  | ambiguous (ref : Bytes) (n : ℕ)
  /-- `errPinConflict`: `--peer-key` and the stored pin. -/
  | pinConflict (peerKey storedB64 : Bytes)
  /-- `errDirectNoKey`. -/
  | directNoKey
  /-- Neither a session nor an invite token. -/
  | noWayIn
  | pinMismatch
  | keyChanged (known partnerB64 : Bytes)
  deriving DecidableEq

/-- What a writer does while it holds the trust-state lock. -/
abbrev Tx (α : Type) := Transaction Files TrustError α

open Transaction

/-! ### The revocation list -/

/-- A day, as `2006-01-02` formats it. -/
structure Date where
  year : ℕ
  month : ℕ
  day : ℕ

/-- Decimal digits, filled up with zeros. -/
def zeroPad (width n : ℕ) : Bytes := List.replicate (width - (Go.itoa n).length) 48 ++ Go.itoa n

/-- The note of an entry that is written on a day. -/
def revokedOn (today : Date) : Bytes :=
  lit "revoked " ++ zeroPad 4 today.year ++ lit "-" ++ zeroPad 2 today.month ++ lit "-" ++
    zeroPad 2 today.day

/-- `revokedEntry`. -/
structure RevokedEntry where
  key : Bytes
  note : Bytes
  deriving DecidableEq

/-- The note behind the first `#` of a line. -/
def noteOf (line : Bytes) : Bytes :=
  match line.dropWhile (· ≠ 35) with
  | [] => []
  | _ :: rest => Go.trimSpace rest

/-- The entry on a line; comments and lines that do not start with a key have none. -/
def revokedLine (line : Bytes) : Option RevokedEntry :=
  let line := Go.trimSpace line
  if line = [] ∨ line.head? = some 35 then none
  else match Go.fields line with
    | [] => none
    | field :: _ => (decodePubKey field).map fun pin => ⟨pubKeyB64 pin, noteOf line⟩

/-- An entry is kept unless its key was seen before. -/
def keepEntry (entries : List RevokedEntry) (e : RevokedEntry) : List RevokedEntry :=
  if e.key ∈ entries.map (·.key) then entries else entries ++ [e]

/-- `loadRevokedLocked`. -/
def loadRevoked (file : Option Bytes) : Except TrustError (List RevokedEntry) :=
  match file with
  | none => .ok []
  | some data =>
    let scan := Go.scanLines data
    if scan.2 then .error .tooLong else .ok ((scan.1.filterMap revokedLine).foldl keepEntry [])

/-- The two comment lines at the top of the file. -/
def revokedHeader : List Bytes :=
  [lit "# BuddyNet revoked buddy keys — the presence of a key IS the revocation.",
    lit "# Lift one with:  buddynet peers allow <key>"]

/-- The line of an entry; an entry without a note gets today's. -/
def RevokedEntry.line (today : Date) (e : RevokedEntry) : Bytes :=
  e.key ++ lit "  # " ++ if e.note = [] then revokedOn today else e.note

/-- The file with these entries. -/
def revokedText (today : Date) (entries : List RevokedEntry) : Bytes :=
  Go.unlines (revokedHeader ++ entries.map (·.line today))

def writeRevokedLocked (today : Date) (entries : List RevokedEntry) : Tx Unit :=
  write fun f => { f with revoked := some (revokedText today entries) }

/-- `addRevokedLocked`: false when the key was listed already. -/
def addRevokedLocked (today : Date) (keyB64 : Bytes) : Tx Bool := do
  let f ← read
  let entries ← ofExcept (loadRevoked f.revoked)
  if keyB64 ∈ entries.map (·.key) then pure false
  else do
    writeRevokedLocked today (entries ++ [⟨keyB64, revokedOn today⟩])
    pure true

/-- `removeRevokedLocked`: false when the key was not listed. -/
def removeRevokedLocked (today : Date) (keyB64 : Bytes) : Tx Bool := do
  let f ← read
  let entries ← ofExcept (loadRevoked f.revoked)
  if keyB64 ∈ entries.map (·.key) then do
    writeRevokedLocked today (entries.filter (·.key ≠ keyB64))
    pure true
  else pure false

/-- `revokedSet`, in the order of the file. -/
def revokedSet (f : Files) : Except TrustError (List Bytes) := do
  let entries ← loadRevoked f.revoked
  return entries.map (·.key)

/-- `isRevoked` and `isRevokedLocked`. -/
def isRevoked (f : Files) (keyB64 : Bytes) : Except TrustError Bool := do
  let set ← revokedSet f
  return keyB64 ∈ set

/-! ### `known_peers` -/

variable (cr : Crypto)

/-- `hex.EncodeToString`. -/
def hexEncode (s : Bytes) : Bytes :=
  s.flatMap fun b => [Go.Json.hexChar (b.toNat / 16), Go.Json.hexChar (b.toNat % 16)]

def tokenKey (token : Bytes) : Bytes := hexEncode (cr.sha256 token)

/-- The lines a scanner reads from the store, and whether it stopped at one that is too long. -/
def scanStore (file : Option Bytes) : List Bytes × Bool :=
  match file with
  | none => ([], false)
  | some data => Go.scanLines data

/-- A session line of this partner. -/
def isSessionOf (partnerB64 line : Bytes) : Bool :=
  let fields := Go.fields line
  3 ≤ fields.length && fields[1]? == some partnerB64

/-- The lines a rewrite keeps: all but the partner's session lines and the blank ones. -/
def keptLines (partnerB64 : Bytes) (ls : List Bytes) : List Bytes :=
  ls.filter fun line => !isSessionOf partnerB64 line && Go.trimSpace line != []

/-- `saveSessionLocked`. The scan stops silently at a line that is too long. -/
def saveSessionLocked (inviteToken partnerB64 secret : Bytes) : Tx Unit := do
  let f ← read
  let revoked ← ofExcept (isRevoked f partnerB64)
  if revoked then throw (.revoked partnerB64)
  else do
    let kept := keptLines partnerB64 (scanStore f.knownPeers).1
    let line := tokenKey cr inviteToken ++ lit " " ++ partnerB64 ++ lit " " ++ secret
    write fun f => { f with knownPeers := some (Go.unlines (kept ++ [line])) }

/-- `removeSessionLocked`: how many lines went. -/
def removeSessionLocked (partnerB64 : Bytes) : Tx ℕ := do
  let f ← read
  let scan := scanStore f.knownPeers
  if scan.2 then throw .tooLong
  else do
    let removed := scan.1.countP (isSessionOf partnerB64)
    if removed = 0 then pure 0
    else do
      write fun f => { f with knownPeers := some (Go.unlines (keptLines partnerB64 scan.1)) }
      pure removed

/-- `storedSession`. -/
structure StoredSession where
  pin : Bytes
  secret : Bytes
  deriving DecidableEq

/-- The session on a line. -/
def sessionLine (line : Bytes) : Option StoredSession :=
  match Go.fields line with
  | _ :: key :: secret :: _ => (decodePubKey key).map fun pin => ⟨pin, secret⟩
  | _ => none

def loadSessions (f : Files) : Except TrustError (List StoredSession) :=
  let scan := scanStore f.knownPeers
  if scan.2 then .error .tooLong else .ok (scan.1.filterMap sessionLine)

/-- `loadSessionFor`: the secret stored for this key. -/
def loadSessionFor (f : Files) (pin : Bytes) : Except TrustError (Option Bytes) := do
  let sessions ← loadSessions f
  return (sessions.find? (·.pin = pin)).map (·.secret)

/-- `loadSession`: the first session. -/
def loadSession (f : Files) : Except TrustError (Option StoredSession) := do
  let sessions ← loadSessions f
  return sessions.head?

/-- The key recorded for a token on a line. -/
def knownLine (key line : Bytes) : Option Bytes :=
  match Go.fields line with
  | hash :: pub :: _ => if hash = key then some pub else none
  | _ => none

/-- `loadKnownPeer`: the first line of the token decides, whatever comes after it. -/
def loadKnownPeer (f : Files) (token : Bytes) : Except TrustError Bytes :=
  let scan := scanStore f.knownPeers
  match scan.1.findSome? (knownLine (tokenKey cr token)) with
  | some pub => .ok pub
  | none => if scan.2 then .error .tooLong else .ok []

def learnPeerLocked (token pubB64 : Bytes) : Tx Unit := do
  let f ← read
  let revoked ← ofExcept (isRevoked f pubB64)
  if revoked then throw (.revoked pubB64)
  else do
    let existing := f.knownPeers.getD []
    let existing :=
      if existing ≠ [] ∧ existing.getLast? ≠ some Go.nl then existing ++ [Go.nl] else existing
    let line := tokenKey cr token ++ lit " " ++ pubB64
    write fun f => { f with knownPeers := some (existing ++ line ++ [Go.nl]) }

end BuddyNet.Trust
