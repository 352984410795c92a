import BuddyNet.Go.Map
import BuddyNet.Keys

/-!
# The pairing registry of the handshake server

The data of `internal/role/handshake.go` and the critical sections on it: `upsert`, `notePaired`,
`sidFor` and a pass of `reap`. A `*hsPeer` is shared between the registry and the requests that hold
it as a partner, so records live in a heap and a pointer is a position in it.

`upsert` writes its record field by field, and the reply is rendered from the pointer after the lock
is released. The writes are therefore a list, `fieldWrites`: `upsert` applies them at once, and the
interleaved model applies them one at a time.
-/

namespace BuddyNet.Handshake

/-! ### Data -/

/-- The fields of a `protocol.Message` a registration carries, after its token was opened. -/
structure Message where
  ver : ℤ := 0
  role : Bytes := []
  token : Bytes
  id : Bytes
  pubkey : Bytes
  virtualIP : Bytes := []
  name : Bytes := []
  ts : ℤ := 0
  nonce : Bytes := []
  regSig : Bytes := []
  codeEnc : Bytes := []
  ephPub : Bytes := []
  deriving DecidableEq

/-- `protocol.Candidate`. -/
structure Candidate where
  addr : Bytes
  v6 : Bool
  deriving DecidableEq

/-- `protocol.Peer`: one roster entry. -/
structure Peer where
  id : Bytes
  pubkey : Bytes
  virtualIP : Bytes
  name : Bytes
  candidates : List Candidate
  relay : Bytes
  lastSeen : ℤ
  deriving DecidableEq

/-- `hsPeer`: what the server knows about one id of a token. -/
structure HsPeer where
  id : Bytes := []
  pubkey : Bytes := []
  virtualIP : Bytes := []
  name : Bytes := []
  cands : AList fun _ : Bytes => Candidate := ∅
  seen : ℤ := 0

/-- The peers of one token, by id. -/
abbrev Bucket := AList fun _ : Bytes => ℕ

/-- `hsRegistry`, with the heap of peer records and the first free position in it. -/
structure Registry where
  waiting : AList fun _ : Bytes => Bucket
  heap : ℕ → HsPeer
  next : ℕ
  seenPKs : AList fun _ : Bytes => List Bytes
  pairedLogged : AList fun _ : Bytes => Unit
  sids : AList fun _ : Bytes => Bytes
  intruderWarned : AList fun _ : Bytes => Unit

/-- `newHSRegistry`. -/
def Registry.empty : Registry where
  waiting := ∅
  heap := fun _ => {}
  next := 0
  seenPKs := ∅
  pairedLogged := ∅
  sids := ∅
  intruderWarned := ∅

def maxTokens : ℕ := 4096

def maxIDsPerToken : ℕ := 2

def maxCandsPerPeer : ℕ := 8

def evictSample : ℕ := 8

/-! ### Rendering a record -/

/-- `candidates`: the endpoints of a record, sorted by address. -/
def sortedCandidates (cands : AList fun _ : Bytes => Candidate) : List Candidate :=
  (cands.entries.map (·.2)).insertionSort fun a b => Go.strLt a.addr b.addr = true

theorem mem_sortedCandidates {cands : AList fun _ : Bytes => Candidate} {c : Candidate}
    (h : c ∈ sortedCandidates cands) : ∃ k, cands.lookup k = some c := by
  rw [sortedCandidates, List.mem_insertionSort] at h
  obtain ⟨⟨k, c'⟩, hmem, rfl⟩ := List.mem_map.1 h
  exact ⟨k, AList.mem_lookup_iff.2 hmem⟩

/-- `asProtocolPeer`. -/
def HsPeer.asProtocolPeer (p : HsPeer) (relay : Bytes) : Peer where
  id := p.id
  pubkey := p.pubkey
  virtualIP := p.virtualIP
  name := p.name
  candidates := sortedCandidates p.cands
  relay := relay
  lastSeen := p.seen / 1000000000

/-! ### The writes of an upsert -/

/-- One field of a record is stored. -/
inductive FieldWrite where
  | pubkey (v : Bytes)
  | virtualIP (v : Bytes)
  | name (v : Bytes)
  | seen (now : ℤ)
  | cand (key : Bytes) (c : Candidate)

/-- The effect on the record. A new endpoint is ignored once the record has `maxCandsPerPeer`. -/
def FieldWrite.apply (p : HsPeer) : FieldWrite → HsPeer
  | .pubkey v => { p with pubkey := v }
  | .virtualIP v => { p with virtualIP := v }
  | .name v => { p with name := v }
  | .seen now => { p with seen := now }
  | .cand key c =>
    if key ∉ p.cands ∧ maxCandsPerPeer ≤ p.cands.keys.length then p
    else { p with cands := p.cands.insert key c }

/-- The stores `upsert` makes into its own record, in program order; the last two are `observe`. -/
def fieldWrites (m : Message) (src : UDPAddr) (now : ℤ) : List FieldWrite :=
  (if m.pubkey = [] then [] else [.pubkey m.pubkey]) ++
    (if m.virtualIP = [] then [] else [.virtualIP m.virtualIP]) ++
    (if m.name ≠ [] ∧ validName m.name then [.name m.name] else []) ++
    [.seen now, .cand src.string ⟨src.string, Go.to4 src.ip = none⟩]

/-! ### Critical sections -/

namespace Registry

/-- Remove a token from every map. -/
def dropToken (r : Registry) (tok : Bytes) : Registry :=
  { r with
    waiting := r.waiting.erase tok
    seenPKs := r.seenPKs.erase tok
    intruderWarned := r.intruderWarned.erase tok
    pairedLogged := r.pairedLogged.erase tok
    sids := r.sids.erase tok }

/-- The zero `time.Time`, in nanoseconds before the epoch. -/
def zeroTime : ℤ := -62135596800 * 1000000000

/-- `bucketSeen`: the freshest sighting of a bucket. -/
def bucketSeen (r : Registry) (b : Bucket) : ℤ :=
  (b.entries.map fun e => (r.heap e.2).seen).foldl
    (fun newest s => if newest < s then s else newest) zeroTime

/-- The oldest bucket of a sample. -/
def stalest (r : Registry) (sample : List Bytes) : Option Bytes :=
  (sample.foldl (fun best tok =>
    let age := r.bucketSeen ((r.waiting.lookup tok).getD ∅)
    match best with
    | some (_, oldest) => if age < oldest then some (tok, age) else best
    | none => some (tok, age)) none).map (·.1)

/-- `evictStalestLocked`: free one slot, looking at `evictSample` buckets. -/
def evictStalest (r : Registry) (order : List Bytes) : Option Registry :=
  (r.stalest ((Go.visitOrder order r.waiting.keys).take evictSample)).map r.dropToken

/-- The latch of `warnIntruderLocked`. -/
def warnIntruder (r : Registry) (tok : Bytes) : Registry :=
  if tok ∈ r.intruderWarned ∨ maxTokens ≤ r.intruderWarned.keys.length then r
  else { r with intruderWarned := r.intruderWarned.insert tok () }

/-- The bucket of a token. -/
def bucket (r : Registry) (tok : Bytes) : Bucket := (r.waiting.lookup tok).getD ∅

/-- The keys recorded for a token. -/
def seenKeys (r : Registry) (tok : Bytes) : List Bytes := (r.seenPKs.lookup tok).getD []

/-- The token gets a bucket, at the cost of another one when the table is full. -/
def openBucket (r : Registry) (evict : List Bytes) (tok : Bytes) : Option Registry :=
  if tok ∈ r.waiting then some r
  else if maxTokens ≤ r.waiting.keys.length then
    (r.evictStalest evict).map fun r => { r with waiting := r.waiting.insert tok ∅ }
  else some { r with waiting := r.waiting.insert tok ∅ }

/-- The record of an id; a third id of a token is refused. -/
def findSelf (r : Registry) (m : Message) : Registry × Option ℕ :=
  match (r.bucket m.token).lookup m.id with
  | some ref => (r, some ref)
  | none =>
    if maxIDsPerToken ≤ (r.bucket m.token).keys.length then (r.warnIntruder m.token, none)
    else
      ({ r with
          waiting := r.waiting.insert m.token ((r.bucket m.token).insert m.id r.next)
          heap := Function.update r.heap r.next { id := m.id }
          next := r.next + 1 }, some r.next)

/-- The intrusion bookkeeping: at most `maxIDsPerToken + 1` distinct keys are kept. -/
def noteKey (r : Registry) (m : Message) : Registry :=
  if m.pubkey = [] then r
  else
    let known := r.seenKeys m.token
    if m.pubkey ∉ known ∧ known.length < maxIDsPerToken + 1 then
      let r := if maxIDsPerToken ≤ known.length then r.warnIntruder m.token else r
      { r with seenPKs := r.seenPKs.insert m.token (known ++ [m.pubkey]) }
    else { r with seenPKs := r.seenPKs.insert m.token known }

/-- `upsert` up to the first store into the record. -/
def beginUpsert (r : Registry) (evict : List Bytes) (m : Message) : Registry × Option ℕ :=
  match r.openBucket evict m.token with
  | none => (r, none)
  | some r =>
    match r.findSelf m with
    | (r, none) => (r, none)
    | (r, some self) => (r.noteKey m, some self)

/-- Stores into one record. -/
def write (r : Registry) (ref : ℕ) (ws : List FieldWrite) : Registry :=
  { r with heap := Function.update r.heap ref (ws.foldl FieldWrite.apply (r.heap ref)) }

/-- The loop over the other ids: an expired peer is removed, the first live one is the partner. -/
def searchPartner (heap : ℕ → HsPeer) (ttl now : ℤ) (self : Bytes) :
    List Bytes → Bucket → Bucket × Option ℕ
  | [], b => (b, none)
  | id :: ids, b =>
    if id = self then searchPartner heap ttl now self ids b
    else match b.lookup id with
      | none => searchPartner heap ttl now self ids b
      | some ref =>
        if ttl < now - (heap ref).seen then searchPartner heap ttl now self ids (b.erase id)
        else (b, some ref)

/-- `upsert` after the last store: the partner, and the paired latch released without one. -/
def finishUpsert (r : Registry) (ttl now : ℤ) (order : List Bytes) (m : Message) :
    Registry × Option ℕ :=
  let b := r.bucket m.token
  let res := searchPartner r.heap ttl now m.id (Go.visitOrder order b.keys) b
  ({ r with
      waiting := r.waiting.insert m.token res.1
      pairedLogged := if res.2 = none then r.pairedLogged.erase m.token else r.pairedLogged },
    res.2)

/-- `upsert`: the record of the sender and its partner, or a refusal. -/
def upsert (r : Registry) (ttl now : ℤ) (src : UDPAddr) (evict order : List Bytes) (m : Message) :
    Registry × Option (ℕ × Option ℕ) :=
  match r.beginUpsert evict m with
  | (r, none) => (r, none)
  | (r, some self) =>
    let res := (r.write self (fieldWrites m src now)).finishUpsert ttl now order m
    (res.1, some (self, res.2))

/-- An id is removed when its record has not been seen for the lifetime. -/
def dropExpired (heap : ℕ → HsPeer) (ttl now : ℤ) (b : Bucket) (id : Bytes) : Bucket :=
  match b.lookup id with
  | some ref => if ttl < now - (heap ref).seen then b.erase id else b
  | none => b

/-- One token of a pass of `reap`. -/
def reapBucket (ttl now : ℤ) (r : Registry) (tok : Bytes) : Registry :=
  match r.waiting.lookup tok with
  | none => r
  | some b =>
    let kept := b.keys.foldl (dropExpired r.heap ttl now) b
    if kept.keys = [] then r.dropToken tok else { r with waiting := r.waiting.insert tok kept }

/-- A pass of `reap`. -/
def reap (r : Registry) (ttl now : ℤ) : Registry := r.waiting.keys.foldl (reapBucket ttl now) r

/-- `notePaired`: whether this is the moment the token became paired. -/
def notePaired (r : Registry) (tok : Bytes) : Registry × Bool :=
  if tok ∈ r.pairedLogged ∨ maxTokens ≤ r.pairedLogged.keys.length then (r, false)
  else ({ r with pairedLogged := r.pairedLogged.insert tok () }, true)

/-- `sidFor`: the relay session id of a token, minted from `fresh` on first use. -/
def sidFor (r : Registry) (tok fresh : Bytes) : Registry × Option Bytes :=
  match r.sids.lookup tok with
  | some sid => (r, some sid)
  | none =>
    if maxTokens ≤ r.sids.keys.length then (r, none)
    else ({ r with sids := r.sids.insert tok fresh }, some fresh)

end Registry

end BuddyNet.Handshake
