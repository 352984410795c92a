import BuddyNet.Handshake.Authorizer
import BuddyNet.Handshake.Steps
import BuddyNet.Handshake.Wire

/-!
# One control request from the first byte to the reply

`handleControlReq` and `pairRegister` in the order of the source, with every check in front of the
registry: the source address, the rate limiter, the decoding, the key of the TLS connection, the
version, the proof fields, the sealed token, the key-ownership proof, the authorizer and the
virtual address. Each reading of the clock is a value of its own.

`registry_only_by_proof`: whatever the bytes of the request are, it changes the registry only if
the holder of the authenticated key signed exactly the registration that the server acts on.
-/

namespace BuddyNet.Handshake

open Registry

/-- A control request: the remote address when it is a UDP one, the key the TLS handshake proved,
and the payload. -/
structure ControlRequest where
  remote : Option UDPAddr
  clientKey : Bytes
  payload : Bytes

/-- What happens to the request: its connection is closed, it is answered, or both. -/
inductive Reply where
  | drop (reason : Bytes)
  | answer (body : Bytes)
  | answerAndDrop (body reason : Bytes)
  deriving DecidableEq

/-- What the server is configured with, and `bcrypto.OpenCode` with its key. -/
structure Server where
  params : Params
  allowed : List Prefix
  openCode : Bytes → Option Bytes

/-- What requests share: the registry, the ids drawn, the rate limiter and the authorizer, which
is there in approval mode. -/
structure Shared where
  reg : Registry
  drawn : ℕ
  rl : Limiter
  authz : Option Authorizer

/-- The readings of the clock in one request. -/
structure Clock where
  limit : ℤ
  verify : ℤ
  enroll : ℤ
  preAuth : ℤ
  replay : ℤ
  upsert : ℤ
  sign : ℤ
  issue : ℤ

/-- The iteration orders of the maps in one request. -/
structure Orders where
  cache : List Bytes
  evict : List Bytes
  partner : List Bytes

def cidrAllowed (allowed : List Prefix) (ip : Bytes) : Bool :=
  allowed.isEmpty || match Go.addrFromSlice ip with
    | none => false
    | some a => allowed.any (Go.prefixContains · a)

/-- The part of `pairRegister` for approval mode: whether the registration may go on. What a key
that is not approved leaves besides its nonce, a pending enrollment or a log line, is not part of
the model. -/
def Authorizer.authorize (a : Authorizer) (t : Clock) (order : List Bytes) (src : UDPAddr)
    (m : Message) : Authorizer × Bool :=
  if !a.allowed m.pubkey then
    let (a, ok) := a.allowEnroll (fromIP src.ip) t.enroll
    if !ok then (a, false)
    else (a.recordPreAuth m.pubkey m.nonce t.preAuth order, false)
  else if !a.freshSinceApproval m.pubkey m.ts then (a, false)
  else
    let (a, seen) := a.replayed m.pubkey m.nonce t.replay order
    (a, !seen)

theorem Authorizer.authorize_approved {a : Authorizer} {m : Message} (t : Clock)
    (order : List Bytes) (src : UDPAddr) (hkey : a.allowed m.pubkey = true)
    (hfresh : a.freshSinceApproval m.pubkey m.ts = true) :
    a.authorize t order src m = ((a.replayed m.pubkey m.nonce t.replay order).1,
      !(a.replayed m.pubkey m.nonce t.replay order).2) := by
  simp [Authorizer.authorize, hkey, hfresh]

/-- The authorizer's decision; in open mode there is none to ask. -/
def Shared.authorize (s : Shared) (t : Clock) (order : List Bytes) (src : UDPAddr) (m : Message) :
    Shared × Bool :=
  match s.authz with
  | none => (s, true)
  | some a =>
    let (a, ok) := a.authorize t order src m
    ({ s with authz := some a }, ok)

variable (cr : Crypto) (srv : Server) (ids : ℕ → Bytes)

/-- `pairRegister`: the roster, empty while the partner is awaited, or a refusal. -/
def pairRegister (s : Shared) (t : Clock) (o : Orders) (src : UDPAddr) (m : Message) :
    Shared × Option (List Peer) :=
  if !verifyRegistration cr t.verify m then (s, none)
  else
    let (s, ok) := s.authorize t o.cache src m
    if !ok then (s, none)
    else match deriveVIP cr m with
      | none => (s, none)
      | some m =>
        match s.reg.upsert srv.params.ttl t.upsert src o.evict o.partner m with
        | (reg, none) => ({ s with reg := reg }, none)
        | (reg, some (_, none)) => ({ s with reg := reg }, some [])
        | (reg, some (_, some partner)) =>
          let reg := (reg.notePaired m.token).1
          ({ s with reg := reg }, some [(reg.heap partner).asProtocolPeer srv.params.endpoint])

/-- The reply to a registration that was paired or parked. A ticket goes with a roster only. -/
def replyTo (s : Shared) (t : Clock) (m : Message) (peers : List Peer) : Shared × Reply :=
  let ts := t.sign / 1000000000
  let sig := cr.ed25519Sign srv.params.priv (peerListPayload m.token ts peers)
  match peers with
  | [] => (s, .answer (peerListReply ts [] (stdEncoding.encode sig) none))
  | partner :: rest =>
    let res := issueTicket cr srv.params ids s.reg s.drawn t.issue m partner
    ({ s with reg := res.1, drawn := res.2.1 },
      .answer (peerListReply ts (partner :: rest) (stdEncoding.encode sig) res.2.2))

def handleControlReq (s : Shared) (t : Clock) (o : Orders) (req : ControlRequest) :
    Shared × Reply :=
  match req.remote with
  | none => (s, .drop (lit "source not allowed"))
  | some src =>
    if !cidrAllowed srv.allowed src.ip then (s, .drop (lit "source not allowed"))
    else
      let (rl, ok) := s.rl.allow (fromIP src.ip) t.limit
      let s := { s with rl := rl }
      if !ok then (s, .answer [])
      else match parseRegister req.payload with
        | none => (s, .drop (lit "malformed registration"))
        | some w =>
          if !registrationMatchesTLSKey w.toMessage req.clientKey then
            (s, .drop (lit "registration key does not match the authenticated client key"))
          else if w.ver ≠ version then
            (s, .answerAndDrop replyIncompatible (lit "protocol version mismatch"))
          else if !requireV7Fields w.toMessage then
            (s, .drop (lit "registration carries no key-ownership proof"))
          else match resolveToken srv.openCode w with
            | none => (s, .drop (lit "sealed pairing token does not open"))
            | some m =>
              match pairRegister cr srv s t o src m with
              | (s, none) => (s, .answer [])
              | (s, some peers) => replyTo cr srv ids s t m peers

/-! ### What reaches the registry -/

variable {cr srv ids} {s : Shared} {t : Clock} {o : Orders} {src : UDPAddr} {m : Message}

theorem Shared.authorize_reg (s : Shared) (t : Clock) (order : List Bytes) (src : UDPAddr)
    (m : Message) : (s.authorize t order src m).1.reg = s.reg := by
  unfold Shared.authorize
  split <;> rfl

/-- `pairRegister` refuses and leaves the registry alone, or the proof verifies and the registry is
that of one `upsert` with the derived virtual address, up to the paired latch. -/
theorem pairRegister_cases (cr : Crypto) (srv : Server) (s : Shared) (t : Clock) (o : Orders)
    (src : UDPAddr) (m : Message) :
    ((pairRegister cr srv s t o src m).2 = none ∧
      (pairRegister cr srv s t o src m).1.reg = s.reg) ∨
    (verifyRegistration cr t.verify m = true ∧ ∃ m', deriveVIP cr m = some m' ∧
      LatchOnly (s.reg.upsert srv.params.ttl t.upsert src o.evict o.partner m').1
        (pairRegister cr srv s t o src m).1.reg) := by
  have hreg := s.authorize_reg t o.cache src m
  unfold pairRegister
  by_cases hver : verifyRegistration cr t.verify m = true
  · simp only [hver, Bool.not_true, Bool.false_eq_true, if_false]
    generalize s.authorize t o.cache src m = res at hreg ⊢
    obtain ⟨s', ok⟩ := res
    cases ok with
    | false => exact Or.inl ⟨rfl, hreg⟩
    | true =>
      simp only [Bool.not_true, Bool.false_eq_true, if_false]
      cases hvip : deriveVIP cr m with
      | none => exact Or.inl ⟨rfl, hreg⟩
      | some m' =>
        refine Or.inr ⟨trivial, m', rfl, ?_⟩
        dsimp only
        rw [hreg]
        split
        · next reg heq =>
          rw [heq]
          exact .refl reg
        · next reg own heq =>
          rw [heq]
          exact .refl reg
        · next reg own partner heq =>
          rw [heq]
          exact notePaired_latchOnly reg m'.token
  · rw [Bool.not_eq_true] at hver
    simp only [hver]
    exact Or.inl ⟨rfl, rfl⟩

theorem replyTo_records (s : Shared) (t : Clock) (m : Message) (peers : List Peer) :
    (replyTo cr srv ids s t m peers).1.reg.waiting = s.reg.waiting ∧
      (replyTo cr srv ids s t m peers).1.reg.heap = s.reg.heap := by
  unfold replyTo
  split
  · exact ⟨rfl, rfl⟩
  · next partner rest =>
    have hissue := issueTicket_effect cr srv.params ids s.reg s.drawn t.issue m partner
    generalize issueTicket cr srv.params ids s.reg s.drawn t.issue m partner = res at hissue ⊢
    obtain ⟨r', drawn', ticket⟩ := res
    obtain ⟨sids, rfl⟩ := hissue.sids_only
    exact ⟨rfl, rfl⟩

/-- **How far a request comes.** It is turned away in front of the registry and gets no roster, or
it is handed to `pairRegister` and answered with what comes out of that. -/
theorem handleControlReq_inv (cr : Crypto) (srv : Server) (ids : ℕ → Bytes) (s : Shared)
    (t : Clock) (o : Orders) (req : ControlRequest) :
    ((handleControlReq cr srv ids s t o req).1.reg = s.reg ∧
      ∀ body, (handleControlReq cr srv ids s t o req).2 = .answer body → body = []) ∨
    ∃ src rl w m, req.remote = some src ∧ parseRegister req.payload = some w ∧
      registrationMatchesTLSKey w.toMessage req.clientKey = true ∧
      resolveToken srv.openCode w = some m ∧
      handleControlReq cr srv ids s t o req =
        match pairRegister cr srv { s with rl := rl } t o src m with
        | (s', none) => (s', .answer [])
        | (s', some peers) => replyTo cr srv ids s' t m peers := by
  unfold handleControlReq
  cases req.remote with
  | none => exact Or.inl ⟨rfl, nofun⟩
  | some src =>
    dsimp only
    split_ifs
    · exact Or.inl ⟨rfl, nofun⟩
    · exact Or.inl ⟨rfl, fun _ h => by cases h; rfl⟩
    · cases hparse : parseRegister req.payload with
      | none => exact Or.inl ⟨rfl, nofun⟩
      | some w =>
        dsimp only
        split_ifs with htls hversion hfields
        · exact Or.inl ⟨rfl, nofun⟩
        · exact Or.inl ⟨rfl, nofun⟩
        · exact Or.inl ⟨rfl, nofun⟩
        · cases htoken : resolveToken srv.openCode w with
          | none => exact Or.inl ⟨rfl, nofun⟩
          | some m =>
            exact Or.inr ⟨src, (s.rl.allow (fromIP src.ip) t.limit).1, w, m, rfl, rfl,
              by simpa using htls, htoken, rfl⟩

/-- **A request leaves the registry alone, or it passed every check in front of it**, and the
records are those after one `upsert` of the registration. -/
theorem handleControlReq_cases (cr : Crypto) (srv : Server) (ids : ℕ → Bytes) (s : Shared)
    (t : Clock) (o : Orders) (req : ControlRequest) :
    (handleControlReq cr srv ids s t o req).1.reg = s.reg ∨
    ∃ src w m m', req.remote = some src ∧ parseRegister req.payload = some w ∧
      registrationMatchesTLSKey w.toMessage req.clientKey = true ∧
      resolveToken srv.openCode w = some m ∧
      verifyRegistration cr t.verify m = true ∧ deriveVIP cr m = some m' ∧
      (handleControlReq cr srv ids s t o req).1.reg.heap =
        (s.reg.upsert srv.params.ttl t.upsert src o.evict o.partner m').1.heap := by
  rcases handleControlReq_inv cr srv ids s t o req with
    ⟨hsame, -⟩ | ⟨src, rl, w, m, hremote, hparse, htls, htoken, heq⟩
  · exact Or.inl hsame
  · have hpair := pairRegister_cases cr srv { s with rl := rl } t o src m
    generalize pairRegister cr srv { s with rl := rl } t o src m = res at hpair heq
    obtain ⟨s', out⟩ := res
    rcases hpair with ⟨hout, hreg⟩ | ⟨hver, m', hvip, hlatch⟩
    · obtain rfl : out = none := hout
      exact Or.inl (by rw [heq]; exact hreg)
    · refine Or.inr ⟨src, w, m, m', hremote, hparse, htls, htoken, hver, hvip, ?_⟩
      rw [heq]
      cases out with
      | none => exact hlatch.heap
      | some peers => exact (replyTo_records s' t m peers).2.trans hlatch.heap

theorem registrationMatchesTLSKey_spec {clientKey : Bytes}
    (h : registrationMatchesTLSKey m clientKey = true) :
    stdEncoding.decode m.pubkey = some clientKey ∧ clientKey.length = publicKeySize := by
  unfold registrationMatchesTLSKey at h
  cases hdec : stdEncoding.decode m.pubkey with
  | none => simp [hdec] at h
  | some claimed =>
    simp only [hdec, Bool.and_eq_true, beq_iff_eq] at h
    obtain ⟨hlen, -, rfl⟩ := h
    exact ⟨rfl, hlen⟩

theorem verifyRegistration_spec {now : ℤ} (h : verifyRegistration cr now m = true) {pub : Bytes}
    (hpub : stdEncoding.decode m.pubkey = some pub) :
    |now - m.ts * 1000000000| ≤ regSkew ∧
      ∃ sig, cr.ed25519Verify pub (registrationPayload m) sig = true := by
  refine ⟨(verifyRegistration_window h).2, ?_⟩
  unfold verifyRegistration at h
  rw [hpub] at h
  cases hsig : stdEncoding.decode m.regSig with
  | none => simp [hsig] at h
  | some sig =>
    simp only [hsig, Bool.and_eq_true] at h
    exact ⟨sig, h.2.2⟩

/-- The record an `upsert` writes has the key and the virtual address of the registration; no other
record changes. -/
theorem upsert_heap_ne {r : Registry} {ttl now : ℤ} {evict order : List Bytes} {ref : ℕ}
    (h : (r.upsert ttl now src evict order m).1.heap ref ≠ r.heap ref) (hkey : m.pubkey ≠ [])
    (hvip : m.virtualIP ≠ []) :
    ((r.upsert ttl now src evict order m).1.heap ref).pubkey = m.pubkey ∧
      ((r.upsert ttl now src evict order m).1.heap ref).virtualIP = m.virtualIP := by
  generalize hup : r.upsert ttl now src evict order m = res at h ⊢
  obtain ⟨r', _ | ⟨own, partner⟩⟩ := res
  · exact absurd (congrFun (upsert_refused hup).heap ref) h
  · have hu := upsert_spec hup
    obtain rfl : ref = own := by
      by_contra hne
      exact h (hu.heap_ne hne)
    have hstored := fieldWrites_stored m src now (r.baseRecord m)
    rw [hu.heap_self]
    exact ⟨hstored.pubkey hkey, hstored.virtualIP hvip⟩

/-- **Only proven registrations enter the registry.** If a control request changes the registry,
then the TLS connection was authenticated with the 32-byte key that the registration's key string
decodes to; the holder of that key signed the payload of exactly the message the server acts on,
which no message with other signed fields has; its timestamp is within 60 s of the server's clock;
and a record that changed has the message's key and the virtual address this key derives. -/
theorem registry_only_by_proof (cr : Crypto) (srv : Server) (ids : ℕ → Bytes)
    (Signed : Bytes → Bytes → Prop) (hcr : cr.Unforgeable Signed) (s : Shared) (t : Clock)
    (o : Orders) (req : ControlRequest)
    (hchange : (handleControlReq cr srv ids s t o req).1.reg ≠ s.reg) :
    ∃ w m, parseRegister req.payload = some w ∧ resolveToken srv.openCode w = some m ∧
      stdEncoding.decode m.pubkey = some req.clientKey ∧ req.clientKey.length = 32 ∧
      Signed req.clientKey (registrationPayload m) ∧
      (∀ m', registrationPayload m' = registrationPayload m → m'.signed = m.signed) ∧
      |t.verify - m.ts * 1000000000| ≤ 60 * 1000000000 ∧
      ∀ ref, (handleControlReq cr srv ids s t o req).1.reg.heap ref ≠ s.reg.heap ref →
        ((handleControlReq cr srv ids s t o req).1.reg.heap ref).pubkey = m.pubkey ∧
        ((handleControlReq cr srv ids s t o req).1.reg.heap ref).virtualIP =
          virtualIPString cr req.clientKey := by
  rcases handleControlReq_cases cr srv ids s t o req with
    hsame | ⟨src, w, m, m', -, hparse, htls, htoken, hver, hvip, hheap⟩
  · exact absurd hsame hchange
  -- opening the token does not touch the key
  have hpubkey : m.pubkey = w.pubkey := by
    unfold resolveToken at htoken
    split at htoken
    · split_ifs at htoken
      rw [← Option.some.inj htoken]
    · cases htoken
  obtain ⟨hdec, hlen⟩ := registrationMatchesTLSKey_spec htls
  have hdec' : stdEncoding.decode m.pubkey = some req.clientKey := by rwa [hpubkey]
  obtain ⟨hskew, sig, hsig⟩ := verifyRegistration_spec hver hdec'
  have hkey := verifyRegistration_pubkey_ne_nil hver
  obtain ⟨pub, hpub, rfl⟩ := deriveVIP_spec hkey hvip
  have hsame : pub = req.clientKey := by
    have hdecode : decodePubKey m.pubkey = some req.clientKey := by
      simp [decodePubKey, hdec', hlen]
    exact Option.some.inj (hpub.symm.trans hdecode)
  refine ⟨w, m, hparse, htoken, hdec', hlen, hcr _ _ sig hsig,
    fun m₂ hm₂ => registrationPayload_inj (resolveToken_textual hparse htoken) hm₂, hskew, ?_⟩
  intro ref href
  rw [hheap] at href ⊢
  rw [← hsame]
  exact upsert_heap_ne href hkey (virtualIPString_ne_nil pub)

namespace FirstContact

open Sample

/-- The sample server, whose sealed tokens all open to the one token of the run. -/
def server : Server := ⟨params, [], fun _ => some (lit "token")⟩

/-- Nobody has registered yet, and any client may. -/
def start : Shared := ⟨Registry.empty, 0, Limiter.new 1000 50 8192 0, none⟩

/-- Every reading of the clock is at 100 s. -/
def clock : Clock :=
  let now := 100 * 1000000000
  ⟨now, now, now, now, now, now, now, now⟩

/-- A registration by the sample's key 2, over a connection that was authenticated with this key. -/
def request : ControlRequest :=
  ⟨some (home 2), List.replicate 32 2, payload (registration 2 (lit "idA") 100 [])⟩

end FirstContact

open Sample FirstContact in
/-- A first registration enters the registry. -/
theorem registry_only_by_proof_first :
    (handleControlReq crypto server drawnID start clock ⟨[], [], []⟩ request).1.reg.waiting.keys =
      [lit "token"] ∧
    ∃ m, crypto.ed25519Verify (List.replicate 32 2) (registrationPayload m)
      (List.replicate 64 2) = true ∧ m.token = lit "token" := by
  have hkeys : (handleControlReq crypto server drawnID start clock ⟨[], [], []⟩
      request).1.reg.waiting.keys = [lit "token"] := by decide +kernel
  have hchange : (handleControlReq crypto server drawnID start clock ⟨[], [], []⟩
      request).1.reg ≠ start.reg := by
    intro h
    rw [h] at hkeys
    exact absurd hkeys (by decide)
  have hunforgeable : crypto.Unforgeable fun k msg => crypto.ed25519Verify k msg
      (k ++ k) = true := by
    intro k msg sig h
    have hsig : sig = k ++ k := by simpa [crypto] using h
    rwa [hsig] at h
  obtain ⟨w, m, -, htoken, -, -, hsigned, -⟩ := registry_only_by_proof crypto server drawnID _
    hunforgeable start clock ⟨[], [], []⟩ request hchange
  refine ⟨hkeys, m, hsigned, ?_⟩
  unfold resolveToken at htoken
  split at htoken
  · next tok htok =>
    split_ifs at htoken
    rw [← Option.some.inj htoken, ← Option.some.inj htok]
  · cases htoken

end BuddyNet.Handshake
