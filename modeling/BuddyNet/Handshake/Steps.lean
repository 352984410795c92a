import BuddyNet.Handshake.Control
import BuddyNet.Handshake.Upsert

/-!
# What a step of the handshake server can do

One lemma per part of a request (`accept_spec`, `issueTicket_effect`), and `Effect`, the cases of a
step. The invariants of the server are proved from these and do not unfold the code again.
-/

namespace BuddyNet.Handshake

open Registry List

variable {cr : Crypto} {P : Params} {ids : ℕ → Bytes}

theorem virtualIPString_ne_nil (pub : Bytes) : virtualIPString cr pub ≠ [] := by
  simp [virtualIPString, virtualIP, Go.dotted]

variable {m m' : Message}

/-- A registration with a key leaves `deriveVIP` with the virtual address the key derives. -/
theorem deriveVIP_spec (hkey : m.pubkey ≠ []) (h : deriveVIP cr m = some m') :
    ∃ pub, decodePubKey m.pubkey = some pub ∧
      m' = { m with virtualIP := virtualIPString cr pub } := by
  unfold deriveVIP at h
  rw [if_neg hkey] at h
  split at h
  · cases h
  · next pub hpub =>
    dsimp only at h
    split_ifs at h
    exact ⟨pub, hpub, (Option.some.inj h).symm⟩

variable {now : ℤ}

section

variable (h : verifyRegistration cr now m = true)
include h

theorem verifyRegistration_pubkey_ne_nil : m.pubkey ≠ [] := by
  intro hempty
  have hdec : stdEncoding.decode [] = some [] := by decide
  rw [verifyRegistration, hempty, hdec] at h
  simp [publicKeySize] at h
  split at h <;> simp_all

theorem verifyRegistration_window :
    validNonce m.nonce = true ∧ |now - m.ts * 1000000000| ≤ regSkew := by
  simp only [verifyRegistration, Bool.and_eq_true, decide_eq_true_eq] at h
  obtain ⟨⟨⟨hnonce, hle⟩, hge⟩, -⟩ := h
  exact ⟨hnonce, abs_le.2 ⟨hge, hle⟩⟩

theorem verifyRegistration_nonce_ne_nil : m.nonce ≠ [] := by
  intro hempty
  have hvalid := (verifyRegistration_window h).1
  rw [hempty] at hvalid
  cases hvalid

end

section

variable (h : accept cr now m = some m')
include h

/-- **A registration that passed the checks** carries a key that decodes, a proof by that key, and
the virtual address the key derives. -/
theorem accept_spec :
    verifyRegistration cr now m = true ∧ ∃ pub, decodePubKey m.pubkey = some pub ∧
      m' = { m with virtualIP := virtualIPString cr pub } := by
  unfold accept at h
  split_ifs at h with hver
  exact ⟨hver, deriveVIP_spec (verifyRegistration_pubkey_ne_nil hver) h⟩

theorem accept_pubkey_ne_nil : m'.pubkey ≠ [] := by
  obtain ⟨-, pub, hpub, rfl⟩ := accept_spec h
  rintro (hempty : m.pubkey = [])
  have hnone : decodePubKey [] = none := by decide
  rw [hempty, hnone] at hpub
  cases hpub

theorem accept_virtualIP_ne_nil : m'.virtualIP ≠ [] := by
  obtain ⟨-, pub, -, rfl⟩ := accept_spec h
  exact virtualIPString_ne_nil pub

end

/-! ### Virtual addresses -/

/-- The virtual address is the one the key derives. -/
def VipDerived (cr : Crypto) (pubkey virtualIP : Bytes) : Prop :=
  ∃ pub, decodePubKey pubkey = some pub ∧ virtualIP = virtualIPString cr pub

/-- The registration carries a key and comes out of `deriveVIP`. -/
def ThroughDeriveVIP (cr : Crypto) (m : Message) : Prop :=
  ∃ m₀ : Message, m₀.pubkey ≠ [] ∧ deriveVIP cr m₀ = some m

theorem throughDeriveVIP_of_accept (h : accept cr now m = some m') : ThroughDeriveVIP cr m' := by
  unfold accept at h
  split_ifs at h with hver
  exact ⟨m, verifyRegistration_pubkey_ne_nil hver, h⟩

theorem vipDerived_stored (hm : ThroughDeriveVIP cr m) (src : UDPAddr) (now : ℤ) (p : HsPeer) :
    VipDerived cr ((fieldWrites m src now).foldl FieldWrite.apply p).pubkey
      ((fieldWrites m src now).foldl FieldWrite.apply p).virtualIP := by
  obtain ⟨m₀, hkey, hderive⟩ := hm
  obtain ⟨pub, hpub, rfl⟩ := deriveVIP_spec hkey hderive
  have hstored := fieldWrites_stored { m₀ with virtualIP := virtualIPString cr pub } src now p
  exact ⟨pub, by rw [hstored.pubkey hkey]; exact hpub,
    hstored.virtualIP (virtualIPString_ne_nil pub)⟩

/-! ### Tickets -/

/-- What `issueTicket` does to the session ids and what the ticket says. -/
inductive IssueEffect (ids : ℕ → Bytes) (r : Registry) (drawn : ℕ) (m : Message) (partner : Peer) :
    Registry × ℕ × Option Issued → Prop
  | refused {drawn' : ℕ} (hd : drawn ≤ drawn') : IssueEffect ids r drawn m partner (r, drawn', none)
  | reused {drawn' : ℕ} {sid : Bytes} {t : Option Issued} (hd : drawn ≤ drawn')
      (hsid : r.sids.lookup m.token = some sid) (hne : m.pubkey ≠ partner.pubkey)
      (ht : ∀ i, t = some i → i.payload.sid = sid ∧ i.payload.leg = legOf m.pubkey partner.pubkey) :
      IssueEffect ids r drawn m partner (r, drawn', t)
  | minted {drawn' : ℕ} {t : Option Issued} (hd : drawn < drawn')
      (hsid : r.sids.lookup m.token = none) (hne : m.pubkey ≠ partner.pubkey)
      (ht : ∀ i, t = some i →
        i.payload.sid = ids drawn ∧ i.payload.leg = legOf m.pubkey partner.pubkey) :
      IssueEffect ids r drawn m partner
        ({ r with sids := r.sids.insert m.token (ids drawn) }, drawn', t)

theorem issueTicket_effect (cr : Crypto) (P : Params) (ids : ℕ → Bytes) (r : Registry) (drawn : ℕ)
    (now : ℤ) (m : Message) (partner : Peer) :
    IssueEffect ids r drawn m partner (issueTicket cr P ids r drawn now m partner) := by
  unfold issueTicket
  by_cases hoff : P.rid = [] ∨ m.ephPub = []
  · rw [if_pos hoff]
    exact .refused le_rfl
  rw [if_neg hoff]
  by_cases hepk : ((rawURLEncoding.decode m.ephPub).map (·.length)) ≠ some publicKeySize
  · rw [if_pos hepk]
    exact .refused le_rfl
  rw [if_neg hepk]
  by_cases hne : m.pubkey = partner.pubkey
  · rw [if_pos hne]
    exact .refused le_rfl
  rw [if_neg hne]
  unfold sidFor
  cases hsid : r.sids.lookup m.token with
  | some sid =>
    have hmem : m.token ∈ r.sids := AList.lookup_isSome.1 (by simp [hsid])
    simp only [hmem, true_or, if_true]
    split
    · exact .reused (Nat.le_succ drawn) hsid hne (by simp)
    · refine .reused (Nat.le_succ drawn) hsid hne fun i hi => ?_
      cases hi
      exact ⟨rfl, rfl⟩
  | none =>
    have hmem : m.token ∉ r.sids := AList.lookup_eq_none.1 hsid
    by_cases hfull : maxTokens ≤ r.sids.keys.length
    · simp only [hfull, or_true, if_true]
      exact .refused le_rfl
    · simp only [hfull, hmem, or_self, if_false]
      split
      · exact .minted (by omega) hsid hne (by simp)
      · refine .minted (by omega) hsid hne fun i hi => ?_
        cases hi
        exact ⟨rfl, rfl⟩

theorem IssueEffect.sids_only {r r' : Registry} {drawn drawn' : ℕ} {partner : Peer}
    {t : Option Issued} (h : IssueEffect ids r drawn m partner (r', drawn', t)) :
    ∃ sids, r' = { r with sids := sids } := by
  cases h with
  | refused hd | reused hd hsid hne ht => exact ⟨r.sids, rfl⟩
  | minted hd hsid hne ht => exact ⟨_, rfl⟩

/-! ### Steps -/

/-- The requests after a registration: one with a partner goes on. -/
def State.withRequest (s : State) (req : ℕ) (m : Message) (partner : Option ℕ) :
    AList fun _ : ℕ => Stage :=
  match partner with
  | none => s.requests
  | some p => s.requests.insert req (.paired m p)

/-- The cases of a step. -/
inductive Effect (cr : Crypto) (P : Params) (ids : ℕ → Bytes) (s : State) : Event → State → Prop
  | idle (e : Event) : Effect cr P ids s e s
  | refused {req : ℕ} {now : ℤ} {src : UDPAddr} {m : Message} {evict order : List Bytes}
      {r' : Registry} (hr : LatchOnly s.reg r') :
      Effect cr P ids s (.register req now src m evict order) { s with reg := r' }
  | registered {req : ℕ} {now : ℤ} {src : UDPAddr} {m m' : Message} {evict order : List Bytes}
      {r' : Registry} {own : ℕ} {partner : Option ℕ} (hacc : accept cr now m = some m')
      (hup : s.reg.upsert P.ttl now src evict order m' = (r', some (own, partner))) :
      Effect cr P ids s (.register req now src m evict order)
        { s with reg := r', requests := s.withRequest req m' partner }
  | noted {req : ℕ} {m : Message} {partner : ℕ} {r' : Registry}
      (hreq : s.requests.lookup req = some (.paired m partner)) (hr : LatchOnly s.reg r') :
      Effect cr P ids s (.note req)
        { s with reg := r', requests := s.requests.insert req (.noted m partner) }
  | rendered {req : ℕ} {m : Message} {partner : ℕ}
      (hreq : s.requests.lookup req = some (.noted m partner)) :
      Effect cr P ids s (.render req) { s with
        requests := s.requests.insert req
          (.rendered m partner ((s.reg.heap partner).asProtocolPeer P.endpoint)) }
  | issued {req : ℕ} {now : ℤ} {m : Message} {partner drawn' : ℕ} {entry : Peer} {r' : Registry}
      {t : Option Issued} (hreq : s.requests.lookup req = some (.rendered m partner entry))
      (hissue : IssueEffect ids s.reg s.drawn m entry (r', drawn', t)) :
      Effect cr P ids s (.issue req now)
        ⟨r', s.requests.erase req, drawn', s.answers ++ [⟨m, entry, t⟩]⟩
  | reaped (now : ℤ) : Effect cr P ids s (.reap now) { s with reg := s.reg.reap P.ttl now }

/-- **Every step is one of the cases.** -/
theorem step_effect (cr : Crypto) (P : Params) (ids : ℕ → Bytes) (s : State) (e : Event) :
    Effect cr P ids s e (step cr P ids s e) := by
  cases e with
  | register req now src m evict order =>
    unfold step
    dsimp only
    split_ifs
    · exact .idle _
    · split
      · exact .idle _
      · next m' hacc =>
        generalize hup : s.reg.upsert P.ttl now src evict order m' = res
        obtain ⟨r', out⟩ := res
        rcases out with _ | ⟨own, _ | partner⟩
        · exact .refused (upsert_refused hup)
        · exact @Effect.registered cr P ids s req now src m m' evict order r' own none hacc hup
        · exact .registered hacc hup
  | note req =>
    unfold step
    dsimp only
    split
    · next hreq => exact .noted hreq (notePaired_latchOnly _ _)
    · exact .idle _
  | render req =>
    unfold step
    dsimp only
    split
    · next hreq => exact .rendered hreq
    · exact .idle _
  | issue req now =>
    unfold step
    dsimp only
    split
    · next m partner entry hreq =>
      have hissue := issueTicket_effect cr P ids s.reg s.drawn now m entry
      exact .issued hreq hissue
    · exact .idle _
  | reap now => exact .reaped now

/-! ### Requests -/

theorem lookup_withRequest {s : State} {req q : ℕ} {partner : Option ℕ} {st : Stage}
    (h : (s.withRequest req m partner).lookup q = some st) :
    s.requests.lookup q = some st ∨ ∃ p, partner = some p ∧ st = .paired m p := by
  cases partner with
  | none => exact Or.inl h
  | some p =>
    rcases Go.lookup_insert_cases h with hold | ⟨-, hst⟩
    · exact Or.inl hold
    · exact Or.inr ⟨p, rfl, hst⟩

/-! ### A server for runs on fixed inputs -/

namespace Sample

/-- The signature of a key is its bytes twice. -/
def crypto : Crypto where
  ed25519Sign := fun priv _ => priv
  ed25519Verify := fun pub _ sig => sig == pub ++ pub
  hmacSHA256 := fun _ msg => msg
  sha256 := fun m => m

/-- The server's default lifetime, and a relay. -/
def params : Params :=
  { ttl := 10 * 1000000000, rid := Ticket.newID (replicate 16 7), endpoint := lit "relay:1" }

/-- The ids drawn. -/
def drawnID (n : ℕ) : Bytes := Ticket.newID (replicate 15 0 ++ [UInt8.ofNat n])

theorem drawnID_injOn : Set.InjOn drawnID (Set.Iio 4) := by
  have hinj : ∀ n < 4, ∀ n' < 4, drawnID n = drawnID n' → n = n' := by decide +kernel
  exact fun n hn n' hn' heq => hinj n hn n' hn' heq

/-- The text of one of the keys. -/
def key (k : UInt8) : Bytes := pubKeyB64 (replicate 32 k)

/-- The address a key registers from. -/
def home (k : UInt8) : UDPAddr := ⟨[192, 0, 2, k], 40000, []⟩

/-- A registration on the one token of the run. -/
def registration (k : UInt8) (id : Bytes) (sec : ℕ) (name : Bytes) : Message where
  ver := 8
  role := lit "buddy"
  token := lit "token"
  id := id
  pubkey := key k
  name := name
  ts := sec
  nonce := rawURLEncoding.encode (replicate 16 (UInt8.ofNat sec))
  regSig := stdEncoding.encode (replicate 64 k)
  ephPub := rawURLEncoding.encode (replicate 32 k)

/-- The registration after the checks. -/
def accepted (k : UInt8) (id : Bytes) (sec : ℕ) (name : Bytes) : Message :=
  { registration k id sec name with virtualIP := virtualIPString crypto (replicate 32 k) }

/-- It arrives. -/
def register (req : ℕ) (k : UInt8) (id : Bytes) (sec : ℕ) (name : Bytes) : Event :=
  .register req (sec * 1000000000) (home k) (registration k id sec name) [] []

/-- The rest of a request that found a partner. -/
def answer (req sec : ℕ) : List Event := [.note req, .render req, .issue req (sec * 1000000000)]

end Sample

end BuddyNet.Handshake
