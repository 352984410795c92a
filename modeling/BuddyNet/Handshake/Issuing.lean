import BuddyNet.Go.Sort
import BuddyNet.Handshake.Wire
import BuddyNet.Handshake.Steps
import BuddyNet.TicketText

/-!
# Issuing tickets

When a paired request gets a relay ticket. Past the checks of `issueTicket` only the size guard of
`Sign` is left, and `sign_permit` says when it fires: the string of the ephemeral key is checked
by decoding it, the decoder skips line breaks, and the payload carries the string as it came.
-/

namespace BuddyNet.Handshake

open Registry Machine

/-! ### The permit -/

/-- The payload that `issueTicket` signs. -/
def permit (P : Params) (now : ℤ) (m : Message) (partner : Peer) (sid nonce : Bytes) :
    Ticket.Payload where
  v := Ticket.formatVersion
  rid := P.rid
  sid := sid
  leg := legOf m.pubkey partner.pubkey
  epk := m.ephPub
  iat := now / 1000000000
  exp := (now + Ticket.maxTTL * 1000000000) / 1000000000
  nonce := nonce

/-- The two texts of a signed payload. -/
def issuedOf (p : Ticket.Payload) (signed : Bytes × Bytes) : Issued :=
  ⟨p, rawURLEncoding.encode signed.1, rawURLEncoding.encode signed.2⟩

theorem decode_issuedOf (p : Ticket.Payload) (signed : Bytes × Bytes) :
    rawURLEncoding.decode (issuedOf p signed).wire = some signed.1 ∧
      rawURLEncoding.decode (issuedOf p signed).sig = some signed.2 :=
  ⟨decode_encode_url _, decode_encode_url _⟩

variable {P : Params} {ids : ℕ → Bytes} {r r' : Registry} {m : Message} {sid : Bytes}
  {partner : Peer}

/-- **Past its checks, `issueTicket` returns what `Sign` does.** -/
theorem issueTicket_eq (cr : Crypto) {drawn : ℕ} (now : ℤ) (hrid : P.rid ≠ [])
    (hepk : (rawURLEncoding.decode m.ephPub).map (·.length) = some publicKeySize)
    (hkeys : m.pubkey ≠ partner.pubkey) (hsid : r.sidFor m.token (ids drawn) = (r', some sid)) :
    ∃ n, (issueTicket cr P ids r drawn now m partner).1 = r' ∧
      (issueTicket cr P ids r drawn now m partner).2.2 =
        (Ticket.sign cr P.priv (permit P now m partner sid (ids n))).map
          (issuedOf (permit P now m partner sid (ids n))) := by
  have hne : m.ephPub ≠ [] := by
    intro hnil
    rw [hnil] at hepk
    exact absurd hepk (by decide)
  unfold issueTicket
  rw [if_neg (by simp [hrid, hne]), if_neg (by simp [hepk]), if_neg hkeys]
  generalize (if m.token ∈ r.sids ∨ maxTokens ≤ r.sids.keys.length then drawn else drawn + 1) = n
  refine ⟨n, ?_⟩
  obtain ⟨p, hp⟩ : ∃ p, permit P now m partner sid (ids n) = p := ⟨_, rfl⟩
  have hfields := hp
  unfold permit at hfields
  simp only [hsid, hfields, hp]
  cases Ticket.sign cr P.priv p <;> exact ⟨rfl, rfl⟩

theorem legOf_cases (key partner : Bytes) :
    legOf key partner = Ticket.legA ∨ legOf key partner = Ticket.legB := by
  unfold legOf
  split_ifs
  · exact Or.inr rfl
  · exact Or.inl rfl

theorem legOf_opposite {a b : Bytes} (h : a ≠ b) :
    legOf a b = Ticket.legA ∧ legOf b a = Ticket.legB ∨
      legOf a b = Ticket.legB ∧ legOf b a = Ticket.legA := by
  unfold legOf
  rw [Go.strLt_of_ne h]
  cases Go.strLt a b with
  | false => exact Or.inr ⟨rfl, rfl⟩
  | true => exact Or.inl ⟨rfl, rfl⟩

/-- The clock of the server in seconds, and that of a ticket's end, fit in 64 bits. -/
def ClockInRange (now : ℤ) : Prop :=
  -2 ^ 63 ≤ now / 1000000000 ∧ now / 1000000000 + Ticket.maxTTL < 2 ^ 63

theorem permit_exp (P : Params) (now : ℤ) (m : Message) (partner : Peer) (sid nonce : Bytes) :
    (permit P now m partner sid nonce).exp =
      (permit P now m partner sid nonce).iat + Ticket.maxTTL := by
  simp only [permit, Ticket.maxTTL]
  omega

variable {nonce : Bytes} {now : ℤ}

theorem permit_wellFormed (hrid : Ticket.validID P.rid = true) (hsid : Ticket.validID sid = true)
    (hnonce : Ticket.validID nonce = true) (hnow : ClockInRange now)
    (hepk : (rawURLEncoding.decode m.ephPub).map (·.length) = some publicKeySize) :
    (permit P now m partner sid nonce).WellFormed where
  ver := rfl
  rid := hrid
  sid := hsid
  leg := legOf_cases _ _
  epk := by
    obtain ⟨raw, hraw, hlen⟩ := Option.map_eq_some_iff.1 hepk
    exact ⟨raw, hraw, hlen⟩
  iat := by
    obtain ⟨hlo, hhi⟩ := hnow
    simp only [permit]
    simp only [Ticket.maxTTL] at hhi
    omega
  exp := by
    obtain ⟨hlo, hhi⟩ := hnow
    simp only [permit]
    simp only [Ticket.maxTTL] at hhi ⊢
    omega
  nonce := hnonce

/-! ### Session ids -/

/-- Every session id of the registry was drawn. -/
def SidsDrawn (ids : ℕ → Bytes) (r : Registry) : Prop :=
  ∀ tok sid, r.sids.lookup tok = some sid → ∃ n, sid = ids n

theorem SidsDrawn.shrink (h : SidsDrawn ids r) (hs : Shrinks r r') : SidsDrawn ids r' := by
  intro tok sid hsid
  rcases hs.sid_or tok with heq | hnone
  · exact h tok sid (heq ▸ hsid)
  · rw [hnone] at hsid
    cases hsid

theorem SidsDrawn.issue {drawn drawn' : ℕ} {t : Option Issued} (h : SidsDrawn ids r)
    (hi : IssueEffect ids r drawn m partner (r', drawn', t)) : SidsDrawn ids r' := by
  cases hi with
  | refused => exact h
  | reused => exact h
  | minted =>
    intro tok sid hsid
    rcases Go.lookup_insert_cases hsid with hold | ⟨-, rfl⟩
    · exact h tok sid hold
    · exact ⟨drawn, rfl⟩

variable {s : State} {cr : Crypto}

theorem SidsDrawn.step (e : Event)
    (h : SidsDrawn ids s.reg) : SidsDrawn ids (step cr P ids s e).reg := by
  have heff := step_effect cr P ids s e
  generalize Handshake.step cr P ids s e = s' at heff ⊢
  cases heff with
  | idle => exact h
  | refused hr | noted hreq hr => exact h.shrink hr.shrinks
  | registered hacc hup =>
    intro tok sid hsid
    rw [(upsert_spec hup).sids] at hsid
    exact h.shrink (trimmed_shrinks s.reg _ _) tok sid hsid
  | rendered hreq => exact h
  | issued hreq hissue => exact h.issue hissue
  | reaped now => exact h.shrink (reap_shrinks s.reg P.ttl now)

theorem sidsDrawn_run (cr : Crypto) (P : Params) (ids : ℕ → Bytes) (es : List Event) :
    SidsDrawn ids (runFrom cr P ids es).reg :=
  invariant_run (P := fun s : State => SidsDrawn ids s.reg) (fun _ e h => h.step e)
    (fun _ _ h => by cases h) es

variable {tok : Bytes}

theorem sidFor_drawn {n : ℕ}
    (h : SidsDrawn ids r) (hsid : r.sidFor tok (ids n) = (r', some sid)) : ∃ k, sid = ids k := by
  unfold sidFor at hsid
  split at hsid
  · next sid' hold =>
    obtain rfl : sid' = sid := Option.some.inj (Prod.mk.inj hsid).2
    exact h tok sid' hold
  · split_ifs at hsid
    · cases (Prod.mk.inj hsid).2
    · exact ⟨n, (Option.some.inj (Prod.mk.inj hsid).2).symm⟩

/-! ### One session id for a token -/

theorem sid_kept_step {e : Event} (hsid : s.reg.sids.lookup tok = some sid)
    (hlive : tok ∈ s.reg.waiting) (hstays : tok ∈ (step cr P ids s e).reg.waiting) :
    (step cr P ids s e).reg.sids.lookup tok = some sid := by
  have heff := step_effect cr P ids s e
  generalize Handshake.step cr P ids s e = s' at heff hstays ⊢
  cases heff with
  | idle => exact hsid
  | refused hr | noted hreq hr => exact (hr.shrinks.sid_kept hstays).trans hsid
  | @registered req now src m m' evict order r' own partner hacc hup =>
    have hu := upsert_spec hup
    have htrim : tok ∈ (s.reg.trimmed evict m'.token).waiting := by
      rcases hu.waiting.1 hstays with rfl | htrim
      · rwa [trimmed_of_mem hlive]
      · exact htrim
    rw [hu.sids, (trimmed_shrinks s.reg evict m'.token).sid_kept htrim, hsid]
  | rendered hreq => exact hsid
  | issued hreq hissue =>
    cases hissue with
    | refused => exact hsid
    | reused => exact hsid
    | minted hd hnone =>
      -- the id is minted for a token that has none
      have hne : tok ≠ _ := fun heq => by
        rw [heq, hnone] at hsid
        cases hsid
      rw [AList.lookup_insert_ne hne, hsid]
  | reaped now => exact ((reap_shrinks s.reg P.ttl now).sid_kept hstays).trans hsid

theorem sid_kept {es : List Event} (hsid : s.reg.sids.lookup tok = some sid)
    (hlive : Throughout (step cr P ids) (fun s => tok ∈ s.reg.waiting) s es) :
    (run (step cr P ids) s es).reg.sids.lookup tok = some sid :=
  invariant_along (P := fun s : State => s.reg.sids.lookup tok = some sid)
    (fun _ _ hs hg => sid_kept_step hs hg.1 hg.2) hsid hlive.along_steps

/-! ### Completeness -/

/-- How long the payload of a ticket is: the string of the ephemeral key may have line breaks. -/
def payloadLength (now : ℤ) (m : Message) : ℕ :=
  178 + 2 * lineBreaks m.ephPub + (Go.formatInt (now / 1000000000)).length +
    (Go.formatInt (now / 1000000000 + Ticket.maxTTL)).length

theorem payloadLength_le (hnow : ClockInRange now)
    (h : lineBreaks m.ephPub ≤ 147) : payloadLength now m ≤ Ticket.maxPayloadLen := by
  obtain ⟨hlo, hhi⟩ := hnow
  have hiat := Go.Json.formatInt_length hlo (by unfold Ticket.maxTTL at hhi; omega)
  have hexp := Go.Json.formatInt_length (by unfold Ticket.maxTTL; omega) hhi
  unfold payloadLength Ticket.maxPayloadLen
  omega

theorem permit_length (h : (permit P now m partner sid nonce).WellFormed) :
    (Ticket.marshal (permit P now m partner sid nonce)).length = payloadLength now m := by
  rw [h.marshal_length, permit_exp]
  rfl

theorem sign_permit (cr : Crypto) (h : (permit P now m partner sid nonce).WellFormed) :
    Ticket.sign cr P.priv (permit P now m partner sid nonce) =
      if payloadLength now m ≤ Ticket.maxPayloadLen then
        some (Ticket.marshal (permit P now m partner sid nonce), cr.ed25519Sign P.priv
          (Ticket.signedBytes (Ticket.marshal (permit P now m partner sid nonce)))) else none := by
  rw [Ticket.sign, permit_length h]
  split_ifs with hbig hfits
  · omega
  · rfl
  · rfl
  · omega

/-- **Ticket issuing.** In any reachable state of a server with a valid relay id, let a registration
have an ephemeral-key string that decodes to 32 bytes and a key other than its partner's, and let a
session id be available. Then it gets a ticket exactly if the payload is at most 512 bytes long,
which it is unless the string contains more than 147 line breaks; and the payload of the ticket is
one that `Parse` accepts. -/
theorem ticket_issuing (cr : Crypto) (P : Params) (hrid : Ticket.validID P.rid = true)
    (ids random : ℕ → Bytes) (hids : ∀ n, ids n = Ticket.newID (random n))
    (hrandom : ∀ n, (random n).length = 16) (es : List Event) (m : Message) (entry : Peer) (now : ℤ)
    (hnow : ClockInRange now)
    (hepk : (rawURLEncoding.decode m.ephPub).map (·.length) = some 32)
    (hkeys : m.pubkey ≠ entry.pubkey)
    (hsid : ((runFrom cr P ids es).reg.sidFor m.token (ids (runFrom cr P ids es).drawn)).2 ≠ none) :
    let ticket := (issueTicket cr P ids (runFrom cr P ids es).reg (runFrom cr P ids es).drawn now m
      entry).2.2
    (ticket ≠ none ↔ payloadLength now m ≤ Ticket.maxPayloadLen) ∧
    (lineBreaks m.ephPub ≤ 147 → ticket ≠ none) ∧
    ∀ t ∈ ticket, ∃ payload, rawURLEncoding.decode t.wire = some payload ∧
      Ticket.parse payload = .ok t.payload := by
  have hvalid : ∀ n, Ticket.validID (ids n) = true := fun n => by
    rw [hids]
    exact Ticket.validID_newID (hrandom n)
  generalize hr : (runFrom cr P ids es).reg.sidFor m.token (ids (runFrom cr P ids es).drawn) = res
    at hsid
  obtain ⟨r', _ | sid⟩ := res
  · exact absurd rfl hsid
  obtain ⟨k, rfl⟩ := sidFor_drawn (sidsDrawn_run cr P ids es) hr
  obtain ⟨n, -, hticket⟩ := issueTicket_eq cr now (Ticket.validID_ne_nil hrid) hepk hkeys hr
  have hform : (permit P now m entry (ids k) (ids n)).WellFormed :=
    permit_wellFormed hrid (hvalid k) (hvalid n) hnow hepk
  rw [sign_permit cr hform] at hticket
  rw [hticket]
  by_cases hfits : payloadLength now m ≤ Ticket.maxPayloadLen
  · rw [if_pos hfits]
    refine ⟨iff_of_true (by simp) hfits, fun _ => by simp, fun t ht => ?_⟩
    obtain rfl := Option.some.inj ht
    have hsize := (permit_length hform).trans_le hfits
    exact ⟨_, (decode_issuedOf _ _).1, hform.parse_marshal hsize⟩
  · rw [if_neg hfits]
    exact ⟨iff_of_false (by simp) hfits, fun h => absurd (payloadLength_le hnow h) hfits,
      fun t ht => nomatch ht⟩

namespace Breaks

open Sample

/-- A registration whose ephemeral-key string has line breaks in it. -/
def padded (k : UInt8) (breaks : ℕ) : Message :=
  let m := registration k (lit "id") 100 []
  { m with id := [k + 96], ephPub := m.ephPub ++ List.replicate breaks Go.nl }

/-- Two buddies register, and the second is about to get its ticket. -/
def run (breaks : ℕ) : List Event :=
  [.register 0 (100 * 1000000000) (home 2) (padded 2 0) [] [],
    .register 1 (100 * 1000000000) (home 3) (padded 3 breaks) [] [], .note 1, .render 1]

/-- The server then. -/
def state (breaks : ℕ) : State := runFrom crypto params drawnID (run breaks)

/-- The registration as it was accepted. -/
def admitted (breaks : ℕ) : Message :=
  { padded 3 breaks with virtualIP := virtualIPString crypto (List.replicate 32 3) }

/-- The roster entry of the first. -/
def entry : Peer := ((state 0).reg.heap 0).asProtocolPeer params.endpoint

end Breaks

deriving instance DecidableEq for Stage

open Sample Breaks in
/-- A registration of a few hundred bytes is accepted and paired, its ephemeral-key string decodes
to 32 bytes, and 170 line breaks in the string leave it without a ticket. -/
theorem ticket_issuing_fails :
    (payload (padded 3 170)).length ≤ 8192 ∧
    (parseRegister (payload (padded 3 170))).bind (resolveToken fun _ => some (lit "token")) =
      some (padded 3 170) ∧
    (state 170).requests.lookup 1 = some (.rendered (admitted 170) 0 entry) ∧
    Ticket.validID params.rid = true ∧
    (rawURLEncoding.decode (admitted 170).ephPub).map (·.length) = some 32 ∧
    (admitted 170).pubkey ≠ entry.pubkey ∧
    ((state 170).reg.sidFor (admitted 170).token (drawnID (state 170).drawn)).2 ≠ none ∧
    (issueTicket crypto params drawnID (state 170).reg (state 170).drawn (100 * 1000000000)
      (admitted 170) entry).2.2 = none := by
  have hsize : (payload (padded 3 170)).length ≤ 8192 := by decide +kernel
  have hparsed : (parseRegister (payload (padded 3 170))).bind
      (resolveToken fun _ => some (lit "token")) = some (padded 3 170) := by decide +kernel
  have hpaired : (state 170).requests.lookup 1 = some (.rendered (admitted 170) 0 entry) := by
    decide +kernel
  have hrid : Ticket.validID params.rid = true := by decide +kernel
  have hepk : (rawURLEncoding.decode (admitted 170).ephPub).map (·.length) = some 32 := by
    decide +kernel
  have hkeys : (admitted 170).pubkey ≠ entry.pubkey := by decide +kernel
  have hsid : ((state 170).reg.sidFor (admitted 170).token
      (drawnID (state 170).drawn)).2 ≠ none := by decide +kernel
  have hnone : (issueTicket crypto params drawnID (state 170).reg (state 170).drawn
      (100 * 1000000000) (admitted 170) entry).2.2 = none := by decide +kernel
  exact ⟨hsize, hparsed, hpaired, hrid, hepk, hkeys, hsid, hnone⟩

open Sample Breaks in
/-- With three line breaks there is a ticket. -/
theorem ticket_issuing_three : ClockInRange (100 * 1000000000) ∧
    (issueTicket crypto params drawnID (runFrom crypto params drawnID (run 3)).reg
      (runFrom crypto params drawnID (run 3)).drawn (100 * 1000000000) (admitted 3) entry).2.2 ≠
        none := by
  have hclock : ClockInRange (100 * 1000000000) := by
    unfold ClockInRange Ticket.maxTTL
    omega
  have hdrawn : ∀ n, drawnID n = Ticket.newID (List.replicate 15 0 ++ [UInt8.ofNat n]) :=
    fun _ => rfl
  have hlen : ∀ n : ℕ, (List.replicate 15 0 ++ [UInt8.ofNat n]).length = 16 := by simp
  have hissue := ticket_issuing crypto params (by decide +kernel) drawnID _ hdrawn hlen (run 3)
    (admitted 3) entry (100 * 1000000000) hclock (by decide +kernel) (by decide +kernel)
    (by decide +kernel)
  exact ⟨hclock, hissue.2.1 (by decide +kernel)⟩

end BuddyNet.Handshake
