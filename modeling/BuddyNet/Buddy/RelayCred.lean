import BuddyNet.Relay.BindText
import BuddyNet.Relay.Server
import BuddyNet.TicketText

/-!
# A buddy's relay credentials

`internal/role/relaycred.go`: a throwaway key for one attempt, the ticket the server issued against
it, and the bind made from both.

* `adopt_issued`: a buddy adopts a ticket that names its key;
* `parseBind_bindFor`: the bind made from it under any cookie passes the bounds of `ParseBind`;
* `verifyTicketBind_bindFor`: a relay with the same id that pins the server's key verifies it, while
  the ticket lasts and the clocks are at most `skew` apart.
-/

namespace BuddyNet

open List

/-- A generated key pair: verification accepts what signing produced. -/
structure Crypto.KeyPair (cr : Crypto) (pub priv : Bytes) : Prop where
  pub_length : pub.length = publicKeySize
  sig_length : ∀ msg, (cr.ed25519Sign priv msg).length = signatureSize
  verifies : ∀ msg, cr.ed25519Verify pub msg (cr.ed25519Sign priv msg) = true

namespace Buddy

open Go.Json Relay

/-! ### The credentials -/

/-- `protocol.RelayTicket`. -/
structure RelayTicket where
  payload : Bytes
  sig : Bytes
  deriving DecidableEq

/-- `relayCred`: the ephemeral key pair, and what `adopt` filled in. -/
structure RelayCred where
  priv : Bytes
  pub : Bytes
  payload : Bytes := []
  sig : Bytes := []
  sid : Bytes := []
  deriving DecidableEq

/-- `newRelayCred`, from a generated key pair. -/
def newRelayCred (pub priv : Bytes) : RelayCred where
  priv := priv
  pub := rawURLEncoding.encode pub

/-- The errors of `adopt`. -/
inductive AdoptError where
  | missing
  | payload
  | signature
  | malformed (r : Ticket.Reason)
  | otherKey
  deriving DecidableEq

/-- The message of an error. -/
def AdoptError.text : AdoptError → Bytes
  | missing => lit "no relay ticket in this roster"
  | payload => lit "relay ticket payload is not base64url"
  | signature => lit "relay ticket signature is malformed"
  | malformed r => lit "relay ticket is malformed: " ++ r.text
  | otherKey =>
    lit "relay ticket is bound to a different ephemeral key — it cannot be used by this buddy"

def adopt (c : Option RelayCred) (rt : Option RelayTicket) : Except AdoptError RelayCred :=
  match c, rt with
  | some c, some rt =>
    match rawURLEncoding.decode rt.payload, rawURLEncoding.decode rt.sig with
    | none, _ => .error .payload
    | some _, none => .error .signature
    | some payload, some sig =>
      if sig.length ≠ signatureSize then .error .signature
      else match Ticket.parse payload with
        | .error r => .error (.malformed r)
        | .ok p =>
          if p.epk ≠ c.pub then .error .otherKey
          else .ok { c with payload := payload, sig := sig, sid := p.sid }
  | _, _ => .error .missing

/-- `have`: whether a usable ticket was adopted. -/
def haveTicket (c : Option RelayCred) : Bool :=
  match c with
  | none => false
  | some c => c.sid != []

def bindCred (c : Option RelayCred) : Option BindCred :=
  if haveTicket c then c.map fun c => ⟨c.payload, c.sig, c.priv⟩ else none

/-- `session`: the session id the server named, otherwise the derived one. -/
def session (c : Option RelayCred) (derived : Bytes) : Bytes :=
  match c with
  | none => derived
  | some c => if haveTicket (some c) then c.sid else derived

def epk (c : Option RelayCred) : Bytes :=
  match c with
  | none => []
  | some c => c.pub

/-- The bind that `BindLeg` sends after a challenge. -/
def bindFor (cr : Crypto) (c : Option RelayCred) (derived cookie : Bytes) : Bind :=
  BindCred.bind cr (bindCred c) (session c derived) (rawURLEncoding.encode cookie) cookie

/-! ### A ticket and its key -/

/-- A well-formed payload that fits, as the holder of a signing key issued it. -/
structure Permit (cr : Crypto) (serverPub serverPriv : Bytes) (p : Ticket.Payload) : Prop where
  server : cr.KeyPair serverPub serverPriv
  form : p.WellFormed
  size : (Ticket.marshal p).length ≤ Ticket.maxPayloadLen

/-- What the server sends. -/
def relayTicket (cr : Crypto) (serverPriv : Bytes) (p : Ticket.Payload) : RelayTicket where
  payload := rawURLEncoding.encode (Ticket.marshal p)
  sig := rawURLEncoding.encode (cr.ed25519Sign serverPriv (Ticket.signedBytes (Ticket.marshal p)))

/-- The credentials once the ticket is adopted. -/
def adopted (cr : Crypto) (serverPriv : Bytes) (p : Ticket.Payload) (pub priv : Bytes) :
    RelayCred where
  priv := priv
  pub := rawURLEncoding.encode pub
  payload := Ticket.marshal p
  sig := cr.ed25519Sign serverPriv (Ticket.signedBytes (Ticket.marshal p))
  sid := p.sid

variable {cr : Crypto} {serverPub serverPriv pub priv : Bytes} {p : Ticket.Payload}

/-- **A buddy adopts the ticket that names its key.** -/
theorem adopt_issued (h : Permit cr serverPub serverPriv p)
    (hepk : p.epk = (newRelayCred pub priv).pub) :
    adopt (some (newRelayCred pub priv)) (some (relayTicket cr serverPriv p)) =
      .ok (adopted cr serverPriv p pub priv) := by
  simp only [adopt, relayTicket, decode_encode_url, h.server.sig_length, ne_eq, not_true_eq_false,
    if_false, h.form.parse_marshal h.size, hepk, newRelayCred, adopted]

/-- The bind of adopted credentials: the session the ticket names, the ticket as it came, and a
proof over this cookie. -/
theorem bindFor_adopted (h : Permit cr serverPub serverPriv p) (derived cookie : Bytes) :
    bindFor cr (some (adopted cr serverPriv p pub priv)) derived cookie =
      { sessionToken := p.sid
        cookie := rawURLEncoding.encode cookie
        ticket := (relayTicket cr serverPriv p).payload
        ticketSig := (relayTicket cr serverPriv p).sig
        bindSig := rawURLEncoding.encode (Ticket.signBind cr priv (Ticket.marshal p)
          (cr.ed25519Sign serverPriv (Ticket.signedBytes (Ticket.marshal p))) cookie) } := by
  have hhave : haveTicket (some (adopted cr serverPriv p pub priv)) = true :=
    bne_iff_ne.2 (Ticket.validID_ne_nil h.form.sid)
  simp only [bindFor, bindCred, session, hhave, if_true, Option.map_some, BindCred.bind]
  simp only [adopted, relayTicket]

/-! ### The bounds of a bind -/

theorem base64urlOnly_encode (s : Bytes) : base64urlOnly (rawURLEncoding.encode s) = true :=
  base64urlOnly_iff.2 fun _ hc => urlSafe_encode hc

/-- A ticket for a generated key has no line breaks in it. -/
theorem marshal_length_le (h : p.WellFormed) (hepk : p.epk = rawURLEncoding.encode pub) :
    (Ticket.marshal p).length ≤ 218 := by
  have hiat := formatInt_length h.iat.1 h.iat.2
  have hexp := formatInt_length h.exp.1 h.exp.2
  have hbreaks : lineBreaks p.epk = 0 := by
    rw [hepk]
    refine countP_eq_zero.2 fun c hc => ?_
    simp [Encoding.encode_not_newline (Or.inr rfl) hc]
  rw [h.marshal_length, hbreaks]
  omega

/-- A bind with base64url in its fields, of the sizes that credentials have. -/
theorem parseBind_of_encoded {b : Bind} (hurl : base64urlOnly b.sessionToken = true)
    (hplain : ∀ f ∈ [b.sessionToken, b.cookie, b.ticket, b.ticketSig, b.bindSig], ∀ c ∈ f, Plain c)
    (htok : b.sessionToken.length = 22) (hcookie : b.cookie.length = 22)
    (hticket : b.ticket.length ≤ 291) (hsig : b.ticketSig.length = 86)
    (hbind : b.bindSig.length = 86) : parseBind (marshalBind b) = some b := by
  simp only [forall_mem_cons] at hplain
  obtain ⟨hp1, hp2, hp3, hp4, hp5, -⟩ := hplain
  have htext : b.Textual := ⟨utf8_of_plain hp1, utf8_of_plain hp2, utf8_of_plain hp3,
    utf8_of_plain hp4, utf8_of_plain hp5⟩
  refine parseBind_marshalBind htext ?_ ?_
  · have hmax : b.ticket.length ≤ maxTicketB64 := hticket.trans (by decide)
    simp [Bind.wellFormed, htok, hcookie, hsig, hbind, hurl, hmax, minSessionTokenLen, maxFieldLen,
      maxSigB64]
  · have hlen := marshalBind_length_le hp1 hp2 hp3 hp4 hp5
    unfold maxBindLen
    omega

theorem encode_length_sig {sig : Bytes} (h : sig.length = signatureSize) :
    (rawURLEncoding.encode sig).length = 86 := by
  rw [Encoding.encode_length_raw rfl, h]
  rfl

variable {cookie : Bytes}

/-- **The bind passes the bounds of `ParseBind`**, whatever the cookie is. -/
theorem parseBind_bindFor (h : Permit cr serverPub serverPriv p) (hkey : cr.KeyPair pub priv)
    (hepk : p.epk = rawURLEncoding.encode pub) (derived : Bytes)
    (hcookie : cookie.length = cookieLen) :
    parseBind (marshalBind (bindFor cr (some (adopted cr serverPriv p pub priv)) derived cookie)) =
      some (bindFor cr (some (adopted cr serverPriv p pub priv)) derived cookie) := by
  obtain ⟨raw, -, hraw⟩ := Ticket.validID_spec h.form.sid
  have hpayload : (relayTicket cr serverPriv p).payload.length ≤ 291 := by
    have hlen := marshal_length_le h.form hepk
    rw [relayTicket, Encoding.encode_length_raw rfl]
    omega
  have hcookie22 : (rawURLEncoding.encode cookie).length = 22 := by
    rw [Encoding.encode_length_raw rfl, hcookie]
    rfl
  have hsig : (relayTicket cr serverPriv p).sig.length = 86 := by
    exact encode_length_sig (h.server.sig_length _)
  have hproof : ∀ msg, (rawURLEncoding.encode (cr.ed25519Sign priv msg)).length = 86 :=
    fun msg => encode_length_sig (hkey.sig_length msg)
  have hb := @bindFor_adopted cr serverPub serverPriv pub priv p h derived cookie
  generalize bindFor cr (some (adopted cr serverPriv p pub priv)) derived cookie = b at hb ⊢
  have htok : b.sessionToken = p.sid := by rw [hb]
  have hcook : b.cookie = rawURLEncoding.encode cookie := by rw [hb]
  have hticket : b.ticket = (relayTicket cr serverPriv p).payload := by rw [hb]
  have htsig : b.ticketSig = (relayTicket cr serverPriv p).sig := by rw [hb]
  have hbsig : ∃ msg, b.bindSig = rawURLEncoding.encode (cr.ed25519Sign priv msg) := by
    rw [hb]
    exact ⟨_, rfl⟩
  obtain ⟨msg, hbsig⟩ := hbsig
  refine parseBind_of_encoded ?_ ?_ ?_ ?_ ?_ ?_ ?_
  · rw [htok, hraw]
    exact base64urlOnly_encode raw
  · rw [htok, hcook, hticket, htsig, hbsig]
    simp only [forall_mem_cons, relayTicket]
    exact ⟨Ticket.validID_plain h.form.sid, plain_encode _, plain_encode _, plain_encode _,
      plain_encode _, nofun⟩
  · rw [htok, Ticket.validID_length h.form.sid]
  · rw [hcook, hcookie22]
  · rwa [hticket]
  · rwa [htsig]
  · rw [hbsig, hproof]

/-! ### Verification -/

/-- The relay's clock in seconds leaves room for the skew. -/
def RelayClock (now : ℤ) : Prop :=
  -2 ^ 63 ≤ now / 1000000000 - Ticket.skew ∧ now / 1000000000 + Ticket.skew < 2 ^ 63

variable {now : ℤ}

/-- While the ticket lasts by the server's clock and the relay's is at most `skew` off, the window
check passes. -/
theorem checkWindow_of_skew {serverNow : ℤ} (hexp : p.exp = p.iat + Ticket.maxTTL)
    (hclock : RelayClock now) (hskew : |now - serverNow| ≤ Ticket.skew * 1000000000)
    (hfrom : p.iat ≤ serverNow / 1000000000) (huntil : serverNow / 1000000000 ≤ p.exp) :
    p.checkWindow now = .ok () := by
  obtain ⟨hlo, hhi⟩ := hclock
  have hspan : wrap64 (p.exp - p.iat) = Ticket.maxTTL := by
    rw [hexp, add_sub_cancel_left]
    rfl
  rw [abs_le] at hskew
  have hten : Ticket.skew = 10 := rfl
  have hadd := wrap64_eq (n := now / 1000000000 + 10) (by omega) hhi
  have hsub := wrap64_eq (n := now / 1000000000 - 10) hlo (by omega)
  rw [Ticket.Payload.checkWindow]
  simp only [hspan, hten, hadd, hsub]
  rw [if_neg (by decide), if_neg (by omega)]

/-- The cookie is one that the relay gives to this address in the present epoch, or gave in the last
one. -/
def CookieOf (cr : Crypto) (R : Relay.Params) (src : UDPAddr) (now : ℤ) (cookie : Bytes) : Prop :=
  cookie = computeCookie cr R src (epochOf now) ∨ cookie = computeCookie cr R src (epochOf now - 1)

variable {R : Relay.Params}

theorem validCookie_encode {src : UDPAddr}
    (h : CookieOf cr R src now cookie) (hlen : cookie.length = cookieLen) :
    validCookie cr R (rawURLEncoding.encode cookie) src now = some cookie := by
  have hne : rawURLEncoding.encode cookie ≠ [] := by
    intro hnil
    have hdec := decode_encode_url cookie
    rw [hnil] at hdec
    obtain rfl : [] = cookie := Option.some.inj hdec
    exact absurd hlen (by decide)
  rw [validCookie, if_neg hne, decode_encode_url]
  simp only [hlen, ne_eq, not_true_eq_false, if_false]
  exact if_pos h

/-- **The relay verifies the bind.** -/
theorem verifyTicketBind_bindFor (h : Permit cr serverPub serverPriv p)
    (hkey : cr.KeyPair pub priv) (hepk : p.epk = rawURLEncoding.encode pub)
    (hserver : serverPub ∈ R.serverKeys) (hrelay : R.relayID = p.rid) (derived cookie : Bytes)
    (hwindow : p.checkWindow now = .ok ()) :
    verifyTicketBind cr R now
      (bindFor cr (some (adopted cr serverPriv p pub priv)) derived cookie) cookie = .ok p := by
  obtain ⟨sig, hsig⟩ :
      ∃ sig, cr.ed25519Sign serverPriv (Ticket.signedBytes (Ticket.marshal p)) = sig := ⟨_, rfl⟩
  have hsigLen : sig.length = signatureSize := hsig ▸ h.server.sig_length _
  have hverify : Ticket.verify cr R.serverKeys (Ticket.marshal p) sig = true := by
    have hpos : (Ticket.marshal p).length ≠ 0 := by
      rw [h.form.marshal_length]
      omega
    rw [Ticket.verify, if_neg (by simp [hpos, not_lt.2 h.size, hsigLen])]
    refine any_eq_true.2 ⟨serverPub, hserver, ?_⟩
    simp [h.server.pub_length, ← hsig, h.server.verifies]
  have hproofLen : (Ticket.signBind cr priv (Ticket.marshal p) sig cookie).length = signatureSize :=
    hkey.sig_length _
  have hproof : Ticket.verifyBind cr pub (Ticket.marshal p) sig cookie
      (Ticket.signBind cr priv (Ticket.marshal p) sig cookie) = true := by
    simp [Ticket.verifyBind, hkey.sig_length, hkey.pub_length, Ticket.signBind, hkey.verifies]
  have hpub : p.ephPub = some pub := by
    simp [Ticket.Payload.ephPub, hepk, decode_encode_url, hkey.pub_length]
  have hrid : p.checkRelay R.relayID = .ok () := by
    have hne : p.rid ≠ [] := fun hnil => absurd (hnil ▸ h.form.rid) (by decide)
    simp [Ticket.Payload.checkRelay, hrelay, hne]
  rw [bindFor_adopted h]
  simp [verifyTicketBind, relayTicket, decode_encode_url, hsig, hsigLen, hproofLen, hverify,
    h.form.parse_marshal h.size, hwindow, hrid, hpub, hproof]

end Buddy

/-! ### Keys to compute with -/

namespace Meeting

/-- Cut or filled to a length. -/
def fit (n : ℕ) (s : Bytes) : Bytes := (s ++ replicate n 0).take n

theorem length_fit (n : ℕ) (s : Bytes) : (fit n s).length = n := by
  rw [fit, length_take, length_append, length_replicate]
  omega

/-- A key signs with its own bytes. -/
def crypto : Crypto where
  ed25519Sign := fun priv _ => fit 64 (priv ++ priv)
  ed25519Verify := fun pub _ sig => sig == fit 64 (pub ++ pub)
  hmacSHA256 := fun _ msg => fit 32 msg
  sha256 := fun msg => fit 32 msg

/-- The key pair of a byte. -/
def key (k : UInt8) : Bytes := replicate 32 k

theorem keyPair (k : UInt8) : crypto.KeyPair (key k) (key k) where
  pub_length := length_replicate
  sig_length := fun _ => length_fit _ _
  verifies := fun _ => beq_self_eq_true _

end Meeting

end BuddyNet
