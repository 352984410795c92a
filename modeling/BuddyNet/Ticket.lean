import BuddyNet.Go.Base64
import BuddyNet.Go.Json

/-!
# The relay ticket

`internal/ticket`: the permit a handshake server signs and a relay verifies, and the proof of
possession a buddy makes with the ephemeral key the permit names. The primitives themselves are
not part of the repository; they are the fields of a `Crypto`, over which everything here is
stated, and `Unforgeable` is what is assumed of signatures.
-/

namespace BuddyNet

/-- The cryptographic primitives, as functions of bytes. -/
structure Crypto where
  ed25519Sign : (priv msg : Bytes) → Bytes
  ed25519Verify : (pub msg sig : Bytes) → Bool
  hmacSHA256 : (key msg : Bytes) → Bytes
  sha256 : Bytes → Bytes

/-- `Signed k m` says that the holder of the private key of `k` signed `m`; a signature that
verifies was made by them. -/
def Crypto.Unforgeable (cr : Crypto) (Signed : Bytes → Bytes → Prop) : Prop :=
  ∀ k m s, cr.ed25519Verify k m s = true → Signed k m

/-- `ed25519.PublicKeySize`. -/
def publicKeySize : ℕ := 32

/-- `ed25519.SignatureSize`. -/
def signatureSize : ℕ := 64

/-- A machine integer of 64 bits. -/
def wrap64 (n : ℤ) : ℤ := n.bmod (2 ^ 64)

theorem wrap64_eq {n : ℤ} (hlo : -2 ^ 63 ≤ n) (hhi : n < 2 ^ 63) : wrap64 n = n := by
  unfold wrap64
  rw [Int.bmod_eq_of_le] <;> norm_num <;> omega

/-- A difference of two machine integers is off by one turn at most. -/
theorem wrap64_cases {n : ℤ} (hlo : -2 ^ 64 < n) (hhi : n < 2 ^ 64) :
    (-2 ^ 63 ≤ n ∧ n < 2 ^ 63 ∧ wrap64 n = n) ∨ (n < -2 ^ 63 ∧ wrap64 n = n + 2 ^ 64) ∨
      (2 ^ 63 ≤ n ∧ wrap64 n = n - 2 ^ 64) := by
  unfold wrap64 Int.bmod
  norm_num at *
  split_ifs with h <;> omega

namespace Ticket

/-- `FormatVersion`. -/
def formatVersion : ℤ := 1

/-- `MaxTTL`, in seconds. -/
def maxTTL : ℤ := 120

/-- `Skew`, in seconds. -/
def skew : ℤ := 10

/-- `IDLen`. -/
def idLen : ℕ := 16

/-- `LegA`. -/
def legA : Bytes := lit "a"

/-- `LegB`. -/
def legB : Bytes := lit "b"

/-- `MaxPayloadLen`. -/
def maxPayloadLen : ℕ := 512

def ticketContext : Bytes := lit "buddynet-relay-ticket-v1" ++ [0]

def bindContext : Bytes := lit "buddynet-relay-bind-v1" ++ [0]

/-- `Payload`: what the server signs. -/
structure Payload where
  v : ℤ
  rid : Bytes
  sid : Bytes
  leg : Bytes
  epk : Bytes
  iat : ℤ
  exp : ℤ
  nonce : Bytes
  deriving DecidableEq

/-- `Reason`: the fixed rejection labels. -/
inductive Reason where
  | size
  | malformed
  | unknownVer
  | signature
  | window
  | ttl
  | relay
  | leg
  | proof
  deriving DecidableEq

/-- The label as it is logged. -/
def Reason.text : Reason → Bytes
  | size => lit "payload too large"
  | malformed => lit "payload is not a well-formed ticket"
  | unknownVer => lit "unknown ticket version"
  | signature => lit "server signature did not verify"
  | window => lit "issue/expiry time outside the accepted window"
  | ttl => lit "ticket validity span out of bounds"
  | relay => lit "ticket is for a different relay"
  | leg => lit "ticket names no valid leg"
  | proof => lit "proof of possession did not verify"

/-- `NewID`: the text of freshly drawn bytes. -/
def newID (random : Bytes) : Bytes := rawURLEncoding.encode random

/-- `ValidID`: the one canonical spelling of `idLen` bytes. -/
def validID (s : Bytes) : Bool :=
  if s.length ≠ 22 then false
  else match rawURLEncoding.decode s with
    | none => false
    | some raw => raw.length == idLen && rawURLEncoding.encode raw == s

/-! ### Signing and verifying -/

/-- `json.Marshal` of a payload. -/
def marshal (p : Payload) : Bytes :=
  lit "\x7b\"v\":" ++ Go.formatInt p.v ++ lit ",\"rid\":" ++ Go.Json.quote p.rid ++
    lit ",\"sid\":" ++ Go.Json.quote p.sid ++ lit ",\"leg\":" ++ Go.Json.quote p.leg ++
    lit ",\"epk\":" ++ Go.Json.quote p.epk ++ lit ",\"iat\":" ++ Go.formatInt p.iat ++
    lit ",\"exp\":" ++ Go.formatInt p.exp ++ lit ",\"nonce\":" ++ Go.Json.quote p.nonce ++
    lit "\x7d"

def signedBytes (payload : Bytes) : Bytes := ticketContext ++ payload

variable (cr : Crypto)

/-- `Sign`: the exact payload bytes and the signature over them. -/
def sign (priv : Bytes) (p : Payload) : Option (Bytes × Bytes) :=
  let payload := marshal p
  if maxPayloadLen < payload.length then none
  else some (payload, cr.ed25519Sign priv (signedBytes payload))

/-- `Verify`: one of the configured keys signed the payload as received. -/
def verify (keys : List Bytes) (payload sig : Bytes) : Bool :=
  if payload.length = 0 ∨ maxPayloadLen < payload.length ∨ sig.length ≠ signatureSize then false
  else keys.any fun k => k.length == publicKeySize && cr.ed25519Verify k (signedBytes payload) sig

/-- `BindSigningBytes`. -/
def bindSigningBytes (payload sig cookie : Bytes) : Bytes :=
  bindContext ++ cr.sha256 (payload ++ sig) ++ cookie

/-- `SignBind`. -/
def signBind (eph payload sig cookie : Bytes) : Bytes :=
  cr.ed25519Sign eph (bindSigningBytes cr payload sig cookie)

/-- `VerifyBind`. -/
def verifyBind (epk payload sig cookie bindSig : Bytes) : Bool :=
  epk.length == publicKeySize && bindSig.length == signatureSize &&
    cr.ed25519Verify epk (bindSigningBytes cr payload sig cookie) bindSig

theorem verify_eq_true {keys : List Bytes} {payload sig : Bytes}
    (h : verify cr keys payload sig = true) :
    ∃ k ∈ keys, cr.ed25519Verify k (signedBytes payload) sig = true := by
  unfold verify at h
  split_ifs at h with hlen
  obtain ⟨k, hk, hv⟩ := List.any_eq_true.1 h
  simp only [Bool.and_eq_true] at hv
  exact ⟨k, hk, hv.2⟩

theorem verifyBind_eq_true {epk payload sig cookie bindSig : Bytes}
    (h : verifyBind cr epk payload sig cookie bindSig = true) :
    cr.ed25519Verify epk (bindSigningBytes cr payload sig cookie) bindSig = true := by
  simp only [verifyBind, Bool.and_eq_true] at h
  exact h.2

/-! ### Parsing -/

/-- `EphPub`: the ephemeral public key the ticket is bound to. -/
def Payload.ephPub (p : Payload) : Option Bytes :=
  match rawURLEncoding.decode p.epk with
  | some raw => if raw.length = publicKeySize then some raw else none
  | none => none

/-- The JSON names of the fields of a payload. -/
def fieldNames : List Bytes :=
  [lit "v", lit "rid", lit "sid", lit "leg", lit "epk", lit "iat", lit "exp", lit "nonce"]

/-- The strict decode: unknown members are refused. -/
def decodePayload (ms : List (Bytes × Go.Json)) : Option Payload :=
  let vals := Go.Json.valuesOf fieldNames ms
  if Go.Json.allKnown fieldNames ms then do
    return { v := ← Go.Json.intField (vals (lit "v"))
             rid := ← Go.Json.stringField (vals (lit "rid"))
             sid := ← Go.Json.stringField (vals (lit "sid"))
             leg := ← Go.Json.stringField (vals (lit "leg"))
             epk := ← Go.Json.stringField (vals (lit "epk"))
             iat := ← Go.Json.intField (vals (lit "iat"))
             exp := ← Go.Json.intField (vals (lit "exp"))
             nonce := ← Go.Json.stringField (vals (lit "nonce")) }
  else none

/-- The checks on the decoded fields, in the order of the source. -/
def checkPayload (p : Payload) : Except Reason Payload :=
  if p.v ≠ formatVersion then .error .unknownVer
  else if !validID p.rid || !validID p.sid || !validID p.nonce then .error .malformed
  else if p.leg ≠ legA ∧ p.leg ≠ legB then .error .leg
  else if p.ephPub = none then .error .malformed
  else .ok p

/-- `Parse`. `noDuplicateKeys` compares the decoded names of the members. -/
def parse (payload : Bytes) : Except Reason Payload :=
  if payload.length = 0 ∨ maxPayloadLen < payload.length then .error .size
  else match Go.Json.parse payload with
    | some (.obj ms) =>
      if ¬ (ms.map (·.1)).Nodup then .error .malformed
      else match decodePayload ms with
        | none => .error .malformed
        | some p => checkPayload p
    | _ => .error .malformed

/-- `CheckWindow`, in 64-bit arithmetic; `now` is in nanoseconds. -/
def Payload.checkWindow (p : Payload) (now : ℤ) : Except Reason Unit :=
  let span := wrap64 (p.exp - p.iat)
  if span ≤ 0 ∨ maxTTL < span then .error .ttl
  else
    let sec := now / 1000000000
    if wrap64 (sec + skew) < p.iat ∨ p.exp < wrap64 (sec - skew) then .error .window
    else .ok ()

/-- `CheckRelay`. -/
def Payload.checkRelay (p : Payload) (rid : Bytes) : Except Reason Unit :=
  if rid = [] ∨ p.rid ≠ rid then .error .relay else .ok ()

end Ticket

end BuddyNet
