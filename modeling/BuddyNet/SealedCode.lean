import BuddyNet.Go.Base64Text
import BuddyNet.Ticket

/-!
# Sealed codes

`internal/crypto/sealedcode.go` and the key conversions of `x25519.go`: the pairing token and the
enrollment code travel in a NaCl box from a throwaway key to the key derived from the server's
identity. The box itself and the arithmetic of the curve are not part of the repository; they are
the fields of a `Box`, and `Box.Opens` is what is assumed of them.
-/

namespace BuddyNet

open List

/-- `nacl/box`, `edwards25519` and SHA-512, as functions of bytes. `montgomery` is `SetBytes`
followed by `BytesMontgomery`, and `basePoint` derives the public half of a box key. -/
structure Box where
  sha512 : Bytes → Bytes
  montgomery : Bytes → Option Bytes
  basePoint : Bytes → Bytes
  boxSeal : (msg nonce peersPublic priv : Bytes) → Bytes
  boxOpen : (box nonce peersPublic priv : Bytes) → Option Bytes

/-- `box.Overhead`. -/
def boxOverhead : ℕ := 16

/-- What `SealCode` draws: the ephemeral private key and the nonce. -/
structure SealDraw where
  priv : Bytes
  nonce : Bytes
  nonce_length : nonce.length = 24

namespace Box

variable (bx : Box)

/-- `X25519FromEd25519Private`: the clamped hash of the seed. -/
def x25519FromEd25519Private (priv : Bytes) : Bytes :=
  let s := (bx.sha512 (priv.take 32)).take 32
  (s.modify 0 (· &&& 248)).modify 31 fun b => b &&& 127 ||| 64

/-- `SealCode`; it fails when the server's key is not a point of the curve. -/
def sealCode (d : SealDraw) (code serverEdPub : Bytes) : Option Bytes :=
  match bx.montgomery serverEdPub with
  | none => none
  | some recipient =>
    let ct := bx.boxSeal code d.nonce recipient d.priv
    some (stdEncoding.encode (bx.basePoint d.priv ++ d.nonce ++ ct))

/-- `OpenCode`. -/
def openCode (serverEdPriv enc : Bytes) : Option Bytes :=
  match stdEncoding.decode enc with
  | none => none
  | some raw =>
    if raw.length < 32 + 24 + boxOverhead then none
    else bx.boxOpen (raw.drop 56) ((raw.drop 32).take 24) (raw.take 32)
      (bx.x25519FromEd25519Private serverEdPriv)

/-- The server's key is a point, and a box for it opens with its private key. -/
structure Opens (serverPub serverPriv : Bytes) : Prop where
  basePoint_length : ∀ priv, (bx.basePoint priv).length = 32
  boxSeal_length : ∀ msg nonce key priv,
    (bx.boxSeal msg nonce key priv).length = msg.length + boxOverhead
  recipient : ∃ key, bx.montgomery serverPub = some key ∧ ∀ msg nonce priv,
    bx.boxOpen (bx.boxSeal msg nonce key priv) nonce (bx.basePoint priv)
      (bx.x25519FromEd25519Private serverPriv) = some msg

variable {bx} {serverPub serverPriv : Bytes}

/-- **What is sealed to a server opens with its key**, and is text of a known length. -/
theorem Opens.openCode_sealCode (h : bx.Opens serverPub serverPriv) (d : SealDraw) (code : Bytes) :
    ∃ raw, bx.sealCode d code serverPub = some (stdEncoding.encode raw) ∧
      raw.length = 72 + code.length ∧
      bx.openCode serverPriv (stdEncoding.encode raw) = some code := by
  obtain ⟨key, hkey, hopen⟩ := h.recipient
  have hpub := h.basePoint_length d.priv
  have hct := h.boxSeal_length code d.nonce key d.priv
  have hnonce := d.nonce_length
  have hopen := hopen code d.nonce d.priv
  obtain ⟨ct, hseal⟩ : ∃ ct, bx.boxSeal code d.nonce key d.priv = ct := ⟨_, rfl⟩
  rw [hseal] at hct hopen
  have hraw : (bx.basePoint d.priv ++ d.nonce ++ ct).length = 72 + code.length := by
    simp only [length_append, hpub, hnonce, hct, boxOverhead]
    omega
  refine ⟨bx.basePoint d.priv ++ d.nonce ++ ct, ?_, hraw, ?_⟩
  · simp only [Box.sealCode, hkey, hseal]
  · have htake : (bx.basePoint d.priv ++ d.nonce ++ ct).take 32 = bx.basePoint d.priv := by
      rw [append_assoc, take_left' hpub]
    have hmid : ((bx.basePoint d.priv ++ d.nonce ++ ct).drop 32).take 24 = d.nonce := by
      rw [append_assoc, drop_left' hpub, take_left' hnonce]
    have hdrop : (bx.basePoint d.priv ++ d.nonce ++ ct).drop 56 = ct :=
      drop_left' (by rw [length_append, hpub, hnonce])
    rw [openCode, Encoding.decode_encode (Or.inl rfl)]
    dsimp only
    rw [if_neg (by rw [hraw]; unfold boxOverhead; omega), htake, hmid, hdrop, hopen]

end Box

end BuddyNet
