import BuddyNet.Go.Net
import BuddyNet.Ticket

/-!
# Identity keys and names

`internal/crypto/keys.go` and `pkg/protocol/names.go`: the text of a public key, the virtual address
a key derives, and the names a node may claim. A key has one canonical text, `pubKeyB64`, and
`decodePubKey` accepts every text the standard decoder maps to the same 32 bytes.
-/

namespace BuddyNet

/-- `PubKeyB64`: the canonical text of a key. -/
def pubKeyB64 (pub : Bytes) : Bytes := stdEncoding.encode pub

/-- `DecodePubKey`. -/
def decodePubKey (b64 : Bytes) : Option Bytes :=
  match stdEncoding.decode b64 with
  | none => none
  | some raw => if raw.length = publicKeySize then some raw else none

theorem decodePubKey_pubKeyB64 {pub : Bytes} (h : pub.length = publicKeySize) :
    decodePubKey (pubKeyB64 pub) = some pub := by
  simp [decodePubKey, pubKeyB64, Encoding.decode_encode (Or.inl rfl), h]

theorem decodePubKey_length {b64 pub : Bytes} (h : decodePubKey b64 = some pub) :
    pub.length = publicKeySize := by
  unfold decodePubKey at h
  split at h
  · cases h
  · split_ifs at h with hlen
    cases h
    exact hlen

theorem pubKeyB64_injective : Function.Injective pubKeyB64 :=
  Encoding.encode_injective (Or.inl rfl)

/-- `VirtualIP`: the first two bytes of the hash of the key, with the two reserved host values
folded away. -/
def virtualIP (cr : Crypto) (pub : Bytes) : Bytes :=
  let sum := cr.sha256 pub
  let hi := sum.getD 0 0
  let lo := sum.getD 1 0
  [10, 66, hi,
    if hi = 0 ∧ lo = 0 then 1 else if hi = 255 ∧ lo = 255 then 254 else lo]

/-- `VirtualIPString`. -/
def virtualIPString (cr : Crypto) (pub : Bytes) : Bytes := Go.dotted (virtualIP cr pub)

/-- `MaxNameLen`. -/
def maxNameLen : ℕ := 63

/-- A character of a name. -/
def isNameChar (c : UInt8) : Bool :=
  (97 ≤ c.toNat && c.toNat ≤ 122) || (48 ≤ c.toNat && c.toNat ≤ 57) || c == 45

/-- `ValidName`: a DNS label that does not look like a fingerprint alias. -/
def validName (s : Bytes) : Bool :=
  1 ≤ s.length && s.length ≤ maxNameLen && s.all isNameChar &&
    s.head? != some 45 && s.getLast? != some 45 &&
    !(s.length == 8 && s.all fun c => Go.Json.isDigit c || (97 ≤ c.toNat && c.toNat ≤ 102))

/-- `protocol.MaxFieldLen`. -/
def maxFieldLen : ℕ := 128

def validField (s : Bytes) : Bool :=
  s != [] && s.length ≤ maxFieldLen && s.all fun c =>
    (65 ≤ c.toNat && c.toNat ≤ 90) || (97 ≤ c.toNat && c.toNat ≤ 122) || Go.Json.isDigit c ||
      c == 45 || c == 95

theorem validField_iff {s : Bytes} : validField s = true ↔
    s ≠ [] ∧ s.length ≤ maxFieldLen ∧ ∀ c ∈ s, UrlSafe c := by
  have htoNat : ∀ c d : UInt8, c = d ↔ c.toNat = d.toNat := fun c d => UInt8.toNat_inj.symm
  simp only [validField, List.all_eq_true, Bool.or_eq_true, Bool.and_eq_true, bne_iff_ne,
    decide_eq_true_eq, beq_iff_eq, UrlSafe, Go.Json.isDigit, or_assoc, and_assoc, htoNat _ 45,
    htoNat _ 95, UInt8.reduceToNat]

end BuddyNet
