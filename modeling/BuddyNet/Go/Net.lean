import Mathlib.Data.Fintype.Vector
import BuddyNet.Go.Json

/-!
# `net` and `net/netip`: addresses and their text forms

A `*net.UDPAddr` as the relay and the handshake server see it. The address table, the accounting
keys and the logs all go through its text form, so the text forms are modelled as they are: dotted
decimal for IPv4 and for the IPv4-mapped form, RFC 5952 for the rest of IPv6. A prefix is compared
bit by bit; addresses and words of bits correspond (`bitsOf_injective`, `bitsOf_surjective`).
-/

namespace BuddyNet

/-- A `*net.UDPAddr`: the bytes of the address (4 or 16 in practice), the port and the zone. -/
structure UDPAddr where
  ip : Bytes
  port : UInt16
  zone : Bytes := []
  deriving DecidableEq

namespace Go

/-- The twelve bytes in front of an IPv4 address in its mapped form. -/
def v4InV6Prefix : Bytes := [0, 0, 0, 0, 0, 0, 0, 0, 0, 0, 255, 255]

/-- `IP.To4`. -/
def to4 (ip : Bytes) : Option Bytes :=
  if ip.length = 4 then some ip
  else if ip.length = 16 ∧ ip.take 12 = v4InV6Prefix then some (ip.drop 12)
  else none

/-- `IP.Equal`: an IPv4 address and its form in IPv6 are the same. -/
def ipEqual (a b : Bytes) : Bool :=
  if a.length = b.length then a == b
  else if a.length = 4 ∧ b.length = 16 then b == v4InV6Prefix ++ a
  else if a.length = 16 ∧ b.length = 4 then a == v4InV6Prefix ++ b
  else false

/-- `IP.To16`; the empty slice stands for `nil`. -/
def to16 (ip : Bytes) : Bytes :=
  if ip.length = 4 then v4InV6Prefix ++ ip else if ip.length = 16 then ip else []

/-- Dotted decimal. -/
def dotted (ip : Bytes) : Bytes :=
  (ip.map fun b => itoa b.toNat).intersperse [46] |>.flatten

/-- The eight groups of an IPv6 address. -/
def groups : Bytes → List ℕ
  | a :: b :: rest => (a.toNat * 256 + b.toNat) :: groups rest
  | _ => []

/-- A group in hexadecimal without leading zeros. -/
def hexGroup (n : ℕ) : Bytes :=
  let ds := [n / 4096 % 16, n / 256 % 16, n / 16 % 16].dropWhile (· == 0)
  (ds ++ [n % 16]).map Json.hexChar

/-- The length of the run of zero groups at the front. -/
def zeroRun (gs : List ℕ) : ℕ := (gs.takeWhile (· == 0)).length

/-- The first longest run of at least two zero groups, as its start and end. -/
def longestRun : List ℕ → ℕ → Option (ℕ × ℕ) → Option (ℕ × ℕ)
  | [], _, best => best
  | g :: gs, i, best =>
    let l := zeroRun (g :: gs)
    let better : Bool := match best with
      | some (a, b) => b - a < l
      | none => 2 ≤ l
    longestRun gs (i + 1) (if better then some (i, i + l) else best)

/-- Groups joined by colons. -/
def joinGroups (gs : List ℕ) : Bytes := ((gs.map hexGroup).intersperse [58]).flatten

/-- `netip.Addr.string6`. -/
def string6 (ip : Bytes) : Bytes :=
  let gs := groups ip
  match longestRun gs 0 none with
  | some (a, b) => joinGroups (gs.take a) ++ [58, 58] ++ joinGroups (gs.drop b)
  | none => joinGroups gs

/-- `IP.String` on a non-empty address. -/
def ipString (ip : Bytes) : Bytes :=
  if ip.length ≠ 4 ∧ ip.length ≠ 16 then
    63 :: ip.flatMap fun b => [Json.hexChar (b.toNat / 16), Json.hexChar (b.toNat % 16)]
  else match to4 ip with
    | some v4 => dotted v4
    | none => string6 ip

/-- `net.JoinHostPort`. -/
def joinHostPort (host port : Bytes) : Bytes :=
  if 58 ∈ host then [91] ++ host ++ [93, 58] ++ port else host ++ [58] ++ port

end Go

/-- `UDPAddr.String`, the key of the relay's address table. -/
def UDPAddr.string (a : UDPAddr) : Bytes :=
  let ip := if a.ip = [] then [] else Go.ipString a.ip
  let host := if a.zone = [] then ip else ip ++ [37] ++ a.zone
  Go.joinHostPort host (Go.itoa a.port.toNat)

/-- A `netip.Prefix`: the bytes of its address and its length in bits. -/
structure Prefix where
  addr : Bytes
  bits : ℕ
  deriving DecidableEq

namespace Go

/-- The bits of a byte, most significant first. -/
def byteBits (b : UInt8) : List Bool :=
  [128, 64, 32, 16, 8, 4, 2, 1].map fun m => b.toNat / m % 2 == 1

/-- The bits of an address. -/
def bitsOf (ip : Bytes) : List Bool := ip.flatMap byteBits

/-- `netip.AddrFromSlice` followed by `Addr.Unmap`. -/
def addrFromSlice (ip : Bytes) : Option Bytes :=
  if ip.length = 4 ∨ ip.length = 16 then some ((to4 ip).getD ip) else none

/-- `Prefix.Contains` on an unmapped address without a zone. -/
def prefixContains (p : Prefix) (ip : Bytes) : Bool :=
  p.addr.length == ip.length && p.bits ≤ 8 * p.addr.length &&
    (bitsOf p.addr).take p.bits == (bitsOf ip).take p.bits

/-! ### The bits of an address -/

/-- The byte with these bits. -/
def ofBits (bs : List Bool) : UInt8 :=
  UInt8.ofNat (bs.foldl (fun n b => 2 * n + b.toNat) 0)

theorem ofBits_byteBits (b : UInt8) : ofBits (byteBits b) = b := by
  have h : ∀ n : Fin 256, ofBits (byteBits (UInt8.ofNat n)) = UInt8.ofNat n := by decide +kernel
  have hb := h ⟨b.toNat, b.toNat_lt⟩
  rwa [UInt8.ofNat_toNat] at hb

theorem byteBits_ofBits {bs : List Bool} (h : bs.length = 8) : byteBits (ofBits bs) = bs := by
  have hall : ∀ v : List.Vector Bool 8, byteBits (ofBits v.1) = v.1 := by decide +kernel
  exact hall ⟨bs, h⟩

theorem bitsOf_cons (b : UInt8) (ip : Bytes) : bitsOf (b :: ip) = byteBits b ++ bitsOf ip := rfl

theorem bitsOf_append (ip ip' : Bytes) : bitsOf (ip ++ ip') = bitsOf ip ++ bitsOf ip' :=
  List.flatMap_append

theorem bitsOf_length (ip : Bytes) : (bitsOf ip).length = 8 * ip.length := by
  induction ip with
  | nil => rfl
  | cons b ip ih =>
    rw [bitsOf_cons, List.length_append, ih, List.length_cons]
    show 8 + _ = _
    omega

theorem bitsOf_injective : Function.Injective bitsOf := by
  intro ip
  induction ip with
  | nil =>
    intro ip' h
    have hlen := congrArg List.length h
    rw [bitsOf_length, bitsOf_length] at hlen
    exact (List.length_eq_zero_iff.1 (by rw [List.length_nil] at hlen; omega)).symm
  | cons b ip ih =>
    intro ip' h
    cases ip' with
    | nil => cases h
    | cons b' ip' =>
      rw [bitsOf_cons, bitsOf_cons] at h
      obtain ⟨hb, hip⟩ := List.append_inj h rfl
      rw [ih hip, ← ofBits_byteBits b, hb, ofBits_byteBits]

theorem bitsOf_surjective (k : ℕ) {w : List Bool} (h : w.length = 8 * k) :
    ∃ ip : Bytes, ip.length = k ∧ bitsOf ip = w := by
  induction k generalizing w with
  | zero => exact ⟨[], rfl, (List.length_eq_zero_iff.1 h).symm⟩
  | succ k ih =>
    have hdrop : (w.drop 8).length = 8 * k := by rw [List.length_drop]; omega
    obtain ⟨ip, hip, hbits⟩ := ih hdrop
    refine ⟨ofBits (w.take 8) :: ip, by rw [List.length_cons, hip], ?_⟩
    rw [bitsOf_cons, hbits, byteBits_ofBits (by rw [List.length_take]; omega),
      List.take_append_drop]

end Go

example : UDPAddr.string ⟨[32, 1, 13, 184, 0, 0, 0, 0, 0, 0, 0, 0, 0, 0, 0, 1], 443, []⟩ =
    lit "[2001:db8::1]:443" := by decide

end BuddyNet
