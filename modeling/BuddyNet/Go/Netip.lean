import BuddyNet.Go.Net

/-!
# `net/netip`

Address literals: `ParseAddr`, `ParseAddrPort` and the predicates of `Addr` that the program uses,
and `net.SplitHostPort`.
-/

namespace BuddyNet

/-- A `netip.Addr`: four or sixteen bytes, and the zone of an IPv6 address. -/
structure Addr where
  ip : Bytes
  zone : Bytes := []
  deriving DecidableEq

namespace Go

/-! ### Literals -/

/-- `parseIPv4Fields`: the octet read so far, its number of digits and the octets before it. -/
def parseIPv4Fields : Bytes → ℕ → ℕ → Bytes → Option Bytes
  | [], val, _, fields => if fields.length < 3 then none else some (fields ++ [val.toUInt8])
  | c :: s, val, digLen, fields =>
    if Json.isDigit c then
      let val' := val * 10 + (c.toNat - 48)
      if (digLen = 1 ∧ val = 0) ∨ 255 < val' then none
      else parseIPv4Fields s val' (digLen + 1) fields
    else if c ≠ 46 ∨ digLen = 0 ∨ s = [] ∨ fields.length = 3 then none
    else parseIPv4Fields s 0 0 (fields ++ [val.toUInt8])

/-- The value of hexadecimal digits. -/
def hexValue (s : Bytes) : ℕ := s.foldl (fun n c => n * 16 + (Json.hexDigit c).getD 0) 0

/-- The loop of `parseIPv6`: the text that is left, the bytes read and the place of the ellipsis.
Each round reads one of at most eight groups. -/
def parseIPv6Groups : ℕ → Bytes → Bytes → Option ℕ → Option (Bytes × Bytes × Option ℕ)
  | 0, s, ip, ellipsis => some (s, ip, ellipsis)
  | n + 1, s, ip, ellipsis =>
    let hex := s.takeWhile fun c => (Json.hexDigit c).isSome
    let rest := s.drop hex.length
    if hex = [] ∨ 4 < hex.length then none
    else if rest.head? = some 46 then
      if (ellipsis = none ∧ ip.length ≠ 12) ∨ 16 < ip.length + 4 then none
      else (parseIPv4Fields s 0 0 []).map fun v4 => ([], ip ++ v4, ellipsis)
    else
      let acc := hexValue hex
      let ip := ip ++ [(acc / 256).toUInt8, (acc % 256).toUInt8]
      match rest with
      | [] => some ([], ip, ellipsis)
      | [_] => none
      | c :: d :: s =>
        if c ≠ 58 then none
        else if d ≠ 58 then parseIPv6Groups n (d :: s) ip ellipsis
        else if ellipsis ≠ none then none
        else if s = [] then some ([], ip, some ip.length)
        else parseIPv6Groups n s ip (some ip.length)

/-- The address that the loop has read, with the ellipsis filled up. -/
def expandEllipsis : Bytes × Bytes × Option ℕ → Option Bytes
  | ([], ip, none) => if ip.length < 16 then none else some ip
  | ([], ip, some k) =>
    if ip.length < 16 then some (ip.take k ++ List.replicate (16 - ip.length) 0 ++ ip.drop k)
    else none
  | _ => none

def parseIPv6 (s : Bytes) : Option Addr :=
  let body := s.takeWhile (· ≠ 37)
  let zone := (s.drop body.length).drop 1
  if 37 ∈ s ∧ zone = [] then none
  else if body = [58, 58] then some ⟨List.replicate 16 0, zone⟩
  else
    let start :=
      if [58, 58].isPrefixOf body then parseIPv6Groups 8 (body.drop 2) [] (some 0)
      else parseIPv6Groups 8 body [] none
    (start.bind expandEllipsis).map fun ip => ⟨ip, zone⟩

/-- `netip.ParseAddr`: the first `.`, `:` or `%` decides. -/
def parseAddr (s : Bytes) : Option Addr :=
  match s.find? fun c => c == 46 || c == 58 || c == 37 with
  | some 46 => (parseIPv4Fields s 0 0 []).map fun ip => ⟨ip, []⟩
  | some 58 => parseIPv6 s
  | _ => none

/-- The text before the last colon and the text after it. -/
def cutLastColon (s : Bytes) : Option (Bytes × Bytes) :=
  if 58 ∈ s then
    let after := (s.reverse.takeWhile (· ≠ 58)).reverse
    some (s.take (s.length - after.length - 1), after)
  else none

/-- `netip.ParseAddrPort`. -/
def parseAddrPort (s : Bytes) : Option (Addr × UInt16) := do
  let (host, port) ← cutLastColon s
  let v6 := host.head? == some 91
  if host = [] ∨ port = [] ∨ (v6 ∧ (host.length < 2 ∨ host.getLast? ≠ some 93)) then none
  else do
    let port ← parseUint16 port
    let addr ← parseAddr (if v6 then (host.drop 1).dropLast else host)
    if v6 = (addr.ip.length == 16) then some (addr, port) else none

/-- `net.SplitHostPort`. -/
def splitHostPort (s : Bytes) : Option (Bytes × Bytes) := do
  let (host, port) ← cutLastColon s
  if s.head? = some 91 then
    -- the first `]` stands right before the last colon, and there is no other bracket
    if host.idxOf 93 + 1 = host.length ∧ 91 ∉ s.drop 1 ∧ 93 ∉ s.drop host.length then
      some ((host.drop 1).dropLast, port)
    else none
  else if 58 ∈ host ∨ 91 ∈ s ∨ 93 ∈ s then none
  else some (host, port)

end Go

namespace Addr

/-- `Addr.Unmap`. -/
def unmap (a : Addr) : Addr :=
  if a.ip.length = 16 ∧ Go.v4InV6Prefix.isPrefixOf a.ip then ⟨a.ip.drop 12, []⟩ else a

/-- `Addr.IsUnspecified`. -/
def isUnspecified (a : Addr) : Bool := a.ip.all (· == 0) && a.zone == []

/-- `Addr.IsMulticast`. -/
def isMulticast (a : Addr) : Bool :=
  match a.ip.head? with
  | some b => if a.ip.length = 4 then b.toNat / 16 == 14 else b == 255
  | none => false

/-- `Addr.String` on an unmapped address. -/
def string (a : Addr) : Bytes :=
  if a.ip.length = 4 then Go.dotted a.ip
  else Go.string6 a.ip ++ if a.zone = [] then [] else 37 :: a.zone

end Addr

example : (Go.parseAddrPort (lit "[2001:db8::192.0.2.1%eth0]:443")).map (fun a => (a.1.zone, a.2)) =
    some (lit "eth0", 443) := by decide +kernel

end BuddyNet
