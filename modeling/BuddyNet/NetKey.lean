import BuddyNet.Go.Netip

/-!
# Accounting keys

`internal/netkey/netkey.go`: the text that a source is charged under, which is the address for IPv4
and the /64 for IPv6.
-/

namespace BuddyNet

/-- `V6Bits`. -/
def v6Bits : ℕ := 64

/-- `FromNetipAddr`: the mapped form is charged as IPv4. -/
def fromNetipAddr (addr : Addr) : Bytes :=
  let addr := addr.unmap
  if addr.ip.length = 16 then
    Go.string6 (addr.ip.take (v6Bits / 8) ++ List.replicate (16 - v6Bits / 8) 0) ++ [47] ++
      Go.itoa v6Bits
  else addr.string

/-- `FromIP`. -/
def fromIP (ip : Bytes) : Bytes :=
  if ip.length = 4 ∨ ip.length = 16 then fromNetipAddr ⟨ip, []⟩
  else if ip = [] then lit "<nil>"
  else Go.ipString ip

end BuddyNet
