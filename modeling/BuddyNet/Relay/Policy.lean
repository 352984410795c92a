import BuddyNet.Library.Cylinders
import BuddyNet.Relay.Server

/-!
# When a relay is open

`checkPolicy` of `internal/role/relay.go` looks at each allowed network alone and refuses one that
has everybody in it; `cidrAllowed` admits a source that is in any of them. The addresses of a family
are the words of 32 or 128 bits and a network is what begins with its first bits, so whether anybody
is left out is a sum over the outermost networks.

* `cidrAllowed_eq_false_iff`: who is refused, in terms of the bits of their address;
* `relay_closed_iff`: a relay without server keys refuses somebody of each family exactly when the
  networks do not add up to the whole family.
-/

namespace BuddyNet

open List Go

/-! ### Networks -/

namespace Go

/-- The bits that the addresses in a network begin with. -/
def networkBits (p : Prefix) : List Bool := (bitsOf p.addr).take p.bits

/-- The networks of the addresses that are `k` bytes long. -/
def networks (k : ℕ) (allowed : List Prefix) : List (List Bool) :=
  (allowed.filter fun p => p.addr.length = k ∧ p.bits ≤ 8 * k).map networkBits

variable {allowed : List Prefix}

theorem networks_length {k : ℕ} : ∀ σ ∈ networks k allowed, σ.length ≤ 8 * k := by
  intro σ hσ
  obtain ⟨p, hp, rfl⟩ := mem_map.1 hσ
  obtain ⟨-, hlen, -⟩ : p ∈ allowed ∧ p.addr.length = k ∧ p.bits ≤ 8 * k := by simpa using hp
  rw [networkBits, length_take, bitsOf_length, hlen]
  exact min_le_right _ _

/-- An address is in one of the networks when its bits begin with theirs. -/
theorem any_prefixContains {ip : Bytes} :
    allowed.any (prefixContains · ip) = true ↔
      ∃ σ ∈ networks ip.length allowed, σ <+: bitsOf ip := by
  have hin : ∀ p : Prefix, p.addr.length = ip.length → p.bits ≤ 8 * ip.length →
      (networkBits p <+: bitsOf ip ↔ networkBits p = (bitsOf ip).take p.bits) := by
    intro p hlen hbits
    have hnet : (networkBits p).length = p.bits := by
      rw [networkBits, length_take, bitsOf_length, hlen]
      exact min_eq_left hbits
    rw [prefix_iff_eq_take, hnet]
  simp only [any_eq_true, networks, mem_map, mem_filter, exists_exists_and_eq_and,
    prefixContains, Bool.and_eq_true, beq_iff_eq, decide_eq_true_eq]
  constructor
  · rintro ⟨p, hp, ⟨hlen, hbits⟩, heq⟩
    rw [hlen] at hbits
    exact ⟨p, ⟨hp, hlen, hbits⟩, (hin p hlen hbits).2 heq⟩
  · rintro ⟨p, ⟨hp, hlen, hbits⟩, hpre⟩
    exact ⟨p, hp, ⟨hlen, by rwa [hlen]⟩, (hin p hlen hbits).1 hpre⟩

/-- The bits of `::ffff:0:0/96`, where the IPv4 addresses are in IPv6. -/
def mappedBits : List Bool := bitsOf v4InV6Prefix

/-- An IPv6 address is not an IPv4 address in disguise. -/
theorem to4_eq_none_iff {ip : Bytes} (h : ip.length = 16) :
    to4 ip = none ↔ ¬ mappedBits <+: bitsOf ip := by
  have htake : bitsOf ip = bitsOf (ip.take 12) ++ bitsOf (ip.drop 12) := by
    rw [← bitsOf_append, take_append_drop]
  have hpre : mappedBits <+: bitsOf ip ↔ ip.take 12 = v4InV6Prefix := by
    rw [htake, mappedBits]
    constructor
    · intro hmapped
      have hlen : (bitsOf v4InV6Prefix).length = (bitsOf (ip.take 12)).length := by
        rw [bitsOf_length, bitsOf_length, length_take, h]
        rfl
      have hboth := prefix_of_prefix_length_le hmapped (prefix_append _ _) hlen.le
      exact bitsOf_injective (hboth.eq_of_length hlen).symm
    · intro heq
      rw [heq]
      exact prefix_append _ _
  rw [hpre, to4, if_neg (by omega)]
  by_cases hm : ip.take 12 = v4InV6Prefix
  · simp [h, hm]
  · simp [hm]

end Go

namespace Relay

open Cylinder

/-! ### The policy -/

/-- Why a relay refuses to start. -/
inductive PolicyError where
  | everySource (p : Prefix)
  | noRelayPolicy
  | tooManyKeys (n : ℕ)
  | needsRelayID (got : Bytes)
  deriving DecidableEq

/-- `checkPolicy`. -/
def Config.checkPolicy (cfg : Config) : Except PolicyError Unit :=
  match cfg.allowCIDRs.find? fun p => p.bits = 0 with
  | some p => .error (.everySource p)
  | none =>
    if cfg.serverKeys.length = 0 ∧ cfg.allowCIDRs.length = 0 then .error .noRelayPolicy
    else if cfg.serverKeys.length > 2 then .error (.tooManyKeys cfg.serverKeys.length)
    else if cfg.serverKeys.length > 0 ∧ !Ticket.validID cfg.relayID then
      .error (.needsRelayID cfg.relayID)
    else .ok ()

/-- A relay that may start without server keys has an allowlist. -/
theorem allowCIDRs_ne_nil {cfg : Config} (hkeys : cfg.serverKeys = [])
    (h : cfg.checkPolicy = .ok ()) : cfg.allowCIDRs ≠ [] := by
  intro hnil
  simp [Config.checkPolicy, hkeys, hnil] at h

variable {P : Params} {ip : Bytes}

/-- **Who is refused**: a source whose bits begin with the bits of no allowed network. -/
theorem cidrAllowed_eq_false_iff {a : Bytes} (hallow : P.allowed ≠ [])
    (h : addrFromSlice ip = some a) :
    P.cidrAllowed ip = false ↔ ∀ σ ∈ networks a.length P.allowed, ¬ σ <+: bitsOf a := by
  have heq : P.cidrAllowed ip = P.allowed.any (prefixContains · a) := by
    rw [Params.cidrAllowed, h, isEmpty_eq_false_iff.2 hallow, Bool.false_or]
  rw [heq, ← Bool.not_eq_true, any_prefixContains]
  push Not
  rfl

theorem exists_refused_v4_iff (hallow : P.allowed ≠ []) :
    (∃ ip : Bytes, ip.length = 4 ∧ P.cidrAllowed ip = false) ↔
      size 32 (networks 4 P.allowed) < 2 ^ 32 := by
  have haddr : ∀ ip : Bytes, ip.length = 4 → addrFromSlice ip = some ip := by
    intro ip h
    simp [addrFromSlice, to4, h]
  have hlength : ∀ σ ∈ networks 4 P.allowed, σ.length ≤ 32 := networks_length
  rw [← Fintype.card_bool, ← exists_free_iff hlength]
  constructor
  · rintro ⟨ip, hlen, hrefused⟩
    rw [cidrAllowed_eq_false_iff hallow (haddr ip hlen), hlen] at hrefused
    exact ⟨bitsOf ip, by rw [bitsOf_length, hlen], hrefused⟩
  · rintro ⟨w, hlen, hfree⟩
    obtain ⟨ip, hip, rfl⟩ := bitsOf_surjective 4 hlen
    refine ⟨ip, hip, ?_⟩
    rw [cidrAllowed_eq_false_iff hallow (haddr ip hip), hip]
    exact hfree

theorem exists_refused_v6_iff (hallow : P.allowed ≠ []) :
    (∃ ip : Bytes, ip.length = 16 ∧ to4 ip = none ∧ P.cidrAllowed ip = false) ↔
      size 128 (mappedBits :: networks 16 P.allowed) < 2 ^ 128 := by
  have haddr : ∀ ip : Bytes, ip.length = 16 → to4 ip = none →
      addrFromSlice ip = some ip := by
    intro ip h h4
    simp [addrFromSlice, h4, h]
  have hlength : ∀ σ ∈ mappedBits :: networks 16 P.allowed, σ.length ≤ 128 :=
    forall_mem_cons.2 ⟨by decide, networks_length⟩
  rw [← Fintype.card_bool, ← exists_free_iff hlength]
  constructor
  · rintro ⟨ip, hlen, h4, hrefused⟩
    rw [cidrAllowed_eq_false_iff hallow (haddr ip hlen h4), hlen] at hrefused
    exact ⟨bitsOf ip, by rw [bitsOf_length, hlen],
      forall_mem_cons.2 ⟨(to4_eq_none_iff hlen).1 h4, hrefused⟩⟩
  · rintro ⟨w, hlen, hfree⟩
    obtain ⟨ip, hip, rfl⟩ := bitsOf_surjective 16 hlen
    obtain ⟨hmapped, hnets⟩ := forall_mem_cons.1 hfree
    have h4 := (to4_eq_none_iff hip).2 hmapped
    refine ⟨ip, hip, h4, ?_⟩
    rw [cidrAllowed_eq_false_iff hallow (haddr ip hip h4), hip]
    exact hnets

/-- **A relay without tickets is closed exactly when its networks do not add up to everybody.** It
may start, and refuses an IPv4 address and an IPv6 address, if and only if the outermost IPv4
networks of its allowlist have fewer than `2 ^ 32` addresses together, and the outermost IPv6
networks, with the one of the IPv4 addresses, fewer than `2 ^ 128`. -/
theorem relay_closed_iff (cfg : Config) (cookieKey : Bytes) (hkeys : cfg.serverKeys = [])
    (hpolicy : cfg.checkPolicy = .ok ()) :
    ((∃ ip : Bytes, ip.length = 4 ∧ (cfg.params cookieKey).cidrAllowed ip = false) ∧
      ∃ ip : Bytes, ip.length = 16 ∧ to4 ip = none ∧
        (cfg.params cookieKey).cidrAllowed ip = false) ↔
    size 32 (networks 4 cfg.allowCIDRs) < 2 ^ 32 ∧
      size 128 (mappedBits :: networks 16 cfg.allowCIDRs) < 2 ^ 128 := by
  have hallow : (cfg.params cookieKey).allowed ≠ [] := allowCIDRs_ne_nil hkeys hpolicy
  rw [exists_refused_v4_iff hallow, exists_refused_v6_iff hallow]
  rfl

/-- Both halves of the IPv4 addresses and both halves of the IPv6 addresses. -/
def halves : List Prefix :=
  [⟨[0, 0, 0, 0], 1⟩, ⟨[128, 0, 0, 0], 1⟩, ⟨replicate 16 0, 1⟩,
    ⟨128 :: replicate 15 0, 1⟩]

/-- The halves of either family are the words that begin with one bit or the other. -/
theorem networks_halves {a : Bytes} (h : a.length = 4 ∨ a.length = 16) :
    networks a.length halves = [[false], [true]] := by
  rcases h with h | h <;> rw [h] <;> decide

theorem addrFromSlice_length (h : ip.length = 4 ∨ ip.length = 16) :
    ∃ a, addrFromSlice ip = some a ∧ (a.length = 4 ∨ a.length = 16) := by
  refine ⟨(to4 ip).getD ip, if_pos h, ?_⟩
  unfold to4
  split_ifs with h4 h16
  · exact Or.inl h4
  · left
    rw [Option.getD_some, length_drop, h16.1]
  · exact h

/-- A relay that allows both halves of each family may start, and serves everybody. -/
theorem relay_closed_fails :
    let cfg : Config := { ttl := 60 * second, allowCIDRs := halves }
    cfg.checkPolicy = .ok () ∧ ∀ cookieKey ip, ip.length = 4 ∨ ip.length = 16 →
      (cfg.params cookieKey).cidrAllowed ip = true := by
  intro cfg
  refine ⟨by decide, fun cookieKey ip hip => ?_⟩
  obtain ⟨a, haddr, ha⟩ := addrFromSlice_length hip
  have hallow : (cfg.params cookieKey).allowed ≠ [] := cons_ne_nil _ _
  rw [← Bool.not_eq_false, cidrAllowed_eq_false_iff hallow haddr]
  intro hfree
  rw [show (cfg.params cookieKey).allowed = halves from rfl, networks_halves ha] at hfree
  -- the first bit of the address is one of the two
  obtain ⟨b, rest, hbits⟩ : ∃ b rest, bitsOf a = b :: rest := by
    refine exists_cons_of_length_pos ?_
    rw [bitsOf_length]
    omega
  rw [hbits] at hfree
  cases b
  · exact hfree [false] mem_cons_self ⟨rest, rfl⟩
  · exact hfree [true] (mem_cons_of_mem _ mem_cons_self) ⟨rest, rfl⟩

/-- One network of each family leaves somebody out. -/
theorem relay_closed_private :
    let cfg : Config := { ttl := 60 * second
                          allowCIDRs := [⟨[10, 0, 0, 0], 8⟩, ⟨253 :: replicate 15 0, 8⟩] }
    (∃ ip : Bytes, ip.length = 4 ∧ (cfg.params []).cidrAllowed ip = false) ∧
      ∃ ip : Bytes, ip.length = 16 ∧ to4 ip = none ∧ (cfg.params []).cidrAllowed ip = false :=
  (relay_closed_iff _ [] rfl (by decide)).2 (by decide +kernel)

end Relay

end BuddyNet
