import BuddyNet.Go.Netip
import BuddyNet.Library.Netlink

/-!
# The configuration of a WireGuard device

The bytes of `buildSetDeviceAttrs`, and the grammar they are written in: `decodeDevice` walks the
attributes of every level and takes none that it does not know and none twice. `device_roundtrip`: a
configuration is read back as one device with one peer.
-/

namespace BuddyNet.Wg

open Netlink List

/-- A key of 32 bytes. -/
abbrev Key := {k : Bytes // k.length = 32}

/-- `Peer`; an endpoint that is not valid is none. -/
structure Peer where
  publicKey : Key
  endpoint : Option (Addr × UInt16)
  allowedIPs : List Prefix
  keepalive : UInt16
  deriving DecidableEq

/-- `Config`; an address that is not valid is none. -/
structure Config where
  ifName : Bytes
  privateKey : Key
  listenPort : ℤ
  address : Option Prefix
  peer : Peer
  deriving DecidableEq

/-- `Prefix.IsValid`. -/
def isValid (p : Prefix) : Bool :=
  (p.addr.length = 4 ∨ p.addr.length = 16) ∧ p.bits ≤ 8 * p.addr.length

def Config.validate (c : Config) : Except Bytes Unit :=
  if c.ifName = [] ∨ 15 < c.ifName.length then .error (lit "wg: IfName must be 1..15 bytes")
  else if c.privateKey.1 = replicate 32 0 then .error (lit "wg: PrivateKey is zero")
  else if c.peer.publicKey.1 = replicate 32 0 then .error (lit "wg: Peer.PublicKey is zero")
  else if c.peer.allowedIPs.any (!isValid ·) then .error (lit "wg: invalid AllowedIP prefix")
  else if c.address.any (·.addr.length ≠ 4) then
    .error (lit "wg: only IPv4 interface addresses are supported")
  else .ok ()

section Code

variable (e : Endian)

/-! ### Writing -/

def nlaFNested : UInt16 := 0x8000

def nlaTypeMask : UInt16 := 0x3fff

/-- `nlAttr` for one attribute after the other; one without a value is left out. -/
def writeAttrs (as : List (UInt16 × Option Bytes)) : Bytes :=
  as.flatMap fun a => a.2.elim [] (attr e a.1)

def encodeSockaddr (ap : Addr × UInt16) : Bytes :=
  -- AF_INET or AF_INET6, the port, and the address; an IPv6 address stands behind its flow label
  if ap.1.ip.length = 4 then put e 2 2 ++ put .big 2 ap.2.toNat ++ ap.1.ip ++ replicate 8 0
  else put e 2 10 ++ put .big 2 ap.2.toNat ++ replicate 4 0 ++ ap.1.ip ++ replicate 4 0

/-- `wgAllowedipAFamily`, `wgAllowedipAIpaddr`, `wgAllowedipACidrMask`. -/
def allowedIPAttrs (p : Prefix) : List (UInt16 × Option Bytes) :=
  [(1, some (put e 2 (if p.addr.length = 4 then 2 else 10))), (2, some p.addr),
    (3, some [UInt8.ofNat p.bits])]

def buildAllowedIP (p : Prefix) : Bytes := writeAttrs e (allowedIPAttrs e p)

/-- The entries of the allowed prefixes. -/
def allowedIPsAttrs (ps : List Prefix) : List (UInt16 × Option Bytes) :=
  ps.zipIdx.map fun a => (UInt16.ofNat a.2 ||| nlaFNested, some (buildAllowedIP e a.1))

/-- `wgPeerAPublicKey`, `wgPeerAFlags` with `wgPeerFReplaceAllowedips`, `wgPeerAEndpoint`,
`wgPeerAPersistentKeepaliveInterval`, `wgPeerAAllowedips`. -/
def peerAttrs (p : Peer) : List (UInt16 × Option Bytes) :=
  [(1, some p.publicKey.1), (3, some (put e 4 2)), (4, p.endpoint.map (encodeSockaddr e)),
    (5, if 0 < p.keepalive.toNat then some (put e 2 p.keepalive.toNat) else none),
    (9 ||| nlaFNested, some (writeAttrs e (allowedIPsAttrs e p.allowedIPs)))]

def buildPeer (p : Peer) : Bytes := writeAttrs e (peerAttrs e p)

/-- `wgDeviceAIfindex`, `wgDeviceAFlags` with `wgDeviceFReplacePeers`, `wgDeviceAPrivateKey`,
`wgDeviceAListenPort`, `wgDeviceAPeers`. -/
def deviceAttrs (ifindex : ℤ) (cfg : Config) : List (UInt16 × Option Bytes) :=
  [(1, some (put e 4 (ifindex % 2 ^ 32).toNat)), (5, some (put e 4 1)), (3, some cfg.privateKey.1),
    (6, if 0 < cfg.listenPort.toNat then some (put e 2 cfg.listenPort.toNat) else none),
    (8 ||| nlaFNested, some (writeAttrs e [(0 ||| nlaFNested, some (buildPeer e cfg.peer))]))]

def buildSetDeviceAttrs (ifindex : ℤ) (cfg : Config) : Bytes :=
  writeAttrs e (deviceAttrs e ifindex cfg)

/-! ### Reading -/

/-- The attributes that `attrWalk` visits. -/
def walk (b : Bytes) : List (UInt16 × Bytes) := (attrs e b).map fun a => (a.1 &&& nlaTypeMask, a.2)

/-- Attributes of known types, none of them twice, by their types. -/
def record (known : List UInt16) (b : Bytes) : Option (UInt16 → Option Bytes) :=
  let as := walk e b
  if (as.map (·.1)).Nodup ∧ as.map (·.1) ⊆ known then
    some fun t => (as.find? (·.1 == t)).map (·.2)
  else none

/-- A `struct sockaddr_in` or `struct sockaddr_in6` without a scope. -/
def decodeSockaddr (b : Bytes) : Option (Addr × UInt16) :=
  let port := UInt16.ofNat (get .big ((b.drop 2).take 2))
  if get e (b.take 2) = 2 ∧ b.length = 16 then some (⟨(b.drop 4).take 4, []⟩, port)
  else if get e (b.take 2) = 10 ∧ b.length = 28 ∧ b.drop 24 = replicate 4 0 then
    some (⟨(b.drop 8).take 16, []⟩, port)
  else none

def decodeAllowedIP (b : Bytes) : Option Prefix := do
  let f ← record e [1, 2, 3] b
  let family ← f 1
  let ip ← f 2
  let mask ← f 3
  if (get e family = 2 ∧ ip.length = 4) ∨ (get e family = 10 ∧ ip.length = 16) then
    some ⟨ip, get e mask⟩
  else none

/-- What a peer entry says; a number that is absent is zero. -/
structure DevicePeer where
  publicKey : Bytes
  flags : ℕ
  endpoint : Option (Addr × UInt16)
  keepalive : ℕ
  allowedIPs : List Prefix
  deriving DecidableEq

def decodePeer (b : Bytes) : Option DevicePeer := do
  let f ← record e [1, 3, 4, 5, 9] b
  let key ← f 1
  let endpoint ← (f 4).mapM (decodeSockaddr e)
  let ips ← (walk e ((f 9).getD [])).mapM fun a => decodeAllowedIP e a.2
  some ⟨key, get e ((f 3).getD []), endpoint, get e ((f 5).getD []), ips⟩

/-- What a message about a device says. -/
structure Device where
  ifindex : ℕ
  flags : ℕ
  privateKey : Bytes
  listenPort : ℕ
  peers : List DevicePeer
  deriving DecidableEq

def decodeDevice (b : Bytes) : Option Device := do
  let f ← record e [1, 5, 3, 6, 8] b
  let ifindex ← f 1
  let key ← f 3
  let peers ← (walk e ((f 8).getD [])).mapM fun a => decodePeer e a.2
  some ⟨get e ifindex, get e ((f 5).getD []), key, get e ((f 6).getD []), peers⟩

end Code

/-! ### Reading what was written -/

variable {e : Endian} {as : List (UInt16 × Option Bytes)} {ns : List ℕ}

/-- The values are at most so long, and an attribute can hold them. -/
structure Within (as : List (UInt16 × Option Bytes)) (ns : List ℕ) : Prop where
  le : Forall₂ (fun a n => ∀ d ∈ a.2, d.length ≤ n) as ns
  lt : ∀ n ∈ ns, n < 65532

theorem Within.length_le (h : Within as ns) : (writeAttrs e as).length ≤ (ns.map (· + 7)).sum := by
  obtain ⟨hle, -⟩ := h
  unfold writeAttrs
  induction hle with
  | nil => exact le_rfl
  | @cons a n as ns ha _ ih =>
    have hattr : (a.2.elim [] (attr e a.1)).length ≤ n + 7 := by
      cases hv : a.2 with
      | none => exact Nat.zero_le _
      | some d =>
        have hd := ha d hv
        have halign := align_lt (4 + d.length)
        rw [Option.elim_some, attr_length]
        omega
    rw [flatMap_cons, length_append, map_cons, sum_cons]
    omega

theorem walk_writeAttrs (h : Within as ns) : walk e (writeAttrs e as) =
    as.filterMap fun a => a.2.map fun d => (a.1 &&& nlaTypeMask, d) := by
  obtain ⟨hle, hlt⟩ := h
  unfold walk writeAttrs
  induction hle with
  | nil => simp
  | @cons a n as ns ha _ ih =>
    obtain ⟨typ, v⟩ := a
    obtain ⟨hn, hns⟩ := forall_mem_cons.1 hlt
    cases v with
    | none => simpa using ih hns
    | some d =>
      rw [flatMap_cons, Option.elim_some, attrs_attr_append ((ha d rfl).trans_lt hn),
        map_cons, ih hns]
      rfl

/-- What was written is a record with these values. -/
theorem record_writeAttrs {types : List UInt16} (h : Within as ns)
    (htypes : (as.map fun a => a.1 &&& nlaTypeMask) = types) (hnodup : types.Nodup) :
    ∃ f, record e types (writeAttrs e as) = some f ∧ types.map f = as.map (·.2) := by
  have hsub : ((walk e (writeAttrs e as)).map (·.1)).Sublist types := by
    rw [walk_writeAttrs h, ← htypes]
    clear htypes h
    induction as with
    | nil => exact .slnil
    | cons a as ih =>
      rcases a with ⟨typ, _ | d⟩
      · exact .cons _ ih
      · exact .cons_cons _ ih
  refine ⟨_, if_pos ⟨hnodup.sublist hsub, fun t ht => hsub.subset ht⟩, ?_⟩
  rw [walk_writeAttrs h, ← htypes, map_map]
  rw [← htypes] at hnodup
  clear htypes hsub h
  induction as with
  | nil => rfl
  | cons a as ih =>
    obtain ⟨hnew, hrest⟩ := nodup_cons.1 hnodup
    rw [map_cons, map_cons, ← ih hrest]
    have hother : ∀ a' ∈ as, ((a.1 &&& nlaTypeMask) == (a'.1 &&& nlaTypeMask)) = false :=
      fun a' ha' => beq_false_of_ne fun heq => hnew (mem_map.2 ⟨a', ha', heq.symm⟩)
    rcases a with ⟨typ, _ | d⟩
    · refine congrArg (· :: _) (Option.map_eq_none_iff.2 (find?_eq_none.2 fun x hx => ?_))
      obtain ⟨a', ha', hsome⟩ := mem_filterMap.1 (show x ∈ as.filterMap _ from hx)
      obtain ⟨d, -, rfl⟩ := Option.map_eq_some_iff.1 hsome
      exact fun heq => absurd ((beq_iff_eq.1 heq).symm) (ne_of_beq_false (hother a' ha'))
    · refine congrArg₂ (· :: ·) (by simp) (map_congr_left fun a' ha' => ?_)
      simp [hother a' ha']

/-! ### The parts of a configuration -/

variable {ap : Addr × UInt16} {p : Prefix} {peer : Peer}

/-- An address that a socket address can hold. -/
structure Plain (ap : Addr × UInt16) : Prop where
  size : ap.1.ip.length = 4 ∨ ap.1.ip.length = 16
  zone : ap.1.zone = []

theorem encodeSockaddr_length_le (h : Plain ap) : (encodeSockaddr e ap).length ≤ 28 := by
  unfold encodeSockaddr
  rcases h.size with h | h <;> simp [h]

theorem decodeSockaddr_encodeSockaddr (h : Plain ap) :
    decodeSockaddr e (encodeSockaddr e ap) = some ap := by
  obtain ⟨⟨ip, zone⟩, port⟩ := ap
  obtain ⟨hsize, rfl⟩ := h
  have hport : get .big (put .big 2 port.toNat) = port.toNat := get_put port.toNat_lt
  have hfamily : ∀ n < 256, get e (put e 2 n) = n := fun n hn => get_put (by omega)
  have hcut : ∀ (n : ℕ) (t : Bytes),
      ((put e 2 n ++ (put .big 2 port.toNat ++ t)).drop 2).take 2 = put .big 2 port.toNat :=
    fun n t => take_drop_append (put_length _ _ _) (put_length _ _ _)
  unfold encodeSockaddr decodeSockaddr
  rcases hsize with h | h <;> dsimp only at h
  · simp only [h, if_true, append_assoc]
    rw [hcut, take_left' (put_length _ _ _), hfamily 2 (by decide), hport, ← append_assoc,
      take_drop_append (by simp) h, if_pos ⟨rfl, by simp [h]⟩, UInt16.ofNat_toNat]
  · simp only [h, Nat.reduceEqDiff, if_false, append_assoc]
    have hback : (put e 2 10 ++ (put .big 2 port.toNat ++ (replicate 4 0 ++
        (ip ++ replicate 4 0)))).drop 24 = replicate 4 0 := by
      rw [← append_assoc, ← append_assoc, ← append_assoc]
      exact drop_left' (by simp [h])
    rw [hcut, take_left' (put_length _ _ _), hfamily 10 (by decide), hport, if_neg (by simp),
      if_pos ⟨rfl, by simp [h], hback⟩, ← append_assoc, ← append_assoc,
      take_drop_append (by simp) h, UInt16.ofNat_toNat]

/-- A prefix is read back, and its entry is short. -/
theorem decodeAllowedIP_buildAllowedIP (h : isValid p = true) :
    decodeAllowedIP e (buildAllowedIP e p) = some p ∧ (buildAllowedIP e p).length ≤ 40 := by
  obtain ⟨hsize, hbits⟩ : (p.addr.length = 4 ∨ p.addr.length = 16) ∧ p.bits ≤ 8 * p.addr.length :=
    of_decide_eq_true h
  have hwithin : Within (allowedIPAttrs e p) [2, 16, 1] := by
    refine ⟨.cons ?_ (.cons ?_ (.cons ?_ .nil)), by decide⟩ <;> simp
    omega
  have htypes : ((allowedIPAttrs e p).map fun a => a.1 &&& nlaTypeMask) = [1, 2, 3] := by
    simp only [allowedIPAttrs, map_cons, map_nil]
    decide
  obtain ⟨f, hf, hvals⟩ := record_writeAttrs (e := e) hwithin htypes (by decide)
  refine ⟨?_, hwithin.length_le⟩
  simp only [allowedIPAttrs, map_cons, cons.injEq] at hvals
  obtain ⟨h1, h2, h3, -⟩ := hvals
  have hmask : get e [UInt8.ofNat p.bits] = p.bits := by
    have hput : put e 1 p.bits = [UInt8.ofNat p.bits] := by cases e <;> rfl
    rw [← hput, get_put (by omega)]
  have hfamily : ∀ n < 256, get e (put e 2 n) = n := fun n hn => get_put (by omega)
  simp only [decodeAllowedIP, buildAllowedIP, hf, h1, h2, h3, Option.bind_eq_bind,
    Option.bind_some, hmask]
  rcases hsize with hsize | hsize <;> simp [hsize, hfamily]

/-- Prefixes are read back in their order, and their entries are short. -/
theorem decode_allowedIPs {ps : List Prefix} (h : ∀ p ∈ ps, isValid p = true) :
    ((walk e (writeAttrs e (allowedIPsAttrs e ps))).mapM fun a => decodeAllowedIP e a.2) = some ps ∧
      (writeAttrs e (allowedIPsAttrs e ps)).length ≤ ps.length * 47 := by
  have hwithin : Within (allowedIPsAttrs e ps) (ps.zipIdx.map fun _ => 40) := by
    constructor
    · unfold allowedIPsAttrs
      rw [forall₂_map_left_iff, forall₂_map_right_iff, forall₂_same]
      rintro a ha d ⟨⟩
      exact (decodeAllowedIP_buildAllowedIP (h _ (fst_mem_of_mem_zipIdx ha))).2
    · simp
  refine ⟨?_, by simpa using hwithin.length_le (e := e)⟩
  rw [walk_writeAttrs hwithin, allowedIPsAttrs]
  generalize 0 = k
  clear hwithin
  induction ps generalizing k with
  | nil => rfl
  | cons p ps ih =>
    obtain ⟨hp, hps⟩ := forall_mem_cons.1 h
    rw [zipIdx_cons, map_cons, filterMap_cons]
    dsimp only [Option.map_some]
    rw [mapM_cons, ih hps, (decodeAllowedIP_buildAllowedIP hp).1]
    rfl

theorem get_optional {n : ℕ} (hn : n < 65536) :
    get e ((if 0 < n then some (put e 2 n) else none).getD []) = n := by
  split_ifs with h
  · exact get_put hn
  · rw [Nat.eq_zero_of_not_pos h]
    cases e <;> rfl

theorem length_optional {n : ℕ} :
    ∀ d ∈ (if 0 < n then some (put e 2 n) else none), d.length ≤ 2 := by
  intro d hd
  split_ifs at hd
  · rw [← Option.some.inj hd, put_length]
  · cases hd

/-- A peer is read back, and its entry is short. -/
theorem decodePeer_buildPeer (hend : ∀ ap ∈ peer.endpoint, Plain ap)
    (hvalid : ∀ p ∈ peer.allowedIPs, isValid p = true) (hfew : peer.allowedIPs.length ≤ 1000) :
    decodePeer e (buildPeer e peer) = some
      ⟨peer.publicKey.1, 2, peer.endpoint, peer.keepalive.toNat, peer.allowedIPs⟩ ∧
    (buildPeer e peer).length ≤ 50000 := by
  obtain ⟨hips, hlen⟩ := decode_allowedIPs (e := e) hvalid
  have hwithin : Within (peerAttrs e peer) [32, 4, 28, 2, 47000] := by
    refine ⟨.cons ?_ (.cons ?_ (.cons ?_ (.cons length_optional (.cons ?_ .nil)))), by decide⟩
    · simpa using peer.publicKey.2.le
    · simp
    · intro d hd
      obtain ⟨ap, hap, rfl⟩ := Option.map_eq_some_iff.1 hd
      exact encodeSockaddr_length_le (hend ap hap)
    · rintro d ⟨⟩
      exact hlen.trans (by omega)
  have htypes : ((peerAttrs e peer).map fun a => a.1 &&& nlaTypeMask) = [1, 3, 4, 5, 9] := by
    simp only [peerAttrs, map_cons, map_nil]
    decide
  obtain ⟨f, hf, hvals⟩ := record_writeAttrs (e := e) hwithin htypes (by decide)
  refine ⟨?_, hwithin.length_le.trans (by decide)⟩
  simp only [peerAttrs, map_cons, cons.injEq] at hvals
  obtain ⟨h1, h3, h4, h5, h9, -⟩ := hvals
  have hread : (f 4).mapM (decodeSockaddr e) = some peer.endpoint := by
    rw [h4]
    cases hep : peer.endpoint with
    | none => rfl
    | some ap => simp [decodeSockaddr_encodeSockaddr (hend ap hep)]
  have hflags : get e (put e 4 2) = 2 := get_put (by decide)
  simp only [decodePeer, buildPeer, hf, h1, h3, h5, h9, hread, Option.bind_eq_bind,
    Option.bind_some, Option.getD_some, hips, get_optional peer.keepalive.toNat_lt, hflags]

/-- **A configuration is read back as it was written**: one device with its peer and nothing
else. -/
theorem device_roundtrip (e : Endian) (ifindex : ℤ) (cfg : Config) (h : cfg.validate = .ok ())
    (hport : 0 ≤ cfg.listenPort ∧ cfg.listenPort ≤ 65535)
    (hend : ∀ ap ∈ cfg.peer.endpoint, Plain ap) (hfew : cfg.peer.allowedIPs.length ≤ 1000) :
    decodeDevice e (buildSetDeviceAttrs e ifindex cfg) = some
      ⟨(ifindex % 2 ^ 32).toNat, 1, cfg.privateKey.1, cfg.listenPort.toNat,
        [⟨cfg.peer.publicKey.1, 2, cfg.peer.endpoint, cfg.peer.keepalive.toNat,
          cfg.peer.allowedIPs⟩]⟩ := by
  have hvalid : ∀ p ∈ cfg.peer.allowedIPs, isValid p = true := by
    unfold Config.validate at h
    split_ifs at h with _ _ _ hvalid
    simpa using hvalid
  obtain ⟨hpeer, hlen⟩ := decodePeer_buildPeer (e := e) hend hvalid hfew
  have hentry : Within [((0 : UInt16) ||| nlaFNested, some (buildPeer e cfg.peer))] [50000] :=
    ⟨.cons (by simpa using hlen) .nil, by decide⟩
  have hwithin : Within (deviceAttrs e ifindex cfg) [4, 4, 32, 2, 50007] := by
    refine ⟨.cons ?_ (.cons ?_ (.cons ?_ (.cons length_optional (.cons ?_ .nil)))), by decide⟩
    · simp
    · simp
    · simpa using cfg.privateKey.2.le
    · simpa using hentry.length_le
  have htypes :
      ((deviceAttrs e ifindex cfg).map fun a => a.1 &&& nlaTypeMask) = [1, 5, 3, 6, 8] := by
    simp only [deviceAttrs, map_cons, map_nil]
    decide
  obtain ⟨f, hf, hvals⟩ := record_writeAttrs (e := e) hwithin htypes (by decide)
  simp only [deviceAttrs, map_cons, cons.injEq] at hvals
  obtain ⟨h1, h5, h3, h6, h8, -⟩ := hvals
  have hflags : get e (put e 4 1) = 1 := get_put (by decide)
  have hindex : get e (put e 4 (ifindex % 2 ^ 32).toNat) = (ifindex % 2 ^ 32).toNat :=
    get_put (by omega)
  have hlisten := get_optional (e := e) (n := cfg.listenPort.toNat) (by omega)
  simp only [decodeDevice, buildSetDeviceAttrs, hf, h1, h3, h5, h6, h8, Option.bind_eq_bind,
    Option.bind_some, Option.getD_some, hindex, hflags, hlisten, walk_writeAttrs hentry]
  simp [hpeer]

namespace Sample

/-- A peer with an IPv6 endpoint, an allowed prefix of each family and a keepalive. -/
def config : Config where
  ifName := lit "bnet0"
  privateKey := ⟨replicate 32 1, rfl⟩
  listenPort := 51820
  address := some ⟨[10, 66, 0, 1], 32⟩
  peer := ⟨⟨replicate 32 2, rfl⟩, some (⟨replicate 16 3, []⟩, 443),
    [⟨[10, 66, 0, 2], 32⟩, ⟨replicate 16 4, 64⟩], 25⟩

end Sample

theorem device_roundtrip_sample :
    decodeDevice .little (buildSetDeviceAttrs .little 7 Sample.config) = some
      ⟨7, 1, replicate 32 1, 51820, [⟨replicate 32 2, 2,
        some (⟨replicate 16 3, []⟩, 443), 25,
        [⟨[10, 66, 0, 2], 32⟩, ⟨replicate 16 4, 64⟩]⟩]⟩ := by
  refine device_roundtrip .little 7 Sample.config (by decide) (by decide) ?_ (by decide)
  rintro _ ⟨⟩
  exact ⟨by decide, rfl⟩

end BuddyNet.Wg
