import BuddyNet.Go.NetText
import BuddyNet.Handshake.Request
import BuddyNet.Library.Gather
import BuddyNet.Relay.Policy
import BuddyNet.Tunnel.Control

/-!
# The flags `--allow-cidr` and `--server-key`

`parseCIDRs` and `parseServerKeys` read the entries between commas and pass over blank ones. The
listeners take an empty list of networks for "open to all", so a value without an entry restricts
nobody. They unmap the address of a source and not the networks, so a network in IPv4-mapped form
has nobody in it. `flags_kept_iff`: otherwise what was written is what the listeners check.
-/

namespace BuddyNet

open Go List

/-! ### Networks -/

namespace Go

/-- The address with only its first `n` bits. -/
def clearBits : ℕ → Bytes → Bytes
  | _, [] => []
  | n, b :: ip => (b.toNat / 2 ^ (8 - n) * 2 ^ (8 - n)).toUInt8 :: clearBits (n - 8) ip

/-- `netip.ParsePrefix`. -/
def parsePrefix (s : Bytes) : Option Prefix :=
  let bits := (s.reverse.takeWhile (· ≠ 47)).reverse
  let n := bits.foldl (fun n c => n * 10 + (c.toNat - 48)) 0
  if 47 ∉ s then none
  else match parseAddr (s.take (s.length - bits.length - 1)) with
    | none => none
    | some a =>
      if a.zone ≠ [] ∨ bits = [] ∨ !bits.all Json.isDigit ∨
        (1 < bits.length ∧ bits.head? = some 48) ∨ 8 * a.ip.length < n then none
      else some ⟨a.ip, n⟩

theorem clearBits_length (n : ℕ) (ip : Bytes) : (clearBits n ip).length = ip.length := by
  induction ip generalizing n with
  | nil => rfl
  | cons b ip ih => rw [clearBits, length_cons, ih, length_cons]

theorem bitsOf_clearBits (n : ℕ) (ip : Bytes) :
    (bitsOf (clearBits n ip)).take n = (bitsOf ip).take n := by
  have hbyte : ∀ (k : Fin 8) (b : Fin 256),
      (byteBits (b.1 / 2 ^ (8 - k.1) * 2 ^ (8 - k.1)).toUInt8).take k =
        (byteBits b.1.toUInt8).take k := by
    decide +kernel
  induction ip generalizing n with
  | nil => rfl
  | cons b ip ih =>
    rw [clearBits, bitsOf_cons, bitsOf_cons, take_append, take_append]
    refine congrArg₂ (· ++ ·) ?_ (ih (n - 8))
    rcases lt_or_ge n 8 with hn | hn
    · simpa using hbyte ⟨n, hn⟩ ⟨b.toNat, b.toNat_lt⟩
    · rw [Nat.sub_eq_zero_of_le hn]
      simp

end Go

namespace Prefix

/-- `Prefix.Masked`. -/
def masked (p : Prefix) : Prefix := ⟨clearBits p.bits p.addr, p.bits⟩

/-- The unmapped address is in the network, or it is an IPv4 address and the network is one of
IPv4-mapped addresses that has it. -/
def covers (p : Prefix) (a : Bytes) : Bool :=
  prefixContains p a || (96 ≤ p.bits && prefixContains p (to16 a))

theorem contains_masked (p : Prefix) (a : Bytes) :
    prefixContains p.masked a = prefixContains p a := by
  unfold prefixContains masked
  rw [clearBits_length, bitsOf_clearBits]

theorem covers_masked (p : Prefix) (a : Bytes) : p.masked.covers a = p.covers a := by
  unfold covers
  rw [contains_masked, contains_masked]
  rfl

end Prefix

/-! ### The flags -/

/-- A flag is refused for one of its entries. -/
inductive FlagError where
  | allowCIDR (entry : Bytes)
  | serverKey (entry : Bytes)
  deriving DecidableEq

/-- The entries that are not blank. -/
def entries (s : Bytes) : List Bytes :=
  (((trimSpace s).splitOn 44).map trimSpace).filter (· ≠ [])

/-- A flag with entries between commas. -/
def parseEntries {α : Type} (entry : Bytes → Except FlagError α) (s : Bytes) :
    Except FlagError (List α) :=
  if trimSpace s = [] then .ok [] else (entries s).mapM entry

/-- A network, or the network of one host. -/
def parseCIDR (part : Bytes) : Except FlagError Prefix :=
  match parsePrefix part with
  | some p => .ok p.masked
  | none => match parseAddr part with
    | some a => .ok ⟨a.ip, 8 * a.ip.length⟩
    | none => .error (.allowCIDR part)

def parseCIDRs : Bytes → Except FlagError (List Prefix) := parseEntries parseCIDR

def parseServerKeys : Bytes → Except FlagError (List Bytes) :=
  parseEntries fun part => match decodePubKey part with
    | some k => .ok k
    | none => .error (.serverKey part)

/-- The network that an entry stands for, as it is written. -/
def written (part : Bytes) : Option Prefix :=
  (parsePrefix part).or ((parseAddr part).map fun a => ⟨a.ip, 8 * a.ip.length⟩)

/-- The address is in one of the networks that are written. -/
def Inside (s ip : Bytes) : Prop :=
  ∃ a ∈ addrFromSlice ip, ∃ part ∈ entries s, ∃ p ∈ written part, p.covers a = true

/-- The restriction is kept: the list is not empty, and the listeners of all three roles accept
exactly the addresses that are written. -/
def Kept (s : Bytes) : Prop :=
  ∀ ps, parseCIDRs s = .ok ps → ps ≠ [] ∧
    (∀ ip, Handshake.cidrAllowed ps ip = true ↔ Inside s ip) ∧
    (∀ P : Relay.Params, P.allowed = ps → ∀ ip, P.cidrAllowed ip = true ↔ Inside s ip) ∧
    ∀ remote, Tunnel.sourceAllowed ps remote = true ↔ ∃ a, remote = .udp a ∧ Inside s a.ip

variable {ps : List Prefix} {s ip part : Bytes} {p : Prefix}

theorem parseEntries_spec {α : Type} {entry : Bytes → Except FlagError α} {as : List α}
    (h : parseEntries entry s = .ok as) : Gather.Gives entry (entries s) as := by
  unfold parseEntries at h
  split_ifs at h with hblank
  · cases h
    rw [entries, hblank]
    exact .nil
  · exact Gather.mapM_eq_ok.1 h

theorem parseEntries_ne_nil {α : Type} {entry : Bytes → Except FlagError α} :
    (∀ as, parseEntries entry s = .ok as → as ≠ []) ↔ entries s ≠ [] := by
  constructor
  · intro h hnil
    refine h [] ?_ rfl
    unfold parseEntries
    split_ifs
    · rfl
    · rw [hnil]
      rfl
  · rintro hne as h rfl
    exact hne (forall₂_nil_right_iff.1 (parseEntries_spec h))

/-- An entry is read as the network that is written, up to the bits behind its length. -/
theorem parseCIDR_spec (h : parseCIDR part = .ok p) :
    ∃ q, written part = some q ∧ (p = q.masked ∨ p = q) := by
  unfold parseCIDR at h
  unfold written
  cases hpre : parsePrefix part with
  | some q =>
    rw [hpre] at h
    cases h
    exact ⟨q, rfl, Or.inl rfl⟩
  | none =>
    rw [hpre] at h
    cases haddr : parseAddr part with
    | some a =>
      rw [haddr] at h
      cases h
      exact ⟨_, rfl, Or.inr rfl⟩
    | none =>
      rw [haddr] at h
      cases h

theorem parseCIDR_of_written (h : written part = some p) : ∃ q, parseCIDR part = .ok q := by
  unfold written at h
  unfold parseCIDR
  cases hpre : parsePrefix part with
  | some q => exact ⟨_, rfl⟩
  | none =>
    rw [hpre, Option.none_or] at h
    obtain ⟨a, haddr, -⟩ := Option.map_eq_some_iff.1 h
    exact ⟨_, by rw [haddr]⟩

/-- A value is read when every entry is a network. -/
theorem parseCIDRs_of_written (h : ∀ part ∈ entries s, (written part).isSome) :
    ∃ ps, parseCIDRs s = .ok ps := by
  unfold parseCIDRs parseEntries
  split_ifs
  · exact ⟨[], rfl⟩
  · obtain ⟨ps, hps⟩ := Gather.exists_gives fun part hpart => by
      obtain ⟨p, hp⟩ := Option.isSome_iff_exists.1 (h part hpart)
      exact parseCIDR_of_written hp
    exact ⟨ps, Gather.mapM_eq_ok.2 hps⟩

/-- What does not depend on the bits behind the length of a network is true of one that is read
exactly when it is true of one that is written. -/
theorem exists_written_iff {φ : Prefix → Prop} (hφ : ∀ p : Prefix, φ p.masked ↔ φ p)
    (h : parseCIDRs s = .ok ps) :
    (∃ part ∈ entries s, ∃ p ∈ written part, φ p) ↔ ∃ p ∈ ps, φ p := by
  have hgives := parseEntries_spec h
  have hread : ∀ {part p}, parseCIDR part = .ok p → ∃ q, written part = some q ∧ (φ p ↔ φ q) := by
    intro part p hparse
    obtain ⟨q, hq, rfl | rfl⟩ := parseCIDR_spec hparse
    · exact ⟨q, hq, hφ q⟩
    · exact ⟨p, hq, Iff.rfl⟩
  constructor
  · rintro ⟨part, hpart, q, hq, hholds⟩
    obtain ⟨p, hp, hparse⟩ := hgives.exists_of_mem hpart
    obtain ⟨q', hq', hiff⟩ := hread hparse
    cases hq.symm.trans hq'
    exact ⟨p, hp, hiff.2 hholds⟩
  · rintro ⟨p, hp, hholds⟩
    obtain ⟨part, hpart, hparse⟩ := hgives.mem hp
    obtain ⟨q, hq, hiff⟩ := hread hparse
    exact ⟨part, hpart, q, hq, hiff.1 hholds⟩

theorem all_written (h : parseCIDRs s = .ok ps) : ∀ part ∈ entries s, (written part).isSome := by
  intro part hpart
  obtain ⟨p, -, hparse⟩ := (parseEntries_spec h).exists_of_mem hpart
  obtain ⟨q, hq, -⟩ := parseCIDR_spec hparse
  exact hq ▸ rfl

theorem inside_iff (h : parseCIDRs s = .ok ps) : Inside s ip ↔
    ∃ a ∈ addrFromSlice ip, ∃ p ∈ ps, p.covers a = true := by
  refine exists_congr fun a => and_congr_right fun _ => exists_written_iff (fun p => ?_) h
  rw [p.covers_masked]

theorem cidrAllowed_iff (hne : ps ≠ []) : Handshake.cidrAllowed ps ip = true ↔
    ∃ a ∈ addrFromSlice ip, ∃ p ∈ ps, prefixContains p a = true := by
  rw [Handshake.cidrAllowed, isEmpty_eq_false_iff.2 hne, Bool.false_or]
  cases addrFromSlice ip with
  | none => simp
  | some a => simp

/-- An IPv4 address that a written network in IPv4-mapped form has is in another one. -/
def MappedElsewhere (s : Bytes) : Prop :=
  ∀ a : Bytes, a.length = 4 →
    (∃ part ∈ entries s, ∃ p ∈ written part,
      96 ≤ p.bits ∧ prefixContains p (to16 a) = true) →
    ∃ part ∈ entries s, ∃ q ∈ written part, prefixContains q a = true

theorem mappedElsewhere_iff (h : parseCIDRs s = .ok ps) : MappedElsewhere s ↔
    ∀ a : Bytes, a.length = 4 →
      (∃ p ∈ ps, 96 ≤ p.bits ∧ prefixContains p (to16 a) = true) →
      ∃ q ∈ ps, prefixContains q a = true := by
  refine forall₂_congr fun a _ => imp_congr ?_ ?_
  · refine exists_written_iff (fun p => ?_) h
    rw [p.contains_masked]
    exact Iff.rfl
  · refine exists_written_iff (fun p => ?_) h
    rw [p.contains_masked]

theorem cidrAllowed_inside_iff (hne : ps ≠ []) (h : parseCIDRs s = .ok ps) :
    (∀ ip, Handshake.cidrAllowed ps ip = true ↔ Inside s ip) ↔ MappedElsewhere s := by
  simp only [cidrAllowed_iff hne, inside_iff h, mappedElsewhere_iff h, Prefix.covers,
    Bool.or_eq_true, Bool.and_eq_true, decide_eq_true_eq]
  constructor
  · rintro hall a hlen ⟨p, hp, hbits, ha⟩
    have haddr : addrFromSlice a = some a := by simp [addrFromSlice, to4, hlen]
    obtain ⟨a', ha', hq⟩ := (hall a).2 ⟨a, haddr, p, hp, Or.inr ⟨hbits, ha⟩⟩
    cases haddr.symm.trans ha'
    exact hq
  · intro hmapped ip
    refine exists_congr fun a => and_congr_right fun haddr => ⟨?_, ?_⟩
    · rintro ⟨p, hp, ha⟩
      exact ⟨p, hp, Or.inl ha⟩
    · rintro ⟨p, hp, ha | ⟨hbits, ha⟩⟩
      · exact ⟨p, hp, ha⟩
      · by_cases hlen : a.length = 4
        · exact hmapped a hlen ⟨p, hp, hbits, ha⟩
        · refine ⟨p, hp, ?_⟩
          unfold to16 at ha
          split_ifs at ha with h16
          · exact ha
          · simp only [prefixContains, Bool.and_eq_true, beq_iff_eq, decide_eq_true_eq,
              length_nil] at ha
            omega

/-- **A restriction that is written is kept exactly when** there is an entry and, if all entries are
networks, what one in IPv4-mapped form should let in is in another. For keys it takes an entry. -/
theorem flags_kept_iff (s : Bytes) :
    (Kept s ↔ entries s ≠ [] ∧
      ((∀ part ∈ entries s, (written part).isSome) → MappedElsewhere s)) ∧
    ((∀ ks, parseServerKeys s = .ok ks → ks ≠ []) ↔ entries s ≠ []) := by
  refine ⟨?_, parseEntries_ne_nil⟩
  rw [← parseEntries_ne_nil]
  constructor
  · intro h
    refine ⟨fun ps hps => (h ps hps).1, fun hwritten => ?_⟩
    obtain ⟨ps, hps⟩ := parseCIDRs_of_written hwritten
    exact (cidrAllowed_inside_iff (h ps hps).1 hps).1 (h ps hps).2.1
  · rintro ⟨hne, h⟩ ps hps
    have hall := (cidrAllowed_inside_iff (hne ps hps) hps).2 (h (all_written hps))
    refine ⟨hne ps hps, hall, fun P hP ip => ?_, fun remote => ?_⟩
    · rw [← hall, ← hP]
      rfl
    · have hclosed : ps.isEmpty = false := isEmpty_eq_false_iff.2 (hne ps hps)
      cases remote with
      | udp a =>
        simp only [← hall, Tunnel.NetAddr.udp.injEq, exists_eq_left', Tunnel.sourceAllowed,
          Handshake.cidrAllowed]
        cases addrFromSlice a.ip <;> rfl
      | _ => simp [Tunnel.sourceAllowed, hclosed]

/-- A comma is no entry, and a host in mapped form has nobody in it. -/
theorem flags_dropped : trimSpace (lit ",") ≠ [] ∧
    parseCIDRs (lit ",") = .ok [] ∧ (∀ ip, Handshake.cidrAllowed [] ip = true) ∧
    parseServerKeys (lit ",") = .ok [] ∧
    ∃ ps, parseCIDRs (lit "::ffff:10.0.0.1") = .ok ps ∧
      Handshake.cidrAllowed ps [10, 0, 0, 1] = false := by
  refine ⟨by decide +kernel, by decide +kernel, fun _ => rfl, by decide +kernel, _, rfl, ?_⟩
  decide +kernel

end BuddyNet
