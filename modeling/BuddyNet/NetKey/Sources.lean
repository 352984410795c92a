import BuddyNet.Go.NetText
import BuddyNet.Tunnel.Control

/-!
# One key for one source

The text of an address can be read back (`parseAddr_dotted`, `parseAddr_string6`), so the key that a
source is charged under names the IPv4 address or the /64.
-/

namespace BuddyNet

open Go List

variable {ip ip' v4 : Bytes}

theorem isPrefixOf_iff_take :
    v4InV6Prefix.isPrefixOf ip = true ↔ ip.take 12 = v4InV6Prefix := by
  rw [ isPrefixOf_iff_prefix, prefix_iff_eq_take]
  exact eq_comm

theorem fromNetipAddr_v4 (h : to4 ip = some v4) (zone : Bytes) :
    fromNetipAddr ⟨ip, zone⟩ = dotted v4 := by
  unfold to4 at h
  split_ifs at h with h4 h16
  · cases h
    simp [fromNetipAddr, Addr.unmap, Addr.string, h4]
  · cases h
    have hunmap : Addr.unmap ⟨ip, zone⟩ = ⟨ip.drop 12, []⟩ :=
      if_pos ⟨h16.1, isPrefixOf_iff_take.2 h16.2⟩
    simp [fromNetipAddr, hunmap, Addr.string, h16.1]

theorem fromNetipAddr_v6 (hlen : ip.length = 16) (h : to4 ip = none) (zone : Bytes) :
    fromNetipAddr ⟨ip, zone⟩ = string6 (ip.take 8 ++ replicate 8 0) ++ lit "/64" := by
  have hother : ip.take 12 ≠ v4InV6Prefix := fun hmapped => by simp [to4, hlen, hmapped] at h
  simp only [fromNetipAddr, Addr.unmap, isPrefixOf_iff_take, hother, and_false, if_false, hlen,
    if_true, append_assoc]
  rfl

theorem to4_cases (hip : ip.length = 4 ∨ ip.length = 16) :
    (∃ v4, to4 ip = some v4) ∨ ip.length = 16 ∧ to4 ip = none := by
  cases h : to4 ip with
  | some v4 => exact Or.inl ⟨v4, rfl⟩
  | none =>
    refine Or.inr ⟨hip.resolve_left fun h4 => ?_, rfl⟩
    simp [to4, h4] at h

/-- The zone makes no difference. -/
theorem fromNetipAddr_eq (hip : ip.length = 4 ∨ ip.length = 16) (zone : Bytes) :
    fromNetipAddr ⟨ip, zone⟩ = fromIP ip := by
  rw [fromIP, if_pos hip]
  rcases to4_cases hip with ⟨v4, h⟩ | ⟨h16, h⟩
  · rw [fromNetipAddr_v4 h, fromNetipAddr_v4 h]
  · rw [fromNetipAddr_v6 h16 h, fromNetipAddr_v6 h16 h]

theorem dotted_inj (h : ip.length = 4) (h' : ip'.length = 4) (heq : dotted ip = dotted ip') :
    ip = ip' := by
  have hread := parseAddr_dotted h
  rw [heq, parseAddr_dotted h'] at hread
  exact (congrArg Addr.ip (Option.some.inj hread)).symm

theorem string6_inj (h : ip.length = 16) (h' : ip'.length = 16)
    (heq : string6 ip = string6 ip') : ip = ip' := by
  have hread := parseAddr_string6 h []
  rw [heq, parseAddr_string6 h'] at hread
  exact (congrArg Addr.ip (Option.some.inj hread)).symm

/-- The slash of a prefix does not occur in an IPv4 address. -/
theorem dotted_ne_slash (a b c : Bytes) : dotted a ≠ b ++ 47 :: c := by
  intro heq
  have hmem : (47 : UInt8) ∈ dotted a := by simp [heq]
  rcases mem_dotted hmem with hdigit | hdot
  · exact absurd hdigit.1 (by decide)
  · exact absurd hdot (by decide)

/-- The same IPv4 address, or the same upper half of two IPv6 addresses. -/
def SameSource (ip ip' : Bytes) : Prop :=
  match to4 ip, to4 ip' with
  | some v4, some v4' => v4 = v4'
  | none, none => ip.take 8 = ip'.take 8
  | _, _ => False

/-- **One source, one budget.** Two addresses share a key exactly when they are one source, however
the key was derived and whatever the port and the zone. -/
theorem one_source_one_key (ip ip' : Bytes) (hip : ip.length = 4 ∨ ip.length = 16)
    (hip' : ip'.length = 4 ∨ ip'.length = 16) :
    (fromIP ip = fromIP ip' ↔ SameSource ip ip') ∧
      (to4 ip ≠ none → to4 ip' = none → fromIP ip ≠ fromIP ip') ∧
      ∀ port zone, Tunnel.ipKey (.udp ⟨ip, port, zone⟩) = fromIP ip ∧
        Tunnel.ipKey (.tcp ⟨ip, port, zone⟩) = fromIP ip ∧
        fromNetipAddr ⟨ip, zone⟩ = fromIP ip := by
  have hiff : fromIP ip = fromIP ip' ↔ SameSource ip ip' := by
    unfold SameSource
    rw [fromIP, if_pos hip, fromIP, if_pos hip']
    rcases to4_cases hip with ⟨v4, h⟩ | ⟨h16, h⟩ <;>
      rcases to4_cases hip' with ⟨v4', h'⟩ | ⟨h16', h'⟩ <;> rw [h, h']
    · rw [fromNetipAddr_v4 h, fromNetipAddr_v4 h']
      exact ⟨dotted_inj (to4_length h) (to4_length h'), congrArg _⟩
    · rw [fromNetipAddr_v4 h, fromNetipAddr_v6 h16' h']
      exact iff_of_false (dotted_ne_slash _ _ (lit "64")) id
    · rw [fromNetipAddr_v4 h', fromNetipAddr_v6 h16 h]
      exact iff_of_false (dotted_ne_slash _ _ (lit "64")).symm id
    · rw [fromNetipAddr_v6 h16 h, fromNetipAddr_v6 h16' h', append_cancel_right_eq]
      refine ⟨fun heq => ?_, fun heq => by rw [heq]⟩
      exact append_cancel_right (string6_inj (by simp [h16]) (by simp [h16']) heq)
  refine ⟨hiff, fun h h' heq => ?_, fun port zone => ⟨rfl, rfl, fromNetipAddr_eq hip zone⟩⟩
  obtain ⟨v4, h⟩ := Option.ne_none_iff_exists'.1 h
  have hsame := hiff.1 heq
  simp only [SameSource, h, h'] at hsame

/-- An IPv4 address and its mapped form. -/
theorem one_source_one_key_mapped :
    fromIP [192, 0, 2, 1] = fromIP (v4InV6Prefix ++ [192, 0, 2, 1]) := by
  refine (one_source_one_key _ _ (by decide) (by decide)).1.2 ?_
  change [192, 0, 2, 1] = [192, 0, 2, 1]
  rfl

end BuddyNet
