import BuddyNet.Go.JsonRead
import BuddyNet.Go.Netip

/-!
# Addresses are read back from their text

`UDPAddr.String` and `netip.ParseAddrPort` meet again: what the one writes for an address of four or
sixteen bytes, the other reads as the same address and port (`parseAddrPort_string`).

* dotted decimal, octet by octet (`parseIPv4Fields_octet`);
* the groups of an IPv6 address, with the longest run of zeros left out (`parseIPv6Groups_join`,
  `parseIPv6Groups_ellipsis`);
* brackets, zone and port around them.
-/

namespace BuddyNet

open List

namespace Go

/-! ### Decimal numbers -/

theorem parseUint16_itoa (p : UInt16) : parseUint16 (itoa p.toNat) = some p := by
  have hall : (itoa p.toNat).all (fun c => 48 ≤ c.toNat && c.toNat ≤ 57) = true := by
    refine all_eq_true.2 fun c hc => ?_
    simpa using mem_itoa hc
  have hlt : p.toNat < 65536 := p.toNat_lt
  rw [parseUint16, if_pos ⟨itoa_ne_nil _, hall⟩, foldl_itoa_nat, if_pos hlt]
  simp

/-! ### Dotted decimal -/

theorem le_foldl_digits (s : Bytes) (a : ℕ) :
    a ≤ s.foldl (fun a c => a * 10 + (c.toNat - 48)) a := by
  induction s generalizing a with
  | nil => exact le_rfl
  | cons c s ih => exact (by omega : a ≤ a * 10 + (c.toNat - 48)).trans (ih _)

/-- More digits of an octet that does not start with a zero. -/
theorem parseIPv4Fields_digits {s : Bytes} (hs : ∀ c ∈ s, Json.isDigit c = true) (val : ℕ)
    (hval : val ≠ 0) (hmax : s.foldl (fun a c => a * 10 + (c.toNat - 48)) val ≤ 255) (digLen : ℕ)
    (rest fields : Bytes) : parseIPv4Fields (s ++ rest) val digLen fields =
      parseIPv4Fields rest (s.foldl (fun a c => a * 10 + (c.toNat - 48)) val) (digLen + s.length)
        fields := by
  induction s generalizing val digLen with
  | nil => rfl
  | cons c s ih =>
    have hc := hs c mem_cons_self
    have hle := le_foldl_digits s (val * 10 + (c.toNat - 48))
    rw [foldl_cons] at hmax
    have hnext := ih (fun d hd => hs d (mem_cons_of_mem c hd))
      (val * 10 + (c.toNat - 48)) (by omega) hmax (digLen + 1)
    rw [cons_append, parseIPv4Fields, if_pos hc]
    rw [if_neg (by omega), hnext, foldl_cons, length_cons]
    congr 1
    omega

/-- **An octet is read from its digits.** -/
theorem parseIPv4Fields_octet (b : UInt8) (rest fields : Bytes) :
    parseIPv4Fields (itoa b.toNat ++ rest) 0 0 fields =
      parseIPv4Fields rest b.toNat (itoa b.toNat).length fields := by
  have hb : b.toNat ≤ 255 := by
    have := b.toNat_lt
    omega
  have hfold := foldl_itoa_nat b.toNat
  have hdigits : ∀ c ∈ itoa b.toNat, Json.isDigit c = true :=
    fun c hc => Json.isDigit_of_mem_itoa hc
  rcases Json.itoa_cases b.toNat with h | ⟨c, t, h, hne, hc⟩
  · rw [h] at hfold ⊢
    have hzero : b.toNat = 0 := hfold.symm
    rw [hzero]
    rfl
  · rw [h] at hfold hdigits ⊢
    have hlow : 48 < c.toNat := by
      have hrange := mem_itoa (n := b.toNat) (c := c) (by rw [h]; exact mem_cons_self)
      have hne' : c.toNat ≠ 48 := fun heq => hne (UInt8.toNat_inj.1 heq)
      omega
    rw [foldl_cons] at hfold
    have hmax := le_foldl_digits t (0 * 10 + (c.toNat - 48))
    have hnext := parseIPv4Fields_digits (fun d hd => hdigits d (mem_cons_of_mem c hd))
      (0 * 10 + (c.toNat - 48)) (by omega) (by omega) 1 rest fields
    rw [cons_append, parseIPv4Fields, if_pos hc]
    rw [if_neg (by omega), hnext, hfold, length_cons, Nat.add_comm]

theorem parseIPv4Fields_dot (b : UInt8) {rest fields : Bytes} (hrest : rest ≠ [])
    (hfields : fields.length ≠ 3) : parseIPv4Fields (itoa b.toNat ++ 46 :: rest) 0 0 fields =
      parseIPv4Fields rest 0 0 (fields ++ [b]) := by
  have hlen : (itoa b.toNat).length ≠ 0 := fun h => itoa_ne_nil _ (length_eq_zero_iff.1 h)
  rw [parseIPv4Fields_octet, parseIPv4Fields, if_neg (by decide),
    if_neg (by simp [hlen, hrest, hfields])]
  simp

theorem parseIPv4Fields_last (b : UInt8) {fields : Bytes} (hfields : fields.length = 3) :
    parseIPv4Fields (itoa b.toNat) 0 0 fields = some (fields ++ [b]) := by
  have h := parseIPv4Fields_octet b [] fields
  rw [append_nil] at h
  rw [h, parseIPv4Fields, if_neg (by omega)]
  simp

theorem dotted_single (b : UInt8) : dotted [b] = itoa b.toNat := by
  simp [dotted]

theorem dotted_cons (b b' : UInt8) (ip : Bytes) :
    dotted (b :: b' :: ip) = itoa b.toNat ++ 46 :: dotted (b' :: ip) := by
  simp [dotted]

theorem dotted_four (a b c d : UInt8) : dotted [a, b, c, d] = itoa a.toNat ++ 46 ::
    (itoa b.toNat ++ 46 :: (itoa c.toNat ++ 46 :: itoa d.toNat)) := by
  rw [dotted_cons, dotted_cons, dotted_cons, dotted_single]

variable {ip : Bytes} {c : UInt8}

theorem mem_dotted (h : c ∈ dotted ip) : (48 ≤ c.toNat ∧ c.toNat ≤ 57) ∨ c = 46 := by
  induction ip with
  | nil => cases h
  | cons b ip ih =>
    cases ip with
    | nil =>
      rw [dotted_single] at h
      exact Or.inl (mem_itoa h)
    | cons b' ip =>
      rw [dotted_cons, mem_append, mem_cons] at h
      rcases h with h | h | h
      · exact Or.inl (mem_itoa h)
      · exact Or.inr h
      · exact ih h

theorem exists_four (h : ip.length = 4) : ∃ a b c d, ip = [a, b, c, d] := by
  match ip, h with
  | [a, b, c, d], _ => exact ⟨a, b, c, d, rfl⟩

/-- **Dotted decimal is read back.** -/
theorem parseAddr_dotted (h : ip.length = 4) : parseAddr (dotted ip) = some ⟨ip, []⟩ := by
  obtain ⟨a, b, c, d, rfl⟩ := exists_four h
  have hnone : ∀ n, (itoa n).find? (fun c => c == 46 || c == 58 || c == 37) = none := by
    intro n
    refine find?_eq_none.2 fun c hc => ?_
    have hrange := mem_itoa hc
    have hne : ∀ d : UInt8, c.toNat ≠ d.toNat → c ≠ d := fun d hd hcd => hd (congrArg _ hcd)
    simp [hne 46 (by simp; omega), hne 58 (by simp; omega), hne 37 (by simp; omega)]
  have hfind : (dotted [a, b, c, d]).find? (fun c => c == 46 || c == 58 || c == 37) = some 46 := by
    rw [dotted_four, find?_append, hnone]
    rfl
  have hparse : parseIPv4Fields (dotted [a, b, c, d]) 0 0 [] = some [a, b, c, d] := by
    rw [dotted_four, parseIPv4Fields_dot a (by simp) (by simp),
      parseIPv4Fields_dot b (by simp) (by simp),
      parseIPv4Fields_dot c (itoa_ne_nil _) (by simp), parseIPv4Fields_last d (by simp)]
    rfl
  rw [parseAddr, hfind, hparse]
  rfl

/-! ### Groups of an IPv6 address -/

/-- The two bytes of a group. -/
def groupBytes (g : ℕ) : Bytes := [(g / 256).toUInt8, (g % 256).toUInt8]

theorem groups_lt (ip : Bytes) : ∀ g ∈ groups ip, g < 65536 := by
  induction ip using groups.induct with
  | case1 a b rest ih =>
    rw [groups, forall_mem_cons]
    have ha := a.toNat_lt
    have hb := b.toNat_lt
    exact ⟨by omega, ih⟩
  | case2 ip h =>
    rw [groups]
    · exact nofun
    · exact h

theorem flatMap_groups (h : ip.length % 2 = 0) : (groups ip).flatMap groupBytes = ip := by
  induction ip using groups.induct with
  | case1 a b rest ih =>
    have hb := b.toNat_lt
    rw [length_cons, length_cons] at h
    rw [groups, flatMap_cons, ih (by omega), groupBytes,
      toUInt8_eq (b := a) (by omega), toUInt8_eq (b := b) (by omega)]
    rfl
  | case2 ip hshort =>
    match ip, h with
    | [], _ => rfl
    | a :: b :: rest, _ => exact absurd rfl (hshort a b rest)

theorem groups_length : (groups ip).length = ip.length / 2 := by
  induction ip using groups.induct with
  | case1 a b rest ih =>
    rw [groups, length_cons, ih, length_cons, length_cons]
    omega
  | case2 ip h =>
    match ip with
    | [] => rfl
    | [_] => simp [groups]
    | a :: b :: rest => exact absurd rfl (h a b rest)

/-- A hexadecimal digit, as the parser takes them together. -/
def isHex (c : UInt8) : Bool := (Json.hexDigit c).isSome

theorem isHex_hexChar {d : ℕ} (h : d < 16) : isHex (Json.hexChar d) = true := by
  rw [isHex, Json.hexDigit_hexChar d h]
  rfl

/-- The digits of a group: those that are left after the leading zeros, and the last one. -/
theorem hexGroup_digits (g : ℕ) : ∃ ds : List ℕ, hexGroup g = (ds ++ [g % 16]).map Json.hexChar ∧
    ds.length ≤ 3 ∧ (∀ d ∈ ds, d < 16) ∧
    ds.foldl (fun n d => n * 16 + d) 0 = g / 4096 % 16 * 256 + g / 256 % 16 * 16 + g / 16 % 16 := by
  have hlt : ∀ n, n % 16 < 16 := fun n => Nat.mod_lt _ (by decide)
  have hds : hexGroup g = ((([g / 4096 % 16, g / 256 % 16, g / 16 % 16] : List ℕ).dropWhile
    (· == 0)) ++ [g % 16]).map Json.hexChar := rfl
  refine ⟨_, hds, ?_, ?_, ?_⟩
  · exact length_dropWhile_le _ _
  · intro d hd
    have hmem := (dropWhile_sublist _).subset hd
    simp only [mem_cons, not_mem_nil, or_false] at hmem
    rcases hmem with rfl | rfl | rfl <;> exact hlt _
  · generalize g / 4096 % 16 = a
    generalize g / 256 % 16 = b
    generalize g / 16 % 16 = c
    by_cases ha : a = 0
    · by_cases hb : b = 0
      · by_cases hc : c = 0 <;> simp [ha, hb, hc]
      · simp [ha, hb]
    · simp [ha]
      ring

variable {g : ℕ}

theorem hexGroup_isHex (h : c ∈ hexGroup g) : isHex c = true := by
  obtain ⟨ds, hg, -, hds, -⟩ := hexGroup_digits g
  rw [hg] at h
  obtain ⟨d, hd, rfl⟩ := mem_map.1 h
  refine isHex_hexChar ?_
  rcases mem_append.1 hd with hd | hd
  · exact hds d hd
  · rw [mem_singleton.1 hd]
    exact Nat.mod_lt _ (by decide)

theorem hexGroup_length (g : ℕ) : 1 ≤ (hexGroup g).length ∧ (hexGroup g).length ≤ 4 := by
  obtain ⟨ds, hg, hlen, -, -⟩ := hexGroup_digits g
  rw [hg, length_map, length_append, length_singleton]
  omega

/-- **A group is read from its digits.** -/
theorem hexValue_hexGroup (h : g < 65536) : hexValue (hexGroup g) = g := by
  obtain ⟨ds, hg, -, hds, hval⟩ := hexGroup_digits g
  have hfold : ∀ (ds : List ℕ) (a : ℕ), (∀ d ∈ ds, d < 16) →
      (ds.map Json.hexChar).foldl (fun n c => n * 16 + (Json.hexDigit c).getD 0) a =
        ds.foldl (fun n d => n * 16 + d) a := by
    intro ds
    induction ds with
    | nil => exact fun _ _ => rfl
    | cons d ds ih =>
      intro a hall
      rw [map_cons, foldl_cons, foldl_cons, Json.hexDigit_hexChar d (hall d mem_cons_self),
        ih _ fun e he => hall e (mem_cons_of_mem d he)]
      rfl
  rw [hexValue, hg, hfold, foldl_append, hval]
  · simp only [foldl_cons, foldl_nil]
    omega
  · intro d hd
    rcases mem_append.1 hd with hd | hd
    · exact hds d hd
    · rw [mem_singleton.1 hd]
      exact Nat.mod_lt _ (by decide)

theorem joinGroups_single (g : ℕ) : joinGroups [g] = hexGroup g := by
  simp [joinGroups]

theorem joinGroups_cons (g g' : ℕ) (gs : List ℕ) :
    joinGroups (g :: g' :: gs) = hexGroup g ++ 58 :: joinGroups (g' :: gs) := by
  simp [joinGroups]

theorem joinGroups_head (g : ℕ) (gs : List ℕ) :
    ∃ c t, joinGroups (g :: gs) = c :: t ∧ isHex c = true := by
  have hpos := (hexGroup_length g).1
  cases hg : hexGroup g with
  | nil =>
    rw [hg] at hpos
    exact absurd hpos (by decide)
  | cons c t =>
    have hc : isHex c = true := hexGroup_isHex (g := g) (by rw [hg]; exact mem_cons_self)
    cases gs with
    | nil => exact ⟨c, t, by rw [joinGroups_single, hg], hc⟩
    | cons g' gs => exact ⟨c, t ++ 58 :: joinGroups (g' :: gs), by rw [joinGroups_cons, hg]; rfl,
      hc⟩

variable {d : UInt8}

theorem ne_of_isHex (hc : isHex c = true) (hd : isHex d = false) : c ≠ d := by
  rintro rfl
  rw [hc] at hd
  cases hd

/-- The group that stands first in a text is cut off and read. -/
theorem takeWhile_hexGroup (g : ℕ) {r : Bytes} (h : ∀ c ∈ r.head?, isHex c = false) :
    (hexGroup g ++ r).takeWhile (fun c => (Json.hexDigit c).isSome) = hexGroup g := by
  have hrest : r.takeWhile isHex = [] := by
    cases r with
    | nil => rfl
    | cons c r =>
      rw [takeWhile_cons, h c rfl]
      rfl
  show (hexGroup g ++ r).takeWhile isHex = hexGroup g
  rw [takeWhile_append_of_pos fun c hc => hexGroup_isHex hc, hrest, append_nil]

theorem hexGroup_fits (g : ℕ) : ¬ (hexGroup g = [] ∨ 4 < (hexGroup g).length) := by
  have hlen := hexGroup_length g
  rintro (h | h)
  · rw [h] at hlen
    exact absurd hlen.1 (by decide)
  · omega

theorem parseIPv6Groups_last (hg : g < 65536) (n : ℕ) (ip : Bytes) (e : Option ℕ) :
    parseIPv6Groups (n + 1) (hexGroup g) ip e = some ([], ip ++ groupBytes g, e) := by
  have htake := takeWhile_hexGroup g (r := []) nofun
  rw [append_nil] at htake
  rw [parseIPv6Groups]
  simp only [htake, drop_length, hexValue_hexGroup hg]
  rw [if_neg (hexGroup_fits g), if_neg (by simp)]
  rfl

theorem parseIPv6Groups_colon (hg : g < 65536) (hd : d ≠ 58) (s : Bytes)
    (n : ℕ) (ip : Bytes) (e : Option ℕ) :
    parseIPv6Groups (n + 1) (hexGroup g ++ 58 :: d :: s) ip e =
      parseIPv6Groups n (d :: s) (ip ++ groupBytes g) e := by
  have htake := takeWhile_hexGroup g (r := 58 :: d :: s) fun c hc => by cases hc; decide
  rw [parseIPv6Groups]
  simp only [htake, drop_left, hexValue_hexGroup hg]
  rw [if_neg (hexGroup_fits g), if_neg (by simp), if_neg (by simp), if_pos hd]
  rfl

theorem parseIPv6Groups_colons (hg : g < 65536) (s : Bytes) (n : ℕ) (ip : Bytes) :
    parseIPv6Groups (n + 1) (hexGroup g ++ 58 :: 58 :: s) ip none =
      if s = [] then some ([], ip ++ groupBytes g, some (ip ++ groupBytes g).length)
      else parseIPv6Groups n s (ip ++ groupBytes g) (some (ip ++ groupBytes g).length) := by
  have htake := takeWhile_hexGroup g (r := 58 :: 58 :: s) fun c hc => by cases hc; decide
  rw [parseIPv6Groups]
  simp only [htake, drop_left, hexValue_hexGroup hg]
  rw [if_neg (hexGroup_fits g), if_neg (by simp), if_neg (by simp), if_neg (by simp),
    if_neg (by simp)]
  rfl

variable {gs : List ℕ}

/-- **Groups joined by colons are read to the end.** -/
theorem parseIPv6Groups_join (hgs : ∀ g ∈ gs, g < 65536) (hne : gs ≠ []) {n : ℕ}
    (hn : gs.length ≤ n) (ip : Bytes) (e : Option ℕ) :
    parseIPv6Groups n (joinGroups gs) ip e = some ([], ip ++ gs.flatMap groupBytes, e) := by
  induction gs generalizing n ip with
  | nil => exact absurd rfl hne
  | cons g gs ih =>
    rw [length_cons] at hn
    obtain ⟨n, rfl⟩ : ∃ k, n = k + 1 := ⟨n - 1, by omega⟩
    obtain ⟨hg, hgs⟩ := forall_mem_cons.1 hgs
    cases gs with
    | nil =>
      rw [joinGroups_single, parseIPv6Groups_last hg, flatMap_cons, flatMap_nil, append_nil]
    | cons g' gs =>
      obtain ⟨c, t, htext, hc⟩ := joinGroups_head g' gs
      have hcolon : c ≠ 58 := ne_of_isHex hc (by decide)
      have hnext := ih hgs (cons_ne_nil _ _) (n := n) (by omega) (ip ++ groupBytes g)
      rw [joinGroups_cons, htext, parseIPv6Groups_colon hg hcolon, ← htext, hnext]
      simp only [flatMap_cons, append_assoc]

/-- **The groups around an ellipsis**, of which those in front are read before it. -/
theorem parseIPv6Groups_ellipsis {hs : List ℕ} (hgs : ∀ g ∈ gs, g < 65536)
    (hhs : ∀ g ∈ hs, g < 65536) (hne : gs ≠ []) {n : ℕ} (hn : gs.length + hs.length ≤ n)
    (ip : Bytes) :
    parseIPv6Groups n (joinGroups gs ++ 58 :: 58 :: joinGroups hs) ip none =
      some ([], ip ++ gs.flatMap groupBytes ++ hs.flatMap groupBytes,
        some (ip ++ gs.flatMap groupBytes).length) := by
  induction gs generalizing n ip with
  | nil => exact absurd rfl hne
  | cons g gs ih =>
    rw [length_cons] at hn
    obtain ⟨n, rfl⟩ : ∃ k, n = k + 1 := ⟨n - 1, by omega⟩
    obtain ⟨hg, hgs⟩ := forall_mem_cons.1 hgs
    cases gs with
    | nil =>
      rw [joinGroups_single, parseIPv6Groups_colons hg]
      cases hs with
      | nil => simp [joinGroups]
      | cons h' hs =>
        obtain ⟨c, t, htext, -⟩ := joinGroups_head h' hs
        rw [if_neg (by rw [htext]; simp), parseIPv6Groups_join hhs (cons_ne_nil _ _)
          (by rw [length_nil] at hn; omega)]
        simp
    | cons g' gs =>
      obtain ⟨c, t, htext, hc⟩ := joinGroups_head g' gs
      have hcolon : c ≠ 58 := ne_of_isHex hc (by decide)
      have hnext := ih hgs (cons_ne_nil _ _) (n := n) (by omega) (ip ++ groupBytes g)
      rw [htext, cons_append] at hnext
      rw [joinGroups_cons, htext, append_assoc, cons_append, cons_append,
        parseIPv6Groups_colon hg hcolon, hnext]
      simp only [flatMap_cons, append_assoc]

/-! ### The run that is left out -/

/-- A run of at least two zero groups. -/
def ZeroRun (gs : List ℕ) (a b : ℕ) : Prop :=
  a + 2 ≤ b ∧ b ≤ gs.length ∧ (gs.drop a).take (b - a) = replicate (b - a) 0

theorem zeroRun_spec (gs : List ℕ) :
    zeroRun gs ≤ gs.length ∧ gs.take (zeroRun gs) = replicate (zeroRun gs) 0 := by
  have hbits : gs.take (zeroRun gs) = gs.takeWhile (· == 0) :=
    (prefix_iff_eq_take.1 ( takeWhile_prefix _)).symm
  refine ⟨(takeWhile_sublist _).length_le, ?_⟩
  rw [hbits]
  refine eq_replicate_iff.2 ⟨rfl, fun g hg => ?_⟩
  simpa using mem_takeWhile_imp hg

/-- The loop keeps a run of zeros as the best one: at position `i` of `all` it sees what is left. -/
theorem longestRun_spec {all : List ℕ} {i : ℕ} (hi : i ≤ all.length) {best : Option (ℕ × ℕ)}
    (hbest : ∀ r ∈ best, ZeroRun all r.1 r.2) :
    ∀ r ∈ longestRun (all.drop i) i best, ZeroRun all r.1 r.2 := by
  induction hgs : all.drop i generalizing i best with
  | nil => exact hbest
  | cons g gs ih =>
    have hlt : i < all.length := by
      by_contra hge
      rw [drop_of_length_le (not_lt.1 hge)] at hgs
      cases hgs
    obtain ⟨hlen, hzero⟩ := zeroRun_spec (all.drop i)
    rw [length_drop] at hlen
    have htail : all.drop (i + 1) = gs := by
      rw [← drop_drop, hgs]
      rfl
    refine ih hlt ?_ htail
    rw [← hgs]
    have hrun : 2 ≤ zeroRun (all.drop i) → ZeroRun all i (i + zeroRun (all.drop i)) := by
      intro htwo
      refine ⟨by omega, by omega, ?_⟩
      rw [Nat.add_sub_cancel_left]
      exact hzero
    cases best with
    | none =>
      split_ifs with hbetter
      · rintro r hr
        cases hr
        exact hrun (by simpa using hbetter)
      · exact nofun
    | some ab =>
      split_ifs with hbetter
      · rintro r hr
        cases hr
        have htwo := (hbest ab rfl).1
        exact hrun (by
          have := of_decide_eq_true hbetter
          omega)
      · exact hbest

theorem longestRun_zero (gs : List ℕ) : ∀ r ∈ longestRun gs 0 none, ZeroRun gs r.1 r.2 :=
  longestRun_spec (i := 0) (Nat.zero_le _) nofun

variable {a b : ℕ}

theorem ZeroRun.flatMap (h : ZeroRun gs a b) :
    gs.flatMap groupBytes = (gs.take a).flatMap groupBytes ++ replicate (2 * (b - a)) 0 ++
      (gs.drop b).flatMap groupBytes := by
  obtain ⟨htwo, hlen, hzero⟩ := h
  have hsplit : gs = gs.take a ++ (replicate (b - a) 0 ++ gs.drop b) := by
    have hdrop : gs.drop b = (gs.drop a).drop (b - a) := by
      rw [drop_drop]
      congr 1
      omega
    rw [← hzero, hdrop, take_append_drop, take_append_drop]
  have hzeros : ∀ n, (replicate n 0).flatMap groupBytes = replicate (2 * n) 0 := by
    intro n
    induction n with
    | zero => rfl
    | succ n ih =>
      rw [replicate_succ, flatMap_cons, ih]
      rfl
  conv_lhs => rw [hsplit]
  rw [flatMap_append, flatMap_append, hzeros, append_assoc]

theorem flatMap_groupBytes_length (gs : List ℕ) :
    (gs.flatMap groupBytes).length = 2 * gs.length := by
  induction gs with
  | nil => rfl
  | cons g gs ih =>
    rw [flatMap_cons, length_append, ih, length_cons]
    show 2 + _ = _
    omega

/-- What the loop has read around the run is filled up to the address. -/
theorem expandEllipsis_run (hlen : gs.length = 8) (h : ZeroRun gs a b) :
    expandEllipsis ([], (gs.take a).flatMap groupBytes ++ (gs.drop b).flatMap groupBytes,
      some ((gs.take a).flatMap groupBytes).length) = some (gs.flatMap groupBytes) := by
  obtain ⟨htwo, hle, -⟩ := id h
  have hfront := flatMap_groupBytes_length (gs.take a)
  have hback := flatMap_groupBytes_length (gs.drop b)
  rw [length_take] at hfront
  rw [length_drop] at hback
  have hfill : 16 - ((gs.take a).flatMap groupBytes ++ (gs.drop b).flatMap groupBytes).length =
      2 * (b - a) := by
    rw [length_append]
    omega
  rw [expandEllipsis, if_pos (by rw [length_append]; omega), hfill, take_left, drop_left, h.flatMap]

/-! ### IPv6 -/

theorem mem_joinGroups (h : c ∈ joinGroups gs) : isHex c = true ∨ c = 58 := by
  induction gs with
  | nil => cases h
  | cons g gs ih =>
    cases gs with
    | nil =>
      rw [joinGroups_single] at h
      exact Or.inl (hexGroup_isHex h)
    | cons g' gs =>
      rw [joinGroups_cons, mem_append, mem_cons] at h
      rcases h with h | h | h
      · exact Or.inl (hexGroup_isHex h)
      · exact Or.inr h
      · exact ih h

theorem mem_string6 (h : c ∈ string6 ip) : isHex c = true ∨ c = 58 := by
  unfold string6 at h
  dsimp only at h
  split at h
  · rw [mem_append, mem_append] at h
    rcases h with (h | h) | h
    · exact mem_joinGroups h
    · simp only [mem_cons, not_mem_nil, or_false, or_self] at h
      exact Or.inr h
    · exact mem_joinGroups h
  · exact mem_joinGroups h

theorem ne_of_mem_string6 (h : c ∈ string6 ip) (hd : isHex d = false ∧ d ≠ 58) : c ≠ d := by
  rcases mem_string6 h with hc | rfl
  · exact ne_of_isHex hc hd.1
  · exact hd.2.symm

/-- What `parseIPv6` does with the text in front of the zone. -/
def parseIPv6Body (body : Bytes) : Option Bytes :=
  if body = [58, 58] then some (replicate 16 0)
  else (if [58, 58].isPrefixOf body then parseIPv6Groups 8 (body.drop 2) [] (some 0)
    else parseIPv6Groups 8 body [] none).bind expandEllipsis

theorem parseIPv6Body_group {t : Bytes} (hc : isHex c = true) :
    parseIPv6Body (c :: t) = (parseIPv6Groups 8 (c :: t) [] none).bind expandEllipsis := by
  have hcolon : c ≠ 58 := ne_of_isHex hc (by decide)
  rw [parseIPv6Body, if_neg (by simp [hcolon]), if_neg (by simp [hcolon.symm])]

section

variable (hlt : ∀ g ∈ gs, g < 65536)
include hlt

variable (hlen : gs.length = 8)
include hlen

theorem parseIPv6Body_join : parseIPv6Body (joinGroups gs) = some (gs.flatMap groupBytes) := by
  have hne : gs ≠ [] := by
    rintro rfl
    cases hlen
  obtain ⟨g, rest, hgs⟩ := exists_cons_of_ne_nil hne
  obtain ⟨c, t, htext, hc⟩ := joinGroups_head g rest
  rw [← hgs] at htext
  have hread := parseIPv6Groups_join hlt hne (n := 8) hlen.le [] none
  have hbytes := flatMap_groupBytes_length gs
  rw [htext, parseIPv6Body_group hc, ← htext, hread, Option.bind_some, nil_append,
    expandEllipsis, if_neg (by omega)]

theorem parseIPv6Body_front (h : ZeroRun gs 0 b) :
    parseIPv6Body (58 :: 58 :: joinGroups (gs.drop b)) = some (gs.flatMap groupBytes) := by
  have hexpand := expandEllipsis_run hlen h
  cases hback : gs.drop b with
  | nil =>
    have hall := h.flatMap
    have hend : b = 8 := by
      have hzero : (gs.drop b).length = 0 := by rw [hback]; rfl
      have hle := h.2.1
      rw [length_drop] at hzero
      omega
    rw [hback, hend] at hall
    rw [hall]
    rfl
  | cons g rest =>
    have hdrop : ∀ g ∈ gs.drop b, g < 65536 := fun g hg => hlt g (mem_of_mem_drop hg)
    obtain ⟨c, t, htext, -⟩ := joinGroups_head g rest
    have hread := parseIPv6Groups_join hdrop (by rw [hback]; exact cons_ne_nil _ _)
      (n := 8) (by rw [length_drop]; omega) [] (some 0)
    rw [hback] at hread hexpand
    rw [parseIPv6Body, if_neg (by rw [htext]; simp), if_pos (by simp)]
    show (parseIPv6Groups 8 (joinGroups (g :: rest)) [] (some 0)).bind expandEllipsis = _
    rw [hread, Option.bind_some]
    exact hexpand

theorem parseIPv6Body_middle (ha : a ≠ 0) (h : ZeroRun gs a b) :
    parseIPv6Body (joinGroups (gs.take a) ++ 58 :: 58 :: joinGroups (gs.drop b)) =
      some (gs.flatMap groupBytes) := by
  have hexpand := expandEllipsis_run hlen h
  have hcount : (gs.take a).length + (gs.drop b).length ≤ 8 := by
    have htwo := h.1
    rw [length_take, length_drop]
    omega
  have hne : gs.take a ≠ [] := by
    rw [Ne, take_eq_nil_iff]
    rintro (hzero | rfl)
    · exact ha hzero
    · cases hlen
  obtain ⟨g, rest, hfront⟩ := exists_cons_of_ne_nil hne
  obtain ⟨c, t, htext, hc⟩ := joinGroups_head g rest
  have hread := parseIPv6Groups_ellipsis (fun g hg => hlt g (mem_of_mem_take hg))
    (fun g hg => hlt g (mem_of_mem_drop hg)) hne hcount []
  rw [hfront, htext, cons_append] at hread ⊢
  rw [hfront] at hexpand
  rw [parseIPv6Body_group hc, hread, Option.bind_some, nil_append]
  exact hexpand

end

/-- **The groups of an address are read back**, whichever run of zeros is left out. -/
theorem parseIPv6Body_string6 (h : ip.length = 16) : parseIPv6Body (string6 ip) = some ip := by
  have hlen : (groups ip).length = 8 := by rw [groups_length, h]
  have hbytes : (groups ip).flatMap groupBytes = ip := flatMap_groups (by rw [h])
  have hlt := groups_lt ip
  unfold string6
  dsimp only
  cases hrun : longestRun (groups ip) 0 none with
  | none => exact (parseIPv6Body_join hlt hlen).trans (congrArg some hbytes)
  | some ab =>
    obtain ⟨a, b⟩ := ab
    have hzero : ZeroRun (groups ip) a b := longestRun_zero _ (a, b) hrun
    refine Eq.trans ?_ (congrArg some hbytes)
    dsimp only
    rw [append_assoc, cons_append, cons_append, nil_append]
    by_cases ha : a = 0
    · subst ha
      exact parseIPv6Body_front hlt hlen hzero
    · exact parseIPv6Body_middle hlt hlen ha hzero

/-- A zone behind an address. -/
def zoneText (zone : Bytes) : Bytes := if zone = [] then [] else 37 :: zone

/-- **An IPv6 address is read back from its text, with its zone.** -/
theorem parseIPv6_string6 (h : ip.length = 16) (zone : Bytes) :
    parseIPv6 (string6 ip ++ zoneText zone) = some ⟨ip, zone⟩ := by
  have hpercent : ∀ c ∈ string6 ip, c ≠ 37 := fun c hc => ne_of_mem_string6 hc (by decide)
  have hbody : (string6 ip ++ zoneText zone).takeWhile (· ≠ 37) = string6 ip := by
    rw [takeWhile_append_of_pos fun c hc => by simpa using hpercent c hc]
    unfold zoneText
    split_ifs <;> simp
  have hzone : (zoneText zone).drop 1 = zone := by
    unfold zoneText
    split_ifs with hz
    · rw [hz]
      rfl
    · rfl
  have hmem : ¬ (37 ∈ string6 ip ++ zoneText zone ∧ zone = []) := by
    rintro ⟨hmem, rfl⟩
    rw [zoneText, if_pos rfl, append_nil] at hmem
    exact hpercent 37 hmem rfl
  have hread := parseIPv6Body_string6 h
  unfold parseIPv6Body at hread
  unfold parseIPv6
  simp only [hbody, drop_left, hzone]
  rw [if_neg hmem]
  split_ifs at hread ⊢
  · rw [Option.some.inj hread]
  · rw [hread]
    rfl
  · rw [hread]
    rfl

theorem colon_mem_string6 (h : ip.length = 16) : (58 : UInt8) ∈ string6 ip := by
  have hlen : (groups ip).length = 8 := by rw [groups_length, h]
  unfold string6
  dsimp only
  split
  · simp
  · match groups ip, hlen with
    | g :: g' :: gs, _ =>
      rw [joinGroups_cons]
      simp

theorem parseAddr_string6 (h : ip.length = 16) (zone : Bytes) :
    parseAddr (string6 ip ++ zoneText zone) = some ⟨ip, zone⟩ := by
  have hfind : (string6 ip ++ zoneText zone).find? (fun c => c == 46 || c == 58 || c == 37) =
      some 58 := by
    cases hfirst : (string6 ip).find? (fun c => c == 46 || c == 58 || c == 37) with
    | none => exact absurd (find?_eq_none.1 hfirst 58 (colon_mem_string6 h)) (by decide)
    | some c =>
      have hmem := mem_of_find?_eq_some hfirst
      have hdot : c ≠ 46 := ne_of_mem_string6 hmem (by decide)
      have hpercent : c ≠ 37 := ne_of_mem_string6 hmem (by decide)
      have hc := find?_some hfirst
      rw [find?_append, hfirst]
      simp only [hdot, hpercent, beq_iff_eq, Bool.or_eq_true, or_false, false_or] at hc
      rw [hc]
      rfl
  rw [parseAddr, hfind]
  exact parseIPv6_string6 h zone

/-! ### Endpoints -/

theorem to4_length {v4 : Bytes} (h : to4 ip = some v4) : v4.length = 4 := by
  unfold to4 at h
  split_ifs at h with h4 h16
  · cases h
    exact h4
  · cases h
    rw [length_drop, h16.1]

theorem cutLastColon_append (s : Bytes) {t : Bytes} (h : 58 ∉ t) :
    cutLastColon (s ++ 58 :: t) = some (s, t) := by
  have hafter : ((s ++ 58 :: t).reverse.takeWhile (· ≠ 58)).reverse = t := by
    rw [reverse_append, reverse_cons, append_assoc, takeWhile_append_of_pos fun c hc => by
        simpa using fun hcolon : c = 58 => h (hcolon ▸ mem_reverse.1 hc)]
    simp
  have hlen : (s ++ 58 :: t).length - t.length - 1 = s.length := by
    rw [length_append, length_cons]
    omega
  rw [cutLastColon, if_pos (by simp), hafter]
  dsimp only
  rw [hlen, take_left]

end Go

/-- An address as the network stack reports one: four or sixteen bytes, and a zone only on an IPv6
address proper. -/
structure UDPAddr.Literal (a : UDPAddr) : Prop where
  size : a.ip.length = 4 ∨ a.ip.length = 16
  zone : a.zone ≠ [] → Go.to4 a.ip = none

/-- The address behind an IPv4-mapped form. -/
def UDPAddr.addr (a : UDPAddr) : Addr := ⟨(Go.to4 a.ip).getD a.ip, a.zone⟩

/-- An endpoint that a datagram can come from: a unicast address and a port. -/
structure UDPAddr.Unicast (a : UDPAddr) : Prop extends a.Literal where
  zone_text : Go.Utf8 a.zone
  port : a.port ≠ 0
  specified : a.addr.isUnspecified = false
  unicast : a.addr.isMulticast = false

namespace Go

/-- A host, in brackets or not, in front of a port. -/
theorem parseAddrPort_host {host : Bytes} {addr : Addr} (port : UInt16) (hne : host ≠ [])
    (hbrackets : host.head? = some 91 → 2 ≤ host.length ∧ host.getLast? = some 93)
    (haddr : parseAddr (if host.head? = some 91 then (host.drop 1).dropLast else host) = some addr)
    (hkind : host.head? = some 91 ↔ addr.ip.length = 16) :
    parseAddrPort (host ++ 58 :: itoa port.toNat) = some (addr, port) := by
  have hcolon : (58 : UInt8) ∉ itoa port.toNat := fun hmem =>
    absurd (mem_itoa hmem).2 (by decide)
  have hform : ¬ (host = [] ∨ itoa port.toNat = [] ∨
      ((host.head? == some 91) = true ∧ (host.length < 2 ∨ host.getLast? ≠ some 93))) := by
    rintro (h | h | ⟨h, hbad⟩)
    · exact hne h
    · exact itoa_ne_nil _ h
    · obtain ⟨hlen, hlast⟩ := hbrackets (beq_iff_eq.1 h)
      rcases hbad with hbad | hbad
      · omega
      · exact hbad hlast
  have hsame : (host.head? == some 91) = (addr.ip.length == 16) := by
    rw [Bool.eq_iff_iff, beq_iff_eq, beq_iff_eq, hkind]
  simp only [parseAddrPort, cutLastColon_append _ hcolon, Option.bind_eq_bind, Option.bind_some]
  rw [if_neg hform]
  simp only [parseUint16_itoa, beq_iff_eq, haddr, Option.bind_some]
  rw [if_pos hsame]

theorem parseAddrPort_dotted {ip : Bytes} (h : ip.length = 4) (port : UInt16) :
    parseAddrPort (dotted ip ++ 58 :: itoa port.toNat) = some (⟨ip, []⟩, port) := by
  have hdigit : ∃ c t, dotted ip = c :: t ∧ Json.isDigit c = true := by
    obtain ⟨a, b, c, d, rfl⟩ := exists_four h
    rw [dotted_four]
    obtain ⟨e, t, ha⟩ := exists_cons_of_ne_nil (itoa_ne_nil a.toNat)
    rw [ha]
    exact ⟨e, _, rfl, Json.isDigit_of_mem_itoa (n := a.toNat) (by rw [ha]; exact mem_cons_self)⟩
  obtain ⟨c, t, htext, hc⟩ := hdigit
  have hhead : (dotted ip).head? ≠ some 91 := by
    rw [htext]
    rintro heq
    cases heq
    exact absurd hc (by decide)
  refine parseAddrPort_host port (by rw [htext]; exact cons_ne_nil _ _)
    (fun hbracket => absurd hbracket hhead) ?_ ?_
  · rw [if_neg hhead, parseAddr_dotted h]
  · exact iff_of_false hhead (by rw [h]; decide)

theorem parseAddrPort_string6 {ip : Bytes} (h : ip.length = 16) (zone : Bytes) (port : UInt16) :
    parseAddrPort (91 :: ((string6 ip ++ zoneText zone) ++ [93]) ++ 58 :: itoa port.toNat) =
      some (⟨ip, zone⟩, port) := by
  refine parseAddrPort_host port (cons_ne_nil _ _) (fun _ => ⟨?_, ?_⟩) ?_ ?_
  · rw [length_cons, length_append, length_singleton]
    omega
  · rw [← cons_append, getLast?_concat]
  · rw [head?_cons, if_pos rfl, drop_one, tail_cons, dropLast_concat, parseAddr_string6 h]
  · exact iff_of_true rfl h

variable {a : UDPAddr}

theorem ipString_literal (h : a.Literal) : (if a.ip = [] then [] else ipString a.ip) =
      match to4 a.ip with
      | some v4 => dotted v4
      | none => string6 a.ip := by
  have hsize := h.size
  have hne : a.ip ≠ [] := by
    intro hnil
    rw [hnil] at hsize
    exact absurd hsize (by decide)
  rewrite [if_neg hne, ipString, if_neg (by omega)]
  cases to4 a.ip <;> rfl

/-- **An endpoint is read back from its text**, an IPv4-mapped address as the IPv4 address. -/
theorem parseAddrPort_string (h : a.Literal) : parseAddrPort a.string = some (a.addr, a.port) := by
  unfold UDPAddr.string UDPAddr.addr
  rw [ipString_literal h]
  dsimp only
  cases hv4 : to4 a.ip with
  | some v4 =>
    have hzone : a.zone = [] := by
      by_contra hz
      rw [h.zone hz] at hv4
      cases hv4
    have hlen : v4.length = 4 := to4_length hv4
    have hcolon : (58 : UInt8) ∉ dotted v4 := fun hmem => by
      rcases mem_dotted hmem with hc | hc
      · exact absurd hc.2 (by decide)
      · exact absurd hc (by decide)
    have hread := parseAddrPort_dotted hlen a.port
    rw [if_pos hzone, joinHostPort, if_neg hcolon, append_assoc, singleton_append, hread, hzone]
    rfl
  | none =>
    have hlen : a.ip.length = 16 := by
      rcases h.size with h4 | h16
      · rw [to4, if_pos h4] at hv4
        cases hv4
      · exact h16
    have hread := parseAddrPort_string6 hlen a.zone a.port
    have hhost : (if a.zone = [] then string6 a.ip else string6 a.ip ++ [37] ++ a.zone) =
        string6 a.ip ++ zoneText a.zone := by
      unfold zoneText
      split_ifs <;> simp
    rw [hhost, joinHostPort, if_pos (mem_append_left _ (colon_mem_string6 hlen))]
    simpa using hread

theorem unmap_addr (a : UDPAddr) : a.addr.unmap = a.addr := by
  unfold UDPAddr.addr Addr.unmap
  refine if_neg ?_
  rintro ⟨hlen, hbits⟩
  dsimp only at hlen hbits
  cases hv4 : to4 a.ip with
  | some v4 =>
    rw [hv4, Option.getD_some, to4_length hv4] at hlen
    cases hlen
  | none =>
    rw [hv4, Option.getD_none] at hlen hbits
    have htake := prefix_iff_eq_take.1 ( isPrefixOf_iff_prefix.1 hbits)
    have hmapped : to4 a.ip = some (a.ip.drop 12) := by
      rw [to4, if_neg (by omega), if_pos ⟨hlen, htake.symm⟩]
    rw [hmapped] at hv4
    cases hv4

/-! ### The text is UTF-8 -/

theorem utf8_dotted (ip : Bytes) : Utf8 (dotted ip) := by
  refine utf8_of_ascii fun c hc => ?_
  rcases mem_dotted hc with h | rfl
  · exact lt_of_le_of_lt h.2 (by decide)
  · show (46 : UInt8).toNat < 0x80
    decide

theorem utf8_string6 (ip : Bytes) : Utf8 (string6 ip) := by
  refine utf8_of_ascii fun c hc => ?_
  show c.toNat < 0x80
  rcases mem_string6 hc with h | rfl
  · unfold isHex Json.hexDigit at h
    dsimp only at h
    split_ifs at h
    · omega
    · omega
    · omega
    · cases h
  · decide

theorem utf8_string (h : a.Literal) (hzone : Utf8 a.zone) : Utf8 a.string := by
  have hbyte : ∀ c : UInt8, c.toNat < 0x80 → Utf8 [c] := by
    intro c hc
    refine utf8_of_ascii fun d hd => ?_
    rw [mem_singleton.1 hd]
    exact hc
  have hport : Utf8 (itoa a.port.toNat) :=
    utf8_of_ascii fun c hc => lt_of_le_of_lt (mem_itoa hc).2 (by decide)
  have hhost : ∀ host : Bytes, Utf8 host → Utf8 (joinHostPort host (itoa a.port.toNat)) := by
    intro host hhost
    unfold joinHostPort
    split_ifs
    · exact (((hbyte 91 (by decide)).append hhost).append
        ((hbyte 93 (by decide)).append (hbyte 58 (by decide)))).append hport
    · exact (hhost.append (hbyte 58 (by decide))).append hport
  have hip : Utf8 (if a.ip = [] then [] else ipString a.ip) := by
    rw [ipString_literal h]
    split
    · exact utf8_dotted _
    · exact utf8_string6 _
  refine hhost _ ?_
  generalize (if a.ip = [] then [] else ipString a.ip) = ip at hip
  split_ifs
  · exact hip
  · exact (hip.append (hbyte 37 (by decide))).append hzone

end Go

end BuddyNet
