import BuddyNet.Handshake.Shape

/-!
# The newest endpoint of a record

A record collects the source addresses of its registrations. Nothing removes a single address, and
`observe` ignores a new one once the record has eight. A buddy whose port changes with every attempt
therefore ends with a record that does not have the address it is reached at.

* `newest_listed_iff`: the roster entries carry the newest endpoints throughout a run exactly when
  every registration finds its address, or room for it, in the record.
-/

namespace BuddyNet.Handshake.Registry

open Machine

variable {r r' : Registry} {m : Message} {src : UDPAddr} {ttl now : ℤ}

/-! ### One record -/

/-- A roster entry made from the record lists the address. -/
def Lists (p : HsPeer) (src : UDPAddr) : Prop :=
  ∀ relay, ∃ c ∈ (p.asProtocolPeer relay).candidates, c.addr = src.string

/-- The record has the address or room for it. -/
def Fits (p : HsPeer) (src : UDPAddr) : Prop :=
  src.string ∈ p.cands ∨ p.cands.keys.length < maxCandsPerPeer

instance (p : HsPeer) (src : UDPAddr) : Decidable (Fits p src) :=
  inferInstanceAs (Decidable (src.string ∈ p.cands ∨ p.cands.keys.length < maxCandsPerPeer))

theorem lists_iff {p : HsPeer} (haddr : ∀ {k c}, p.cands.lookup k = some c → c.addr = k) :
    Lists p src ↔ src.string ∈ p.cands := by
  constructor
  · intro h
    obtain ⟨c, hc, hsrc⟩ := h []
    obtain ⟨k, hk⟩ := mem_sortedCandidates hc
    rw [← hsrc, haddr hk]
    exact AList.lookup_isSome.1 (Option.isSome_iff_exists.2 ⟨c, hk⟩)
  · intro h relay
    obtain ⟨c, hc⟩ := Option.isSome_iff_exists.1 (AList.lookup_isSome.2 h)
    refine ⟨c, ?_, haddr hc⟩
    show c ∈ sortedCandidates p.cands
    rw [sortedCandidates, List.mem_insertionSort]
    exact List.mem_map.2 ⟨⟨_, c⟩, AList.mem_lookup_iff.1 hc, rfl⟩

/-- The stores of a registration leave its address in the record exactly when it fits. -/
theorem mem_fieldWrites (m : Message) (src : UDPAddr) (now : ℤ) (p : HsPeer) :
    src.string ∈ ((fieldWrites m src now).foldl FieldWrite.apply p).cands ↔ Fits p src := by
  obtain ⟨q, hcands, -, -, heq⟩ := fieldWrites_observe m src now p
  rw [heq, Fits, ← hcands]
  simp only [FieldWrite.apply]
  split_ifs with hcap
  · -- at the cap a new address is ignored
    constructor
    · exact Or.inl
    · rintro (hmem | hroom)
      · exact hmem
      · omega
  · refine ⟨fun _ => ?_, fun _ => AList.mem_insert _ |>.2 (Or.inl rfl)⟩
    by_contra hfull
    rw [not_or, not_lt] at hfull
    exact hcap hfull

/-! ### Runs -/

/-- The registry, with the source of the latest accepted registration of each id of a token. -/
structure Sighted where
  reg : Registry := Registry.empty
  last : Bytes × Bytes → Option UDPAddr := fun _ => none

/-- An operation; an accepted registration is noted. -/
def Sighted.step (ttl : ℤ) (s : Sighted) : Op → Sighted
  | .upsert now src evict order m =>
    match s.reg.upsert ttl now src evict order m with
    | (r, none) => { s with reg := r }
    | (r, some _) => ⟨r, Function.update s.last (m.token, m.id) (some src)⟩
  | op => { s with reg := s.reg.apply ttl op }

@[simp] theorem Sighted.step_reg (ttl : ℤ) (s : Sighted) (op : Op) :
    (s.step ttl op).reg = s.reg.apply ttl op := by
  cases op with
  | upsert now src evict order m =>
    simp only [Sighted.step, Registry.apply]
    split <;> simp_all
  | reap now => rfl
  | evict order => rfl

/-- Every entry that can be made lists the source of the latest registration of its id. -/
def Sighted.Newest (s : Sighted) : Prop :=
  ∀ tok id ref src, s.reg.Holds tok id ref → s.last (tok, id) = some src →
    Lists (s.reg.heap ref) src

/-- A registration of an id that has a record finds its address or room for it there. -/
def Sighted.Roomy (s : Sighted) : Op → Prop
  | .upsert _ src _ _ m => ∀ ref, s.reg.Holds m.token m.id ref → Fits (s.reg.heap ref) src
  | _ => True

instance (s : Sighted) : (op : Op) → Decidable (s.Roomy op)
  | .upsert _ src _ _ m => inferInstanceAs <| Decidable <|
      ∀ ref ∈ (s.reg.bucket m.token).lookup m.id, Fits (s.reg.heap ref) src
  | .reap _ => isTrue trivial
  | .evict _ => isTrue trivial

theorem upsert_accepted {ref : ℕ} (ttl now : ℤ) (src : UDPAddr) (evict order : List Bytes)
    (h : r.Holds m.token m.id ref) : ∃ r' res, r.upsert ttl now src evict order m =
    (r', some res) := by
  have hmem : m.token ∈ r.waiting := by
    by_contra hnot
    rw [Holds, bucket, AList.lookup_eq_none.2 hnot] at h
    cases h
  have hself : r.findSelf m = (r, some ref) := by
    unfold findSelf
    rw [h]
  have hbegin : r.beginUpsert evict m = (r.noteKey m, some ref) := by
    unfold beginUpsert openBucket
    rw [if_pos hmem]
    dsimp only
    rw [hself]
  unfold upsert
  rw [hbegin]
  exact ⟨_, _, rfl⟩

variable {s : Sighted}

theorem Sighted.Newest.shrink (h : s.Newest) (hs : Shrinks s.reg r) :
    Sighted.Newest { s with reg := r } := by
  intro tok id ref src hh hlast
  rw [hs.heap]
  exact h tok id ref src (hs.holds hh) hlast

theorem fits_base (h : ∀ ref, r.Holds m.token m.id ref → Fits (r.heap ref) src) :
    Fits (r.baseRecord m) src := by
  unfold baseRecord
  split
  · next ref href => exact h ref href
  · exact Or.inr (by decide : (∅ : AList fun _ : Bytes => Candidate).keys.length < maxCandsPerPeer)

/-- **An accepted registration** keeps the entries up to date exactly when its address fits. -/
theorem newest_registered (hshape : r'.Shaped) (howned : s.reg.Owned)
    (h : s.Newest) {evict order : List Bytes} {own : ℕ} {partner : Option ℕ}
    (hup : s.reg.upsert ttl now src evict order m = (r', some (own, partner))) :
    Sighted.Newest ⟨r', Function.update s.last (m.token, m.id) (some src)⟩ ↔
      ∀ ref, s.reg.Holds m.token m.id ref → Fits (s.reg.heap ref) src := by
  have hu := upsert_spec hup
  have hself : Lists (r'.heap own) src ↔ Fits (s.reg.baseRecord m) src := by
    rw [lists_iff (hshape.records hu.holds_self).addressed, hu.heap_self, mem_fieldWrites]
  constructor
  · intro hnew ref href
    have hlist : Lists (r'.heap own) src :=
      hnew m.token m.id own src hu.holds_self (Function.update_self ..)
    have hbase : s.reg.baseRecord m = s.reg.heap ref := by
      unfold baseRecord
      rw [href]
    rw [← hbase]
    exact hself.1 hlist
  · intro hfits tok id ref src' hh hlast
    by_cases hid : (tok, id) = (m.token, m.id)
    · -- the registration itself
      obtain ⟨rfl, rfl⟩ := Prod.mk.inj hid
      have hown : ref = own := Option.some.inj (hh.symm.trans hu.holds_self)
      have hsrc : src = src' := by
        simpa only [Function.update_self, Option.some.injEq] using hlast
      rw [hown, ← hsrc]
      exact hself.2 (fits_base hfits)
    · -- another id: neither its record nor what was noted of it has changed
      have hlast' : s.last (tok, id) = some src' := by
        rw [← hlast]
        exact (Function.update_of_ne hid ..).symm
      have hne : ref ≠ own := by
        rintro rfl
        obtain ⟨rfl, rfl⟩ := (howned.upsert hu).refs_inj hh hu.holds_self
        exact hid rfl
      rw [hu.heap_ne hne]
      rcases hu.holds hh with ⟨rfl, rfl, -⟩ | hold
      · exact absurd rfl hid
      · exact h tok id ref src' ((trimmed_shrinks s.reg evict _).holds hold) hlast'

theorem newest_step (hshape : s.reg.Shaped) (howned : s.reg.Owned) (h : s.Newest)
    (op : Op) : (s.step ttl op).Newest ↔ s.Roomy op := by
  cases op with
  | upsert now src evict order m =>
    generalize hup : s.reg.upsert ttl now src evict order m = res
    have hshape' := hshape.upsert ttl now src evict order m
    simp only [Sighted.step, Sighted.Roomy]
    rw [hup] at hshape' ⊢
    obtain ⟨r', _ | ⟨own, partner⟩⟩ := res
    · refine ⟨fun _ ref href => ?_, fun _ => h.shrink (upsert_refused hup).shrinks⟩
      obtain ⟨r₁, res, hacc⟩ := upsert_accepted ttl now src evict order href
      cases hacc.symm.trans hup
    · exact newest_registered hshape' howned h hup
  | reap now => exact iff_of_true (h.shrink (reap_shrinks s.reg ttl now)) trivial
  | evict order =>
    refine iff_of_true ?_ trivial
    show Sighted.Newest { s with reg := (s.reg.evictStalest order).getD s.reg }
    rcases s.reg.evict_cases order with heq | ⟨v, heq⟩ <;> rw [heq]
    · exact h
    · exact h.shrink (dropToken_shrinks s.reg v)

theorem Owned.apply (ttl : ℤ) (h : r.Owned) (op : Op) : (r.apply ttl op).Owned := by
  cases op with
  | upsert now src evict order m =>
    show (r.upsert ttl now src evict order m).1.Owned
    generalize hup : r.upsert ttl now src evict order m = res
    obtain ⟨r', _ | ⟨own, partner⟩⟩ := res
    · exact h.shrink (upsert_refused hup).shrinks
    · exact h.upsert (upsert_spec hup)
  | reap now => exact h.shrink (reap_shrinks r ttl now)
  | evict order =>
    show ((r.evictStalest order).getD r).Owned
    rcases r.evict_cases order with heq | ⟨v, heq⟩ <;> rw [heq]
    · exact h
    · exact h.shrink (dropToken_shrinks r v)

/-- What holds in every state: the shape, the ownership of records, and that the latest registration
of every id with a record was noted. -/
structure Sighted.Sound (s : Sighted) : Prop where
  shaped : s.reg.Shaped
  owned : s.reg.Owned
  noted : ∀ {tok id ref}, s.reg.Holds tok id ref → ∃ src, s.last (tok, id) = some src

theorem Sighted.sound_empty : Sighted.Sound {} :=
  ⟨shaped_empty, owned_empty, nofun⟩

theorem Sighted.Sound.step (ttl : ℤ) (h : s.Sound) (op : Op) : (s.step ttl op).Sound := by
  have hshrink : ∀ r, Shrinks s.reg r → ∀ {tok id ref}, r.Holds tok id ref →
      ∃ src, s.last (tok, id) = some src := fun r hs _ _ _ hh => h.noted (hs.holds hh)
  refine ⟨?_, ?_, ?_⟩
  · rw [Sighted.step_reg]
    exact h.shaped.apply ttl op
  · rw [Sighted.step_reg]
    exact h.owned.apply ttl op
  cases op with
  | upsert now src evict order m =>
    simp only [Sighted.step]
    generalize hup : s.reg.upsert ttl now src evict order m = res
    obtain ⟨r', _ | ⟨own, partner⟩⟩ := res
    · exact hshrink r' (upsert_refused hup).shrinks
    · intro tok id ref hh
      by_cases hid : (tok, id) = (m.token, m.id)
      · rw [hid]
        exact ⟨src, Function.update_self ..⟩
      · rcases (upsert_spec hup).holds hh with ⟨rfl, rfl, -⟩ | hold
        · exact absurd rfl hid
        · obtain ⟨src', hsrc'⟩ := hshrink _ (trimmed_shrinks s.reg evict m.token) hold
          exact ⟨src', (Function.update_of_ne hid ..).trans hsrc'⟩
  | reap now => exact hshrink _ (reap_shrinks s.reg ttl now)
  | evict order =>
    refine hshrink ((s.reg.evictStalest order).getD s.reg) ?_
    rcases s.reg.evict_cases order with heq | ⟨v, heq⟩ <;> rw [heq]
    · exact Shrinks.refl _
    · exact dropToken_shrinks s.reg v

theorem Sighted.newest_empty : Sighted.Newest {} := nofun

theorem Sighted.run_reg (ttl : ℤ) (ops : List Op) :
    (run (Sighted.step ttl) {} ops).reg = runOps ttl ops :=
  run_proj (π := Sighted.reg) (Sighted.step_reg ttl) {} ops

/-- **The entries carry the newest endpoints throughout a run** exactly when every registration
finds its address, or room for it, in the record of its id. Then the partner a registration is
answered with is rendered with the source of that partner's latest registration. -/
theorem newest_listed_iff (ttl : ℤ) (ops : List Op) :
    (Along (Sighted.step ttl) Sighted.Roomy {} ops ↔
      Throughout (Sighted.step ttl) Sighted.Newest {} ops) ∧
    ∀ now src evict order m own ref,
      Along (Sighted.step ttl) Sighted.Roomy {}
        (ops ++ [.upsert now src evict order m]) →
      ((runOps ttl ops).upsert ttl now src evict order m).2 = some (own, some ref) →
      ∃ id newest, id ≠ m.id ∧
        (run (Sighted.step ttl) {} ops).last (m.token, id) = some newest ∧
        Lists (((runOps ttl ops).upsert ttl now src evict order m).1.heap ref) newest := by
  have hiff : ∀ ops, Along (Sighted.step ttl) Sighted.Roomy {} ops ↔
      Throughout (Sighted.step ttl) Sighted.Newest {} ops :=
    along_iff_throughout (I := Sighted.Sound) (fun s op h => h.step ttl op)
      (fun s op h hnew => newest_step h.shaped h.owned hnew op) Sighted.sound_empty
      Sighted.newest_empty
  refine ⟨hiff ops, fun now src evict order m own ref hroom hpartner => ?_⟩
  have hup : (runOps ttl ops).upsert ttl now src evict order m =
      (((runOps ttl ops).upsert ttl now src evict order m).1, some (own, some ref)) :=
    Prod.ext rfl hpartner
  obtain ⟨id, hid, hholds, -⟩ := upsert_partner hup
  have hsound :
      (run (Sighted.step ttl) {} (ops ++ [.upsert now src evict order m])).Sound :=
    invariant_run (fun s op h => h.step ttl op) Sighted.sound_empty _
  have hnew : (run (Sighted.step ttl) {} (ops ++ [.upsert now src evict order m])).Newest :=
    (hiff _).1 hroom _ (List.prefix_refl _)
  rw [run_concat] at hsound hnew
  have hreg :
      ((run (Sighted.step ttl) {} ops).step ttl (.upsert now src evict order m)).reg =
      ((runOps ttl ops).upsert ttl now src evict order m).1 := by
    rw [Sighted.step_reg, Sighted.run_reg]
    rfl
  have hlast : ((run (Sighted.step ttl) {} ops).step ttl
      (.upsert now src evict order m)).last (m.token, id) =
      (run (Sighted.step ttl) {} ops).last (m.token, id) := by
    simp only [Sighted.step, Sighted.run_reg]
    rw [hup]
    exact Function.update_of_ne (fun h => hid (Prod.mk.inj h).2) ..
  rw [← hreg] at hholds ⊢
  obtain ⟨newest, hnewest⟩ := hsound.noted hholds
  exact ⟨id, newest, hid, hlast.symm.trans hnewest, hnew _ id ref newest hholds hnewest⟩

/-! ### A buddy with a new port for each attempt -/

namespace NewPorts

/-- A registration of `idA` in second `n`, from a port of its own. -/
def attempt (n : ℕ) : Op :=
  .upsert (n * 1000000000) ⟨[192, 0, 2, 7], UInt16.ofNat (40000 + n), []⟩ [] []
    { token := lit "token", id := lit "idA", pubkey := Sample.key 2 }

/-- The first `n` attempts. -/
def attempts (n : ℕ) : List Op := (List.range n).map attempt

/-- The other buddy of the token asks for the roster. -/
def ask (n : ℕ) : Op :=
  .upsert (n * 1000000000) (Sample.home 3) [] []
    { token := lit "token", id := lit "idB", pubkey := Sample.key 3 }

end NewPorts

open NewPorts in
/-- After nine attempts the entry has the first eight ports and not the newest one. -/
theorem newest_listed_fails :
    (run (Sighted.step 10000000000) {} (attempts 9)).last (lit "token", lit "idA") =
        some ⟨[192, 0, 2, 7], 40008, []⟩ ∧
      (runOps 10000000000 (attempts 9)).Holds (lit "token") (lit "idA") 0 ∧
      ((((runOps 10000000000 (attempts 9)).heap 0).asProtocolPeer []).candidates.map (·.addr)) =
        [lit "192.0.2.7:40000", lit "192.0.2.7:40001", lit "192.0.2.7:40002",
          lit "192.0.2.7:40003", lit "192.0.2.7:40004", lit "192.0.2.7:40005",
          lit "192.0.2.7:40006", lit "192.0.2.7:40007"] ∧
      ¬ (run (Sighted.step 10000000000) {} (attempts 9)).Newest := by
  have hlast : (run (Sighted.step 10000000000) {} (attempts 9)).last
      (lit "token", lit "idA") = some ⟨[192, 0, 2, 7], 40008, []⟩ := by decide +kernel
  have hholds : (runOps 10000000000 (attempts 9)).Holds (lit "token") (lit "idA") 0 := by
    show ((runOps 10000000000 (attempts 9)).bucket (lit "token")).lookup (lit "idA") = some 0
    decide +kernel
  refine ⟨hlast, hholds, by decide +kernel, fun hnew => ?_⟩
  rw [← Sighted.run_reg] at hholds
  obtain ⟨c, hc, hsrc⟩ := hnew _ _ _ _ hholds hlast []
  rw [Sighted.run_reg] at hc
  have hnot : lit "192.0.2.7:40008" ∉
      (((runOps 10000000000 (attempts 9)).heap 0).asProtocolPeer []).candidates.map (·.addr) := by
    decide +kernel
  have hstring : UDPAddr.string ⟨[192, 0, 2, 7], 40008, []⟩ = lit "192.0.2.7:40008" := by
    decide +kernel
  exact hnot (List.mem_map.2 ⟨c, hc, hsrc.trans hstring⟩)

open NewPorts in
/-- After eight attempts the other buddy is still told of the newest port. -/
theorem newest_listed_eight :
    Along (Sighted.step 10000000000) Sighted.Roomy {} (attempts 8 ++ [ask 8]) ∧
      ∃ id newest, id ≠ lit "idB" ∧
        (run (Sighted.step 10000000000) {} (attempts 8)).last (lit "token", id) =
          some newest ∧
        Lists ((Registry.apply 10000000000 (runOps 10000000000 (attempts 8)) (ask 8)).heap 0)
          newest := by
  have hroom : Along (Sighted.step 10000000000) Sighted.Roomy {}
      (attempts 8 ++ [ask 8]) := by decide +kernel
  exact ⟨hroom, (newest_listed_iff 10000000000 (attempts 8)).2 _ _ _ _ _ 1 0 hroom
    (by decide +kernel)⟩

end BuddyNet.Handshake.Registry
