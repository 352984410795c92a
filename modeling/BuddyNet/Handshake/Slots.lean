import BuddyNet.Handshake.Shape

/-!
# When a token has no room

A token has two slots. `upsert` compares the size of the bucket with the limit before its loop
removes the expired ids, and the reaper comes by only once per lifetime, so an id that nobody has
used for longer than the lifetime may still hold a slot.

* `upsert_none_iff`: which registrations of a new id are refused;
* `slot_refused_iff`: a refusal is justified by two ids seen within the lifetime exactly when no
  expired id helps to fill the token.
-/

namespace BuddyNet.Handshake.Registry

open AList List

variable {r r' : Registry} {tok id : Bytes} {ref : ℕ} {m : Message} {ttl now : ℤ}

/-- The id has a record under the token, seen within the lifetime. -/
def SeenWithin (r : Registry) (ttl now : ℤ) (tok id : Bytes) : Prop :=
  ∃ ref, r.Holds tok id ref ∧ now - (r.heap ref).seen ≤ ttl

/-- Two other ids of the token were seen within the lifetime. -/
def Taken (r : Registry) (ttl now : ℤ) (tok id : Bytes) : Prop :=
  ∃ a b, a ≠ b ∧ a ≠ id ∧ b ≠ id ∧ r.SeenWithin ttl now tok a ∧ r.SeenWithin ttl now tok b

/-- Both slots of the token are in use, and one of the ids in them has expired. -/
def Clogged (r : Registry) (ttl now : ℤ) (tok : Bytes) : Prop :=
  maxIDsPerToken ≤ (r.bucket tok).keys.length ∧
    ∃ id ref, r.Holds tok id ref ∧ ttl < now - (r.heap ref).seen

theorem mem_bucket_iff : id ∈ r.bucket tok ↔ ∃ ref, r.Holds tok id ref :=
  lookup_isSome.symm.trans Option.isSome_iff_exists

theorem findSelf_new (hnew : m.id ∉ r.bucket m.token) :
    (r.findSelf m).2 = none ↔ maxIDsPerToken ≤ (r.bucket m.token).keys.length := by
  unfold findSelf
  rw [lookup_eq_none.2 hnew]
  split_ifs with hfull
  · exact iff_of_true rfl hfull
  · exact iff_of_false (nofun) hfull

theorem upsert_none (r : Registry) (ttl now : ℤ) (src : UDPAddr) (evict order : List Bytes)
    (m : Message) :
    (r.upsert ttl now src evict order m).2 = none ↔ (r.beginUpsert evict m).2 = none := by
  unfold upsert
  rcases r.beginUpsert evict m with ⟨r₁, _ | self⟩
  · exact iff_of_true rfl rfl
  · exact iff_of_false (nofun) nofun

/-- **A new id is refused exactly when the bucket is full.** -/
theorem upsert_none_iff (src : UDPAddr) (evict order : List Bytes)
    (hnew : m.id ∉ r.bucket m.token) :
    (r.upsert ttl now src evict order m).2 = none ↔
      maxIDsPerToken ≤ (r.bucket m.token).keys.length := by
  obtain ⟨r₁, hopen⟩ := exists_openBucket r evict m.token
  have hbegin : (r.beginUpsert evict m).2 = (r₁.findSelf m).2 := by
    unfold beginUpsert
    rw [hopen]
    dsimp only
    rcases r₁.findSelf m with ⟨r₂, _ | self⟩ <;> rfl
  -- the bucket is the old one, since a displaced token is another one
  have hbucket : r₁.bucket m.token = r.bucket m.token := by
    rcases openBucket_cases hopen with ⟨-, rfl⟩ | ⟨hmem, rfl⟩
    · rfl
    · rw [bucket_insert_self rfl, bucket, lookup_eq_none.2 hmem]
      rfl
  rw [upsert_none, hbegin, findSelf_new (by rwa [hbucket]), hbucket]

theorem exists_two_ids (hle : (r.bucket tok).keys.length ≤ 2)
    (hfull : maxIDsPerToken ≤ (r.bucket tok).keys.length) :
    ∃ a b, a ≠ b ∧ a ∈ r.bucket tok ∧ b ∈ r.bucket tok := by
  have htwo : (r.bucket tok).keys.length = 2 := le_antisymm hle hfull
  obtain ⟨a, b, hkeys⟩ := length_eq_two.1 htwo
  have hnodup := (r.bucket tok).keys_nodup
  rw [hkeys] at hnodup
  refine ⟨a, b, ?_, ?_, ?_⟩
  · rintro rfl
    simp at hnodup
  · exact mem_keys.2 (hkeys ▸ mem_cons_self)
  · exact mem_keys.2 (hkeys ▸ mem_cons_of_mem _ (mem_singleton_self b))

theorem three_ids {a b c : Bytes} (hle : (r.bucket tok).keys.length ≤ 2) (hab : a ≠ b)
    (hac : a ≠ c) (hbc : b ≠ c) (ha : a ∈ r.bucket tok) (hb : b ∈ r.bucket tok) :
    c ∉ r.bucket tok := by
  intro hc
  have hsub : [a, b, c] ⊆ (r.bucket tok).keys := by
    simp only [cons_subset, nil_subset, and_true]
    exact ⟨mem_keys.1 ha, mem_keys.1 hb, mem_keys.1 hc⟩
  have hthree : ([a, b, c] : List Bytes).Nodup := by simp [hab, hac, hbc]
  have hlen := (subperm_of_subset hthree hsub).length_le
  have : ([a, b, c] : List Bytes).length = 3 := rfl
  omega

theorem SeenWithin.mem (h : r.SeenWithin ttl now tok id) : id ∈ r.bucket tok := by
  obtain ⟨ref, hholds, -⟩ := h
  exact mem_bucket_iff.2 ⟨ref, hholds⟩

theorem SeenWithin.ne {id' : Bytes} (h : r.SeenWithin ttl now tok id) (hholds : r.Holds tok id' ref)
    (hold : ttl < now - (r.heap ref).seen) : id ≠ id' := by
  rintro rfl
  obtain ⟨ref', hholds', hseen⟩ := h
  obtain rfl := hholds.unique hholds'
  omega

/-- In a registry of the right shape: a new id is refused for two others seen within the lifetime
exactly when no expired id helps to fill the token. -/
theorem refused_justified_iff (hshape : r.Shaped) (src : UDPAddr) (evict order : List Bytes)
    (hnew : m.id ∉ r.bucket m.token) :
    ((r.upsert ttl now src evict order m).2 = none → r.Taken ttl now m.token m.id) ↔
      ¬ r.Clogged ttl now m.token := by
  have hle := hshape.ids_le m.token
  rw [upsert_none_iff src evict order hnew]
  constructor
  · rintro h ⟨hfull, c, ref, hc, hold⟩
    obtain ⟨a, b, hab, -, -, ha, hb⟩ := h hfull
    exact three_ids hle hab (ha.ne hc hold) (hb.ne hc hold) ha.mem hb.mem
      (mem_bucket_iff.2 ⟨ref, hc⟩)
  · intro hclog hfull
    -- nobody in the bucket has expired
    have hseen : ∀ id, id ∈ r.bucket m.token → r.SeenWithin ttl now m.token id := by
      intro id hid
      obtain ⟨ref, hholds⟩ := mem_bucket_iff.1 hid
      exact ⟨ref, hholds, not_lt.1 fun hold => hclog ⟨hfull, id, ref, hholds, hold⟩⟩
    obtain ⟨a, b, hab, ha, hb⟩ := exists_two_ids hle hfull
    refine ⟨a, b, hab, ?_, ?_, hseen a ha, hseen b hb⟩
    · rintro rfl
      exact hnew ha
    · rintro rfl
      exact hnew hb

/-- **A token slot is refused only when it is taken**, after any sequence of registrations, passes
of the reaper and evictions, and at any time, exactly when the slots are not clogged by an expired
id at that moment. -/
theorem slot_refused_iff (ttl : ℤ) (ops : List Op) (now : ℤ) (src : UDPAddr)
    (evict order : List Bytes) (m : Message)
    (hnew : m.id ∉ (runOps ttl ops).bucket m.token) :
    (((runOps ttl ops).upsert ttl now src evict order m).2 = none →
      (runOps ttl ops).Taken ttl now m.token m.id) ↔
    ¬ (runOps ttl ops).Clogged ttl now m.token :=
  refused_justified_iff (shaped_run ttl ops) src evict order hnew

/-! ### A buddy that comes back under a new id -/

namespace Lockout

/-- The lifetime: ten seconds. -/
def lifetime : ℤ := 10000000000

/-- A registration under the token, `ms` milliseconds after the start. -/
def join (ms : ℤ) (n : UInt8) (id : Bytes) : Op :=
  .upsert (ms * 1000000) (Sample.home n) [] []
    { token := lit "token", id := id, pubkey := Sample.key n }

/-- Two buddies register half a second after the start and are not heard of again; the reaper
ticks at ten seconds, when they are not old enough. -/
def silent : List Op :=
  [join 500 2 (lit "idA"), join 500 3 (lit "idB"), .reap 10000000000]

end Lockout

open Lockout in
/-- At twelve seconds both ids have expired, and a third one is refused. -/
theorem slot_refused_fails :
    ((runOps lifetime silent).upsert lifetime 12000000000 (Sample.home 2) [] []
        { token := lit "token", id := lit "idC", pubkey := Sample.key 2 }).2 = none ∧
      (∀ id, ¬ (runOps lifetime silent).SeenWithin lifetime 12000000000 (lit "token") id) ∧
      ¬ (runOps lifetime silent).Taken lifetime 12000000000 (lit "token") (lit "idC") := by
  have hnone : ∀ id, ¬ (runOps lifetime silent).SeenWithin lifetime 12000000000
      (lit "token") id := by
    rintro id ⟨ref, hholds, hseen⟩
    have hall : ∀ e ∈ ((runOps lifetime silent).bucket (lit "token")).entries,
        lifetime < 12000000000 - ((runOps lifetime silent).heap e.2).seen := by decide +kernel
    have hexp := hall ⟨id, ref⟩ (mem_lookup_iff.1 hholds)
    exact absurd hseen (not_le.2 hexp)
  refine ⟨by decide +kernel, hnone, ?_⟩
  rintro ⟨a, b, -, -, -, ha, -⟩
  exact hnone a ha

open Lockout in
/-- At ten seconds the two ids are still within the lifetime, and the refusal is justified. -/
theorem slot_refused_in_time :
    ((runOps lifetime silent).upsert lifetime 10000000000 (Sample.home 2) [] []
        { token := lit "token", id := lit "idC", pubkey := Sample.key 2 }).2 = none ∧
      (runOps lifetime silent).Taken lifetime 10000000000 (lit "token") (lit "idC") := by
  have hrefused : ((runOps lifetime silent).upsert lifetime 10000000000 (Sample.home 2) [] []
      { token := lit "token", id := lit "idC", pubkey := Sample.key 2 }).2 = none := by
    decide +kernel
  have hfresh : ¬ (runOps lifetime silent).Clogged lifetime 10000000000 (lit "token") := by
    rintro ⟨-, id, ref, hholds, hold⟩
    have hall : ∀ e ∈ ((runOps lifetime silent).bucket (lit "token")).entries,
        10000000000 - ((runOps lifetime silent).heap e.2).seen ≤ lifetime := by decide +kernel
    have hin := hall ⟨id, ref⟩ (mem_lookup_iff.1 hholds)
    exact absurd hold (not_lt.2 hin)
  exact ⟨hrefused, (slot_refused_iff lifetime silent 10000000000 (Sample.home 2) [] []
    { token := lit "token", id := lit "idC", pubkey := Sample.key 2 } (by decide +kernel)).2
    hfresh hrefused⟩

end BuddyNet.Handshake.Registry
