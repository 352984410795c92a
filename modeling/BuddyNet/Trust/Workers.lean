import BuddyNet.Trust.Adding

/-!
# The worker set

`assemblePeers` starts a worker for every buddy of the manifest and every stored session that is not
revoked. The workers are the manifest's entries and, behind them, the sessions of other keys, as
many as there are lines (`workers`); they are accepted when there are at most 48 and their virtual
addresses are different (`assemblePeers_eq_ok`).

* `assemble_exact`: when the workers are exactly the trusted keys, and a failure means that there
  are too many or that two of them collide;
* `add_keeps_starting`: when the node still starts after `PeersAdd`.
-/

namespace BuddyNet.Trust

open List

variable {cr : Crypto} {y : Yaml} {cfg : Config} {f : Files} {today : Date}

/-- The sessions of keys that are neither revoked nor in the manifest. -/
def sessionOnly (manifest : List PeerSpec) (revoked : List Bytes) (sessions : List StoredSession) :
    List StoredSession :=
  sessions.filter fun s => pubKeyB64 s.pin ∉ revoked ∧ s.pin ∉ manifest.map (·.pin)

/-- The specs that `assemblePeers` puts together. -/
def workers (manifest : List PeerSpec) (revoked : List Bytes) (sessions : List StoredSession) :
    List PeerSpec :=
  manifest.filter (fun s => pubKeyB64 s.pin ∉ revoked) ++
    (sessionOnly manifest revoked sessions).map fun s => { pin := s.pin }

variable {vips : List (Bytes × Bytes)}

theorem lookup_eq_none {v : Bytes} : vips.lookup v = none ↔ v ∉ vips.map (·.1) := by
  rw [lookup_eq_none_iff]
  constructor
  · intro h hmem
    obtain ⟨p, hp, rfl⟩ := mem_map.1 hmem
    simpa using h p hp
  · intro h p hp
    have hne : v ≠ p.1 := fun heq => h (mem_map.2 ⟨p, hp, heq.symm⟩)
    simpa using hne

variable {specs : List PeerSpec}

/-- The address check compares every address with those before it. -/
theorem checkVIPs_eq_ok :
    checkVIPs cr specs vips = .ok () ↔ (specs.map fun s => virtualIP cr s.pin).Nodup ∧
      ∀ s ∈ specs, virtualIP cr s.pin ∉ vips.map (·.1) := by
  induction specs generalizing vips with
  | nil => exact iff_of_true rfl ⟨nodup_nil, forall_mem_nil _⟩
  | cons s specs ih =>
    rw [checkVIPs]
    cases hlook : vips.lookup (virtualIP cr s.pin) with
    | some other =>
      have hseen : virtualIP cr s.pin ∈ vips.map (·.1) := by
        by_contra hnot
        rw [lookup_eq_none.2 hnot] at hlook
        cases hlook
      constructor
      · rintro ⟨⟩
      · exact fun h => absurd hseen (h.2 s mem_cons_self)
    | none =>
      have hfresh := lookup_eq_none.1 hlook
      simp only [ih, map_cons, nodup_cons, forall_mem_cons]
      constructor
      · rintro ⟨hnodup, hseen⟩
        refine ⟨⟨fun hmem => ?_, hnodup⟩, hfresh, fun s' hs' hmem => ?_⟩
        · obtain ⟨s', hs', heq⟩ := mem_map.1 hmem
          exact hseen s' hs' (by rw [heq]; exact mem_cons_self)
        · exact hseen s' hs' (mem_cons_of_mem _ hmem)
      · rintro ⟨⟨hnew, hnodup⟩, -, hseen⟩
        refine ⟨hnodup, fun s' hs' hmem => ?_⟩
        rcases mem_cons.1 hmem with heq | hmem
        · exact hnew (mem_map.2 ⟨s', hs', heq⟩)
        · exact hseen s' hs' hmem

section

variable {manifest : List PeerSpec} {revoked : List Bytes} {sessions : List StoredSession}

/-- Among the keys that are not revoked, those of the manifest are those of its workers. -/
theorem sessionOnly_eq : sessionOnly manifest revoked sessions = sessions.filter fun s =>
    pubKeyB64 s.pin ∉ revoked ∧ pubKeyB64 s.pin ∉
      (manifest.filter fun s => pubKeyB64 s.pin ∉ revoked).map fun s => pubKeyB64 s.pin := by
  refine filter_congr fun s _ => ?_
  rw [decide_eq_decide]
  refine and_congr_right fun hrevoked => not_congr ?_
  rw [mem_pins, mem_map, mem_map]
  constructor
  · rintro ⟨m, hm, hpin⟩
    refine ⟨m, mem_filter.2 ⟨hm, ?_⟩, hpin⟩
    rw [decide_eq_true_iff, hpin]
    exact hrevoked
  · rintro ⟨m, hm, hpin⟩
    exact ⟨m, mem_of_mem_filter hm, hpin⟩

variable {specs : List PeerSpec}

/-- **The workers**, when the three files can be read. -/
theorem assemblePeers_eq_ok (hmanifest : loadPeersFile y cfg.peersFile f = .ok manifest)
    (hrevoked : revokedSet f = .ok revoked) (hsessions : loadSessions f = .ok sessions)
    : assemblePeers cr y cfg f = .ok specs ↔
      specs = workers manifest revoked sessions ∧ specs.length ≤ maxBuddies ∧
        (specs.map fun s => virtualIP cr s.pin).Nodup := by
  have hspecs : assemblePeers cr y cfg f =
      if maxBuddies < (workers manifest revoked sessions).length then
        .error (.tooManyBuddies (workers manifest revoked sessions).length)
      else do
        checkVIPs cr (workers manifest revoked sessions) []
        return workers manifest revoked sessions := by
    unfold assemblePeers workers
    rw [hmanifest, hrevoked, hsessions, sessionOnly_eq]
    rfl
  rw [hspecs]
  split_ifs with hmany
  · constructor
    · rintro ⟨⟩
    · rintro ⟨rfl, hlen, -⟩
      omega
  · cases hvips : checkVIPs cr (workers manifest revoked sessions) [] with
    | error e =>
      constructor
      · rintro ⟨⟩
      · rintro ⟨rfl, -, hnodup⟩
        rw [checkVIPs_eq_ok.2 ⟨hnodup, fun _ _ => not_mem_nil⟩] at hvips
        cases hvips
    | ok u =>
      constructor
      · intro h
        cases h
        exact ⟨rfl, not_lt.1 hmany, (checkVIPs_eq_ok.1 hvips).1⟩
      · rintro ⟨rfl, -⟩
        rfl

/-- A key that is in the manifest or has a session, and is not revoked. -/
def Trusted (manifest : List PeerSpec) (revoked : List Bytes) (sessions : List StoredSession)
    (K : Bytes) : Prop :=
  (K ∈ manifest.map (·.pin) ∨ K ∈ sessions.map (·.pin)) ∧ pubKeyB64 K ∉ revoked

instance (K : Bytes) : Decidable (Trusted manifest revoked sessions K) :=
  inferInstanceAs (Decidable (_ ∧ _))

/-- **The keys of the workers are the trusted ones.** -/
theorem mem_workers {K : Bytes} :
    K ∈ (workers manifest revoked sessions).map (·.pin) ↔ Trusted manifest revoked sessions K := by
  unfold workers sessionOnly Trusted
  simp only [map_append, mem_append, mem_map, mem_filter, decide_eq_true_eq,
    exists_exists_and_eq_and]
  constructor
  · rintro (⟨m, ⟨hm, hfree⟩, rfl⟩ | ⟨s, ⟨hs, hfree, -⟩, rfl⟩)
    · exact ⟨Or.inl ⟨m, hm, rfl⟩, hfree⟩
    · exact ⟨Or.inr ⟨s, hs, rfl⟩, hfree⟩
  · rintro ⟨hin, hfree⟩
    by_cases hlisted : ∃ m ∈ manifest, m.pin = K
    · obtain ⟨m, hm, rfl⟩ := hlisted
      exact Or.inl ⟨m, ⟨hm, hfree⟩, rfl⟩
    · rcases hin with hm | ⟨s, hs, rfl⟩
      · exact absurd hm hlisted
      · exact Or.inr ⟨s, ⟨hs, hfree, hlisted⟩, rfl⟩

/-- A worker has one key, unless a session of its own is stored twice. -/
theorem nodup_workers (hmanifest : (manifest.map (·.pin)).Nodup) :
    ((workers manifest revoked sessions).map (·.pin)).Nodup ↔
      ((sessionOnly manifest revoked sessions).map (·.pin)).Nodup := by
  have hstored : ((sessionOnly manifest revoked sessions).map
      fun s => ({ pin := s.pin } : PeerSpec)).map (·.pin) =
      (sessionOnly manifest revoked sessions).map (·.pin) := by
    rw [map_map]
    rfl
  rw [workers, map_append, hstored, nodup_append]
  constructor
  · exact fun h => h.2.1
  · refine fun h => ⟨hmanifest.sublist (filter_sublist.map _), h, ?_⟩
    rintro K hK K' hK' rfl
    obtain ⟨m, hm, rfl⟩ := mem_map.1 hK
    obtain ⟨s, hs, hpin⟩ := mem_map.1 hK'
    have hother := (decide_eq_true_iff.1 (mem_filter.1 hs).2).2
    rw [hpin] at hother
    exact hother (mem_map.2 ⟨m, mem_of_mem_filter hm, rfl⟩)

/-- The trusted keys, each of them once. -/
def trustedKeys (manifest : List PeerSpec) (revoked : List Bytes) (sessions : List StoredSession) :
    List Bytes :=
  ((manifest.map (·.pin) ++ sessions.map (·.pin)).filter fun K => pubKeyB64 K ∉ revoked).dedup

theorem mem_trustedKeys {K : Bytes} :
    K ∈ trustedKeys manifest revoked sessions ↔ Trusted manifest revoked sessions K := by
  rw [trustedKeys, mem_dedup, mem_filter, mem_append, decide_eq_true_iff, Trusted]

/-- Two different trusted keys have one virtual address. -/
def Collide (cr : Crypto) (manifest : List PeerSpec) (revoked : List Bytes)
    (sessions : List StoredSession) : Prop :=
  ∃ K K', Trusted manifest revoked sessions K ∧ Trusted manifest revoked sessions K' ∧ K ≠ K' ∧
    virtualIP cr K = virtualIP cr K'

/-- Without duplicates the workers are as many as the trusted keys, and only different keys can
collide. -/
theorem workers_fit (hnodup : ((workers manifest revoked sessions).map (·.pin)).Nodup)
    (hmany : (trustedKeys manifest revoked sessions).length ≤ maxBuddies)
    (hcollide : ¬Collide cr manifest revoked sessions) :
    (workers manifest revoked sessions).length ≤ maxBuddies ∧
      ((workers manifest revoked sessions).map fun s => virtualIP cr s.pin).Nodup := by
  have hperm : ((workers manifest revoked sessions).map (·.pin)).Perm
      (trustedKeys manifest revoked sessions) :=
    (perm_ext_iff_of_nodup hnodup (nodup_dedup _)).2 fun K =>
      mem_workers.trans mem_trustedKeys.symm
  have hlen := hperm.length_eq
  rw [length_map] at hlen
  refine ⟨hlen ▸ hmany, ?_⟩
  have hmap := hnodup.map_on (f := virtualIP cr) fun K hK K' hK' heq => by
    by_contra hne
    exact hcollide ⟨K, K', mem_workers.1 hK, mem_workers.1 hK', hne, heq⟩
  rwa [map_map] at hmap

/-- What the worker set should be: on success every trusted key once, with the manifest's spec if it
has one; a failure means that there are too many keys or that two of them collide. -/
structure Exact (cr : Crypto) (manifest : List PeerSpec) (revoked : List Bytes)
    (sessions : List StoredSession) (r : Except TrustError (List PeerSpec)) : Prop where
  once : ∀ specs, r = .ok specs → (specs.map (·.pin)).Nodup ∧
    ∀ K, K ∈ specs.map (·.pin) ↔ Trusted manifest revoked sessions K
  entries : ∀ specs, r = .ok specs → ∀ s ∈ specs, ∀ m ∈ manifest, m.pin = s.pin → s = m
  fails : ∀ e, r = .error e → maxBuddies < (trustedKeys manifest revoked sessions).length ∨
    Collide cr manifest revoked sessions

theorem load_nodup {peersFile : Bool} (h : loadPeersFile y peersFile f = .ok manifest) :
    (manifest.map (·.pin)).Nodup := by
  cases peersFile with
  | false =>
    cases h
    exact nodup_nil
  | true => exact (load_wellFormed h).2

theorem nodup_of_vips
    (h : (specs.map fun s => virtualIP cr s.pin).Nodup) : (specs.map (·.pin)).Nodup := by
  have hmap : specs.map (fun s => virtualIP cr s.pin) = (specs.map (·.pin)).map (virtualIP cr) := by
    rw [map_map]
    rfl
  rw [hmap] at h
  exact h.of_map

theorem eq_entry_of_mem_workers (hnodup : (manifest.map (·.pin)).Nodup) {s m : PeerSpec}
    (hs : s ∈ workers manifest revoked sessions) (hm : m ∈ manifest) (hpin : m.pin = s.pin) :
    s = m := by
  rcases mem_append.1 hs with hs | hs
  · exact inj_on_of_nodup_map hnodup (mem_of_mem_filter hs) hm hpin.symm
  · obtain ⟨stored, hstored, rfl⟩ := mem_map.1 hs
    have hother := (decide_eq_true_iff.1 (mem_filter.1 hstored).2).2
    exact absurd (mem_map.2 ⟨m, hm, hpin⟩) hother

/-- **When the worker set is exactly the trusted set**: no key outside the manifest has two session
lines, or the start fails for a good reason anyway. -/
theorem assemble_exact (hmanifest : loadPeersFile y cfg.peersFile f = .ok manifest)
    (hrevoked : revokedSet f = .ok revoked) (hsessions : loadSessions f = .ok sessions) :
    Exact cr manifest revoked sessions (assemblePeers cr y cfg f) ↔
      ((sessionOnly manifest revoked sessions).map (·.pin)).Nodup ∨
        maxBuddies < (trustedKeys manifest revoked sessions).length ∨
        Collide cr manifest revoked sessions := by
  have hok : ∀ specs, assemblePeers cr y cfg f = .ok specs ↔ _ := fun specs =>
    assemblePeers_eq_ok hmanifest hrevoked hsessions
  have hnodup := load_nodup hmanifest
  constructor
  · intro hexact
    by_contra hnone
    rw [not_or, not_or, ← nodup_workers hnodup] at hnone
    cases hres : assemblePeers cr y cfg f with
    | error e =>
      rcases hexact.fails e hres with hmany | hcollide
      · exact hnone.2.1 hmany
      · exact hnone.2.2 hcollide
    | ok specs =>
      obtain ⟨rfl, -⟩ := (hok specs).1 hres
      exact hnone.1 (hexact.once _ hres).1
  · intro hcond
    refine ⟨fun specs hspecs => ?_, fun specs hspecs s hs m hm => ?_, fun e he => ?_⟩
    · obtain ⟨rfl, -, hvips⟩ := (hok specs).1 hspecs
      exact ⟨nodup_of_vips hvips, fun K => mem_workers⟩
    · obtain ⟨rfl, -⟩ := (hok specs).1 hspecs
      exact eq_entry_of_mem_workers hnodup hs hm
    · rcases hcond with hsingle | hreason
      · by_contra hnone
        rw [not_or] at hnone
        have hfit := workers_fit ((nodup_workers hnodup).2 hsingle) (not_lt.1 hnone.1) hnone.2
        rw [(hok _).2 ⟨rfl, hfit⟩] at he
        cases he
      · exact hreason

end

/-- A store with two session lines for one buddy. -/
def Sample.twoLines : Files :=
  { knownPeers := some (Go.unlines [lit "hash " ++ other ++ lit " first",
      lit "hash " ++ other ++ lit " second"])
    revoked := none
    manifest := none }

open Sample in
/-- One buddy with two session lines stops the node: it collides with itself. -/
theorem assemble_exact_fails :
    loadSessions twoLines =
        .ok [⟨replicate 32 9, lit "first"⟩, ⟨replicate 32 9, lit "second"⟩] ∧
      trustedKeys [] [] [⟨replicate 32 9, lit "first"⟩, ⟨replicate 32 9, lit "second"⟩] =
        [replicate 32 9] ∧
      assemblePeers crypto shortYaml { peersFile := true } twoLines =
        .error (.vipCollision other other) := by
  decide +kernel

open Sample in
/-- The buddy of the manifest that is not revoked, and the two with a session and no entry. -/
theorem assemble_exact_household :
    assemblePeers crypto shortYaml { peersFile := true } household =
        .ok [{ pin := replicate 32 9 }, { pin := replicate 32 5 },
          { pin := replicate 32 6 }] ∧
      Exact crypto twoBuddies [pubKeyB64 key, pubKeyB64 (replicate 32 8)]
        [⟨replicate 32 9, lit "a"⟩, ⟨replicate 32 8, lit "b"⟩,
          ⟨replicate 32 5, lit "c"⟩, ⟨replicate 32 8, lit "d"⟩,
          ⟨replicate 32 6, lit "e"⟩]
        (assemblePeers crypto shortYaml { peersFile := true } household) := by
  have hmanifest : loadPeersFile shortYaml (Config.peersFile { peersFile := true }) household =
      .ok twoBuddies := household_manifest
  have hrevoked : revokedSet household =
      .ok [pubKeyB64 key, pubKeyB64 (replicate 32 8)] := by decide +kernel
  have hsessions : loadSessions household = .ok [⟨replicate 32 9, lit "a"⟩,
      ⟨replicate 32 8, lit "b"⟩, ⟨replicate 32 5, lit "c"⟩,
      ⟨replicate 32 8, lit "d"⟩, ⟨replicate 32 6, lit "e"⟩] := by decide +kernel
  refine ⟨by decide +kernel, ?_⟩
  exact (assemble_exact hmanifest hrevoked hsessions).2 (Or.inl (by decide +kernel))

/-! ### Starting after an addition -/

theorem assemblePeers_reads (h : assemblePeers cr y cfg f = .ok specs) :
    ∃ manifest revoked sessions, loadPeersFile y cfg.peersFile f = .ok manifest ∧
      revokedSet f = .ok revoked ∧ loadSessions f = .ok sessions := by
  unfold assemblePeers at h
  cases hmanifest : loadPeersFile y cfg.peersFile f with
  | error e => simp [hmanifest, bind, Except.bind] at h
  | ok manifest =>
  cases hrevoked : revokedSet f with
  | error e => simp [hmanifest, hrevoked, bind, Except.bind] at h
  | ok revoked =>
  cases hsessions : loadSessions f with
  | error e => simp [hmanifest, hrevoked, hsessions, bind, Except.bind] at h
  | ok sessions => exact ⟨manifest, revoked, sessions, rfl, rfl, rfl⟩

/-- One key more among workers that were accepted: it was there, or there is room for it and its
address is free. -/
theorem fit_add {before after : List PeerSpec} {K : Bytes} (hnodup : (after.map (·.pin)).Nodup)
    (hmem : ∀ K', K' ∈ after.map (·.pin) ↔ K' ∈ before.map (·.pin) ∨ K' = K)
    (hlen : before.length ≤ maxBuddies) (hvips : (before.map fun s => virtualIP cr s.pin).Nodup) :
    (after.length ≤ maxBuddies ∧ (after.map fun s => virtualIP cr s.pin).Nodup) ↔
      K ∈ before.map (·.pin) ∨ before.length < maxBuddies ∧
        ∀ s ∈ before, virtualIP cr s.pin ≠ virtualIP cr K := by
  have hmap : ∀ specs : List PeerSpec,
      specs.map (fun s => virtualIP cr s.pin) = (specs.map (·.pin)).map (virtualIP cr) :=
    fun specs => by rw [map_map]; rfl
  have hbefore := nodup_of_vips hvips
  rw [hmap] at hvips ⊢
  by_cases hK : K ∈ before.map (·.pin)
  · have hperm : (after.map (·.pin)).Perm (before.map (·.pin)) := by
      refine (perm_ext_iff_of_nodup hnodup hbefore).2 fun K' => ?_
      rw [hmem]
      exact or_iff_left_of_imp fun heq => heq ▸ hK
    have hlength := hperm.length_eq
    rw [length_map, length_map] at hlength
    refine iff_of_true ⟨hlength ▸ hlen, ?_⟩ (Or.inl hK)
    exact (hperm.map (virtualIP cr)).nodup_iff.2 hvips
  · have hperm : (after.map (·.pin)).Perm (K :: before.map (·.pin)) := by
      refine (perm_ext_iff_of_nodup hnodup (nodup_cons.2 ⟨hK, hbefore⟩)).2 fun K' => ?_
      rw [hmem, mem_cons, or_comm]
    have hlength := hperm.length_eq
    rw [length_map, length_cons, length_map] at hlength
    rw [or_iff_right hK, hlength, (hperm.map (virtualIP cr)).nodup_iff, map_cons,
      nodup_cons, and_iff_left hvips, Nat.succ_le_iff]
    refine and_congr_right fun _ => ?_
    simp only [mem_map, not_exists, not_and, exists_exists_and_eq_and]

section

variable {key token name expose : Bytes} {s : PeerSpec} {existing : List PeerSpec}
  {es es' : List RevokedEntry} {res : AddResult} {t : Files} {sessions : List StoredSession}
  {manifest : List PeerSpec}

variable (hy : y.Lawful)
include hy

variable (h : Addition y today f key token name expose s existing es res t)
include h

section

variable (hload : loadPeersFile y true t = .ok manifest)
include hload

theorem Addition.mem_manifest (K : Bytes) :
    K ∈ manifest.map (·.pin) ↔ K ∈ existing.map (·.pin) ∨ K = s.pin := by
  by_cases hlisted : s.pin ∈ existing.map (·.pin)
  · cases (h.load_listed hlisted).symm.trans hload
    exact (or_iff_left_of_imp fun heq => heq ▸ hlisted).symm
  · obtain ⟨rfl, -⟩ := (h.load_new hy hlisted).1 hload
    rw [map_append, mem_append, map_singleton, mem_singleton]

variable (hes' : loadRevoked t.revoked = .ok es')
include hes'

theorem Addition.trusted_iff (K : Bytes) : Trusted manifest (es'.map (·.key)) sessions K ↔
      Trusted existing (es.map (·.key)) sessions K ∨ K = s.pin := by
  unfold Trusted
  rw [h.mem_manifest hy hload, h.mem_revoked hes']
  by_cases hK : K = s.pin
  · simp [hK]
  · have hne : pubKeyB64 K ≠ pubKeyB64 s.pin := fun heq => hK (pubKeyB64_injective heq)
    simp [hK, hne]

/-- No session gets a worker that had none before, since the new key is in the manifest. -/
theorem Addition.sessionOnly_sublist :
    (sessionOnly manifest (es'.map (·.key)) sessions).Sublist
      (sessionOnly existing (es.map (·.key)) sessions) := by
  refine monotone_filter_right _ fun stored hstored => ?_
  rw [decide_eq_true_iff] at hstored ⊢
  obtain ⟨hfree, hother⟩ := hstored
  rw [h.mem_manifest hy hload, not_or] at hother
  refine ⟨fun hin => hfree ((h.mem_revoked hes' _).2 ⟨hin, fun heq => ?_⟩), hother.1⟩
  exact hother.2 (pubKeyB64_injective heq)

end

/-- A manifest that can be loaded after an addition. -/
theorem Addition.exists_load :
    (∃ manifest, loadPeersFile y true t = .ok manifest) ↔ s.pin ∈ existing.map (·.pin) ∨
      tokenOk token ∧ (manifestText y (existing ++ [s])).length ≤ maxManifestBytes := by
  by_cases hlisted : s.pin ∈ existing.map (·.pin)
  · exact iff_of_true ⟨existing, h.load_listed hlisted⟩ (Or.inl hlisted)
  · rw [or_iff_right hlisted]
    constructor
    · rintro ⟨manifest, hload⟩
      exact ((h.load_new hy hlisted).1 hload).2
    · exact fun hfits => ⟨_, (h.load_new hy hlisted).2 ⟨rfl, hfits⟩⟩

/-- With both files readable, a start depends on the workers alone. -/
theorem Addition.starts_iff (hcfg : cfg.peersFile = true)
    (hsessions : loadSessions f = .ok sessions)
    (hlen : (workers existing (es.map (·.key)) sessions).length ≤ maxBuddies)
    (hvips : ((workers existing (es.map (·.key)) sessions).map fun s => virtualIP cr s.pin).Nodup)
    (hload : loadPeersFile y true t = .ok manifest) (hes' : loadRevoked t.revoked = .ok es') :
    (∃ after, assemblePeers cr y cfg t = .ok after) ↔
      s.pin ∈ (workers existing (es.map (·.key)) sessions).map (·.pin) ∨
        (workers existing (es.map (·.key)) sessions).length < maxBuddies ∧
        ∀ w ∈ workers existing (es.map (·.key)) sessions,
          virtualIP cr w.pin ≠ virtualIP cr s.pin := by
  have hmanifest : loadPeersFile y cfg.peersFile t = .ok manifest := hcfg ▸ hload
  have hrevoked := revokedSet_eq_ok.2 ⟨es', hes', rfl⟩
  have hsessions' : loadSessions t = .ok sessions := by
    rw [h.written]
    exact hsessions
  have hsingle := (nodup_workers (load_nodup h.manifest)).1 (nodup_of_vips hvips)
  have hnodup : ((workers manifest (es'.map (·.key)) sessions).map (·.pin)).Nodup :=
    (nodup_workers (load_nodup hload)).2
      (hsingle.sublist ((h.sessionOnly_sublist hy hload hes').map _))
  have hmem : ∀ K, K ∈ (workers manifest (es'.map (·.key)) sessions).map (·.pin) ↔
      K ∈ (workers existing (es.map (·.key)) sessions).map (·.pin) ∨ K = s.pin := fun K => by
    rw [mem_workers, mem_workers, h.trusted_iff hy hload hes']
  rw [← fit_add hnodup hmem hlen hvips]
  constructor
  · rintro ⟨after, hafter⟩
    obtain ⟨rfl, hfit⟩ := (assemblePeers_eq_ok hmanifest hrevoked hsessions').1 hafter
    exact hfit
  · exact fun hfit => ⟨_, (assemblePeers_eq_ok hmanifest hrevoked hsessions').2 ⟨rfl, hfit⟩⟩

end

/-- **When the node still starts after an addition**: the new manifest can be loaded, the rewritten
revocation list can be read, and the buddy had a worker or there is room for one whose address is
free. -/
theorem add_keeps_starting (hy : y.Lawful) (hcfg : cfg.peersFile = true) {before : List PeerSpec}
    (hstart : assemblePeers cr y cfg f = .ok before) {peersFile : Bool}
    {key token name expose : Bytes} {res : AddResult}
    (hok : (peersAdd y today peersFile key token name expose f).2 = .ok res) :
    ∃ s existing es, decodePubKey key = some s.pin ∧ s.token = token ∧ s.name = name ∧
      parseExpose expose = .ok s.expose ∧ loadPeersFile y true f = .ok existing ∧
      loadRevoked f.revoked = .ok es ∧
      ((∃ after, assemblePeers cr y cfg
          ((peersAdd y today peersFile key token name expose).final f) = .ok after) ↔
        (s.pin ∈ existing.map (·.pin) ∨ tokenOk token ∧
          (manifestText y (existing ++ [s])).length ≤ maxManifestBytes) ∧
        (pubKeyB64 s.pin ∈ es.map (·.key) → ∀ e ∈ es, e.key ≠ pubKeyB64 s.pin →
          (e.line today).length < Go.maxScanTokenSize) ∧
        (s.pin ∈ before.map (·.pin) ∨ before.length < maxBuddies ∧
          ∀ w ∈ before, virtualIP cr w.pin ≠ virtualIP cr s.pin)) := by
  obtain ⟨s, existing, es, -, hadd⟩ :=
    peersAdd_ensures y f today peersFile key token name expose res hok
  refine ⟨s, existing, es, hadd.pin, hadd.token, hadd.name, hadd.expose, hadd.manifest,
    hadd.revoked, ?_⟩
  obtain ⟨manifest₀, revoked₀, sessions, hmanifest₀, hrevoked₀, hsessions⟩ :=
    assemblePeers_reads hstart
  obtain rfl : manifest₀ = existing := by
    rw [hcfg, hadd.manifest] at hmanifest₀
    exact (Except.ok.inj hmanifest₀).symm
  obtain rfl : revoked₀ = es.map (·.key) := by
    obtain ⟨es₀, hes₀, rfl⟩ := revokedSet_eq_ok.1 hrevoked₀
    rw [Except.ok.inj (hadd.revoked.symm.trans hes₀)]
  obtain ⟨rfl, hlen, hvips⟩ := (assemblePeers_eq_ok hmanifest₀ hrevoked₀ hsessions).1 hstart
  rw [← hadd.exists_load hy, ← hadd.readable_iff]
  constructor
  · rintro ⟨after, hafter⟩
    obtain ⟨manifest, revoked, -, hload, hrevoked, -⟩ := assemblePeers_reads hafter
    rw [hcfg] at hload
    obtain ⟨es', hes', rfl⟩ := revokedSet_eq_ok.1 hrevoked
    exact ⟨⟨manifest, hload⟩, ⟨es', hes'⟩,
      (hadd.starts_iff hy hcfg hsessions hlen hvips hload hes').1 ⟨after, hafter⟩⟩
  · rintro ⟨⟨manifest, hload⟩, ⟨es', hes'⟩, hfit⟩
    exact (hadd.starts_iff hy hcfg hsessions hlen hvips hload hes').2 hfit

namespace Sample

/-- A node that has paired with one buddy. -/
def paired : Files := { newNode with knownPeers := some (lit "hash " ++ other ++ lit " secret") }

/-- A key with the virtual address of that buddy, whose hash starts with the same two bytes. -/
def sameAddress : Bytes := replicate 2 9 ++ replicate 30 8

end Sample

open Sample in
/-- `PeersAdd` does not compare addresses: the node does not start with the buddy it has added. -/
theorem add_keeps_starting_fails :
    shortYaml.Lawful ∧
      assemblePeers crypto shortYaml { peersFile := true } paired =
        .ok [{ pin := replicate 32 9 }] ∧
      (peersAdd shortYaml day true (pubKeyB64 sameAddress) [] [] [] paired).2 = .ok .added ∧
      ∀ specs, assemblePeers crypto shortYaml { peersFile := true }
        ((peersAdd shortYaml day true (pubKeyB64 sameAddress) [] [] []).final paired) ≠
          .ok specs := by
  have hok : (peersAdd shortYaml day true (pubKeyB64 sameAddress) [] [] [] paired).2 =
      .ok .added := by decide +kernel
  have hsessions : loadSessions paired = .ok [⟨replicate 32 9, lit "secret"⟩] := by
    decide +kernel
  refine ⟨shortYaml_lawful, by decide +kernel, hok, fun specs hspecs => ?_⟩
  obtain ⟨s, existing, es, -, hadd⟩ := peersAdd_ensures _ _ _ _ _ _ _ _ _ hok
  cases hadd.manifest
  cases hadd.revoked
  obtain ⟨manifest, revoked, -, hload, hrevoked, -⟩ := assemblePeers_reads hspecs
  obtain ⟨es', hes', rfl⟩ := revokedSet_eq_ok.1 hrevoked
  have hpin : s.pin = sameAddress :=
    Option.some.inj (hadd.pin.symm.trans (decodePubKey_pubKeyB64 rfl))
  have hfit := (hadd.starts_iff shortYaml_lawful rfl hsessions (by decide +kernel)
    (by decide +kernel) hload hes').1 ⟨specs, hspecs⟩
  rw [hpin] at hfit
  exact absurd hfit (by decide +kernel)

open Sample in
theorem add_keeps_starting_second :
    ∃ after, assemblePeers crypto shortYaml { peersFile := true }
      ((peersAdd shortYaml day true (pubKeyB64 key) (lit "token") [] []).final paired) =
        .ok after := by
  have hok : (peersAdd shortYaml day true (pubKeyB64 key) (lit "token") [] [] paired).2 =
      .ok .added := by decide +kernel
  have hstart : assemblePeers crypto shortYaml { peersFile := true } paired =
      .ok [{ pin := replicate 32 9 }] := by decide +kernel
  obtain ⟨⟨pin, token, name, scope⟩, existing, es, hpin, rfl, rfl, hscope, hload, hes, hiff⟩ :=
    add_keeps_starting shortYaml_lawful rfl hstart hok
  cases hload
  cases hes
  cases hscope
  obtain rfl : key = pin := Option.some.inj ((decodePubKey_pubKeyB64 rfl).symm.trans hpin)
  exact hiff.2 ⟨Or.inr ⟨by decide, fits_of_marshal (by decide +kernel)⟩,
    fun _ => forall_mem_nil _, Or.inr (by decide +kernel)⟩

end BuddyNet.Trust
