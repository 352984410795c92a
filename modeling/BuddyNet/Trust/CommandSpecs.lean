import BuddyNet.Trust.RevocationList

/-!
# What the commands write

One specification for each locked part of a command, which holds wherever the command is cut off
and says what a complete one has written: `peersRemoveLocked_meets` for `PeersRemove`,
`peersAddLocked_meets` for `PeersAdd`. `PeersAllow` is `removeRevokedLocked`.
-/

namespace BuddyNet.Trust

open Transaction List

variable {y : Yaml} {f t : Files} {k K : Bytes} {today : Date} {peersFile : Bool}

/-! ### `PeersRemove` -/

/-- The store without the session lines of a key. -/
def withoutSession (k : Bytes) (file : Option Bytes) : Option Bytes :=
  some (Go.unlines (keptLines k (scanStore file).1))

/-- The store after a removal: it is rewritten if it has a session line of the key. -/
def clearedStore (k : Bytes) (file : Option Bytes) : Option Bytes :=
  if (scanStore file).1.countP (isSessionOf k) = 0 then file else withoutSession k file

/-- The manifest after a removal: it is rewritten if it lists the key. -/
def clearedManifest (y : Yaml) (k : Bytes) (specs : List PeerSpec) (manifest : Option Bytes) :
    Option Bytes :=
  if specs.countP (pubKeyB64 ·.pin = k) = 0 then manifest
  else some (manifestText y (specs.filter (pubKeyB64 ·.pin ≠ k)))

theorem removeSessionLocked_meets (f : Files) (k : Bytes) :
    Meets (removeSessionLocked k) f (· = f) fun r t =>
      match r with
      | .error _ => (scanStore f.knownPeers).2 = true ∧ t = f
      | .ok _ => (scanStore f.knownPeers).2 = false ∧
        t = { f with knownPeers := clearedStore k f.knownPeers } := by
  unfold removeSessionLocked clearedStore
  refine Meets.read_bind ?_
  dsimp only
  split_ifs with hlong hnone hnone
  · exact Meets.throw ⟨hlong, rfl⟩
  · exact Meets.throw ⟨hlong, rfl⟩
  · exact Meets.pure ⟨Bool.eq_false_iff.2 hlong, rfl⟩
  · exact Meets.write_bind rfl (Meets.pure ⟨Bool.eq_false_iff.2 hlong, rfl⟩)

/-- The manifest, if there is a file for it, is not in the old format and can be loaded. -/
def manifestReadable (y : Yaml) (peersFile : Bool) (f : Files) : Bool :=
  !peersFile || decide (manifestNeedsMigration f = .ok false) && (loadPeersFile y true f).isOk

/-- The manifest that a removal leaves: without a manifest file it is not touched, and otherwise it
can be read. -/
def Cleared (y : Yaml) (peersFile : Bool) (k : Bytes) (f : Files) (m : Option Bytes) : Prop :=
  peersFile = false ∧ m = f.manifest ∨ peersFile = true ∧ ∃ specs,
    manifestNeedsMigration f = .ok false ∧ loadPeersFile y true f = .ok specs ∧
      m = clearedManifest y k specs f.manifest

theorem removeManifestEntryLocked_meets (y : Yaml) (peersFile : Bool) (k : Bytes) (f : Files) :
    Meets (removeManifestEntryLocked y peersFile k) f (· = f) fun r t =>
      match r with
      | .error _ => manifestReadable y peersFile f = false ∧ t = f
      | .ok _ => ∃ m, Cleared y peersFile k f m ∧ t = { f with manifest := m } := by
  unfold removeManifestEntryLocked manifestReadable Cleared clearedManifest
  cases peersFile with
  | false => exact Meets.pure ⟨_, Or.inl ⟨rfl, rfl⟩, rfl⟩
  | true =>
    refine Meets.read_bind (Meets.ofExcept_bind ?_ fun legacy hlegacy => ?_)
    · exact fun e he => ⟨by simp [he], rfl⟩
    split_ifs with hold
    · exact Meets.throw ⟨by simp [hlegacy, hold], rfl⟩
    · rw [Bool.eq_false_of_not_eq_true hold] at hlegacy
      refine Meets.ofExcept_bind (fun e he => ⟨by simp [he, Except.isOk, Except.toBool], rfl⟩)
        fun specs hspecs => ?_
      dsimp only
      split_ifs with hnone
      · refine Meets.pure ⟨_, Or.inr ⟨rfl, specs, hlegacy, hspecs, rfl⟩, ?_⟩
        rw [if_pos hnone]
      · refine Meets.write_bind rfl (Meets.pure ?_)
        refine ⟨_, Or.inr ⟨rfl, specs, hlegacy, hspecs, rfl⟩, ?_⟩
        rw [if_neg hnone]

/-- The states a removal goes through: the key is put on the list, then its sessions are dropped,
then its entry. -/
inductive Removing (y : Yaml) (today : Date) (peersFile : Bool) (k : Bytes) (f : Files) :
    Files → Prop
  | start : Removing y today peersFile k f f
  | listed {es : List RevokedEntry} (hload : loadRevoked f.revoked = .ok es) :
      Removing y today peersFile k f { f with revoked := withKey today k f.revoked es }
  | dropped {es : List RevokedEntry} (hload : loadRevoked f.revoked = .ok es)
      (hread : (scanStore f.knownPeers).2 = false) :
      Removing y today peersFile k f { f with
        revoked := withKey today k f.revoked es
        knownPeers := clearedStore k f.knownPeers }
  | cleared {es : List RevokedEntry} {m : Option Bytes} (hload : loadRevoked f.revoked = .ok es)
      (hread : (scanStore f.knownPeers).2 = false) (hm : Cleared y peersFile k f m) :
      Removing y today peersFile k f
        ⟨clearedStore k f.knownPeers, withKey today k f.revoked es, m⟩

/-- The files that a removal reads behind the lock can be read. -/
def readable (y : Yaml) (peersFile : Bool) (f : Files) : Bool :=
  (loadRevoked f.revoked).isOk && !(scanStore f.knownPeers).2 && manifestReadable y peersFile f

/-- **The removal of a key**: wherever it stops it is in one of its states, it fails only on a file
that it cannot read, and when it succeeds it has gone through all of its states. -/
theorem peersRemoveLocked_meets (y : Yaml) (today : Date) (peersFile : Bool) (k : Bytes)
    (f : Files) :
    Meets (peersRemoveLocked y today peersFile k) f (Removing y today peersFile k f) fun r t =>
      match r with
      | .error _ => readable y peersFile f = false ∧ Removing y today peersFile k f t
      | .ok _ => ∃ es m, loadRevoked f.revoked = .ok es ∧ (scanStore f.knownPeers).2 = false ∧
        Cleared y peersFile k f m ∧
        t = ⟨clearedStore k f.knownPeers, withKey today k f.revoked es, m⟩ := by
  refine ((addRevokedLocked_meets f k today).mono (fun _ ht => ht ▸ .start) fun _ _ h => h).bind
    ?_ ?_
  · rintro e t ⟨hload, rfl⟩
    exact ⟨by simp [readable, hload, Except.isOk, Except.toBool], .start⟩
  rintro added t ⟨es, hload, rfl⟩
  refine ((removeSessionLocked_meets _ k).mono (fun _ ht => ht ▸ .listed hload)
    fun _ _ h => h).bind ?_ ?_
  · rintro e t ⟨hlong, rfl⟩
    dsimp only at hlong
    exact ⟨by simp [readable, hlong], .listed hload⟩
  rintro removed t ⟨hread, rfl⟩
  refine ((removeManifestEntryLocked_meets y peersFile k _).mono
    (fun _ ht => ht ▸ .dropped hload hread) fun _ _ h => h).bind ?_ ?_
  · rintro e t ⟨hmanifest, rfl⟩
    have hmanifest : manifestReadable y peersFile f = false := hmanifest
    exact ⟨by simp [readable, hmanifest], .dropped hload hread⟩
  rintro entries t ⟨m, hm, rfl⟩
  exact Meets.pure ⟨es, m, hload, hread, hm, rfl⟩

/-- **A removal that is cut off anywhere** is in one of its states. -/
theorem removal_cut (y : Yaml) (f : Files) (today : Date) (peersFile : Bool) (k : Bytes) (n : ℕ) :
    Removing y today peersFile k f ((peersRemoveLocked y today peersFile k).cut f n) := by
  rcases (peersRemoveLocked_meets y today peersFile k f).cut n with h | ⟨-, h⟩
  · exact h
  · split at h
    · exact h.2
    · obtain ⟨es, m, hload, hread, hm, ht⟩ := h
      exact ht ▸ .cleared hload hread hm

/-- A removal has not begun, or it loses no revocation and the key is revoked. -/
theorem Removing.tombstoned (h : Removing y today peersFile k f t) (hk : IsKey k)
    (hK : Tombstoned K f ∨ k = pubKeyB64 K) : t = f ∨ Tombstoned K t := by
  cases h with
  | start => exact Or.inl rfl
  | listed hload => exact Or.inr (tombstoned_withKey hload hk hK)
  | dropped hload => exact Or.inr ((tombstoned_withKey hload hk hK).of_revoked_eq rfl)
  | cleared hload => exact Or.inr ((tombstoned_withKey hload hk hK).of_revoked_eq rfl)

/-- The store is as it was, or without the sessions of the key. -/
theorem Removing.store (h : Removing y today peersFile k f t) :
    t.knownPeers = f.knownPeers ∨ t.knownPeers = withoutSession k f.knownPeers := by
  have hcleared : clearedStore k f.knownPeers = f.knownPeers ∨
      clearedStore k f.knownPeers = withoutSession k f.knownPeers := ite_eq_or_eq ..
  cases h with
  | start => exact Or.inl rfl
  | listed => exact Or.inl rfl
  | dropped => exact hcleared
  | cleared => exact hcleared

/-- The manifest of a section: the one before, or one that it has written. -/
def Written (y : Yaml) (f t : Files) : Prop :=
  t.manifest = f.manifest ∨ ∃ specs, t.manifest = some (manifestText y specs)

theorem Removing.written (h : Removing y today peersFile k f t) : Written y f t := by
  cases h with
  | start => exact Or.inl rfl
  | listed => exact Or.inl rfl
  | dropped => exact Or.inl rfl
  | cleared _ _ hm =>
    rcases hm with ⟨-, rfl⟩ | ⟨-, specs, -, -, rfl⟩
    · exact Or.inl rfl
    · exact (ite_eq_or_eq ..).imp_right fun h => ⟨_, h⟩

/-! ### `PeersAdd` -/

/-- What the checks in front of the lock say about the arguments and the files they saw. -/
structure Checked (peersFile : Bool) (seen : Files) (key token name expose : Bytes)
    (r : AddRequest) : Prop where
  file : peersFile = true
  pin : decodePubKey key = some r.pin
  token_eq : r.token = token
  name_eq : r.name = name
  name_valid : validateBuddyName name = true
  scope : parseExpose expose = .ok r.expose
  modern : manifestNeedsMigration seen = .ok false

variable {r : AddRequest}

theorem peersAddCheck_spec {peersFile : Bool} {seen : Files} {key token name expose : Bytes}
    (h : peersAddCheck peersFile seen key token name expose = .ok r) :
    Checked peersFile seen key token name expose r := by
  unfold peersAddCheck at h
  cases peersFile with
  | false => cases h
  | true =>
    rw [if_pos rfl] at h
    split at h
    · cases h
    · next pin hpin =>
      split_ifs at h with htoken hname
      cases hscope : parseExpose expose with
      | error e => simp [hscope, bind, Except.bind] at h
      | ok scope =>
      cases hlegacy : manifestNeedsMigration seen with
      | error e => simp [hscope, hlegacy, bind, Except.bind] at h
      | ok legacy =>
        simp only [hscope, hlegacy, bind, Except.bind] at h
        split_ifs at h with hl
        cases h
        exact ⟨rfl, hpin, rfl, rfl, hname, hscope, by rw [hlegacy, Bool.eq_false_of_not_eq_true hl]⟩

/-- The manifest with a spec, unless it lists the key. -/
def withSpec (y : Yaml) (existing : List PeerSpec) (s : PeerSpec) (manifest : Option Bytes) :
    Option Bytes :=
  if s.pin ∈ existing.map (·.pin) then manifest else some (manifestText y (existing ++ [s]))

/-- What a successful addition of a spec found under the lock, the entries of the manifest and of
the revocation list, and what it wrote and reported. -/
structure Added (y : Yaml) (today : Date) (f : Files) (s : PeerSpec) (existing : List PeerSpec)
    (es : List RevokedEntry) (res : AddResult) (t : Files) : Prop where
  manifest : loadPeersFile y true f = .ok existing
  revoked : loadRevoked f.revoked = .ok es
  room : s.pin ∈ existing.map (·.pin) ∨ existing.length < maxBuddies
  written : t = { f with
    manifest := withSpec y existing s f.manifest
    revoked := withoutKey today es (pubKeyB64 s.pin) f.revoked }
  result : res = .alreadyListed ↔
    s.pin ∈ existing.map (·.pin) ∧ pubKeyB64 s.pin ∉ es.map (·.key)

/-- The end of an addition; one that fails has written nothing. -/
def Adding (y : Yaml) (today : Date) (f : Files) (s : PeerSpec) :
    Except TrustError AddResult → Files → Prop
  | .error _, t => t = f
  | .ok res, t => ∃ existing es, Added y today f s existing es res t

theorem isRevoked_eq_ok {b : Bool} : isRevoked f k = .ok b ↔
    ∃ es, loadRevoked f.revoked = .ok es ∧ (b = true ↔ k ∈ es.map (·.key)) := by
  unfold isRevoked revokedSet
  cases loadRevoked f.revoked with
  | error e => simp [bind, Except.bind]
  | ok es => cases b <;> simp [bind, Except.bind, pure, Except.pure]

theorem mem_pins {existing : List PeerSpec} {pin : Bytes} :
    pubKeyB64 pin ∈ existing.map (fun s => pubKeyB64 s.pin) ↔ pin ∈ existing.map (·.pin) := by
  constructor
  · intro h
    obtain ⟨s, hs, heq⟩ := mem_map.1 h
    exact mem_map.2 ⟨s, hs, pubKeyB64_injective heq⟩
  · intro h
    obtain ⟨s, hs, rfl⟩ := mem_map.1 h
    exact mem_map.2 ⟨s, hs, rfl⟩

/-- **The addition of a key** changes nothing but the manifest before its end. -/
theorem peersAddLocked_meets (y : Yaml) (f : Files) (today : Date) (r : AddRequest) :
    Meets (peersAddLocked y today r) f (fun t => ∃ m, t = { f with manifest := m })
      (Adding y today f ⟨r.pin, r.token, r.name, r.expose⟩) := by
  have hid : f = { f with manifest := f.manifest } := rfl
  refine Meets.read_bind (Meets.ofExcept_bind (fun _ _ => rfl) fun existing hload => ?_)
  refine Meets.ofExcept_bind (fun _ _ => rfl) fun revoked hrevoked => ?_
  obtain ⟨es, hes, hrev⟩ := isRevoked_eq_ok.1 hrevoked
  -- the list has been read under the same lock, so lifting the revocation cannot fail
  have hlift : ∀ (m : Option Bytes) (res : AddResult),
      Added y today f ⟨r.pin, r.token, r.name, r.expose⟩ existing es res { f with
        manifest := m
        revoked := withoutKey today es (pubKeyB64 r.pin) f.revoked } →
      Meets (removeRevokedLocked today (pubKeyB64 r.pin) >>= fun _ => pure res)
        { f with manifest := m } (fun t => ∃ m, t = { f with manifest := m })
        (Adding y today f ⟨r.pin, r.token, r.name, r.expose⟩) := by
    intro m res hadded
    refine ((removeRevokedLocked_meets _ _ today).mono (fun _ ht => ⟨m, ht⟩) fun _ _ h => h).bind
      ?_ ?_
    · rintro e t ⟨herror, -⟩
      cases hes.symm.trans herror
    · rintro _ t ⟨es', hes', rfl⟩
      cases hes.symm.trans hes'
      exact Meets.pure ⟨existing, es, hadded⟩
  simp only [mem_pins]
  split_ifs with hlisted hlift' hfull hlift'
  · refine hlift f.manifest _ ⟨hload, hes, Or.inl hlisted, ?_, ?_⟩
    · rw [withSpec, if_pos hlisted]
    · simp [hrev.1 hlift']
  · have hfree : pubKeyB64 r.pin ∉ es.map (·.key) := fun hmem => hlift' (hrev.2 hmem)
    refine Meets.pure ⟨existing, es, hload, hes, Or.inl hlisted, ?_, ?_⟩
    · rw [withSpec, if_pos hlisted, withoutKey, if_neg hfree]
    · exact iff_of_true rfl ⟨hlisted, hfree⟩
  · exact Meets.throw rfl
  · refine Meets.write_bind ⟨_, hid⟩ (hlift _ _ ⟨hload, hes, Or.inr (not_le.1 hfull), ?_, ?_⟩)
    · rw [withSpec, if_neg hlisted]
    · exact iff_of_false (by decide) fun h => hlisted h.1
  · have hfree : pubKeyB64 r.pin ∉ es.map (·.key) := fun hmem => hlift' (hrev.2 hmem)
    refine Meets.write_bind ⟨_, hid⟩
      (Meets.pure ⟨existing, es, hload, hes, Or.inr (not_le.1 hfull), ?_, ?_⟩)
    · rw [withSpec, if_neg hlisted, withoutKey, if_neg hfree]
    · exact iff_of_false (by decide) fun h => hlisted h.1

theorem Adding.written {s : PeerSpec} {res : Except TrustError AddResult}
    (h : Adding y today f s res t) : Written y f t := by
  cases res with
  | error e =>
    cases h
    exact Or.inl rfl
  | ok res =>
    obtain ⟨existing, es, h⟩ := h
    rw [h.written]
    exact (ite_eq_or_eq ..).imp_right fun h => ⟨_, h⟩

/-! ### Values for the examples -/

namespace Sample

/-- Primitives that can be evaluated. -/
def crypto : Crypto where
  ed25519Sign := fun _ _ => []
  ed25519Verify := fun _ _ _ => true
  hmacSHA256 := fun _ _ => []
  sha256 := fun s => s.take 4

/-- A key. -/
def key : Bytes := replicate 32 7

/-- The day of the examples. -/
def day : Date := ⟨2026, 8, 20⟩

/-- A node that has revoked one buddy. -/
def revokedNode : Files := ⟨none, some (revokedText day [⟨pubKeyB64 key, revokedOn day⟩]), none⟩

/-- The text of another buddy's key. -/
def other : Bytes := pubKeyB64 (replicate 32 9)

/-- A library for a node without a manifest. -/
def noYaml : Yaml := ⟨fun _ => [], fun _ => .eof⟩

end Sample

end BuddyNet.Trust
