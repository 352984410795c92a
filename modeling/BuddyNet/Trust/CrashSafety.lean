import Mathlib.Tactic.DeriveEncodable
import BuddyNet.Trust.CommandSpecs
import BuddyNet.Trust.ManifestEntries

/-!
# Revocation survives a crash

`revocation_crash_safe`: wherever `PeersRemove` or the re-allow of a revoked key in `PeersAdd` is
cut off, the files are as they were, or every gate refuses the key; only when the re-allow is
complete the key may be allowed, and then the manifest lists it. And a worker never uses a secret or
a token that is not in the files.
-/

namespace BuddyNet.Trust

open Transaction List

variable {cr : Crypto} {y : Yaml} {f : Files} {K : Bytes} {today : Date}

/-! ### The gates -/

/-- Every gate refuses the key. -/
structure Refused (cr : Crypto) (y : Yaml) (K : Bytes) (f : Files) : Prop where
  /-- `assemblePeers` does not return it. -/
  workers : ∀ cfg specs, assemblePeers cr y cfg f = .ok specs → ∀ s ∈ specs, s.pin ≠ K
  /-- A worker's attempt source fails. -/
  source : ∀ cfg spec cell failures, spec.pin = K →
    ∃ e, peerSource y cfg spec cell failures f = .error e
  /-- `nextAttempt` fails when `--peer-key` is the key or the session it would use is the key's. -/
  attempt : ∀ cfg, decodePubKey cfg.peerKey = some K ∨
    (cfg.direct = false ∧ ∃ secret, loadSession f = .ok (some ⟨K, secret⟩)) →
    ∃ e, nextAttempt cfg f = .error e
  /-- `decide` fails. -/
  decision : ∀ (policy : TrustPolicy) token, ∃ e, policy.decide cr f token K = .error e

/-- The check that stands first in every gate fails. -/
theorem Tombstoned.check_fails {α : Type} (h : Tombstoned K f) {cont : Bool → Except TrustError α}
    (hcont : ∃ e, cont true = .error e) : ∃ e, (isRevoked f (pubKeyB64 K) >>= cont) = .error e := by
  have hne := h.isRevoked_ne
  cases hres : isRevoked f (pubKeyB64 K) with
  | error e => exact ⟨e, rfl⟩
  | ok b =>
    cases b with
    | false => exact absurd hres hne
    | true => exact hcont

variable {cfg : Config}

theorem Tombstoned.assemblePeers_ne {specs : List PeerSpec} (h : Tombstoned K f)
    (hspecs : assemblePeers cr y cfg f = .ok specs) : ∀ s ∈ specs, s.pin ≠ K := by
  unfold assemblePeers at hspecs
  cases hmanifest : loadPeersFile y cfg.peersFile f with
  | error e => simp [hmanifest, bind, Except.bind] at hspecs
  | ok manifest =>
  cases hset : revokedSet f with
  | error e => simp [hmanifest, hset, bind, Except.bind] at hspecs
  | ok revoked =>
  cases hsessions : loadSessions f with
  | error e => simp [hmanifest, hset, hsessions, bind, Except.bind] at hspecs
  | ok sessions =>
    simp only [hmanifest, hset, hsessions, bind, Except.bind, pure, Except.pure] at hspecs
    have hK := h revoked hset
    split_ifs at hspecs
    split at hspecs
    · cases hspecs
    cases hspecs
    rintro s hs rfl
    rcases mem_append.1 hs with hs | hs
    · exact absurd hK (by simpa using (mem_filter.1 hs).2)
    · obtain ⟨s', hs', rfl⟩ := mem_map.1 hs
      have hnot := (mem_filter.1 hs').2
      simp only [decide_eq_true_eq] at hnot
      exact hnot.1 hK

variable {spec : PeerSpec}

section

variable (h : Tombstoned K f)
include h

theorem Tombstoned.peerSource_error
    (hspec : spec.pin = K) (cell : Option Nft.Scope) (failures : ℕ) :
    ∃ e, peerSource y cfg spec cell failures f = .error e := by
  subst hspec
  exact h.check_fails ⟨_, rfl⟩

theorem Tombstoned.storedAttempt_error {pin : Option Bytes} {secret : Bytes}
    (hsession : loadSession f = .ok (some ⟨K, secret⟩)) :
    ∃ e, storedAttempt cfg pin f = .error e := by
  unfold storedAttempt
  rw [hsession]
  exact h.check_fails ⟨_, rfl⟩

theorem Tombstoned.nextAttempt_error (hcfg : decodePubKey cfg.peerKey = some K ∨
      (cfg.direct = false ∧ ∃ secret, loadSession f = .ok (some ⟨K, secret⟩))) :
    ∃ e, nextAttempt cfg f = .error e := by
  unfold nextAttempt
  rcases hcfg with hkey | ⟨hdirect, secret, hsession⟩
  · have hpin : cfgPin cfg = .ok (some K) := by
      have hne : cfg.peerKey ≠ [] := by
        intro hnil
        rw [hnil] at hkey
        cases hkey
      rw [cfgPin, if_neg hne, hkey]
    rw [hpin]
    exact h.check_fails ⟨_, rfl⟩
  · cases hpin : cfgPin cfg with
    | error e => exact ⟨e, rfl⟩
    | ok pin =>
      show ∃ e, (pinRevoked f pin >>= fun revoked => if revoked then _ else _) = .error e
      cases pinRevoked f pin with
      | error e => exact ⟨e, rfl⟩
      | ok revoked =>
        cases revoked with
        | true => exact ⟨_, rfl⟩
        | false =>
          rw [if_neg (by rw [hdirect]; decide)]
          exact h.storedAttempt_error hsession

theorem Tombstoned.decide_error (policy : TrustPolicy) (token : Bytes) :
    ∃ e, policy.decide cr f token K = .error e :=
  h.check_fails ⟨_, rfl⟩

theorem Tombstoned.refused : Refused cr y K f where
  workers := fun _ _ hspecs => h.assemblePeers_ne hspecs
  source := fun _ _ cell failures hspec => h.peerSource_error hspec cell failures
  attempt := fun _ hcfg => h.nextAttempt_error hcfg
  decision := fun policy token => h.decide_error policy token

end

/-- The key is not revoked and the manifest lists it. -/
structure Allowed (y : Yaml) (K : Bytes) (f : Files) : Prop where
  notRevoked : isRevoked f (pubKeyB64 K) = .ok false
  listed : ManifestLists y K f

/-- The attempt meets at the secret stored for the key, or at the token the manifest has for it. -/
def UsesStored (y : Yaml) (K : Bytes) (f : Files) (att : Attempt) : Prop :=
  (loadSessionFor f K = .ok (some att.rendezvous) ∧ att.inviteToken = []) ∨
    ∃ specs s, loadPeersFile y true f = .ok specs ∧ s ∈ specs ∧ s.pin = K ∧
      s.token = att.rendezvous ∧ att.inviteToken = att.rendezvous

theorem liveToken_spec (hcfg : cfg.peersFile = true)
    (h : liveToken y cfg spec f ≠ []) : ∃ specs s, loadPeersFile y true f = .ok specs ∧ s ∈ specs ∧
      s.pin = spec.pin ∧ s.token = liveToken y cfg spec f := by
  unfold liveToken at h ⊢
  rw [if_pos hcfg, hcfg] at h ⊢
  cases hload : loadPeersFile y true f with
  | error e =>
    rw [hload] at h
    exact absurd rfl h
  | ok specs =>
    rw [hload] at h
    dsimp only at h ⊢
    cases hfind : specs.find? (·.pin = spec.pin) with
    | none =>
      rw [hfind] at h
      exact absurd rfl h
    | some s =>
      exact ⟨specs, s, rfl, mem_of_find?_eq_some hfind,
        by simpa using find?_some hfind, rfl⟩

theorem peerSource_usesStored (hcfg : cfg.peersFile = true)
    {cell : Option Nft.Scope} {failures : ℕ} {att : Attempt}
    (h : peerSource y cfg spec cell failures f = .ok att) : UsesStored y spec.pin f att := by
  have hboot : liveToken y cfg spec f ≠ [] →
      UsesStored y spec.pin f (bootstrap spec cell (liveToken y cfg spec f)) := by
    intro hne
    obtain ⟨specs, s, hload, hs, hpin, htoken⟩ := liveToken_spec hcfg hne
    exact Or.inr ⟨specs, s, hload, hs, hpin, htoken, rfl⟩
  unfold peerSource at h
  cases hrev : isRevoked f (pubKeyB64 spec.pin) with
  | error e => simp [hrev, bind, Except.bind] at h
  | ok revoked =>
  cases revoked with
  | true => simp [hrev, bind, Except.bind] at h
  | false =>
  cases hsession : loadSessionFor f spec.pin with
  | error e => simp [hrev, hsession, bind, Except.bind] at h
  | ok session =>
    simp only [hrev, hsession, bind, Except.bind, pure, Except.pure] at h
    cases session with
    | none =>
      simp only [Bool.false_eq_true, if_false] at h
      split_ifs at h with hnil
      cases h
      exact hboot hnil
    | some secret =>
      simp only [Bool.false_eq_true, if_false] at h
      split_ifs at h with hfall
      · cases h
        exact hboot hfall.1
      · cases h
        exact Or.inl ⟨hsession, rfl⟩

/-! ### The commands -/

theorem peersRemove_meets (hK : K.length = publicKeySize) :
    Meets (peersRemove y today true (pubKeyB64 K)) f (fun t => t = f ∨ Tombstoned K t) fun _ t =>
      t = f ∨ Tombstoned K t := by
  have hkey : ∀ t, Removing y today true (pubKeyB64 K) f t → t = f ∨ Tombstoned K t :=
    fun t ht => ht.tombstoned ⟨K, hK, rfl⟩ (Or.inr rfl)
  refine Meets.read_bind (Meets.ofExcept_bind (fun _ _ => Or.inl rfl) fun keyB64 hres => ?_)
  obtain rfl : pubKeyB64 K = keyB64 := by
    simpa [resolveKeyRef, decodePubKey_pubKeyB64 hK] using hres
  refine (peersRemoveLocked_meets y today true _ f).mono hkey fun r t h => ?_
  cases r with
  | error e => exact hkey t h.2
  | ok res =>
    obtain ⟨es, m, hload, hread, hm, rfl⟩ := h
    exact hkey _ (.cleared hload hread hm)

/-- The end of a re-allow. -/
theorem Added.refused_or_allowed (hy : y.Lawful) (hK : K.length = publicKeySize) {s : PeerSpec}
    {existing : List PeerSpec} {es : List RevokedEntry} {res : AddResult} {t : Files}
    (h : Added y today f s existing es res t) (hpin : s.pin = K)
    (hlegacy : manifestNeedsMigration f = .ok false) : Tombstoned K t ∨ Allowed y K t := by
  subst hpin
  cases hset : revokedSet t with
  | error e =>
    refine Or.inl fun keys hkeys => ?_
    rw [hset] at hkeys
    cases hkeys
  | ok keys =>
    obtain ⟨es', hes', rfl⟩ := revokedSet_eq_ok.1 hset
    rw [h.written] at hes'
    have hnot := not_mem_withoutKey h.revoked hes'
    refine Or.inr ⟨by simp [isRevoked, hset, bind, Except.bind, pure, Except.pure, hnot], ?_⟩
    rw [h.written, withSpec]
    split_ifs with hlisted
    · exact manifestLists_of_load hlegacy h.manifest hlisted
    · exact manifestLists_manifestText hy hK (mem_append_right _ mem_cons_self) rfl rfl

theorem peersAdd_meets (hy : y.Lawful) (hK : K.length = publicKeySize) (hrev : Tombstoned K f)
    (token name expose : Bytes) :
    Meets (peersAdd y today true (pubKeyB64 K) token name expose) f (fun t => Tombstoned K t)
      fun _ t => Tombstoned K t ∨ Allowed y K t := by
  refine Meets.read_bind (Meets.ofExcept_bind (fun _ _ => Or.inl hrev) fun r hr => ?_)
  obtain ⟨-, hdec, -, -, -, -, hlegacy⟩ := peersAddCheck_spec hr
  have hpin : r.pin = K := by
    rw [decodePubKey_pubKeyB64 hK] at hdec
    exact (Option.some.inj hdec).symm
  refine (peersAddLocked_meets y f today r).mono ?_ fun res t h => ?_
  · rintro t ⟨m, rfl⟩
    exact hrev.of_revoked_eq rfl
  · cases res with
    | error e =>
      cases h
      exact Or.inl hrev
    | ok res =>
      obtain ⟨existing, es, hadded⟩ := h
      exact hadded.refused_or_allowed hy hK hpin hlegacy

/-- **Revocation and re-allow survive a crash.** Wherever a removal of `K` or the re-allow of a
revoked `K` is cut off, the files are unchanged or every gate refuses `K`; only a complete re-allow
may leave `K` allowed, with its manifest entry. In every state an attempt of a worker for `K` uses
only what the files have for `K`. -/
theorem revocation_crash_safe (cr : Crypto) (y : Yaml) (hy : y.Lawful) (K : Bytes)
    (hK : K.length = publicKeySize) (today : Date) (f : Files) :
    (∀ n, let t := (peersRemove y today true (pubKeyB64 K)).cut f n
      t = f ∨ Refused cr y K t) ∧
    (isRevoked f (pubKeyB64 K) = .ok true → ∀ token name expose n,
      let x := peersAdd y today true (pubKeyB64 K) token name expose
      x.cut f n = f ∨ Refused cr y K (x.cut f n) ∨
        ((x f).1.length ≤ n ∧ Allowed y K (x.cut f n))) ∧
    ∀ cfg spec cell failures att, cfg.peersFile = true → spec.pin = K →
      peerSource y cfg spec cell failures f = .ok att → UsesStored y K f att := by
  refine ⟨fun n => ?_, fun hrev token name expose n => ?_, ?_⟩
  · rcases (peersRemove_meets hK).cut n with h | ⟨-, h⟩
    · exact h.imp_right Tombstoned.refused
    · exact h.imp_right Tombstoned.refused
  · have htomb := tombstoned_of_isRevoked hrev
    rcases (peersAdd_meets hy hK htomb token name expose).cut n with h | ⟨hn, h⟩
    · exact Or.inr (Or.inl h.refused)
    · exact Or.inr (h.imp Tombstoned.refused fun hallowed => ⟨hn, hallowed⟩)
  · rintro cfg spec cell failures att hcfg rfl h
    exact peerSource_usesStored hcfg h

/-! ### An example -/

namespace Sample

instance encodableByte : Encodable UInt8 :=
  Encodable.ofLeftInverse UInt8.toNat (fun n => n.toUInt8) fun c => by simp

deriving instance Encodable for ExposeNode

deriving instance Encodable for Buddy

/-- A document format that writes the list as one number. -/
def marshal (bs : List Buddy) : Bytes := lit "buddies:" ++ Go.nl :: Go.itoa (Encodable.encode bs)

/-- A whole manifest. -/
def text (bs : List Buddy) : Bytes := Go.unlines manifestHeader ++ marshal bs

theorem text_injective : Function.Injective text := by
  intro bs bs' h
  have h := append_cancel_left (append_cancel_left h)
  exact Encodable.encode_injective (Go.itoa_injective (cons.inj h).2)

/-- The library for this format. -/
noncomputable def yaml : Yaml where
  marshal := marshal
  decode := fun data =>
    match Function.partialInv text data with
    | some bs => .doc bs
    | none => .error

theorem yaml_lawful : yaml.Lawful where
  decode_marshal := fun bs => by
    show (match Function.partialInv text (text bs) with
      | some bs => Decoded.doc bs
      | none => .error) = .doc bs
    rw [Function.partialInv_left text_injective]
  first_line := fun bs => ⟨_, _, rfl, Or.inl rfl⟩

end Sample

/-- The re-allow of a revoked buddy, cut off after the manifest was written. -/
theorem revocation_crash_safe_readd :
    isRevoked Sample.revokedNode (pubKeyB64 Sample.key) = .ok true ∧
      let x := peersAdd Sample.yaml Sample.day true (pubKeyB64 Sample.key) (lit "token") [] []
      x.cut Sample.revokedNode 1 = Sample.revokedNode ∨
        Refused Sample.crypto Sample.yaml Sample.key (x.cut Sample.revokedNode 1) ∨
        ((x Sample.revokedNode).1.length ≤ 1 ∧
          Allowed Sample.yaml Sample.key (x.cut Sample.revokedNode 1)) :=
  ⟨by decide +kernel, (revocation_crash_safe Sample.crypto Sample.yaml Sample.yaml_lawful Sample.key
    rfl Sample.day Sample.revokedNode).2.1 (by decide +kernel) _ _ _ 1⟩

end BuddyNet.Trust
