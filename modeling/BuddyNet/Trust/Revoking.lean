import BuddyNet.Trust.Adding

/-!
# What `PeersRemove` clears

A removal puts the key on the revocation list, drops its session lines from the store and its entry
from the manifest. It keeps every other line of the store, also the lines that were learned on first
use for the key, so that they count again once the revocation is lifted.

`remove_clears`: what is gone after a removal, what is kept, and what `decide` says about the key
for each token when `PeersAllow` has lifted the revocation.
-/

namespace BuddyNet.Trust

open Transaction List Go

variable {cr : Crypto} {y : Yaml} {f t : Files} {today : Date} {peersFile : Bool} {K k : Bytes}

/-! ### The store -/

/-- The lines of a store that was rewritten. -/
theorem scanStore_withoutSession (k : Bytes) (file : Option Bytes) :
    scanStore (withoutSession k file) = ((keptLines k (scanStore file).1).map dropCR,
    false) := by
  cases file with
  | none => rfl
  | some data => exact scanLines_rewrite fun line hline => mem_of_mem_filter hline

theorem isSessionOf_dropCR (k line : Bytes) :
    isSessionOf k (dropCR line) = isSessionOf k line := by
  unfold isSessionOf
  rw [fields_dropCR]

variable {line : Bytes}

theorem isSessionOf_clearedStore {file : Option Bytes}
    (h : line ∈ (scanStore (clearedStore k file)).1) : isSessionOf k line = false := by
  unfold clearedStore at h
  split_ifs at h with hnone
  · exact Bool.eq_false_iff.2 (countP_eq_zero.1 hnone line h)
  · rw [scanStore_withoutSession] at h
    obtain ⟨kept, hkept, rfl⟩ := mem_map.1 h
    have hother := (mem_filter.1 hkept).2
    rw [isSessionOf_dropCR]
    simpa using (Bool.and_eq_true_iff.1 hother).1

theorem knownLine_congr {hash l l' : Bytes} (h : fields l = fields l') :
    knownLine hash l = knownLine hash l' := by
  unfold knownLine
  rw [h]

theorem knownLine_blank {hash : Bytes} (h : trimSpace line = []) :
    knownLine hash line = none := by
  have hfields : fields line = [] := by rw [← fields_trimSpace, h, fields_nil]
  unfold knownLine
  rw [hfields]

/-- What the store knows about a token after a removal is on the lines that were kept. -/
theorem findSome?_clearedStore (hash : Bytes) (file : Option Bytes) :
    (scanStore (clearedStore k file)).1.findSome? (knownLine hash) =
      (keptLines k (scanStore file).1).findSome? (knownLine hash) := by
  unfold clearedStore
  split_ifs with hnone
  · have hkeep : ∀ line ∈ (scanStore file).1, isSessionOf k line = false := fun line hline =>
      Bool.eq_false_iff.2 (countP_eq_zero.1 hnone line hline)
    have hkept : keptLines k (scanStore file).1 =
        (scanStore file).1.filter fun line => trimSpace line != [] :=
      filter_congr fun line hline => by rw [hkeep line hline]; rfl
    rw [hkept, findSome?_filter fun line hblank => knownLine_blank (by simpa using hblank)]
  · rw [scanStore_withoutSession, findSome?_map]
    congr 1
    funext line
    exact knownLine_congr (fields_dropCR line)

/-! ### The verdict on a partner -/

/-- What trust on first use says about a partner, given the key that is known for the token. -/
def firstUse (k : Bytes) : Option Bytes → Except TrustError Bool
  | none => .ok true
  | some known => if known = k then .ok false else .error (.keyChanged known k)

theorem knownLine_ne_nil {hash known : Bytes} (h : knownLine hash line = some known) :
    known ≠ [] := by
  unfold knownLine at h
  split at h
  · next hash' pub rest hfields =>
    split_ifs at h
    cases h
    have hmem : known ∈ fields line := by
      rw [hfields]
      exact mem_cons_of_mem _ mem_cons_self
    exact ne_nil_of_mem_fields hmem
  · cases h

/-- `decide` without a pin, about a key that is not revoked. -/
theorem decide_firstUse (hfree : isRevoked f (pubKeyB64 K) = .ok false)
    (hread : (scanStore f.knownPeers).2 = false) (token : Bytes) :
    TrustPolicy.decide cr ⟨none, false⟩ f token K =
      firstUse (pubKeyB64 K)
        ((scanStore f.knownPeers).1.findSome? (knownLine (tokenKey cr token))) := by
  unfold TrustPolicy.decide loadKnownPeer
  dsimp only
  rw [hfree, hread]
  cases hknown : (scanStore f.knownPeers).1.findSome? (knownLine (tokenKey cr token)) with
  | none => rfl
  | some known =>
    obtain ⟨line, -, hline⟩ := exists_of_findSome?_eq_some hknown
    have hne := knownLine_ne_nil hline
    by_cases hsame : known = pubKeyB64 K
    · simp [firstUse, hsame, bind, Except.bind, pure, Except.pure, hsame ▸ hne]
    · simp [firstUse, hsame, hne, bind, Except.bind]

/-! ### The manifest -/

variable {specs : List PeerSpec}

/-- The document that was loaded has an entry for each of its keys only. -/
theorem mem_of_manifestLists (h : loadPeersFile y true f = .ok specs)
    (hlists : ManifestLists y K f) : K ∈ specs.map (·.pin) := by
  obtain ⟨data, bs, b, hdata, hyaml, hdoc, hb, hkey⟩ := hlists
  rcases loadPeersFile_eq_ok.1 h with ⟨hnone, -⟩ | ⟨data', ⟨hdata', -, hold⟩, -⟩ | ⟨data', hfile,
    hparse⟩
  · rw [hdata] at hnone
    cases hnone
  · cases hdata.symm.trans hdata'
    rw [hyaml] at hold
    cases hold
  · cases hdata.symm.trans hfile.1
    rcases parseYAMLManifest_eq_ok.1 hparse with ⟨heof, -⟩ | ⟨bs', hbs', hgives, -⟩
    · rw [hdoc] at heof
      cases heof
    · cases hdoc.symm.trans hbs'
      obtain ⟨s, hs, hspec⟩ := hgives.exists_of_mem hb
      exact mem_map.2 ⟨s, hs, Option.some.inj ((spec_pin hspec).symm.trans hkey)⟩

theorem not_manifestLists_cleared (hy : y.Lawful) (h : loadPeersFile y true f = .ok specs)
    (ht : t.manifest = clearedManifest y (pubKeyB64 K) specs f.manifest) :
    ¬ManifestLists y K t := by
  intro hlists
  unfold clearedManifest at ht
  split_ifs at ht with hnone
  · have hload : loadPeersFile y true t = .ok specs := by rw [loadPeersFile_congr ht, h]
    obtain ⟨s, hs, rfl⟩ := mem_map.1 (mem_of_manifestLists hload hlists)
    exact countP_eq_zero.1 hnone s hs (decide_eq_true rfl)
  · obtain ⟨data, bs, b, hdata, -, hdoc, hb, hkey⟩ := hlists
    cases ht.symm.trans hdata
    cases (hy.decode_marshal _).symm.trans hdoc
    obtain ⟨s, hs, rfl⟩ := mem_map.1 hb
    obtain ⟨hs, hother⟩ := mem_filter.1 hs
    rw [decide_eq_true_iff] at hother
    have hpin : s.pin = K :=
      Option.some.inj ((decodePubKey_pubKeyB64 (loadPeersFile_pin h hs)).symm.trans hkey)
    exact hother (by rw [hpin])

/-! ### A removal and what follows it -/

theorem resolveKeyRef_key (hK : K.length = publicKeySize) (f : Files) (peersFile : Bool) :
    resolveKeyRef y peersFile f (pubKeyB64 K) = .ok (pubKeyB64 K) := by
  unfold resolveKeyRef
  rw [decodePubKey_pubKeyB64 hK]

theorem peersRemove_ensures (hy : y.Lawful) (hK : K.length = publicKeySize) (f : Files)
    (today : Date) (peersFile : Bool) :
    Ensures (peersRemove y today peersFile (pubKeyB64 K)) f fun _ t =>
      (scanStore f.knownPeers).2 = false ∧
      t.knownPeers = clearedStore (pubKeyB64 K) f.knownPeers ∧ Tombstoned K t ∧
      (peersFile = true → ¬ManifestLists y K t) := by
  refine Ensures.read_bind (Ensures.ofExcept_bind fun k hk => ?_)
  cases (resolveKeyRef_key hK f peersFile).symm.trans hk
  refine (peersRemoveLocked_meets y today peersFile _ f).ensures.mono ?_
  rintro _ _ ⟨es, m, hload, hread, hm, rfl⟩
  have hrevoked : Tombstoned K { f with revoked := withKey today (pubKeyB64 K) f.revoked es } :=
    tombstoned_withKey hload ⟨K, hK, rfl⟩ (Or.inr rfl)
  refine ⟨hread, rfl, hrevoked.of_revoked_eq rfl, ?_⟩
  rintro rfl
  rcases hm with ⟨⟨⟩, -⟩ | ⟨-, specs, -, hspecs, rfl⟩
  exact not_manifestLists_cleared hy hspecs rfl

theorem peersAllow_ensures (f : Files) (today : Date)
    (peersFile : Bool) : Ensures (peersAllow y today peersFile (pubKeyB64 K)) f fun _ t =>
      t.knownPeers = f.knownPeers := by
  refine Ensures.read_bind (Ensures.ofExcept_bind fun k hk => ?_)
  refine (removeRevokedLocked_meets f k today).ensures.mono ?_
  rintro lifted t ⟨es, -, rfl⟩
  rfl

/-- **What a removal clears and what it keeps.** No session line of the key is left and no entry of
the manifest names it. All other lines of the store are kept, trust-on-first-use lines for the key
included: once the revocation is lifted, `decide` asks for a verification for the tokens that no
kept line is about, and for the others the first such line decides. -/
theorem remove_clears (cr : Crypto) (hy : y.Lawful) (hK : K.length = publicKeySize)
    {r : ℕ × ℕ × Bool} (hok : (peersRemove y today peersFile (pubKeyB64 K) f).2 = .ok r) :
    let t := (peersRemove y today peersFile (pubKeyB64 K)).final f
    t.knownPeers = clearedStore (pubKeyB64 K) f.knownPeers ∧
    (∀ line ∈ (scanStore t.knownPeers).1, isSessionOf (pubKeyB64 K) line = false) ∧
    (peersFile = true → ¬ManifestLists y K t) ∧
    ∀ later lifted, (peersAllow y later peersFile (pubKeyB64 K) t).2 = .ok lifted →
      let u := (peersAllow y later peersFile (pubKeyB64 K)).final t
      isRevoked u (pubKeyB64 K) = .ok false →
      ∀ token, TrustPolicy.decide cr ⟨none, false⟩ u token K = firstUse (pubKeyB64 K)
        ((keptLines (pubKeyB64 K) (scanStore f.knownPeers).1).findSome?
          (knownLine (tokenKey cr token))) := by
  obtain ⟨hread, hstore, -, hmanifest⟩ := peersRemove_ensures hy hK f today peersFile r hok
  refine ⟨hstore, fun line hline => ?_, hmanifest, fun later lifted hallow hfree token => ?_⟩
  · rw [hstore] at hline
    exact isSessionOf_clearedStore hline
  · have hknown := (peersAllow_ensures _ later peersFile lifted hallow).trans hstore
    have hread' : (scanStore (clearedStore (pubKeyB64 K) f.knownPeers)).2 = false := by
      unfold clearedStore
      split_ifs
      · exact hread
      · rw [scanStore_withoutSession]
    rw [decide_firstUse hfree (by rw [hknown, hread']), hknown, findSome?_clearedStore]

open Sample in
/-- A line that was learned on first use survives the removal, and vouches for the key again. -/
theorem remove_clears_fails :
    let f : Files := { newNode with
      knownPeers := some (tokenKey crypto (lit "invite") ++ lit " " ++ pubKeyB64 key) }
    let t := (peersRemove shortYaml day true (pubKeyB64 key)).final f
    let u := (peersAllow shortYaml day true (pubKeyB64 key)).final t
    (peersRemove shortYaml day true (pubKeyB64 key) f).2 = .ok (0, 0, false) ∧
      t.knownPeers = f.knownPeers ∧
      (peersAllow shortYaml day true (pubKeyB64 key) t).2 = .ok true ∧
      TrustPolicy.decide crypto ⟨none, false⟩ u (lit "invite") key = .ok false := by
  decide +kernel

open Sample in
/-- A listed buddy with a session is removed and allowed again: it has to be verified for a token
that no line of the store is about. -/
theorem remove_clears_listed :
    let t := (peersRemove shortYaml day true other).final household
    let u := (peersAllow shortYaml day true other).final t
    (peersRemove shortYaml day true other household).2 = .ok (1, 1, false) ∧
      (scanStore t.knownPeers).1.length = 5 ∧ ¬ManifestLists shortYaml (replicate 32 9) t ∧
      (peersAllow shortYaml day true other t).2 = .ok true ∧
      TrustPolicy.decide crypto ⟨none, false⟩ u (lit "later") (replicate 32 9) =
        firstUse other none := by
  intro t u
  have hok : (peersRemove shortYaml day true other household).2 = .ok (1, 1, false) := by
    decide +kernel
  have hallow : (peersAllow shortYaml day true other t).2 = .ok true := by decide +kernel
  obtain ⟨hstore, -, hmanifest, hdecide⟩ := remove_clears crypto shortYaml_lawful rfl hok
  refine ⟨hok, ?_, hmanifest rfl, hallow, ?_⟩
  · exact (congrArg (fun s => (scanStore s).1.length) hstore).trans (by decide +kernel)
  · refine (hdecide day true hallow (by decide +kernel) (lit "later")).trans (congrArg _ ?_)
    decide +kernel

end BuddyNet.Trust
