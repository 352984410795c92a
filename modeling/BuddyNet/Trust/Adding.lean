import BuddyNet.Trust.CommandSpecs
import BuddyNet.Trust.ManifestText

/-!
# What `PeersAdd` leaves behind

`PeersAdd` writes at most two files, the manifest with one more entry and the revocation list
without the key, and both are functions of what it read (`peersAdd_ensures`). The results compare
that with what the readers make of the files afterwards:

* `add_keeps_loadable`: when the manifest can still be loaded, with one entry more at most;
* `add_stores_given`: when the entry of the key is the one that was given and the key is not
  revoked.
-/

namespace BuddyNet.Trust

open Transaction List

variable {y : Yaml} {f : Files} {today : Date}

/-! ### What is written -/

/-- What a successful `PeersAdd` was given, found and wrote. -/
structure Addition (y : Yaml) (today : Date) (f : Files) (key token name expose : Bytes)
    (s : PeerSpec) (existing : List PeerSpec) (es : List RevokedEntry) (res : AddResult)
    (t : Files) : Prop extends Added y today f s existing es res t where
  pin : decodePubKey key = some s.pin
  token : s.token = token
  name : s.name = name
  expose : parseExpose expose = .ok s.expose
  wellFormed : s.WellFormed
  yaml : manifestNeedsMigration f = .ok false

/-- The checks in front of the lock give a well-formed spec. -/
theorem Checked.wellFormed {peersFile : Bool} {key token name expose : Bytes} {r : AddRequest}
    (h : Checked peersFile f key token name expose r) :
    PeerSpec.WellFormed ⟨r.pin, r.token, r.name, r.expose⟩ where
  pin := decodePubKey_length h.pin
  name := by
    rw [h.name_eq]
    exact h.name_valid
  expose := by
    intro s hs
    exact normal_of_parseExpose (h.scope.trans (congrArg Except.ok hs))

/-- **What a successful `PeersAdd` found and wrote.** -/
theorem peersAdd_ensures (y : Yaml) (f : Files) (today : Date) (peersFile : Bool)
    (key token name expose : Bytes) :
    Ensures (peersAdd y today peersFile key token name expose) f fun res t => ∃ s existing es,
      peersFile = true ∧ Addition y today f key token name expose s existing es res t := by
  refine Ensures.read_bind (Ensures.ofExcept_bind fun r hr => ?_)
  have hchecked := peersAddCheck_spec hr
  refine (peersAddLocked_meets y f today r).ensures.mono ?_
  rintro res t ⟨existing, es, hadded⟩
  exact ⟨⟨r.pin, r.token, r.name, r.expose⟩, existing, es, hchecked.file,
    ⟨hadded, hchecked.pin, hchecked.token_eq, hchecked.name_eq, hchecked.scope,
      hchecked.wellFormed, hchecked.modern⟩⟩

/-! ### The manifest afterwards -/

theorem loadPeersFile_congr {t : Files} (h : t.manifest = f.manifest) (peersFile : Bool) :
    loadPeersFile y peersFile t = loadPeersFile y peersFile f := by
  unfold loadPeersFile readManifest
  rw [h]

section

variable {key token name expose : Bytes} {s : PeerSpec} {existing : List PeerSpec}
  {es : List RevokedEntry} {res : AddResult} {t : Files}

theorem Addition.load_listed (h : Addition y today f key token name expose s existing es res t)
    (hlisted : s.pin ∈ existing.map (·.pin)) : loadPeersFile y true t = .ok existing := by
  have hmanifest : t.manifest = f.manifest := by rw [h.written, withSpec, if_pos hlisted]
  rw [loadPeersFile_congr hmanifest, h.manifest]

/-- A new entry can be loaded when the reader accepts its token and the size of the file. -/
theorem Addition.load_new (hy : y.Lawful)
    (h : Addition y today f key token name expose s existing es res t)
    (hnew : s.pin ∉ existing.map (·.pin)) {specs : List PeerSpec} :
    loadPeersFile y true t = .ok specs ↔ specs = existing ++ [s] ∧ tokenOk token ∧
      (manifestText y (existing ++ [s])).length ≤ maxManifestBytes := by
  obtain ⟨hwf, hnodup⟩ := load_wellFormed h.manifest
  have hspecs : ∀ s' ∈ existing ++ [s], s'.WellFormed := by
    intro s' hs'
    rcases mem_append.1 hs' with hs' | hs'
    · exact hwf s' hs'
    · exact mem_singleton.1 hs' ▸ h.wellFormed
  have hpins : ((existing ++ [s]).map (·.pin)).Nodup := by
    rw [map_append]
    refine nodup_append.2 ⟨hnodup, nodup_singleton _, fun p hp p' hp' heq => ?_⟩
    rw [heq, mem_singleton.1 hp'] at hp
    exact hnew hp
  have htext : t.manifest = some (manifestText y (existing ++ [s])) := by
    rw [h.written, withSpec, if_neg hnew]
  have htokens : (∀ s' ∈ existing ++ [s], tokenOk s'.token) ↔ tokenOk s.token := by
    rw [forall_mem_append, forall_mem_singleton]
    exact and_iff_right (load_tokenOk h.yaml h.manifest)
  rw [load_manifestText hy hspecs hpins htext, htokens, h.token]

end

/-- **When an addition leaves a manifest that can be loaded**, with the old entries and at most one
new entry for the key: the key was listed, or the token passes the reader's check, which `PeersAdd`
does not make, and the new file fits the reader's limit. -/
theorem add_keeps_loadable (hy : y.Lawful) {existing : List PeerSpec}
    (hload : loadPeersFile y true f = .ok existing) {peersFile : Bool}
    {key token name expose : Bytes} {res : AddResult}
    (hok : (peersAdd y today peersFile key token name expose f).2 = .ok res) :
    ∃ s : PeerSpec, decodePubKey key = some s.pin ∧ s.token = token ∧ s.name = name ∧
      parseExpose expose = .ok s.expose ∧
      ((∃ specs, loadPeersFile y true
          ((peersAdd y today peersFile key token name expose).final f) = .ok specs ∧
          (specs = existing ∨ ∃ s', s'.pin = s.pin ∧ specs = existing ++ [s'])) ↔
        s.pin ∈ existing.map (·.pin) ∨ tokenOk token ∧
          (manifestText y (existing ++ [s])).length ≤ maxManifestBytes) := by
  obtain ⟨s, existing', es, -, hadd⟩ :=
    peersAdd_ensures y f today peersFile key token name expose res hok
  cases hload.symm.trans hadd.manifest
  refine ⟨s, hadd.pin, hadd.token, hadd.name, hadd.expose, ?_⟩
  by_cases hlisted : s.pin ∈ existing.map (·.pin)
  · exact iff_of_true ⟨existing, hadd.load_listed hlisted, Or.inl rfl⟩ (Or.inl hlisted)
  · rw [or_iff_right hlisted]
    constructor
    · rintro ⟨specs, hspecs, -⟩
      exact ((hadd.load_new hy hlisted).1 hspecs).2
    · intro h
      exact ⟨_, (hadd.load_new hy hlisted).2 ⟨rfl, h⟩, Or.inr ⟨s, rfl, rfl⟩⟩

namespace Sample

/-- A node without files. -/
def newNode : Files := ⟨none, none, none⟩

/-- The session line of a buddy whose key repeats one byte. -/
def sessionOf (c : UInt8) (secret : Bytes) : Bytes :=
  lit "hash " ++ pubKeyB64 (replicate 32 c) ++ lit " " ++ secret

/-- A node with two buddies in its manifest and four others: it has a session with one of the two
and with three more, twice with a revoked one, and it has revoked the other of the two as well. -/
def household : Files :=
  { knownPeers := some (Go.unlines [sessionOf 9 (lit "a"), sessionOf 8 (lit "b"),
      tokenKey crypto (lit "invite") ++ lit " " ++ other, sessionOf 5 (lit "c"),
      sessionOf 8 (lit "d"), sessionOf 6 (lit "e")])
    revoked := some (Go.unlines [pubKeyB64 key,
      pubKeyB64 (replicate 32 8) ++ lit " # lost laptop"])
    manifest := some (writeEntries (twoBuddies.map PeerSpec.toManifest)) }

theorem household_manifest : loadPeersFile shortYaml true household = .ok twoBuddies := by
  decide +kernel

theorem household_revoked : loadRevoked household.revoked = .ok
    [⟨pubKeyB64 key, []⟩, ⟨pubKeyB64 (replicate 32 8), lit "lost laptop"⟩] := by
  decide +kernel

end Sample

open Sample in
/-- A token with a dot is written into the manifest, and then the manifest cannot be loaded. -/
theorem add_keeps_loadable_fails :
    shortYaml.Lawful ∧ loadPeersFile shortYaml true newNode = .ok [] ∧
      (peersAdd shortYaml day true other (lit "tok.en") [] [] newNode).2 = .ok .added ∧
      ∀ specs, loadPeersFile shortYaml true
        ((peersAdd shortYaml day true other (lit "tok.en") [] []).final newNode) ≠ .ok specs := by
  have hok : (peersAdd shortYaml day true other (lit "tok.en") [] [] newNode).2 = .ok .added := by
    decide +kernel
  refine ⟨shortYaml_lawful, rfl, hok, fun specs hspecs => ?_⟩
  obtain ⟨s, existing, es, -, hadd⟩ := peersAdd_ensures _ _ _ _ _ _ _ _ _ hok
  cases hadd.manifest
  obtain ⟨-, htoken, -⟩ := (hadd.load_new shortYaml_lawful not_mem_nil).1 hspecs
  exact absurd htoken (by decide)

open Sample in
theorem add_keeps_loadable_third :
    let newcomer := pubKeyB64 (replicate 32 6)
    (peersAdd shortYaml day true newcomer (lit "token") (lit "bob") (lit "873") household).2 =
        .ok .added ∧
      ∃ specs, loadPeersFile shortYaml true ((peersAdd shortYaml day true newcomer (lit "token")
          (lit "bob") (lit "873")).final household) = .ok specs ∧
        (specs = twoBuddies ∨
          ∃ s' : PeerSpec, s'.pin = replicate 32 6 ∧ specs = twoBuddies ++ [s']) := by
  intro newcomer
  have hok : (peersAdd shortYaml day true newcomer (lit "token") (lit "bob") (lit "873")
      household).2 = .ok .added := by decide +kernel
  obtain ⟨⟨pin, token, name, scope⟩, hpin, rfl, rfl, hscope, hiff⟩ :=
    add_keeps_loadable shortYaml_lawful household_manifest hok
  have hkey : decodePubKey newcomer = some (replicate 32 6) := decodePubKey_pubKeyB64 rfl
  have hports : parseExpose (lit "873") = .ok (some { ports := [⟨.tcp, 873⟩] }) := by decide +kernel
  cases hkey.symm.trans hpin
  cases hports.symm.trans hscope
  obtain ⟨specs, hspecs, hcases⟩ :=
    hiff.2 (Or.inr ⟨by decide, fits_of_marshal (by decide +kernel)⟩)
  exact ⟨hok, specs, hspecs, hcases⟩

/-! ### The entry and the revocation list afterwards -/

/-- The manifest is a YAML document with one entry for the key, and this is what the entry says. -/
def Stored (y : Yaml) (t : Files) (pin token name : Bytes) (expose : Option Nft.Scope) : Prop :=
  ∃ data bs b, t.manifest = some data ∧ manifestIsLegacy data = false ∧ y.decode data = .doc bs ∧
    bs.filter (fun b => decodePubKey b.key = some pin) = [b] ∧
    b.token = token ∧ b.name = name ∧ b.decodeExpose = .ok (b, expose)

theorem spec_fields {b : Buddy} {s : PeerSpec} (h : b.spec = .ok s) :
    b.token = s.token ∧ b.name = s.name ∧ b.decodeExpose = .ok (b, s.expose) := by
  obtain ⟨expose, hdec, hspec⟩ := spec_eq_ok.1 h
  unfold Buddy.toSpec at hspec
  split at hspec
  · cases hspec
  split at hspec
  · cases hspec
  · split_ifs at hspec
    cases hspec
    exact ⟨rfl, rfl, hdec⟩

/-- The entries of a document that was loaded, for one of its keys. -/
theorem filter_of_gives {bs : List Buddy} {specs : List PeerSpec}
    (h : Gather.Gives Buddy.spec bs specs) (hnodup : (specs.map (·.pin)).Nodup) {s : PeerSpec}
    (hs : s ∈ specs) :
    ∃ b, b.spec = .ok s ∧ bs.filter (fun b => decodePubKey b.key = some s.pin) = [b] := by
  induction h with
  | nil => cases hs
  | @cons b s' bs specs hb hrest ih =>
    obtain ⟨hhead, htail⟩ := nodup_cons.1 hnodup
    have hpin := spec_pin hb
    rcases mem_cons.1 hs with rfl | hs
    · refine ⟨b, hb, ?_⟩
      rw [filter_cons_of_pos (by simpa using hpin)]
      congr 1
      refine filter_eq_nil_iff.2 fun b' hb' => ?_
      obtain ⟨s', hs', hspec⟩ := Gather.Gives.exists_of_mem hrest hb'
      rw [spec_pin hspec, decide_eq_true_iff]
      intro heq
      exact hhead (mem_map.2 ⟨s', hs', Option.some.inj heq⟩)
    · obtain ⟨b', hb', hfilter⟩ := ih htail hs
      refine ⟨b', hb', ?_⟩
      rw [filter_cons_of_neg, hfilter]
      rw [hpin, decide_eq_true_iff]
      intro heq
      exact hhead (mem_map.2 ⟨s, hs, (Option.some.inj heq).symm⟩)

section

variable {key token name expose : Bytes} {s : PeerSpec} {existing : List PeerSpec}
  {es : List RevokedEntry} {res : AddResult} {t : Files}

theorem Addition.stored_new (hy : y.Lawful)
    (h : Addition y today f key token name expose s existing es res t)
    (hnew : s.pin ∉ existing.map (·.pin)) : Stored y t s.pin token name s.expose := by
  obtain ⟨hwf, -⟩ := load_wellFormed h.manifest
  have htext : t.manifest = some (manifestText y (existing ++ [s])) := by
    rw [h.written, withSpec, if_neg hnew]
  refine ⟨_, _, s.toManifest, htext, manifestIsLegacy_manifestText hy _, hy.decode_marshal _, ?_,
    h.token, h.name, decodeExpose_toManifest h.wellFormed⟩
  have hkey : ∀ s' : PeerSpec, s'.WellFormed → decodePubKey s'.toManifest.key = some s'.pin :=
    fun s' hs' => decodePubKey_pubKeyB64 hs'.pin
  rw [map_append, filter_append, filter_eq_nil_iff.2, nil_append]
  · rw [map_singleton, filter_singleton, hkey s h.wellFormed]
    simp
  · intro b hb
    obtain ⟨s', hs', rfl⟩ := mem_map.1 hb
    rw [hkey s' (hwf s' hs'), decide_eq_true_iff]
    intro heq
    exact hnew (mem_map.2 ⟨s', hs', Option.some.inj heq⟩)

variable (h : Addition y today f key token name expose s existing es res t)
include h

/-- An entry that was there is left as it was. -/
theorem Addition.stored_listed (hlisted : s.pin ∈ existing.map (·.pin)) :
    Stored y t s.pin token name s.expose ↔ ∀ e ∈ existing, e.pin = s.pin → e = s := by
  have hmanifest : t.manifest = f.manifest := by rw [h.written, withSpec, if_pos hlisted]
  obtain ⟨e, he, hpin⟩ := mem_map.1 hlisted
  obtain ⟨data, ⟨hdata, hfits, hyaml⟩, bs, hdoc, hgives, hnodup⟩ : ∃ data, YAMLFile f data ∧
      ∃ bs, y.decode data = .doc bs ∧ Gather.Gives Buddy.spec bs existing ∧
        (existing.map (·.pin)).Nodup := by
    rcases (loadPeersFile_yaml h.yaml).1 h.manifest with ⟨-, rfl⟩ | ⟨data, hfile, hparse⟩
    · cases he
    · rcases parseYAMLManifest_eq_ok.1 hparse with ⟨-, rfl⟩ | hdoc
      · cases he
      · exact ⟨data, hfile, hdoc⟩
  obtain ⟨b, hspec, hfilter⟩ := filter_of_gives hgives hnodup he
  obtain ⟨htoken, hname, hdec⟩ := spec_fields hspec
  rw [hpin] at hfilter
  constructor
  · rintro ⟨data', bs', b', hdata', -, hdoc', hfilter', htoken', hname', hdec'⟩ e' he' hpin'
    obtain rfl : data = data' := Option.some.inj (hdata.symm.trans (hmanifest.symm.trans hdata'))
    cases hdoc.symm.trans hdoc'
    cases hfilter.symm.trans hfilter'
    obtain rfl : e' = e := inj_on_of_nodup_map hnodup he' he (hpin'.trans hpin.symm)
    have hetoken : e'.token = s.token := htoken.symm.trans (htoken'.trans h.token.symm)
    have hename : e'.name = s.name := hname.symm.trans (hname'.trans h.name.symm)
    cases e'
    cases s
    simp_all
  · intro hall
    obtain rfl := hall e he hpin
    exact ⟨data, bs, b, hmanifest.trans hdata, hyaml, hdoc, hfilter, htoken.trans h.token,
      hname.trans h.name, hdec⟩

/-- The list can be read afterwards, unless a line that was rewritten is too long. -/
theorem Addition.readable_iff :
    (∃ es', loadRevoked t.revoked = .ok es') ↔ (pubKeyB64 s.pin ∈ es.map (·.key) →
      ∀ e ∈ es, e.key ≠ pubKeyB64 s.pin → (e.line today).length < Go.maxScanTokenSize) := by
  have hrevoked : t.revoked = withoutKey today es (pubKeyB64 s.pin) f.revoked := by rw [h.written]
  rw [hrevoked, withoutKey]
  by_cases hmem : pubKeyB64 s.pin ∈ es.map (·.key)
  · have hloaded := (loadRevoked_loaded h.revoked).filter (·.key ≠ pubKeyB64 s.pin)
    rw [if_pos hmem, forall_prop_of_true hmem, exists_loadRevoked_revokedText hloaded]
    simp only [mem_filter, decide_eq_true_eq, and_imp]
  · rw [if_neg hmem]
    exact iff_of_true ⟨es, h.revoked⟩ fun hin => absurd hin hmem

theorem Addition.mem_revoked
    {es' : List RevokedEntry} (hes' : loadRevoked t.revoked = .ok es') (k : Bytes) :
    k ∈ es'.map (·.key) ↔ k ∈ es.map (·.key) ∧ k ≠ pubKeyB64 s.pin := by
  have hrevoked : t.revoked = withoutKey today es (pubKeyB64 s.pin) f.revoked := by rw [h.written]
  rw [hrevoked, withoutKey] at hes'
  split_ifs at hes' with hmem
  · rw [mem_revokedText ((loadRevoked_loaded h.revoked).filter _) hes', mem_keys_filter]
  · cases h.revoked.symm.trans hes'
    refine (and_iff_left_of_imp ?_).symm
    rintro hin rfl
    exact hmem hin

theorem Addition.isRevoked_iff :
    isRevoked t (pubKeyB64 s.pin) = .ok false ↔ (pubKeyB64 s.pin ∈ es.map (·.key) →
      ∀ e ∈ es, e.key ≠ pubKeyB64 s.pin → (e.line today).length < Go.maxScanTokenSize) := by
  rw [← h.readable_iff, isRevoked_eq_ok]
  constructor
  · rintro ⟨es', hes', -⟩
    exact ⟨es', hes'⟩
  · rintro ⟨es', hes'⟩
    exact ⟨es', hes', iff_of_false (by decide) fun hin => ((h.mem_revoked hes' _).1 hin).2 rfl⟩

end

/-- **When an addition stores what it was given** and the key is not revoked any more, if it does
not report the buddy as already listed. A listed key was revoked then. The condition is that an
entry that was there was the same, and that the revocation list can be read if it was rewritten. -/
theorem add_stores_given (hy : y.Lawful) {peersFile : Bool} {key token name expose : Bytes}
    {res : AddResult} (hok : (peersAdd y today peersFile key token name expose f).2 = .ok res)
    (hnew : res ≠ .alreadyListed) :
    ∃ s existing es, decodePubKey key = some s.pin ∧ s.token = token ∧ s.name = name ∧
      parseExpose expose = .ok s.expose ∧ loadPeersFile y true f = .ok existing ∧
      loadRevoked f.revoked = .ok es ∧
      (s.pin ∈ existing.map (·.pin) → pubKeyB64 s.pin ∈ es.map (·.key)) ∧
      (Stored y ((peersAdd y today peersFile key token name expose).final f) s.pin token name
            s.expose ∧
          isRevoked ((peersAdd y today peersFile key token name expose).final f) (pubKeyB64 s.pin) =
            .ok false ↔
        (∀ e ∈ existing, e.pin = s.pin → e = s) ∧
          (pubKeyB64 s.pin ∈ es.map (·.key) → ∀ e ∈ es, e.key ≠ pubKeyB64 s.pin →
            (e.line today).length < Go.maxScanTokenSize)) := by
  obtain ⟨s, existing, es, -, hadd⟩ :=
    peersAdd_ensures y f today peersFile key token name expose res hok
  refine ⟨s, existing, es, hadd.pin, hadd.token, hadd.name, hadd.expose, hadd.manifest,
    hadd.revoked, fun hlisted => ?_, ?_⟩
  · by_contra hfree
    exact hnew (hadd.result.2 ⟨hlisted, hfree⟩)
  have hstored : Stored y ((peersAdd y today peersFile key token name expose).final f) s.pin token
      name s.expose ↔ ∀ e ∈ existing, e.pin = s.pin → e = s := by
    by_cases hlisted : s.pin ∈ existing.map (·.pin)
    · exact hadd.stored_listed hlisted
    · refine iff_of_true (hadd.stored_new hy hlisted) fun e he hpin => ?_
      exact absurd (mem_map.2 ⟨e, he, hpin⟩) hlisted
  exact and_congr hstored hadd.isRevoked_iff

open Sample in
/-- A node that has revoked a buddy, whom its manifest still lists. -/
def Sample.halfRemoved : Files :=
  { revokedNode with manifest := some (writeEntries [⟨[], pubKeyB64 key, lit "old", none⟩]) }

open Sample in
/-- The buddy is allowed again, with the entry that was there and not the one that was given. -/
theorem add_stores_given_fails :
    isRevoked halfRemoved (pubKeyB64 key) = .ok true ∧
      (peersAdd shortYaml day true (pubKeyB64 key) (lit "new") (lit "bob") [] halfRemoved).2 =
        .ok .allowedAgain ∧
      loadPeersFile shortYaml true ((peersAdd shortYaml day true (pubKeyB64 key) (lit "new")
        (lit "bob") []).final halfRemoved) = .ok [⟨key, lit "old", [], none⟩] := by
  decide +kernel

open Sample in
/-- The same for an entry that was there with the token, the name and the scope that are given. -/
theorem add_stores_given_again :
    isRevoked household (pubKeyB64 key) = .ok true ∧
      (peersAdd shortYaml day true (pubKeyB64 key) (lit "token") (lit "nas") (lit "udp/53, 873")
        household).2 = .ok .allowedAgain ∧
      let t := (peersAdd shortYaml day true (pubKeyB64 key) (lit "token") (lit "nas")
        (lit "udp/53, 873")).final household
      Stored shortYaml t key (lit "token") (lit "nas")
          (some { ports := [⟨.tcp, 873⟩, ⟨.udp, 53⟩] }) ∧
        isRevoked t (pubKeyB64 key) = .ok false := by
  have hok : (peersAdd shortYaml day true (pubKeyB64 key) (lit "token") (lit "nas")
      (lit "udp/53, 873") household).2 = .ok .allowedAgain := by decide +kernel
  obtain ⟨⟨pin, token, name, scope⟩, existing, es, hpin, rfl, rfl, hscope, hload, hes, -, hiff⟩ :=
    add_stores_given shortYaml_lawful hok (by decide)
  have hkey : decodePubKey (pubKeyB64 key) = some key := decodePubKey_pubKeyB64 rfl
  have hports : parseExpose (lit "udp/53, 873") =
      .ok (some { ports := [⟨.tcp, 873⟩, ⟨.udp, 53⟩] }) := by decide +kernel
  cases hkey.symm.trans hpin
  cases hports.symm.trans hscope
  cases household_manifest.symm.trans hload
  cases household_revoked.symm.trans hes
  exact ⟨by decide +kernel, hok, hiff.2 ⟨by decide +kernel, fun _ => by decide +kernel⟩⟩

end BuddyNet.Trust
