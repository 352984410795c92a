import BuddyNet.Trust.ManifestText

/-!
# Migrating a manifest

`PeersMigrate` loads a manifest in the old format and writes it as YAML. The old format takes any
text without white space for a token; the reader of the new one does not. So a migration can turn a
manifest that is loaded into one that is not.

`migrate_keeps_meaning`: when the migrated manifest has the keys and tokens of the old one.
-/

namespace BuddyNet.Trust

open Transaction List

variable {y : Yaml} {d : Disk} {specs : List PeerSpec}

theorem peersMigrate_ensures (y : Yaml) (d : Disk) {data : Bytes} (hfile : LegacyFile d.files data)
    (hload : loadPeersFile y true d.files = .ok specs) (peersFile : Bool) :
    Ensures (peersMigrate y peersFile) d fun _ t => t.backup = some data ∧
      t.files = { d.files with manifest := some (manifestText y specs) } := by
  have hlegacy : manifestNeedsMigration d.files = .ok true :=
    manifestNeedsMigration_eq_ok.2 (Or.inr (Or.inl ⟨⟨data, hfile⟩, rfl⟩))
  cases peersFile with
  | false => exact Ensures.throw
  | true =>
    refine Ensures.read_bind (Ensures.ofExcept_bind fun legacy hl => ?_)
    cases hlegacy.symm.trans hl
    refine Ensures.ofExcept_bind fun specs' hspecs' => ?_
    cases hload.symm.trans hspecs'
    rw [hfile.1]
    exact Ensures.write_bind (Ensures.write_bind (Ensures.pure ⟨rfl, rfl⟩))

/-- The old format has neither names nor scopes. -/
theorem legacy_plain {data : Bytes} (hfile : LegacyFile d.files data)
    (hload : loadPeersFile y true d.files = .ok specs) :
    ∀ s ∈ specs, s.name = [] ∧ s.expose = none := by
  intro s hs
  rcases loadPeersFile_eq_ok.1 hload with ⟨hnone, -⟩ | ⟨data', -, hparse⟩ | ⟨data', hyaml, -⟩
  · rw [hfile.1] at hnone
    cases hnone
  · obtain ⟨-, hgives, -⟩ := parseLegacyManifest_eq_ok.1 hparse
    obtain ⟨line, -, hline⟩ := hgives.mem hs
    obtain ⟨pin, token, -, rfl⟩ := legacyEntry_eq_ok hline
    exact ⟨rfl, rfl⟩
  · cases hfile.1.symm.trans hyaml.1
    have hold := hfile.2.2
    rw [hyaml.2.2] at hold
    cases hold

/-- **When a migration keeps the meaning of the manifest**: the keys and tokens, without names and
scopes, and the backup has the old bytes. It does when the new reader accepts the old tokens and the
size of the new file. -/
theorem migrate_keeps_meaning (hy : y.Lawful) {data : Bytes} (hfile : LegacyFile d.files data)
    {specs : List PeerSpec} (hload : loadPeersFile y true d.files = .ok specs) {peersFile : Bool}
    {r : Bool} (hok : (peersMigrate y peersFile d).2 = .ok r) :
    (∃ specs', loadPeersFile y true ((peersMigrate y peersFile).final d).files = .ok specs' ∧
        specs'.map (fun s => (s.pin, s.token)) = specs.map (fun s => (s.pin, s.token)) ∧
        (∀ s ∈ specs', s.name = [] ∧ s.expose = none) ∧
        ((peersMigrate y peersFile).final d).backup = some data) ↔
      (∀ s ∈ specs, tokenOk s.token) ∧ (manifestText y specs).length ≤ maxManifestBytes := by
  obtain ⟨hbackup, hfiles⟩ := peersMigrate_ensures y d hfile hload peersFile r hok
  obtain ⟨hwf, hnodup⟩ := load_wellFormed hload
  have htext : ((peersMigrate y peersFile).final d).files.manifest =
      some (manifestText y specs) := by
    rw [hfiles]
  constructor
  · rintro ⟨specs', hspecs', -⟩
    exact ((load_manifestText hy hwf hnodup htext).1 hspecs').2
  · intro h
    exact ⟨specs, (load_manifestText hy hwf hnodup htext).2 ⟨rfl, h⟩, rfl, legacy_plain hfile hload,
      hbackup⟩

namespace Sample

/-- A manifest in the old format with one buddy. -/
def oldDisk (token : Bytes) : Disk :=
  ⟨⟨none, none, some (pubKeyB64 (replicate 32 7) ++ lit " " ++ token)⟩, none⟩

end Sample

open Sample in
/-- A token with a dot can be loaded from the old manifest, and not from the migrated one. -/
theorem migrate_keeps_meaning_fails :
    shortYaml.Lawful ∧ manifestNeedsMigration (oldDisk (lit "tok.en")).files = .ok true ∧
      loadPeersFile shortYaml true (oldDisk (lit "tok.en")).files =
        .ok [{ pin := replicate 32 7, token := lit "tok.en" }] ∧
      (peersMigrate shortYaml true (oldDisk (lit "tok.en"))).2 = .ok true ∧
      ∀ specs, loadPeersFile shortYaml true
        ((peersMigrate shortYaml true).final (oldDisk (lit "tok.en"))).files ≠ .ok specs := by
  have hload : loadPeersFile shortYaml true (oldDisk (lit "tok.en")).files =
      .ok [{ pin := replicate 32 7, token := lit "tok.en" }] := by decide +kernel
  have hok : (peersMigrate shortYaml true (oldDisk (lit "tok.en"))).2 =
      .ok true := by decide +kernel
  refine ⟨shortYaml_lawful, by decide +kernel, hload, hok, fun specs hspecs => ?_⟩
  obtain ⟨-, hfiles⟩ := peersMigrate_ensures shortYaml _ ⟨rfl, by decide +kernel, by decide +kernel⟩
    hload true _ hok
  obtain ⟨hwf, hnodup⟩ := load_wellFormed hload
  obtain ⟨-, htokens, -⟩ :=
    (load_manifestText shortYaml_lawful hwf hnodup (by rw [hfiles])).1 hspecs
  exact absurd (htokens _ mem_cons_self) (by decide)

open Sample in
theorem migrate_keeps_meaning_token :
    ∃ specs', loadPeersFile shortYaml true
        ((peersMigrate shortYaml true).final (oldDisk (lit "token"))).files = .ok specs' ∧
      specs'.map (fun s => (s.pin, s.token)) = [(replicate 32 7, lit "token")] := by
  have hload : loadPeersFile shortYaml true (oldDisk (lit "token")).files =
      .ok [{ pin := replicate 32 7, token := lit "token" }] := by decide +kernel
  have hok : (peersMigrate shortYaml true (oldDisk (lit "token"))).2 = .ok true := by decide +kernel
  obtain ⟨specs', hspecs', hsame, -⟩ := (migrate_keeps_meaning shortYaml_lawful
    ⟨rfl, by decide +kernel, by decide +kernel⟩ hload hok).2
    ⟨by decide, fits_of_marshal (by decide +kernel)⟩
  exact ⟨specs', hspecs', hsame⟩

end BuddyNet.Trust
