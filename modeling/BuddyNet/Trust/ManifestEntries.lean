import BuddyNet.Go.Lines
import BuddyNet.Library.Gather
import BuddyNet.Trust.Manifest

/-!
# What a manifest lists

A manifest that was written is read as YAML again and lists the keys that were written
(`manifestLists_manifestText`), and every spec that is loaded from a YAML manifest comes from an
entry of the document (`manifestLists_of_load`).
-/

namespace BuddyNet.Trust

open List Go

variable {y : Yaml} {f : Files} {K : Bytes}

/-- The manifest is a YAML document with an entry for the key. -/
def ManifestLists (y : Yaml) (K : Bytes) (f : Files) : Prop :=
  ∃ data bs b, f.manifest = some data ∧ manifestIsLegacy data = false ∧ y.decode data = .doc bs ∧
    b ∈ bs ∧ decodePubKey b.key = some K

/-- The lines of the header are short comments. -/
theorem manifestHeader_line : ∀ l ∈ manifestHeader, nl ∉ l ∧ l.length < 100 ∧
    isContent (trimSpace (dropCR l)) = false := by
  unfold manifestHeader
  repeat rw [lit_ofList]
  decide +kernel

/-- A manifest that was written is not taken for the old format. -/
theorem manifestIsLegacy_manifestText (hy : y.Lawful) (specs : List PeerSpec) :
    manifestIsLegacy (manifestText y specs) = false := by
  obtain ⟨line, rest, hmarshal, hline⟩ := hy.first_line (specs.map PeerSpec.toManifest)
  have htext : manifestText y specs = unlines (manifestHeader ++ [line]) ++ rest := by
    rw [manifestText, hmarshal, unlines_append, append_assoc, unlines_cons]
    simp
  have hfirst : nl ∉ line ∧ line.length < maxScanTokenSize ∧
      isContent (trimSpace (dropCR line)) = true ∧
      (decodePubKey ((fields (trimSpace (dropCR line))).headD [])).isSome = false := by
    rcases hline with rfl | rfl <;> decide +kernel
  obtain ⟨hnl, hshort, hcontent, hkey⟩ := hfirst
  have hfit : ∀ l ∈ manifestHeader ++ [line], nl ∉ l ∧ l.length < maxScanTokenSize := by
    intro l hl
    rcases mem_append.1 hl with hl | hl
    · obtain ⟨hno, hlen, -⟩ := manifestHeader_line l hl
      exact ⟨hno, hlen.trans (by decide)⟩
    · exact mem_singleton.1 hl ▸ ⟨hnl, hshort⟩
  -- The first line that is no comment is the name of the list.
  have hfind : (((manifestHeader ++ [line]).map dropCR).map trimSpace).find? isContent =
      some (trimSpace (dropCR line)) := by
    rw [map_map, map_append, find?_append]
    have hnone : (manifestHeader.map (trimSpace ∘ dropCR)).find? isContent = none := by
      refine find?_eq_none.2 fun t ht => ?_
      obtain ⟨l, hl, rfl⟩ := mem_map.1 ht
      exact Bool.eq_false_iff.1 (manifestHeader_line l hl).2.2
    rw [hnone, Option.none_or]
    exact find?_cons_of_pos hcontent
  have hscan : (scanLines (unlines (manifestHeader ++ [line]) ++ rest)).1 =
      (manifestHeader ++ [line]).map dropCR ++ (scanLines rest).1 := by
    rw [scanLines_unlines_append hfit]
  rw [manifestIsLegacy, htext, hscan, map_append, find?_append, hfind]
  exact hkey

/-! ### The YAML format -/

/-- What an entry of the document says. -/
def Buddy.spec (b : Buddy) : Except TrustError PeerSpec :=
  b.decodeExpose >>= fun e => e.1.toSpec e.2

/-- The error for a key that is listed twice. -/
def duplicate (s : PeerSpec) : TrustError := .duplicateKey (pubKeyB64 s.pin)

theorem addSpec_eq (specs : List PeerSpec) (s : PeerSpec) :
    addSpec specs s = Gather.step (fun s => .ok s) (·.pin) duplicate specs s := by
  unfold addSpec
  by_cases hmem : s.pin ∈ specs.map (·.pin)
  · rw [if_pos hmem]
    exact (if_pos hmem).symm
  · rw [if_neg hmem]
    exact (if_neg hmem).symm

theorem yamlEntry_eq : yamlEntry = Gather.step (fun e => e.1.toSpec e.2) (·.pin) duplicate := by
  funext specs e
  unfold yamlEntry Gather.step
  dsimp only
  cases e.1.toSpec e.2 with
  | error err => rfl
  | ok s => exact addSpec_eq specs s

variable {data : Bytes} {specs : List PeerSpec}

/-- **A YAML manifest is loaded** exactly when every entry can be read and no key is listed
twice. -/
theorem parseYAMLManifest_eq_ok :
    parseYAMLManifest y data = .ok specs ↔ y.decode data = .eof ∧ specs = [] ∨
      ∃ bs, y.decode data = .doc bs ∧ Gather.Gives Buddy.spec bs specs ∧
        (specs.map (·.pin)).Nodup := by
  unfold parseYAMLManifest
  cases hdoc : y.decode data with
  | eof => simp [eq_comm]
  | error => simp
  | doc bs =>
    have hgives : Gather.Gives Buddy.spec bs specs ↔ ∃ entries,
        Gather.Gives Buddy.decodeExpose bs entries ∧
          Gather.Gives (fun e => e.1.toSpec e.2) entries specs := Gather.gives_bind
    simp only [reduceCtorEq, false_and, false_or, Decoded.doc.injEq, exists_eq_left', hgives]
    cases hentries : bs.mapM Buddy.decodeExpose with
    | error e =>
      have hnone : ∀ entries, ¬Gather.Gives Buddy.decodeExpose bs entries := fun entries h => by
        rw [← Gather.mapM_eq_ok, hentries] at h
        cases h
      simp [bind, Except.bind, hnone]
    | ok entries =>
      have hsome : ∀ entries', Gather.Gives Buddy.decodeExpose bs entries' ↔ entries = entries' :=
        fun entries' => by rw [← Gather.mapM_eq_ok, hentries, Except.ok.injEq]
      simp only [hsome, exists_eq_left']
      rw [yamlEntry_eq]
      exact Gather.foldlM_step_eq_ok

variable {b : Buddy}

theorem decodeExpose_fst {e : Buddy × Option Nft.Scope} (h : b.decodeExpose = .ok e) : e.1 = b := by
  unfold Buddy.decodeExpose at h
  split at h
  · cases h
    rfl
  · split at h
    · cases h
      rfl
    · cases h

variable {s : PeerSpec}

theorem toSpec_pin {expose : Option Nft.Scope}
    (h : b.toSpec expose = .ok s) : decodePubKey b.key = some s.pin := by
  unfold Buddy.toSpec at h
  split at h
  · cases h
  split at h
  · cases h
  · next pin hpin =>
    split at h
    · cases h
    split at h
    · cases h
      exact hpin
    · cases h

theorem spec_eq_ok : b.spec = .ok s ↔
    ∃ expose, b.decodeExpose = .ok (b, expose) ∧ b.toSpec expose = .ok s := by
  unfold Buddy.spec
  cases he : b.decodeExpose with
  | error e => simp [bind, Except.bind]
  | ok e =>
    obtain ⟨b', expose⟩ := e
    obtain rfl : b' = b := decodeExpose_fst he
    simp [bind, Except.bind]

theorem spec_pin (h : b.spec = .ok s) : decodePubKey b.key = some s.pin := by
  obtain ⟨expose, -, hspec⟩ := spec_eq_ok.1 h
  exact toSpec_pin hspec

theorem parseYAMLManifest_mem (h : parseYAMLManifest y data = .ok specs) (hs : s ∈ specs) :
    ∃ bs b, y.decode data = .doc bs ∧ b ∈ bs ∧ decodePubKey b.key = some s.pin := by
  rcases parseYAMLManifest_eq_ok.1 h with ⟨-, rfl⟩ | ⟨bs, hdoc, hgives, -⟩
  · cases hs
  · obtain ⟨b, hb, hspec⟩ := hgives.mem hs
    exact ⟨bs, b, hdoc, hb, spec_pin hspec⟩

/-! ### The old format -/

/-- What a line of the old format says. -/
def legacyEntry (line : Bytes × ℕ) : Except TrustError PeerSpec :=
  let fields := fields (trimSpace line.1)
  if 2 < fields.length then .error (.legacyFields line.2 fields.length)
  else match decodePubKey (fields.headD []) with
    | none => .error .badKey
    | some pin => .ok { pin := pin, token := fields.getD 1 [] }

variable {line : Bytes × ℕ}

theorem legacyLine_of_content (specs : List PeerSpec) (h : isContent (trimSpace line.1) = true) :
    legacyLine specs line = Gather.step legacyEntry (·.pin) duplicate specs line := by
  unfold legacyLine Gather.step legacyEntry
  dsimp only
  split_ifs with hfields
  · rfl
  · cases decodePubKey ((fields (trimSpace line.1)).headD []) with
    | none => rfl
    | some pin => exact addSpec_eq specs _

/-- The lines of the old format that are neither blank nor comments, with their numbers. -/
def contentLines (data : Bytes) : List (Bytes × ℕ) :=
  ((scanLines data).1.zipIdx 1).filter fun line => isContent (trimSpace line.1)

/-- **A manifest in the old format is loaded** exactly when it can be read to its end, every line
names a key and at most a token, and no key is listed twice. -/
theorem parseLegacyManifest_eq_ok :
    parseLegacyManifest data = .ok specs ↔ (scanLines data).2 = false ∧
      Gather.Gives legacyEntry (contentLines data) specs ∧ (specs.map (·.pin)).Nodup := by
  have hfold : ((scanLines data).1.zipIdx 1).foldlM legacyLine [] =
      (contentLines data).foldlM (Gather.step legacyEntry (·.pin) duplicate) [] :=
    Gather.foldlM_filter (fun specs line hblank => by simp [legacyLine, hblank])
      (fun specs line => legacyLine_of_content specs) _ _
  have hloop : (contentLines data).foldlM (Gather.step legacyEntry (·.pin) duplicate) [] =
      .ok specs ↔ _ := Gather.foldlM_step_eq_ok
  rw [← hloop, ← hfold]
  unfold parseLegacyManifest
  dsimp only
  cases ((scanLines data).1.zipIdx 1).foldlM legacyLine [] with
  | error e => simp [bind, Except.bind]
  | ok res => cases (scanLines data).2 <;> simp [bind, Except.bind]

theorem legacyEntry_eq_ok (h : legacyEntry line = .ok s) :
    ∃ pin token, decodePubKey ((fields (trimSpace line.1)).headD []) = some pin ∧
      s = { pin := pin, token := token } := by
  simp only [legacyEntry] at h
  split_ifs at h
  split at h
  · cases h
  · next pin hpin =>
    cases h
    exact ⟨pin, _, hpin, rfl⟩

/-! ### Loading -/

/-- The manifest is there, fits the limit and is in the YAML format. -/
def YAMLFile (f : Files) (data : Bytes) : Prop :=
  f.manifest = some data ∧ data.length ≤ maxManifestBytes ∧ manifestIsLegacy data = false

/-- The manifest is there, fits the limit and is in the old format. -/
def LegacyFile (f : Files) (data : Bytes) : Prop :=
  f.manifest = some data ∧ data.length ≤ maxManifestBytes ∧ manifestIsLegacy data = true

theorem readManifest_bind_eq_ok {α : Type} {k : Option Bytes → Except TrustError α} {a : α} :
    (readManifest f).bind k = .ok a ↔ f.manifest = none ∧ k none = .ok a ∨
      ∃ data, f.manifest = some data ∧ data.length ≤ maxManifestBytes ∧ k data = .ok a := by
  unfold readManifest
  cases f.manifest with
  | none => simp [Except.bind]
  | some data =>
    by_cases hsize : maxManifestBytes < data.length
    · simp [hsize, Except.bind]
    · simp [hsize, not_lt.1 hsize, Except.bind]

/-- The three ways to load a manifest. -/
theorem loadPeersFile_eq_ok : loadPeersFile y true f = .ok specs ↔
    f.manifest = none ∧ specs = [] ∨
    (∃ data, LegacyFile f data ∧ parseLegacyManifest data = .ok specs) ∨
    ∃ data, YAMLFile f data ∧ parseYAMLManifest y data = .ok specs := by
  unfold loadPeersFile LegacyFile YAMLFile
  rw [if_pos rfl]
  refine readManifest_bind_eq_ok.trans ?_
  rw [← exists_or, Except.ok.injEq, @eq_comm _ []]
  refine or_congr_right (exists_congr fun data => ?_)
  cases hlegacy : manifestIsLegacy data <;> simp [hlegacy, and_assoc]

theorem manifestNeedsMigration_eq_ok {legacy : Bool} : manifestNeedsMigration f = .ok legacy ↔
    f.manifest = none ∧ legacy = false ∨ (∃ data, LegacyFile f data) ∧ legacy = true ∨
      (∃ data, YAMLFile f data) ∧ legacy = false := by
  unfold manifestNeedsMigration LegacyFile YAMLFile
  refine readManifest_bind_eq_ok.trans ?_
  cases legacy <;> simp

/-- A manifest that needs no migration is loaded as YAML, or is not there. -/
theorem loadPeersFile_yaml (hlegacy : manifestNeedsMigration f = .ok false) :
    loadPeersFile y true f = .ok specs ↔ f.manifest = none ∧ specs = [] ∨
      ∃ data, YAMLFile f data ∧ parseYAMLManifest y data = .ok specs := by
  rw [loadPeersFile_eq_ok]
  have hnot : ∀ data, ¬LegacyFile f data := by
    rintro data ⟨hdata, -, hold⟩
    rcases manifestNeedsMigration_eq_ok.1 hlegacy with ⟨hnone, -⟩ | ⟨-, hcontra⟩ | ⟨⟨data', hnew⟩,
      -⟩
    · rw [hdata] at hnone
      cases hnone
    · cases hcontra
    · obtain rfl : data = data' := Option.some.inj (hdata.symm.trans hnew.1)
      rw [hnew.2.2] at hold
      cases hold
  simp [hnot]

/-- Every key that a manifest gives has 32 bytes. -/
theorem loadPeersFile_pin {peersFile : Bool}
    (h : loadPeersFile y peersFile f = .ok specs) (hs : s ∈ specs) :
    s.pin.length = publicKeySize := by
  cases peersFile with
  | false =>
    cases h
    cases hs
  | true =>
    rcases loadPeersFile_eq_ok.1 h with ⟨-, rfl⟩ | ⟨data, -, hparse⟩ | ⟨data, -, hparse⟩
    · cases hs
    · obtain ⟨-, hgives, -⟩ := parseLegacyManifest_eq_ok.1 hparse
      obtain ⟨line, -, hline⟩ := hgives.mem hs
      obtain ⟨pin, token, hpin, rfl⟩ := legacyEntry_eq_ok hline
      exact decodePubKey_length hpin
    · obtain ⟨bs, b, -, -, hkey⟩ := parseYAMLManifest_mem hparse hs
      exact decodePubKey_length hkey

/-- What is loaded from a manifest in the YAML format is an entry of the document. -/
theorem manifestLists_of_load (hlegacy : manifestNeedsMigration f = .ok false)
    (h : loadPeersFile y true f = .ok specs) (hK : K ∈ specs.map (·.pin)) :
    ManifestLists y K f := by
  obtain ⟨s, hs, rfl⟩ := mem_map.1 hK
  rcases (loadPeersFile_yaml hlegacy).1 h with ⟨-, rfl⟩ | ⟨data, ⟨hdata, -, hnew⟩, hparse⟩
  · cases hs
  · obtain ⟨bs, b, hdoc, hb, hkey⟩ := parseYAMLManifest_mem hparse hs
    exact ⟨data, bs, b, hdata, hnew, hdoc, hb, hkey⟩

theorem manifestLists_manifestText (hy : y.Lawful) (hK : K.length = publicKeySize) (hs : s ∈ specs)
    (hpin : s.pin = K) (hf : f.manifest = some (manifestText y specs)) : ManifestLists y K f := by
  refine ⟨_, _, s.toManifest, hf, manifestIsLegacy_manifestText hy specs,
    hy.decode_marshal _, mem_map.2 ⟨s, hs, rfl⟩, ?_⟩
  show decodePubKey (pubKeyB64 s.pin) = some K
  rw [hpin, decodePubKey_pubKeyB64 hK]

end BuddyNet.Trust
