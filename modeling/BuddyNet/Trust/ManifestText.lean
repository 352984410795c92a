import BuddyNet.Trust.ExposeText
import BuddyNet.Trust.ManifestEntries
import BuddyNet.Trust.RevocationList

/-!
# What is read back from a manifest that was written

The commands write lists of specs that were loaded or built from checked arguments. Everything about
such a spec is read back, with one exception: the reader checks bootstrap tokens and the writers do
not (`spec_toManifest`). So a manifest that was written is loaded, with the specs that were written,
exactly when its tokens pass that check and it fits the size limit (`load_manifestText`).
-/

namespace BuddyNet.Trust

open List

variable {y : Yaml} {f : Files} {K : Bytes}

/-- A spec as the commands hold it: a key of 32 bytes, a valid name and a scope in normal form. -/
structure PeerSpec.WellFormed (s : PeerSpec) : Prop where
  pin : s.pin.length = publicKeySize
  name : validateBuddyName s.name = true
  expose : ∀ scope, s.expose = some scope → scope.Normal

/-- The check that the reader makes of a bootstrap token. -/
def tokenOk (token : Bytes) : Prop := token = [] ∨ validField token = true

instance (token : Bytes) : Decidable (tokenOk token) :=
  inferInstanceAs (Decidable (token = [] ∨ validField token = true))

theorem tokenOk_iff {token : Bytes} : tokenOk token ↔ ¬(token ≠ [] ∧ ¬validField token = true) := by
  unfold tokenOk
  tauto

variable {s : PeerSpec}

theorem decodeExpose_toManifest (h : s.WellFormed) :
    s.toManifest.decodeExpose = .ok (s.toManifest, s.expose) := by
  have hnode : s.toManifest.expose = s.expose.map exposeNode := rfl
  unfold Buddy.decodeExpose
  rw [hnode]
  cases hexp : s.expose with
  | none => rfl
  | some scope =>
    dsimp only [Option.map_some]
    rw [scope_exposeNode (h.expose scope hexp)]

theorem spec_toManifest {s' : PeerSpec} (h : s.WellFormed) :
    s.toManifest.spec = .ok s' ↔ s' = s ∧ tokenOk s.token := by
  have hkey : s.toManifest.key = pubKeyB64 s.pin := rfl
  have htoken : s.toManifest.token = s.token := rfl
  have hname : s.toManifest.name = s.name := rfl
  have hspec : s.toManifest.spec = s.toManifest.toSpec s.expose := by
    rw [Buddy.spec, decodeExpose_toManifest h]
    rfl
  rw [hspec, Buddy.toSpec, hkey, htoken, hname, if_neg (pubKeyB64_ne_nil h.pin),
    decodePubKey_pubKeyB64 h.pin]
  dsimp only
  rw [h.name, if_pos rfl]
  by_cases hok : s.token ≠ [] ∧ ¬validField s.token = true
  · rw [if_pos hok, tokenOk_iff]
    constructor
    · rintro ⟨⟩
    · exact fun hs => absurd hok hs.2
  · rw [if_neg hok, tokenOk_iff, Except.ok.injEq, eq_comm]
    exact (and_iff_left hok).symm

/-- What an entry gives is well formed, and its token passes the check. -/
theorem wellFormed_of_spec {b : Buddy} (h : b.spec = .ok s) : s.WellFormed ∧ tokenOk s.token := by
  obtain ⟨expose, hdec, hspec⟩ := spec_eq_ok.1 h
  have hscope : ∀ scope, expose = some scope → scope.Normal := by
    rintro scope rfl
    unfold Buddy.decodeExpose at hdec
    split at hdec
    · cases hdec
    · split at hdec
      · next scope' hnode =>
        cases hdec
        exact normal_of_scope hnode
      · cases hdec
  unfold Buddy.toSpec at hspec
  split at hspec
  · cases hspec
  split at hspec
  · cases hspec
  · next pin hpin =>
    split_ifs at hspec with htoken hname
    cases hspec
    exact ⟨⟨decodePubKey_length hpin, hname, hscope⟩, tokenOk_iff.2 htoken⟩

theorem wellFormed_of_legacyEntry {line : Bytes × ℕ} (h : legacyEntry line = .ok s) :
    s.WellFormed := by
  obtain ⟨pin, token, hpin, rfl⟩ := legacyEntry_eq_ok h
  have hname : validateBuddyName [] = true := by decide
  exact ⟨decodePubKey_length hpin, hname, nofun⟩

variable {specs : List PeerSpec}

/-- **What is loaded is well formed**, and no key is there twice. -/
theorem load_wellFormed (h : loadPeersFile y true f = .ok specs) :
    (∀ s ∈ specs, s.WellFormed) ∧ (specs.map (·.pin)).Nodup := by
  rcases loadPeersFile_eq_ok.1 h with ⟨-, rfl⟩ | ⟨data, -, hparse⟩ | ⟨data, -, hparse⟩
  · exact ⟨forall_mem_nil _, nodup_nil⟩
  · obtain ⟨-, hgives, hnodup⟩ := parseLegacyManifest_eq_ok.1 hparse
    refine ⟨fun s hs => ?_, hnodup⟩
    obtain ⟨line, -, hline⟩ := hgives.mem hs
    exact wellFormed_of_legacyEntry hline
  · rcases parseYAMLManifest_eq_ok.1 hparse with ⟨-, rfl⟩ | ⟨bs, -, hgives, hnodup⟩
    · exact ⟨forall_mem_nil _, nodup_nil⟩
    · refine ⟨fun s hs => ?_, hnodup⟩
      obtain ⟨b, -, hspec⟩ := hgives.mem hs
      exact (wellFormed_of_spec hspec).1

theorem load_tokenOk (hlegacy : manifestNeedsMigration f = .ok false)
    (h : loadPeersFile y true f = .ok specs) : ∀ s ∈ specs, tokenOk s.token := by
  rcases (loadPeersFile_yaml hlegacy).1 h with ⟨-, rfl⟩ | ⟨data, -, hparse⟩
  · exact forall_mem_nil _
  · rcases parseYAMLManifest_eq_ok.1 hparse with ⟨-, rfl⟩ | ⟨bs, -, hgives, -⟩
    · exact forall_mem_nil _
    · intro s hs
      obtain ⟨b, -, hspec⟩ := hgives.mem hs
      exact (wellFormed_of_spec hspec).2

variable {specs' : List PeerSpec}

theorem gives_toManifest (hspecs : ∀ s ∈ specs, s.WellFormed) :
    Gather.Gives Buddy.spec (specs.map PeerSpec.toManifest) specs' ↔
      specs' = specs ∧ ∀ s ∈ specs, tokenOk s.token := by
  unfold Gather.Gives
  rw [forall₂_map_left_iff]
  constructor
  · intro h
    induction h with
    | nil => exact ⟨rfl, forall_mem_nil _⟩
    | @cons s s' specs specs' hs _ ih =>
      obtain ⟨rfl, htoken⟩ := (spec_toManifest (hspecs s mem_cons_self)).1 hs
      obtain ⟨rfl, htokens⟩ := ih fun s hs => hspecs s (mem_cons_of_mem _ hs)
      exact ⟨rfl, forall_mem_cons.2 ⟨htoken, htokens⟩⟩
  · rintro ⟨rfl, htokens⟩
    exact forall₂_same.2 fun s hs => (spec_toManifest (hspecs s hs)).2 ⟨rfl, htokens s hs⟩

/-- **A manifest that was written is loaded with what was written**, exactly when all tokens pass
the reader's check and the file fits the limit. -/
theorem load_manifestText (hy : y.Lawful)
    (hspecs : ∀ s ∈ specs, s.WellFormed) (hnodup : (specs.map (·.pin)).Nodup)
    (hf : f.manifest = some (manifestText y specs)) : loadPeersFile y true f = .ok specs' ↔
      specs' = specs ∧ (∀ s ∈ specs, tokenOk s.token) ∧
        (manifestText y specs).length ≤ maxManifestBytes := by
  have hlegacy := manifestIsLegacy_manifestText hy specs
  have hdoc : y.decode (manifestText y specs) = .doc (specs.map PeerSpec.toManifest) :=
    hy.decode_marshal _
  rw [loadPeersFile_eq_ok, hf]
  constructor
  · rintro (⟨hnone, -⟩ | ⟨data, ⟨hdata, -, hold⟩, -⟩ | ⟨data, ⟨hdata, hfits, -⟩, hparse⟩)
    · cases hnone
    · cases hf.symm.trans hdata
      rw [hlegacy] at hold
      cases hold
    · cases hf.symm.trans hdata
      rcases parseYAMLManifest_eq_ok.1 hparse with ⟨heof, -⟩ | ⟨bs, hbs, hgives, -⟩
      · rw [hdoc] at heof
        cases heof
      · cases hdoc.symm.trans hbs
        obtain ⟨heq, htokens⟩ := (gives_toManifest hspecs).1 hgives
        exact ⟨heq, htokens, hfits⟩
  · rintro ⟨rfl, htokens, hfits⟩
    refine Or.inr (Or.inr ⟨_, ⟨hf, hfits, hlegacy⟩, parseYAMLManifest_eq_ok.2 (Or.inr ?_)⟩)
    exact ⟨_, hdoc, (gives_toManifest hspecs).2 ⟨rfl, htokens⟩, hnodup⟩

theorem length_unlines_le {ls : List Bytes} {n : ℕ} (h : ∀ l ∈ ls, l.length < n) :
    (Go.unlines ls).length ≤ ls.length * n := by
  induction ls with
  | nil => simp [Go.unlines]
  | cons l ls ih =>
    have hl := h l mem_cons_self
    have hls := ih fun l hl => h l (mem_cons_of_mem _ hl)
    rw [Go.unlines_cons, length_append, length_cons, length_cons, Nat.add_mul]
    omega

/-- The header leaves most of the limit to the entries. -/
theorem fits_of_marshal (h : (y.marshal (specs.map PeerSpec.toManifest)).length ≤ 2 ^ 19) :
    (manifestText y specs).length ≤ maxManifestBytes := by
  have hheader : (Go.unlines manifestHeader).length ≤ 10 * 100 :=
    length_unlines_le fun l hl => (manifestHeader_line l hl).2.1
  rw [manifestText, length_append, maxManifestBytes]
  omega

/-! ### A document format for the examples -/

namespace Sample

/-- A byte string, each byte behind a 1, and a 0 at the end. -/
def putBytes (s : Bytes) : Bytes := s.flatMap (fun c => [1, c]) ++ [0]

/-- Reads a byte string and returns what follows it. -/
def getBytes : Bytes → Option (Bytes × Bytes)
  | 0 :: rest => some ([], rest)
  | 1 :: c :: rest => (getBytes rest).map fun p => (c :: p.1, p.2)
  | _ => none

theorem getBytes_putBytes (s rest : Bytes) : getBytes (putBytes s ++ rest) = some (s, rest) := by
  induction s with
  | nil => rfl
  | cons c s ih =>
    show (getBytes (putBytes s ++ rest)).map _ = _
    rw [ih]
    rfl

/-- A list: its length in ones, a 0, and the items. -/
def putList {α : Type} (put : α → Bytes) (xs : List α) : Bytes :=
  List.replicate xs.length 1 ++ 0 :: xs.flatMap put

/-- Reads a number of items. -/
def getItems {α : Type} (get : Bytes → Option (α × Bytes)) : ℕ → Bytes → Option (List α × Bytes)
  | 0, s => some ([], s)
  | n + 1, s => do
    let (a, rest) ← get s
    let (as, rest) ← getItems get n rest
    return (a :: as, rest)

/-- Reads a list; `n` ones were read. -/
def getList {α : Type} (get : Bytes → Option (α × Bytes)) : ℕ → Bytes → Option (List α × Bytes)
  | n, 1 :: rest => getList get (n + 1) rest
  | n, 0 :: rest => getItems get n rest
  | _, _ => none

section Lists

variable {α : Type} {put : α → Bytes} {get : Bytes → Option (α × Bytes)}

variable (h : ∀ a rest, get (put a ++ rest) = some (a, rest))
include h

theorem getItems_flatMap (xs : List α)
    (rest : Bytes) : getItems get xs.length (xs.flatMap put ++ rest) = some (xs, rest) := by
  induction xs with
  | nil => rfl
  | cons x xs ih =>
    rw [flatMap_cons, append_assoc, length_cons, getItems, h]
    simp [ih]

theorem getList_putList (xs : List α)
    (rest : Bytes) : getList get 0 (putList put xs ++ rest) = some (xs, rest) := by
  have hcount : ∀ n k tail, getList get n (List.replicate k 1 ++ 0 :: tail) =
      getItems get (n + k) tail := by
    intro n k tail
    induction k generalizing n with
    | zero => rfl
    | succ k ih =>
      rw [replicate_succ, cons_append, getList, ih]
      congr 1
      omega
  rw [putList, append_assoc, cons_append, hcount, Nat.zero_add, getItems_flatMap h]

end Lists

/-- The texts of an entry. -/
def entryTexts (b : Buddy) : List Bytes :=
  b.name :: b.key :: b.token :: match b.expose with
    | none => []
    | some (.scalar v) => [[0], v]
    | some (.seq items) => [1] :: items
    | some .other => [[2]]

/-- The entry with these texts. -/
def entryOf : List Bytes → Option Buddy
  | [name, key, token] => some ⟨name, key, token, none⟩
  | [name, key, token, [0], v] => some ⟨name, key, token, some (.scalar v)⟩
  | name :: key :: token :: [1] :: items => some ⟨name, key, token, some (.seq items)⟩
  | [name, key, token, [2]] => some ⟨name, key, token, some .other⟩
  | _ => none

theorem entryOf_entryTexts (b : Buddy) : entryOf (entryTexts b) = some b := by
  obtain ⟨name, key, token, expose⟩ := b
  cases expose with
  | none => rfl
  | some node => cases node <;> rfl

theorem mapM_entryOf (bs : List Buddy) : (bs.map entryTexts).mapM entryOf = some bs := by
  induction bs with
  | nil => rfl
  | cons b bs ih => simp [entryOf_entryTexts, ih]

/-- The document in a text behind the header. -/
def readEntries (s : Bytes) : Decoded :=
  match getList (getList getBytes 0) 0 s with
  | some (texts, []) =>
    match texts.mapM entryOf with
    | some bs => .doc bs
    | none => .error
  | _ => .error

theorem readEntries_putList (bs : List Buddy) :
    readEntries (putList (putList putBytes) (bs.map entryTexts)) = .doc bs := by
  have hget := getList_putList (getList_putList getBytes_putBytes) (bs.map entryTexts) []
  rw [append_nil] at hget
  unfold readEntries
  rw [hget]
  dsimp only
  rw [mapM_entryOf]

/-- The name of the list, and the entries one behind the other. -/
def writeEntries (bs : List Buddy) : Bytes :=
  lit "buddies:" ++ Go.nl :: putList (putList putBytes) (bs.map entryTexts)

/-- The document behind a header and the name of the list. -/
def readBehind (header data : Bytes) : Decoded := readEntries ((data.drop header.length).drop 9)

theorem readBehind_append (header : Bytes) (bs : List Buddy) :
    readBehind header (header ++ writeEntries bs) = .doc bs := by
  rw [readBehind, drop_left]
  exact readEntries_putList bs

/-- The header, if the text starts with it. -/
def headerOf (header data : Bytes) : Bytes := if header.isPrefixOf data then header else []

theorem headerOf_append (header rest : Bytes) : headerOf header (header ++ rest) = header :=
  if_pos ( isPrefixOf_iff_prefix.2 (prefix_append header rest))

/-- A library for this format, with or without the header. -/
def shortYaml : Yaml where
  marshal := writeEntries
  decode := fun data => readBehind (headerOf (Go.unlines manifestHeader) data) data

theorem shortYaml_lawful : shortYaml.Lawful where
  decode_marshal := fun bs => by
    simp only [shortYaml, headerOf_append, readBehind_append]
  first_line := fun _ => ⟨_, _, rfl, Or.inl rfl⟩

end Sample

/-! ### Saving and loading -/

/-- **A saved manifest is loaded as it was saved**, in the same order, and never taken for the old
format. -/
theorem load_saveManifestLocked (hy : y.Lawful) (f : Files) {specs : List PeerSpec}
    (hpins : ∀ s ∈ specs, s.pin.length = publicKeySize) (hnodup : (specs.map (·.pin)).Nodup)
    (htokens : ∀ s ∈ specs, s.token = [] ∨ validField s.token = true)
    (hnames : ∀ s ∈ specs, validateBuddyName s.name = true)
    (hscopes : ∀ s ∈ specs, ∀ scope, s.expose = some scope →
      ∃ text, Nft.parseScope text = .ok scope)
    (hfits : (manifestText y specs).length ≤ maxManifestBytes) :
    (saveManifestLocked y specs f).2 = .ok () ∧
      loadPeersFile y true ((saveManifestLocked y specs).final f) = .ok specs ∧
      manifestNeedsMigration ((saveManifestLocked y specs).final f) = .ok false := by
  have hwf : ∀ s ∈ specs, s.WellFormed := by
    intro s hs
    refine ⟨hpins s hs, hnames s hs, fun scope hscope => ?_⟩
    obtain ⟨text, htext⟩ := hscopes s hs scope hscope
    exact Nft.parseScope_normal htext
  have hf : ((saveManifestLocked y specs).final f).manifest = some (manifestText y specs) := rfl
  refine ⟨rfl, (load_manifestText hy hwf hnodup hf).2 ⟨rfl, htokens, hfits⟩, ?_⟩
  have hlegacy := manifestIsLegacy_manifestText hy specs
  exact manifestNeedsMigration_eq_ok.2 (Or.inr (Or.inr ⟨⟨_, hf, hfits, hlegacy⟩, rfl⟩))

namespace Sample

/-- Two buddies, one with a token, a name and a scope of its own. -/
def twoBuddies : List PeerSpec :=
  [{ pin := List.replicate 32 7, token := lit "token", name := lit "nas",
      expose := some ⟨false, [⟨.tcp, 873⟩, ⟨.udp, 53⟩]⟩ },
    { pin := List.replicate 32 9, token := [] }]

end Sample

open Sample in
theorem load_saveManifestLocked_two :
    Nft.parseScope (lit "udp/53, 873") = .ok ⟨false, [⟨.tcp, 873⟩, ⟨.udp, 53⟩]⟩ ∧
      loadPeersFile shortYaml true
        ((saveManifestLocked shortYaml twoBuddies).final ⟨none, none, none⟩) = .ok twoBuddies := by
  have hscope : Nft.parseScope (lit "udp/53, 873") = .ok ⟨false, [⟨.tcp, 873⟩, ⟨.udp, 53⟩]⟩ := by
    decide +kernel
  refine ⟨hscope, (load_saveManifestLocked shortYaml_lawful _ (by decide) (by decide) (by decide)
    (by decide) ?_ (fits_of_marshal (by decide +kernel))).2.1⟩
  intro s hs scope hexpose
  rcases List.mem_pair.1 hs with rfl | rfl
  · cases hexpose
    exact ⟨_, hscope⟩
  · cases hexpose

end BuddyNet.Trust
