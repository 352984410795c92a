import BuddyNet.Go.LineTail
import BuddyNet.Go.Trim
import BuddyNet.Trust.Commands

/-!
# The revocation list as a set of keys

The list is written with each entry as its canonical key, two blanks, a comment sign, a blank and
its note. A note comes back as it was, since it is trimmed (`loadRevoked_revokedText`), and a list
that can be read back has exactly the keys that were written (`mem_revokedText`). `Tombstoned K` is
what the gates see of a revocation: the list names `K`, or it cannot be read and every gate fails.
Only lifting the revocation of `K` itself ends it.
-/

namespace BuddyNet.Trust

open Transaction List Go

/-! ### The text of a key -/

variable {pin : Bytes}

/-- The characters of a key are neither white space nor a comment sign. -/
theorem pubKeyB64_char {c : UInt8} (h : c ∈ pubKeyB64 pin) :
    IsASCII c ∧ isSpace c.toNat = false ∧ c ≠ 35 := by
  rcases Encoding.mem_encode h with ⟨v, hv, rfl⟩ | ⟨-, rfl⟩
  · have hall : ∀ w : Fin 64, (stdEncoding.char w).toNat < 0x80 ∧
        isSpace (stdEncoding.char w).toNat = false ∧ stdEncoding.char w ≠ 35 := by decide
    exact hall ⟨v, hv⟩
  · exact ⟨by unfold IsASCII; decide, by decide, by decide⟩

theorem pubKeyB64_isToken (pin : Bytes) : IsToken (pubKeyB64 pin) := fun _ hc =>
  ⟨(pubKeyB64_char hc).1, (pubKeyB64_char hc).2.1⟩

theorem pubKeyB64_ne_nil (h : pin.length = publicKeySize) : pubKeyB64 pin ≠ [] := by
  intro hnil
  have hdec := decodePubKey_pubKeyB64 h
  rw [hnil] at hdec
  cases hdec

/-- A key that the list can name: the canonical text of 32 bytes. -/
def IsKey (k : Bytes) : Prop := ∃ pin : Bytes, pin.length = publicKeySize ∧ k = pubKeyB64 pin

/-! ### Reading a line -/

theorem revokedLine_of_fields {line : Bytes} {rest : List Bytes}
    (hlen : pin.length = publicKeySize) (h : fields line = pubKeyB64 pin :: rest) :
    revokedLine line = some ⟨pubKeyB64 pin, noteOf (trimSpace line)⟩ := by
  have hfields : fields (trimSpace line) = pubKeyB64 pin :: rest := by
    rw [fields_trimSpace, h]
  have hne : trimSpace line ≠ [] := by
    intro hnil
    rw [hnil, fields_nil] at hfields
    cases hfields
  have hhead : (trimSpace line).head? ≠ some 35 := by
    intro hhead
    obtain ⟨t, ht⟩ := List.head?_eq_some_iff.1 hhead
    obtain ⟨fld, fs, hfld⟩ := fields_cons (c := 35) (by unfold IsASCII; decide) (by decide) t
    rw [ht, hfld] at hfields
    have hmem : (35 : UInt8) ∈ pubKeyB64 pin := by
      rw [← (List.cons.inj hfields).1]
      exact mem_cons_self
    exact (pubKeyB64_char hmem).2.2 rfl
  simp only [revokedLine, hne, hhead, or_self, if_false, hfields, decodePubKey_pubKeyB64 hlen]
  rfl

variable {e : RevokedEntry}

theorem revokedLine_spec {line : Bytes} (h : revokedLine line = some e)
    (hline : nl ∉ line) : IsKey e.key ∧ nl ∉ e.note ∧ Trimmed e.note := by
  simp only [revokedLine] at h
  split_ifs at h
  split at h
  · cases h
  · obtain ⟨pin, hpin, rfl⟩ := Option.map_eq_some_iff.1 h
    refine ⟨⟨pin, decodePubKey_length hpin, rfl⟩, ?_⟩
    unfold noteOf
    split
    · exact ⟨not_mem_nil, nofun, nofun⟩
    · next b rest hdrop =>
      refine ⟨fun hmem => ?_, trimmed_trimSpace _⟩
      have hrest : nl ∈ (trimSpace line).dropWhile (· ≠ 35) := by
        rw [hdrop]
        exact mem_cons_of_mem _ (mem_of_mem_trimSpace hmem)
      exact hline (mem_of_mem_trimSpace ((dropWhile_sublist _).subset hrest))

/-! ### Reading and writing the list -/

variable {entries es : List RevokedEntry}

theorem mem_foldl_keepEntry (h : e ∈ es.foldl keepEntry entries) : e ∈ entries ∨ e ∈ es := by
  induction es generalizing entries with
  | nil => exact Or.inl h
  | cons e' es ih =>
    rcases ih h with h | h
    · unfold keepEntry at h
      split_ifs at h
      · exact Or.inl h
      · rcases mem_append.1 h with h | h
        · exact Or.inl h
        · exact Or.inr (mem_cons.2 (Or.inl (mem_singleton.1 h)))
    · exact Or.inr (mem_cons_of_mem _ h)

theorem nodup_foldl_keepEntry (h : (entries.map (·.key)).Nodup) :
    ((es.foldl keepEntry entries).map (·.key)).Nodup := by
  induction es generalizing entries with
  | nil => exact h
  | cons e es ih =>
    refine ih ?_
    unfold keepEntry
    split_ifs with hmem
    · exact h
    · rw [map_append]
      exact h.append (nodup_singleton _) (by simpa using hmem)

theorem foldl_keepEntry_of_nodup (h : ((entries ++ es).map (·.key)).Nodup) :
    es.foldl keepEntry entries = entries ++ es := by
  induction es generalizing entries with
  | nil => exact (append_nil _).symm
  | cons e es ih =>
    have hnew : e.key ∉ entries.map (·.key) := by
      rw [map_append] at h
      exact fun hmem => (nodup_append.1 h).2.2 _ hmem _ mem_cons_self rfl
    rw [foldl_cons, keepEntry, if_neg hnew, ih (by simpa using h), append_assoc]
    rfl

/-- What `writeRevokedLocked` can write: canonical keys, and notes that stay on their line. -/
def Writable (es : List RevokedEntry) : Prop := ∀ e ∈ es, IsKey e.key ∧ nl ∉ e.note

/-- Canonical keys, none of them twice, and notes that stay on their line and are trimmed. -/
structure Loaded (es : List RevokedEntry) : Prop where
  writable : Writable es
  nodup : (es.map (·.key)).Nodup
  trimmed : ∀ e ∈ es, Trimmed e.note

theorem loadRevoked_loaded {file : Option Bytes} (h : loadRevoked file = .ok es) : Loaded es := by
  obtain ⟨ls, hls, rfl⟩ : ∃ ls : List Bytes, (∀ l ∈ ls, nl ∉ l) ∧
      es = (ls.filterMap revokedLine).foldl keepEntry [] := by
    cases file with
    | none => exact ⟨[], nofun, (Except.ok.inj h).symm⟩
    | some data =>
      simp only [loadRevoked] at h
      split_ifs at h
      exact ⟨_, fun l => not_mem_of_mem_scanLines, (Except.ok.inj h).symm⟩
  have hspec : ∀ e ∈ (ls.filterMap revokedLine).foldl keepEntry [],
      IsKey e.key ∧ nl ∉ e.note ∧ Trimmed e.note := by
    intro e he
    obtain ⟨line, hline, hentry⟩ :=
      mem_filterMap.1 ((mem_foldl_keepEntry he).resolve_left not_mem_nil)
    exact revokedLine_spec hentry (hls line hline)
  exact ⟨fun e he => ⟨(hspec e he).1, (hspec e he).2.1⟩, nodup_foldl_keepEntry nodup_nil,
    fun e he => (hspec e he).2.2⟩

/-! ### A line with a note -/

theorem not_mem_zeroPad (width n : ℕ) : nl ∉ zeroPad width n := by
  intro h
  rcases mem_append.1 h with h | h
  · exact absurd (eq_of_mem_replicate h) (by decide)
  · exact absurd (mem_itoa h).1 (by decide)

theorem not_mem_revokedOn (today : Date) : nl ∉ revokedOn today := by
  simp only [revokedOn, mem_append, not_or, not_mem_zeroPad]
  decide

theorem not_mem_line (he : IsKey e.key ∧ nl ∉ e.note) (today : Date) : nl ∉ e.line today := by
  obtain ⟨⟨pin, -, hkey⟩, hnote⟩ := he
  intro h
  rcases mem_append.1 h with h | h
  · rcases mem_append.1 h with h | h
    · rw [hkey] at h
      exact absurd (pubKeyB64_char h).2.1 (by decide)
    · exact absurd h (by decide)
  · split_ifs at h
    · exact not_mem_revokedOn today h
    · exact hnote h

/-- A key, a gap, and a comment that ends with what is not white space. -/
theorem revokedLine_noted {gap rest : Bytes} (hpin : pin.length = publicKeySize)
    (hgap : 35 ∉ gap) (hlast : ∀ r ∈ (runesOf rest).getLast?, r.2 = false) :
    revokedLine (dropCR (pubKeyB64 pin ++ 32 :: gap ++ [35] ++ rest)) =
      some ⟨pubKeyB64 pin, trimSpace rest⟩ := by
  have hfirm : Firm (pubKeyB64 pin ++ 32 :: gap ++ [35]) := by
    obtain ⟨c, t, hc⟩ := exists_cons_of_ne_nil (pubKeyB64_ne_nil hpin)
    exact ⟨⟨c, _, by rw [hc]; rfl, pubKeyB64_isToken pin c (by simp [hc])⟩,
      ⟨_, 35, rfl, by unfold Solid IsASCII; decide⟩⟩
  have htrim := hfirm.trimmed_append hlast
  have hfields : fields (pubKeyB64 pin ++ 32 :: gap ++ [35] ++ rest) =
      pubKeyB64 pin :: fields (gap ++ [35] ++ rest) := by
    rw [append_assoc, append_assoc, cons_append,
      fields_append (by unfold IsASCII; decide) (by decide),
      fields_token (pubKeyB64_isToken pin) (pubKeyB64_ne_nil hpin), append_assoc]
    rfl
  have hall : ∀ c ∈ pubKeyB64 pin ++ 32 :: gap, decide (c ≠ 35) = true := by
    intro c hc
    rw [decide_eq_true_iff]
    rintro rfl
    rcases mem_append.1 hc with hkey | hc
    · exact (pubKeyB64_char hkey).2.2 rfl
    · exact hgap (by simpa using hc)
  rw [htrim.dropCR, revokedLine_of_fields hpin hfields, trimSpace_of_trimmed htrim, noteOf,
    append_assoc, dropWhile_append_of_pos hall, singleton_append,
    dropWhile_cons_of_neg (by decide)]

/-- The entry that is read from a line which was written for this one. -/
def RevokedEntry.noted (today : Date) (e : RevokedEntry) : RevokedEntry :=
  ⟨e.key, if e.note = [] then revokedOn today else e.note⟩

theorem zeroPad_solid (width n : ℕ) : ∃ u c, zeroPad width n = u ++ [c] ∧ Solid c := by
  rcases eq_nil_or_concat' (itoa n) with hnil | ⟨u, c, hc⟩
  · exact absurd hnil (itoa_ne_nil n)
  · refine ⟨List.replicate (width - (itoa n).length) 48 ++ u, c, ?_, ?_⟩
    · rw [zeroPad, hc, append_assoc]
    · exact itoa_isToken n c (by simp [hc])

theorem trimmed_revokedOn (today : Date) : Trimmed (revokedOn today) := by
  refine Firm.trimmed ⟨⟨114, _, rfl, by unfold Solid IsASCII; decide⟩, ?_⟩
  obtain ⟨u, c, hu, hc⟩ := zeroPad_solid 2 today.day
  exact ⟨_, c, by rw [revokedOn, hu, ← append_assoc], hc⟩

/-- A written line is read as the entry with its note. -/
theorem Loaded.revokedLine_line (h : Loaded es) (he : e ∈ es) (today : Date) :
    revokedLine (dropCR (e.line today)) = some (e.noted today) := by
  obtain ⟨pin, hpin, hkey⟩ := (h.writable e he).1
  set note := (e.noted today).note with hnote
  have htrim : Trimmed note ∧ note ≠ [] := by
    rw [hnote, RevokedEntry.noted]
    dsimp only
    split_ifs with hnil
    · exact ⟨trimmed_revokedOn today, by simp [revokedOn, lit]⟩
    · exact ⟨h.trimmed e he, hnil⟩
  have hline : e.line today = pubKeyB64 pin ++ 32 :: [32] ++ [35] ++ 32 :: note := by
    rw [RevokedEntry.line, hkey, append_assoc, append_assoc, append_assoc]
    rfl
  have hgap : (35 : UInt8) ∉ [32] := by decide
  have hrunes : runesOf (32 :: note) = [([32], true)] ++ runesOf note ++ [] := by
    rw [runesOf_cons (by unfold IsASCII; decide), append_nil]
    rfl
  have hlast : ∀ r ∈ (runesOf (32 :: note)).getLast?, r.2 = false := by
    cases hrs : runesOf note with
    | nil => exact absurd (by rw [← flatten_runesOf note, hrs]; rfl) htrim.2
    | cons r rs =>
      have hend := htrim.1.last
      rw [hrs] at hend
      rw [hrunes, hrs]
      simpa using hend
  rw [hline, revokedLine_noted hpin hgap hlast, trimSpace_eq_of_runes htrim.1 (by simp) hrunes,
    hnote, ← hkey]
  rfl

/-! ### The text of a list -/

/-- The two lines of the header are short comments. -/
theorem revokedHeader_line : ∀ l ∈ revokedHeader, nl ∉ l ∧ l.length < 100 ∧
    revokedLine (dropCR l) = none := by
  decide +kernel

theorem filterMap_revokedHeader : (revokedHeader.map dropCR).filterMap revokedLine = [] := by
  refine filterMap_eq_nil_iff.2 fun l hl => ?_
  obtain ⟨l', hl', rfl⟩ := mem_map.1 hl
  exact (revokedHeader_line l' hl').2.2

theorem not_mem_revokedText_line (h : Writable es) (today : Date) :
    ∀ l ∈ revokedHeader ++ es.map (·.line today), nl ∉ l := by
  intro l hl
  rcases mem_append.1 hl with hl | hl
  · exact (revokedHeader_line l hl).1
  · obtain ⟨e, he, rfl⟩ := mem_map.1 hl
    exact not_mem_line (h e he) today

theorem loadRevoked_unlines {ls : List Bytes}
    (h : ∀ l ∈ ls, nl ∉ l ∧ l.length < maxScanTokenSize) :
    loadRevoked (some (unlines ls)) =
      .ok (((ls.map dropCR).filterMap revokedLine).foldl keepEntry []) := by
  simp only [loadRevoked, scanLines_unlines_fit h, Bool.false_eq_true, if_false]

variable {today : Date}

/-- **The list is read back with its notes** when its lines fit the scanner's buffer. -/
theorem loadRevoked_revokedText (h : Loaded es)
    (hfit : ∀ e ∈ es, (e.line today).length < maxScanTokenSize) :
    loadRevoked (some (revokedText today es)) = .ok (es.map (·.noted today)) := by
  have hlines : ∀ l ∈ revokedHeader ++ es.map (·.line today),
      nl ∉ l ∧ l.length < maxScanTokenSize := by
    refine fun l hl => ⟨not_mem_revokedText_line h.writable today l hl, ?_⟩
    rcases mem_append.1 hl with hl | hl
    · exact (revokedHeader_line l hl).2.1.trans (by decide)
    · obtain ⟨e, he, rfl⟩ := mem_map.1 hl
      exact hfit e he
  have hread : (es.map (dropCR ∘ (·.line today))).filterMap revokedLine =
      es.map (·.noted today) := by
    rw [filterMap_map, ← filterMap_eq_map]
    exact filterMap_congr fun e he => h.revokedLine_line he today
  have hnodup : ((es.map (·.noted today)).map (·.key)).Nodup := by
    rw [map_map]
    exact h.nodup
  rw [revokedText, loadRevoked_unlines hlines, map_append, filterMap_append,
    filterMap_revokedHeader, nil_append, map_map, hread,
    foldl_keepEntry_of_nodup (by simpa using hnodup), nil_append]

/-- A list that was written can be read when its lines fit the scanner's buffer. -/
theorem exists_loadRevoked_revokedText (h : Loaded es) :
    (∃ es', loadRevoked (some (revokedText today es)) = .ok es') ↔
      ∀ e ∈ es, (e.line today).length < maxScanTokenSize := by
  refine ⟨fun ⟨es', hread⟩ e he => ?_, fun hfit => ⟨_, loadRevoked_revokedText h hfit⟩⟩
  by_contra hlong
  obtain ⟨xs, hxs⟩ := scanLines_unlines_long (not_mem_revokedText_line h.writable today)
    ⟨e.line today, mem_append_right _ (mem_map.2 ⟨e, he, rfl⟩), not_lt.1 hlong⟩
  have hnil := hxs []
  rw [append_nil] at hnil
  simp only [loadRevoked, revokedText, hnil, if_true] at hread
  cases hread

/-- **A list that was written and can be read has the keys that were written.** -/
theorem mem_revokedText {es' : List RevokedEntry} (h : Loaded es)
    (hload : loadRevoked (some (revokedText today es)) = .ok es') (k : Bytes) :
    k ∈ es'.map (·.key) ↔ k ∈ es.map (·.key) := by
  have hfit := (exists_loadRevoked_revokedText h).1 ⟨es', hload⟩
  cases hload.symm.trans (loadRevoked_revokedText h hfit)
  rw [map_map]
  rfl

/-! ### Revocations -/

variable {f : Files} {K k : Bytes}

/-- The list names the key, or it cannot be read. -/
def Tombstoned (K : Bytes) (f : Files) :
    Prop := ∀ keys, revokedSet f = .ok keys → pubKeyB64 K ∈ keys

theorem revokedSet_eq_ok {keys : List Bytes} :
    revokedSet f = .ok keys ↔ ∃ es, loadRevoked f.revoked = .ok es ∧ keys = es.map (·.key) := by
  unfold revokedSet
  cases loadRevoked f.revoked with
  | error e => simp [bind, Except.bind]
  | ok es => simp [bind, Except.bind, pure, Except.pure, eq_comm]

theorem tombstoned_iff : Tombstoned K f ↔
    ∀ es, loadRevoked f.revoked = .ok es → pubKeyB64 K ∈ es.map (·.key) := by
  constructor
  · exact fun h es hes => h _ (revokedSet_eq_ok.2 ⟨es, hes, rfl⟩)
  · rintro h keys hkeys
    obtain ⟨es, hes, rfl⟩ := revokedSet_eq_ok.1 hkeys
    exact h es hes

theorem Tombstoned.of_revoked_eq {f' : Files} (h : Tombstoned K f) (heq : f'.revoked = f.revoked) :
    Tombstoned K f' := by
  rw [tombstoned_iff] at h ⊢
  rwa [heq]

theorem tombstoned_revokedText (hes : Loaded es) (hK : pubKeyB64 K ∈ es.map (·.key)) :
    Tombstoned K { f with revoked := some (revokedText today es) } := by
  rw [tombstoned_iff]
  exact fun es' hload => (mem_revokedText hes hload _).2 hK

/-- **The gates refuse**: the question whether the key is revoked is answered with yes or fails. -/
theorem Tombstoned.isRevoked_ne (h : Tombstoned K f) : isRevoked f (pubKeyB64 K) ≠ .ok false := by
  unfold isRevoked
  cases hset : revokedSet f with
  | error e => exact nofun
  | ok keys =>
    have hmem := h keys hset
    simp [bind, Except.bind, pure, Except.pure, hmem]

theorem tombstoned_of_isRevoked (h : isRevoked f (pubKeyB64 K) = .ok true) : Tombstoned K f := by
  intro keys hkeys
  simpa [isRevoked, hkeys, bind, Except.bind, pure, Except.pure] using h

/-! ### The writers -/

theorem Loaded.concat (h : Loaded es) (hk : IsKey k) (hnew : k ∉ es.map (·.key)) (today : Date) :
    Loaded (es ++ [⟨k, revokedOn today⟩]) := by
  refine ⟨fun n hn => ?_, ?_, fun n hn => ?_⟩
  · rcases mem_append.1 hn with hn | hn
    · exact h.writable n hn
    · rw [mem_singleton.1 hn]
      exact ⟨hk, not_mem_revokedOn today⟩
  · rw [map_append]
    exact h.nodup.append (nodup_singleton k) (by simpa using hnew)
  · rcases mem_append.1 hn with hn | hn
    · exact h.trimmed n hn
    · rw [mem_singleton.1 hn]
      exact trimmed_revokedOn today

theorem Loaded.filter (h : Loaded es) (p : RevokedEntry → Bool) : Loaded (es.filter p) :=
  have hsub : (es.filter p).Sublist es := filter_sublist
  ⟨fun n hn => h.writable n (hsub.subset hn), h.nodup.sublist (hsub.map _),
    fun n hn => h.trimmed n (hsub.subset hn)⟩

theorem mem_keys_filter {k' : Bytes} : k' ∈ (es.filter (·.key ≠ k)).map (·.key) ↔
    k' ∈ es.map (·.key) ∧ k' ≠ k := by
  simp only [mem_map, mem_filter, decide_eq_true_eq]
  constructor
  · rintro ⟨e, ⟨he, hne⟩, rfl⟩
    exact ⟨⟨e, he, rfl⟩, hne⟩
  · rintro ⟨⟨e, he, rfl⟩, hne⟩
    exact ⟨e, ⟨he, hne⟩, rfl⟩

/-- What an update of the list leaves: nothing is written if the list cannot be read. -/
def Relisted (f : Files) (g : List RevokedEntry → Option Bytes) :
    Except TrustError Bool → Files → Prop
  | .error e, t => loadRevoked f.revoked = .error e ∧ t = f
  | .ok _, t => ∃ es, loadRevoked f.revoked = .ok es ∧ t = { f with revoked := g es }

theorem Relisted.cases {g : List RevokedEntry → Option Bytes} {r : Except TrustError Bool}
    {t : Files} (h : Relisted f g r t) :
    t = f ∨ ∃ es, loadRevoked f.revoked = .ok es ∧ t = { f with revoked := g es } := by
  cases r with
  | error e => exact Or.inl h.2
  | ok _ => exact Or.inr h

/-- The list with a key, unless it has it. -/
def withKey (today : Date) (k : Bytes) (list : Option Bytes) (es : List RevokedEntry) :
    Option Bytes :=
  if k ∈ es.map (·.key) then list else some (revokedText today (es ++ [⟨k, revokedOn today⟩]))

/-- The list without a key, if it has it. -/
def withoutKey (today : Date) (es : List RevokedEntry) (k : Bytes) (list : Option Bytes) :
    Option Bytes :=
  if k ∈ es.map (·.key) then some (revokedText today (es.filter (·.key ≠ k))) else list

theorem addRevokedLocked_meets (f : Files) (k : Bytes) (today : Date) :
    Meets (addRevokedLocked today k) f (· = f) (Relisted f (withKey today k f.revoked)) := by
  refine Meets.read_bind (Meets.ofExcept_bind (fun e he => ⟨he, rfl⟩) fun es hload => ?_)
  split_ifs with hmem
  · exact Meets.pure ⟨es, hload, by rw [withKey, if_pos hmem]⟩
  · exact Meets.write_bind rfl (Meets.pure ⟨es, hload, by rw [withKey, if_neg hmem]⟩)

theorem removeRevokedLocked_meets (f : Files) (k : Bytes) (today : Date) :
    Meets (removeRevokedLocked today k) f (· = f)
      (Relisted f fun es => withoutKey today es k f.revoked) := by
  refine Meets.read_bind (Meets.ofExcept_bind (fun e he => ⟨he, rfl⟩) fun es hload => ?_)
  split_ifs with hmem
  · exact Meets.write_bind rfl (Meets.pure ⟨es, hload, by simp only [withoutKey, if_pos hmem]⟩)
  · exact Meets.pure ⟨es, hload, by simp only [withoutKey, if_neg hmem]⟩

section

variable (hload : loadRevoked f.revoked = .ok es)
include hload

/-- Adding a key loses no revocation, and the key is revoked. -/
theorem tombstoned_withKey (hk : IsKey k) (hK : Tombstoned K f ∨ k = pubKeyB64 K) :
    Tombstoned K { f with revoked := withKey today k f.revoked es } := by
  have hlisted : pubKeyB64 K ∈ es.map (·.key) ∨ k = pubKeyB64 K :=
    hK.imp_left fun h => tombstoned_iff.1 h es hload
  unfold withKey
  split_ifs with hmem
  · rw [tombstoned_iff]
    intro es' hload'
    cases hload.symm.trans hload'
    rcases hlisted with h | rfl
    · exact h
    · exact hmem
  · refine tombstoned_revokedText ((loadRevoked_loaded hload).concat hk hmem today) ?_
    rw [map_append]
    rcases hlisted with h | rfl
    · exact mem_append_left _ h
    · simp

/-- Lifting a revocation loses no other. -/
theorem tombstoned_withoutKey (hne : pubKeyB64 K ≠ k) (hK : Tombstoned K f) :
    Tombstoned K { f with revoked := withoutKey today es k f.revoked } := by
  unfold withoutKey
  split_ifs
  · exact tombstoned_revokedText ((loadRevoked_loaded hload).filter (·.key ≠ k))
      (mem_keys_filter.2 ⟨tombstoned_iff.1 hK es hload, hne⟩)
  · exact hK.of_revoked_eq rfl

/-- A key whose revocation is lifted is not on a list that can be read. -/
theorem not_mem_withoutKey {es' : List RevokedEntry}
    (hload' : loadRevoked (withoutKey today es k f.revoked) = .ok es') : k ∉ es'.map (·.key) := by
  unfold withoutKey at hload'
  split_ifs at hload' with hmem
  · intro hk
    have hloaded := (loadRevoked_loaded hload).filter (·.key ≠ k)
    exact (mem_keys_filter.1 ((mem_revokedText hloaded hload' k).1 hk)).2 rfl
  · cases hload.symm.trans hload'
    exact hmem

end

end BuddyNet.Trust
