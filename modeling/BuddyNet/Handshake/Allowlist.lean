import BuddyNet.Go.LineTail
import BuddyNet.Handshake.Authorizer
import BuddyNet.Library.FirstDistinct
import BuddyNet.Library.Transaction

/-!
# The allowlist file

`internal/role/authz.go`, the file helpers: `readAuthorized` and the commands `ApproveKey` and
`RevokeKey` that edit the file. The file is text that operators also write by hand. A reader takes
the first field of each line that is a key, in whatever spelling, and stops when it has 1024 of them
(`readAuthorized_eq_ok`). Approving appends a line to whatever the file ends with; revoking drops
the lines whose first field is the text it was given.

* `approve_adds_key`: when approving adds the key and nothing else;
* `revoke_removes_identity`: when revoking removes the identity and nothing else.
-/

namespace BuddyNet.Handshake.Allowlist

open Transaction FirstDistinct List Go

def maxAuthorizedKeys : ℕ := 1024

def validPubKey (b64 : Bytes) : Bool :=
  match stdEncoding.decode b64 with
  | some raw => raw.length == publicKeySize
  | none => false

/-- The errors of the reader and of the commands. -/
inductive AllowlistError where
  | notExist
  /-- `bufio.ErrTooLong`. -/
  | tooLong
  | invalidKey (key : Bytes)
  deriving DecidableEq

/-- The approved keys, with their labels. -/
abbrev Keys := AList fun _ : Bytes => Bytes

/-- The key and the label on a line; comments and lines that do not start with a key have none. -/
def authorizedLine (line : Bytes) : Option (Bytes × Bytes) :=
  let line := trimSpace line
  if line = [] ∨ line.head? = some 35 then none
  else match fields line with
    | [] => none
    | key :: rest => if validPubKey key then some (key, (lit " ").intercalate rest) else none

/-- The loop of `readAuthorized`: the keys, and whether it stopped because there are enough. -/
def collect : List Bytes → Keys → Keys × Bool
  | [], keys => (keys, false)
  | line :: rest, keys =>
    match authorizedLine line with
    | none => collect rest keys
    | some (key, label) =>
      let keys := keys.insert key label
      if maxAuthorizedKeys ≤ keys.keys.length then (keys, true) else collect rest keys

/-- `readAuthorized`. A line that is too long behind the last key that is taken does not matter. -/
def readAuthorized (file : Option Bytes) : Except AllowlistError Keys :=
  match file with
  | none => .error .notExist
  | some data =>
    let scan := scanLines data
    let (keys, full) := collect scan.1 ∅
    if !full && scan.2 then .error .tooLong else .ok keys

/-- A missing file has no keys. -/
def readOrEmpty (file : Option Bytes) : Except AllowlistError Keys :=
  match file with
  | none => .ok ∅
  | some data => readAuthorized (some data)

/-- The line that approves a key. -/
def approvedLine (key label : Bytes) : Bytes := key ++ if label = [] then [] else lit " " ++ label

/-- `ApproveKey`: whether the key was new. -/
def approveKey (key label : Bytes) : Transaction (Option Bytes) AllowlistError Bool :=
  if !validPubKey key then throw (.invalidKey key)
  else do
    let file ← read
    let keys ← ofExcept (readOrEmpty file)
    if key ∈ keys then pure false
    else do
      write fun file => some (file.getD [] ++ approvedLine key label ++ [nl])
      pure true

/-- The first field of the line is this text. -/
def startsWith (key line : Bytes) : Bool := (fields (trimSpace line)).head? == some key

/-- The lines that are left, as they are written. -/
def joined (kept : List Bytes) : Bytes :=
  let out := [nl].intercalate kept
  if out = [] then [] else out ++ [nl]

/-- `RevokeKey`: how many lines went. -/
def revokeKey (key : Bytes) : Transaction (Option Bytes) AllowlistError ℕ := do
  match ← read with
  | none => throw .notExist
  | some data =>
    let scan := scanLines data
    if scan.2 then throw .tooLong
    else do
      let removed := scan.1.countP (startsWith key)
      if removed = 0 then pure 0
      else do
        write fun _ => some (joined (scan.1.filter fun line => !startsWith key line))
        pure removed

/-! ### Reading -/

variable {key : Bytes}

theorem validPubKey_iff : validPubKey key = true ↔
    ∃ id, decodePubKey key = some id := by
  unfold validPubKey decodePubKey
  cases stdEncoding.decode key with
  | none => simp
  | some raw =>
    by_cases hlen : raw.length = publicKeySize
    · simp [hlen]
    · simp [hlen]

/-- A key is written with characters that are no white space, apart from line breaks. -/
theorem isToken_of_valid (h : validPubKey key = true)
    (hbreak : ∀ c ∈ key, Encoding.isNewline c = false) : IsToken key := by
  obtain ⟨id, hid⟩ := validPubKey_iff.1 h
  have hquanta : ∃ raw, stdEncoding.decodeQuanta (key.filter (!Encoding.isNewline ·)) =
      some raw := by
    unfold decodePubKey at hid
    split at hid
    · cases hid
    · next raw hraw => exact ⟨raw, hraw⟩
  obtain ⟨raw, hraw⟩ := hquanta
  have hall : ∀ n : Fin 256, (stdEncoding.value (UInt8.ofNat n)).isSome = true →
      (UInt8.ofNat n).toNat < 0x80 ∧ isSpace (UInt8.ofNat n).toNat = false := by decide +kernel
  intro c hc
  have hmem : c ∈ key.filter (!Encoding.isNewline ·) :=
    mem_filter.2 ⟨hc, by rw [hbreak c hc]; rfl⟩
  rcases Encoding.decodeQuanta_alphabet hraw c hmem with ⟨v, hv⟩ | rfl
  · have hc256 := hall ⟨c.toNat, c.toNat_lt⟩
    rw [UInt8.ofNat_toNat] at hc256
    exact hc256 (by rw [hv]; rfl)
  · exact ⟨by unfold IsASCII; decide, by decide⟩

theorem ne_nil_of_valid (h : validPubKey key = true) : key ≠ [] := by
  rintro rfl
  exact absurd h (by decide)

theorem not_valid_comment (rest : Bytes) : validPubKey (35 :: rest) = false := by
  by_contra hvalid
  rw [Bool.not_eq_false] at hvalid
  obtain ⟨id, hid⟩ := validPubKey_iff.1 hvalid
  unfold decodePubKey at hid
  split at hid
  · cases hid
  · next raw hraw =>
    have hmem : (35 : UInt8) ∈ (35 :: rest).filter (!Encoding.isNewline ·) :=
      mem_filter.2 ⟨mem_cons_self, by decide⟩
    rcases Encoding.decodeQuanta_alphabet hraw 35 hmem with ⟨v, hv⟩ | hpad
    · have hnone : stdEncoding.value 35 = none := by decide
      cases hv
    · exact absurd hpad (by decide)

theorem authorizedLine_eq (line : Bytes) : authorizedLine line =
    match fields line with
    | [] => none
    | key :: rest => if validPubKey key then some (key, (lit " ").intercalate rest) else none := by
  unfold authorizedLine
  dsimp only
  rw [fields_trimSpace]
  split_ifs with h
  · rcases h with hnil | hcomment
    · rw [← fields_trimSpace, hnil, fields_nil]
    · obtain ⟨t, ht⟩ := List.head?_eq_some_iff.1 hcomment
      obtain ⟨f, fs, hf⟩ := fields_cons (c := 35) (by unfold IsASCII; decide) (by decide) t
      rw [← fields_trimSpace, ht, hf]
      dsimp only
      rw [not_valid_comment]
      rfl
  · rfl

/-- The keys on some lines, in order and with repetitions. -/
def listed (ls : List Bytes) : List Bytes := (ls.filterMap authorizedLine).map (·.1)

theorem listed_append (ls ls' : List Bytes) : listed (ls ++ ls') = listed ls ++ listed ls' := by
  rw [listed, filterMap_append, map_append]
  rfl

theorem authorizedLine_congr {l l' : Bytes} (h : fields l = fields l') :
    authorizedLine l = authorizedLine l' := by
  rw [authorizedLine_eq, authorizedLine_eq, h]

theorem listed_dropCR (ls : List Bytes) : listed (ls.map dropCR) = listed ls := by
  rw [listed, filterMap_map]
  congr 1
  exact filterMap_congr fun l _ => authorizedLine_congr (fields_dropCR l)

variable {label : Bytes} {line : Bytes}

theorem listed_singleton (h : authorizedLine line = some (key, label)) : listed [line] = [key] := by
  rw [listed, filterMap_cons_some h]
  rfl

theorem listed_singleton_none (h : authorizedLine line = none) : listed [line] = [] := by
  rw [listed, filterMap_cons_none h]
  rfl

/-- A map and a list of its keys. -/
structure Same (keys : Keys) (acc : List Bytes) : Prop where
  mem : ∀ k, k ∈ keys ↔ k ∈ acc
  length : keys.keys.length = acc.length

variable {keys : Keys} {acc : List Bytes}

theorem Same.insert (h : Same keys acc)
    (hroom : acc.length < maxAuthorizedKeys) (key label : Bytes) :
    Same (keys.insert key label) (enlist maxAuthorizedKeys acc key) := by
  refine ⟨fun k => ?_, ?_⟩
  · rw [AList.mem_insert, mem_enlist hroom, h.mem, or_comm]
  · rw [keys_length_insert]
    unfold enlist
    by_cases hmem : key ∈ acc
    · rw [if_pos (Or.inl hmem), keys_length_erase_of_mem ((h.mem key).2 hmem), h.length]
    · have hnot : key ∉ keys := fun hk => hmem ((h.mem key).1 hk)
      rw [if_neg (not_or.2 ⟨hmem, not_le.2 hroom⟩), keys_erase_of_notMem hnot, h.length,
        length_append]
      rfl

/-- **The loop keeps the first 1024 different keys.** -/
theorem collect_spec (h : Same keys acc)
    (hroom : acc.length < maxAuthorizedKeys) (ls : List Bytes) :
    Same (collect ls keys).1 ((listed ls).foldl (enlist maxAuthorizedKeys) acc) ∧
      ((collect ls keys).2 = true ↔
        maxAuthorizedKeys ≤ ((listed ls).foldl (enlist maxAuthorizedKeys) acc).length) := by
  induction ls generalizing keys acc with
  | nil =>
    refine ⟨h, ?_⟩
    show false = true ↔ maxAuthorizedKeys ≤ acc.length
    simp [hroom]
  | cons line ls ih =>
    have hcons : listed (line :: ls) = listed [line] ++ listed ls := listed_append [line] ls
    rw [collect, hcons, foldl_append]
    cases hline : authorizedLine line with
    | none =>
      rw [listed_singleton_none hline]
      exact ih h hroom
    | some entry =>
      obtain ⟨key, label⟩ := entry
      have hsame := h.insert hroom key label
      rw [listed_singleton hline, foldl_cons, foldl_nil]
      dsimp only
      split_ifs with hfull
      · rw [hsame.length] at hfull
        rw [foldl_enlist_full hfull]
        exact ⟨hsame, by simp [hfull]⟩
      · rw [hsame.length] at hfull
        exact ih hsame (not_le.1 hfull)

/-- The keys that are taken from some lines. -/
def taken (ls : List Bytes) : List Bytes := firstDistinct maxAuthorizedKeys (listed ls)

theorem collect_taken (ls : List Bytes) : Same (collect ls ∅).1 (taken ls) ∧
    ((collect ls ∅).2 = true ↔ maxAuthorizedKeys ≤ (taken ls).length) :=
  collect_spec ⟨fun k => by simp, rfl⟩ (by decide) ls

variable {data : Bytes}

/-- **What a reader takes from a file**: the first 1024 keys on its lines, unless a line is too long
and there are fewer. -/
theorem readAuthorized_eq_ok
    (h : readAuthorized (some data) = .ok keys) : Same keys (taken (scanLines data).1) ∧
      ((scanLines data).2 = true →
        maxAuthorizedKeys ≤ (taken (scanLines data).1).length) := by
  obtain ⟨hsame, hfull⟩ := collect_taken (scanLines data).1
  simp only [readAuthorized] at h
  split_ifs at h with hlong
  cases h
  refine ⟨hsame, fun htoo => ?_⟩
  rw [← hfull]
  by_contra hnot
  exact hlong (by simp [htoo, hnot])

theorem exists_readAuthorized (h : (scanLines data).2 = false) :
    ∃ keys, readAuthorized (some data) = .ok keys := by
  simp [readAuthorized, h]

/-! ### Approving -/

theorem readOrEmpty_eq (file : Option Bytes) :
    readOrEmpty file = readAuthorized (some (file.getD [])) := by
  cases file <;> rfl

/-- The file with a line behind it. -/
def appended (data key label : Bytes) : Bytes := data ++ approvedLine key label ++ [nl]

theorem approveKey_ensures (file : Option Bytes) (label : Bytes) (hvalid : validPubKey key = true) :
    Ensures (approveKey key label) file fun _ t =>
      ∃ keys, readOrEmpty file = .ok keys ∧ (key ∈ keys ∧ t = file ∨
        key ∉ keys ∧ t = some (appended (file.getD []) key label)) := by
  unfold approveKey
  rw [hvalid, Bool.not_true, if_neg Bool.false_ne_true]
  refine Ensures.read_bind (Ensures.ofExcept_bind fun keys hkeys => ?_)
  split_ifs with hmem
  · exact Ensures.pure ⟨keys, hkeys, Or.inl ⟨hmem, rfl⟩⟩
  · exact Ensures.write_bind (Ensures.pure ⟨keys, hkeys, Or.inr ⟨hmem, rfl⟩⟩)

/-- A line can be appended: the key is on one line, the text behind the last newline is blank, there
are fewer keys than a reader takes, and the line is short enough to be read. -/
structure Appendable (data : Bytes) (keys : Keys) (key label : Bytes) : Prop where
  oneLine : ∀ c ∈ key, Encoding.isNewline c = false
  blank : fields (unfinished data) = []
  room : keys.keys.length < maxAuthorizedKeys
  short : (unfinished data ++ approvedLine key label).length < maxScanTokenSize

theorem authorizedLine_blank (h : fields line = []) : authorizedLine line = none := by
  rw [authorizedLine_eq, h]

variable {tail : Bytes}

/-- The line that approves a key, behind white space. -/
theorem authorizedLine_approved (hvalid : validPubKey key = true)
    (hbreak : ∀ c ∈ key, Encoding.isNewline c = false) (hblank : fields tail = [])
    (label : Bytes) : ∃ text, authorizedLine (tail ++ approvedLine key label) =
    some (key, text) := by
  have htoken := isToken_of_valid hvalid hbreak
  have hne := ne_nil_of_valid hvalid
  have hfields : ∃ rest, fields (tail ++ approvedLine key label) = key :: rest := by
    rw [approvedLine, fields_blank_append hblank htoken hne]
    split_ifs
    · exact ⟨[], by rw [append_nil, fields_token htoken hne]⟩
    · refine ⟨fields label, ?_⟩
      show fields (key ++ 32 :: label) = _
      rw [fields_append (by unfold IsASCII; decide) (by decide), fields_token htoken hne]
      rfl
  obtain ⟨rest, hrest⟩ := hfields
  exact ⟨_, by rw [authorizedLine_eq, hrest]; dsimp only; rw [if_pos hvalid]⟩

variable {ls : List Bytes}

theorem scanLines_appended
    (hls : ∀ l ∈ ls, nl ∉ l ∧ l.length < maxScanTokenSize) (hno : nl ∉ tail ++ line) :
    scanLines (unlines ls ++ tail ++ line ++ [nl]) =
      if maxScanTokenSize ≤ (tail ++ line).length then (ls.map dropCR, true)
      else (ls.map dropCR ++ [dropCR (tail ++ line)], false) := by
  have hsplit : unlines ls ++ tail ++ line ++ [nl] =
      unlines ls ++ ((tail ++ line) ++ nl :: []) := by simp
  rw [hsplit, scanLines_unlines_append hls, scanLines_append hno]
  split_ifs
  · simp
  · rfl

theorem listed_scan_tail (hno : nl ∉ tail)
    (hread : (scanLines tail).2 = false) : listed (scanLines tail).1 = listed [tail] := by
  rcases eq_or_ne tail [] with rfl | hne
  · rfl
  · rw [scanLines_last hno hne] at hread ⊢
    split_ifs at hread ⊢
    exact listed_dropCR [tail]

/-- A file with room for more keys was read to its end. -/
theorem exists_read_parts (h : readAuthorized (some data) = .ok keys)
    (hroom : keys.keys.length < maxAuthorizedKeys) :
    ∃ ls tail, data = unlines ls ++ tail ∧ nl ∉ tail ∧
      (∀ l ∈ ls, nl ∉ l ∧ l.length < maxScanTokenSize) ∧
    Same keys (taken (ls ++ [tail])) := by
  obtain ⟨hsame, hlong⟩ := readAuthorized_eq_ok h
  rw [hsame.length] at hroom
  have hread : (scanLines data).2 = false := by
    cases hscan : (scanLines data).2 with
    | false => rfl
    | true => exact absurd (hlong hscan) (not_le.2 hroom)
  obtain ⟨ls, tail, rfl, hls, htail⟩ := exists_unlines data
  have hshort : ∀ l ∈ ls, nl ∉ l ∧ l.length < maxScanTokenSize := by
    refine fun l hl => ⟨hls l hl, ?_⟩
    by_contra hlen
    obtain ⟨xs, hxs⟩ := scanLines_unlines_long hls ⟨l, hl, not_lt.1 hlen⟩
    rw [hxs] at hread
    cases hread
  rw [scanLines_unlines_append hshort] at hread hsame
  rw [taken, listed_append, listed_dropCR, listed_scan_tail htail hread, ← listed_append] at hsame
  exact ⟨ls, tail, rfl, htail, hshort, hsame⟩

theorem mem_listed (h : key ∈ listed ls) : ∃ l ∈ ls, (fields l).head? = some key := by
  obtain ⟨⟨key, label⟩, hentry, rfl⟩ := mem_map.1 h
  obtain ⟨l, hl, hline⟩ := mem_filterMap.1 hentry
  refine ⟨l, hl, ?_⟩
  rw [authorizedLine_eq] at hline
  split at hline
  · cases hline
  · next f rest hf =>
    split_ifs at hline
    cases hline
    rw [hf]
    rfl

theorem oneLine_of_mem (h : key ∈ listed ls) : ∀ c ∈ key, Encoding.isNewline c = false := by
  obtain ⟨l, -, hhead⟩ := mem_listed h
  have hspace := (mem_fields (mem_of_head? hhead)).2
  intro c hc
  rw [Bool.eq_false_iff]
  intro hbreak
  rcases Encoding.isNewline_iff.1 hbreak with rfl | rfl
  · exact absurd (hspace _ hc (by unfold IsASCII; decide)) (by decide)
  · exact absurd (hspace _ hc (by unfold IsASCII; decide)) (by decide)

/-- A key that comes first behind other text was read before. -/
theorem blank_of_head (hvalid : validPubKey key = true)
    (hbreak : ∀ c ∈ key, Encoding.isNewline c = false) (label : Bytes)
    (hhead : (fields (tail ++ approvedLine key label)).head? = some key)
    (hnew : key ∉ listed [tail]) : fields tail = [] := by
  by_contra hblank
  obtain ⟨f, fs, hf, hcases⟩ := fields_head_seam hblank (isToken_of_valid hvalid hbreak)
    (ne_nil_of_valid hvalid) (if label = [] then [] else lit " " ++ label)
  rcases hcases with ⟨fs', hfirst⟩ | ⟨hne, w, fs', hgrow⟩
  · rw [approvedLine, hfirst] at hhead
    cases hhead
    have hline : authorizedLine tail = some (key, (lit " ").intercalate fs) := by
      rw [authorizedLine_eq, hf]
      dsimp only
      rw [if_pos hvalid]
    exact hnew (by rw [listed_singleton hline]; exact mem_singleton_self key)
  · rw [approvedLine, hgrow] at hhead
    have hlen := congrArg List.length (Option.some.inj hhead)
    have hpos := length_pos_iff.2 hne
    simp only [length_append] at hlen
    omega

variable {keys' : Keys}

theorem room_of_adds {file' : Bytes}
    (hread : readAuthorized (some file') = .ok keys') (hnew : key ∉ keys)
    (hadds : ∀ k, k ∈ keys' ↔ k ∈ keys ∨ k = key) : keys.keys.length < maxAuthorizedKeys := by
  have hperm : keys'.keys.Perm (key :: keys.keys) := by
    refine (perm_ext_iff_of_nodup keys'.keys_nodup ?_).2 fun k => ?_
    · exact nodup_cons.2 ⟨fun h => hnew (AList.mem_keys.2 h), keys.keys_nodup⟩
    · rw [← AList.mem_keys, hadds, mem_cons, ← AList.mem_keys, or_comm]
  have hlen := hperm.length_eq
  have hcap : (taken (scanLines file').1).length ≤ maxAuthorizedKeys :=
    length_firstDistinct_le _
  rw [(readAuthorized_eq_ok hread).1.length, length_cons] at hlen
  omega

theorem nl_notMem_approvedLine (hbreak : ∀ c ∈ key, Encoding.isNewline c = false)
    (hlabel : nl ∉ label) : nl ∉ approvedLine key label := by
  have hkey : nl ∉ key := fun h => absurd (hbreak _ h) (by decide)
  rw [approvedLine, mem_append, not_or]
  refine ⟨hkey, ?_⟩
  split_ifs
  · exact not_mem_nil
  · rw [mem_append, not_or]
    exact ⟨by decide, hlabel⟩

/-- What a reader finds behind an append to a file that was read to its end. -/
theorem readAuthorized_appended (hls : ∀ l ∈ ls, nl ∉ l ∧ l.length < maxScanTokenSize)
    (hno : nl ∉ tail ++ approvedLine key label)
    (h : readAuthorized (some (appended (unlines ls ++ tail) key label)) = .ok keys') :
    ∀ k, k ∈ keys' → k ∈ listed ls ∨ (tail ++ approvedLine key label).length < maxScanTokenSize ∧
      k ∈ listed [tail ++ approvedLine key label] := by
  intro k hk
  have hmem := mem_of_mem_firstDistinct (((readAuthorized_eq_ok h).1.mem k).1 hk)
  rw [appended, scanLines_appended hls hno] at hmem
  split_ifs at hmem with hlong
  · rw [listed_dropCR] at hmem
    exact Or.inl hmem
  · rw [← map_singleton, ← map_append, listed_dropCR, listed_append] at hmem
    exact (mem_append.1 hmem).imp_right fun hline => ⟨not_le.1 hlong, hline⟩

/-- The keys after an append, when the line can be appended. -/
theorem readAuthorized_of_appendable
    (hread : readAuthorized (some data) = .ok keys) (hvalid : validPubKey key = true)
    (hlabel : nl ∉ label) (h : Appendable data keys key label) :
    ∃ keys', readAuthorized (some (appended data key label)) = .ok keys' ∧
      ∀ k, k ∈ keys' ↔ k ∈ keys ∨ k = key := by
  obtain ⟨ls, tail, rfl, htail, hls, hsame⟩ := exists_read_parts hread h.room
  have hroom := h.room
  have hshort := h.short
  have hblank := h.blank
  rw [unfinished_unlines_append ls htail] at hshort hblank
  have hno : nl ∉ tail ++ approvedLine key label := fun hmem =>
    (mem_append.1 hmem).elim htail (nl_notMem_approvedLine h.oneLine hlabel)
  have hscan : scanLines (appended (unlines ls ++ tail) key label) =
      ((ls ++ [tail ++ approvedLine key label]).map dropCR, false) := by
    rw [appended, scanLines_appended hls hno, if_neg (not_le.2 hshort), map_append]
    rfl
  obtain ⟨keys', hkeys'⟩ := exists_readAuthorized (congrArg Prod.snd hscan)
  refine ⟨keys', hkeys', fun k => ?_⟩
  obtain ⟨text, hline⟩ := authorizedLine_approved hvalid h.oneLine hblank label
  have htaken : taken (ls ++ [tail]) = taken ls := by
    rw [taken, listed_append, listed_singleton_none (authorizedLine_blank hblank), append_nil]
    rfl
  rw [htaken] at hsame
  rw [hsame.length] at hroom
  rw [(readAuthorized_eq_ok hkeys').1.mem, hscan, hsame.mem, taken, listed_dropCR, listed_append,
    listed_singleton hline, mem_firstDistinct_concat hroom]
  rfl

theorem appendable_of_adds
    (hread : readAuthorized (some data) = .ok keys) (hvalid : validPubKey key = true)
    (hlabel : nl ∉ label) (hnew : key ∉ keys)
    (hread' : readAuthorized (some (appended data key label)) = .ok keys')
    (hadds : ∀ k, k ∈ keys' ↔ k ∈ keys ∨ k = key) : Appendable data keys key label := by
  have hroom := room_of_adds hread' hnew hadds
  have hmem : key ∈ keys' := (hadds key).2 (Or.inr rfl)
  have hbreak := oneLine_of_mem (mem_of_mem_firstDistinct
    (((readAuthorized_eq_ok hread').1.mem key).1 hmem))
  obtain ⟨ls, tail, rfl, htail, hls, hsame⟩ := exists_read_parts hread hroom
  have hno : nl ∉ tail ++ approvedLine key label := fun hmem =>
    (mem_append.1 hmem).elim htail (nl_notMem_approvedLine hbreak hlabel)
  -- There is room, so every key on a line was read; the new one was not on any.
  have hunlisted : key ∉ listed ls ∧ key ∉ listed [tail] := by
    rw [hsame.length] at hroom
    rwa [hsame.mem, taken, mem_firstDistinct_of_room hroom, listed_append, mem_append,
      not_or] at hnew
  rcases readAuthorized_appended hls hno hread' key hmem with hold | ⟨hshort, hline⟩
  · exact absurd hold hunlisted.1
  obtain ⟨l, hl, hhead⟩ := mem_listed hline
  rw [mem_singleton.1 hl] at hhead
  have hblank := blank_of_head hvalid hbreak label hhead hunlisted.2
  refine ⟨hbreak, ?_, hroom, ?_⟩
  · rwa [unfinished_unlines_append ls htail]
  · rwa [unfinished_unlines_append ls htail]

/-- **When approving adds the key and nothing else**: the key is listed, or its line can be
appended. Otherwise the line is joined to an unfinished one, cannot be read, or is behind too many
others. -/
theorem approve_adds_key {file : Option Bytes} {key label : Bytes} {isNew : Bool}
    (hvalid : validPubKey key = true) (hlabel : nl ∉ label)
    (hok : (approveKey key label file).2 = .ok isNew) :
    ∃ keys, readOrEmpty file = .ok keys ∧
      ((∃ keys', readOrEmpty ((approveKey key label).final file) = .ok keys' ∧
          ∀ k, k ∈ keys' ↔ k ∈ keys ∨ k = key) ↔
        key ∈ keys ∨ Appendable (file.getD []) keys key label) := by
  obtain ⟨keys, hread, hcases⟩ := approveKey_ensures file label hvalid isNew hok
  refine ⟨keys, hread, ?_⟩
  rcases hcases with ⟨hmem, hfinal⟩ | ⟨hnew, hfinal⟩
  · rw [hfinal]
    refine ⟨fun _ => Or.inl hmem, fun _ => ⟨keys, hread, fun k => ⟨Or.inl, ?_⟩⟩⟩
    rintro (hk | rfl)
    · exact hk
    · exact hmem
  rw [hfinal]
  rw [readOrEmpty_eq] at hread
  constructor
  · rintro ⟨keys', hread', hadds⟩
    exact Or.inr (appendable_of_adds hread hvalid hlabel hnew hread' hadds)
  · rintro (hmem | h)
    · exact absurd hmem hnew
    · exact readAuthorized_of_appendable hread hvalid hlabel h

/-- Two keys as an operator writes them. -/
def laptop : Bytes := pubKeyB64 (List.replicate 32 1)

def phone : Bytes := pubKeyB64 (List.replicate 32 2)

/-- The last line of the file has no newline: the key that is approved is written onto it, and
neither of the two is authorized afterwards. -/
theorem approve_adds_key_fails :
    validPubKey phone = true ∧ (approveKey phone [] (some laptop)).2 = .ok true ∧
      (readOrEmpty (some laptop)).map (·.keys) = .ok [laptop] ∧
      (readOrEmpty ((approveKey phone []).final (some laptop))).map (·.keys) = .ok [] := by
  decide +kernel

/-- A list with a comment, a blank line and one key, and a newline at its end. -/
def people : Bytes := unlines [lit "# people", [], laptop ++ lit "  # laptop"]

theorem approve_adds_key_second :
    (approveKey phone (lit "phone") (some people)).2 = .ok true ∧
      ∃ keys', readOrEmpty ((approveKey phone (lit "phone")).final (some people)) = .ok keys' ∧
        ∀ k, k ∈ keys' ↔ k = laptop ∨ k = phone := by
  have hok : (approveKey phone (lit "phone") (some people)).2 = .ok true := by decide +kernel
  obtain ⟨keys, hread, hiff⟩ := approve_adds_key (by decide +kernel) (by decide) hok
  have hkeys : (readOrEmpty (some people)).map (·.keys) = .ok [laptop] := by decide +kernel
  rw [hread] at hkeys
  have hlist : keys.keys = [laptop] := Except.ok.inj hkeys
  have hmem : ∀ k, k ∈ keys ↔ k = laptop := fun k => by
    rw [AList.mem_keys, hlist, mem_singleton]
  have happend : Appendable people keys phone (lit "phone") :=
    ⟨by decide +kernel, by decide +kernel, by rw [hlist]; decide, by decide +kernel⟩
  obtain ⟨keys', hkeys', hadds⟩ := hiff.2 (Or.inr happend)
  exact ⟨hok, keys', hkeys', fun k => by rw [hadds, hmem]⟩

/-! ### Revoking -/

variable {kept : List Bytes}

theorem intercalate_concat (h : kept ≠ []) :
    [nl].intercalate kept ++ [nl] = unlines kept := by
  induction kept with
  | nil => exact absurd rfl h
  | cons l kept ih =>
    cases kept with
    | nil => simp [unlines]
    | cons l' kept =>
      rw [intercalate_cons_cons, unlines_cons, ← ih (by simp)]
      simp

/-- The rewritten file lists the keys on the lines that are left. -/
theorem scan_joined (h : kept ⊆ (scanLines data).1) :
    (scanLines (joined kept)).2 = false ∧
    listed (scanLines (joined kept)).1 = listed kept := by
  have hunlines := scanLines_rewrite h
  unfold joined
  dsimp only
  split_ifs with hout
  · refine ⟨rfl, ?_⟩
    cases kept with
    | nil => rfl
    | cons l kept =>
      -- Nothing is written for one empty line.
      have hone := intercalate_concat (cons_ne_nil l kept)
      rw [hout, nil_append, unlines_cons] at hone
      have hlen := congrArg List.length hone
      simp only [length_append, length_cons, length_nil] at hlen
      have hl : l = [] := length_eq_zero_iff.1 (by omega)
      have hrest : unlines kept = [] := length_eq_zero_iff.1 (by omega)
      cases kept with
      | nil => rw [hl]; rfl
      | cons l' kept =>
        rw [unlines_cons] at hrest
        simp at hrest
  · have hne : kept ≠ [] := by
      rintro rfl
      exact hout rfl
    rw [intercalate_concat hne, hunlines]
    exact ⟨rfl, listed_dropCR kept⟩

theorem startsWith_eq (key line : Bytes) :
    startsWith key line = ((fields line).head? == some key) := by
  rw [startsWith, fields_trimSpace]

theorem listed_filter (key : Bytes) (ls : List Bytes) :
    listed (ls.filter fun line => !startsWith key line) = (listed ls).filter (· != key) := by
  induction ls with
  | nil => rfl
  | cons l ls ih =>
    have hcons : ∀ ls', listed (l :: ls') = listed [l] ++ listed ls' := listed_append [l]
    rw [hcons, filter_append, ← ih, filter_cons]
    cases hline : authorizedLine l with
    | none =>
      rw [listed_singleton_none hline]
      split_ifs
      · rw [hcons, listed_singleton_none hline]
        rfl
      · rfl
    | some entry =>
      obtain ⟨k, label⟩ := entry
      have hsingle := listed_singleton hline
      have hmem : k ∈ listed [l] := hsingle ▸ mem_singleton_self k
      obtain ⟨l', hl', hhead⟩ := mem_listed hmem
      rw [mem_singleton.1 hl'] at hhead
      rw [hsingle, startsWith_eq, hhead]
      by_cases hk : k = key
      · simp [hk]
      · rw [if_pos (by simpa using hk), hcons, hsingle, filter_cons_of_pos (by simpa using hk)]
        rfl

/-- The first 1024 different keys of the file, apart from one text. -/
def others (data key : Bytes) : List Bytes :=
  firstDistinct maxAuthorizedKeys ((listed (scanLines data).1).filter (· != key))

/-- What a reader finds after `RevokeKey`: the keys of the file apart from the text. -/
theorem revokeKey_ensures (file : Option Bytes) (key : Bytes) :
    Ensures (revokeKey key) file fun _ t =>
      ∃ data keys keys', file = some data ∧ readAuthorized file = .ok keys ∧
        readAuthorized t = .ok keys' ∧ Same keys (taken (scanLines data).1) ∧
        Same keys' (others data key) := by
  refine Ensures.read_bind ?_
  cases file with
  | none => exact Ensures.throw
  | some data =>
    dsimp only
    split_ifs with hlong hnone
    · exact Ensures.throw
    · obtain ⟨keys, hread⟩ := exists_readAuthorized (Bool.eq_false_iff.2 hlong)
      obtain ⟨hsame, -⟩ := readAuthorized_eq_ok hread
      have hkeep : (scanLines data).1.filter (fun line => !startsWith key line) =
          (scanLines data).1 := by
        refine filter_eq_self.2 fun l hl => ?_
        simpa using countP_eq_zero.1 hnone l hl
      have hothers : others data key = taken (scanLines data).1 := by
        rw [others, ← listed_filter, hkeep]
        rfl
      refine Ensures.pure ⟨data, keys, keys, rfl, hread, hread, hsame, ?_⟩
      rwa [hothers]
    · obtain ⟨keys, hread⟩ := exists_readAuthorized (Bool.eq_false_iff.2 hlong)
      obtain ⟨hsame, -⟩ := readAuthorized_eq_ok hread
      have hsub : (scanLines data).1.filter (fun line => !startsWith key line) ⊆
          (scanLines data).1 := fun l hl => mem_of_mem_filter hl
      obtain ⟨hscan, hlisted⟩ := scan_joined hsub
      obtain ⟨keys', hread'⟩ := exists_readAuthorized hscan
      obtain ⟨hsame', -⟩ := readAuthorized_eq_ok hread'
      rw [taken, hlisted, listed_filter] at hsame'
      exact Ensures.write_bind (Ensures.pure ⟨data, keys, keys', rfl, hread, hread', hsame, hsame'⟩)

/-- The identities that some approved keys stand for. -/
def identities (keys : Keys) : Set Bytes := {id | ∃ k ∈ keys, decodePubKey k = some id}

/-- The identity has no other spelling in the file, and no key of another one comes into reach when
the text is gone. -/
structure Revocable (data key : Bytes) : Prop where
  spelling : ∀ k ∈ others data key, decodePubKey k ≠ decodePubKey key
  waiting : ∀ k ∈ others data key, k ∉ taken (scanLines data).1 →
    ∃ k' ∈ taken (scanLines data).1, decodePubKey k' = decodePubKey k

theorem mem_listed_valid (h : key ∈ listed ls) : ∃ id, decodePubKey key = some id := by
  obtain ⟨⟨key, label⟩, hentry, rfl⟩ := mem_map.1 h
  obtain ⟨l, -, hline⟩ := mem_filterMap.1 hentry
  rw [authorizedLine_eq] at hline
  split at hline
  · cases hline
  · split_ifs at hline with hvalid
    cases hline
    exact validPubKey_iff.1 hvalid

theorem mem_others {k : Bytes} (h : k ∈ others data key) :
    k ∈ listed (scanLines data).1 ∧ k ≠ key := by
  have hmem := mem_of_mem_firstDistinct h
  simpa using mem_filter.1 hmem

/-- **When revoking removes the identity and nothing else**: it has no other spelling among the keys
that are left, and no key behind the first 1024 takes the free place. -/
theorem revoke_removes_identity {file : Option Bytes} {key : Bytes} {removed : ℕ}
    (hok : (revokeKey key file).2 = .ok removed) :
    ∃ data keys keys', file = some data ∧ readAuthorized file = .ok keys ∧
      readAuthorized ((revokeKey key).final file) = .ok keys' ∧
      ((∀ id, id ∈ identities keys' ↔ id ∈ identities keys ∧ decodePubKey key ≠ some id) ↔
        Revocable data key) := by
  obtain ⟨data, keys, keys', hfile, hread, hread', hsame, hsame'⟩ :=
    revokeKey_ensures file key removed hok
  refine ⟨data, keys, keys', hfile, hread, hread', ?_⟩
  constructor
  · intro hids
    refine ⟨fun k hk hspell => ?_, fun k hk _ => ?_⟩
    · obtain ⟨id, hid⟩ := mem_listed_valid (mem_others hk).1
      exact ((hids id).1 ⟨k, (hsame'.mem k).2 hk, hid⟩).2 (hspell ▸ hid)
    · obtain ⟨id, hid⟩ := mem_listed_valid (mem_others hk).1
      obtain ⟨⟨k', hk', hid'⟩, -⟩ := (hids id).1 ⟨k, (hsame'.mem k).2 hk, hid⟩
      exact ⟨k', (hsame.mem k').1 hk', hid'.trans hid.symm⟩
  · rintro hclean id
    constructor
    · rintro ⟨k, hk, hid⟩
      have hother := (hsame'.mem k).1 hk
      refine ⟨?_, fun hkey => hclean.spelling k hother (hid.trans hkey.symm)⟩
      by_cases htaken : k ∈ taken (scanLines data).1
      · exact ⟨k, (hsame.mem k).2 htaken, hid⟩
      · obtain ⟨k', hk', hid'⟩ := hclean.waiting k hother htaken
        exact ⟨k', (hsame.mem k').2 hk', hid'.trans hid⟩
    · rintro ⟨⟨k, hk, hid⟩, hkey⟩
      have hne : k ≠ key := fun heq => hkey (heq ▸ hid)
      refine ⟨k, (hsame'.mem k).2 ?_, hid⟩
      exact mem_firstDistinct_filter ((hsame.mem k).1 hk) (by simpa using hne)

/-- The laptop's key with other bits behind its last digit: the same 32 bytes. -/
def laptopAgain : Bytes := laptop.take 42 ++ lit "F="

/-- The key stands in the file in two spellings: the one that is revoked goes, and the identity
stays authorized. -/
theorem revoke_removes_identity_fails :
    (revokeKey laptop (some (unlines [laptop, laptopAgain]))).2 = .ok 1 ∧
      (readAuthorized ((revokeKey laptop).final (some (unlines [laptop, laptopAgain])))).map
        (·.keys) = .ok [laptopAgain] ∧
      decodePubKey laptopAgain = decodePubKey laptop := by
  decide +kernel

theorem revoke_removes_identity_laptop :
    (revokeKey laptop (some (unlines [laptop, phone]))).2 = .ok 1 ∧
      ∃ keys keys', readAuthorized (some (unlines [laptop, phone])) = .ok keys ∧
        readAuthorized ((revokeKey laptop).final (some (unlines [laptop, phone]))) = .ok keys' ∧
        ∀ id, id ∈ identities keys' ↔ id ∈ identities keys ∧ decodePubKey laptop ≠ some id := by
  have hok : (revokeKey laptop (some (unlines [laptop, phone]))).2 = .ok 1 := by decide +kernel
  obtain ⟨data, keys, keys', hfile, hread, hread', hiff⟩ := revoke_removes_identity hok
  cases hfile
  exact ⟨hok, keys, keys', hread, hread', hiff.2 ⟨by decide +kernel, by decide +kernel⟩⟩

end BuddyNet.Handshake.Allowlist
