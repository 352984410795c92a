import BuddyNet.Trust.Spelling

/-!
# The session store

`known_peers` is a text file with two kinds of lines that is rewritten as a whole by `saveSession`
and `removeSession` and extended by `learnPeer`.

* `save_preserves`: a save keeps the other lines of the file exactly when the scanner gets to all of
  them; it stops at a line of 64 KiB, and `saveSession` does not notice;
* `Record`: the lines that the three functions write. Whatever order the calls come in, the file
  is the text of the records that the calls leave behind (`stored_run`);
* `store_is_map`: what `loadSessions` and `loadSessionFor` find is the last secret saved for a key,
  and what was learned stays.
-/

namespace BuddyNet.Trust

open Transaction List Machine Go

variable {cr : Crypto} {f : Files}

/-! ### What a save keeps -/

/-- The lines of the store, without the carriage return of a line that ends in one. -/
def storeLines (file : Option Bytes) : List Bytes :=
  match file with
  | none => []
  | some data => (lines data).map dropCR

/-- The lines from the first one on that does not fit into the scanner's buffer. -/
def unreadLines (file : Option Bytes) : List Bytes :=
  match file with
  | none => []
  | some data =>
    ((lines data).dropWhile fun l => l.length < maxScanTokenSize).map dropCR

/-- The lines that a rewrite keeps of a text are those a scanner gets to. -/
theorem keptLines_scanLines (partner data : Bytes) :
    keptLines partner (scanLines data).1 = keptLines partner
      (((lines data).takeWhile fun l => l.length < maxScanTokenSize).map dropCR) := by
  induction data using line_induction with
  | last l hl =>
    rw [lines_of_not_mem hl]
    rcases eq_or_ne l [] with rfl | hne
    · rfl
    · rw [← scanLinesAux_of_length_le (Nat.le_succ _), scanLinesAux_succ hne,
        cutLine_of_not_mem hl]
      by_cases hlong : maxScanTokenSize ≤ l.length
      · simp [hlong, Nat.not_lt.2 hlong]
      · simp [hlong, Nat.lt_of_not_le hlong]
  | cons l r hl ih =>
    rw [scanLines_append hl, lines_append, lines_of_not_mem hl, singleton_append]
    by_cases hlong : maxScanTokenSize ≤ l.length
    · rw [if_pos hlong, takeWhile_cons_of_neg (by simpa using hlong)]
      rfl
    · rw [if_neg hlong, takeWhile_cons_of_pos (by simpa using hlong)]
      simp only [keptLines, map_cons, filter_cons] at ih ⊢
      rw [ih]

/-- What is read and what is not read is everything. -/
theorem keptLines_storeLines (partner : Bytes) (file : Option Bytes) :
    keptLines partner (storeLines file) =
      keptLines partner (scanStore file).1 ++ keptLines partner (unreadLines file) := by
  cases file with
  | none => rfl
  | some data =>
    show keptLines partner ((lines data).map dropCR) =
      keptLines partner (scanLines data).1 ++ keptLines partner (unreadLines (some data))
    rw [keptLines_scanLines, unreadLines, keptLines, keptLines, keptLines, ← filter_append,
      ← map_append, takeWhile_append_dropWhile]

/-- The line that a save writes. -/
def sessionText (cr : Crypto) (token partner secret : Bytes) : Bytes :=
  tokenKey cr token ++ lit " " ++ partner ++ lit " " ++ secret

/-- The lines of a text can be taken away when nothing is written for them. -/
theorem unlines_eq_self (ls ls' : List Bytes) (l : Bytes) :
    unlines (ls ++ [l]) = unlines (ls ++ ls' ++ [l]) ↔ ls' = [] := by
  refine ⟨fun h => ?_, fun h => by rw [h, append_nil]⟩
  have hlen := congrArg length h
  simp only [unlines_append, length_append] at hlen
  cases ls' with
  | nil => rfl
  | cons l' ls' =>
    simp only [unlines_cons, length_append, length_cons] at hlen
    omega

/-- **A save loses nothing exactly when the scanner gets to every line that is to be kept.**
Otherwise it has reported success, and the lines behind the one that is too long are gone. -/
theorem save_preserves (cr : Crypto) (f : Files) (token partner secret : Bytes) :
    ((∃ e, (saveSessionLocked cr token partner secret f).2 = .error e) ∧
        (saveSessionLocked cr token partner secret).final f = f ∨
      (saveSessionLocked cr token partner secret f).2 = .ok () ∧
        ((saveSessionLocked cr token partner secret).final f).knownPeers =
          some (unlines (keptLines partner (storeLines f.knownPeers) ++
            [sessionText cr token partner secret]))) ↔
      (isRevoked f partner = .ok false → keptLines partner (unreadLines f.knownPeers) = []) := by
  rcases saveSessionLocked_guarded cr f token partner secret with
    ⟨hrev, herr, hfinal⟩ | ⟨hrev, hok, hfinal⟩
  · exact iff_of_true (Or.inl ⟨herr, hfinal⟩) fun h => absurd h hrev
  · rw [hok, hfinal, keptLines_storeLines]
    simp only [hrev, true_imp_iff, reduceCtorEq, exists_false, false_and, false_or, true_and]
    rw [← unlines_eq_self (keptLines partner (scanStore f.knownPeers).1) _
      (sessionText cr token partner secret)]
    exact ⟨fun h => Option.some.inj h, fun h => congrArg some h⟩

namespace Sample

/-- A line of 64 KiB without white space. -/
def longLine : Bytes := replicate maxScanTokenSize 120

/-- The session line of another buddy. -/
def otherSession : Bytes := sessionText crypto (lit "invite") other (lit "secret")

/-- A node whose store has the long line before the other buddy's session. -/
def longNode : Files := ⟨some (longLine ++ nl :: otherSession), none, none⟩

end Sample

/-- The store has a line of 64 KiB and then the session of another buddy; a save for the first buddy
reports success and leaves its own line alone. -/
theorem save_preserves_fails :
    let save := saveSessionLocked Sample.crypto (lit "again") (pubKeyB64 Sample.key) (lit "new")
    let line := sessionText Sample.crypto (lit "again") (pubKeyB64 Sample.key) (lit "new")
    (save Sample.longNode).2 = .ok () ∧
      (save.final Sample.longNode).knownPeers = some (unlines [line]) ∧
      Sample.otherSession ∈ storeLines Sample.longNode.knownPeers ∧
      isSessionOf (pubKeyB64 Sample.key) Sample.otherSession = false := by
  intro save line
  have hx : nl ∉ Sample.longLine := fun h => absurd (eq_of_mem_replicate h) (by decide)
  have hrev : isRevoked Sample.longNode (pubKeyB64 Sample.key) = .ok false := by decide +kernel
  have hscan : scanStore Sample.longNode.knownPeers = ([], true) := by
    show scanLines (Sample.longLine ++ nl :: Sample.otherSession) = ([], true)
    rw [scanLines_append hx, Sample.longLine, length_replicate, if_pos le_rfl]
  rcases saveSessionLocked_guarded Sample.crypto Sample.longNode (lit "again")
    (pubKeyB64 Sample.key) (lit "new") with ⟨hnot, -⟩ | ⟨-, hok, hfinal⟩
  · exact absurd hrev hnot
  · refine ⟨hok, ?_, ?_, by decide +kernel⟩
    · rw [hfinal]
      rw [withSession, hscan]
      rfl
    · have hno : nl ∉ Sample.otherSession := by decide +kernel
      have hlines : lines (Sample.longLine ++ nl :: Sample.otherSession) =
          [Sample.longLine, Sample.otherSession] := by
        rw [lines_append, lines_of_not_mem hx, lines_of_not_mem hno]
        rfl
      have hsame : dropCR Sample.otherSession = Sample.otherSession := by decide +kernel
      show Sample.otherSession ∈ (lines _).map dropCR
      rw [hlines]
      exact mem_map.2 ⟨_, by simp, hsame⟩

/-! ### The lines of the store -/

/-- What the three functions write: a session, or a partner that was learned. -/
inductive Record where
  | session (token pin secret : Bytes)
  | known (token pin : Bytes)
  deriving DecidableEq

namespace Record

/-- The line of a record. -/
def text (cr : Crypto) : Record → Bytes
  | .session token pin secret => sessionText cr token (pubKeyB64 pin) secret
  | .known token pin => tokenKey cr token ++ lit " " ++ pubKeyB64 pin

/-- The record is the session of this key. -/
def isSession (key : Bytes) : Record → Bool
  | .session _ pin _ => pin = key
  | .known _ _ => false

/-- The session of a record. -/
def session? : Record → Option StoredSession
  | .session _ pin secret => some ⟨pin, secret⟩
  | .known _ _ => none

/-- The secret has no white space in it, and the line fits the scanner's buffer. -/
def Valid (cr : Crypto) (r : Record) : Prop :=
  (r.text cr).length < maxScanTokenSize ∧
    match r with
    | .session _ pin secret => pin.length = publicKeySize ∧ secret ≠ [] ∧ SpaceFree secret
    | .known _ pin => pin.length = publicKeySize

instance (r : Record) : Decidable (r.Valid cr) := by
  unfold Valid
  cases r <;> infer_instance

end Record

theorem tokenKey_isToken (token : Bytes) : IsToken (tokenKey cr token) := by
  intro c hc
  obtain ⟨b, -, hb⟩ := mem_flatMap.1 hc
  have hall : ∀ n : Fin 16, (Json.hexChar n).toNat < 0x80 ∧
      isSpace (Json.hexChar n).toNat = false := by decide
  have hlt := b.toNat_lt
  simp only [mem_cons, not_mem_nil, or_false] at hb
  rcases hb with rfl | rfl
  · exact hall ⟨b.toNat / 16, by omega⟩
  · exact hall ⟨b.toNat % 16, by omega⟩

section Lines

variable (hsha : ∀ m, (cr.sha256 m).length = 32) {r : Record}

include hsha

theorem tokenKey_ne_nil (token : Bytes) : tokenKey cr token ≠ [] := by
  intro hnil
  have hlen := hsha token
  unfold tokenKey hexEncode at hnil
  cases hsum : cr.sha256 token with
  | nil =>
    rw [hsum] at hlen
    cases hlen
  | cons b bs =>
    rw [hsum] at hnil
    cases hnil

theorem fields_tokenKey (token rest : Bytes) :
    fields (tokenKey cr token ++ lit " " ++ rest) = tokenKey cr token :: fields rest := by
  rw [show lit " " = [32] from rfl, append_assoc, singleton_append,
    fields_append (by unfold IsASCII; decide) (by decide),
    fields_token (tokenKey_isToken token) (tokenKey_ne_nil hsha token)]
  rfl

theorem fields_known {token pin : Bytes} (hlen : pin.length = publicKeySize) :
    fields ((Record.known token pin).text cr) = [tokenKey cr token, pubKeyB64 pin] := by
  rw [Record.text, fields_tokenKey hsha,
    fields_token (pubKeyB64_isToken pin) (pubKeyB64_ne_nil hlen)]

theorem fields_session {token pin secret : Bytes} (hlen : pin.length = publicKeySize)
    (hne : secret ≠ []) (hfree : SpaceFree secret) :
    fields ((Record.session token pin secret).text cr) =
      [tokenKey cr token, pubKeyB64 pin, secret] := by
  rw [Record.text, sessionText, append_assoc, append_assoc, fields_tokenKey hsha,
    show lit " " = [32] from rfl, singleton_append,
    fields_append (by unfold IsASCII; decide) (by decide),
    fields_token (pubKeyB64_isToken pin) (pubKeyB64_ne_nil hlen), fields_spaceFree hfree hne]
  rfl

theorem fields_ne_nil (h : r.Valid cr) : fields (r.text cr) ≠ [] := by
  cases r with
  | session token pin secret =>
    obtain ⟨-, hlen, hne, hfree⟩ := h
    rw [fields_session hsha hlen hne hfree]
    exact cons_ne_nil _ _
  | known token pin =>
    rw [fields_known hsha h.2]
    exact cons_ne_nil _ _

theorem trimSpace_text_ne_nil (h : r.Valid cr) : trimSpace (r.text cr) ≠ [] := by
  intro hnil
  have hfields := fields_trimSpace (r.text cr)
  rw [hnil, fields_nil] at hfields
  exact fields_ne_nil hsha h hfields.symm

theorem isSessionOf_text (h : r.Valid cr) (pin : Bytes) :
    isSessionOf (pubKeyB64 pin) (r.text cr) = r.isSession pin := by
  unfold isSessionOf
  cases r with
  | session token pin' secret =>
    obtain ⟨-, hlen, hne, hfree⟩ := h
    rw [fields_session hsha hlen hne hfree]
    by_cases hpin : pin' = pin
    · simp [Record.isSession, hpin]
    · have hkey : pubKeyB64 pin' ≠ pubKeyB64 pin := fun heq => hpin (pubKeyB64_injective heq)
      simp [Record.isSession, hpin, hkey]
  | known token pin' =>
    rw [fields_known hsha h.2]
    rfl

theorem sessionLine_text (h : r.Valid cr) : sessionLine (r.text cr) = r.session? := by
  unfold sessionLine
  cases r with
  | session token pin secret =>
    obtain ⟨-, hlen, hne, hfree⟩ := h
    rw [fields_session hsha hlen hne hfree]
    simp [Record.session?, decodePubKey_pubKeyB64 hlen]
  | known token pin =>
    rw [fields_known hsha h.2]
    rfl

omit hsha in
theorem notMem_text (h : r.Valid cr) {c : UInt8} (hc : IsASCII c)
    (hsp : isSpace c.toNat = true) (hblank : c ≠ 32) : c ∉ r.text cr := by
  have htoken : ∀ {s : Bytes}, IsToken s → c ∉ s := fun hs => hs.spaceFree.notMem hc hsp
  have hspace : c ∉ lit " " := fun hmem => hblank (mem_singleton.1 hmem)
  cases r with
  | session token pin secret =>
    simp only [Record.text, sessionText, mem_append, not_or]
    exact ⟨⟨⟨⟨htoken (tokenKey_isToken token), hspace⟩, htoken (pubKeyB64_isToken pin)⟩, hspace⟩,
      h.2.2.2.notMem hc hsp⟩
  | known token pin =>
    simp only [Record.text, mem_append, not_or]
    exact ⟨⟨htoken (tokenKey_isToken token), hspace⟩, htoken (pubKeyB64_isToken pin)⟩

/-! ### Files and records -/

/-- The file is the text of these records. -/
structure Represents (cr : Crypto) (rs : List Record) (f : Files) : Prop where
  valid : ∀ r ∈ rs, r.Valid cr
  text : f.knownPeers.getD [] = unlines (rs.map (Record.text cr))

variable {rs : List Record}

omit hsha in
theorem Represents.scanStore (h : Represents cr rs f) :
    scanStore f.knownPeers = (rs.map (Record.text cr), false) := by
  have hscan : scanLines (f.knownPeers.getD []) = (rs.map (Record.text cr), false) := by
    rw [h.text]
    refine scanLines_unlines_short fun l hl => ?_
    obtain ⟨r, hr, rfl⟩ := mem_map.1 hl
    have hvalid := h.valid r hr
    refine ⟨notMem_text hvalid ?_ (by decide) (by decide),
      notMem_text hvalid ?_ (by decide) (by decide), hvalid.1⟩
    · unfold IsASCII; decide
    · unfold IsASCII; decide
  cases hfile : f.knownPeers with
  | none | some data =>
    rw [hfile] at hscan
    exact hscan

theorem keptLines_text (hvalid : ∀ r ∈ rs, r.Valid cr) (pin : Bytes) :
    keptLines (pubKeyB64 pin) (rs.map (Record.text cr)) =
      (rs.filter fun r => !r.isSession pin).map (Record.text cr) := by
  unfold keptLines
  rw [filter_map]
  congr 1
  refine filter_congr fun r hr => ?_
  have hne := trimSpace_text_ne_nil hsha (hvalid r hr)
  simp [isSessionOf_text hsha (hvalid r hr), hne]

theorem Represents.loadSessions (h : Represents cr rs f) :
    loadSessions f = .ok (rs.filterMap Record.session?) := by
  unfold Trust.loadSessions
  rw [h.scanStore]
  dsimp only
  rw [if_neg (by decide), filterMap_map]
  congr 1
  exact filterMap_congr fun r hr => sessionLine_text hsha (h.valid r hr)

omit hsha in
/-- The file ends with a newline, if it is not empty. -/
theorem Represents.completed (h : Represents cr rs f) :
    completed f.knownPeers = unlines (rs.map (Record.text cr)) := by
  unfold Trust.completed
  dsimp only
  rw [h.text, if_neg]
  rintro ⟨hne, hlast⟩
  apply hlast
  cases rs using reverseRecOn with
  | nil => exact absurd rfl hne
  | append_singleton rs r =>
    rw [map_append, unlines_append]
    simp [unlines]

end Lines

/-! ### The three calls -/

namespace Sessions

/-- A call under the trust-state lock, with a key in its canonical spelling. -/
inductive Call where
  | save (token pin secret : Bytes)
  | remove (pin : Bytes)
  | learn (token pin : Bytes)
  deriving DecidableEq

/-- What a call does while it holds the lock. -/
def Call.tx (cr : Crypto) : Call → Tx Unit
  | .save token pin secret => saveSessionLocked cr token (pubKeyB64 pin) secret
  | .remove pin => do
    let _ ← removeSessionLocked (pubKeyB64 pin)
  | .learn token pin => learnPeerLocked cr token (pubKeyB64 pin)

/-- A call, or a change of the other trust files by somebody else. -/
inductive Event where
  | call (c : Call)
  | other (revoked manifest : Option Bytes)

/-- One step; the lock makes a call atomic. -/
def step (cr : Crypto) (f : Files) : Event → Files
  | .call c => (c.tx cr).final f
  | .other revoked manifest => { f with revoked := revoked, manifest := manifest }

/-- The call that succeeds with this step. -/
def succeeds (cr : Crypto) (f : Files) : Event → Option Call
  | .call c =>
    match (c.tx cr f).2 with
    | .ok _ => some c
    | .error _ => none
  | .other _ _ => none

/-- What a call leaves of the records, and adds to them. -/
def Call.apply (rs : List Record) : Call → List Record
  | .save token pin secret => (rs.filter fun r => !r.isSession pin) ++ [.session token pin secret]
  | .remove pin => rs.filter fun r => !r.isSession pin
  | .learn token pin => rs ++ [.known token pin]

/-- The record a call writes is valid. -/
def Event.Valid (cr : Crypto) : Event → Prop
  | .call (.save token pin secret) => (Record.session token pin secret).Valid cr
  | .call (.learn token pin) => (Record.known token pin).Valid cr
  | .call (.remove _) => True
  | .other _ _ => True

instance (e : Event) : Decidable (e.Valid cr) := by
  cases e with
  | call c => cases c <;> unfold Event.Valid <;> infer_instance
  | other revoked manifest => exact isTrue trivial

section Run

variable (hsha : ∀ m, (cr.sha256 m).length = 32) {rs : List Record}

include hsha

theorem represents_save (h : Represents cr rs f) {token pin secret : Bytes}
    (hvalid : (Record.session token pin secret).Valid cr) :
    Represents cr (Call.apply rs (.save token pin secret))
      { f with knownPeers := withSession cr token (pubKeyB64 pin) secret f.knownPeers } where
  valid := by
    intro r hr
    rcases mem_append.1 hr with hold | hnew
    · exact h.valid r (mem_of_mem_filter hold)
    · rw [mem_singleton.1 hnew]
      exact hvalid
  text := by
    show unlines (keptLines (pubKeyB64 pin) (scanStore f.knownPeers).1 ++ [_]) = _
    rw [h.scanStore, keptLines_text hsha h.valid]
    simp only [Call.apply, map_append]
    rfl

omit hsha in
theorem represents_learn (h : Represents cr rs f) {token pin : Bytes}
    (hvalid : (Record.known token pin).Valid cr) :
    Represents cr (Call.apply rs (.learn token pin))
      { f with knownPeers := withKnown cr token (pubKeyB64 pin) f.knownPeers } where
  valid := by
    intro r hr
    rcases mem_append.1 hr with hold | hnew
    · exact h.valid r hold
    · rw [mem_singleton.1 hnew]
      exact hvalid
  text := by
    show completed f.knownPeers ++ (tokenKey cr token ++ lit " " ++ pubKeyB64 pin) ++ [nl] = _
    rw [h.completed]
    simp only [Call.apply, map_append, unlines_append, map_cons, map_nil,
      unlines_cons, unlines_nil, Record.text, append_assoc]

theorem represents_remove (h : Represents cr rs f) (pin : Bytes) :
    Meets (Call.tx cr (.remove pin)) f (fun _ => True) fun r t =>
      r = .ok () ∧ Represents cr (Call.apply rs (.remove pin)) t := by
  have hnone : rs.countP (fun r => r.isSession pin) = 0 →
      (rs.filter fun r => !r.isSession pin) = rs := by
    intro hcount
    refine filter_eq_self.2 fun r hr => ?_
    simpa using countP_eq_zero.1 hcount r hr
  have hcount : (rs.map (Record.text cr)).countP (isSessionOf (pubKeyB64 pin)) =
      rs.countP fun r => r.isSession pin := by
    rw [countP_map]
    exact countP_congr fun r hr => by simp [isSessionOf_text hsha (h.valid r hr)]
  have hremoved : Meets (removeSessionLocked (pubKeyB64 pin)) f (fun _ => True) fun r t =>
      (∃ n, r = .ok n) ∧ Represents cr (Call.apply rs (.remove pin)) t := by
    refine Meets.read_bind ?_
    rw [h.scanStore]
    dsimp only
    rw [if_neg (by decide), hcount, keptLines_text hsha h.valid]
    split_ifs with hzero
    · refine Meets.pure ⟨⟨0, rfl⟩, ?_⟩
      rw [Call.apply, hnone hzero]
      exact h
    · refine Meets.write_bind trivial (Meets.pure ⟨⟨_, rfl⟩, ?_, rfl⟩)
      exact fun r hr => h.valid r (mem_of_mem_filter hr)
  refine hremoved.bind ?_ fun n t ht => Meets.pure ⟨rfl, ht.2⟩
  rintro e t ⟨⟨n, hn⟩, -⟩
  cases hn

/-- **One call does to the file what it does to the records.** -/
theorem represents_step (h : Represents cr rs f) {e : Event} (he : e.Valid cr) :
    Represents cr ((succeeds cr f e).elim rs (Call.apply rs)) (step cr f e) := by
  have hguarded : ∀ {c : Call} {key : Bytes} {t' : Files},
      Guarded f key t' (c.tx cr f).2 ((c.tx cr).final f) → Represents cr (c.apply rs) t' →
      Represents cr ((succeeds cr f (.call c)).elim rs (Call.apply rs)) ((c.tx cr).final f) := by
    rintro c key t' (⟨-, ⟨err, herr⟩, hfinal⟩ | ⟨-, hok, hfinal⟩) ht'
    · rw [succeeds, herr, hfinal]
      exact h
    · rw [succeeds, hok, hfinal]
      exact ht'
  cases e with
  | call c =>
    cases c with
    | save token pin secret =>
      exact hguarded (saveSessionLocked_guarded cr f token (pubKeyB64 pin) secret)
        (represents_save hsha h he)
    | learn token pin =>
      exact hguarded (learnPeerLocked_guarded cr f token (pubKeyB64 pin)) (represents_learn h he)
    | remove pin =>
      obtain ⟨hok, hrep⟩ := (represents_remove hsha h pin).post
      rw [succeeds, hok]
      exact hrep
  | other revoked manifest => exact ⟨h.valid, h.text⟩

/-- The successful calls of a run, in order. -/
def log (cr : Crypto) (f : Files) (es : List Event) : List Call :=
  trace (step cr) (succeeds cr) f es

/-- **Whatever order the calls come in, the file is the text of the records they leave behind.** -/
theorem stored_run (h : Represents cr [] f) {es : List Event} (hes : ∀ e ∈ es, e.Valid cr) :
    Represents cr ((log cr f es).foldl Call.apply []) (run (step cr) f es) := by
  refine history_along (G := fun _ e => e.Valid cr)
    (P := fun es f' => Represents cr ((log cr f es).foldl Call.apply []) f') h ?_
    (along_of_forall fun _ e he => hes e he)
  intro es e hrep he
  have hstep := represents_step hsha hrep he
  rw [log, trace_concat, foldl_append]
  cases hres : succeeds cr (run (step cr) f es) e with
  | none | some c =>
    rw [hres] at hstep
    exact hstep

omit hsha

/-! ### Records and the map -/

/-- What a call makes of the secret that is stored for a key. -/
def Call.stores (key : Bytes) (stored : Option Bytes) : Call → Option Bytes
  | .save _ pin secret => if pin = key then some secret else stored
  | .remove pin => if pin = key then none else stored
  | .learn _ _ => stored

/-- The map: for each key the secret of its last save, unless it was removed since. -/
def stored (calls : List Call) (key : Bytes) : Option Bytes := calls.foldl (Call.stores key) none

/-- The sessions of a key among the records. -/
def sessionsOf (key : Bytes) (rs : List Record) : List StoredSession :=
  (rs.filterMap Record.session?).filter (·.pin = key)

theorem sessionsOf_append (key : Bytes) (rs rs' : List Record) :
    sessionsOf key (rs ++ rs') = sessionsOf key rs ++ sessionsOf key rs' := by
  rw [sessionsOf, filterMap_append, filter_append]
  rfl

theorem sessionsOf_session (key token pin secret : Bytes) :
    sessionsOf key [.session token pin secret] = if pin = key then [⟨pin, secret⟩] else [] := by
  by_cases hpin : pin = key
  · simp [sessionsOf, Record.session?, hpin]
  · simp [sessionsOf, Record.session?, hpin]

theorem sessionsOf_filter (key pin : Bytes) (rs : List Record) :
    sessionsOf key (rs.filter fun r => !r.isSession pin) =
      if pin = key then [] else sessionsOf key rs := by
  induction rs with
  | nil => simp [sessionsOf]
  | cons r rs ih =>
    rw [← singleton_append, filter_append, sessionsOf_append, ih, sessionsOf_append]
    cases r with
    | known token pin' => rfl
    | session token pin' secret =>
      rw [sessionsOf_session]
      by_cases hsame : pin' = pin
      · subst hsame
        rw [filter_cons_of_neg (by simp [Record.isSession])]
        split_ifs <;> rfl
      · rw [filter_cons_of_pos (by simp [Record.isSession, hsame]), filter_nil, sessionsOf_session]
        by_cases hkey : pin = key
        · rw [if_pos hkey, if_pos hkey, if_neg (hkey ▸ hsame)]
          rfl
        · rw [if_neg hkey, if_neg hkey]

/-- The records of a key are what the map has for it. -/
theorem sessionsOf_apply (key : Bytes) (calls : List Call) :
    sessionsOf key (calls.foldl Call.apply []) =
      (stored calls key).toList.map (StoredSession.mk key) := by
  induction calls using reverseRecOn with
  | nil => rfl
  | append_singleton calls c ih =>
    have hlast : stored (calls ++ [c]) key = c.stores key (stored calls key) := foldl_concat ..
    rw [hlast, foldl_concat]
    cases c with
    | save token pin secret =>
      rw [Call.apply, sessionsOf_append, sessionsOf_filter, sessionsOf_session, Call.stores, ih]
      by_cases hkey : pin = key
      · subst hkey
        simp
      · simp [hkey]
    | remove pin =>
      rw [Call.apply, sessionsOf_filter, Call.stores, ih]
      by_cases hkey : pin = key
      · simp [hkey]
      · simp [hkey]
    | learn token pin =>
      rw [Call.apply, sessionsOf_append, ih]
      exact append_nil _

theorem known_mem_apply {calls : List Call} {token pin : Bytes} (h : .learn token pin ∈ calls) :
    .known token pin ∈ calls.foldl Call.apply [] := by
  induction calls using reverseRecOn with
  | nil => cases h
  | append_singleton calls c ih =>
    rw [foldl_concat]
    rcases mem_append.1 h with hold | hnew
    · cases c with
      | save token' pin' secret =>
        exact mem_append_left _ (mem_filter.2 ⟨ih hold, rfl⟩)
      | remove pin' => exact mem_filter.2 ⟨ih hold, rfl⟩
      | learn token' pin' => exact mem_append_left _ (ih hold)
    · rw [← mem_singleton.1 hnew]
      exact mem_append_right _ (mem_singleton_self _)

end Run

/-- **The session store is a map.** After any run of calls that starts from an empty file, the
readers find for every key exactly the secret of its last save, or nothing when there is none or it
was removed since; and every line that was learned is still there. -/
theorem store_is_map (cr : Crypto) (hsha : ∀ m, (cr.sha256 m).length = 32) (f : Files)
    (hempty : f.knownPeers.getD [] = []) (es : List Event) (hes : ∀ e ∈ es, e.Valid cr) :
    (∃ sessions, loadSessions (run (step cr) f es) = .ok sessions ∧
      ∀ key, sessions.filter (·.pin = key) =
        (stored (log cr f es) key).toList.map (StoredSession.mk key)) ∧
    (∀ key, loadSessionFor (run (step cr) f es) key = .ok (stored (log cr f es) key)) ∧
    ∀ token pin, .learn token pin ∈ log cr f es →
      (Record.known token pin).text cr ∈ (scanStore (run (step cr) f es).knownPeers).1 := by
  have hrep := stored_run hsha ⟨fun r hr => absurd hr not_mem_nil, hempty⟩ hes
  have hload := hrep.loadSessions hsha
  refine ⟨⟨_, hload, fun key => sessionsOf_apply key _⟩, fun key => ?_, fun token pin hlearn => ?_⟩
  · -- the first session of the key is its only one
    have hsessions := sessionsOf_apply key (log cr f es)
    rw [loadSessionFor, hload]
    show Except.ok ((find? _ _).map StoredSession.secret) = _
    rw [← head?_filter]
    congr 1
    refine (congrArg (fun l => (head? l).map StoredSession.secret) hsessions).trans ?_
    cases stored (log cr f es) key <;> rfl
  · rw [hrep.scanStore]
    exact mem_map_of_mem (known_mem_apply hlearn)

namespace Sample

/-- Primitives with a hash of 32 bytes. -/
def crypto : Crypto := { Trust.Sample.crypto with sha256 := fun _ => replicate 32 5 }

/-- No files. -/
def noFiles : Files := ⟨none, none, none⟩

/-- The keys of two buddies. -/
def first : Bytes := replicate 32 7

/-- The second key. -/
def second : Bytes := replicate 32 9

/-- Both buddies pair, the first one again, and the second one is removed. -/
def calls : List Event :=
  [.call (.save (lit "one") first (lit "old")), .call (.learn (lit "two") second),
    .call (.save (lit "two") second (lit "gone")), .call (.save (lit "three") first (lit "new")),
    .call (.remove second)]

end Sample

/-- A secret without a character is stored, but no reader finds it. -/
theorem store_is_map_fails :
    let es := [.call (.save (lit "one") Sample.first [])]
    log Sample.crypto Sample.noFiles es = [.save (lit "one") Sample.first []] ∧
      loadSessions (run (step Sample.crypto) Sample.noFiles es) = .ok [] ∧
      loadSessionFor (run (step Sample.crypto) Sample.noFiles es) Sample.first =
          .ok none := by
  decide +kernel

/-- The run with two buddies. -/
theorem store_is_map_two :
    let f := run (step Sample.crypto) Sample.noFiles Sample.calls
    loadSessionFor f Sample.first = .ok (some (lit "new")) ∧
        loadSessionFor f Sample.second = .ok none := by
  have hmap := (store_is_map Sample.crypto (fun _ => length_replicate) Sample.noFiles rfl
    Sample.calls (by decide +kernel)).2.1
  have hfirst : stored (log Sample.crypto Sample.noFiles Sample.calls) Sample.first =
      some (lit "new") := by
    decide +kernel
  have hsecond : stored (log Sample.crypto Sample.noFiles Sample.calls) Sample.second = none := by
    decide +kernel
  exact ⟨(hmap Sample.first).trans (by rw [hfirst]), (hmap Sample.second).trans (by rw [hsecond])⟩

end Sessions

end BuddyNet.Trust
