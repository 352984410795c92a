import BuddyNet.Library.Machine
import BuddyNet.Trust.CommandSpecs
import BuddyNet.Trust.ManifestEntries

/-!
# Revocation and the spelling of a key

Workers that finish a pairing and commands of the operator write `known_peers` in any order, each
under the trust-state lock. `revocation_sticks`: from the moment the tombstone of `K` is written
until it is lifted, no line that names `K` is added, provided that a partner key that decodes to `K`
is handed to `saveSession` in its canonical spelling. The store is compared with the revocation list
as text, so another spelling of the same key passes; the run is given after the theorem.
-/

namespace BuddyNet.Trust

open Transaction List Machine Go

variable {cr : Crypto} {y : Yaml} {f : Files} {K : Bytes}

/-! ### Texts that decode to a key -/

variable {s : Bytes} {pin : Bytes}

theorem decodePubKey_quanta (h : decodePubKey s = some pin) :
    stdEncoding.decodeQuanta (s.filter (!Encoding.isNewline ·)) = some pin ∧
      pin.length = publicKeySize := by
  refine ⟨?_, decodePubKey_length h⟩
  unfold decodePubKey at h
  split at h
  · cases h
  · next raw hraw =>
    split_ifs at h
    cases h
    exact hraw

/-- A text for a key has 44 characters besides newlines, one of them padding. -/
theorem decodePubKey_shape (h : decodePubKey s = some pin) :
    (s.filter (!Encoding.isNewline ·)).length = 44 ∧ padChar ∈ s := by
  obtain ⟨hdec, hlen⟩ := decodePubKey_quanta h
  obtain ⟨q, pad, hs, hr, hle, hpad⟩ := Encoding.decodeQuanta_length rfl hdec
  have hlen : pin.length = 32 := hlen
  refine ⟨by omega, ?_⟩
  rcases hpad with h0 | hmem
  · omega
  · exact mem_of_mem_filter hmem

variable {w : Bytes}

/-- A stretch without white space of a text for a key is a text for that key or for none. -/
theorem decodePubKey_stretch {pin' : Bytes} (hw : w <:+: s) (hno : NoSpace w)
    (h : decodePubKey s = some pin) (h' : decodePubKey w = some pin') : pin' = pin := by
  have hself : w.filter (!Encoding.isNewline ·) = w := by
    rw [filter_eq_self]
    intro c hc
    by_contra hnl
    have hcases : c = nl ∨ c = cr :=
      or_iff_not_imp_left.2 (by simpa [Encoding.isNewline] using hnl)
    rcases hcases with rfl | rfl
    · exact absurd (hno _ hc (by unfold IsASCII; decide)) (by decide)
    · exact absurd (hno _ hc (by unfold IsASCII; decide)) (by decide)
  have hsub : w.Sublist (s.filter (!Encoding.isNewline ·)) := by
    rw [← hself]
    exact hw.sublist.filter _
  have hlen := (decodePubKey_shape h).1
  have hlen' := (decodePubKey_shape h').1
  have heq : w = s.filter (!Encoding.isNewline ·) :=
    hsub.eq_of_length (by rw [hlen, ← hlen', hself])
  have hdec := (decodePubKey_quanta h).1
  have hdec' := (decodePubKey_quanta h').1
  rw [hself, heq, hdec] at hdec'
  exact (Option.some.inj hdec').symm

/-! ### Lines that name a key -/

/-- The second field of the line decodes to the key. -/
def names (K : Bytes) (fields : List Bytes) : Bool :=
  match fields with
  | _ :: key :: _ => decodePubKey key == some K
  | _ => false

/-- The fields of the lines of the store that name a key: its session lines and its
trust-on-first-use lines. -/
def keyLines (K : Bytes) (file : Option Bytes) : List (List Bytes) :=
  ((lines (file.getD [])).map fields).filter (names K)

/-- No field of the text decodes to the key, so no line of it names the key. -/
theorem keyLines_eq_nil {t : Bytes}
    (h : ∀ w, w <:+: t → NoSpace w → decodePubKey w ≠ some K) : keyLines K (some t) = [] := by
  refine filter_eq_nil_iff.2 fun fs hfs => ?_
  obtain ⟨l, hl, rfl⟩ := mem_map.1 hfs
  unfold names
  split
  · next key _ hfields =>
    have hmem : key ∈ fields l := by
      rw [hfields]
      simp
    obtain ⟨hinf, hno⟩ := mem_fields hmem
    simpa using h key (hinf.trans (mem_lines hl).2) hno
  · decide

theorem keyLines_append (s t : Bytes) :
    keyLines K (some (s ++ nl :: t)) = keyLines K (some s) ++ keyLines K (some t) := by
  simp only [keyLines, Option.getD_some]
  rw [lines_append, map_append, filter_append]

theorem keyLines_nil : keyLines K (some []) = [] := rfl

theorem keyLines_unlines_append (ls : List Bytes) (t : Bytes) :
    keyLines K (some (unlines ls ++ t)) =
      keyLines K (some (unlines ls)) ++ keyLines K (some t) := by
  induction ls with
  | nil => rfl
  | cons l ls ih =>
    rw [unlines_cons, append_assoc, cons_append, keyLines_append, ih, keyLines_append,
      append_assoc]

theorem keyLines_unlines {ls : List Bytes} (h : ∀ l ∈ ls, nl ∉ l) :
    keyLines K (some (unlines ls)) = (ls.map fields).filter (names K) := by
  induction ls with
  | nil => rfl
  | cons l ls ih =>
    have hl : keyLines K (some l) = [fields l].filter (names K) := by
      simp only [keyLines, Option.getD_some]
      rw [lines_of_not_mem (h l mem_cons_self)]
      rfl
    rw [unlines_cons, keyLines_append, ih fun l hl => h l (mem_cons_of_mem _ hl), hl,
      ← filter_append]
    rfl

/-- A rewrite that keeps some of the lines a scanner reads adds no line that names a key. -/
theorem keyLines_kept (file : Option Bytes) (p : Bytes → Bool) :
    (keyLines K (some (unlines ((scanStore file).1.filter p)))).Sublist (keyLines K file) := by
  cases file with
  | none => exact Sublist.refl _
  | some data =>
    have hsub := (filter_sublist (p := p)).trans (scanLines_sublist data)
    have hno : ∀ l ∈ (scanLines data).1.filter p, nl ∉ l := fun l hl =>
      not_mem_of_mem_scanLines (mem_of_mem_filter hl)
    have hmap : ((lines data).map dropCR).map fields = (lines data).map fields := by
      rw [map_map]
      exact map_congr_left fun l _ => fields_dropCR l
    show (keyLines K (some (unlines ((scanLines data).1.filter p)))).Sublist _
    rw [keyLines_unlines hno]
    have h := (hsub.map fields).filter (names K)
    rwa [hmap] at h

/-! ### The writers of `known_peers` -/

/-- A writer is refused because of the revocation list and changes nothing, or it leaves `t'`. -/
def Guarded (f : Files) (key : Bytes) (t' : Files) (r : Except TrustError Unit) (t : Files) :
    Prop :=
  (isRevoked f key ≠ .ok false ∧ (∃ e, r = .error e) ∧ t = f) ∨
    (isRevoked f key = .ok false ∧ r = .ok () ∧ t = t')

theorem guarded_write (f : Files) (key : Bytes) (g : Files → Files) :
    Meets (ofExcept (isRevoked f key) >>= fun revoked =>
      if revoked then throw (.revoked key) else write g) f (fun _ => True)
    (Guarded f key (g f)) := by
  refine Meets.ofExcept_bind (fun e he => ?_) fun revoked hrev => ?_
  · exact Or.inl ⟨by simp [he], ⟨e, rfl⟩, rfl⟩
  · cases revoked with
    | true => exact Meets.throw (Or.inl ⟨by simp [hrev], ⟨_, rfl⟩, rfl⟩)
    | false => exact Meets.write trivial (Or.inr ⟨hrev, rfl, rfl⟩)

/-- The store with a session line at its end. -/
def withSession (cr : Crypto) (token partner secret : Bytes) (file : Option Bytes) : Option Bytes :=
  let line := tokenKey cr token ++ lit " " ++ partner ++ lit " " ++ secret
  some (unlines (keptLines partner (scanStore file).1 ++ [line]))

theorem saveSessionLocked_guarded (cr : Crypto) (f : Files) (token partner secret : Bytes) :
    Guarded f partner { f with knownPeers := withSession cr token partner secret f.knownPeers }
      (saveSessionLocked cr token partner secret f).2
      ((saveSessionLocked cr token partner secret).final f) :=
  (Meets.read_bind (guarded_write f partner fun t =>
    { t with knownPeers := withSession cr token partner secret f.knownPeers })).post

/-- The store as `learnPeer` completes it before it appends its line. -/
def completed (file : Option Bytes) : Bytes :=
  let existing := file.getD []
  if existing ≠ [] ∧ existing.getLast? ≠ some nl then existing ++ [nl] else existing

/-- The store with a trust-on-first-use line at its end. -/
def withKnown (cr : Crypto) (token pubB64 : Bytes) (file : Option Bytes) : Option Bytes :=
  some (completed file ++ (tokenKey cr token ++ lit " " ++ pubB64) ++ [nl])

theorem learnPeerLocked_guarded (cr : Crypto) (f : Files) (token pubB64 : Bytes) :
    Guarded f pubB64 { f with knownPeers := withKnown cr token pubB64 f.knownPeers }
      (learnPeerLocked cr token pubB64 f).2 ((learnPeerLocked cr token pubB64).final f) :=
  (Meets.read_bind (guarded_write f pubB64 fun t =>
    { t with knownPeers := withKnown cr token pubB64 f.knownPeers })).post

theorem keyLines_completed (file : Option Bytes) (t : Bytes) :
    keyLines K (some (completed file ++ t)) = keyLines K file ++ keyLines K (some t) := by
  have hfile : keyLines K file = keyLines K (some (file.getD [])) := by cases file <;> rfl
  rw [hfile]
  unfold completed
  dsimp only
  generalize file.getD [] = existing
  split_ifs with h
  · rw [append_assoc, singleton_append, keyLines_append]
  · rcases eq_or_ne existing [] with rfl | hne
    · rfl
    · have hlast : existing.getLast? = some nl := by
        by_contra hlast
        exact h ⟨hne, hlast⟩
      obtain ⟨e, rfl⟩ := getLast?_eq_some_iff.1 hlast
      rw [append_assoc, singleton_append, keyLines_append, keyLines_append, keyLines_nil,
        append_nil]

/-- A text without padding has no key in it. -/
theorem not_key_of_not_mem (h : padChar ∉ s) (hw : w <:+: s) :
    decodePubKey w ≠ some K := fun hdec => h (hw.subset (decodePubKey_shape hdec).2)

theorem padChar_not_mem_tokenKey (token : Bytes) : padChar ∉ tokenKey cr token := by
  intro h
  obtain ⟨b, -, hb⟩ := mem_flatMap.1 h
  have hall : ∀ n : Fin 16, padChar ≠ Json.hexChar n := by decide
  have hlt := b.toNat_lt
  simp only [mem_cons, not_mem_nil, or_false] at hb
  rcases hb with hb | hb
  · exact hall ⟨b.toNat / 16, by omega⟩ hb
  · exact hall ⟨b.toNat % 16, by omega⟩ hb

theorem padChar_not_mem_secret (ekm : Bytes) : padChar ∉ rawURLEncoding.encode ekm := by
  intro h
  rcases Encoding.mem_encode h with ⟨v, hv, hpad⟩ | ⟨hp, -⟩
  · have hall : ∀ w : Fin 64, padChar ≠ rawURLEncoding.char w := by decide
    exact hall ⟨v, hv⟩ hpad
  · exact absurd hp (by decide)

theorem space_not_mem (h : NoSpace w) : (32 : UInt8) ∉ w := fun hmem =>
  absurd (h 32 hmem (by unfold IsASCII; decide)) (by decide)

variable {token : Bytes}

/-- A line whose text behind the token has no field for the key does not name it. -/
theorem keyLines_tokenKey {t : Bytes} (h : ∀ w, w <:+: t → NoSpace w → decodePubKey w ≠ some K) :
    keyLines K (some (tokenKey cr token ++ lit " " ++ t)) = [] := by
  rw [show lit " " = [32] from rfl, append_assoc, singleton_append]
  refine keyLines_eq_nil fun w hw hno => ?_
  rcases infix_of_not_mem hw (space_not_mem hno) with hw | hw
  · exact not_key_of_not_mem (padChar_not_mem_tokenKey token) hw
  · exact h w hw hno

variable {partner : Bytes}

/-- A text for one partner has no field for another key. -/
theorem not_key_of_partner {pub : Bytes} (h : decodePubKey partner = some pub)
    (hne : pub ≠ K) (hw : w <:+: partner) (hno : NoSpace w) : decodePubKey w ≠ some K :=
  fun hdec => hne (decodePubKey_stretch hw hno h hdec).symm

theorem keyLines_withSession {pub ekm : Bytes} (h : decodePubKey partner = some pub)
    (hne : pub ≠ K) (file : Option Bytes) :
    (keyLines K (withSession cr token partner (rawURLEncoding.encode ekm) file)).Sublist
      (keyLines K file) := by
  have hline : keyLines K (some (tokenKey cr token ++ lit " " ++ partner ++ lit " " ++
      rawURLEncoding.encode ekm)) = [] := by
    rw [append_assoc, append_assoc]
    refine keyLines_tokenKey fun w hw hno => ?_
    rcases infix_of_not_mem hw (space_not_mem hno) with hw | hw
    · exact not_key_of_partner h hne hw hno
    · exact not_key_of_not_mem (padChar_not_mem_secret ekm) hw
  unfold withSession
  dsimp only
  rw [unlines_append, keyLines_unlines_append, unlines_cons, unlines_nil, keyLines_append,
    hline, keyLines_nil, append_nil, append_nil]
  exact keyLines_kept file _

theorem keyLines_withKnown {pub : Bytes} (h : decodePubKey partner = some pub)
    (hne : pub ≠ K) (file : Option Bytes) :
    keyLines K (withKnown cr token partner file) = keyLines K file := by
  rw [withKnown, append_assoc, keyLines_completed, keyLines_append,
    keyLines_tokenKey fun _ => not_key_of_partner h hne, keyLines_nil, append_nil]
  exact append_nil _

/-! ### Workers and commands -/

/-- The steps of the workers and of the commands; every step holds the lock. `seen` are the files as
a command has read them before it took the lock, and `n` is the number of writes after which it
stops or fails. A worker stores a session with a secret made of `ekm`, or records a partner it has
confirmed. -/
inductive Event where
  | save (inviteToken partnerB64 ekm : Bytes)
  | learn (inviteToken partnerB64 : Bytes)
  | remove (peersFile : Bool) (ref : Bytes) (seen : Files) (today : Date) (n : ℕ)
  | allow (peersFile : Bool) (ref : Bytes) (seen : Files) (today : Date) (n : ℕ)
  | add (key token name expose : Bytes) (seen : Files) (today : Date) (n : ℕ)
  | migrate (specs : List PeerSpec)

/-- One step. The partner of a worker has passed the checks of `buddyRun`, so its key decodes; the
key that is recorded is encoded again. -/
def step (cr : Crypto) (y : Yaml) (f : Files) : Event → Files
  | .save token partner ekm =>
    match decodePubKey partner with
    | some _ => (saveSessionLocked cr token partner (rawURLEncoding.encode ekm)).final f
    | none => f
  | .learn token partner =>
    match decodePubKey partner with
    | some pub => (learnPeerLocked cr token (pubKeyB64 pub)).final f
    | none => f
  | .remove peersFile ref seen today n =>
    match resolveKeyRef y peersFile seen ref with
    | .ok keyB64 => (peersRemoveLocked y today peersFile keyB64).cut f n
    | .error _ => f
  | .allow peersFile ref seen today n =>
    match resolveKeyRef y peersFile seen ref with
    | .ok keyB64 => (peersAllowLocked today keyB64).cut f n
    | .error _ => f
  | .add key token name expose seen today n =>
    match peersAddCheck true seen key token name expose with
    | .ok r => (peersAddLocked y today r).cut f n
    | .error _ => f
  | .migrate specs => (saveManifestLocked y specs).final f

theorem loadSessions_pin {sessions : List StoredSession} {s : StoredSession}
    (h : loadSessions f = .ok sessions) (hs : s ∈ sessions) : s.pin.length = publicKeySize := by
  simp only [loadSessions] at h
  split_ifs at h
  cases h
  obtain ⟨line, -, hline⟩ := mem_filterMap.1 hs
  unfold sessionLine at hline
  split at hline
  · obtain ⟨pin, hpin, rfl⟩ := Option.map_eq_some_iff.1 hline
    exact decodePubKey_length hpin
  · cases hline

/-- The partner key of a session is in its canonical spelling, if it decodes to `K` at all. -/
def canonicalFor (K : Bytes) : Event → Bool
  | .save _ partner _ => decodePubKey partner != some K || partner == pubKeyB64 K
  | _ => true

/-- `PeersAdd` or `PeersAllow` rewrites the revocation list for `K`. -/
def Lifts (cr : Crypto) (y : Yaml) (K : Bytes) (f : Files) (e : Event) : Prop :=
  (match e with
    | .allow peersFile ref seen _ _ => resolveKeyRef y peersFile seen ref = .ok (pubKeyB64 K)
    | .add key _ _ _ _ _ _ => decodePubKey key = some K
    | _ => False) ∧ (step cr y f e).revoked ≠ f.revoked

variable {peersFile : Bool} {seen : Files} {ref : Bytes}

theorem resolveKeyRef_isKey {k : Bytes}
    (h : resolveKeyRef y peersFile seen ref = .ok k) : IsKey k := by
  unfold resolveKeyRef at h
  split at h
  · next pin hpin =>
    cases h
    exact ⟨pin, decodePubKey_length hpin, rfl⟩
  · cases hspecs : loadPeersFile y peersFile seen with
    | error e => simp [hspecs, bind, Except.bind] at h
    | ok specs =>
    cases hsessions : loadSessions seen with
    | error e => simp [hspecs, hsessions, bind, Except.bind] at h
    | ok sessions =>
    cases hset : revokedSet seen with
    | error e => simp [hspecs, hsessions, hset, bind, Except.bind] at h
    | ok revoked =>
      simp only [hspecs, hsessions, hset, bind, Except.bind] at h
      split at h
      · next key hfilter =>
        cases h
        have hmem : k ∈ specs.map (fun s => pubKeyB64 s.pin) ++
            sessions.map (fun s => pubKeyB64 s.pin) ++ revoked := by
          refine mem_dedup.1 (mem_of_mem_filter (p := ref.isPrefixOf) ?_)
          rw [hfilter]
          exact mem_cons_self
        rcases mem_append.1 hmem with hmem | hmem
        · rcases mem_append.1 hmem with hmem | hmem
          · obtain ⟨s, hs, rfl⟩ := mem_map.1 hmem
            exact ⟨s.pin, loadPeersFile_pin hspecs hs, rfl⟩
          · obtain ⟨s, hs, rfl⟩ := mem_map.1 hmem
            exact ⟨s.pin, loadSessions_pin hsessions hs, rfl⟩
        · obtain ⟨es, hload, rfl⟩ := revokedSet_eq_ok.1 hset
          obtain ⟨e, he, rfl⟩ := mem_map.1 hmem
          exact ((loadRevoked_loaded hload).writable e he).1
      · cases h
      · cases h

/-! ### What a step does to a revoked key -/

/-- The revocation stands, and no line that names the key was added to the store. -/
structure Sticks (K : Bytes) (f t : Files) : Prop where
  revoked : Tombstoned K t
  lines : (keyLines K t.knownPeers).Sublist (keyLines K f.knownPeers)

theorem Sticks.of_eq {t : Files} (h : Tombstoned K f) (hrev : t.revoked = f.revoked)
    (hstore : t.knownPeers = f.knownPeers) : Sticks K f t :=
  ⟨h.of_revoked_eq hrev, by rw [hstore]⟩

theorem sticks_save (h : Tombstoned K f) {ekm : Bytes}
    (hcanon : canonicalFor K (.save token partner ekm)) :
    Sticks K f (step cr y f (.save token partner ekm)) := by
  unfold step
  dsimp only
  split
  · next pub hpub =>
    have hpost := saveSessionLocked_guarded cr f token partner (rawURLEncoding.encode ekm)
    generalize final _ f = t at hpost ⊢
    rcases hpost with ⟨-, -, rfl⟩ | ⟨hrev, -, rfl⟩
    · exact .of_eq h rfl rfl
    · refine ⟨h.of_revoked_eq rfl, keyLines_withSession hpub ?_ _⟩
      -- the canonical spelling is the one that the list has
      rintro rfl
      have hspell : partner = pubKeyB64 pub := by simpa [canonicalFor, hpub] using hcanon
      rw [hspell] at hrev
      exact h.isRevoked_ne hrev
  · exact .of_eq h rfl rfl

theorem sticks_learn (h : Tombstoned K f) : Sticks K f (step cr y f (.learn token partner)) := by
  unfold step
  dsimp only
  split
  · next pub hpub =>
    have hpost := learnPeerLocked_guarded cr f token (pubKeyB64 pub)
    generalize final _ f = t at hpost ⊢
    rcases hpost with ⟨-, -, rfl⟩ | ⟨hrev, -, rfl⟩
    · exact .of_eq h rfl rfl
    · have hdec := decodePubKey_pubKeyB64 (decodePubKey_length hpub)
      refine ⟨h.of_revoked_eq rfl, ?_⟩
      rw [keyLines_withKnown hdec]
      rintro rfl
      exact h.isRevoked_ne hrev
  · exact .of_eq h rfl rfl

variable {today : Date} {n : ℕ}

section

variable (h : Tombstoned K f)
include h

theorem sticks_remove : Sticks K f
    (step cr y f (.remove peersFile ref seen today n)) := by
  unfold step
  dsimp only
  split
  · next k hk =>
    have hrem := removal_cut y f today peersFile k n
    generalize cut _ f n = t at hrem ⊢
    rcases hrem.tombstoned (resolveKeyRef_isKey hk) (Or.inl h) with rfl | htomb
    · exact .of_eq h rfl rfl
    · refine ⟨htomb, ?_⟩
      rcases hrem.store with heq | heq
      · rw [heq]
      · rw [heq]
        exact keyLines_kept f.knownPeers _
  · exact .of_eq h rfl rfl

theorem sticks_allow (hlift : ¬Lifts cr y K f (.allow peersFile ref seen today n)) :
    Sticks K f (step cr y f (.allow peersFile ref seen today n)) := by
  unfold Lifts at hlift
  unfold step at hlift ⊢
  dsimp only at hlift ⊢
  split
  · next k hk =>
    rw [hk] at hlift
    have hcut := (removeRevokedLocked_meets f k today).cut n
    change ¬(_ ∧ (cut (removeRevokedLocked today k) f n).revoked ≠ f.revoked) at hlift
    change Sticks K f (cut (removeRevokedLocked today k) f n)
    generalize cut _ f n = t at hcut hlift ⊢
    have hcases : t = f ∨ ∃ es, loadRevoked f.revoked = .ok es ∧
        t = { f with revoked := withoutKey today es k f.revoked } := by
      rcases hcut with heq | ⟨-, hlisted⟩
      · exact Or.inl heq
      · exact hlisted.cases
    rcases hcases with rfl | ⟨es, hload, rfl⟩
    · exact .of_eq h rfl rfl
    · by_cases hkey : k = pubKeyB64 K
      · refine .of_eq h ?_ rfl
        by_contra hne
        exact hlift ⟨by rw [hkey], hne⟩
      · exact ⟨tombstoned_withoutKey hload (fun heq => hkey heq.symm) h, Sublist.refl _⟩
  · exact .of_eq h rfl rfl

theorem sticks_add {key name expose : Bytes}
    (hlift : ¬Lifts cr y K f (.add key token name expose seen today n)) :
    Sticks K f (step cr y f (.add key token name expose seen today n)) := by
  unfold Lifts at hlift
  unfold step at hlift ⊢
  dsimp only at hlift ⊢
  split
  · next r hr =>
    rw [hr] at hlift
    have hcut := (peersAddLocked_meets y f today r).cut n
    dsimp only at hlift
    generalize cut _ f n = t at hcut hlift ⊢
    rcases hcut with ⟨m, rfl⟩ | ⟨-, hadd⟩
    · exact .of_eq h rfl rfl
    · unfold Adding at hadd
      split at hadd
      · exact .of_eq h (by rw [hadd]) (by rw [hadd])
      · obtain ⟨existing, es, hadded⟩ := hadd
        obtain rfl := hadded.written
        by_cases hkey : r.pin = K
        · refine .of_eq h ?_ rfl
          by_contra hne
          exact hlift ⟨by rw [(peersAddCheck_spec hr).pin, hkey], hne⟩
        · have hother : pubKeyB64 K ≠ pubKeyB64 r.pin := fun heq =>
            hkey (pubKeyB64_injective heq).symm
          refine ⟨(tombstoned_withoutKey hadded.revoked hother h).of_revoked_eq rfl, ?_⟩
          exact Sublist.refl _
  · exact .of_eq h rfl rfl

theorem step_sticks {e : Event} (hcanon : canonicalFor K e)
    (hlift : ¬Lifts cr y K f e) : Sticks K f (step cr y f e) := by
  cases e with
  | save => exact sticks_save h hcanon
  | learn => exact sticks_learn h
  | remove => exact sticks_remove h
  | allow => exact sticks_allow h hlift
  | add => exact sticks_add h hlift
  | migrate => exact .of_eq h rfl rfl

end

/-- **A revocation sticks to the identity**: once the tombstone of `K` is written and until
`PeersAdd` or `PeersAllow` lifts it, no step adds a line to `known_peers` whose key field decodes to
`K`, provided that every partner key handed to `saveSession` that decodes to `K` is in its canonical
spelling. -/
theorem revocation_sticks (cr : Crypto) (y : Yaml) (K : Bytes) (f : Files) (es : List Event)
    (htomb : Tombstoned K f)
    (hes : Along (step cr y) (fun f e => canonicalFor K e ∧ ¬Lifts cr y K f e) f es) :
    ∀ pre e, pre ++ [e] <+: es →
      (keyLines K (run (step cr y) f (pre ++ [e])).knownPeers).Sublist
        (keyLines K (run (step cr y) f pre).knownPeers) := by
  intro pre e hpre
  obtain ⟨hbefore, ⟨hcanon, hlift⟩, -⟩ := along_append.1 (hes.of_prefix hpre)
  have hnow : Tombstoned K (run (step cr y) f pre) :=
    invariant_along (P := Tombstoned K)
      (fun _ _ h hG => (step_sticks h hG.1 hG.2).revoked) htomb hbefore
  rw [run_concat]
  exact (step_sticks hnow hcanon hlift).lines

/-! ### Another spelling -/

namespace Sample

/-- The text of the key with one of the unused bits of its last character set. -/
def otherSpelling : Bytes := (pubKeyB64 key).take 42 ++ lit "d="

/-- The operator revokes the buddy. -/
def revoke : List Event := [.remove false (pubKeyB64 key) ⟨none, none, none⟩ day 3]

/-- A worker finishes a pairing with the buddy under this text of its key. -/
def pair (partner : Bytes) : Event := .save (lit "invite") partner (replicate 32 1)

end Sample

/-- Without the condition it fails: the buddy is revoked, and then a worker that was about to finish
its pairing stores a session under another spelling of the key. -/
theorem revocation_sticks_fails :
    let before := run (step Sample.crypto Sample.noYaml) ⟨none, none, none⟩ Sample.revoke
    let after := step Sample.crypto Sample.noYaml before (Sample.pair Sample.otherSpelling)
    isRevoked before (pubKeyB64 Sample.key) = .ok true ∧ before.knownPeers = none ∧
      isRevoked after (pubKeyB64 Sample.key) = .ok true ∧
      loadSessions after = .ok [⟨Sample.key, rawURLEncoding.encode (replicate 32 1)⟩] ∧
      (keyLines Sample.key after.knownPeers).length = 1 := by
  decide +kernel

/-- A revoked buddy pairs under its canonical text, and another buddy pairs. -/
theorem revocation_sticks_canonical :
    (keyLines Sample.key (run (step Sample.crypto Sample.noYaml) Sample.revokedNode
      [Sample.pair (pubKeyB64 Sample.key), Sample.pair Sample.other]).knownPeers).Sublist
      (keyLines Sample.key (run (step Sample.crypto Sample.noYaml) Sample.revokedNode
        [Sample.pair (pubKeyB64 Sample.key)]).knownPeers) := by
  have hkey : canonicalFor Sample.key (Sample.pair (pubKeyB64 Sample.key)) = true := by
    decide +kernel
  have hother : canonicalFor Sample.key (Sample.pair Sample.other) = true := by decide +kernel
  exact revocation_sticks Sample.crypto Sample.noYaml Sample.key Sample.revokedNode
    [Sample.pair (pubKeyB64 Sample.key), Sample.pair Sample.other]
    (tombstoned_of_isRevoked (by decide +kernel))
    ⟨⟨hkey, fun h => h.1⟩, ⟨hother, fun h => h.1⟩, trivial⟩ [Sample.pair (pubKeyB64 Sample.key)]
    (Sample.pair Sample.other) prefix_rfl

end BuddyNet.Trust
