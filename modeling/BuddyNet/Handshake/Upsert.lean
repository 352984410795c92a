import BuddyNet.Handshake.Registry

/-!
# What the critical sections of the registry do

One specification per critical section, stated through three views of a registry: which record an
id of a token has (`Holds`), the keys recorded for a token (`seenKeys`), and its session id. An
`upsert` that is not refused is described by `UpsertSpec`; everything that only removes tokens and
ids is described by `Shrinks`.
-/

namespace BuddyNet.Handshake.Registry

open AList

variable {r r' r'' : Registry} {tok tok' id id' : Bytes} {ref self : ℕ} {m : Message}

/-- The registry has this record for an id of a token. -/
def Holds (r : Registry) (tok id : Bytes) (ref : ℕ) : Prop := (r.bucket tok).lookup id = some ref

theorem Holds.mem_waiting (h : r.Holds tok id ref) : tok ∈ r.waiting := by
  by_contra hmem
  have hnone : r.waiting.lookup tok = none := lookup_eq_none.2 hmem
  simp [Holds, bucket, hnone] at h

theorem Holds.unique {ref' : ℕ} (h : r.Holds tok id ref) (h' : r.Holds tok id ref') :
    ref = ref' := Option.some.inj (h.symm.trans h')

variable {b : Bucket}

theorem bucket_insert_self (h : r'.waiting = r.waiting.insert tok b) : r'.bucket tok = b := by
  simp [bucket, h, lookup_insert]

theorem bucket_insert_ne (h : r'.waiting = r.waiting.insert tok b)
    (hne : tok' ≠ tok) : r'.bucket tok' = r.bucket tok' := by
  simp [bucket, h, lookup_insert_ne hne]

/-! ### Removing -/

/-- Tokens and ids are removed; a token that goes takes its keys and its session id with it. -/
structure Shrinks (r r' : Registry) : Prop where
  heap : r'.heap = r.heap
  next : r'.next = r.next
  holds : ∀ {tok id ref}, r'.Holds tok id ref → r.Holds tok id ref
  waiting : ∀ {tok}, tok ∈ r'.waiting → tok ∈ r.waiting
  seen_kept : ∀ {tok}, tok ∈ r'.waiting → r'.seenKeys tok = r.seenKeys tok
  sid_kept : ∀ {tok}, tok ∈ r'.waiting → r'.sids.lookup tok = r.sids.lookup tok
  seen_or : ∀ tok, r'.seenKeys tok = r.seenKeys tok ∨ r'.seenKeys tok = []
  sid_or : ∀ tok, r'.sids.lookup tok = r.sids.lookup tok ∨ r'.sids.lookup tok = none
  gone : ∀ {tok}, tok ∈ r.waiting → tok ∉ r'.waiting →
    r'.seenKeys tok = [] ∧ r'.sids.lookup tok = none

theorem Shrinks.refl (r : Registry) : Shrinks r r where
  heap := rfl
  next := rfl
  holds := fun h => h
  waiting := fun h => h
  seen_kept := fun _ => rfl
  sid_kept := fun _ => rfl
  seen_or := fun _ => Or.inl rfl
  sid_or := fun _ => Or.inl rfl
  gone := fun h h' => absurd h h'

theorem Shrinks.trans (h : Shrinks r r') (h' : Shrinks r' r'') : Shrinks r r'' where
  heap := h'.heap.trans h.heap
  next := h'.next.trans h.next
  holds := fun hh => h.holds (h'.holds hh)
  waiting := fun hw => h.waiting (h'.waiting hw)
  seen_kept := fun hw => (h'.seen_kept hw).trans (h.seen_kept (h'.waiting hw))
  sid_kept := fun hw => (h'.sid_kept hw).trans (h.sid_kept (h'.waiting hw))
  seen_or := by
    intro tok
    rcases h'.seen_or tok with h' | h'
    · rw [h']; exact h.seen_or tok
    · exact Or.inr h'
  sid_or := by
    intro tok
    rcases h'.sid_or tok with h' | h'
    · rw [h']; exact h.sid_or tok
    · exact Or.inr h'
  gone := by
    intro tok hw hn
    by_cases hw' : tok ∈ r'.waiting
    · exact h'.gone hw' hn
    · -- what is gone stays gone
      obtain ⟨hs, hsid⟩ := h.gone hw hw'
      refine ⟨?_, ?_⟩
      · rcases h'.seen_or tok with h' | h'
        · rw [h', hs]
        · exact h'
      · rcases h'.sid_or tok with h' | h'
        · rw [h', hsid]
        · exact h'

/-- At most the latches of log lines differ. -/
structure LatchOnly (r r' : Registry) : Prop where
  waiting : r'.waiting = r.waiting
  heap : r'.heap = r.heap
  next : r'.next = r.next
  seenPKs : r'.seenPKs = r.seenPKs
  sids : r'.sids = r.sids

theorem LatchOnly.refl (r : Registry) : LatchOnly r r := ⟨rfl, rfl, rfl, rfl, rfl⟩

theorem LatchOnly.holds_iff (h : LatchOnly r r') : r'.Holds tok id ref ↔ r.Holds tok id ref := by
  rw [Holds, bucket, h.waiting]
  rfl

theorem LatchOnly.shrinks (h : LatchOnly r r') : Shrinks r r' where
  heap := h.heap
  next := h.next
  holds := h.holds_iff.1
  waiting := fun hw => h.waiting ▸ hw
  seen_kept := fun _ => by rw [seenKeys, h.seenPKs, seenKeys]
  sid_kept := fun _ => by rw [h.sids]
  seen_or := fun _ => Or.inl (by rw [seenKeys, h.seenPKs, seenKeys])
  sid_or := fun _ => Or.inl (by rw [h.sids])
  gone := fun hw hn => absurd (h.waiting.symm ▸ hw) hn

theorem warnIntruder_latchOnly (r : Registry) (tok : Bytes) : LatchOnly r (r.warnIntruder tok) := by
  unfold warnIntruder
  split_ifs <;> exact ⟨rfl, rfl, rfl, rfl, rfl⟩

theorem notePaired_latchOnly (r : Registry) (tok : Bytes) : LatchOnly r (r.notePaired tok).1 := by
  unfold notePaired
  split_ifs <;> exact ⟨rfl, rfl, rfl, rfl, rfl⟩

theorem dropToken_shrinks (r : Registry) (tok : Bytes) : Shrinks r (r.dropToken tok) where
  heap := rfl
  next := rfl
  holds := by
    intro tok' id ref h
    by_cases htok : tok' = tok
    · subst htok
      simp [Holds, bucket, dropToken, lookup_erase] at h
    · simpa [Holds, bucket, dropToken, lookup_erase_ne htok] using h
  waiting := fun h => (mem_erase.1 h).2
  seen_kept := by
    intro tok' h
    simp [seenKeys, dropToken, lookup_erase_ne (mem_erase.1 h).1]
  sid_kept := fun h => lookup_erase_ne (mem_erase.1 h).1
  seen_or := by
    intro tok'
    by_cases htok : tok' = tok
    · subst htok
      exact Or.inr (by simp [seenKeys, dropToken, lookup_erase])
    · exact Or.inl (by simp [seenKeys, dropToken, lookup_erase_ne htok])
  sid_or := by
    intro tok'
    by_cases htok : tok' = tok
    · subst htok
      exact Or.inr (lookup_erase tok' r.sids)
    · exact Or.inl (lookup_erase_ne htok)
  gone := by
    intro tok' hw hn
    have htok : tok' = tok := by
      by_contra htok
      exact hn (mem_erase.2 ⟨htok, hw⟩)
    subst htok
    exact ⟨by simp [seenKeys, dropToken, lookup_erase], lookup_erase tok' r.sids⟩

theorem shrinks_of_bucket {latch : AList fun _ : Bytes => Unit} (hw : tok ∈ r.waiting)
    (hb : ∀ id ref, b.lookup id = some ref → (r.bucket tok).lookup id = some ref) :
    Shrinks r { r with waiting := r.waiting.insert tok b, pairedLogged := latch } where
  heap := rfl
  next := rfl
  holds := by
    intro tok' id ref h
    by_cases htok : tok' = tok
    · subst htok
      exact hb id ref (by simpa [Holds, bucket, lookup_insert] using h)
    · simpa [Holds, bucket, lookup_insert_ne htok] using h
  waiting := by
    intro tok' h
    rcases (mem_insert _).1 h with rfl | h
    · exact hw
    · exact h
  seen_kept := fun _ => rfl
  sid_kept := fun _ => rfl
  seen_or := fun _ => Or.inl rfl
  sid_or := fun _ => Or.inl rfl
  gone := fun h hn => absurd ((mem_insert _).2 (Or.inr h)) hn

variable {ttl : ℤ} {heap : ℕ → HsPeer} {now : ℤ}

theorem lookup_of_dropExpired
    (h : (dropExpired heap ttl now b id').lookup id = some ref) : b.lookup id = some ref := by
  unfold dropExpired at h
  split at h
  · split_ifs at h
    · exact Go.lookup_of_erase h
    · exact h
  · exact h

theorem lookup_of_foldl_dropExpired (ids : List Bytes)
    (h : (ids.foldl (dropExpired heap ttl now) b).lookup id = some ref) :
    b.lookup id = some ref := by
  induction ids generalizing b with
  | nil => exact h
  | cons a ids ih => exact lookup_of_dropExpired (ih h)

theorem reapBucket_shrinks (ttl now : ℤ) (r : Registry) (tok : Bytes) :
    Shrinks r (reapBucket ttl now r tok) := by
  unfold reapBucket
  split
  · exact Shrinks.refl r
  · next b hb =>
    dsimp only
    split_ifs
    · exact dropToken_shrinks r tok
    · refine shrinks_of_bucket (lookup_isSome.1 (by simp [hb])) fun id ref h => ?_
      rw [bucket, hb]
      exact lookup_of_foldl_dropExpired _ h

theorem reap_shrinks (r : Registry) (ttl now : ℤ) : Shrinks r (r.reap ttl now) := by
  unfold reap
  induction r.waiting.keys generalizing r with
  | nil => exact Shrinks.refl r
  | cons tok toks ih => exact (reapBucket_shrinks ttl now r tok).trans (ih _)

/-! ### Upsert -/

/-- The token a registration displaces from a full table. -/
def victim (r : Registry) (evict : List Bytes) (tok : Bytes) : Option Bytes :=
  if tok ∈ r.waiting ∨ r.waiting.keys.length < maxTokens then none
  else r.stalest ((Go.visitOrder evict r.waiting.keys).take evictSample)

/-- The registry after the displacement. -/
def trimmed (r : Registry) (evict : List Bytes) (tok : Bytes) : Registry :=
  match r.victim evict tok with
  | none => r
  | some v => r.dropToken v

theorem trimmed_shrinks (r : Registry) (evict : List Bytes) (tok : Bytes) :
    Shrinks r (r.trimmed evict tok) := by
  unfold trimmed
  split
  · exact Shrinks.refl r
  · exact dropToken_shrinks r _

/-- The record a registration starts from. -/
def baseRecord (r : Registry) (m : Message) : HsPeer :=
  match (r.bucket m.token).lookup m.id with
  | some ref => r.heap ref
  | none => { id := m.id }

/-- The list of recorded keys after one more registration. -/
def addKey (known : List Bytes) (key : Bytes) : List Bytes :=
  if key ∉ known ∧ known.length < maxIDsPerToken + 1 then known ++ [key] else known

/-- An `upsert` with the stores `ws` that found the record `own` and possibly a partner. -/
structure UpsertSpec (r : Registry) (evict : List Bytes) (m : Message) (ws : List FieldWrite)
    (own : ℕ) (partner : Option ℕ) (r' : Registry) : Prop where
  self_origin : r.Holds m.token m.id own ∧ r'.next = r.next ∨
    own = r.next ∧ r'.next = r.next + 1 ∧ ∀ ref, ¬ r.Holds m.token m.id ref
  heap_self : r'.heap own = ws.foldl FieldWrite.apply (r.baseRecord m)
  heap_ne : ∀ {ref}, ref ≠ own → r'.heap ref = r.heap ref
  holds_self : r'.Holds m.token m.id own
  holds : ∀ {tok id ref}, r'.Holds tok id ref → (tok = m.token ∧ id = m.id ∧ ref = own) ∨
    (r.trimmed evict m.token).Holds tok id ref
  waiting : ∀ {tok}, tok ∈ r'.waiting ↔ tok = m.token ∨ tok ∈ (r.trimmed evict m.token).waiting
  seen_self : m.pubkey ≠ [] →
    r'.seenKeys m.token = addKey ((r.trimmed evict m.token).seenKeys m.token) m.pubkey
  seen_ne : ∀ {tok}, tok ≠ m.token → r'.seenKeys tok = (r.trimmed evict m.token).seenKeys tok
  sids : r'.sids = (r.trimmed evict m.token).sids
  partner_holds : ∀ {ref}, partner = some ref → ∃ id, id ≠ m.id ∧ r'.Holds m.token id ref

variable {evict : List Bytes}

theorem trimmed_of_mem (h : tok ∈ r.waiting) : r.trimmed evict tok = r := by
  simp [trimmed, victim, h]

theorem openBucket_cases (h : r.openBucket evict tok = some r') : (tok ∈ r.waiting ∧ r' = r) ∨
    (tok ∉ r.waiting ∧ r' = { r.trimmed evict tok with
      waiting := (r.trimmed evict tok).waiting.insert tok ∅ }) := by
  unfold openBucket at h
  split_ifs at h with hmem hfull
  · exact Or.inl ⟨hmem, (Option.some.inj h).symm⟩
  · refine Or.inr ⟨hmem, ?_⟩
    obtain ⟨r₁, hr₁, rfl⟩ := Option.map_eq_some_iff.1 h
    obtain ⟨v, hv, rfl⟩ := Option.map_eq_some_iff.1 hr₁
    have hvictim : r.victim evict tok = some v := by
      rw [victim, if_neg (not_or.2 ⟨hmem, not_lt.2 hfull⟩)]
      exact hv
    simp [trimmed, hvictim]
  · refine Or.inr ⟨hmem, ?_⟩
    have hvictim : r.victim evict tok = none := by
      rw [victim, if_pos (Or.inr (not_le.1 hfull))]
    simpa [trimmed, hvictim] using (Option.some.inj h).symm

theorem openBucket_spec (h : r.openBucket evict tok = some r') :
    (∀ tok', r'.bucket tok' = (r.trimmed evict tok).bucket tok') ∧
    (∀ tok', tok' ∈ r'.waiting ↔ tok' = tok ∨ tok' ∈ (r.trimmed evict tok).waiting) ∧
    r'.heap = r.heap ∧ r'.next = r.next ∧
    r'.seenPKs = (r.trimmed evict tok).seenPKs ∧ r'.sids = (r.trimmed evict tok).sids := by
  have hshrink := trimmed_shrinks r evict tok
  rcases openBucket_cases h with ⟨hmem, rfl⟩ | ⟨hmem, rfl⟩
  · rw [trimmed_of_mem hmem]
    refine ⟨fun _ => rfl, fun tok' => ⟨Or.inr, ?_⟩, rfl, rfl, rfl, rfl⟩
    rintro (rfl | h')
    · exact hmem
    · exact h'
  · refine ⟨fun tok' => ?_, fun tok' => mem_insert _, hshrink.heap, hshrink.next, rfl, rfl⟩
    by_cases htok : tok' = tok
    · subst htok
      have hnone : (r.trimmed evict tok').waiting.lookup tok' = none :=
        lookup_eq_none.2 fun hw => hmem (hshrink.waiting hw)
      simp [bucket, lookup_insert, hnone]
    · simp [bucket, lookup_insert_ne htok]

theorem noteKey_frame (r : Registry) (m : Message) :
    (r.noteKey m).waiting = r.waiting ∧ (r.noteKey m).heap = r.heap ∧
    (r.noteKey m).next = r.next ∧ (r.noteKey m).sids = r.sids := by
  have hwarn := warnIntruder_latchOnly r m.token
  unfold noteKey
  dsimp only
  split_ifs
  · exact ⟨rfl, rfl, rfl, rfl⟩
  · exact ⟨hwarn.waiting, hwarn.heap, hwarn.next, hwarn.sids⟩
  · exact ⟨rfl, rfl, rfl, rfl⟩
  · exact ⟨rfl, rfl, rfl, rfl⟩

theorem noteKey_seen_self (hk : m.pubkey ≠ []) :
    (r.noteKey m).seenKeys m.token = addKey (r.seenKeys m.token) m.pubkey := by
  unfold noteKey addKey
  dsimp only
  rw [if_neg hk]
  split_ifs <;> simp [seenKeys, lookup_insert]

theorem noteKey_seen_ne (h : tok ≠ m.token) : (r.noteKey m).seenKeys tok = r.seenKeys tok := by
  have hwarn := (warnIntruder_latchOnly r m.token).seenPKs
  unfold noteKey
  dsimp only
  split_ifs <;> simp [seenKeys, lookup_insert_ne h, hwarn]

theorem findSelf_spec (h : r.findSelf m = (r', some self)) :
    (r.Holds m.token m.id self ∧ r' = r) ∨
    (self = r.next ∧ (∀ ref, ¬ r.Holds m.token m.id ref) ∧
      r' = { r with
        waiting := r.waiting.insert m.token ((r.bucket m.token).insert m.id r.next)
        heap := Function.update r.heap r.next { id := m.id }
        next := r.next + 1 }) := by
  unfold findSelf at h
  split at h
  · next ref href =>
    cases h
    exact Or.inl ⟨href, rfl⟩
  · next hnone =>
    split_ifs at h
    · cases h
    obtain ⟨rfl, hself⟩ := Prod.mk.inj h
    refine Or.inr ⟨(Option.some.inj hself).symm, fun ref href => ?_, rfl⟩
    rw [Holds, hnone] at href
    cases href

theorem beginUpsert_cases (h : r.beginUpsert evict m = (r', some self)) :
    ∃ r₁ r₂, r.openBucket evict m.token = some r₁ ∧ r₁.findSelf m = (r₂, some self) ∧
      r' = r₂.noteKey m := by
  unfold beginUpsert at h
  split at h
  · cases h
  · next r₁ hopen =>
    split at h
    · cases h
    · next r₂ self' hfind =>
      cases h
      exact ⟨r₁, r₂, hopen, hfind, rfl⟩

theorem holds_trimmed_self :
    (r.trimmed evict m.token).Holds m.token id ref ↔ r.Holds m.token id ref := by
  refine ⟨(trimmed_shrinks r evict m.token).holds, fun h => ?_⟩
  rwa [trimmed_of_mem h.mem_waiting]

/-- **The first part of an `upsert` that is not refused**: no store, no partner yet. -/
theorem beginUpsert_spec (h : r.beginUpsert evict m = (r', some self)) :
    UpsertSpec r evict m [] self none r' := by
  obtain ⟨r₁, r₂, hopen, hfind, rfl⟩ := beginUpsert_cases h
  obtain ⟨hbucket, hwaiting, hheap, hnext, hseen, hsids⟩ := openBucket_spec hopen
  obtain ⟨nw, nh, nn, ns⟩ := noteKey_frame r₂ m
  have hholds : ∀ {tok id ref}, r₁.Holds tok id ref ↔
      (r.trimmed evict m.token).Holds tok id ref := by
    intro tok id ref
    rw [Holds, hbucket, Holds]
  have hself : ∀ {id ref}, r₁.Holds m.token id ref ↔ r.Holds m.token id ref :=
    hholds.trans holds_trimmed_self
  have hbucket' : ∀ {tok}, (r₂.noteKey m).bucket tok = r₂.bucket tok := by
    intro tok
    rw [bucket, nw, bucket]
  have hkeys : ∀ {tok}, r₁.seenKeys tok = (r.trimmed evict m.token).seenKeys tok := by
    intro tok
    rw [seenKeys, hseen, seenKeys]
  rcases findSelf_spec hfind with ⟨hfound, rfl⟩ | ⟨rfl, hfresh, rfl⟩
  · -- the id is known: its record is used again
    refine ⟨Or.inl ⟨hself.1 hfound, nn.trans hnext⟩, ?_, ?_, ?_, ?_, ?_, ?_, ?_, ?_, nofun⟩
    · rw [nh, hheap, baseRecord, hself.1 hfound]
      rfl
    · intro ref _
      rw [nh, hheap]
    · rw [Holds, hbucket']
      exact hfound
    · intro tok id ref href
      rw [Holds, hbucket'] at href
      exact Or.inr (hholds.1 href)
    · intro tok
      rw [nw]
      exact hwaiting tok
    · intro hk
      rw [noteKey_seen_self hk, hkeys]
    · intro tok htok
      rw [noteKey_seen_ne htok, hkeys]
    · rw [ns, hsids]
  · -- the id is new: a fresh record
    have hnone : ∀ ref, ¬ r.Holds m.token m.id ref := fun ref href => hfresh ref (hself.2 href)
    refine ⟨Or.inr ⟨hnext, by rw [nn]; simp [hnext], hnone⟩, ?_, ?_, ?_, ?_, ?_, ?_, ?_, ?_, nofun⟩
    · rw [nh, baseRecord, Option.eq_none_iff_forall_ne_some.2 hnone]
      simp
    · intro ref hne
      rw [nh]
      simp [Function.update_of_ne hne, hheap]
    · rw [Holds, hbucket', bucket_insert_self rfl, lookup_insert]
    · intro tok id ref href
      rw [Holds, hbucket'] at href
      by_cases htok : tok = m.token
      · subst htok
        rw [bucket_insert_self rfl] at href
        by_cases hid : id = m.id
        · subst hid
          rw [lookup_insert] at href
          exact Or.inl ⟨rfl, rfl, (Option.some.inj href).symm⟩
        · rw [lookup_insert_ne hid] at href
          exact Or.inr (hholds.1 href)
      · rw [bucket_insert_ne rfl htok] at href
        exact Or.inr (hholds.1 href)
    · intro tok
      rw [nw]
      refine (mem_insert _).trans ?_
      rw [hwaiting tok, ← or_assoc, or_self]
    · intro hk
      rw [noteKey_seen_self hk]
      exact congrArg (addKey · m.pubkey) hkeys
    · intro tok htok
      rw [noteKey_seen_ne htok]
      exact hkeys
    · rw [ns]
      exact hsids

theorem beginUpsert_refused (h : r.beginUpsert evict m = (r', none)) : LatchOnly r r' := by
  unfold beginUpsert at h
  split at h
  · cases h
    exact LatchOnly.refl r
  · next r₁ hopen =>
    split at h
    · next r₂ hfind =>
      cases h
      unfold findSelf at hfind
      split at hfind
      · cases hfind
      · split_ifs at hfind with hfull
        · cases hfind
          -- a bucket that was just opened is empty, so a full one was there before
          rcases openBucket_cases hopen with ⟨-, rfl⟩ | ⟨-, rfl⟩
          · exact warnIntruder_latchOnly _ _
          · rw [bucket_insert_self rfl] at hfull
            exact absurd hfull (by decide)
        · cases hfind
    · cases h

/-! ### The partner -/

/-- The search only removes ids other than its own, and finds the record of one. -/
theorem searchPartner_spec (heap : ℕ → HsPeer) (ttl now : ℤ) (me : Bytes) (ids : List Bytes)
    (b : Bucket) :
    (∀ id ref, (searchPartner heap ttl now me ids b).1.lookup id = some ref →
      b.lookup id = some ref) ∧
    (searchPartner heap ttl now me ids b).1.lookup me = b.lookup me ∧
    (∀ ref, (searchPartner heap ttl now me ids b).2 = some ref →
      ∃ id, id ≠ me ∧ (searchPartner heap ttl now me ids b).1.lookup id = some ref) := by
  induction ids generalizing b with
  | nil => exact ⟨fun _ _ h => h, rfl, nofun⟩
  | cons id ids ih =>
    unfold searchPartner
    by_cases hid : id = me
    · rw [if_pos hid]
      exact ih b
    · rw [if_neg hid]
      split
      · exact ih b
      · next ref href =>
        split_ifs
        · obtain ⟨hold, hme, hfound⟩ := ih (b.erase id)
          refine ⟨fun id' ref' h' => ?_, ?_, hfound⟩
          · exact Go.lookup_of_erase (hold id' ref' h')
          · rw [hme, lookup_erase_ne (Ne.symm hid)]
        · exact ⟨fun _ _ h => h, rfl, fun ref' h' => ⟨id, hid, href.trans h'⟩⟩

/-- **The last part of an `upsert`** removes ids other than the sender's and finds a partner. -/
theorem finishUpsert_spec (ttl now : ℤ) (order : List Bytes) (hself : r.Holds m.token m.id self) :
    Shrinks r (r.finishUpsert ttl now order m).1 ∧
    (r.finishUpsert ttl now order m).1.Holds m.token m.id self ∧
    (∀ {tok}, tok ∈ (r.finishUpsert ttl now order m).1.waiting ↔ tok ∈ r.waiting) ∧
    (∀ ref, (r.finishUpsert ttl now order m).2 = some ref → ∃ id, id ≠ m.id ∧
      (r.finishUpsert ttl now order m).1.Holds m.token id ref) := by
  obtain ⟨hold, hme, hfound⟩ := searchPartner_spec r.heap ttl now m.id
    (Go.visitOrder order (r.bucket m.token).keys) (r.bucket m.token)
  have hshrinks : Shrinks r (r.finishUpsert ttl now order m).1 :=
    shrinks_of_bucket hself.mem_waiting hold
  have hbucket : (r.finishUpsert ttl now order m).1.bucket m.token =
      (searchPartner r.heap ttl now m.id (Go.visitOrder order (r.bucket m.token).keys)
        (r.bucket m.token)).1 := bucket_insert_self rfl
  refine ⟨hshrinks, ?_, ?_, ?_⟩
  · rw [Holds, hbucket, hme]
    exact hself
  · intro tok
    refine ⟨hshrinks.waiting, fun h => (mem_insert _).2 (Or.inr h)⟩
  · intro ref href
    obtain ⟨id, hid, hlookup⟩ := hfound ref href
    exact ⟨id, hid, by rw [Holds, hbucket]; exact hlookup⟩

/-! ### The record -/

/-- The candidate endpoint a registration from `src` adds. -/
def candidateOf (src : UDPAddr) : Candidate := ⟨src.string, Go.to4 src.ip = none⟩

/-- What the stores of a registration make of a record. -/
structure Stored (m : Message) (src : UDPAddr) (p p' : HsPeer) : Prop where
  id : p'.id = p.id
  pubkey : m.pubkey ≠ [] → p'.pubkey = m.pubkey
  virtualIP : m.virtualIP ≠ [] → p'.virtualIP = m.virtualIP
  name : p'.name = p.name ∨ p'.name = m.name
  cands : ∀ {k c}, p'.cands.lookup k = some c → p.cands.lookup k = some c ∨ c = candidateOf src

theorem apply_cand (p : HsPeer) (k : Bytes) (c : Candidate) :
    FieldWrite.apply p (.cand k c) = p ∨
      FieldWrite.apply p (.cand k c) = { p with cands := p.cands.insert k c } := by
  simp only [FieldWrite.apply]
  split_ifs
  · exact Or.inl rfl
  · exact Or.inr rfl

theorem fieldWrites_stored (m : Message) (src : UDPAddr) (now : ℤ) (p : HsPeer) :
    Stored m src p ((fieldWrites m src now).foldl FieldWrite.apply p) := by
  unfold fieldWrites
  rw [List.foldl_append]
  generalize hq : List.foldl FieldWrite.apply p _ = q
  -- the conditional stores, then the sighting
  have hstored : Stored m src p { q with seen := now } := by
    subst hq
    split_ifs <;> constructor <;> simp_all [FieldWrite.apply]
  show Stored m src p (FieldWrite.apply { q with seen := now } (.cand src.string (candidateOf src)))
  rcases apply_cand { q with seen := now } src.string (candidateOf src) with h | h <;> rw [h]
  · exact hstored
  · refine ⟨hstored.id, hstored.pubkey, hstored.virtualIP, hstored.name, fun hc => ?_⟩
    exact (Go.lookup_insert_cases hc).elim hstored.cands fun h => Or.inr h.2

/-! ### The whole section -/

theorem write_heap_self (ws : List FieldWrite) :
    (r.write ref ws).heap ref = ws.foldl FieldWrite.apply (r.heap ref) := Function.update_self ..

theorem write_heap_ne {ref' : ℕ} {ws : List FieldWrite} (h : ref' ≠ ref) :
    (r.write ref ws).heap ref' = r.heap ref' := Function.update_of_ne h ..

variable {src : UDPAddr} {order : List Bytes}

/-- **An `upsert` that is not refused.** -/
theorem upsert_spec {partner : Option ℕ}
    (h : r.upsert ttl now src evict order m = (r', some (self, partner))) :
    UpsertSpec r evict m (fieldWrites m src now) self partner r' := by
  unfold upsert at h
  split at h
  · cases h
  · next r₁ own hbegin =>
    cases h
    have hb := beginUpsert_spec hbegin
    have hself : (r₁.write self (fieldWrites m src now)).Holds m.token m.id self := hb.holds_self
    obtain ⟨hs, hs_self, hs_waiting, hs_found⟩ := finishUpsert_spec ttl now order hself
    refine ⟨?_, ?_, ?_, hs_self, fun h => hb.holds (hs.holds h), hs_waiting.trans hb.waiting,
      hb.seen_self, hb.seen_ne, hb.sids, fun {ref} => hs_found ref⟩
    · rw [hs.next]
      exact hb.self_origin
    · rw [hs.heap, write_heap_self, hb.heap_self, List.foldl_nil]
    · intro ref hne
      rw [hs.heap, write_heap_ne hne, hb.heap_ne hne]

theorem upsert_refused (h : r.upsert ttl now src evict order m = (r', none)) : LatchOnly r r' := by
  unfold upsert at h
  split at h
  · next hbegin =>
    cases h
    exact beginUpsert_refused hbegin
  · cases h

/-! ### Properties of the records -/

/-- Every record in use has the property. -/
def Records (P : HsPeer → Prop) (r : Registry) : Prop :=
  ∀ tok id ref, r.Holds tok id ref → P (r.heap ref)

variable {P : HsPeer → Prop}

theorem records_empty : Registry.empty.Records P := nofun

theorem Records.shrink (h : r.Records P) (hs : Shrinks r r') : r'.Records P := by
  intro tok id ref hh
  rw [hs.heap]
  exact h tok id ref (hs.holds hh)

theorem Records.base (h : r.Records P) (m : Message) :
    r.baseRecord m = { id := m.id } ∨ P (r.baseRecord m) := by
  unfold baseRecord
  split
  · next ref href => exact Or.inr (h m.token m.id ref href)
  · exact Or.inl rfl

/-- **A registration keeps the property**, if the record it writes has it. -/
theorem Records.upsert (h : r.Records P)
    (hnew : P ((fieldWrites m src now).foldl FieldWrite.apply (r.baseRecord m))) :
    (r.upsert ttl now src evict order m).1.Records P := by
  generalize hup : r.upsert ttl now src evict order m = res
  obtain ⟨r', _ | ⟨own, partner⟩⟩ := res
  · exact h.shrink (upsert_refused hup).shrinks
  · have hu := upsert_spec hup
    intro tok id ref hh
    by_cases href : ref = own
    · rw [href, hu.heap_self]
      exact hnew
    · rw [hu.heap_ne href]
      rcases hu.holds hh with ⟨-, -, heq⟩ | htrim
      · exact absurd heq href
      · exact h tok id ref ((trimmed_shrinks r evict _).holds htrim)

/-! ### Ownership of records -/

/-- A record belongs to one id of one token. -/
structure Owned (r : Registry) : Prop where
  refs_lt : ∀ {tok id ref}, r.Holds tok id ref → ref < r.next
  refs_inj : ∀ {tok id tok' id' ref}, r.Holds tok id ref → r.Holds tok' id' ref →
    tok = tok' ∧ id = id'

theorem owned_empty : Registry.empty.Owned where
  refs_lt := nofun
  refs_inj := nofun

theorem Owned.shrink (h : r.Owned) (hs : Shrinks r r') : r'.Owned where
  refs_lt := fun hh => by rw [hs.next]; exact h.refs_lt (hs.holds hh)
  refs_inj := fun hh hh' => h.refs_inj (hs.holds hh) (hs.holds hh')

section

variable {evict : List Bytes} {ws : List FieldWrite} {own : ℕ} {partner : Option ℕ}

section

variable (hu : UpsertSpec r evict m ws own partner r')
include hu

theorem UpsertSpec.next_le : r.next ≤ r'.next := by
  rcases hu.self_origin with ⟨-, hnext⟩ | ⟨-, hnext, -⟩ <;> omega

theorem UpsertSpec.own_lt (h : r.Owned) : own < r'.next := by
  rcases hu.self_origin with ⟨hown, hnext⟩ | ⟨rfl, hnext, -⟩
  · have := h.refs_lt hown
    omega
  · omega

/-- The record a registration writes has not belonged to another id. -/
theorem UpsertSpec.own_home (h : r.Owned)
    (hh : r.Holds tok id own) : tok = m.token ∧ id = m.id := by
  rcases hu.self_origin with ⟨hown, -⟩ | ⟨rfl, -, -⟩
  · exact h.refs_inj hh hown
  · exact absurd (h.refs_lt hh) (lt_irrefl _)

end

theorem Owned.upsert (h : r.Owned) (hu : UpsertSpec r evict m ws own partner r') : r'.Owned := by
  have hshrink := trimmed_shrinks r evict m.token
  refine ⟨?_, ?_⟩
  · intro tok id ref hh
    rcases hu.holds hh with ⟨-, -, rfl⟩ | hold
    · exact hu.own_lt h
    · exact (h.refs_lt (hshrink.holds hold)).trans_le hu.next_le
  · intro tok id tok' id' ref hh hh'
    rcases hu.holds hh with ⟨rfl, rfl, rfl⟩ | hold
    · rcases hu.holds hh' with ⟨rfl, rfl, -⟩ | hold'
      · exact ⟨rfl, rfl⟩
      · obtain ⟨rfl, rfl⟩ := hu.own_home h (hshrink.holds hold')
        exact ⟨rfl, rfl⟩
    · rcases hu.holds hh' with ⟨rfl, rfl, rfl⟩ | hold'
      · exact hu.own_home h (hshrink.holds hold)
      · exact h.refs_inj (hshrink.holds hold) (hshrink.holds hold')

end

end BuddyNet.Handshake.Registry
