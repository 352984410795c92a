import BuddyNet.Handshake.SideTables

/-!
# The shape of the registry

The registry on its own, under any sequence of `upsert`, passes of `reap` and evictions, with every
iteration order of its maps.

* `Shaped`: how many tokens, ids, candidates and seen keys there can be, kept by every operation;
* `VipsDerived`: the virtual address of a record is the one its key derives. It takes registrations
  that come through `deriveVIP` with a key: a keyless one passes `deriveVIP` unchanged, and its
  claimed address is stored;
* what one `upsert` may displace, whom it may name as partner, and what a refusal leaves.
-/

namespace BuddyNet.Handshake.Registry

open AList Go List

variable {r r' : Registry} {tok t id : Bytes} {ref own : ℕ} {m : Message}

/-! ### Evictions -/

/-- No map knows the token. -/
def Gone (r : Registry) (tok : Bytes) : Prop := tok ∉ r.waiting ∧ ¬ r.Marked tok

/-- One token is removed, from all five maps, and nothing else changes in them. -/
structure Evicts (r r' : Registry) (v : Bytes) : Prop where
  waited : v ∈ r.waiting
  gone : r'.Gone v
  others : ∀ {t}, t ≠ v → Agree r r' t

theorem dropToken_agree (h : t ≠ tok) : Agree r (r.dropToken tok) t :=
  ⟨lookup_erase_ne h, lookup_erase_ne h, lookup_erase_ne h,
    lookup_erase_ne h, lookup_erase_ne h⟩

theorem dropToken_gone (r : Registry) (tok : Bytes) : (r.dropToken tok).Gone tok :=
  ⟨fun h => (mem_erase.1 h).1 rfl, fun h => (marked_dropToken.1 h).1 rfl⟩

theorem dropToken_evicts (h : tok ∈ r.waiting) : Evicts r (r.dropToken tok) tok :=
  ⟨h, dropToken_gone r tok, dropToken_agree⟩

theorem lookup_of_trimmed {evict : List Bytes} {b : Bucket}
    (h : (r.trimmed evict tok).waiting.lookup t = some b) : r.waiting.lookup t = some b := by
  rcases trimmed_cases r evict tok with ⟨heq, -⟩ | ⟨v, heq, -⟩
  · rwa [heq] at h
  · rw [heq] at h
    exact lookup_of_erase h

theorem trimmed_room (h : r.waiting.keys.length ≤ maxTokens) (evict : List Bytes) (tok : Bytes) :
    ((r.trimmed evict tok).waiting.erase tok).keys.length < maxTokens := by
  rcases trimmed_cases r evict tok with ⟨heq, hroom⟩ | ⟨v, heq, hv, -, -⟩ <;> rw [heq]
  · rcases hroom with hmem | hlt
    · have := keys_length_erase_of_mem hmem
      omega
    · exact lt_of_le_of_lt (keys_length_erase_le _ _) hlt
  · have := keys_length_erase_of_mem hv
    have := keys_length_erase_le (r.waiting.erase v) tok
    show ((r.waiting.erase v).erase tok).keys.length < maxTokens
    omega

/-! ### Records -/

/-- A record has one to eight candidates, each under its own address. -/
structure Reachable (p : HsPeer) : Prop where
  some_cand : 1 ≤ p.cands.keys.length
  few_cands : p.cands.keys.length ≤ 8
  addressed : ∀ {k c}, p.cands.lookup k = some c → c.addr = k

/-- A registration leaves the candidates to `observe`, after it stored a valid name and the
sighting. -/
theorem fieldWrites_observe (m : Message) (src : UDPAddr) (now : ℤ) (p : HsPeer) :
    ∃ q : HsPeer, q.cands = p.cands ∧ q.seen = now ∧
      (q.name = p.name ∨ validName q.name = true) ∧
      (fieldWrites m src now).foldl FieldWrite.apply p =
        FieldWrite.apply q (.cand src.string (candidateOf src)) := by
  unfold fieldWrites
  rw [foldl_append]
  generalize hq : foldl FieldWrite.apply p _ = q
  refine ⟨{ q with seen := now }, ?_, rfl, ?_, rfl⟩
  · subst hq
    split_ifs <;> rfl
  · subst hq
    split_ifs with h1 h2 h3 <;> simp_all [FieldWrite.apply]

/-- After `observe` the record is reachable, if it was or had no candidate yet. -/
theorem fieldWrites_reachable (m : Message) (src : UDPAddr) (now : ℤ) {p : HsPeer}
    (hfew : p.cands.keys.length ≤ 8) (haddr : ∀ {k c}, p.cands.lookup k = some c → c.addr = k) :
    Reachable ((fieldWrites m src now).foldl FieldWrite.apply p) := by
  obtain ⟨q, hcands, -, -, heq⟩ := fieldWrites_observe m src now p
  rw [heq]
  rw [← hcands] at hfew haddr
  simp only [FieldWrite.apply]
  split_ifs with hcap
  · -- at the cap the new endpoint is ignored
    have : 8 ≤ q.cands.keys.length := hcap.2
    exact ⟨by omega, hfew, haddr⟩
  · have hlen := keys_length_insert q.cands src.string (candidateOf src)
    refine ⟨?_, ?_, fun {k c} hc => ?_⟩
    · show 1 ≤ (q.cands.insert src.string (candidateOf src)).keys.length
      omega
    · show (q.cands.insert src.string (candidateOf src)).keys.length ≤ 8
      by_cases hmem : src.string ∈ q.cands
      · have := keys_length_erase_of_mem hmem
        omega
      · have hroom : ¬ 8 ≤ q.cands.keys.length := fun h => hcap ⟨hmem, h⟩
        have := keys_length_erase_le q.cands src.string
        omega
    · rcases lookup_insert_cases hc with hold | ⟨rfl, rfl⟩
      · exact haddr hold
      · rfl

/-! ### The shape -/

/-- **The shape of a registry.** -/
structure Shaped (r : Registry) : Prop where
  tokens : r.waiting.keys.length ≤ 4096
  ids : ∀ {tok b}, r.waiting.lookup tok = some b → 1 ≤ b.keys.length ∧ b.keys.length ≤ 2
  records : ∀ {tok id ref}, r.Holds tok id ref → Reachable (r.heap ref)
  seenKeys : ∀ tok, (r.seenKeys tok).length ≤ 3

theorem shaped_empty : Registry.empty.Shaped where
  tokens := Nat.zero_le _
  ids := nofun
  records := nofun
  seenKeys := fun _ => Nat.zero_le _

theorem Shaped.ids_le (h : r.Shaped) (tok : Bytes) : (r.bucket tok).keys.length ≤ 2 := by
  unfold bucket
  cases hb : r.waiting.lookup tok with
  | none => exact Nat.zero_le _
  | some b => exact (h.ids hb).2

theorem Shaped.shrink (h : r.Shaped) (hs : Shrinks r r')
    (hids : ∀ {tok b}, r'.waiting.lookup tok = some b → 1 ≤ b.keys.length) : r'.Shaped where
  tokens := (keys_length_le fun _ => hs.waiting).trans h.tokens
  ids := by
    intro tok b hb
    refine ⟨hids hb, le_trans (keys_length_le fun id hid => ?_) (h.ids_le tok)⟩
    obtain ⟨ref, href⟩ := Option.isSome_iff_exists.1 (lookup_isSome.2 hid)
    have hold : r.Holds tok id ref := hs.holds (by rw [Holds, bucket, hb]; exact href)
    exact lookup_isSome.1 (Option.isSome_iff_exists.2 ⟨ref, hold⟩)
  records := fun hh => by
    rw [hs.heap]
    exact h.records (hs.holds hh)
  seenKeys := by
    intro tok
    rcases hs.seen_or tok with heq | hnil
    · rw [heq]
      exact h.seenKeys tok
    · rw [hnil]
      exact Nat.zero_le _

theorem Shaped.dropToken (h : r.Shaped) (tok : Bytes) : (r.dropToken tok).Shaped :=
  h.shrink (dropToken_shrinks r tok) fun hb => (h.ids (lookup_of_erase hb)).1

theorem Shaped.reapBucket (ttl now : ℤ) (h : r.Shaped) (tok : Bytes) :
    (reapBucket ttl now r tok).Shaped := by
  refine h.shrink (reapBucket_shrinks ttl now r tok) fun {t b'} hb' => ?_
  unfold Registry.reapBucket at hb'
  split at hb'
  · exact (h.ids hb').1
  · dsimp only at hb'
    split_ifs at hb' with hkept
    · exact (h.ids (lookup_of_erase hb')).1
    · -- a bucket that stays is not empty
      rcases lookup_insert_cases hb' with hold | ⟨-, rfl⟩
      · exact (h.ids hold).1
      · exact length_pos_of_ne_nil hkept

theorem Shaped.reap (ttl now : ℤ) (h : r.Shaped) : (r.reap ttl now).Shaped := by
  unfold Registry.reap
  induction r.waiting.keys generalizing r with
  | nil => exact h
  | cons tok toks ih => exact ih (h.reapBucket ttl now tok)

theorem Shaped.latchOnly (h : r.Shaped) (hl : LatchOnly r r') : r'.Shaped :=
  h.shrink hl.shrinks fun hb => (h.ids (hl.waiting ▸ hb)).1

/-! ### Registrations -/

section Upsert

variable {ttl now : ℤ} {src : UDPAddr} {evict order : List Bytes} {partner : Option ℕ}

section

variable (h : r.upsert ttl now src evict order m = (r', some (own, partner)))
include h

theorem upsert_room
    (hnew : ∀ ref, ¬ r.Holds m.token m.id ref) : (r.bucket m.token).keys.length < 2 := by
  unfold upsert at h
  split at h
  · cases h
  · next r₁ own' hbegin =>
    obtain ⟨r₀, r₂, hopen, hfind, -⟩ := beginUpsert_cases hbegin
    by_cases hmem : m.token ∈ r.waiting
    · have hsame : r₀.bucket m.token = r.bucket m.token := by
        rw [(openBucket_spec hopen).1, trimmed_of_mem hmem]
      unfold findSelf at hfind
      rw [hsame, Option.eq_none_iff_forall_ne_some.2 hnew] at hfind
      split_ifs at hfind with hfull
      · cases hfind
      · exact not_le.1 hfull
    · rw [bucket, lookup_eq_none.2 hmem]
      decide

theorem upsert_keyless (hkey : m.pubkey = []) : r'.seenPKs = (r.trimmed evict m.token).seenPKs := by
  unfold upsert at h
  split at h
  · cases h
  · next r₁ own' hbegin =>
    cases h
    obtain ⟨r₀, r₂, hopen, hfind, rfl⟩ := beginUpsert_cases hbegin
    have hnote : r₂.noteKey m = r₂ := by simp [noteKey, hkey]
    have hopened := (openBucket_spec hopen).2.2.2.2.1
    rw [hnote]
    rcases findSelf_spec hfind with ⟨-, rfl⟩ | ⟨-, -, rfl⟩ <;> exact hopened

theorem upsert_seenKeys_le
    (hle : ∀ tok, (r.seenKeys tok).length ≤ 3) (tok : Bytes) : (r'.seenKeys tok).length ≤ 3 := by
  have hu := upsert_spec h
  have htrim : ∀ tok, ((r.trimmed evict m.token).seenKeys tok).length ≤ 3 := by
    intro tok
    rcases (trimmed_shrinks r evict m.token).seen_or tok with heq | hnil
    · rw [heq]
      exact hle tok
    · rw [hnil]
      exact Nat.zero_le _
  by_cases htok : tok = m.token
  · subst htok
    by_cases hkey : m.pubkey = []
    · rw [Registry.seenKeys, upsert_keyless h hkey]
      exact htrim m.token
    · rw [hu.seen_self hkey, addKey]
      have := htrim m.token
      split_ifs with hadd
      · have : (Registry.seenKeys (r.trimmed evict m.token) m.token).length < 3 := hadd.2
        rw [length_append, length_singleton]
        omega
      · exact this
  · rw [hu.seen_ne htok]
    exact htrim tok

end

/-- **A registration keeps the shape.** -/
theorem Shaped.registered (h : r.Shaped)
    (hup : r.upsert ttl now src evict order m = (r', some (own, partner))) : r'.Shaped := by
  have hu := upsert_spec hup
  have hshrink := trimmed_shrinks r evict m.token
  have hagree : ∀ {t}, t ≠ m.token → Agree (r.trimmed evict m.token) r' t := by
    have honly := (upsert_onlyAt r ttl now src evict order m).1
    rw [hup] at honly
    exact fun {_} ht => honly.agree ht
  -- the record that is written starts from one of the sender's, or from none
  have hown : Reachable (r'.heap own) := by
    rw [hu.heap_self]
    unfold baseRecord
    split
    · next ref href =>
      exact fieldWrites_reachable m src now (h.records href).few_cands (h.records href).addressed
    · exact fieldWrites_reachable m src now (Nat.zero_le _) nofun
  refine ⟨?_, ?_, ?_, upsert_seenKeys_le hup h.seenKeys⟩
  · have hroom := trimmed_room (r := r) h.tokens evict m.token
    have hlen := keys_length_insert (r.trimmed evict m.token).waiting m.token ∅
    have hle : r'.waiting.keys.length ≤
        ((r.trimmed evict m.token).waiting.insert m.token ∅).keys.length :=
      keys_length_le fun t ht => (mem_insert _).2 (hu.waiting.1 ht)
    unfold maxTokens at hroom
    omega
  · intro tok b hb
    by_cases htok : tok = m.token
    · subst htok
      have hbucket : r'.bucket m.token = b := by rw [bucket, hb]; rfl
      have hself : m.id ∈ b := by
        rw [← hbucket]
        exact lookup_isSome.1 (Option.isSome_iff_exists.2 ⟨own, hu.holds_self⟩)
      -- every other id of the bucket was there before
      have hold : ∀ id, id ∈ b → id = m.id ∨ id ∈ r.bucket m.token := by
        intro id hid
        obtain ⟨ref, href⟩ := Option.isSome_iff_exists.1 (lookup_isSome.2 hid)
        rw [← hbucket] at href
        rcases hu.holds href with ⟨-, rfl, -⟩ | htrim
        · exact Or.inl rfl
        · exact Or.inr (lookup_isSome.1
            (Option.isSome_iff_exists.2 ⟨ref, hshrink.holds htrim⟩))
      refine ⟨keys_length_pos hself, ?_⟩
      rcases hu.self_origin with ⟨hfound, -⟩ | ⟨-, -, hnew⟩
      · refine le_trans (keys_length_le fun id hid => ?_) (h.ids_le m.token)
        rcases hold id hid with rfl | hmem
        · exact lookup_isSome.1 (Option.isSome_iff_exists.2 ⟨own, hfound⟩)
        · exact hmem
      · have hroom := upsert_room hup hnew
        have hlen := keys_length_insert (r.bucket m.token) m.id own
        have herase := keys_length_erase_le (r.bucket m.token) m.id
        have hle : b.keys.length ≤ ((r.bucket m.token).insert m.id own).keys.length :=
          keys_length_le fun id hid => (mem_insert _).2 (hold id hid)
        omega
    · rw [(hagree htok).waiting] at hb
      exact h.ids (lookup_of_trimmed hb)
  · intro tok id ref hh
    by_cases href : ref = own
    · rw [href]
      exact hown
    · rw [hu.heap_ne href]
      rcases hu.holds hh with ⟨-, -, heq⟩ | htrim
      · exact absurd heq href
      · exact h.records (hshrink.holds htrim)

theorem Shaped.upsert (h : r.Shaped) (ttl now : ℤ) (src : UDPAddr) (evict order : List Bytes)
    (m : Message) : (r.upsert ttl now src evict order m).1.Shaped := by
  generalize hup : r.upsert ttl now src evict order m = res
  obtain ⟨r', _ | ⟨own, partner⟩⟩ := res
  · exact h.latchOnly (upsert_refused hup)
  · exact h.registered hup

theorem searchPartner_seen {heap : ℕ → HsPeer} {me : Bytes} (ids : List Bytes) {b : Bucket}
    (h : (searchPartner heap ttl now me ids b).2 = some ref) : now - (heap ref).seen ≤ ttl := by
  induction ids generalizing b with
  | nil => cases h
  | cons id ids ih =>
    unfold searchPartner at h
    split_ifs at h with hid
    · exact ih h
    · split at h
      · exact ih h
      · split_ifs at h with hold
        · exact ih h
        · obtain rfl := Option.some.inj h
          exact not_lt.1 hold

/-- **A partner** is another id of the token, seen within the lifetime. -/
theorem upsert_partner (h : r.upsert ttl now src evict order m = (r', some (own, some ref))) :
    ∃ id, id ≠ m.id ∧ r'.Holds m.token id ref ∧ now - (r'.heap ref).seen ≤ ttl := by
  obtain ⟨id, hid, hholds⟩ := (upsert_spec h).partner_holds rfl
  refine ⟨id, hid, hholds, ?_⟩
  unfold upsert at h
  split at h
  · cases h
  · obtain ⟨rfl, hfound⟩ := Prod.mk.inj h
    exact searchPartner_seen _ (Prod.mk.inj (Option.some.inj hfound)).2

/-- **What a registration displaces.** -/
theorem upsert_displaces (r : Registry) (ttl now : ℤ) (src : UDPAddr) (evict order : List Bytes)
    (m : Message) :
    ((m.token ∈ r.waiting ∨ r.waiting.keys.length < 4096) →
      ∀ t, t ≠ m.token → Agree r (r.upsert ttl now src evict order m).1 t) ∧
    (m.token ∉ r.waiting → 4096 ≤ r.waiting.keys.length →
      ∃ v, v ∈ r.waiting ∧ v ≠ m.token ∧ (r.upsert ttl now src evict order m).1.Gone v ∧
        ∀ t, t ≠ m.token → t ≠ v → Agree r (r.upsert ttl now src evict order m).1 t) := by
  obtain ⟨honly, -⟩ := upsert_onlyAt r ttl now src evict order m
  rcases trimmed_cases r evict m.token with ⟨heq, hroom⟩ | ⟨v, heq, hv, hmem, hfull⟩ <;>
    rw [heq] at honly
  · refine ⟨fun _ t ht => honly.agree ht, fun hmem (hfull : maxTokens ≤ _) => ?_⟩
    exact (hroom.elim hmem (not_lt.2 hfull)).elim
  · have hne : v ≠ m.token := fun h => hmem (h ▸ hv)
    have hgone := dropToken_gone r v
    refine ⟨fun hroom => (hroom.elim hmem (not_lt.2 hfull)).elim, fun _ _ => ⟨v, hv, hne, ?_, ?_⟩⟩
    · exact ⟨fun h => hgone.1 ((honly.agree hne).mem_waiting.1 h),
        fun h => hgone.2 ((honly.agree hne).marked.1 h)⟩
    · exact fun t ht htv => (dropToken_agree htv).trans (honly.agree ht)

end Upsert

/-! ### Virtual addresses -/

variable {cr : Crypto}

/-- Every record in use has the virtual address its key derives. -/
def VipsDerived (cr : Crypto) (r : Registry) : Prop :=
  ∀ tok id ref, r.Holds tok id ref → VipDerived cr (r.heap ref).pubkey (r.heap ref).virtualIP

theorem VipsDerived.shrink (h : r.VipsDerived cr) (hs : Shrinks r r') : r'.VipsDerived cr :=
  Records.shrink (P := fun p => VipDerived cr p.pubkey p.virtualIP) h hs

/-! ### Sequences of operations -/

/-- An operation on the registry, with its clock reading and the iteration orders of its loops. -/
inductive Op where
  | upsert (now : ℤ) (src : UDPAddr) (evict order : List Bytes) (m : Message)
  | reap (now : ℤ)
  | evict (order : List Bytes)

/-- The registry after an operation. -/
def apply (ttl : ℤ) (r : Registry) : Op → Registry
  | .upsert now src evict order m => (r.upsert ttl now src evict order m).1
  | .reap now => r.reap ttl now
  | .evict order => (r.evictStalest order).getD r

/-- A registration of the sequence comes through `deriveVIP` with a key. -/
def Op.Derived (cr : Crypto) : Op → Prop
  | .upsert _ _ _ _ m => ThroughDeriveVIP cr m
  | _ => True

theorem evict_cases (r : Registry) (order : List Bytes) :
    (r.evictStalest order).getD r = r ∨ ∃ v, (r.evictStalest order).getD r = r.dropToken v := by
  cases hev : r.evictStalest order with
  | none => exact Or.inl rfl
  | some r' =>
    obtain ⟨v, -, rfl⟩ := evictStalest_cases hev
    exact Or.inr ⟨v, rfl⟩

theorem Shaped.apply (ttl : ℤ) (h : r.Shaped) (op : Op) : (r.apply ttl op).Shaped := by
  cases op with
  | upsert now src evict order m => exact h.upsert ttl now src evict order m
  | reap now => exact h.reap ttl now
  | evict order =>
    show ((r.evictStalest order).getD r).Shaped
    rcases r.evict_cases order with heq | ⟨v, heq⟩ <;> rw [heq]
    · exact h
    · exact h.dropToken v

theorem VipsDerived.apply (ttl : ℤ) (h : r.VipsDerived cr) {op : Op} (hop : op.Derived cr) :
    (r.apply ttl op).VipsDerived cr := by
  cases op with
  | upsert now src evict order m =>
    exact Records.upsert (P := fun p => VipDerived cr p.pubkey p.virtualIP) h
      (vipDerived_stored hop src now _)
  | reap now => exact h.shrink (reap_shrinks r ttl now)
  | evict order =>
    show ((r.evictStalest order).getD r).VipsDerived cr
    rcases r.evict_cases order with heq | ⟨v, heq⟩ <;> rw [heq]
    · exact h
    · exact h.shrink (dropToken_shrinks r v)

/-- The registry after a sequence of operations. -/
def runOps (ttl : ℤ) (ops : List Op) : Registry :=
  Machine.run (Registry.apply ttl) Registry.empty ops

theorem shaped_run (ttl : ℤ) (ops : List Op) : (runOps ttl ops).Shaped :=
  Machine.invariant_run (fun _ op h => h.apply ttl op) shaped_empty ops

theorem vipsDerived_run (cr : Crypto) (ttl : ℤ) (ops : List Op)
    (hops : ∀ op ∈ ops, op.Derived cr) : (runOps ttl ops).VipsDerived cr := by
  induction ops using reverseRecOn with
  | nil => exact nofun
  | append_singleton ops op ih =>
    rw [runOps, Machine.run_concat]
    exact (ih fun o ho => hops o (mem_append_left _ ho)).apply ttl (hops op (by simp))

/-- **The shape of the registry** after every sequence of registrations, passes of the reaper and
evictions; and, from any registry, what one registration or eviction may do. -/
theorem registry_shape (cr : Crypto) (ttl : ℤ) :
    (∀ ops, (runOps ttl ops).Shaped ∧
      ((∀ op ∈ ops, op.Derived cr) → (runOps ttl ops).VipsDerived cr)) ∧
    ∀ r : Registry,
      (∀ now src evict order m r' own ref,
        r.upsert ttl now src evict order m = (r', some (own, some ref)) →
          ∃ id, id ≠ m.id ∧ r'.Holds m.token id ref ∧ now - (r'.heap ref).seen ≤ ttl) ∧
      (∀ now src evict order m r', r.upsert ttl now src evict order m = (r', none) →
        r'.waiting = r.waiting ∧ r'.heap = r.heap) ∧
      (∀ order r', r.evictStalest order = some r' → ∃ v, Evicts r r' v) ∧
      ∀ now src evict order m,
        ((m.token ∈ r.waiting ∨ r.waiting.keys.length < 4096) →
          ∀ t, t ≠ m.token → Agree r (r.upsert ttl now src evict order m).1 t) ∧
        (m.token ∉ r.waiting → 4096 ≤ r.waiting.keys.length →
          ∃ v, v ∈ r.waiting ∧ v ≠ m.token ∧ (r.upsert ttl now src evict order m).1.Gone v ∧
            ∀ t, t ≠ m.token → t ≠ v → Agree r (r.upsert ttl now src evict order m).1 t) := by
  refine ⟨fun ops => ⟨shaped_run ttl ops, vipsDerived_run cr ttl ops⟩, fun r => ⟨?_, ?_, ?_, ?_⟩⟩
  · intro now src evict order m r' own ref hup
    exact upsert_partner hup
  · intro now src evict order m r' hup
    exact ⟨(upsert_refused hup).waiting, (upsert_refused hup).heap⟩
  · intro order r' hev
    obtain ⟨v, hv, rfl⟩ := evictStalest_cases hev
    exact ⟨v, dropToken_evicts hv⟩
  · exact fun now src evict order m => upsert_displaces r ttl now src evict order m

/-- A registration of the sample's key 2 as `idA`, and after it a keyless one under the same id that
claims an address of its own. -/
def keylessTakeover : List Op :=
  [.upsert 100000000000 (Sample.home 2) [] [] (Sample.accepted 2 (lit "idA") 100 []),
    .upsert 101000000000 (Sample.home 9) [] []
      { token := lit "token", id := lit "idA", pubkey := [], virtualIP := lit "100.64.6.6" }]

/-- Both registrations are results of `deriveVIP`, and the record has the key of the first with the
address the second claims. -/
theorem registry_shape_keyless :
    deriveVIP Sample.crypto (Sample.registration 2 (lit "idA") 100 []) =
      some (Sample.accepted 2 (lit "idA") 100 []) ∧
    deriveVIP Sample.crypto
        { token := lit "token", id := lit "idA", pubkey := [], virtualIP := lit "100.64.6.6" } =
      some { token := lit "token", id := lit "idA", pubkey := [],
             virtualIP := lit "100.64.6.6" } ∧
    ∃ ref, (runOps 10000000000 keylessTakeover).Holds (lit "token") (lit "idA") ref ∧
      ((runOps 10000000000 keylessTakeover).heap ref).pubkey = Sample.key 2 ∧
      ((runOps 10000000000 keylessTakeover).heap ref).virtualIP = lit "100.64.6.6" ∧
      ¬ VipDerived Sample.crypto ((runOps 10000000000 keylessTakeover).heap ref).pubkey
        ((runOps 10000000000 keylessTakeover).heap ref).virtualIP := by
  have hkey : ((runOps 10000000000 keylessTakeover).heap 0).pubkey = Sample.key 2 := by
    decide +kernel
  have hvip : ((runOps 10000000000 keylessTakeover).heap 0).virtualIP = lit "100.64.6.6" := by
    decide +kernel
  have hholds : ((runOps 10000000000 keylessTakeover).bucket (lit "token")).lookup (lit "idA") =
      some 0 := by decide +kernel
  refine ⟨by decide +kernel, by decide +kernel, 0, hholds, hkey, hvip, ?_⟩
  rintro ⟨pub, hpub, hderived⟩
  have hdec : decodePubKey (Sample.key 2) = some (replicate 32 2) := by decide +kernel
  obtain rfl := Option.some.inj (hdec.symm.trans hpub)
  exact absurd hderived (by decide +kernel)

end BuddyNet.Handshake.Registry
