import BuddyNet.Handshake.Steps

/-!
# The side tables of the registry

Besides the buckets the registry keeps four maps by token: the session ids, the paired latch, the
seen keys and the intruder latch. `evictStalestLocked` and `reap` release a token from all of them.

* `OnlyAt`: a critical section for one token leaves the maps alone at every other token and keeps
  its own bucket. `upsert` behind its eviction is of this kind, and so are `notePaired` and
  `sidFor`;
* `notePaired` and `sidFor` are sections of their own and do not look at the buckets. When the
  token was evicted or reaped in between they leave an entry that no later pass of the reaper
  removes. A run in which both find the bucket of their token keeps the tables tidy.
-/

namespace BuddyNet.Handshake.Registry

variable {r r' r'' : Registry} {tok t : Bytes} {m : Message}

/-- Some side table has an entry for the token. -/
def Marked (r : Registry) (tok : Bytes) : Prop :=
  tok ∈ r.sids ∨ tok ∈ r.pairedLogged ∨ tok ∈ r.seenPKs ∨ tok ∈ r.intruderWarned

/-- Every token of a side table has a bucket. -/
def Tidy (r : Registry) : Prop := ∀ tok, r.Marked tok → tok ∈ r.waiting

theorem tidy_empty : Registry.empty.Tidy := by
  rintro tok (h | h | h | h) <;> exact absurd h (AList.notMem_empty tok)

/-! ### Removing a token -/

theorem marked_dropToken : (r.dropToken tok).Marked t ↔ t ≠ tok ∧ r.Marked t := by
  simp only [Marked, dropToken, AList.mem_erase]
  tauto

theorem Tidy.dropToken (h : r.Tidy) (tok : Bytes) : (r.dropToken tok).Tidy := by
  intro t ht
  obtain ⟨hne, hmark⟩ := marked_dropToken.1 ht
  exact AList.mem_erase.2 ⟨hne, h t hmark⟩

theorem Tidy.trimmed (h : r.Tidy) (evict : List Bytes) (tok : Bytes) :
    (r.trimmed evict tok).Tidy := by
  unfold Registry.trimmed
  split
  · exact h
  · exact h.dropToken _

theorem Tidy.reapBucket (ttl now : ℤ) (h : r.Tidy) (tok : Bytes) :
    (reapBucket ttl now r tok).Tidy := by
  unfold Registry.reapBucket
  split
  · exact h
  · dsimp only
    split_ifs
    · exact h.dropToken tok
    · exact fun t ht => (AList.mem_insert _).2 (Or.inr (h t ht))

theorem Tidy.reap (ttl now : ℤ) (h : r.Tidy) : (r.reap ttl now).Tidy := by
  unfold Registry.reap
  induction r.waiting.keys generalizing r with
  | nil => exact h
  | cons tok toks ih => exact ih (h.reapBucket ttl now tok)

/-! ### The victim of a full table -/

theorem stalest_eq_oldest (r : Registry) (sample : List Bytes) :
    r.stalest sample = Go.oldest (fun tok => r.bucketSeen (r.bucket tok)) sample := by
  unfold stalest Go.oldest
  congr 2
  funext best tok
  cases best <;> rfl

theorem evictStalest_cases {order : List Bytes} (h : r.evictStalest order = some r') :
    ∃ v, v ∈ r.waiting ∧ r' = r.dropToken v := by
  obtain ⟨v, hv, rfl⟩ := Option.map_eq_some_iff.1 h
  rw [stalest_eq_oldest] at hv
  have hmem := Go.mem_visitOrder.1 (List.mem_of_mem_take (Go.oldest_mem hv))
  exact ⟨v, AList.mem_keys.2 hmem, rfl⟩

theorem exists_victim (evict : List Bytes) (hmem : tok ∉ r.waiting)
    (hfull : maxTokens ≤ r.waiting.keys.length) :
    ∃ v, v ∈ r.waiting ∧ r.victim evict tok = some v := by
  rw [victim, if_neg (not_or.2 ⟨hmem, not_lt.2 hfull⟩), stalest_eq_oldest]
  have hne : (Go.visitOrder evict r.waiting.keys).take evictSample ≠ [] := by
    obtain ⟨k, hk⟩ := List.exists_mem_of_length_pos
      (l := r.waiting.keys) (lt_of_lt_of_le (by decide) hfull)
    have hmem : k ∈ Go.visitOrder evict r.waiting.keys := Go.mem_visitOrder.2 hk
    have hvisit := List.length_pos_of_mem hmem
    rw [Ne, List.take_eq_nil_iff, not_or]
    exact ⟨by decide, List.ne_nil_of_length_pos hvisit⟩
  have hold : ∃ v, Go.oldest (fun tok => r.bucketSeen (r.bucket tok))
      ((Go.visitOrder evict r.waiting.keys).take evictSample) = some v := Go.exists_oldest hne
  obtain ⟨v, hv⟩ := hold
  have hmem := Go.mem_visitOrder.1 (List.mem_of_mem_take (Go.oldest_mem hv))
  exact ⟨v, AList.mem_keys.2 hmem, hv⟩

/-- What a registration displaces: nothing while its token is known or there is room, and exactly
one other token when a new one comes to a full table. -/
theorem trimmed_cases (r : Registry) (evict : List Bytes) (tok : Bytes) :
    (r.trimmed evict tok = r ∧ (tok ∈ r.waiting ∨ r.waiting.keys.length < maxTokens)) ∨
    ∃ v, r.trimmed evict tok = r.dropToken v ∧ v ∈ r.waiting ∧ tok ∉ r.waiting ∧
      maxTokens ≤ r.waiting.keys.length := by
  by_cases hmem : tok ∈ r.waiting
  · exact Or.inl ⟨trimmed_of_mem hmem, Or.inl hmem⟩
  by_cases hfull : maxTokens ≤ r.waiting.keys.length
  · obtain ⟨v, hv, hvictim⟩ := exists_victim evict hmem hfull
    exact Or.inr ⟨v, by rw [trimmed, hvictim], hv, hmem, hfull⟩
  · have hnone : r.victim evict tok = none := by rw [victim, if_pos (Or.inr (not_le.1 hfull))]
    exact Or.inl ⟨by rw [trimmed, hnone], Or.inr (not_le.1 hfull)⟩

theorem exists_openBucket (r : Registry) (evict : List Bytes) (tok : Bytes) :
    ∃ r', r.openBucket evict tok = some r' := by
  unfold openBucket
  split_ifs with hmem hfull
  · exact ⟨r, rfl⟩
  · obtain ⟨v, -, hv⟩ := exists_victim evict hmem hfull
    rw [victim, if_neg (not_or.2 ⟨hmem, not_lt.2 hfull⟩)] at hv
    exact ⟨_, by rw [evictStalest, hv]; rfl⟩
  · exact ⟨_, rfl⟩

/-! ### Sections for one token -/

/-- The five maps agree about a token. -/
structure Agree (r r' : Registry) (t : Bytes) : Prop where
  waiting : r'.waiting.lookup t = r.waiting.lookup t
  seenPKs : r'.seenPKs.lookup t = r.seenPKs.lookup t
  intruderWarned : r'.intruderWarned.lookup t = r.intruderWarned.lookup t
  pairedLogged : r'.pairedLogged.lookup t = r.pairedLogged.lookup t
  sids : r'.sids.lookup t = r.sids.lookup t

theorem Agree.refl (r : Registry) (t : Bytes) : Agree r r t := ⟨rfl, rfl, rfl, rfl, rfl⟩

theorem Agree.trans (h : Agree r r' t) (h' : Agree r' r'' t) : Agree r r'' t :=
  ⟨h'.waiting.trans h.waiting, h'.seenPKs.trans h.seenPKs,
    h'.intruderWarned.trans h.intruderWarned, h'.pairedLogged.trans h.pairedLogged,
    h'.sids.trans h.sids⟩

theorem mem_congr {V : Type} {a b : AList fun _ : Bytes => V} (h : a.lookup t = b.lookup t) :
    t ∈ a ↔ t ∈ b := by
  rw [← AList.lookup_isSome, ← AList.lookup_isSome, h]

theorem Agree.mem_waiting (h : Agree r r' t) : t ∈ r'.waiting ↔ t ∈ r.waiting := mem_congr h.waiting

theorem Agree.marked (h : Agree r r' t) : r'.Marked t ↔ r.Marked t := by
  rw [Marked, Marked, mem_congr h.sids, mem_congr h.pairedLogged, mem_congr h.seenPKs,
    mem_congr h.intruderWarned]

/-- A section for the token `tok`: nothing else changes in the maps, and its bucket stays. -/
structure OnlyAt (tok : Bytes) (r r' : Registry) : Prop where
  agree : ∀ {t}, t ≠ tok → Agree r r' t
  stays : tok ∈ r.waiting → tok ∈ r'.waiting

theorem OnlyAt.refl (tok : Bytes) (r : Registry) : OnlyAt tok r r :=
  ⟨fun _ => .refl r _, fun h => h⟩

theorem OnlyAt.trans (h : OnlyAt tok r r') (h' : OnlyAt tok r' r'') : OnlyAt tok r r'' :=
  ⟨fun ht => (h.agree ht).trans (h'.agree ht), fun hw => h'.stays (h.stays hw)⟩

/-- **A section for a token with a bucket keeps the tables tidy.** -/
theorem Tidy.onlyAt (h : r.Tidy) (ho : OnlyAt tok r r') (htok : tok ∈ r'.waiting) : r'.Tidy := by
  intro t ht
  by_cases hne : t = tok
  · exact hne ▸ htok
  · exact (ho.agree hne).mem_waiting.2 (h t ((ho.agree hne).marked.1 ht))

section

variable (r : Registry)

section

variable (tok : Bytes)

theorem warnIntruder_onlyAt : OnlyAt tok r (r.warnIntruder tok) := by
  unfold warnIntruder
  split_ifs
  · exact .refl tok r
  · exact ⟨fun ht => ⟨rfl, rfl, AList.lookup_insert_ne ht, rfl, rfl⟩, fun h => h⟩

theorem notePaired_onlyAt : OnlyAt tok r (r.notePaired tok).1 := by
  unfold notePaired
  split_ifs
  · exact .refl tok r
  · exact ⟨fun ht => ⟨rfl, rfl, rfl, AList.lookup_insert_ne ht, rfl⟩, fun h => h⟩

theorem insertSid_onlyAt (tok sid : Bytes) :
    OnlyAt tok r { r with sids := r.sids.insert tok sid } :=
  ⟨fun ht => ⟨rfl, rfl, rfl, rfl, AList.lookup_insert_ne ht⟩, fun h => h⟩

theorem insertKeys_onlyAt (known : List Bytes) :
    OnlyAt tok r { r with seenPKs := r.seenPKs.insert tok known } :=
  ⟨fun ht => ⟨rfl, AList.lookup_insert_ne ht, rfl, rfl, rfl⟩, fun h => h⟩

theorem insertBucket_onlyAt (b : Bucket) :
    OnlyAt tok r { r with waiting := r.waiting.insert tok b } :=
  ⟨fun ht => ⟨AList.lookup_insert_ne ht, rfl, rfl, rfl, rfl⟩,
    fun h => (AList.mem_insert _).2 (Or.inr h)⟩

end

theorem findSelf_onlyAt (m : Message) : OnlyAt m.token r (r.findSelf m).1 := by
  unfold findSelf
  split
  · exact .refl _ r
  · split_ifs
    · exact warnIntruder_onlyAt r m.token
    · exact ⟨fun ht => ⟨AList.lookup_insert_ne ht, rfl, rfl, rfl, rfl⟩,
        fun h => (AList.mem_insert _).2 (Or.inr h)⟩

theorem noteKey_onlyAt (m : Message) : OnlyAt m.token r (r.noteKey m) := by
  unfold noteKey
  dsimp only
  split_ifs
  · exact .refl _ r
  · exact (warnIntruder_onlyAt r m.token).trans (insertKeys_onlyAt _ _ _)
  · exact insertKeys_onlyAt r _ _
  · exact insertKeys_onlyAt r _ _

theorem finishUpsert_onlyAt (ttl now : ℤ) (order : List Bytes) (m : Message) :
    OnlyAt m.token r (r.finishUpsert ttl now order m).1 := by
  refine ⟨fun ht => ⟨AList.lookup_insert_ne ht, rfl, rfl, ?_, rfl⟩,
    fun h => (AList.mem_insert _).2 (Or.inr h)⟩
  unfold finishUpsert
  dsimp only
  split_ifs
  · exact AList.lookup_erase_ne ht
  · rfl

end

theorem openBucket_onlyAt {evict : List Bytes} (h : r.openBucket evict tok = some r') :
    OnlyAt tok (r.trimmed evict tok) r' ∧ tok ∈ r'.waiting := by
  rcases openBucket_cases h with ⟨hmem, rfl⟩ | ⟨-, rfl⟩
  · rw [trimmed_of_mem hmem]
    exact ⟨.refl _ _, hmem⟩
  · exact ⟨insertBucket_onlyAt _ _ _, (AList.mem_insert _).2 (Or.inl rfl)⟩

theorem beginUpsert_onlyAt (r : Registry) (evict : List Bytes) (m : Message) :
    OnlyAt m.token (r.trimmed evict m.token) (r.beginUpsert evict m).1 ∧
      m.token ∈ (r.beginUpsert evict m).1.waiting := by
  obtain ⟨r₁, hopen⟩ := exists_openBucket r evict m.token
  obtain ⟨honly, htok⟩ := openBucket_onlyAt hopen
  have hfind := findSelf_onlyAt r₁ m
  unfold beginUpsert
  rw [hopen]
  dsimp only
  split
  · next r₂ heq =>
    rw [heq] at hfind
    exact ⟨honly.trans hfind, hfind.stays htok⟩
  · next r₂ own heq =>
    rw [heq] at hfind
    have hkey := noteKey_onlyAt r₂ m
    exact ⟨(honly.trans hfind).trans hkey, hkey.stays (hfind.stays htok)⟩

/-- **`upsert` evicts, and from then on it is a section for its token**, which has a bucket at the
end whether the registration is refused or not. -/
theorem upsert_onlyAt (r : Registry) (ttl now : ℤ) (src : UDPAddr) (evict order : List Bytes)
    (m : Message) :
    OnlyAt m.token (r.trimmed evict m.token) (r.upsert ttl now src evict order m).1 ∧
      m.token ∈ (r.upsert ttl now src evict order m).1.waiting := by
  obtain ⟨hbegin, htok⟩ := beginUpsert_onlyAt r evict m
  unfold upsert
  split
  · next r₁ heq =>
    rw [heq] at hbegin htok
    exact ⟨hbegin, htok⟩
  · next r₁ own heq =>
    rw [heq] at hbegin htok
    have hwrite : OnlyAt m.token r₁ (r₁.write own (fieldWrites m src now)) :=
      ⟨fun _ => ⟨rfl, rfl, rfl, rfl, rfl⟩, fun h => h⟩
    have hfinish := finishUpsert_onlyAt (r₁.write own (fieldWrites m src now)) ttl now order m
    exact ⟨(hbegin.trans hwrite).trans hfinish, hfinish.stays htok⟩

theorem Tidy.upsert (h : r.Tidy) (ttl now : ℤ) (src : UDPAddr) (evict order : List Bytes)
    (m : Message) : (r.upsert ttl now src evict order m).1.Tidy := by
  obtain ⟨honly, htok⟩ := upsert_onlyAt r ttl now src evict order m
  exact (h.trimmed evict m.token).onlyAt honly htok

/-! ### Sizes -/

/-- No side table has more entries than there are buckets. -/
structure WithinBuckets (r : Registry) : Prop where
  sids : r.sids.keys.length ≤ r.waiting.keys.length
  pairedLogged : r.pairedLogged.keys.length ≤ r.waiting.keys.length
  seenPKs : r.seenPKs.keys.length ≤ r.waiting.keys.length
  intruderWarned : r.intruderWarned.keys.length ≤ r.waiting.keys.length

theorem Tidy.withinBuckets (h : r.Tidy) : r.WithinBuckets where
  sids := Go.keys_length_le fun k hk => h k (Or.inl hk)
  pairedLogged := Go.keys_length_le fun k hk => h k (Or.inr (Or.inl hk))
  seenPKs := Go.keys_length_le fun k hk => h k (Or.inr (Or.inr (Or.inl hk)))
  intruderWarned := Go.keys_length_le fun k hk => h k (Or.inr (Or.inr (Or.inr hk)))

end BuddyNet.Handshake.Registry

namespace BuddyNet.Handshake

open Registry Machine AList

variable {cr : Crypto} {P : Params} {ids : ℕ → Bytes}

/-! ### Runs -/

/-- A request that comes to `notePaired`, or to `issueTicket` with its `sidFor`, finds the bucket of
its token: the token was not evicted or reaped since the pairing, or was registered again. -/
def BucketThere (s : State) : Event → Prop
  | .note req =>
    match s.requests.lookup req with
    | some (.paired m _) => m.token ∈ s.reg.waiting
    | _ => True
  | .issue req _ =>
    match s.requests.lookup req with
    | some (.rendered m _ _) => m.token ∈ s.reg.waiting
    | _ => True
  | _ => True

instance (s : State) (e : Event) : Decidable (BucketThere s e) := by
  unfold BucketThere
  split
  · split <;> infer_instance
  · split <;> infer_instance
  · infer_instance

theorem IssueEffect.onlyAt {r r' : Registry} {drawn drawn' : ℕ} {m : Message} {partner : Peer}
    {out : Option Issued} (h : IssueEffect ids r drawn m partner (r', drawn', out)) :
    OnlyAt m.token r r' := by
  cases h with
  | refused hd => exact .refl _ _
  | reused hd hsid hne ht => exact .refl _ _
  | minted hd hsid hne ht => exact insertSid_onlyAt _ _ _

/-- **One step** of a request that finds its bucket keeps the tables tidy. -/
theorem tidy_step (s : State) (e : Event) (h : s.reg.Tidy) (hG : BucketThere s e) :
    (step cr P ids s e).reg.Tidy := by
  cases e with
  | register req now src m evict order =>
    unfold step
    dsimp only
    split_ifs
    · exact h
    · split
      · exact h
      · next m' hacc =>
        have htidy := h.upsert P.ttl now src evict order m'
        split <;> exact htidy
  | note req =>
    unfold step
    unfold BucketThere at hG
    dsimp only at hG ⊢
    split
    · next m partner hreq =>
      rw [hreq] at hG
      have honly := notePaired_onlyAt s.reg m.token
      exact h.onlyAt honly (honly.stays hG)
    · exact h
  | render req =>
    unfold step
    dsimp only
    split <;> exact h
  | issue req now =>
    unfold step
    unfold BucketThere at hG
    dsimp only at hG ⊢
    split
    · next m partner entry hreq =>
      rw [hreq] at hG
      have honly := (issueTicket_effect cr P ids s.reg s.drawn now m entry).onlyAt
      exact h.onlyAt honly (honly.stays hG)
    · exact h
  | reap now => exact h.reap P.ttl now

/-- **The side tables do not outlive their tokens**, and take no more room than the buckets, in
every state of a run whose requests find the bucket of their token. -/
theorem side_tables_released (cr : Crypto) (P : Params) (ids : ℕ → Bytes) (es : List Event)
    (hG : Along (step cr P ids) BucketThere State.new es) :
    Throughout (step cr P ids) (fun s => s.reg.Tidy ∧ s.reg.WithinBuckets)
      State.new es := by
  intro pre hpre
  have htidy : (run (step cr P ids) State.new pre).reg.Tidy :=
    invariant_along (P := fun s : State => s.reg.Tidy) tidy_step tidy_empty
      (hG.of_prefix hpre)
  exact ⟨htidy, htidy.withinBuckets⟩

namespace Orphan

open Sample

/-- Two keys meet, and the second request goes on at once. -/
def prompt : List Event :=
  register 0 2 (lit "idA") 100 [] :: register 1 3 (lit "idB") 101 [] :: answer 1 101

/-- The same two keys, but the second request is held up behind its pairing until both
registrations have expired and a pass of the reaper has removed the token. Ten minutes later the
reaper passes again. -/
def heldUp : List Event :=
  [register 0 2 (lit "idA") 100 [], register 1 3 (lit "idB") 101 [], .reap (112 * 1000000000)] ++
    answer 1 112 ++ [.reap (712 * 1000000000)]

end Orphan

open Sample Orphan in
/-- After the reaper took the token, the request that was held up enters it in the paired latch and
gives it a session id, and no pass of the reaper removes them: the token has no bucket. -/
theorem side_tables_released_fails :
    lit "token" ∈ (runFrom crypto params drawnID heldUp).reg.sids ∧
    lit "token" ∈ (runFrom crypto params drawnID heldUp).reg.pairedLogged ∧
    (runFrom crypto params drawnID heldUp).reg.waiting.keys = [] ∧
    ¬ Throughout (step crypto params drawnID) (fun s => s.reg.Tidy) State.new heldUp := by
  have hsid : lit "token" ∈ (runFrom crypto params drawnID heldUp).reg.sids := by decide +kernel
  have hnone : (runFrom crypto params drawnID heldUp).reg.waiting.keys = [] := by decide +kernel
  refine ⟨hsid, by decide +kernel, hnone, fun hall => ?_⟩
  have hmem := hall heldUp List.prefix_rfl (lit "token") (Or.inl hsid)
  exact absurd (hnone ▸ mem_keys.1 hmem) (by simp)

open Sample Orphan in
/-- The prompt request finds its bucket, and its token is in the tables and has a bucket. -/
theorem side_tables_released_prompt :
    Along (step crypto params drawnID) BucketThere State.new prompt ∧
    (runFrom crypto params drawnID prompt).reg.sids.keys = [lit "token"] ∧
    (runFrom crypto params drawnID prompt).reg.Tidy := by
  have hG : Along (step crypto params drawnID) BucketThere State.new prompt := by
    decide +kernel
  refine ⟨hG, by decide +kernel, ?_⟩
  exact (side_tables_released crypto params drawnID prompt hG prompt List.prefix_rfl).1

end BuddyNet.Handshake
