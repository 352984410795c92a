import BuddyNet.Library.Directory
import BuddyNet.Relay.Legs

/-!
# Isolation of sessions

The relay's address table is a directory in the sense of `Directory`: its keys are address texts,
its records are the forwarding records, and a record lives under the address of its leg. Claiming
a leg is `bind`, moving one is `move`, a pass of the reaper is `dropAll` (`dir_claimLeg`,
`dir_migrateLeg`, `dir_reap`). On top of it `WellFormed` ties the records to the sessions:

* records are not shared between legs and are below the allocation mark;
* the address table is sound;
* the pointer of a leg is the current address of the other leg of its session, and nothing while
  there is no other leg (`Linked`).

The invariant holds in every reachable state (`wellFormed_run`), and `forward` then reaches nobody
but the other leg of a session the sender is in.
-/

namespace BuddyNet.Relay

open List AList

/-! ### The directory of legs -/

/-- The address table and the legs it should find. -/
def Table.dir (t : Table) : Directory Bytes ℕ where
  table := fun k => t.byAddr.lookup k
  live := {x | ∃ tok l, t.Live tok l ∧ x = (l.fwd, l.addr.string)}

/-- The records a pass of the reaper removes from a session. -/
def reapedAt (P : Params) (t : Table) (now : ℤ) (tok : Bytes) : Set (ℕ × Bytes) :=
  {x | ∃ l, Reaped P t now tok l ∧ x = (l.fwd, l.addr.string)}

/-- No two live legs share a forwarding record. -/
def Distinct (t : Table) : Prop :=
  ∀ {tok l tok' l'}, t.Live tok l → t.Live tok' l' → l.fwd = l'.fwd → tok = tok' ∧ l = l'

variable {P : Params} {t : Table} {tok : Bytes} {ses : Session} {l held : Leg} {now : ℤ}
  {src : UDPAddr} {acct name epk : Bytes}

theorem dir_claimLeg
    (hses : t.sessions.lookup tok = some ses ∨ t.sessions.lookup tok = none ∧ ses.legs = []) :
    (claimLeg t now tok ses src acct name epk).dir = t.dir.bind t.nextFwd src.string := by
  refine Directory.ext ?_ ?_
  · funext k
    by_cases hk : k = src.string
    · subst hk
      rw [Directory.bind_table_self]
      exact lookup_insert t.byAddr
    · rw [Directory.bind_table_ne hk]
      exact lookup_insert_ne hk
  · ext x
    simp only [Table.dir, Directory.bind_live, Set.mem_ofPred_eq, Set.mem_insert_iff,
      live_claimLeg hses]
    constructor
    · rintro ⟨tok', l, hl | ⟨rfl, rfl⟩, rfl⟩
      · exact Or.inr ⟨tok', l, hl, rfl⟩
      · exact Or.inl rfl
    · rintro (rfl | ⟨tok', l, hl, rfl⟩)
      · exact ⟨tok, newLeg t src acct name epk, Or.inr ⟨rfl, rfl⟩, rfl⟩
      · exact ⟨tok', l, Or.inl hl, rfl⟩

theorem dir_migrateLeg (hd : Distinct t) (hses : t.sessions.lookup tok = some ses)
    (hheld : held ∈ ses.legs) :
    (migrateLeg t now tok ses held src acct).dir =
      t.dir.move held.fwd held.addr.string src.string := by
  have hlive : t.Live tok held := ⟨ses, hses, hheld⟩
  refine Directory.ext ?_ ?_
  · funext k
    by_cases hk : k = src.string
    · subst hk
      rw [Directory.move, Directory.bind_table_self]
      exact lookup_insert _
    · rw [Directory.move, Directory.bind_table_ne hk]
      refine (lookup_insert_ne hk).trans ?_
      by_cases hold : k = held.addr.string
      · subst hold
        rw [Directory.dropAll_table_mem (Set.mem_singleton _)]
        exact lookup_erase _ _
      · have hdrop : ∀ r, (r, k) ∉ ({(held.fwd, held.addr.string)} : Set (ℕ × Bytes)) :=
          fun r hr => hold (Prod.mk.inj hr).2
        rw [Directory.dropAll_table_not_mem hdrop]
        exact lookup_erase_ne hold
  · ext x
    simp only [Directory.move, Directory.bind_live, Directory.dropAll_live, Set.mem_insert_iff,
      Set.mem_sdiff, Set.mem_singleton_iff, Table.dir, Set.mem_ofPred_eq, live_migrateLeg hses
        hheld]
    constructor
    · rintro ⟨tok', l, ⟨rfl, rfl⟩ | ⟨hl, hne⟩, rfl⟩
      · exact Or.inl rfl
      · refine Or.inr ⟨⟨tok', l, hl, rfl⟩, fun heq => hne ?_⟩
        obtain ⟨hf, -⟩ := Prod.mk.inj heq
        exact ⟨(hd hl hlive hf).1, hf⟩
    · rintro (rfl | ⟨⟨tok', l, hl, rfl⟩, hne⟩)
      · exact ⟨tok, held.movedTo src acct, Or.inl ⟨rfl, rfl⟩, rfl⟩
      · refine ⟨tok', l, Or.inr ⟨hl, fun hsame => hne ?_⟩, rfl⟩
        rw [(hd hl hlive hsame.2).2]

theorem Distinct.reapSession (hd : Distinct t) : Distinct (reapSession P now t tok) :=
  fun hl hl' hf => hd (live_reapSession.1 hl).1 (live_reapSession.1 hl').1 hf

theorem live_of_reaped (h : Reaped P t now tok l) : t.Live tok l := by
  obtain ⟨ses, hlook, hl⟩ := h
  exact ⟨ses, hlook, mem_legs_of_mem_reaped hl⟩

theorem dir_reapSession (hd : Distinct t) :
    (reapSession P now t tok).dir = t.dir.dropAll (reapedAt P t now tok) := by
  refine Directory.ext ?_ ?_
  · funext k
    cases h : t.sessions.lookup tok with
    | none =>
      rw [reapSession_of_none h, Directory.dropAll_table_not_mem]
      rintro r ⟨l, ⟨ses, hses, -⟩, -⟩
      rw [h] at hses
      cases hses
    | some ses =>
      refine (reapSession_byAddr h k).trans ?_
      split_ifs with hk
      · obtain ⟨l, hl, rfl⟩ := hk
        have hmem : (l.fwd, l.addr.string) ∈ reapedAt P t now tok := ⟨l, ⟨ses, h, hl⟩, rfl⟩
        rw [Directory.dropAll_table_mem hmem]
      · rw [Directory.dropAll_table_not_mem]
        · rfl
        · rintro r ⟨l, ⟨ses', hses', hl⟩, heq⟩
          rw [h] at hses'
          cases hses'
          exact hk ⟨l, hl, (Prod.mk.inj heq).2.symm⟩
  · ext x
    simp only [Table.dir, Directory.dropAll_live, Set.mem_sdiff, Set.mem_ofPred_eq,
      live_reapSession, reapedAt]
    constructor
    · rintro ⟨tok', l, ⟨hl, hr⟩, rfl⟩
      refine ⟨⟨tok', l, hl, rfl⟩, ?_⟩
      rintro ⟨l', hl', heq⟩
      obtain ⟨rfl, rfl⟩ := hd hl (live_of_reaped hl') (Prod.mk.inj heq).1
      exact hr ⟨rfl, hl'⟩
    · rintro ⟨⟨tok', l, hl, rfl⟩, hr⟩
      exact ⟨tok', l, ⟨hl, fun h => hr ⟨l, h.1 ▸ h.2, rfl⟩⟩, rfl⟩

theorem reapedAt_reapSession_of_ne {tok' : Bytes} (h : tok' ≠ tok) :
    reapedAt P (reapSession P now t tok) now tok' = reapedAt P t now tok' := by
  simp only [reapedAt, reaped_reapSession_of_ne h]

theorem reapedAt_reapSession_self : reapedAt P (reapSession P now t tok) now tok = ∅ := by
  ext x
  simp only [reapedAt, Set.mem_ofPred_eq, Set.mem_empty_iff_false, iff_false]
  rintro ⟨l, hl, -⟩
  exact not_reaped_reapSession_self hl

theorem dir_foldl_reapSession (toks : List Bytes) (hd : Distinct t) :
    (toks.foldl (reapSession P now) t).dir =
      t.dir.dropAll {x | ∃ tok ∈ toks, x ∈ reapedAt P t now tok} := by
  induction toks generalizing t with
  | nil =>
    simp [Directory.dropAll_empty]
  | cons a toks ih =>
    rw [foldl_cons, ih hd.reapSession, dir_reapSession hd, Directory.dropAll_dropAll]
    congr 1
    ext x
    simp only [Set.mem_union, Set.mem_ofPred_eq, mem_cons]
    constructor
    · rintro (hx | ⟨b, hb, hx⟩)
      · exact ⟨a, Or.inl rfl, hx⟩
      · by_cases hba : b = a
        · subst hba
          rw [reapedAt_reapSession_self] at hx
          exact absurd hx (Set.notMem_empty x)
        · rw [reapedAt_reapSession_of_ne hba] at hx
          exact ⟨b, Or.inr hb, hx⟩
    · rintro ⟨b, rfl | hb, hx⟩
      · exact Or.inl hx
      · by_cases hba : b = a
        · subst hba
          exact Or.inl hx
        · exact Or.inr ⟨b, hb, by rwa [reapedAt_reapSession_of_ne hba]⟩

theorem mem_sessions_keys (h : t.Live tok l) : tok ∈ t.sessions.keys := by
  obtain ⟨ses, hlook, -⟩ := h
  exact Go.mem_keys_of_lookup hlook

theorem dir_reap {order : List Bytes} (hd : Distinct t) :
    (reap P t now order).dir =
      t.dir.dropAll {x | ∃ tok l, Reaped P t now tok l ∧ x = (l.fwd, l.addr.string)} := by
  unfold reap
  rw [dir_foldl_reapSession _ hd]
  congr 1
  ext x
  simp only [Set.mem_ofPred_eq, Go.mem_visitOrder, reapedAt]
  constructor
  · rintro ⟨tok, -, l, hl, hx⟩
    exact ⟨tok, l, hl, hx⟩
  · rintro ⟨tok, l, hl, hx⟩
    exact ⟨tok, mem_sessions_keys (live_of_reaped hl), l, hl, hx⟩

/-! ### Partner pointers -/

/-- The pointers of the legs of one session: a lone leg has no partner, and each of two legs has
the address of the other. -/
def Linked (fwd : ℕ → Fwd) : List Leg → Prop
  | [a] => (fwd a.fwd).peer = none
  | [a, b] => a.fwd ≠ b.fwd ∧ (fwd a.fwd).peer = some b.addr ∧ (fwd b.fwd).peer = some a.addr
  | _ => False

variable {fwd fwd' : ℕ → Fwd} {legs : List Leg}

theorem Linked.cases (h : Linked fwd legs) :
    (∃ a, legs = [a] ∧ (fwd a.fwd).peer = none) ∨
    (∃ a b, legs = [a, b] ∧ a.fwd ≠ b.fwd ∧ (fwd a.fwd).peer = some b.addr ∧
      (fwd b.fwd).peer = some a.addr) := by
  rcases legs with _ | ⟨a, _ | ⟨b, _ | ⟨c, ls⟩⟩⟩
  · exact h.elim
  · exact Or.inl ⟨a, rfl, h⟩
  · exact Or.inr ⟨a, b, rfl, h⟩
  · exact h.elim

theorem Linked.length_le (h : Linked fwd legs) : legs.length ≤ 2 := by
  rcases h.cases with ⟨a, rfl, -⟩ | ⟨a, b, rfl, -⟩ <;> simp

/-- The pointers of the session's own records decide. -/
theorem Linked.congr (h : Linked fwd legs)
    (hp : ∀ l ∈ legs, (fwd' l.fwd).peer = (fwd l.fwd).peer) : Linked fwd' legs := by
  rcases h.cases with ⟨a, rfl, ha⟩ | ⟨a, b, rfl, hne, ha, hb⟩
  · exact (hp a (by simp)).trans ha
  · exact ⟨hne, (hp a (by simp)).trans ha, (hp b (by simp)).trans hb⟩

@[simp] theorem touch_peer (f g : ℕ) : (touch fwd f now g).peer = (fwd g).peer := by
  by_cases h : g = f
  · subst h; simp [touch]
  · simp [touch, Function.update_of_ne h]

theorem publish_of_not_mem {f : ℕ} (h : ∀ l ∈ legs, l.fwd ≠ f) : publish fwd legs f = fwd f := by
  rcases legs with _ | ⟨a, _ | ⟨b, _ | ⟨c, ls⟩⟩⟩
  · rfl
  · rfl
  · have ha : f ≠ a.fwd := (h a (by simp)).symm
    have hb : f ≠ b.fwd := (h b (by simp)).symm
    simp [publish, Function.update_of_ne ha, Function.update_of_ne hb]
  · rfl

/-- Publishing links a pair, whatever time is stored afterwards. -/
theorem linked_publish_pair {a b : Leg} (h : a.fwd ≠ b.fwd) (f : ℕ) :
    Linked (touch (publish fwd [a, b]) f now) [a, b] := by
  have hpub : Linked (publish fwd [a, b]) [a, b] := by
    refine ⟨h, ?_, ?_⟩
    · simp [publish, Function.update_of_ne h]
    · simp [publish]
  exact hpub.congr fun l _ => touch_peer f l.fwd

/-! ### The invariant -/

/-- What holds of the relay's table between any two events. -/
structure WellFormed (t : Table) : Prop where
  fresh : ∀ {tok l}, t.Live tok l → l.fwd < t.nextFwd
  distinct : Distinct t
  sound : t.dir.Sound
  linked : ∀ {tok ses}, t.sessions.lookup tok = some ses → Linked t.fwd ses.legs

theorem wellFormed_new (start : ℤ) : WellFormed (State.new start).toTable where
  fresh := by rintro tok l ⟨ses, hses, -⟩; cases hses
  distinct := by rintro tok l tok' l' ⟨ses, hses, -⟩; cases hses
  sound := by intro k f hk; cases hk
  linked := by intro tok ses hses; cases hses

/-- Storing a time changes no pointer. -/
theorem WellFormed.touch (h : WellFormed t) (f : ℕ) (now : ℤ) :
    WellFormed { t with fwd := touch t.fwd f now } where
  fresh := h.fresh
  distinct := h.distinct
  sound := h.sound
  linked := fun hses => (h.linked hses).congr fun l _ => touch_peer f l.fwd

theorem WellFormed.claimLeg (h : WellFormed t)
    (hses : t.sessions.lookup tok = some ses ∨ t.sessions.lookup tok = none ∧ ses.legs = [])
    (hlegs : ses.legs.length < maxLegsPerSes) :
    WellFormed (claimLeg t now tok ses src acct name epk) where
  fresh := by
    intro tok' l hl
    rcases (live_claimLeg hses).1 hl with hl | ⟨-, rfl⟩
    · exact Nat.lt_succ_of_lt (h.fresh hl)
    · exact Nat.lt_succ_self _
  distinct := by
    intro tok₁ l₁ tok₂ l₂ h₁ h₂ hf
    rcases (live_claimLeg hses).1 h₁ with hl₁ | ⟨rfl, rfl⟩ <;>
      rcases (live_claimLeg hses).1 h₂ with hl₂ | ⟨rfl, rfl⟩
    · exact h.distinct hl₁ hl₂ hf
    · exact absurd hf (h.fresh hl₁).ne
    · exact absurd hf.symm (h.fresh hl₂).ne
    · exact ⟨rfl, rfl⟩
  sound := by
    rw [dir_claimLeg hses]
    exact h.sound.bind
  linked := by
    intro tok' ses' hlook
    have hlive : ∀ a ∈ ses.legs, t.Live tok a := by
      intro a ha
      rcases hses with hses | ⟨-, hnil⟩
      · exact ⟨ses, hses, ha⟩
      · rw [hnil] at ha
        cases ha
    by_cases htok : tok' = tok
    · -- the claimed session: its first leg, or its second
      subst htok
      have hs : ses' = { ses with
          legs := ses.legs ++ [newLeg t src acct name epk]
          paired := ses.paired || (ses.legs ++ [newLeg t src acct name epk]).length == 2 } :=
        Option.some.inj (hlook.symm.trans (lookup_insert t.sessions))
      subst hs
      rcases hl : ses.legs with _ | ⟨a, _ | ⟨b, ls⟩⟩
      · simp [Relay.claimLeg, hl, Linked, newLeg, publish]
      · have hne : a.fwd ≠ (newLeg t src acct name epk).fwd :=
          (h.fresh (hlive a (by simp [hl]))).ne
        simp only [Relay.claimLeg, hl]
        exact linked_publish_pair hne _
      · simp [hl, maxLegsPerSes] at hlegs
    · -- the records of any other session are not among those written
      have hlook' : t.sessions.lookup tok' = some ses' :=
        (lookup_insert_ne htok).symm.trans hlook
      refine (h.linked hlook').congr fun l hl => ?_
      have hlive' : t.Live tok' l := ⟨ses', hlook', hl⟩
      have hnew : l.fwd ≠ t.nextFwd := (h.fresh hlive').ne
      simp only [Relay.claimLeg, touch_peer]
      rw [publish_of_not_mem, Function.update_of_ne hnew]
      intro x hx heq
      rcases mem_append.1 hx with hx | hx
      · exact htok (h.distinct hlive' (hlive x hx) heq.symm).1
      · rw [mem_singleton.1 hx] at heq
        exact hnew heq.symm

theorem WellFormed.migrateLeg (h : WellFormed t) (hses : t.sessions.lookup tok = some ses)
    (hheld : held ∈ ses.legs) : WellFormed (migrateLeg t now tok ses held src acct) where
  fresh := by
    intro tok' l hl
    rcases (live_migrateLeg hses hheld).1 hl with ⟨-, rfl⟩ | ⟨hl, -⟩
    · exact h.fresh (l := held) ⟨ses, hses, hheld⟩
    · exact h.fresh hl
  distinct := by
    have hlive : t.Live tok held := ⟨ses, hses, hheld⟩
    intro tok₁ l₁ tok₂ l₂ h₁ h₂ hf
    rcases (live_migrateLeg hses hheld).1 h₁ with ⟨rfl, rfl⟩ | ⟨hl₁, hn₁⟩ <;>
      rcases (live_migrateLeg hses hheld).1 h₂ with ⟨rfl, rfl⟩ | ⟨hl₂, hn₂⟩
    · exact ⟨rfl, rfl⟩
    · exact absurd ⟨(h.distinct hl₂ hlive hf.symm).1, hf.symm⟩ hn₂
    · exact absurd ⟨(h.distinct hl₁ hlive hf).1, hf⟩ hn₁
    · exact h.distinct hl₁ hl₂ hf
  sound := by
    rw [dir_migrateLeg h.distinct hses hheld]
    exact h.sound.move
  linked := by
    intro tok' ses' hlook
    by_cases htok : tok' = tok
    · subst htok
      have hs : ses' = { ses with
          legs := ses.legs.map (fun l => if l.fwd = held.fwd then held.movedTo src acct else l) } :=
        Option.some.inj (hlook.symm.trans (lookup_insert t.sessions))
      subst hs
      rcases (h.linked hses).cases with ⟨a, hl, ha⟩ | ⟨a, b, hl, hne, -, -⟩
      · rw [hl, mem_singleton] at hheld
        subst hheld
        simpa [Relay.migrateLeg, hl, Linked, publish] using ha
      · -- whichever of the two moves, both pointers are written again
        rw [hl] at hheld
        have hmap : ∃ a' b', a'.fwd ≠ b'.fwd ∧ (ses.legs.map fun l =>
            if l.fwd = held.fwd then held.movedTo src acct else l) = [a', b'] := by
          rcases mem_pair.1 hheld with rfl | rfl
          · exact ⟨held.movedTo src acct, b, hne, by simp [hl, hne.symm]⟩
          · exact ⟨a, held.movedTo src acct, hne, by simp [hl, hne]⟩
        obtain ⟨a', b', hne', hmap⟩ := hmap
        have hfwd : (Relay.migrateLeg t now tok' ses held src acct).fwd =
            Relay.touch (publish t.fwd [a', b']) held.fwd now := by
          rw [← hmap]; rfl
        rw [hmap, hfwd]
        exact linked_publish_pair hne' _
    · have hlook' : t.sessions.lookup tok' = some ses' :=
        (lookup_insert_ne htok).symm.trans hlook
      refine (h.linked hlook').congr fun l hl => ?_
      have hlive' : t.Live tok' l := ⟨ses', hlook', hl⟩
      simp only [Relay.migrateLeg, touch_peer]
      rw [publish_of_not_mem]
      intro x hx heq
      obtain ⟨y, hy, hxy⟩ := mem_map.1 hx
      have hyf : y.fwd = l.fwd := by
        rw [← heq, ← hxy]
        split_ifs with hyh
        · exact hyh
        · rfl
      exact htok (h.distinct hlive' ⟨ses, hses, hy⟩ hyf.symm).1

theorem kept_sublist (P : Params) (t : Table) (now : ℤ) (ses : Session) :
    (kept P t now ses).Sublist ses.legs := by
  unfold kept
  split_ifs
  · exact nil_sublist _
  · exact filter_sublist

theorem WellFormed.reapSession (h : WellFormed t) (tok : Bytes) :
    WellFormed (reapSession P now t tok) where
  fresh := by
    intro tok' l hl
    rw [reapSession_nextFwd]
    exact h.fresh (live_reapSession.1 hl).1
  distinct := Distinct.reapSession h.distinct
  sound := by
    rw [dir_reapSession h.distinct]
    exact h.sound.dropAll
  linked := by
    intro tok' ses' hlook
    cases hs : t.sessions.lookup tok with
    | none =>
      rw [reapSession_of_none hs] at hlook ⊢
      exact h.linked hlook
    | some ses =>
      rw [reapSession_lookup hs] at hlook
      rw [reapSession_fwd hs]
      by_cases htok : tok' = tok
      · subst htok
        rw [if_pos rfl] at hlook
        split_ifs at hlook with hnil
        cases hlook
        -- one survivor loses its pointer, two survivors are the whole session
        rcases hk : kept P t now ses with _ | ⟨a, _ | ⟨b, ls⟩⟩
        · exact absurd hk hnil
        · simp [Linked, clearLone]
        · have hsub := kept_sublist P t now ses
          have hlen := (h.linked hs).length_le
          rw [hk] at hsub
          have heq : a :: b :: ls = ses.legs := by
            apply hsub.eq_of_length_le
            simp only [length_cons]
            omega
          rw [heq]
          exact (h.linked hs).congr fun l _ => by rw [← heq]; rfl
      · rw [if_neg htok] at hlook
        refine (h.linked hlook).congr fun l hl => ?_
        rw [clearLone_of_not_mem]
        intro x hx heq
        have hx' : t.Live tok x := ⟨ses, hs, (mem_kept_iff.1 hx).1⟩
        exact htok (h.distinct ⟨ses', hlook, hl⟩ hx' heq.symm).1

theorem WellFormed.reap (h : WellFormed t) (order : List Bytes) :
    WellFormed (reap P t now order) := by
  unfold Relay.reap
  induction Go.visitOrder order t.sessions.keys generalizing t with
  | nil => exact h
  | cons tok toks ih => exact ih (h.reapSession tok)

theorem WellFormed.step {t' : Table} (h : WellFormed t) (hstep : TableStep P now t t') :
    WellFormed t' := by
  cases hstep with
  | same => exact h
  | touch f => exact h.touch f now
  | bind hb =>
    cases hb with
    | refused => exact h
    | keepAlive l hl haddr => exact h.touch l.fwd now
    | claimed ses hses hlegs hcap => exact h.claimLeg (claimed_session hses) hlegs
    | migrated ses held hmode hses hfind hepk haddr hcap =>
      exact h.migrateLeg hses (mem_of_find?_eq_some hfind)
  | reap order => exact h.reap order

/-- **The invariant holds in every reachable state**, in both modes. -/
theorem wellFormed_run (cr : Crypto) (P : Params) (start : ℤ) (es : List Event) :
    WellFormed (runFrom cr P start es).toTable :=
  Machine.invariant_run (P := fun s : State => WellFormed s.toTable)
    (fun s e h => h.step (step_table s e)) (wellFormed_new start) es

/-! ### Isolation -/

/-- What `forward` sends goes to the other leg of a session the sender holds a leg in. -/
theorem WellFormed.forward_output (h : WellFormed t) {S : UDPAddr} {pkt : Bytes} {o : Output}
    (ho : o ∈ (forward t now S pkt).2) :
    ∃ tok ses l l', t.sessions.lookup tok = some ses ∧
      (ses.legs = [l, l'] ∨ ses.legs = [l', l]) ∧ l.addr.string = S.string ∧
      o = .send l'.addr pkt := by
  unfold forward at ho
  split at ho
  · cases ho
  · next f hf =>
    obtain ⟨tok, l, ⟨ses, hses, hl⟩, heq⟩ := h.sound _ _ hf
    obtain ⟨rfl, hkey⟩ := Prod.mk.inj heq
    rcases (h.linked hses).cases with ⟨a, hlegs, ha⟩ | ⟨a, b, hlegs, -, ha, hb⟩
    · rw [hlegs, mem_singleton] at hl
      subst hl
      simp [ha] at ho
    · rw [hlegs] at hl
      rcases mem_pair.1 hl with rfl | rfl
      · simp only [ha, mem_singleton] at ho
        exact ⟨tok, ses, l, b, hses, Or.inl hlegs, hkey.symm, ho⟩
      · simp only [hb, mem_singleton] at ho
        exact ⟨tok, ses, l, a, hses, Or.inr hlegs, hkey.symm, ho⟩

/-- **Isolation.** In every reachable state of a relay in either mode: an entry of the address
table points to the record of a live leg at that address; a live leg's pointer is the current
address of the other leg of its session, and empty when there is none; and a datagram from `S` is
written only to the other leg of a session in which `S` holds a leg, to nobody when that session
has one leg. -/
theorem relay_isolation (cr : Crypto) (P : Params) (start : ℤ) (es : List Event) :
    (∀ k f, (runFrom cr P start es).byAddr.lookup k = some f →
      ∃ tok l, (runFrom cr P start es).Live tok l ∧ l.fwd = f ∧ l.addr.string = k) ∧
    (∀ tok ses, (runFrom cr P start es).sessions.lookup tok = some ses →
      (∃ a, ses.legs = [a] ∧ ((runFrom cr P start es).fwd a.fwd).peer = none) ∨
      (∃ a b, ses.legs = [a, b] ∧ ((runFrom cr P start es).fwd a.fwd).peer = some b.addr ∧
        ((runFrom cr P start es).fwd b.fwd).peer = some a.addr)) ∧
    ∀ now S pkt, parseBind pkt = none →
      (∀ o ∈ (stepOut cr P (runFrom cr P start es) (.recv now S pkt)).2,
        ∃ tok ses l l', (runFrom cr P start es).sessions.lookup tok = some ses ∧
          (ses.legs = [l, l'] ∨ ses.legs = [l', l]) ∧ l.addr.string = S.string ∧
          o = .send l'.addr pkt) ∧
      ∀ tok ses l, (runFrom cr P start es).sessions.lookup tok = some ses → ses.legs = [l] →
        (runFrom cr P start es).byAddr.lookup S.string = some l.fwd →
        (stepOut cr P (runFrom cr P start es) (.recv now S pkt)).2 = [] := by
  have h := wellFormed_run cr P start es
  refine ⟨?_, ?_, ?_⟩
  · intro k f hk
    obtain ⟨tok, l, hl, heq⟩ := h.sound k f hk
    exact ⟨tok, l, hl, (Prod.mk.inj heq).1.symm, (Prod.mk.inj heq).2.symm⟩
  · intro tok ses hses
    rcases (h.linked hses).cases with ha | ⟨a, b, hlegs, -, hab⟩
    · exact Or.inl ha
    · exact Or.inr ⟨a, b, hlegs, hab⟩
  · intro now S pkt hpkt
    simp only [stepOut, hpkt]
    refine ⟨fun o ho => h.forward_output ho, ?_⟩
    intro tok ses l hses hlegs hentry
    have hlone : ((runFrom cr P start es).fwd l.fwd).peer = none := by
      have := h.linked hses
      rwa [hlegs] at this
    simp [forward, hentry, hlone]

end BuddyNet.Relay
