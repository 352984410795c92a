import BuddyNet.Handshake.Steps

/-!
# Where a roster entry comes from

The registry merges registrations by token and id, not by key. A registration under an id that is
in use replaces the key and the virtual address of the record, but keeps the name and the endpoints
it finds there. `roster_provenance` says when every entry is nevertheless made of registrations of
one key: when nobody registers with another key under an id in use. A run that mixes two keys is
given after it.
-/

namespace BuddyNet.Handshake

open Registry Machine List

variable {cr : Crypto} {P : Params} {ids : ℕ → Bytes} {log : List Event} {r r' : Registry}
  {s : State}

/-! ### One key -/

/-- The log has a registration, accepted on the proof of the key `pub`, of which `Q` holds. -/
def Taken (cr : Crypto) (log : List Event) (pub : Bytes) (Q : UDPAddr → Message → Prop) : Prop :=
  ∃ req now src m evict order m', Event.register req now src m evict order ∈ log ∧
    accept cr now m = some m' ∧ verifyRegistration cr now m = true ∧
    decodePubKey m.pubkey = some pub ∧ Q src m'

/-- Key, address, name and endpoints were all taken from registrations of this one key. -/
def SingleKey (cr : Crypto) (log : List Event) (pubkey virtualIP name : Bytes)
    (cands : Set Candidate) : Prop :=
  ∃ pub, decodePubKey pubkey = some pub ∧
    Taken cr log pub (fun _ m => m.pubkey = pubkey) ∧
    Taken cr log pub (fun _ m => m.virtualIP = virtualIP) ∧
    (name = [] ∨ Taken cr log pub fun _ m => m.name = name) ∧
    ∀ c ∈ cands, Taken cr log pub fun src _ => candidateOf src = c

/-- The endpoints of a record. -/
def HsPeer.endpoints (p : HsPeer) : Set Candidate := {c | ∃ k, p.cands.lookup k = some c}

/-- A record made of registrations of one key. -/
def HsPeer.Pure (cr : Crypto) (log : List Event) (p : HsPeer) : Prop :=
  SingleKey cr log p.pubkey p.virtualIP p.name p.endpoints

/-- A roster entry made of registrations of one key. -/
def Peer.Pure (cr : Crypto) (log : List Event) (e : Peer) : Prop :=
  SingleKey cr log e.pubkey e.virtualIP e.name {c | c ∈ e.candidates}

theorem Taken.append {pub : Bytes} {Q : UDPAddr → Message → Prop} (h : Taken cr log pub Q)
    (es : List Event) : Taken cr (log ++ es) pub Q := by
  obtain ⟨req, now, src, m, evict, order, m', hmem, h⟩ := h
  exact ⟨req, now, src, m, evict, order, m', mem_append_left es hmem, h⟩

theorem SingleKey.append {pubkey virtualIP name : Bytes} {cands : Set Candidate}
    (h : SingleKey cr log pubkey virtualIP name cands) (es : List Event) :
    SingleKey cr (log ++ es) pubkey virtualIP name cands := by
  obtain ⟨pub, hpub, hkey, hip, hname, hcands⟩ := h
  exact ⟨pub, hpub, hkey.append es, hip.append es, hname.imp_right (·.append es),
    fun c hc => (hcands c hc).append es⟩

/-- Rendering a record adds nothing to it. -/
theorem HsPeer.Pure.render {p : HsPeer} (h : p.Pure cr log) (relay : Bytes) :
    (p.asProtocolPeer relay).Pure cr log := by
  obtain ⟨pub, hpub, hkey, hip, hname, hcands⟩ := h
  exact ⟨pub, hpub, hkey, hip, hname, fun c hc => hcands c (mem_sortedCandidates hc)⟩

variable {req : ℕ} {src : UDPAddr} {m : Message} {evict order : List Bytes} {now : ℤ}

/-- The record after a registration by the key it is made of, or by any key if it is new. -/
theorem pure_stored {m' : Message}
    {p p' : HsPeer} (hacc : accept cr now m = some m') (hst : Stored m' src p p')
    (hbase : (p.name = [] ∧ p.endpoints = ∅) ∨
      p.Pure cr log ∧ decodePubKey p.pubkey = decodePubKey m'.pubkey) :
    p'.Pure cr (log ++ [.register req now src m evict order]) := by
  obtain ⟨hver, pub, hpub, hm'⟩ := accept_spec hacc
  have hkey : m'.pubkey = m.pubkey := by rw [hm']
  have htaken : ∀ {Q : UDPAddr → Message → Prop}, Q src m' →
      Taken cr (log ++ [.register req now src m evict order]) pub Q := fun hQ =>
    ⟨req, now, src, m, evict, order, m', by simp, hacc, hver, hpub, hQ⟩
  have hold : (p.name = [] ∨ Taken cr log pub fun _ m => m.name = p.name) ∧
      ∀ c ∈ p.endpoints, Taken cr log pub fun src _ => candidateOf src = c := by
    rcases hbase with ⟨hname, hnone⟩ | ⟨⟨pub', hpub', -, -, hname, hcands⟩, hsame⟩
    · exact ⟨Or.inl hname, by simp [hnone]⟩
    · rw [hpub', hkey, hpub] at hsame
      obtain rfl := Option.some.inj hsame
      exact ⟨hname, hcands⟩
  have hpk := hst.pubkey (accept_pubkey_ne_nil hacc)
  have hvip := hst.virtualIP (accept_virtualIP_ne_nil hacc)
  refine ⟨pub, by rw [hpk, hkey, hpub], htaken hpk.symm, htaken hvip.symm, ?_, ?_⟩
  · rcases hst.name with hname | hname
    · rw [hname]
      exact hold.1.imp_right (·.append _)
    · exact Or.inr (htaken hname.symm)
  · rintro c ⟨k, hk⟩
    rcases hst.cands hk with hc | rfl
    · exact (hold.2 c ⟨k, hc⟩).append _
    · exact htaken rfl

/-! ### Runs -/

/-- Nobody registers with another key under an id that is in use. -/
def SameKey (cr : Crypto) (s : State) : Event → Prop
  | .register _ now _ m _ _ => ∀ m' ref, accept cr now m = some m' →
      s.reg.Holds m'.token m'.id ref →
      decodePubKey (s.reg.heap ref).pubkey = decodePubKey m'.pubkey
  | _ => True

/-- What a request holds was made from registrations of one key. -/
def Stage.Pure (cr : Crypto) (log : List Event) (r : Registry) : Stage → Prop
  | paired _ p => p < r.next
  | noted _ p => p < r.next
  | rendered _ _ entry => entry.Pure cr log

/-- The invariant: every record, entry and answer is made of registrations of one key. -/
structure Sourced (cr : Crypto) (log : List Event) (s : State) : Prop where
  owned : s.reg.Owned
  records : ∀ {ref}, ref < s.reg.next → (s.reg.heap ref).Pure cr log
  stages : ∀ {req st}, s.requests.lookup req = some st → st.Pure cr log s.reg
  answers : ∀ {a}, a ∈ s.answers → a.entry.Pure cr log

theorem sourced_new (cr : Crypto) : Sourced cr [] State.new where
  owned := owned_empty
  records := fun h => absurd h (Nat.not_lt_zero _)
  stages := nofun
  answers := nofun

theorem Stage.Pure.append {st : Stage} (h : st.Pure cr log r) (hnext : r.next ≤ r'.next)
    (es : List Event) : st.Pure cr (log ++ es) r' := by
  cases st with
  | paired m p | noted m p => exact Nat.lt_of_lt_of_le h hnext
  | rendered m p entry => exact SingleKey.append h es

section

variable (h : Sourced cr log s)
include h

theorem Sourced.frame (ho : r'.Owned) (hheap : r'.heap = s.reg.heap)
    (hnext : r'.next = s.reg.next) (es : List Event) :
    Sourced cr (log ++ es) { s with reg := r' } where
  owned := ho
  records := by
    intro ref href
    rw [hnext] at href
    rw [hheap]
    exact SingleKey.append (h.records href) es
  stages := fun hreq => (h.stages hreq).append hnext.ge es
  answers := fun ha => SingleKey.append (h.answers ha) es

theorem Sourced.shrink (hs : Shrinks s.reg r') (es : List Event) :
    Sourced cr (log ++ es) { s with reg := r' } :=
  h.frame (h.owned.shrink hs) hs.heap hs.next es

theorem Sourced.register {m' : Message} {own : ℕ} {partner : Option ℕ}
    (hG : SameKey cr s (.register req now src m evict order)) (hacc : accept cr now m = some m')
    (hu : UpsertSpec s.reg evict m' (fieldWrites m' src now) own partner r') :
    Sourced cr (log ++ [.register req now src m evict order])
      { s with reg := r', requests := s.withRequest req m' partner } := by
  have howned := h.owned.upsert hu
  refine ⟨howned, ?_, ?_, fun ha => SingleKey.append (h.answers ha) _⟩
  · intro ref href
    by_cases hown : ref = own
    · subst hown
      rw [hu.heap_self]
      refine pure_stored hacc (fieldWrites_stored m' src now _) ?_
      rcases hu.self_origin with ⟨hheld, -⟩ | ⟨-, -, hnone⟩
      · rw [baseRecord, show (s.reg.bucket m'.token).lookup m'.id = some ref from hheld]
        exact Or.inr ⟨h.records (h.owned.refs_lt hheld), hG m' ref hacc hheld⟩
      · rw [baseRecord, Option.eq_none_iff_forall_ne_some.2 hnone]
        refine Or.inl ⟨rfl, Set.eq_empty_of_forall_notMem ?_⟩
        rintro c ⟨k, hk⟩
        cases hk
    · rw [hu.heap_ne hown]
      refine SingleKey.append (h.records ?_) _
      rcases hu.self_origin with ⟨-, hnext⟩ | ⟨hself, hnext, -⟩
      · rwa [hnext] at href
      · rw [hnext] at href
        omega
  · intro q st hq
    rcases lookup_withRequest hq with hold | ⟨p, rfl, rfl⟩
    · exact (h.stages hold).append hu.next_le _
    · obtain ⟨id, -, hp⟩ := hu.partner_holds rfl
      exact howned.refs_lt hp

theorem Sourced.step {e : Event} (hG : SameKey cr s e) :
    Sourced cr (log ++ [e]) (step cr P ids s e) := by
  have heff := step_effect cr P ids s e
  generalize Handshake.step cr P ids s e = s' at heff ⊢
  cases heff with
  | idle => exact h.shrink (Shrinks.refl _) _
  | refused hr => exact h.shrink hr.shrinks _
  | registered hacc hup => exact h.register hG hacc (upsert_spec hup)
  | @noted req m partner r' hreq hr =>
    have h' := h.shrink hr.shrinks [.note req]
    have hp := h'.stages hreq
    refine ⟨h'.owned, h'.records, fun hq => ?_, h'.answers⟩
    rcases Go.lookup_insert_cases hq with hold | ⟨-, rfl⟩
    · exact h'.stages hold
    · exact hp
  | @rendered req m partner hreq =>
    have h' := h.shrink (Shrinks.refl s.reg) [.render req]
    refine ⟨h'.owned, h'.records, fun hq => ?_, h'.answers⟩
    rcases Go.lookup_insert_cases hq with hold | ⟨-, rfl⟩
    · exact h'.stages hold
    · exact HsPeer.Pure.render (h'.records (h'.stages hreq)) P.endpoint
  | @issued req now m partner drawn' entry r' t hreq hissue =>
    obtain ⟨sids, rfl⟩ := hissue.sids_only
    have ho : Owned { s.reg with sids := sids } := ⟨h.owned.refs_lt, h.owned.refs_inj⟩
    have h' := h.frame ho rfl rfl [.issue req now]
    refine ⟨h'.owned, h'.records, fun hq => h'.stages (Go.lookup_of_erase hq), fun ha => ?_⟩
    rcases mem_append.1 ha with hold | hnew
    · exact h'.answers hold
    · rw [mem_singleton.1 hnew]
      exact h'.stages hreq
  | reaped now => exact h.shrink (reap_shrinks s.reg P.ttl now) _

end

/-- **Provenance of the roster.** In a run in which nobody registers with another key under an id
that is in use, every entry the server signs has its key, its virtual address, its name and each of
its endpoints from registrations that were proved by that key. -/
theorem roster_provenance (cr : Crypto) (P : Params) (ids : ℕ → Bytes) (es : List Event)
    (hG : Along (step cr P ids) (SameKey cr) State.new es) :
    ∀ a ∈ (runFrom cr P ids es).answers, a.entry.Pure cr es :=
  fun _ ha => (history_along (P := Sourced cr) (sourced_new cr)
    (fun _ _ h hg => h.step hg) hG).answers ha

theorem sameKey_register (m' : Message) (hacc : accept cr now m = some m')
    (hall : ∀ ref ∈ (s.reg.bucket m'.token).lookup m'.id,
      decodePubKey (s.reg.heap ref).pubkey = decodePubKey m'.pubkey) :
    SameKey cr s (.register req now src m evict order) := by
  intro m'' ref hacc' hheld
  obtain rfl := Option.some.inj (hacc.symm.trans hacc')
  exact hall ref hheld

namespace Takeover

open Sample

/-- A second key registers under the id of the first, and a third one asks for its partner. -/
def takeover : List Event :=
  register 0 2 (lit "idA") 100 (lit "alice") :: register 1 3 (lit "idA") 101 [] ::
    register 2 1 (lit "idC") 102 [] :: answer 2 102

/-- The first key comes back under its id before it is asked for. -/
def refresh : List Event :=
  register 0 2 (lit "idA") 100 (lit "alice") :: register 1 2 (lit "idA") 101 [] ::
    register 2 1 (lit "idC") 102 [] :: answer 2 102

/-- What matters of an entry. -/
def gist (a : Answer) : Bytes × Bytes × List Bytes :=
  (a.entry.pubkey, a.entry.name, a.entry.candidates.map (·.addr))

end Takeover

open Sample Takeover in
/-- The entry signed for the third key has the key of the second and the name and an endpoint of the
first. -/
theorem roster_provenance_fails :
    (runFrom crypto params drawnID takeover).answers.map gist =
      [(key 3, lit "alice", [(home 2).string, (home 3).string])] ∧
    ∃ a ∈ (runFrom crypto params drawnID takeover).answers, ¬ a.entry.Pure crypto takeover := by
  have hgist : (runFrom crypto params drawnID takeover).answers.map gist =
      [(key 3, lit "alice", [(home 2).string, (home 3).string])] := by decide +kernel
  refine ⟨hgist, ?_⟩
  obtain ⟨a, ha, hg⟩ : ∃ a ∈ (runFrom crypto params drawnID takeover).answers,
      gist a = (key 3, lit "alice", [(home 2).string, (home 3).string]) := by
    rw [← mem_map, hgist]
    exact mem_singleton_self _
  refine ⟨a, ha, ?_⟩
  obtain ⟨hkey, hrest⟩ := Prod.mk.inj hg
  obtain ⟨hname, -⟩ := Prod.mk.inj hrest
  rintro ⟨pub, hpub, -, -, hfrom, -⟩
  rw [hkey] at hpub
  rw [hname] at hfrom
  obtain ⟨req, now, src, m, evict, order, m', hmem, hacc, -, hdec, hm'⟩ :=
    hfrom.resolve_left (by decide)
  obtain ⟨-, _, -, rfl⟩ := accept_spec hacc
  -- only the first registration has the name, and it is another key's
  rw [← hpub] at hdec
  have hkeys : decodePubKey (key 2) ≠ decodePubKey (key 3) := by decide +kernel
  have hnone : ([] : Bytes) ≠ lit "alice" := by decide
  simp only [takeover, register, answer, mem_cons, not_mem_nil, or_false,
    Event.register.injEq, reduceCtorEq] at hmem
  rcases hmem with ⟨-, -, -, rfl, -⟩ | ⟨-, -, -, rfl, -⟩ | ⟨-, -, -, rfl, -⟩
  · exact hkeys hdec
  · exact hnone hm'
  · exact hnone hm'

open Sample Takeover in
/-- A refresh by the same key is no takeover, and the entry is made of its registrations. -/
theorem roster_provenance_refresh :
    Along (step crypto params drawnID) (SameKey crypto) State.new refresh ∧
    (runFrom crypto params drawnID refresh).answers.map gist =
      [(key 2, lit "alice", [(home 2).string])] ∧
    ∀ a ∈ (runFrom crypto params drawnID refresh).answers, a.entry.Pure crypto refresh := by
  have hG : Along (step crypto params drawnID) (SameKey crypto) State.new refresh := by
    refine ⟨sameKey_register (accepted 2 (lit "idA") 100 (lit "alice")) ?_ ?_,
      sameKey_register (accepted 2 (lit "idA") 101 []) ?_ ?_,
      sameKey_register (accepted 1 (lit "idC") 102 []) ?_ ?_, trivial, trivial, trivial, trivial⟩
    all_goals decide +kernel
  exact ⟨hG, by decide +kernel, roster_provenance crypto params drawnID refresh hG⟩

end BuddyNet.Handshake
