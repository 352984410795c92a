import BuddyNet.Handshake.Steps

/-!
# Session ids of tickets

Two tickets with one session id and different legs let their holders meet at the relay. The server
keeps the session id with the token, while the keys that register on a token may change. Here it is
shown which runs keep tickets apart (`ticket_isolation`), and a run that does not is given.

The argument follows a token through one life of its bucket. As long as at most two keys register
in that life, every roster entry and every ticket of its session id is about these two keys.

* `Registry.Orderly`: the records of a token carry keys recorded for it;
* `Stage.Fits`: so does everything a request under way holds;
* `Ledger`: so does every ticket issued under the token's present session id, and the tickets of
  one session id are about two keys for ever.
-/

namespace BuddyNet.Handshake

open Registry Machine List

variable {cr : Crypto} {P : Params} {ids : ℕ → Bytes} {r r' : Registry} {s : State}

/-! ### Recorded keys -/

theorem subset_addKey (known : List Bytes) (key : Bytes) : known ⊆ addKey known key := by
  unfold addKey
  split_ifs
  · exact subset_append_left known [key]
  · exact Subset.refl known

variable {known : List Bytes}

theorem mem_addKey {key : Bytes} (h : known.length ≤ maxIDsPerToken) : key ∈ addKey known key := by
  unfold addKey
  split_ifs with hnew
  · simp
  · by_contra hmem
    exact hnew ⟨hmem, Nat.lt_succ_of_le h⟩

theorem length_addKey {key : Bytes} (h : known.length ≤ maxIDsPerToken)
    (hroom : key ∈ known ∨ known.length < maxIDsPerToken) :
    (addKey known key).length ≤ maxIDsPerToken := by
  unfold addKey
  split_ifs with hnew
  · have hlt := hroom.resolve_left hnew.1
    rw [length_append, length_singleton]
    omega
  · exact h

/-! ### The registry -/

/-- The records of a token carry keys recorded for it. At most two keys are recorded for a token,
and only waiting tokens have a session id. -/
structure Registry.Orderly (r : Registry) : Prop extends Owned r where
  held_key : ∀ {tok id ref}, r.Holds tok id ref → (r.heap ref).pubkey ∈ r.seenKeys tok
  seen_le : ∀ tok, (r.seenKeys tok).length ≤ maxIDsPerToken
  sid_live : ∀ {tok sid}, r.sids.lookup tok = some sid → tok ∈ r.waiting

theorem orderly_empty : Registry.empty.Orderly where
  toOwned := owned_empty
  held_key := nofun
  seen_le := fun _ => Nat.zero_le _
  sid_live := nofun

theorem Registry.Shrinks.sid_live (hs : Shrinks r r') (h : r.Orderly) {tok sid : Bytes}
    (hsid : r'.sids.lookup tok = some sid) : r.sids.lookup tok = some sid ∧ tok ∈ r'.waiting := by
  have hold : r.sids.lookup tok = some sid := by
    rcases hs.sid_or tok with heq | hnone
    · rw [← heq, hsid]
    · rw [hnone] at hsid
      cases hsid
  refine ⟨hold, ?_⟩
  by_contra hgone
  have hnone := (hs.gone (h.sid_live hold) hgone).2
  rw [hnone] at hsid
  cases hsid

theorem Registry.Orderly.shrink (h : r.Orderly) (hs : Shrinks r r') : r'.Orderly where
  toOwned := h.toOwned.shrink hs
  held_key := by
    intro tok id ref hh
    rw [hs.heap, hs.seen_kept hh.mem_waiting]
    exact h.held_key (hs.holds hh)
  seen_le := by
    intro tok
    rcases hs.seen_or tok with heq | hnil
    · rw [heq]; exact h.seen_le tok
    · rw [hnil]; exact Nat.zero_le _
  sid_live := fun hsid => (hs.sid_live h hsid).2

section Upsert

variable {evict : List Bytes} {m : Message} {src : UDPAddr} {now : ℤ} {own : ℕ}
  {partner : Option ℕ}

section

variable (hu : UpsertSpec r evict m (fieldWrites m src now) own partner r')
include hu

variable (hk : m.pubkey ≠ [])
include hk

theorem Registry.UpsertSpec.heap_own_pubkey : (r'.heap own).pubkey = m.pubkey := by
  rw [hu.heap_self]
  exact (fieldWrites_stored m src now _).pubkey hk

theorem Registry.UpsertSpec.seen_subset
    (tok : Bytes) : (r.trimmed evict m.token).seenKeys tok ⊆ r'.seenKeys tok := by
  by_cases htok : tok = m.token
  · subst htok
    rw [hu.seen_self hk]
    exact subset_addKey _ _
  · rw [hu.seen_ne htok]
    exact Subset.refl _

theorem Registry.UpsertSpec.mem_seen (h : r.Orderly) : m.pubkey ∈ r'.seenKeys m.token := by
  rw [hu.seen_self hk]
  exact mem_addKey ((h.shrink (trimmed_shrinks r evict m.token)).seen_le m.token)

end

/-- A registration keeps the order when its key has a place among those of the token. -/
theorem Registry.Orderly.upsert (h : r.Orderly)
    (hu : UpsertSpec r evict m (fieldWrites m src now) own partner r') (hk : m.pubkey ≠ [])
    (hroom : m.pubkey ∈ r.seenKeys m.token ∨ (r.seenKeys m.token).length < maxIDsPerToken) :
    r'.Orderly := by
  have hshrink := trimmed_shrinks r evict m.token
  have ht := h.shrink hshrink
  have hself : (r'.heap own).pubkey ∈ r'.seenKeys m.token := by
    rw [hu.heap_own_pubkey hk]
    exact hu.mem_seen hk h
  refine ⟨h.toOwned.upsert hu, ?_, ?_, ?_⟩
  · intro tok id ref hh
    by_cases href : ref = own
    · subst href
      rcases hu.holds hh with ⟨rfl, -, -⟩ | hold
      · exact hself
      · obtain ⟨rfl, -⟩ := hu.own_home h.toOwned (hshrink.holds hold)
        exact hself
    · rcases hu.holds hh with ⟨-, -, rfl⟩ | hold
      · exact absurd rfl href
      · rw [hu.heap_ne href, ← hshrink.heap]
        exact hu.seen_subset hk tok (ht.held_key hold)
  · intro tok
    by_cases htok : tok = m.token
    · subst htok
      rw [hu.seen_self hk]
      refine length_addKey (ht.seen_le _) ?_
      rcases hshrink.seen_or m.token with heq | hnil
      · rwa [heq]
      · rw [hnil]
        exact Or.inr (by decide)
    · rw [hu.seen_ne htok]
      exact ht.seen_le tok
  · intro tok sid hsid
    rw [hu.sids] at hsid
    exact hu.waiting.2 (Or.inr (ht.sid_live hsid))

end Upsert

/-! ### Requests under way -/

/-- The roster entry a request has rendered. -/
def Stage.entry : Stage → Option Peer
  | rendered _ _ entry => some entry
  | _ => none

/-- Everything a request holds is about keys recorded for its token. -/
structure Stage.Fits (r : Registry) (st : Stage) : Prop where
  live : st.msg.token ∈ r.waiting
  msg_key : st.msg.pubkey ∈ r.seenKeys st.msg.token
  partner_lt : st.partner < r.next
  partner_key : (r.heap st.partner).pubkey ∈ r.seenKeys st.msg.token
  partner_home : ∀ {tok id}, r.Holds tok id st.partner → tok = st.msg.token
  entry_key : ∀ {entry}, st.entry = some entry → entry.pubkey ∈ r.seenKeys st.msg.token

variable {st : Stage}

theorem Stage.Fits.shrink (h : st.Fits r) (hs : Shrinks r r')
    (hlive : st.msg.token ∈ r'.waiting) : st.Fits r' := by
  have hseen := hs.seen_kept hlive
  refine ⟨hlive, ?_, ?_, ?_, fun hh => h.partner_home (hs.holds hh), fun he => ?_⟩
  · rw [hseen]; exact h.msg_key
  · rw [hs.next]; exact h.partner_lt
  · rw [hseen, hs.heap]; exact h.partner_key
  · rw [hseen]; exact h.entry_key he

theorem Stage.Fits.latchOnly (h : st.Fits r) (hl : LatchOnly r r') : st.Fits r' :=
  h.shrink hl.shrinks (hl.waiting ▸ h.live)

/-- The next stage of a request whose entry, if it has one now, was rendered from the partner. -/
theorem Stage.Fits.advance {st' : Stage} (h : st.Fits r) (hm : st'.msg = st.msg)
    (hp : st'.partner = st.partner)
    (he : ∀ {entry}, st'.entry = some entry → entry.pubkey = (r.heap st.partner).pubkey) :
    st'.Fits r := by
  refine ⟨?_, ?_, ?_, ?_, ?_, fun he' => ?_⟩
  · rw [hm]; exact h.live
  · rw [hm]; exact h.msg_key
  · rw [hp]; exact h.partner_lt
  · rw [hp, hm]; exact h.partner_key
  · rw [hp, hm]; exact h.partner_home
  · rw [hm, he he']; exact h.partner_key

variable {evict : List Bytes}

theorem mem_trimmed {tok tok' : Bytes} (h : tok' ∈ r.waiting)
    (hv : r.victim evict tok ≠ some tok') : tok' ∈ (r.trimmed evict tok).waiting := by
  unfold trimmed
  split
  · exact h
  · next v hvictim =>
    refine AList.mem_erase.2 ⟨?_, h⟩
    rintro rfl
    exact hv hvictim

section Upsert

variable {evict : List Bytes} {m : Message} {src : UDPAddr} {now : ℤ} {own : ℕ}
  {partner : Option ℕ}

theorem Stage.Fits.upsert {st : Stage} (h : st.Fits r) (ho : r.Orderly)
    (hu : UpsertSpec r evict m (fieldWrites m src now) own partner r') (hk : m.pubkey ≠ [])
    (hv : r.victim evict m.token ≠ some st.msg.token) : st.Fits r' := by
  have hshrink := trimmed_shrinks r evict m.token
  have ht := h.shrink hshrink (mem_trimmed h.live hv)
  have hsub := hu.seen_subset hk st.msg.token
  -- the partner's record is written only by a registration on the same token
  have hhome : st.partner = own → m.token = st.msg.token := by
    rintro rfl
    rcases hu.self_origin with ⟨hown, -⟩ | ⟨hown, -, -⟩
    · exact h.partner_home hown
    · exact absurd hown h.partner_lt.ne
  refine ⟨hu.waiting.2 (Or.inr ht.live), hsub ht.msg_key, h.partner_lt.trans_le hu.next_le, ?_, ?_,
    fun he => hsub (ht.entry_key he)⟩
  · by_cases hown : st.partner = own
    · rw [hown, hu.heap_own_pubkey hk, ← hhome hown]
      exact hu.mem_seen hk ho
    · rw [hu.heap_ne hown, ← hshrink.heap]
      exact hsub ht.partner_key
  · intro tok id hh
    rcases hu.holds hh with ⟨rfl, -, hown⟩ | hold
    · exact hhome hown
    · exact ht.partner_home hold

theorem fits_paired {p : ℕ} (ho : r.Orderly) (ho' : r'.Orderly)
    (hu : UpsertSpec r evict m (fieldWrites m src now) own (some p) r') (hk : m.pubkey ≠ []) :
    (Stage.paired m p).Fits r' := by
  obtain ⟨id, -, hp⟩ := hu.partner_holds rfl
  exact ⟨hu.holds_self.mem_waiting, hu.mem_seen hk ho, ho'.refs_lt hp, ho'.held_key hp,
    fun hh => (ho'.refs_inj hh hp).1, nofun⟩

end Upsert

/-! ### Tickets -/

/-- The answer has a ticket of this session id. -/
def Answer.Carries (a : Answer) (sid : Bytes) : Prop := ∃ i ∈ a.ticket, i.payload.sid = sid

/-- The answer went to one of these keys and names one of them. -/
def Answer.About (a : Answer) (keys : List Bytes) : Prop :=
  a.msg.pubkey ∈ keys ∧ a.entry.pubkey ∈ keys

/-- The tickets issued so far, and the session ids they carry. -/
structure Ledger (ids : ℕ → Bytes) (r : Registry) (drawn : ℕ) (answers : List Answer) : Prop where
  sid_drawn : ∀ {tok sid}, r.sids.lookup tok = some sid → ∃ n < drawn, sid = ids n
  sid_inj : ∀ {tok tok' sid}, r.sids.lookup tok = some sid → r.sids.lookup tok' = some sid →
    tok = tok'
  ticket_drawn : ∀ {a sid}, a ∈ answers → a.Carries sid → ∃ n < drawn, sid = ids n
  ticket_live : ∀ {tok sid a}, r.sids.lookup tok = some sid → a ∈ answers → a.Carries sid →
    a.About (r.seenKeys tok)
  ticket_cover : ∀ sid, ∃ keys : List Bytes, keys.length ≤ maxIDsPerToken ∧
    ∀ a ∈ answers, a.Carries sid → a.About keys
  ticket_leg : ∀ {a i}, a ∈ answers → i ∈ a.ticket → a.msg.pubkey ≠ a.entry.pubkey ∧
    i.payload.leg = legOf a.msg.pubkey a.entry.pubkey

theorem ledger_new (ids : ℕ → Bytes) : Ledger ids Registry.empty 0 [] where
  sid_drawn := nofun
  sid_inj := nofun
  ticket_drawn := nofun
  ticket_live := nofun
  ticket_cover := fun _ => ⟨[], Nat.zero_le _, nofun⟩
  ticket_leg := nofun

/-- What is left of the session ids keeps its token and the keys recorded for it. -/
def Registry.Keeps (r r' : Registry) : Prop :=
  ∀ {tok sid}, r'.sids.lookup tok = some sid →
    r.sids.lookup tok = some sid ∧ r.seenKeys tok ⊆ r'.seenKeys tok

theorem Registry.Shrinks.keeps (hs : Shrinks r r') (h : r.Orderly) : r.Keeps r' := by
  intro tok sid hsid
  obtain ⟨hold, hlive⟩ := hs.sid_live h hsid
  rw [hs.seen_kept hlive]
  exact ⟨hold, Subset.refl _⟩

variable {src : UDPAddr}

theorem Registry.UpsertSpec.keeps {m : Message} {now : ℤ} {own : ℕ} {partner : Option ℕ}
    (hu : UpsertSpec r evict m (fieldWrites m src now) own partner r') (hk : m.pubkey ≠ [])
    (h : r.Orderly) : r.Keeps r' := by
  intro tok sid hsid
  rw [hu.sids] at hsid
  obtain ⟨hold, hsub⟩ := (trimmed_shrinks r evict m.token).keeps h hsid
  exact ⟨hold, fun _ hmem => hu.seen_subset hk tok (hsub hmem)⟩

section Ledger

variable {drawn drawn' : ℕ} {answers : List Answer} (h : Ledger ids r drawn answers)
include h

theorem Ledger.keeps (hkeep : r.Keeps r') :
    Ledger ids r' drawn answers where
  sid_drawn := fun hsid => h.sid_drawn (hkeep hsid).1
  sid_inj := fun hsid hsid' => h.sid_inj (hkeep hsid).1 (hkeep hsid').1
  ticket_drawn := h.ticket_drawn
  ticket_live := by
    intro tok sid a hsid ha hc
    obtain ⟨hold, hsub⟩ := hkeep hsid
    have habout := h.ticket_live hold ha hc
    exact ⟨hsub habout.1, hsub habout.2⟩
  ticket_cover := h.ticket_cover
  ticket_leg := h.ticket_leg

theorem Ledger.mint (hd : drawn < drawn') (hids : Set.InjOn ids (Set.Iio drawn')) (tok : Bytes) :
    Ledger ids { r with sids := r.sids.insert tok (ids drawn) } drawn' answers := by
  have hfresh : ∀ n < drawn, ids drawn ≠ ids n := by
    intro n hn heq
    exact hn.ne' (hids hd (hn.trans hd) heq)
  refine ⟨?_, ?_, ?_, ?_, h.ticket_cover, h.ticket_leg⟩
  · intro tok' sid hsid
    rcases Go.lookup_insert_cases hsid with hold | ⟨-, rfl⟩
    · obtain ⟨n, hn, rfl⟩ := h.sid_drawn hold
      exact ⟨n, hn.trans hd, rfl⟩
    · exact ⟨drawn, hd, rfl⟩
  · intro tok₁ tok₂ sid h₁ h₂
    rcases Go.lookup_insert_cases h₁ with hold₁ | ⟨rfl, rfl⟩
    · rcases Go.lookup_insert_cases h₂ with hold₂ | ⟨rfl, rfl⟩
      · exact h.sid_inj hold₁ hold₂
      · obtain ⟨n, hn, heq⟩ := h.sid_drawn hold₁
        exact absurd heq (hfresh n hn)
    · rcases Go.lookup_insert_cases h₂ with hold₂ | ⟨rfl, -⟩
      · obtain ⟨n, hn, heq⟩ := h.sid_drawn hold₂
        exact absurd heq (hfresh n hn)
      · rfl
  · intro a sid ha hc
    obtain ⟨n, hn, rfl⟩ := h.ticket_drawn ha hc
    exact ⟨n, hn.trans hd, rfl⟩
  · intro tok' sid a hsid ha hc
    rcases Go.lookup_insert_cases hsid with hold | ⟨-, rfl⟩
    · exact h.ticket_live hold ha hc
    · obtain ⟨n, hn, heq⟩ := h.ticket_drawn ha hc
      exact absurd heq (hfresh n hn)

theorem Ledger.answer (hd : drawn ≤ drawn')
    (hseen : ∀ tok, (r.seenKeys tok).length ≤ maxIDsPerToken) (a : Answer)
    (hnew : ∀ i ∈ a.ticket, (∃ tok, r.sids.lookup tok = some i.payload.sid ∧
      a.About (r.seenKeys tok)) ∧ a.msg.pubkey ≠ a.entry.pubkey ∧
      i.payload.leg = legOf a.msg.pubkey a.entry.pubkey) :
    Ledger ids r drawn' (answers ++ [a]) := by
  have hcarries : ∀ {sid}, a.Carries sid → ∃ tok, r.sids.lookup tok = some sid ∧
      a.About (r.seenKeys tok) := by
    rintro sid ⟨i, hi, rfl⟩
    exact (hnew i hi).1
  have hdrawn : ∀ {sid}, (∃ n < drawn, sid = ids n) → ∃ n < drawn', sid = ids n := by
    rintro sid ⟨n, hn, rfl⟩
    exact ⟨n, hn.trans_le hd, rfl⟩
  refine ⟨fun hsid => hdrawn (h.sid_drawn hsid), h.sid_inj, ?_, ?_, ?_, ?_⟩
  · intro b sid hb hc
    rcases mem_append.1 hb with hb | hb
    · exact hdrawn (h.ticket_drawn hb hc)
    · obtain rfl := mem_singleton.1 hb
      obtain ⟨tok, hsid, -⟩ := hcarries hc
      exact hdrawn (h.sid_drawn hsid)
  · intro tok sid b hsid hb hc
    rcases mem_append.1 hb with hb | hb
    · exact h.ticket_live hsid hb hc
    · obtain rfl := mem_singleton.1 hb
      obtain ⟨tok', hsid', habout⟩ := hcarries hc
      rwa [h.sid_inj hsid hsid']
  · intro sid
    by_cases hc : a.Carries sid
    · -- the session id is the token's present one, so its keys cover all its tickets
      obtain ⟨tok, hsid, habout⟩ := hcarries hc
      refine ⟨r.seenKeys tok, hseen tok, fun b hb hcb => ?_⟩
      rcases mem_append.1 hb with hb | hb
      · exact h.ticket_live hsid hb hcb
      · rwa [mem_singleton.1 hb]
    · obtain ⟨keys, hlen, hkeys⟩ := h.ticket_cover sid
      refine ⟨keys, hlen, fun b hb hcb => ?_⟩
      rcases mem_append.1 hb with hb | hb
      · exact hkeys b hb hcb
      · rw [mem_singleton.1 hb] at hcb
        exact absurd hcb hc
  · intro b i hb hi
    rcases mem_append.1 hb with hb | hb
    · exact h.ticket_leg hb hi
    · obtain rfl := mem_singleton.1 hb
      exact (hnew i hi).2

theorem Ledger.issue {m : Message} {partner : ℕ} {entry : Peer} {t : Option Issued}
    (ho : r.Orderly) (hf : (Stage.rendered m partner entry).Fits r)
    (hids : Set.InjOn ids (Set.Iio drawn')) (hi : IssueEffect ids r drawn m entry (r', drawn', t)) :
    r'.Orderly ∧ (∀ {st : Stage}, st.Fits r → st.Fits r') ∧
      Ledger ids r' drawn' (answers ++ [⟨m, entry, t⟩]) := by
  have habout : (⟨m, entry, t⟩ : Answer).About (r.seenKeys m.token) :=
    ⟨hf.msg_key, hf.entry_key rfl⟩
  cases hi with
  | refused hd => exact ⟨ho, id, h.answer hd ho.seen_le _ (by simp)⟩
  | reused hd hsid hne ht =>
    refine ⟨ho, id, h.answer hd ho.seen_le _ fun i hi => ?_⟩
    obtain ⟨rfl, hleg⟩ := ht i hi
    exact ⟨⟨m.token, hsid, habout⟩, hne, hleg⟩
  | minted hd hsid hne ht =>
    refine ⟨⟨⟨ho.refs_lt, ho.refs_inj⟩, ho.held_key, ho.seen_le, ?_⟩,
      fun hst => ⟨hst.live, hst.msg_key,
      hst.partner_lt, hst.partner_key, hst.partner_home, hst.entry_key⟩,
      (h.mint hd hids m.token).answer le_rfl ho.seen_le _ fun i hi => ?_⟩
    · intro tok sid hsid'
      rcases Go.lookup_insert_cases hsid' with hold | ⟨rfl, -⟩
      · exact ho.sid_live hold
      · exact hf.live
    · obtain ⟨hsid', hleg⟩ := ht i hi
      exact ⟨⟨m.token, by rw [hsid', AList.lookup_insert], habout⟩, hne, hleg⟩

end Ledger

/-! ### Runs -/

/-- A request on this token is under way. -/
def State.InUse (s : State) (tok : Bytes) : Prop :=
  ∃ req st, s.requests.lookup req = some st ∧ st.msg.token = tok

/-- The step brings no third key to a token, and no token is given up while a request on it is
under way. -/
def Undisturbed (cr : Crypto) (P : Params) (s : State) : Event → Prop
  | .register _ now src m evict order => ∀ m' r' own partner, accept cr now m = some m' →
      s.reg.upsert P.ttl now src evict order m' = (r', some (own, partner)) →
      (m'.pubkey ∈ s.reg.seenKeys m'.token ∨
        (s.reg.seenKeys m'.token).length < maxIDsPerToken) ∧
      ∀ tok, s.InUse tok → s.reg.victim evict m'.token ≠ some tok
  | .reap now => ∀ tok, s.InUse tok → tok ∈ (s.reg.reap P.ttl now).waiting
  | _ => True

/-- The invariant of undisturbed runs. -/
structure Accounted (ids : ℕ → Bytes) (s : State) : Prop where
  orderly : s.reg.Orderly
  fits : ∀ {req st}, s.requests.lookup req = some st → st.Fits s.reg
  ledger : Ledger ids s.reg s.drawn s.answers

theorem accounted_new (ids : ℕ → Bytes) : Accounted ids State.new where
  orderly := orderly_empty
  fits := nofun
  ledger := ledger_new ids

theorem Accounted.step {e : Event} (h : Accounted ids s) (hG : Undisturbed cr P s e)
    (hids : Set.InjOn ids (Set.Iio (step cr P ids s e).drawn)) :
    Accounted ids (step cr P ids s e) := by
  have heff := step_effect cr P ids s e
  generalize Handshake.step cr P ids s e = s' at heff hids ⊢
  cases heff with
  | idle => exact h
  | refused hr =>
    exact ⟨h.orderly.shrink hr.shrinks, fun hreq => (h.fits hreq).latchOnly hr,
      h.ledger.keeps (hr.shrinks.keeps h.orderly)⟩
  | registered hacc hup =>
    obtain ⟨hroom, hvictim⟩ := hG _ _ _ _ hacc hup
    have hk := accept_pubkey_ne_nil hacc
    have hu := upsert_spec hup
    have ho := h.orderly.upsert hu hk hroom
    refine ⟨ho, fun hreq => ?_, h.ledger.keeps (hu.keeps hk h.orderly)⟩
    rcases lookup_withRequest hreq with hold | ⟨p, rfl, rfl⟩
    · exact (h.fits hold).upsert h.orderly hu hk (hvictim _ ⟨_, _, hold, rfl⟩)
    · exact fits_paired h.orderly ho hu hk
  | noted hreq hr =>
    refine ⟨h.orderly.shrink hr.shrinks, fun hq => ?_, h.ledger.keeps (hr.shrinks.keeps h.orderly)⟩
    rcases Go.lookup_insert_cases hq with hold | ⟨-, rfl⟩
    · exact (h.fits hold).latchOnly hr
    · exact ((h.fits hreq).latchOnly hr).advance rfl rfl nofun
  | rendered hreq =>
    refine ⟨h.orderly, fun hq => ?_, h.ledger⟩
    rcases Go.lookup_insert_cases hq with hold | ⟨-, rfl⟩
    · exact h.fits hold
    · refine (h.fits hreq).advance rfl rfl fun he => ?_
      cases he
      rfl
  | issued hreq hissue =>
    obtain ⟨ho, hfits, hl⟩ := h.ledger.issue h.orderly (h.fits hreq) hids hissue
    exact ⟨ho, fun hq => hfits (h.fits (Go.lookup_of_erase hq)), hl⟩
  | reaped now =>
    have hs := reap_shrinks s.reg P.ttl now
    exact ⟨h.orderly.shrink hs, fun hreq => (h.fits hreq).shrink hs (hG _ ⟨_, _, hreq, rfl⟩),
      h.ledger.keeps (hs.keeps h.orderly)⟩

theorem drawn_le_step (s : State) (e : Event) : s.drawn ≤ (step cr P ids s e).drawn := by
  have heff := step_effect cr P ids s e
  generalize Handshake.step cr P ids s e = s' at heff ⊢
  cases heff with
  | issued hreq hissue =>
    cases hissue with
    | refused hd => exact hd
    | reused hd => exact hd
    | minted hd => exact hd.le
  | _ => exact le_rfl

theorem accounted_along {es : List Event}
    (hids : Set.InjOn ids (Set.Iio (runFrom cr P ids es).drawn))
    (hG : Along (step cr P ids) (Undisturbed cr P) State.new es) :
    Accounted ids (runFrom cr P ids es) := by
  -- the ids drawn by a prefix of the run are among those of the run
  refine invariant_along
    (P := fun s => s.drawn ≤ (runFrom cr P ids es).drawn → Accounted ids s) ?_ ?_ hG le_rfl
  · intro s e ih hg hle
    exact (ih ((drawn_le_step s e).trans hle)).step hg (hids.mono (Set.Iio_subset_Iio hle))
  · exact fun _ => accounted_new ids

/-! ### Isolation -/

/-- The first key was answered with a roster that names the second. -/
def State.Named (s : State) (key key' : Bytes) : Prop :=
  ∃ a ∈ s.answers, a.msg.pubkey = key ∧ a.entry.pubkey = key'

/-- Keys that hold matching tickets were paired with each other. -/
def Isolated (s : State) : Prop :=
  ∀ a ∈ s.answers, ∀ b ∈ s.answers, ∀ i ∈ a.ticket, ∀ j ∈ b.ticket,
    i.payload.sid = j.payload.sid → i.payload.leg ≠ j.payload.leg →
      s.Named a.msg.pubkey b.msg.pubkey ∧ s.Named b.msg.pubkey a.msg.pubkey

theorem pair_cases {keys : List Bytes} (hlen : keys.length ≤ 2) {x y u v : Bytes} (hx : x ∈ keys)
    (hy : y ∈ keys) (hu : u ∈ keys) (hv : v ∈ keys) (hxy : x ≠ y) (huv : u ≠ v) :
    u = x ∧ v = y ∨ u = y ∧ v = x := by
  rcases keys with _ | ⟨p, _ | ⟨q, _ | ⟨_, _⟩⟩⟩
  · cases hx
  · rw [mem_singleton] at hx hy
    exact absurd (hx.trans hy.symm) hxy
  · simp only [mem_cons, not_mem_nil, or_false] at hx hy hu hv
    grind
  · simp at hlen

theorem Accounted.isolated (h : Accounted ids s) : Isolated s := by
  intro a ha b hb i hi j hj hsid hleg
  obtain ⟨keys, hlen, hkeys⟩ := h.ledger.ticket_cover i.payload.sid
  obtain ⟨ha₁, ha₂⟩ := hkeys a ha ⟨i, hi, rfl⟩
  obtain ⟨hb₁, hb₂⟩ := hkeys b hb ⟨j, hj, hsid.symm⟩
  obtain ⟨hne, hlegA⟩ := h.ledger.ticket_leg ha hi
  obtain ⟨hne', hlegB⟩ := h.ledger.ticket_leg hb hj
  rcases pair_cases hlen ha₁ ha₂ hb₁ hb₂ hne hne' with ⟨hk, he⟩ | ⟨hk, he⟩
  · -- the same key against the same partner gets the same leg
    rw [hlegA, hlegB, hk, he] at hleg
    exact absurd rfl hleg
  · exact ⟨⟨a, ha, rfl, hk.symm⟩, ⟨b, hb, rfl, he⟩⟩

/-- **Session ids of tickets.** Let the ids drawn in a run be distinct, and let no third key come
to a token during one life of its bucket and no bucket be given up while a request on it is under
way. Then two tickets with the same session id and different legs were issued to keys that were
each answered with a roster naming the other. -/
theorem ticket_isolation (cr : Crypto) (P : Params) (ids : ℕ → Bytes) (es : List Event)
    (hids : Set.InjOn ids (Set.Iio (runFrom cr P ids es).drawn))
    (hG : Along (step cr P ids) (Undisturbed cr P) State.new es) :
    Isolated (runFrom cr P ids es) :=
  (accounted_along hids hG).isolated

theorem undisturbed_register {req : ℕ} {now : ℤ} {m : Message}
    {order : List Bytes} (m' : Message) (hacc : accept cr now m = some m')
    (hroom : m'.pubkey ∈ s.reg.seenKeys m'.token ∨
      (s.reg.seenKeys m'.token).length < maxIDsPerToken)
    (hvictim : s.reg.victim evict m'.token = none) :
    Undisturbed cr P s (.register req now src m evict order) := by
  intro m'' r' own partner hacc' _
  obtain rfl := Option.some.inj (hacc.symm.trans hacc')
  exact ⟨hroom, fun tok _ => by rw [hvictim]; simp⟩

namespace Succession

open Sample

/-- Two keys are paired and both get their tickets. -/
def pairing : List Event :=
  register 0 2 (lit "idA") 100 [] ::
    (register 1 3 (lit "idB") 101 [] :: answer 1 101) ++
    (register 2 2 (lit "idA") 102 [] :: answer 2 102)

/-- The second key stays away until it expires, and a third one takes its place. -/
def succession : List Event :=
  pairing ++ register 3 2 (lit "idA") 112 [] :: (register 4 1 (lit "idC") 113 [] :: answer 4 113)

/-- What matters of an answer: whom it went to, whom it names, and the ticket's session and leg. -/
def gist (a : Answer) : Bytes × Bytes × Option (Bytes × Bytes) :=
  (a.msg.pubkey, a.entry.pubkey, a.ticket.map fun i => (i.payload.sid, i.payload.leg))

theorem gist_ticket {a : Answer} {k e sid leg : Bytes} (h : gist a = (k, e, some (sid, leg))) :
    a.msg.pubkey = k ∧ ∃ i ∈ a.ticket, i.payload.sid = sid ∧ i.payload.leg = leg := by
  obtain ⟨hk, hrest⟩ := Prod.mk.inj h
  obtain ⟨i, hi, hp⟩ := Option.map_eq_some_iff.1 (Prod.mk.inj hrest).2
  exact ⟨hk, i, hi, Prod.mk.inj hp⟩

end Succession

open Sample Succession in
/-- The token outlives a change of partners and keeps its session id: keys 3 and 1 hold the two legs
of one session, and neither was ever answered with the other. -/
theorem ticket_isolation_fails :
    (runFrom crypto params drawnID succession).answers.map gist =
      [(key 3, key 2, some (drawnID 0, Ticket.legB)), (key 2, key 3, some (drawnID 0, Ticket.legA)),
        (key 1, key 2, some (drawnID 0, Ticket.legA))] ∧
    Set.InjOn drawnID (Set.Iio (runFrom crypto params drawnID succession).drawn) ∧
    ¬ Isolated (runFrom crypto params drawnID succession) := by
  have hgist : (runFrom crypto params drawnID succession).answers.map gist =
      [(key 3, key 2, some (drawnID 0, Ticket.legB)), (key 2, key 3, some (drawnID 0, Ticket.legA)),
        (key 1, key 2, some (drawnID 0, Ticket.legA))] := by decide +kernel
  have hmem : ∀ g ∈ (runFrom crypto params drawnID succession).answers.map gist,
      ∃ a ∈ (runFrom crypto params drawnID succession).answers, gist a = g :=
    fun g hg => mem_map.1 hg
  rw [hgist] at hmem
  refine ⟨hgist, ?_, fun h => ?_⟩
  · have hdrawn : (runFrom crypto params drawnID succession).drawn = 4 := by decide +kernel
    rw [hdrawn]
    exact drawnID_injOn
  · obtain ⟨b, hb, hgb⟩ := hmem (key 3, key 2, some (drawnID 0, Ticket.legB)) (by simp)
    obtain ⟨c, hc, hgc⟩ := hmem (key 1, key 2, some (drawnID 0, Ticket.legA)) (by simp)
    obtain ⟨hkb, i, hi, hsid, hleg⟩ := gist_ticket hgb
    obtain ⟨hkc, j, hj, hsid', hleg'⟩ := gist_ticket hgc
    have hne : i.payload.leg ≠ j.payload.leg := by
      rw [hleg, hleg']
      decide
    obtain ⟨⟨a, ha, hka, hea⟩, -⟩ := h b hb c hc i hi j hj (hsid.trans hsid'.symm) hne
    -- key 3 was answered once, and the entry was key 2
    have hga : gist a ∈ (runFrom crypto params drawnID succession).answers.map gist :=
      mem_map_of_mem ha
    rw [hkb] at hka
    rw [hkc] at hea
    rw [hgist] at hga
    have h₁ : key 3 ≠ key 2 := by decide +kernel
    have h₂ : key 3 ≠ key 1 := by decide +kernel
    have h₃ : key 1 ≠ key 2 := by decide +kernel
    simp [gist, hka, hea, h₁, h₂, h₃] at hga

open Sample Succession in
/-- The pairing alone is undisturbed, and its two tickets went to keys that name each other. -/
theorem ticket_isolation_pairing :
    Set.InjOn drawnID (Set.Iio (runFrom crypto params drawnID pairing).drawn) ∧
    Along (step crypto params drawnID) (Undisturbed crypto params) State.new pairing ∧
    Isolated (runFrom crypto params drawnID pairing) := by
  have hids : Set.InjOn drawnID (Set.Iio (runFrom crypto params drawnID pairing).drawn) := by
    have hdrawn : (runFrom crypto params drawnID pairing).drawn ≤ 4 := by decide +kernel
    exact drawnID_injOn.mono (Set.Iio_subset_Iio hdrawn)
  have hG : Along (step crypto params drawnID) (Undisturbed crypto params) State.new
      pairing := by
    refine ⟨undisturbed_register (accepted 2 (lit "idA") 100 []) ?_ ?_ ?_,
      undisturbed_register (accepted 3 (lit "idB") 101 []) ?_ ?_ ?_, trivial, trivial, trivial,
      undisturbed_register (accepted 2 (lit "idA") 102 []) ?_ ?_ ?_, trivial, trivial, trivial,
      trivial⟩
    all_goals decide +kernel
  exact ⟨hids, hG, ticket_isolation crypto params drawnID pairing hids hG⟩

end BuddyNet.Handshake
