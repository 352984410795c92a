import BuddyNet.Handshake.Approval

/-!
# What outsiders can do to the replay check

A key that is not approved never reaches the replay cache: its requests end in the enrollment
limiter and in a cache of their own. Two runs that differ only in such requests give the same
verdicts, as long as no registration is presented while its key is unapproved and again after the
approval; and they give the same verdicts about keys that are approved throughout as long as the
replay cache is not full.

One of the two is needed. The limiter is shared, so an outsider can keep the nonce of a key that is
about to be approved from being recorded; once approved, that key gets through with the same
registration, and in a full cache its entry displaces the oldest one of another key.
-/

namespace BuddyNet.Handshake.Approval

open NonceCache List Machine Go

/-! ### The caches are bounded and apart -/

/-- Neither cache is beyond its cap. -/
def Bounded (s : State) : Prop :=
  s.authz.recentRegs.keys.length ≤ maxReplayRegs ∧
    s.authz.preAuthRegs.keys.length ≤ maxPreAuthRegs

/-- A replay check keeps every entry of the other cache that is younger than the window, and what
an unapproved key records leaves the replay cache alone. -/
def Apart (cr : Crypto) (s : State) : Prop :=
  (∀ req now order k seen, s.authz.preAuthRegs.lookup k = some seen →
    now - seen < regReplayWindow →
    (step cr s (.check req now order)).authz.preAuthRegs.lookup k = some seen) ∧
  ∀ req now order, (step cr s (.record req now order)).authz.recentRegs = s.authz.recentRegs

variable {cr : Crypto} {s : State} {e : Event}

theorem length_insert_makeRoom {c : NonceCache} (now : ℤ) (order : List Bytes) (k : Bytes)
    (h : c.keys.length ≤ maxPreAuthRegs) :
    ((NonceCache.makeRoom c now order).insert k now).keys.length ≤ maxPreAuthRegs := by
  have hroom := makeRoom_length now order h
  have herase := keys_length_erase_le (NonceCache.makeRoom c now order) k
  rw [keys_length_insert]
  omega

theorem Bounded.step (h : Bounded s) (e : Event) : Bounded (step cr s e) := by
  have heff := step_effect cr s e
  generalize Approval.step cr s e = s' at heff ⊢
  cases heff with
  | @checked req now order m hreq =>
    rcases s.authz.replayed_frame now order m.pubkey m.nonce with hsame | ⟨pre, hpre, hnew⟩
    · simpa only [Bounded, hsame] using h
    · simp only [Bounded, hnew]
      refine ⟨length_insert_makeRoom now order _ h.1, ?_⟩
      rcases hpre with rfl | rfl
      · exact h.2
      · exact (expire_length_le _ now).trans h.2
  | @recorded req now order m hreq =>
    rcases s.authz.recordPreAuth_cases now order m.pubkey m.nonce with hsame | ⟨-, hnew⟩
    · simpa only [Bounded, hsame] using h
    · simp only [Bounded, hnew]
      exact ⟨h.1, length_insert_makeRoom now order _ h.2⟩
  | @polled stat file now =>
    obtain ⟨hrecent, hpre, -⟩ := s.authz.pollOnce_frame now stat file
    simpa only [Bounded, hrecent, hpre] using h
  | _ => exact h

theorem apart (cr : Crypto) (s : State) : Apart cr s := by
  refine ⟨fun req now order k seen hlook hyoung => ?_, fun req now order => ?_⟩
  · cases hreq : s.requests.lookup req with
    | none => simpa [step, hreq] using hlook
    | some ph =>
      cases ph with
      | vetted m =>
        simp only [step, hreq]
        exact Authorizer.lookup_replayed order m.pubkey m.nonce hlook hyoung
      | _ => simpa [step, hreq] using hlook
  · have heff := step_effect cr s (.record req now order)
    generalize step cr s (.record req now order) = s' at heff ⊢
    cases heff with
    | idle => rfl
    | recorded => exact s.authz.recordPreAuth_recentRegs ..

/-! ### Requests of outsiders -/

/-- The request an event belongs to. -/
def Event.request : Event → Option ℕ
  | verify req _ _ => some req
  | allow req => some req
  | vet req => some req
  | check req _ _ => some req
  | enroll req _ _ => some req
  | record req _ _ => some req
  | poll _ _ _ => none

/-- The event belongs to none of the given requests. -/
def apartFrom (outsider : ℕ → Bool) (e : Event) : Bool :=
  match e.request with
  | some req => !outsider req
  | none => true

/-- The keys of the given requests are not approved in any state of the run. -/
def Unapproved (cr : Crypto) (s : State) (outsider : ℕ → Bool) (es : List Event) : Prop :=
  ∀ req now m, Event.verify req now m ∈ es → outsider req = true →
    Throughout (step cr) (fun s => s.authz.allowed m.pubkey = false) s es

/-- The number of another request is not used again while that request waits to be recorded. -/
def namedAnew (outsider : ℕ → Bool) (s : State) : Event → Bool
  | .verify req _ _ =>
    match s.requests.lookup req with
    | some (.admitted _) => outsider req
    | _ => true
  | _ => true

/-- The key and the nonce of a registration whose key a step finds unapproved. -/
def found (s : State) : Event → Option (Bytes × Bytes)
  | .allow req =>
    match s.requests.lookup req with
    | some (.verified m) => if s.authz.allowed m.pubkey then none else some (m.pubkey, m.nonce)
    | _ => none
  | _ => none

/-- The server, with the registrations that were presented while their keys were unapproved. -/
structure Watched where
  state : State
  early : List (Bytes × Bytes) := []

/-- One step. -/
def Watched.step (cr : Crypto) (w : Watched) (e : Event) : Watched :=
  ⟨Approval.step cr w.state e, (found w.state e).toList ++ w.early⟩

/-- A registration that was presented while its key was unapproved does not come to a replay check
later. -/
def Watched.NoReturn (w : Watched) (e : Event) : Prop :=
  ∀ v ∈ verdict w.state e, (v.msg.pubkey, v.msg.nonce) ∉ w.early

instance (w : Watched) (e : Event) : Decidable (w.NoReturn e) :=
  inferInstanceAs (Decidable (∀ v ∈ verdict w.state e, (v.msg.pubkey, v.msg.nonce) ∉ w.early))

/-- The replay cache has room. -/
def RoomForReplays (s : State) : Prop := s.authz.recentRegs.keys.length < maxReplayRegs

instance : DecidablePred RoomForReplays := fun s => by unfold RoomForReplays; infer_instance

section Unwinding

variable (outsider : ℕ → Bool) (Q : Bytes → Prop)

/-- What a step may do when only keys in `Q` are presented while they are unapproved. -/
structure Guard (s : State) (e : Event) : Prop where
  outside : ∀ req m, e = .allow req → s.requests.lookup req = some (.verified m) →
    outsider req = true → s.authz.allowed m.pubkey = false
  named : namedAnew outsider s e = true
  finds : ∀ p ∈ found s e, Q p.1

/-- A verified registration has a key without a zero byte, and neither its key nor its nonce is
empty. -/
def Proper (m : Message) : Prop := 0 ∉ m.pubkey ∧ m.pubkey ≠ [] ∧ m.nonce ≠ []

/-- Where a request can be: outsiders are never found approved, and what is found unapproved was
presented early. -/
def Placed (early : List (Bytes × Bytes)) (req : ℕ) : Phase → Prop
  | .verified m => Proper m
  | .approved m => Proper m ∧ outsider req = false
  | .vetted m => Proper m ∧ outsider req = false
  | .unknown m => Proper m ∧ (m.pubkey, m.nonce) ∈ early
  | .admitted m => Proper m ∧ (m.pubkey, m.nonce) ∈ early

/-- Every request is where it can be, and only what was presented early is in the cache of
unapproved keys. -/
structure Orderly (w : Watched) : Prop where
  placed : ∀ req ph, w.state.requests.lookup req = some ph → Placed outsider w.early req ph
  noted : ∀ k seen, w.state.authz.preAuthRegs.lookup k = some seen →
    ∃ p ∈ w.early, k = regKey p.1 p.2 ∧ 0 ∉ p.1
  early : ∀ p ∈ w.early, Q p.1

/-- The same allowlist. -/
structure SameView (a b : Authorizer) : Prop where
  keys : a.keys = b.keys
  mtime : a.mtime = b.mtime
  approvedAt : a.approvedAt = b.approvedAt

/-- The request has ended, or it only waits to be recorded. -/
def Enrolled : Option Phase → Prop
  | none => True
  | some (.admitted _) => True
  | _ => False

/-- The request is in the same phase, unless the limiter has decided about it. -/
def SameRequest (o o' : Option Phase) : Prop := o = o' ∨ Enrolled o ∧ Enrolled o'

/-- The two runs agree on the allowlist and on the requests of the others, and their replay caches
are in the given relation. -/
structure Alike (C : NonceCache → NonceCache → Prop) (s f : State) : Prop where
  view : SameView s.authz f.authz
  recentRegs : C s.authz.recentRegs f.authz.recentRegs
  requests : ∀ req, outsider req = false →
    SameRequest (s.requests.lookup req) (f.requests.lookup req)

end Unwinding

variable {outsider : ℕ → Bool} {Q : Bytes → Prop} {C : NonceCache → NonceCache → Prop}
  {w w' : Watched} {f : State} {req : ℕ}

theorem verifyRegistration_proper {now : ℤ} {m : Message}
    (h : verifyRegistration cr now m = true) : Proper m := by
  refine ⟨?_, verifyRegistration_pubkey_ne_nil h, verifyRegistration_nonce_ne_nil h⟩
  cases hdec : stdEncoding.decode m.pubkey with
  | none => simp [verifyRegistration, hdec] at h
  | some pub => exact Encoding.zero_notMem_of_decode (.inl rfl) hdec

/-- A registration has no namesake. -/
theorem regKey_inj {pubkey pubkey' nonce nonce' : Bytes} (h : 0 ∉ pubkey) (h' : 0 ∉ pubkey')
    (heq : regKey pubkey nonce = regKey pubkey' nonce') : pubkey = pubkey' ∧ nonce = nonce' := by
  have htake (pub rest : Bytes) (hpub : 0 ∉ pub) : (pub ++ 0 :: rest).takeWhile (· != 0) = pub := by
    rw [takeWhile_append_of_pos]
    · simp
    · intro x hx
      simpa using fun h0 : x = 0 => hpub (h0 ▸ hx)
  have hwhile := congrArg (takeWhile (· != 0)) heq
  obtain rfl : pubkey = pubkey' := by simpa [regKey, htake, h, h'] using hwhile
  exact ⟨rfl, append_cancel_left heq⟩

theorem allowed_of_found {p : Bytes × Bytes} (h : found s e = some p) :
    s.authz.allowed p.1 = false := by
  unfold found at h
  split at h
  · split at h
    · rw [Option.ite_none_left_eq_some] at h
      obtain ⟨hkey, hp⟩ := h
      cases hp
      exact Bool.eq_false_iff.2 hkey
    · cases h
  · cases h

theorem Placed.mono {early early' : List (Bytes × Bytes)} {ph : Phase}
    (h : Placed outsider early req ph) (hsub : early ⊆ early') :
    Placed outsider early' req ph := by
  cases ph with
  | unknown m | admitted m => exact ⟨h.1, hsub h.2⟩
  | _ => exact h

theorem Orderly.step (h : Orderly outsider Q w) (hG : Guard outsider Q w.state e) :
    Orderly outsider Q (w.step cr e) := by
  have hsub : w.early ⊆ (found w.state e).toList ++ w.early := subset_append_right _ _
  have hearly : ∀ p ∈ (found w.state e).toList ++ w.early, Q p.1 := by
    intro p hp
    rcases mem_append.1 hp with hp | hp
    · exact hG.finds p (Option.mem_toList.1 hp)
    · exact h.early p hp
  have hnoted : ∀ k seen, w.state.authz.preAuthRegs.lookup k = some seen →
      ∃ p ∈ (found w.state e).toList ++ w.early, k = regKey p.1 p.2 ∧ 0 ∉ p.1 := by
    intro k seen hlook
    obtain ⟨p, hp, hk⟩ := h.noted k seen hlook
    exact ⟨p, hsub hp, hk⟩
  have stored {req : ℕ} {ph : Phase}
      (hph : Placed outsider ((found w.state e).toList ++ w.early) req ph) :
      ∀ req' ph', (w.state.requests.insert req ph).lookup req' = some ph' →
        Placed outsider ((found w.state e).toList ++ w.early) req' ph' := by
    intro req' ph' hlook
    rcases lookup_insert_cases hlook with hold | ⟨rfl, rfl⟩
    · exact (h.placed req' ph' hold).mono hsub
    · exact hph
  have erased {req : ℕ} : ∀ req' ph', (w.state.requests.erase req).lookup req' = some ph' →
      Placed outsider ((found w.state e).toList ++ w.early) req' ph' :=
    fun req' ph' hlook => (h.placed req' ph' (lookup_of_erase hlook)).mono hsub
  have heff := step_effect cr w.state e
  unfold Watched.step
  generalize Approval.step cr w.state e = s' at heff ⊢
  cases heff with
  | idle => exact ⟨fun req ph hph => (h.placed req ph hph).mono hsub, hnoted, hearly⟩
  | verified hver =>
    exact ⟨stored (verifyRegistration_proper hver), hnoted, hearly⟩
  | @approved req m hreq hkey =>
    have hreq' : outsider req = false := by
      rw [← Bool.not_eq_true]
      exact fun ho => by simp [hG.outside req m rfl hreq ho] at hkey
    exact ⟨stored ⟨h.placed _ _ hreq, hreq'⟩, hnoted, hearly⟩
  | @unknown req m hreq hkey =>
    have hfound : found w.state (.allow req) = some (m.pubkey, m.nonce) := by
      simp [found, hreq, hkey]
    refine ⟨stored ⟨h.placed _ _ hreq, mem_append_left _ ?_⟩, hnoted, hearly⟩
    rw [hfound]
    exact mem_singleton.2 rfl
  | vetted hreq | admitted hreq =>
    have hsame := (h.placed _ _ hreq).mono hsub
    exact ⟨stored hsame, hnoted, hearly⟩
  | stale | limited => exact ⟨erased, hnoted, hearly⟩
  | @checked req now order m hreq =>
    exact ⟨erased, fun k seen hlook => hnoted k seen (Authorizer.lookup_of_replayed hlook), hearly⟩
  | @recorded req now order m hreq =>
    refine ⟨erased, fun k seen hlook => ?_, hearly⟩
    rcases Authorizer.lookup_of_recordPreAuth hlook with hold | ⟨rfl, -⟩
    · exact hnoted k seen hold
    · obtain ⟨hm, hin⟩ := h.placed _ _ hreq
      exact ⟨_, hsub hin, rfl, hm.1⟩
  | @polled stat file now =>
    refine ⟨fun req ph hph => (h.placed req ph hph).mono hsub, ?_, hearly⟩
    rw [(w.state.authz.pollOnce_frame now stat file).2.1]
    exact hnoted

/-- The nonce of a registration that was not presented early is not among those of unapproved
keys. -/
theorem Orderly.not_fresh (h : Orderly outsider Q w) {m : Message} (hm : Proper m)
    (hnew : (m.pubkey, m.nonce) ∉ w.early) (now : ℤ) :
    fresh w.state.authz.preAuthRegs now (regKey m.pubkey m.nonce) = false := by
  refine fresh_eq_false (fun seen hlook => ?_) now
  obtain ⟨⟨pubkey, nonce⟩, hp, hk, hz⟩ := h.noted _ _ hlook
  obtain ⟨rfl, rfl⟩ := regKey_inj hm.1 hz hk
  exact hnew hp

theorem step_other (h : e.request ≠ some req) :
    (step cr s e).requests.lookup req = s.requests.lookup req := by
  have heff := step_effect cr s e
  generalize step cr s e = s' at heff ⊢
  cases heff with
  | idle => rfl
  | polled => rfl
  | stale | checked | limited | recorded => exact AList.lookup_erase_ne fun heq => h (heq ▸ rfl)
  | _ => exact AList.lookup_insert_ne fun heq => h (heq ▸ rfl)

/-- Requests do not change the allowlist. -/
theorem step_view (hreq : e.request = some req) : SameView (step cr s e).authz s.authz := by
  have heff := step_effect cr s e
  generalize step cr s e = s' at heff ⊢
  cases heff with
  | @checked _ now order m _ =>
    rcases s.authz.replayed_frame now order m.pubkey m.nonce with hsame | ⟨pre, -, hnew⟩
    · rw [hsame]
      exact ⟨rfl, rfl, rfl⟩
    · rw [hnew]
      exact ⟨rfl, rfl, rfl⟩
  | @recorded _ now order m _ =>
    rcases s.authz.recordPreAuth_cases now order m.pubkey m.nonce with hsame | ⟨-, hnew⟩
    · rw [hsame]
      exact ⟨rfl, rfl, rfl⟩
    · rw [hnew]
      exact ⟨rfl, rfl, rfl⟩
  | polled => cases hreq
  | _ => exact ⟨rfl, rfl, rfl⟩

section

variable {a b : Authorizer}

theorem SameView.trans {c : Authorizer} (h : SameView a b) (h' : SameView b c) : SameView a c :=
  ⟨h.keys.trans h'.keys, h.mtime.trans h'.mtime, h.approvedAt.trans h'.approvedAt⟩

theorem SameView.symm (h : SameView a b) : SameView b a :=
  ⟨h.keys.symm, h.mtime.symm, h.approvedAt.symm⟩

theorem SameView.pollOnce (h : SameView a b) (stat : Authorizer.Stat)
    (file : Authorizer.FileRead) (now : ℤ) :
    SameView (a.pollOnce stat file now) (b.pollOnce stat file now) := by
  unfold Authorizer.pollOnce
  cases stat with
  | gone => exact ⟨rfl, rfl, h.approvedAt⟩
  | failed => exact h
  | modified mtime =>
    dsimp only
    rw [h.mtime]
    split_ifs
    · exact h
    · cases file with
      | gone => exact ⟨rfl, rfl, rfl⟩
      | failed => exact h
      | content keys mtime =>
        refine ⟨rfl, rfl, ?_⟩
        simp only [Authorizer.load, h.approvedAt]

end

/-! ### The two runs -/

theorem SameRequest.vetted {o o' : Option Phase} (h : SameRequest o o') {m : Message}
    (ho : o = some (.vetted m)) : o' = some (.vetted m) := by
  rcases h with rfl | ⟨hen, -⟩
  · exact ho
  · rw [ho] at hen
    exact hen.elim

theorem SameRequest.symm {o o' : Option Phase} (h : SameRequest o o') : SameRequest o' o :=
  h.imp Eq.symm And.symm

theorem Enrolled.step (h : Enrolled (s.requests.lookup req)) (hreq : e.request = some req)
    (hnot : ∀ now m, e ≠ .verify req now m) :
    Enrolled ((step cr s e).requests.lookup req) := by
  cases e with
  | verify req' now m =>
    obtain rfl := Option.some.inj hreq
    exact absurd rfl (hnot now m)
  | poll => cases hreq
  | _ =>
    obtain rfl := Option.some.inj hreq
    rcases ho : s.requests.lookup _ with _ | _ | _ | _ | _ | _ <;> rw [ho] at h <;>
      simp [Approval.step, ho, Enrolled] at h ⊢

theorem SameRequest.verify {now : ℤ} {m : Message}
    (h : SameRequest (s.requests.lookup req) (f.requests.lookup req)) (hin : outsider req = false)
    (hs : namedAnew outsider s (.verify req now m) = true)
    (hf : namedAnew outsider f (.verify req now m) = true) :
    SameRequest ((step cr s (.verify req now m)).requests.lookup req)
      ((step cr f (.verify req now m)).requests.lookup req) := by
  have hmem : req ∈ s.requests ↔ req ∈ f.requests := by
    rw [← AList.lookup_isSome, ← AList.lookup_isSome]
    rcases h with heq | ⟨hes, hef⟩
    · rw [heq]
    · -- a number that is in use would be that of a request that waits to be recorded
      simp only [namedAnew] at hs hf
      revert hes hef hs hf
      rcases s.requests.lookup req with _ | _ | _ | _ | _ | _ <;>
        rcases f.requests.lookup req with _ | _ | _ | _ | _ | _ <;> simp [Enrolled, hin]
  simp only [Approval.step, hmem]
  split_ifs
  · exact h
  · rw [AList.lookup_insert, AList.lookup_insert]
    exact Or.inl rfl

/-- A request goes on in the same way in both runs. -/
theorem SameRequest.step (h : SameRequest (s.requests.lookup req) (f.requests.lookup req))
    (hview : SameView s.authz f.authz) (hreq : e.request = some req) (hin : outsider req = false)
    (hs : namedAnew outsider s e = true) (hf : namedAnew outsider f e = true) :
    SameRequest ((step cr s e).requests.lookup req) ((step cr f e).requests.lookup req) := by
  by_cases hverify : ∃ now m, e = .verify req now m
  · obtain ⟨now, m, rfl⟩ := hverify
    exact h.verify hin hs hf
  have hnot : ∀ now m, e ≠ .verify req now m := fun now m he => hverify ⟨now, m, he⟩
  rcases h with heq | ⟨hes, hef⟩
  · cases e with
    | verify req' now m =>
      obtain rfl := Option.some.inj hreq
      exact absurd rfl (hnot now m)
    | poll => cases hreq
    | allow =>
      obtain rfl := Option.some.inj hreq
      simp only [Approval.step, ← heq]
      split
      · have hallowed : ∀ k, s.authz.allowed k = f.authz.allowed k := fun k => by
          rw [Authorizer.allowed, hview.keys, Authorizer.allowed]
        rw [AList.lookup_insert, AList.lookup_insert, hallowed]
        exact Or.inl rfl
      · exact Or.inl heq
    | vet =>
      obtain rfl := Option.some.inj hreq
      simp only [Approval.step, ← heq]
      split
      · have hsince : ∀ k ts,
            s.authz.freshSinceApproval k ts = f.authz.freshSinceApproval k ts := fun k ts => by
          rw [Authorizer.freshSinceApproval, hview.approvedAt, Authorizer.freshSinceApproval]
        rw [hsince]
        split_ifs
        · rw [AList.lookup_insert, AList.lookup_insert]
          exact Or.inl rfl
        · rw [AList.lookup_erase, AList.lookup_erase]
          exact Or.inl rfl
      · exact Or.inl heq
    | enroll =>
      obtain rfl := Option.some.inj hreq
      simp only [Approval.step, ← heq]
      split
      · -- the limiter may admit the one and not the other
        refine Or.inr ⟨?_, ?_⟩ <;> dsimp only <;> split_ifs <;> simp [Enrolled]
      · exact Or.inl heq
    | check | record =>
      obtain rfl := Option.some.inj hreq
      simp only [Approval.step, ← heq]
      split
      · rw [AList.lookup_erase, AList.lookup_erase]
        exact Or.inl rfl
      · exact Or.inl heq
  · exact Or.inr ⟨hes.step hreq hnot, hef.step hreq hnot⟩

theorem Alike.swap (h : Alike outsider C s f) : Alike outsider (flip C) f s :=
  ⟨h.view.symm, h.recentRegs, fun req hin => (h.requests req hin).symm⟩

/-- **A step of an outsider** is not seen in the other run, and gets no verdict. -/
theorem Alike.hidden (h : Alike outsider C w.state f) (ho : Orderly outsider Q w)
    (he : apartFrom outsider e = false) :
    Alike outsider C (step cr w.state e) f ∧ verdict w.state e = none := by
  obtain ⟨req, hreq, hout⟩ : ∃ req, e.request = some req ∧ outsider req = true := by
    unfold apartFrom at he
    cases hreq : e.request with
    | none => simp [hreq] at he
    | some req => exact ⟨req, rfl, by simpa [hreq] using he⟩
  obtain ⟨hrecent, hverdict⟩ : (step cr w.state e).authz.recentRegs = w.state.authz.recentRegs ∧
      verdict w.state e = none := by
    rcases step_recentRegs cr w.state e with hnone | ⟨req', now, order, m, rfl, hvet, -⟩
    · exact hnone
    · obtain ⟨-, hin⟩ := ho.placed _ _ hvet
      obtain rfl : req' = req := Option.some.inj hreq
      simp [hout] at hin
  refine ⟨⟨(step_view hreq).trans h.view, hrecent ▸ h.recentRegs, fun req' hin => ?_⟩, hverdict⟩
  rw [step_other]
  · exact h.requests req' hin
  · rintro heq
    rw [hreq] at heq
    obtain rfl := Option.some.inj heq
    simp [hout] at hin

/-- **A step of anybody else** is the same in both runs, if the replay caches stay in their
relation when it is a replay check. -/
theorem Alike.visible (h : Alike outsider C s f) (he : apartFrom outsider e = true)
    (hs : namedAnew outsider s e = true) (hf : namedAnew outsider f e = true)
    (hC : ∀ req now order m, e = .check req now order →
      s.requests.lookup req = some (.vetted m) → f.requests.lookup req = some (.vetted m) →
      C (s.authz.replayed m.pubkey m.nonce now order).1.recentRegs
        (f.authz.replayed m.pubkey m.nonce now order).1.recentRegs) :
    Alike outsider C (step cr s e) (step cr f e) := by
  cases hreq : e.request with
  | none =>
    cases e with
    | poll stat file now =>
      refine ⟨h.view.pollOnce stat file now, ?_, h.requests⟩
      show C (s.authz.pollOnce stat file now).recentRegs (f.authz.pollOnce stat file now).recentRegs
      rw [(s.authz.pollOnce_frame now stat file).1, (f.authz.pollOnce_frame now stat file).1]
      exact h.recentRegs
    | _ => cases hreq
  | some req =>
    have hin : outsider req = false := by simpa [apartFrom, hreq] using he
    refine ⟨(step_view hreq).trans (h.view.trans (step_view hreq).symm), ?_, fun req' hin' => ?_⟩
    · rcases step_recentRegs cr s e with ⟨hsame, hnone⟩ | ⟨req', now, order, m, rfl, hvet, hnew, -⟩
      · rcases step_recentRegs cr f e with ⟨hsame', -⟩ | ⟨req', now, order, m, rfl, hvet, -⟩
        · rw [hsame, hsame']
          exact h.recentRegs
        · obtain rfl : req' = req := Option.some.inj hreq
          simp [verdict, (h.requests req' hin).symm.vetted hvet] at hnone
      · obtain rfl : req' = req := Option.some.inj hreq
        have hvet' := (h.requests req' hin).vetted hvet
        rw [hnew, show (step cr f (.check req' now order)).authz =
          (f.authz.replayed m.pubkey m.nonce now order).1 by simp [step, hvet']]
        exact hC req' now order m rfl hvet hvet'
    · by_cases hother : req' = req
      · subst hother
        exact (h.requests req' hin).step h.view hreq hin hs hf
      · have hne : e.request ≠ some req' := fun heq =>
          hother (Option.some.inj (heq.symm.trans hreq))
        rw [step_other hne, step_other hne]
        exact h.requests req' hin'

theorem verdict_of_vetted {m : Message} {now : ℤ} {order : List Bytes}
    (h : s.requests.lookup req = some (.vetted m)) : verdict s (.check req now order) =
      some ⟨m, now, (s.authz.replayed m.pubkey m.nonce now order).2⟩ := by
  rw [verdict, h]

theorem Enrolled.verdict (h : Enrolled (s.requests.lookup req)) (now : ℤ) (order : List Bytes) :
    verdict s (.check req now order) = none := by
  rcases ho : s.requests.lookup req with _ | _ | _ | _ | _ | _ <;> rw [ho] at h <;>
    simp [Approval.verdict, ho, Enrolled] at h ⊢

theorem Alike.verdict_eq (h : Alike outsider C s f) (he : apartFrom outsider e = true)
    {p : Message → Bool} (hsame : ∀ req now order m, e = .check req now order →
      s.requests.lookup req = some (.vetted m) → f.requests.lookup req = some (.vetted m) →
      p m = true → (s.authz.replayed m.pubkey m.nonce now order).2 =
        (f.authz.replayed m.pubkey m.nonce now order).2) :
    (verdict s e).filter (fun v => p v.msg) = (verdict f e).filter fun v => p v.msg := by
  cases e with
  | check req now order =>
    have hin : outsider req = false := by simpa [apartFrom, Event.request] using he
    rcases h.requests req hin with heq | ⟨hes, hef⟩
    · simp only [verdict, ← heq]
      split
      · next m hvet =>
        cases hp : p m with
        | true => rw [hsame req now order m rfl hvet (heq ▸ hvet) hp]
        | false => simp [Option.filter, hp]
      · rfl
    · rw [hes.verdict, hef.verdict]
  | _ => rfl

/-! ### Non-interference -/

/-- What two runs have in common of which nothing is hidden but the requests of outsiders. -/
structure Unwinds (outsider : ℕ → Bool) (Q : Bytes → Prop) (C : NonceCache → NonceCache → Prop)
    (w w' : Watched) : Prop where
  orderly : Orderly outsider Q w
  orderly' : Orderly outsider Q w'
  alike : Alike outsider C w.state w'.state

variable {file : Authorizer.FileRead} {start : ℤ}

theorem new_unwinds (hC : C ∅ ∅) :
    Unwinds outsider Q C ⟨State.new file start, []⟩ ⟨State.new file start, []⟩ := by
  have ho : Orderly outsider Q ⟨State.new file start, []⟩ := by
    refine ⟨fun req ph h => by simp [State.new] at h, fun k seen h => ?_, fun p hp => by cases hp⟩
    cases file <;> simp [State.new, Authorizer.load, Authorizer.blank] at h
  refine ⟨ho, ho, ⟨rfl, rfl, rfl⟩, ?_, fun _ _ => Or.inl rfl⟩
  cases file <;> exact hC

/-- The verdicts about some of the messages are the same, if a replay check keeps the replay caches
in relation and says the same in both runs whenever it is about such a message. -/
theorem verdicts_unwind {H : Watched → Event → Prop} {p : Message → Bool} (hC : C ∅ ∅)
    (hcheck : ∀ w w' req now order m, Unwinds outsider Q C w w' → Proper m →
      w.state.requests.lookup req = some (.vetted m) →
      w'.state.requests.lookup req = some (.vetted m) →
      H w (.check req now order) → H w' (.check req now order) →
      C (w.state.authz.replayed m.pubkey m.nonce now order).1.recentRegs
          (w'.state.authz.replayed m.pubkey m.nonce now order).1.recentRegs ∧
        (p m = true → (w.state.authz.replayed m.pubkey m.nonce now order).2 =
          (w'.state.authz.replayed m.pubkey m.nonce now order).2))
    {es es' : List Event} (hsame : es.filter (apartFrom outsider) = es'.filter (apartFrom outsider))
    (hG : ∀ run ∈ [es, es'], Along (step cr) (Guard outsider Q) (State.new file start) run ∧
      Along (Watched.step cr) H ⟨State.new file start, []⟩ run) :
    (verdicts cr (State.new file start) es).filter (fun v => p v.msg) =
      (verdicts cr (State.new file start) es').filter fun v => p v.msg := by
  have hstate : ∀ w e, (Watched.step cr w e).state = step cr w.state e := fun _ _ => rfl
  have hrun : ∀ run ∈ [es, es'], Along (Watched.step cr)
      (fun w e => Guard outsider Q w.state e ∧ H w e) ⟨State.new file start, []⟩ run :=
    fun run hmem => ((along_proj hstate).2 (hG run hmem).1).and (hG run hmem).2
  have hproj : ∀ run, (verdicts cr (State.new file start) run).filter (fun v => p v.msg) =
      trace (Watched.step cr) (fun w e => (verdict w.state e).filter fun v => p v.msg)
        ⟨State.new file start, []⟩ run := fun run => by
    rw [verdicts, filter_trace]
    exact (trace_proj hstate (fun s e => (verdict s e).filter fun v => p v.msg)
      ⟨State.new file start, []⟩ run).symm
  rw [hproj, hproj]
  refine trace_unwind (R := Unwinds outsider Q C) ?_ ?_ ?_ (new_unwinds hC) hsame
    (hrun es (by simp)) (hrun es' (by simp))
  · rintro w w' e h ⟨hguard, -⟩ he
    obtain ⟨hnext, hnone⟩ : Alike outsider C (step cr w.state e) w'.state ∧ _ :=
      h.alike.hidden h.orderly he
    exact ⟨⟨h.orderly.step hguard, h.orderly', hnext⟩, by rw [hnone]; rfl⟩
  · rintro w w' e h ⟨hguard, -⟩ he
    obtain ⟨hnext, hnone⟩ : Alike outsider (flip C) (step cr w'.state e) w.state ∧ _ :=
      h.alike.swap.hidden h.orderly' he
    exact ⟨⟨h.orderly, h.orderly'.step hguard, hnext.swap⟩, by rw [hnone]; rfl⟩
  · rintro w w' e h ⟨hguard, hH⟩ ⟨hguard', hH'⟩ he
    have hrel := fun req now order m (heq : e = .check req now order) hvet hvet' =>
      hcheck w w' req now order m h (h.orderly.placed req (.vetted m) hvet).1 hvet hvet'
        (heq ▸ hH) (heq ▸ hH')
    refine ⟨⟨h.orderly.step hguard, h.orderly'.step hguard', ?_⟩, ?_⟩
    · exact h.alike.visible he hguard.named hguard'.named fun req now order m he hvet hvet' =>
        (hrel req now order m he hvet hvet').1
    · exact h.alike.verdict_eq he fun req now order m he hvet hvet' =>
        (hrel req now order m he hvet hvet').2

theorem verified_run (hs : s.requests = ∅) (es : List Event) : ∀ req ph,
    (run (step cr) s es).requests.lookup req = some ph →
      ∃ now, Event.verify req now ph.msg ∈ es := by
  refine history_run (P := fun log (s : State) => ∀ req ph,
    s.requests.lookup req = some ph → ∃ now, Event.verify req now ph.msg ∈ log) ?_ ?_ es
  · intro req ph h
    rw [hs] at h
    cases h
  · intro log e ih req ph h
    rcases step_request h with ⟨ph', hold, hmsg⟩ | ⟨now, rfl, -⟩
    · obtain ⟨now, hmem⟩ := ih req ph' hold
      exact ⟨now, mem_append_left _ (hmsg ▸ hmem)⟩
    · exact ⟨now, mem_append_right _ (mem_singleton.2 rfl)⟩

/-- The guard of a run in which the keys in `Q` are the only ones found unapproved. -/
theorem guard_along {es : List Event} (hout : Unapproved cr (State.new file start) outsider es)
    (hnamed : Along (step cr) (fun s e => namedAnew outsider s e = true)
      (State.new file start) es)
    (hfinds : Along (step cr) (fun s e => ∀ p ∈ found s e, Q p.1)
      (State.new file start) es) :
    Along (step cr) (Guard outsider Q) (State.new file start) es := by
  have houtside : Along (step cr) (fun s e => ∀ req m, e = .allow req →
      s.requests.lookup req = some (.verified m) → outsider req = true →
      s.authz.allowed m.pubkey = false) (State.new file start) es := by
    refine along_of_prefixes fun log e hp req m _ hreq ho => ?_
    have hlog : log <+: es := (prefix_append log [e]).trans hp
    obtain ⟨now, hmem⟩ := verified_run rfl log req _ hreq
    exact hout req now m (hlog.subset hmem) ho log hlog
  refine ((houtside.and hnamed).and hfinds).mono ?_
  rintro s e ⟨⟨hkey, hname⟩, hfind⟩
  exact ⟨hkey, hname, hfind⟩

/-- The replay cache after a replay check. -/
theorem replayed_recentRegs (a : Authorizer) {m : Message} (hm : Proper m) (now : ℤ)
    (order : List Bytes) : (a.replayed m.pubkey m.nonce now order).1.recentRegs =
      if (a.replayed m.pubkey m.nonce now order).2 then a.recentRegs
      else (NonceCache.makeRoom a.recentRegs now order).insert (regKey m.pubkey m.nonce) now := by
  rcases a.replayed_cases now order hm.2.1 hm.2.2 with ⟨-, hrep⟩ | ⟨-, hrep⟩
  · rw [hrep]
    rfl
  · obtain ⟨pre, -, hroom⟩ := a.makeRoom_frame now order
    rw [hrep, hroom]
    rfl

section

variable {es es' : List Event}
  (hsame : es.filter (apartFrom outsider) = es'.filter (apartFrom outsider))
  (hG : ∀ run ∈ [es, es'], Unapproved cr (State.new file start) outsider run ∧
    Along (step cr) (fun s e => namedAnew outsider s e = true) (State.new file start) run)
include hsame hG

/-- Registrations that do not return: the replay caches are the same, and so are all verdicts. -/
theorem verdicts_of_noReturn
    (hreturn : ∀ run ∈ [es, es'],
      Along (Watched.step cr) Watched.NoReturn ⟨State.new file start, []⟩ run) :
    verdicts cr (State.new file start) es = verdicts cr (State.new file start) es' := by
  have hall := @verdicts_unwind cr outsider (fun _ => True) Eq file start Watched.NoReturn
    (fun _ => true) rfl ?_ es es' hsame fun run hrun => ?_
  · simpa using hall
  · intro w w' req now order m h hm hvet hvet' hnew hnew'
    have hv := hnew _ (verdict_of_vetted hvet)
    have hv' := hnew' _ (verdict_of_vetted hvet')
    have hsnd : (w.state.authz.replayed m.pubkey m.nonce now order).2 =
        (w'.state.authz.replayed m.pubkey m.nonce now order).2 := by
      rw [Authorizer.replayed_snd _ _ _ hm.2.1 hm.2.2, Authorizer.replayed_snd _ _ _ hm.2.1 hm.2.2,
        h.orderly.not_fresh hm hv, h.orderly'.not_fresh hm hv', h.alike.recentRegs]
    refine ⟨?_, fun _ => hsnd⟩
    rw [replayed_recentRegs _ hm, replayed_recentRegs _ hm, hsnd, h.alike.recentRegs]
  · obtain ⟨hout, hnamed⟩ := hG run hrun
    exact ⟨guard_along hout hnamed (along_of_forall fun _ _ _ _ _ => trivial),
      hreturn run hrun⟩

/-- The replay cache is never full: the entries of a key that is approved throughout are the same,
and so are the verdicts about it. -/
theorem verdicts_of_room {K : Bytes}
    (hroom : ∀ run ∈ [es, es'],
      Along (step cr) (fun s _ => RoomForReplays s) (State.new file start) run)
    (hK : ∀ run ∈ [es, es'], Throughout (step cr) (fun s => s.authz.allowed K = true)
      (State.new file start) run) :
    (verdicts cr (State.new file start) es).filter (·.msg.pubkey == K) =
      (verdicts cr (State.new file start) es').filter (·.msg.pubkey == K) := by
  refine @verdicts_unwind cr outsider (· ≠ K)
    (fun c c' => 0 ∉ K → ∀ n, c.lookup (regKey K n) = c'.lookup (regKey K n)) file start
    (fun w _ => RoomForReplays w.state) (·.pubkey == K) (fun _ _ => rfl) ?_ es es' hsame
    fun run hrun => ?_
  · intro w w' req now order m h hm hvet hvet' hroom hroom'
    have hsnd : m.pubkey = K → (w.state.authz.replayed m.pubkey m.nonce now order).2 =
        (w'.state.authz.replayed m.pubkey m.nonce now order).2 := by
      rintro rfl
      have hlook := h.alike.recentRegs hm.1 m.nonce
      rw [Authorizer.replayed_snd _ _ _ hm.2.1 hm.2.2, Authorizer.replayed_snd _ _ _ hm.2.1 hm.2.2,
        h.orderly.not_fresh hm fun hin => h.orderly.early _ hin rfl,
        h.orderly'.not_fresh hm fun hin => h.orderly'.early _ hin rfl, fresh, fresh, hlook]
    have hkeep : ∀ c : NonceCache, c.keys.length < maxReplayRegs →
        NonceCache.makeRoom c now order = c := fun c hc => if_neg (not_le.2 hc)
    refine ⟨fun hzero n => ?_, fun hp => hsnd (beq_iff_eq.1 hp)⟩
    have hlook := h.alike.recentRegs hzero n
    rw [replayed_recentRegs _ hm, replayed_recentRegs _ hm, hkeep _ hroom, hkeep _ hroom']
    by_cases hpair : regKey K n = regKey m.pubkey m.nonce
    · rw [hsnd (regKey_inj hzero hm.1 hpair).1.symm, hpair]
      split_ifs
      · rwa [hpair] at hlook
      · rw [AList.lookup_insert, AList.lookup_insert]
    · split_ifs
      · exact hlook
      · rwa [AList.lookup_insert_ne hpair]
      · rwa [AList.lookup_insert_ne hpair]
      · rwa [AList.lookup_insert_ne hpair, AList.lookup_insert_ne hpair]
  · obtain ⟨hout, hnamed⟩ := hG run hrun
    have hstate : ∀ w e, (Watched.step cr w e).state = step cr w.state e := fun _ _ => rfl
    refine ⟨guard_along hout hnamed ((hK run hrun).along.mono ?_),
      (along_proj (G := fun s _ => RoomForReplays s) hstate).2 (hroom run hrun)⟩
    rintro s e hallowed p hp rfl
    rw [allowed_of_found hp] at hallowed
    cases hallowed

end

/-- **Outsiders do not influence replay verdicts.** In every run the caches stay within their caps
and neither insertion takes an unexpired entry from the other. Take two runs that differ only in
requests of keys that are unapproved throughout. All verdicts are the same if no registration that
is presented while its key is unapproved comes to a replay check later; and those about a key that
is approved throughout are the same if the replay cache is not full. -/
theorem outsiders_do_not_interfere (cr : Crypto) (file : Authorizer.FileRead) (start : ℤ) :
    (∀ es,
      Throughout (step cr) (fun s => Bounded s ∧ Apart cr s) (State.new file start) es) ∧
    ∀ (outsider : ℕ → Bool) (es es' : List Event),
      es.filter (apartFrom outsider) = es'.filter (apartFrom outsider) →
      (∀ run ∈ [es, es'], Unapproved cr (State.new file start) outsider run ∧
        Along (step cr) (fun s e => namedAnew outsider s e = true)
          (State.new file start) run) →
      ((∀ run ∈ [es, es'],
          Along (Watched.step cr) Watched.NoReturn ⟨State.new file start, []⟩ run) →
        verdicts cr (State.new file start) es = verdicts cr (State.new file start) es') ∧
      ((∀ run ∈ [es, es'],
          Along (step cr) (fun s _ => RoomForReplays s) (State.new file start) run) →
        ∀ K, (∀ run ∈ [es, es'], Throughout (step cr)
            (fun s => s.authz.allowed K = true) (State.new file start) run) →
          (verdicts cr (State.new file start) es).filter (·.msg.pubkey == K) =
            (verdicts cr (State.new file start) es').filter (·.msg.pubkey == K)) := by
  refine ⟨fun es pre hpre => ⟨?_, apart cr _⟩, fun outsider es es' hsame hG => ?_⟩
  · refine invariant_run (fun s e h => h.step e) ?_ pre
    cases file <;> exact ⟨Nat.zero_le _, Nat.zero_le _⟩
  · exact ⟨verdicts_of_noReturn hsame hG, fun hroom K hK => verdicts_of_room hsame hG hroom hK⟩

namespace Runs

open Sample

/-- A nonce for each number below 65536. -/
def numberedNonce (i : ℕ) : Bytes :=
  rawURLEncoding.encode (replicate 14 0 ++ [UInt8.ofNat (i / 256), UInt8.ofNat i])

/-- A registration with the timestamp 110 s and a numbered nonce. -/
def numbered (k : UInt8) (i : ℕ) : Message :=
  { registration k (lit "idA") 110 [] with nonce := numberedNonce i }

/-- Registrations of an approved key, with the nonces `1` to `n`. -/
def fill : ℕ → List Event
  | 0 => []
  | n + 1 => fill n ++ arrive 0 103 (home 2) (numbered 2 (n + 1))

/-- An outsider uses up what the enrollment limiter grants to the source of the third key. -/
def strangers : List Event :=
  arrive 1 100 (home 3) (numbered 4 0) ++ arrive 1 100 (home 3) (numbered 4 1) ++
    arrive 1 100 (home 3) (numbered 4 2) ++ arrive 1 100 (home 3) (numbered 4 3)

/-- The third key registers and is approved. -/
def approval : List Event :=
  arrive 0 100 (home 3) (numbered 3 0) ++
    [.poll (.modified 2) (allowlist [2, 3] 2) (101 * 1000000000)]

/-- The second key fills the replay cache. The registration from before the approval comes again,
and then the first one of the second key. -/
def crowd : List Event :=
  arrive 0 102 (home 2) (numbered 2 0) ++ fill 4095 ++ arrive 0 104 (home 3) (numbered 3 0) ++
    arrive 0 105 (home 2) (numbered 2 0)

theorem numberedNonce_inj {i j : ℕ} (hi : i < 65536) (hj : j < 65536)
    (h : numberedNonce i = numberedNonce j) : i = j := by
  have hraw := Encoding.encode_injective (Or.inr rfl) h
  simp only [append_cancel_left_eq, cons.injEq, and_true] at hraw
  have hhigh := congrArg UInt8.toNat hraw.1
  have hlow := congrArg UInt8.toNat hraw.2
  simp only [UInt8.toNat_ofNat'] at hhigh hlow
  omega

theorem key_zero_notMem (k : UInt8) : 0 ∉ key k :=
  Encoding.zero_notMem_of_decode (.inl rfl) (Encoding.decode_encode (.inl rfl) _)

theorem verify_numbered (k : UInt8) (i : ℕ) {sec : ℤ} (h : 50 ≤ sec) (h' : sec ≤ 170) :
    verifyRegistration crypto (instant (sec * 1000000000)).verify (numbered k i) = true := by
  have hnonce : validNonce (numberedNonce i) = true := by
    have hdec : rawURLEncoding.decode (numberedNonce i) =
        some (replicate 14 0 ++ [UInt8.ofNat (i / 256), UInt8.ofNat i]) :=
      Encoding.decode_encode (.inr rfl) _
    unfold numberedNonce at hdec
    unfold validNonce numberedNonce
    rw [hdec]
    rfl
  have hpub : stdEncoding.decode (key k) = some (replicate 32 k) :=
    Encoding.decode_encode (.inl rfl) _
  have hsig : stdEncoding.decode (stdEncoding.encode (replicate 64 k)) =
      some (replicate 64 k) := Encoding.decode_encode (.inl rfl) _
  have hverify : crypto.ed25519Verify (replicate 32 k) (registrationPayload (numbered k i))
      (replicate 64 k) = true := by
    simp [crypto]
  unfold verifyRegistration
  simp only [numbered, registration, instant] at hverify ⊢
  simp only [hnonce, hpub, hsig, hverify, regSkew, publicKeySize, signatureSize,
    length_replicate, Bool.and_eq_true, beq_self_eq_true, and_true, true_and]
  refine ⟨decide_eq_true ?_, decide_eq_true ?_⟩
  · omega
  · omega

/-- The key a nonce of the second key is stored under. -/
def entry (i : ℕ) : Bytes := regKey (key 2) (numberedNonce i)

theorem entry_inj {i j : ℕ} (hi : i < 65536) (hj : j < 65536) (h : entry i = entry j) : i = j := by
  exact numberedNonce_inj hi hj (append_cancel_left h)

/-- What holds from the approval on: both keys are approved, and no nonce of the second key comes
from before. -/
structure Settled (a : Authorizer) : Prop where
  second : a.allowed (key 2) = true ∧ a.freshSinceApproval (key 2) 110 = true
  third : a.allowed (key 3) = true ∧ a.freshSinceApproval (key 3) 110 = true
  notes : ∀ k ∈ a.preAuthRegs.keys, ¬ key 2 <+: k

/-- The replay cache after the first registration and `n` more. -/
structure Filled (n : ℕ) (c : NonceCache) : Prop where
  size : c.keys.length = n + 1
  first : c.lookup (entry 0) = some (102 * 1000000000)
  later : ∀ k seen, c.lookup k = some seen →
    k = entry 0 ∨ seen = 103 * 1000000000 ∧ ∃ i, i ≤ n ∧ k = entry i

variable {a : Authorizer}

theorem Settled.not_fresh (h : Settled a) (now : ℤ) (i : ℕ) :
    fresh a.preAuthRegs now (entry i) = false :=
  fresh_eq_false (fun _ hlook => h.notes _ (mem_keys_of_lookup hlook) (prefix_append _ _)) now

variable {n : ℕ} {c : NonceCache}

theorem Filled.exists_entry (h : Filled n c) {k : Bytes} {seen : ℤ}
    (hlook : c.lookup k = some seen) : ∃ i ≤ n, k = entry i := by
  rcases h.later k seen hlook with rfl | ⟨-, hi⟩
  · exact ⟨0, Nat.zero_le n, rfl⟩
  · exact hi

theorem Filled.lookup_succ (h : Filled n c) (hn : n + 1 < 65536) (seen : ℤ) :
    c.lookup (entry (n + 1)) ≠ some seen := by
  intro hlook
  obtain ⟨i, hi, heq⟩ := h.exists_entry hlook
  have := entry_inj hn (by omega) heq
  omega

theorem Filled.insert (h : Filled n c) (hn : n + 1 < 65536) :
    Filled (n + 1) (c.insert (entry (n + 1)) (103 * 1000000000)) := by
  have hnot : entry (n + 1) ∉ c :=
    AList.lookup_eq_none.1 (Option.eq_none_iff_forall_ne_some.2 (h.lookup_succ hn))
  have hne : entry 0 ≠ entry (n + 1) := fun heq => by
    have := entry_inj (by omega) hn heq
    omega
  refine ⟨?_, ?_, fun k seen hlook => ?_⟩
  · rw [AList.keys, AList.entries_insert_of_notMem hnot]
    exact congrArg (· + 1) h.size
  · rw [AList.lookup_insert_ne hne, h.first]
  · rcases lookup_insert_cases hlook with hold | ⟨rfl, rfl⟩
    · refine (h.later k seen hold).imp_right fun ⟨hseen, i, hi, hk⟩ => ⟨hseen, i, by omega, hk⟩
    · exact .inr ⟨rfl, n + 1, le_rfl, rfl⟩

theorem arrive_approved {k : UInt8} (i : ℕ) (sec : ℤ) (src : UDPAddr) (hsec : 50 ≤ sec ∧ sec ≤ 170)
    (hkey : a.allowed (key k) = true ∧ a.freshSinceApproval (key k) 110 = true) :
    run (step crypto) ⟨a, ∅⟩ (arrive 0 sec src (numbered k i)) =
        ⟨(a.replayed (key k) (numberedNonce i) (sec * 1000000000) []).1, ∅⟩ ∧
      verdicts crypto ⟨a, ∅⟩ (arrive 0 sec src (numbered k i)) = [⟨numbered k i, sec * 1000000000,
          (a.replayed (key k) (numberedNonce i) (sec * 1000000000) []).2⟩] := by
  have hver := verify_numbered k i hsec.1 hsec.2
  have hfree : 0 ∉ (⟨a, ∅⟩ : State).requests := AList.notMem_empty 0
  have hrun := (sections_authorize (instant (sec * 1000000000)) [] src hfree hver).1
  rw [Authorizer.authorize_approved _ _ _ hkey.1 hkey.2] at hrun
  exact ⟨hrun, sections_verdicts (instant (sec * 1000000000)) [] src hfree hver hkey.1 hkey.2⟩

theorem key_ne_nil (k : UInt8) : key k ≠ [] := by
  intro hnil
  have hdec : stdEncoding.decode (key k) = some (replicate 32 k) :=
    Encoding.decode_encode (.inl rfl) _
  rw [hnil] at hdec
  simp [Encoding.decode, Encoding.decodeQuanta] at hdec

theorem numberedNonce_ne_nil (i : ℕ) : numberedNonce i ≠ [] := by
  exact cons_ne_nil _ _

section

variable (h : Settled a)
include h

theorem Settled.insert (c : NonceCache) :
    Settled { a with recentRegs := c } := ⟨h.second, h.third, h.notes⟩

/-- A nonce of the second key that is not known is recorded while there is room. -/
theorem Settled.record {i : ℕ} {sec : ℤ} (hsec : 50 ≤ sec ∧ sec ≤ 170)
    (hnot : ∀ seen, a.recentRegs.lookup (entry i) ≠ some seen)
    (hroom : a.recentRegs.keys.length < maxReplayRegs) :
    run (step crypto) ⟨a, ∅⟩ (arrive 0 sec (home 2) (numbered 2 i)) =
      ⟨{ a with recentRegs := a.recentRegs.insert (entry i) (sec * 1000000000) }, ∅⟩ := by
  rw [(arrive_approved i sec (home 2) hsec h.second).1]
  rcases a.replayed_cases (sec * 1000000000) [] (key_ne_nil 2) (numberedNonce_ne_nil i) with
    ⟨hknown, -⟩ | ⟨-, hnew⟩
  · rcases hknown with hknown | hknown
    · exact absurd hknown (by simpa [entry] using fresh_eq_false hnot (sec * 1000000000))
    · exact absurd hknown (by simpa [entry] using h.not_fresh (sec * 1000000000) i)
  · rw [hnew, Authorizer.makeRoom_of_lt]
    · rfl
    · exact hroom

/-- **Filling up.** -/
theorem fill_spec (hfilled : Filled 0 a.recentRegs) (n : ℕ) (hn : n ≤ 4095) :
    ∃ c, Filled n c ∧ run (step crypto) ⟨a, ∅⟩ (fill n) = ⟨{ a with recentRegs := c }, ∅⟩ := by
  induction n with
  | zero => exact ⟨a.recentRegs, hfilled, rfl⟩
  | succ n ih =>
    obtain ⟨c, hc, hrun⟩ := ih (by omega)
    refine ⟨_, hc.insert (by omega), ?_⟩
    rw [fill, run_append, hrun]
    refine (h.insert c).record (by omega) (hc.lookup_succ (by omega)) ?_
    rw [hc.size, maxReplayRegs]
    omega

theorem Settled.replayed (pubkey nonce : Bytes) (now : ℤ)
    (order : List Bytes) : Settled (a.replayed pubkey nonce now order).1 := by
  have hnotes : ∀ k ∈ (a.replayed pubkey nonce now order).1.preAuthRegs.keys, ¬ key 2 <+: k := by
    intro k hk
    obtain ⟨seen, hseen⟩ := Option.isSome_iff_exists.1 (AList.lookup_isSome.2 (AList.mem_keys.2 hk))
    exact h.notes k (mem_keys_of_lookup (Authorizer.lookup_of_replayed hseen))
  rcases a.replayed_frame now order pubkey nonce with hsame | ⟨pre, -, hnew⟩
  · rwa [hsame]
  · rw [hnew] at hnotes ⊢
    exact ⟨h.second, h.third, hnotes⟩

theorem Settled.first (hempty : a.recentRegs = ∅) :
    ∃ c, Filled 0 c ∧ run (step crypto) ⟨a, ∅⟩ (arrive 0 102 (home 2) (numbered 2 0)) =
      ⟨{ a with recentRegs := c }, ∅⟩ := by
  refine ⟨a.recentRegs.insert (entry 0) (102 * 1000000000), ?_, h.record (by omega) ?_ ?_⟩ <;>
    rw [hempty]
  · refine ⟨rfl, AList.lookup_insert _, fun k seen hlook => ?_⟩
    rcases lookup_insert_cases hlook with hold | ⟨rfl, -⟩
    · cases hold
    · exact .inl rfl
  · exact nofun
  · decide

/-- What the third key's registration from before the approval does to the second key. When it is
not known, it displaces the oldest entry. -/
theorem Settled.displaced (hfull : Filled 4095 a.recentRegs) :
    ((a.replayed (key 3) (numberedNonce 0) (104 * 1000000000) []).1.replayed (key 2)
        (numberedNonce 0) (105 * 1000000000) []).2 =
      fresh a.preAuthRegs (104 * 1000000000) (regKey (key 3) (numberedNonce 0)) := by
  have hunknown : fresh a.recentRegs (104 * 1000000000) (regKey (key 3) (numberedNonce 0)) =
      false := by
    refine fresh_eq_false (fun seen hlook => ?_) _
    obtain ⟨i, -, heq⟩ := hfull.exists_entry hlook
    exact absurd (regKey_inj (key_zero_notMem 3) (key_zero_notMem 2) heq).1 (by decide)
  rw [Authorizer.replayed_snd _ _ _ (key_ne_nil 2) (numberedNonce_ne_nil 0)]
  have hpre := (h.replayed (key 3) (numberedNonce 0) (104 * 1000000000) []).not_fresh
    (105 * 1000000000) 0
  unfold entry at hpre
  rw [hpre, Bool.or_false]
  rcases a.replayed_cases (104 * 1000000000) [] (key_ne_nil 3) (numberedNonce_ne_nil 0) with
    ⟨hknown, hrep⟩ | ⟨⟨-, hnot⟩, hrep⟩
  · rw [hunknown] at hknown
    simp only [Bool.false_eq_true, false_or] at hknown
    rw [hrep, hknown]
    exact (fresh_iff hfull.first).2 (by decide)
  · rw [hrep, hnot]
    obtain ⟨pre, -, hroom⟩ := a.makeRoom_frame (104 * 1000000000) []
    have hgone : (NonceCache.makeRoom a.recentRegs (104 * 1000000000) []).lookup (entry 0) =
        none := by
      refine makeRoom_evicts [] ?_ ?_ hfull.first ?_
      · rw [hfull.size, maxPreAuthRegs]
      · intro k seen hlook
        rcases hfull.later k seen hlook with rfl | ⟨rfl, -⟩
        · obtain rfl := Option.some.inj (hfull.first.symm.trans hlook)
          decide
        · decide
      · intro k seen hlook
        refine (hfull.later k seen hlook).imp_right ?_
        rintro ⟨rfl, -⟩
        decide
    have hne : entry 0 ≠ regKey (key 3) (numberedNonce 0) := fun heq =>
      absurd (regKey_inj (key_zero_notMem 2) (key_zero_notMem 3) heq).1 (by decide)
    rw [hroom]
    unfold NonceCache.fresh
    rw [show regKey (key 2) (numberedNonce 0) = entry 0 from rfl, AList.lookup_insert_ne hne, hgone]

end

variable {e : Event}

theorem request_of_mem_arrive {req : ℕ} {sec : ℤ} {src : UDPAddr} {m : Message}
    (h : e ∈ arrive req sec src m) : e.request = some req := by
  simp only [arrive, sections, mem_cons, not_mem_nil, or_false] at h
  rcases h with rfl | rfl | rfl | rfl | rfl | rfl <;> rfl

theorem request_of_mem_fill {n : ℕ} (h : e ∈ fill n) : e.request = some 0 := by
  induction n with
  | zero => cases h
  | succ n ih =>
    rcases mem_append.1 h with h | h
    · exact ih h
    · exact request_of_mem_arrive h

theorem request_of_mem_crowd (h : e ∈ crowd) : e.request = some 0 := by
  simp only [crowd, mem_append] at h
  rcases h with ((h | h) | h) | h
  · exact request_of_mem_arrive h
  · exact request_of_mem_fill h
  · exact request_of_mem_arrive h
  · exact request_of_mem_arrive h

/-- The second key is approved and the outsider is not, before and after the poll. -/
theorem allowlist_throughout {es : List Event} (h : ∀ e ∈ es, (∃ req, e.request = some req) ∨
      e = .poll (.modified 2) (allowlist [2, 3] 2) (101 * 1000000000)) :
    Throughout (step crypto)
      (fun s => s.authz.allowed (key 2) = true ∧ s.authz.allowed (key 4) = false)
      (State.new (allowlist [2] 1) 0) es := by
  refine throughout_along ?_ (by decide +kernel) (along_of_forall fun _ => h)
  rintro s e hs (⟨req, hreq⟩ | rfl)
  · simpa only [Authorizer.allowed, (step_view hreq).keys] using hs
  · simp only [step, Authorizer.pollOnce]
    split_ifs
    · exact hs
    · have hloaded : (State.new (allowlist [2, 3] 2) 0).authz.allowed (key 2) = true ∧
          (State.new (allowlist [2, 3] 2) 0).authz.allowed (key 4) = false := by decide +kernel
      exact hloaded

theorem crowd_verdict (h : Settled a) (hempty : a.recentRegs = ∅) :
    ∃ vs, verdicts crypto ⟨a, ∅⟩ crowd = vs ++ [⟨numbered 2 0, 105 * 1000000000,
      fresh a.preAuthRegs (104 * 1000000000) (regKey (key 3) (numberedNonce 0))⟩] := by
  obtain ⟨c₀, hc₀, hfirst⟩ := h.first hempty
  obtain ⟨c, hc, hfill⟩ := fill_spec (h.insert c₀) hc₀ 4095 le_rfl
  have hsettled := h.insert c
  have hthird := arrive_approved 0 104 (home 3) (by omega) hsettled.third
  unfold crowd verdicts
  rw [trace_append]
  refine ⟨_, congrArg _ ?_⟩
  rw [run_append, run_append, hfirst, hfill, hthird.1]
  have hlast := arrive_approved 0 105 (home 2) (by omega)
    (hsettled.replayed (key 3) (numberedNonce 0) (104 * 1000000000) []).second
  refine hlast.2.trans ?_
  rw [hsettled.displaced hc]

/-- The last verdict of the second key, after a prelude that leaves no request behind. -/
theorem prelude_verdict {pre : List Event} {s : State}
    (hrun : run (step crypto) (State.new (allowlist [2] 1) 0) pre = s)
    (hreq : s.requests.entries = []) (h : Settled s.authz)
    (hempty : s.authz.recentRegs.entries = []) :
    ((verdicts crypto (State.new (allowlist [2] 1) 0) (pre ++ crowd)).filter
      (·.msg.pubkey == key 2)).getLast? = some ⟨numbered 2 0, 105 * 1000000000,
        fresh s.authz.preAuthRegs (104 * 1000000000) (regKey (key 3) (numberedNonce 0))⟩ := by
  obtain ⟨a, reqs⟩ := s
  obtain rfl : reqs = ∅ := AList.ext hreq
  obtain ⟨vs, hvs⟩ := crowd_verdict h (AList.ext hempty)
  unfold verdicts at hvs ⊢
  rw [trace_append, hrun, hvs, ← append_assoc, filter_append]
  simp [numbered, registration]

theorem request_of_mem_strangers (h : e ∈ strangers) : e.request = some 1 := by
  simp only [strangers, mem_append] at h
  rcases h with ((h | h) | h) | h <;> exact request_of_mem_arrive h

theorem request_of_mem_approval (h : e ∈ approval) : e.request = some 0 ∨
    e = .poll (.modified 2) (allowlist [2, 3] 2) (101 * 1000000000) := by
  rcases mem_append.1 h with h | h
  · exact .inl (request_of_mem_arrive h)
  · exact .inr (mem_singleton.1 h)

theorem key_of_mem_strangers {req : ℕ} {now : ℤ} {m : Message}
    (h : Event.verify req now m ∈ strangers) : m.pubkey = key 4 := by
  simp only [strangers, arrive, sections, cons_append, nil_append, mem_cons,
    not_mem_nil, or_false, Event.verify.injEq, reduceCtorEq, false_or] at h
  rcases h with ⟨-, -, rfl⟩ | ⟨-, -, rfl⟩ | ⟨-, -, rfl⟩ | ⟨-, -, rfl⟩ <;> rfl

/-- When all strangers are in the middle, the second key is approved throughout, and they never
are. -/
theorem strangers_unapproved {pre mid post : List Event} (hmid : mid = strangers ∨ mid = [])
    (hpre : ∀ e ∈ pre, e.request = some 0) (hpost : ∀ e ∈ post, e.request = some 0 ∨
      e = .poll (.modified 2) (allowlist [2, 3] 2) (101 * 1000000000)) :
    Unapproved crypto (State.new (allowlist [2] 1) 0) (· == 1) (pre ++ mid ++ post) ∧
      Throughout (step crypto) (fun s => s.authz.allowed (key 2) = true)
        (State.new (allowlist [2] 1) 0) (pre ++ mid ++ post) := by
  have hstranger {e : Event} (he : e ∈ mid) : e ∈ strangers := by
    rcases hmid with rfl | rfl
    · exact he
    · cases he
  have hall := @allowlist_throughout (pre ++ mid ++ post) (by
    intro e he
    simp only [mem_append] at he
    rcases he with (he | he) | he
    · exact .inl ⟨0, hpre e he⟩
    · exact .inl ⟨1, request_of_mem_strangers (hstranger he)⟩
    · exact (hpost e he).imp_left fun h => ⟨0, h⟩)
  refine ⟨fun req now m he ho es hes => ?_, fun es hes => (hall es hes).1⟩
  obtain rfl : req = 1 := by simpa using ho
  simp only [mem_append] at he
  rcases he with (he | he) | he
  · cases hpre _ he
  · rw [key_of_mem_strangers (hstranger he)]
    exact (hall es hes).2
  · rcases hpost _ he with h | h <;> cases h

end Runs

open Sample Runs in
/-- Without the strangers the registration of the third key is known from before its approval. With
them it is not, and the second key, approved throughout, gets another verdict. -/
theorem outsiders_do_not_interfere_fails :
    (strangers ++ (approval ++ crowd)).filter (apartFrom (· == 1)) =
      (approval ++ crowd).filter (apartFrom (· == 1)) ∧
    (∀ es ∈ [strangers ++ (approval ++ crowd), approval ++ crowd],
      Unapproved crypto (State.new (allowlist [2] 1) 0) (· == 1) es ∧
      Throughout (step crypto) (fun s => s.authz.allowed (key 2) = true)
        (State.new (allowlist [2] 1) 0) es) ∧
    (verdicts crypto (State.new (allowlist [2] 1) 0) (strangers ++ (approval ++ crowd))).filter
        (·.msg.pubkey == key 2) ≠
      (verdicts crypto (State.new (allowlist [2] 1) 0) (approval ++ crowd)).filter
        (·.msg.pubkey == key 2) := by
  refine ⟨?_, ?_, fun hsame => ?_⟩
  · rw [filter_append]
    exact congrArg (· ++ _) (show strangers.filter (apartFrom (· == 1)) = [] by
      rw [filter_eq_nil_iff]
      intro e he
      simp [apartFrom, request_of_mem_strangers he])
  · intro es hes
    simp only [mem_cons, not_mem_nil, or_false] at hes
    have hpost : ∀ e ∈ approval ++ crowd, e.request = some 0 ∨
        e = .poll (.modified 2) (allowlist [2, 3] 2) (101 * 1000000000) := by
      intro e he
      rcases mem_append.1 he with he | he
      · exact request_of_mem_approval he
      · exact .inl (request_of_mem_crowd he)
    rcases hes with rfl | rfl
    · exact @strangers_unapproved [] _ _ (.inl rfl) (by simp) hpost
    · exact @strangers_unapproved [] [] _ (.inr rfl) (by simp) hpost
  · have hwith := @prelude_verdict (strangers ++ approval) _ rfl (by decide +kernel)
      ⟨by decide +kernel, by decide +kernel, by decide +kernel⟩ (by decide +kernel)
    have hwithout := @prelude_verdict approval _ rfl (by decide +kernel)
      ⟨by decide +kernel, by decide +kernel, by decide +kernel⟩ (by decide +kernel)
    rw [append_assoc, hsame, hwithout] at hwith
    have hfresh := congrArg (Option.map Verdict.replay) hwith
    exact absurd hfresh (by decide +kernel)

namespace Runs

open Sample

/-- The third key is approved and registers anew, and the first registration of the second key comes
again. -/
def enrolment : List Event :=
  approval ++ (arrive 0 104 (home 3) (numbered 3 1) ++ arrive 0 105 (home 2) (numbered 2 0))

theorem request_of_mem_enrolment {e : Event} (h : e ∈ enrolment) : e.request = some 0 ∨
    e = .poll (.modified 2) (allowlist [2, 3] 2) (101 * 1000000000) := by
  rcases mem_append.1 h with h | h
  · exact request_of_mem_approval h
  · rcases mem_append.1 h with h | h <;> exact .inl (request_of_mem_arrive h)

end Runs

open Sample Runs in
/-- The strangers keep the registration of the third key from being recorded. It is approved and
registers anew, and the replay of the second key is recognised all the same. -/
theorem outsiders_do_not_interfere_enrolment :
    let first := arrive 0 100 (home 2) (numbered 2 0)
    let s := State.new (allowlist [2] 1) 0
    (verdicts crypto s (first ++ strangers ++ enrolment)).map (·.replay) = [false, false, true] ∧
      verdicts crypto s (first ++ strangers ++ enrolment) =
        verdicts crypto s (first ++ [] ++ enrolment) ∧
      (verdicts crypto s (first ++ strangers ++ enrolment)).filter (·.msg.pubkey == key 2) =
        (verdicts crypto s (first ++ [] ++ enrolment)).filter (·.msg.pubkey == key 2) := by
  intro first s
  have hpre : ∀ e ∈ first, e.request = some 0 := fun _ => request_of_mem_arrive
  have hpost := fun e => @request_of_mem_enrolment e
  have hruns : ∀ run ∈ [first ++ strangers ++ enrolment, first ++ [] ++ enrolment],
      (Unapproved crypto s (· == 1) run ∧
        Throughout (step crypto) (fun s => s.authz.allowed (key 2) = true) s run) := by
    intro run hrun
    rcases mem_pair.1 hrun with rfl | rfl
    · exact strangers_unapproved (.inl rfl) hpre hpost
    · exact strangers_unapproved (.inr rfl) hpre hpost
  have hnamed : ∀ run ∈ [first ++ strangers ++ enrolment, first ++ [] ++ enrolment],
      Along (step crypto) (fun s e => namedAnew (· == 1) s e = true) s run := by
    decide +kernel
  obtain ⟨hreturn, hroom⟩ := (outsiders_do_not_interfere crypto (allowlist [2] 1) 0).2 (· == 1)
    (first ++ strangers ++ enrolment) (first ++ [] ++ enrolment) rfl
    fun run hrun => ⟨(hruns run hrun).1, hnamed run hrun⟩
  exact ⟨by decide +kernel, hreturn (by decide +kernel),
    hroom (by decide +kernel) (key 2) fun run hrun => (hruns run hrun).2⟩

end BuddyNet.Handshake.Approval
