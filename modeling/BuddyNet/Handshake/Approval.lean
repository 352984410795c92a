import BuddyNet.Handshake.Request

/-!
# Registrations in approval mode, one section at a time

`pairRegister` asks the authorizer in several critical sections: `allowed`, then for an approved key
`freshSinceApproval` and `replayed`, for any other key `allowEnroll` and `recordPreAuth`. Requests
run concurrently and the allowlist is reloaded meanwhile, so each section is a step of its own here
and reads the clock itself. A run is any interleaving of them.

The verification accepts a timestamp in a closed window of 60 s to both sides. The caches recognise
a nonce for less than 120 s. A registration that is presented at the first and again at the last
instant of its window, or whose replay check is held up beyond it, passes twice; one whose check is
made before the last instant passes at most once.
-/

namespace BuddyNet.Handshake.Approval

open Machine List

/-- How far a registration has come: its proof verified, its key found approved, its timestamp found
not to predate the approval; or its key found unknown, and admitted by the enrollment limiter. -/
inductive Phase where
  | verified (m : Message)
  | approved (m : Message)
  | vetted (m : Message)
  | unknown (m : Message)
  | admitted (m : Message)

/-- The registration. -/
def Phase.msg : Phase → Message
  | verified m => m
  | approved m => m
  | vetted m => m
  | unknown m => m
  | admitted m => m

/-- The authorizer and the requests under way. -/
structure State where
  authz : Authorizer
  requests : AList fun _ : ℕ => Phase

/-- A server that has just started, with the allowlist it found. -/
def State.new (file : Authorizer.FileRead) (now : ℤ) : State :=
  ⟨(Authorizer.blank now).load true file now, ∅⟩

/-- The steps. A request is named by a number that is not in use. -/
inductive Event where
  | verify (req : ℕ) (now : ℤ) (m : Message)
  | allow (req : ℕ)
  | vet (req : ℕ)
  | check (req : ℕ) (now : ℤ) (order : List Bytes)
  | enroll (req : ℕ) (now : ℤ) (src : UDPAddr)
  | record (req : ℕ) (now : ℤ) (order : List Bytes)
  | poll (stat : Authorizer.Stat) (file : Authorizer.FileRead) (now : ℤ)

/-- The reading of the clock. -/
def Event.time : Event → Option ℤ
  | verify _ now _ => some now
  | allow _ => none
  | vet _ => none
  | check _ now _ => some now
  | enroll _ now _ => some now
  | record _ now _ => some now
  | poll _ _ now => some now

/-- The readings of a run. -/
def times (es : List Event) : List ℤ := es.filterMap Event.time

variable (cr : Crypto)

/-- One step. -/
def step (s : State) : Event → State
  | .verify req now m =>
    if req ∈ s.requests ∨ verifyRegistration cr now m = false then s
    else { s with requests := s.requests.insert req (.verified m) }
  | .allow req =>
    match s.requests.lookup req with
    | some (.verified m) =>
      { s with requests :=
          s.requests.insert req (if s.authz.allowed m.pubkey then .approved m else .unknown m) }
    | _ => s
  | .vet req =>
    match s.requests.lookup req with
    | some (.approved m) =>
      { s with requests :=
          if s.authz.freshSinceApproval m.pubkey m.ts then s.requests.insert req (.vetted m)
          else s.requests.erase req }
    | _ => s
  | .check req now order =>
    match s.requests.lookup req with
    | some (.vetted m) =>
      ⟨(s.authz.replayed m.pubkey m.nonce now order).1, s.requests.erase req⟩
    | _ => s
  | .enroll req now src =>
    match s.requests.lookup req with
    | some (.unknown m) =>
      ⟨(s.authz.allowEnroll (fromIP src.ip) now).1,
        if (s.authz.allowEnroll (fromIP src.ip) now).2 then s.requests.insert req (.admitted m)
        else s.requests.erase req⟩
    | _ => s
  | .record req now order =>
    match s.requests.lookup req with
    | some (.admitted m) =>
      ⟨s.authz.recordPreAuth m.pubkey m.nonce now order, s.requests.erase req⟩
    | _ => s
  | .poll stat file now => { s with authz := s.authz.pollOnce stat file now }

/-- The verdict of a replay check. -/
structure Verdict where
  msg : Message
  now : ℤ
  replay : Bool
  deriving DecidableEq

/-- The verdict a step gives, if it is a replay check. -/
def verdict (s : State) : Event → Option Verdict
  | .check req now order =>
    match s.requests.lookup req with
    | some (.vetted m) => some ⟨m, now, (s.authz.replayed m.pubkey m.nonce now order).2⟩
    | _ => none
  | _ => none

/-- The verdicts of a run. -/
def verdicts (s : State) (es : List Event) : List Verdict :=
  trace (step cr) verdict s es

/-- What makes two registrations the same. -/
structure Registration where
  pubkey : Bytes
  nonce : Bytes
  ts : ℤ
  deriving DecidableEq

/-- The registration of a message. -/
def registrationOf (m : Message) : Registration := ⟨m.pubkey, m.nonce, m.ts⟩

/-- The registrations that passed all checks, in order. -/
def passes (s : State) (es : List Event) : List Registration :=
  ((verdicts cr s es).filter (!·.replay)).map (registrationOf ·.msg)

/-! ### What a step does -/

/-- The cases of a step. -/
inductive Effect (s : State) : Event → State → Prop
  | idle (e : Event) : Effect s e s
  | verified {req : ℕ} {now : ℤ} {m : Message} (hver : verifyRegistration cr now m = true) :
      Effect s (.verify req now m) { s with requests := s.requests.insert req (.verified m) }
  | approved {req : ℕ} {m : Message} (hreq : s.requests.lookup req = some (.verified m))
      (hkey : s.authz.allowed m.pubkey = true) :
      Effect s (.allow req) { s with requests := s.requests.insert req (.approved m) }
  | unknown {req : ℕ} {m : Message} (hreq : s.requests.lookup req = some (.verified m))
      (hkey : s.authz.allowed m.pubkey = false) :
      Effect s (.allow req) { s with requests := s.requests.insert req (.unknown m) }
  | vetted {req : ℕ} {m : Message} (hreq : s.requests.lookup req = some (.approved m))
      (hfresh : s.authz.freshSinceApproval m.pubkey m.ts = true) :
      Effect s (.vet req) { s with requests := s.requests.insert req (.vetted m) }
  | stale {req : ℕ} {m : Message} (hreq : s.requests.lookup req = some (.approved m))
      (hfresh : s.authz.freshSinceApproval m.pubkey m.ts = false) :
      Effect s (.vet req) { s with requests := s.requests.erase req }
  | checked {req : ℕ} {now : ℤ} {order : List Bytes} {m : Message}
      (hreq : s.requests.lookup req = some (.vetted m)) :
      Effect s (.check req now order)
        ⟨(s.authz.replayed m.pubkey m.nonce now order).1, s.requests.erase req⟩
  | limited {req : ℕ} {now : ℤ} {src : UDPAddr} {m : Message}
      (hreq : s.requests.lookup req = some (.unknown m)) :
      Effect s (.enroll req now src)
        ⟨(s.authz.allowEnroll (fromIP src.ip) now).1, s.requests.erase req⟩
  | admitted {req : ℕ} {now : ℤ} {src : UDPAddr} {m : Message}
      (hreq : s.requests.lookup req = some (.unknown m)) :
      Effect s (.enroll req now src)
        ⟨(s.authz.allowEnroll (fromIP src.ip) now).1, s.requests.insert req (.admitted m)⟩
  | recorded {req : ℕ} {now : ℤ} {order : List Bytes} {m : Message}
      (hreq : s.requests.lookup req = some (.admitted m)) :
      Effect s (.record req now order)
        ⟨s.authz.recordPreAuth m.pubkey m.nonce now order, s.requests.erase req⟩
  | polled {stat : Authorizer.Stat} {file : Authorizer.FileRead} {now : ℤ} :
      Effect s (.poll stat file now) { s with authz := s.authz.pollOnce stat file now }

/-- **Every step is one of the cases.** -/
theorem step_effect (s : State) (e : Event) : Effect cr s e (step cr s e) := by
  cases e with
  | verify req now m =>
    unfold step
    dsimp only
    split_ifs with h
    · exact .idle _
    · exact .verified (by simpa using (not_or.1 h).2)
  | allow req =>
    unfold step
    dsimp only
    split
    · next m hreq =>
      cases hkey : s.authz.allowed m.pubkey with
      | true => exact .approved hreq hkey
      | false => exact .unknown hreq hkey
    · exact .idle _
  | vet req =>
    unfold step
    dsimp only
    split
    · next m hreq =>
      cases hfresh : s.authz.freshSinceApproval m.pubkey m.ts with
      | true => exact .vetted hreq hfresh
      | false => exact .stale hreq hfresh
    · exact .idle _
  | check req now order =>
    unfold step
    dsimp only
    split
    · next m hreq => exact .checked hreq
    · exact .idle _
  | enroll req now src =>
    unfold step
    dsimp only
    split
    · next m hreq =>
      split_ifs
      · exact .admitted hreq
      · exact .limited hreq
    · exact .idle _
  | record req now order =>
    unfold step
    dsimp only
    split
    · next m hreq => exact .recorded hreq
    · exact .idle _
  | poll stat file now => exact .polled

variable {cr} {s : State} {e : Event} {req : ℕ}

/-- A request under way was under way before with the same registration, or has just been
verified. -/
theorem step_request {ph : Phase} (h : (step cr s e).requests.lookup req = some ph) :
    (∃ ph', s.requests.lookup req = some ph' ∧ ph'.msg = ph.msg) ∨
      ∃ now, e = .verify req now ph.msg ∧ verifyRegistration cr now ph.msg = true := by
  have heff := step_effect cr s e
  generalize step cr s e = s' at h heff
  have keep {req' : ℕ} {was is : Phase} (hwas : s.requests.lookup req' = some was)
      (hnew : (s.requests.insert req' is).lookup req = some ph) (hmsg : was.msg = is.msg) :
      ∃ ph', s.requests.lookup req = some ph' ∧ ph'.msg = ph.msg := by
    rcases Go.lookup_insert_cases hnew with hold | ⟨rfl, rfl⟩
    · exact ⟨ph, hold, rfl⟩
    · exact ⟨was, hwas, hmsg⟩
  cases heff with
  | idle | polled => exact .inl ⟨ph, h, rfl⟩
  | verified hver =>
    rcases Go.lookup_insert_cases h with hold | ⟨rfl, rfl⟩
    · exact .inl ⟨ph, hold, rfl⟩
    · exact .inr ⟨_, rfl, hver⟩
  | approved hreq | unknown hreq | vetted hreq | admitted hreq => exact .inl (keep hreq h rfl)
  | stale | checked | limited | recorded => exact .inl ⟨ph, Go.lookup_of_erase h, rfl⟩

theorem step_recentRegs (cr : Crypto) (s : State) (e : Event) :
    (step cr s e).authz.recentRegs = s.authz.recentRegs ∧ verdict s e = none ∨
      ∃ req now order m, e = .check req now order ∧ s.requests.lookup req = some (.vetted m) ∧
        (step cr s e).authz = (s.authz.replayed m.pubkey m.nonce now order).1 ∧
        verdict s e = some ⟨m, now, (s.authz.replayed m.pubkey m.nonce now order).2⟩ := by
  by_cases hcheck : ∃ req now order m,
      e = .check req now order ∧ s.requests.lookup req = some (.vetted m)
  · obtain ⟨req, now, order, m, rfl, hreq⟩ := hcheck
    exact .inr ⟨req, now, order, m, rfl, hreq, by simp [step, hreq], by simp [verdict, hreq]⟩
  · refine .inl ⟨?_, ?_⟩
    · have heff := step_effect cr s e
      generalize step cr s e = s' at heff
      cases heff with
      | checked hreq => exact absurd ⟨_, _, _, _, rfl, hreq⟩ hcheck
      | recorded => exact s.authz.recordPreAuth_recentRegs ..
      | polled => exact (s.authz.pollOnce_frame ..).1
      | _ => rfl
    · unfold verdict
      split
      · split
        · next hreq => exact absurd ⟨_, _, _, _, rfl, hreq⟩ hcheck
        · rfl
      · rfl

/-! ### A request that nothing interrupts -/

/-- All readings of the clock at one instant. -/
def instant (t : ℤ) : Clock := ⟨t, t, t, t, t, t, t, t⟩

/-- The sections of one registration, in order; those of the branch that is not taken do nothing. -/
def sections (req : ℕ) (t : Clock) (order : List Bytes) (src : UDPAddr) (m : Message) :
    List Event :=
  [.verify req t.verify m, .allow req, .vet req, .check req t.replay order,
    .enroll req t.enroll src, .record req t.preAuth order]

variable {m : Message}

/-- **Without interruption the sections are `authorize`**: they leave the authorizer that it leaves
and no request behind, and the registration passes exactly when it may go on. -/
theorem sections_authorize (t : Clock) (order : List Bytes) (src : UDPAddr)
    (hfree : req ∉ s.requests) (hver : verifyRegistration cr t.verify m = true) :
    run (step cr) s (sections req t order src m) =
        ⟨(s.authz.authorize t order src m).1, s.requests⟩ ∧
      passes cr s (sections req t order src m) =
        if (s.authz.authorize t order src m).2 then [registrationOf m] else [] := by
  have hnone : s.requests.lookup req = none := AList.lookup_eq_none.2 hfree
  have herase (ph : Phase) : (s.requests.insert req ph).erase req = s.requests :=
    Go.erase_insert_self hfree ph
  cases hkey : s.authz.allowed m.pubkey with
  | true =>
    cases hfresh : s.authz.freshSinceApproval m.pubkey m.ts with
    | true =>
      cases hseen : (s.authz.replayed m.pubkey m.nonce t.replay order).2 <;>
        simp [sections, run, passes, verdicts, trace, step, verdict, hfree, hver,
          hkey, hfresh, hseen, Authorizer.authorize, hnone, herase]
    | false =>
      simp [sections, run, passes, verdicts, trace, step, verdict, hfree, hver,
        hkey, hfresh, Authorizer.authorize, hnone, herase]
  | false =>
    cases hok : (s.authz.allowEnroll (fromIP src.ip) t.enroll).2 <;>
      simp [sections, run, passes, verdicts, trace, step, verdict, hfree, hver,
        hkey, hok, Authorizer.authorize, hnone, herase]

theorem sections_verdicts (t : Clock) (order : List Bytes) (src : UDPAddr)
    (hfree : req ∉ s.requests) (hver : verifyRegistration cr t.verify m = true)
    (hkey : s.authz.allowed m.pubkey = true)
    (hfresh : s.authz.freshSinceApproval m.pubkey m.ts = true) :
    verdicts cr s (sections req t order src m) =
      [⟨m, t.replay, (s.authz.replayed m.pubkey m.nonce t.replay order).2⟩] := by
  simp [sections, verdicts, trace, step, verdict, hfree, hver, hkey, hfresh]

/-! ### At most once -/

/-- Neither cache is full. -/
def Roomy (s : State) : Prop :=
  s.authz.recentRegs.keys.length < maxReplayRegs ∧
    s.authz.preAuthRegs.keys.length < maxPreAuthRegs

instance : DecidablePred Roomy := fun s => by unfold Roomy; infer_instance

/-- A replay check comes before the registration's timestamp is 60 s old. -/
def InTime (s : State) : Event → Prop
  | .check req now _ =>
    match s.requests.lookup req with
    | some (.vetted m) => now < m.ts * 1000000000 + regSkew
    | _ => True
  | _ => True

instance (s : State) (e : Event) : Decidable (InTime s e) := by
  unfold InTime
  split
  · split <;> infer_instance
  · infer_instance

/-- What is known after some events: no request came before its window opened, the replay cache has
every registration that passed under a time in its window, and none passed twice. -/
structure Remembers (log : List Event) (s : State) (passed : List Registration) : Prop where
  held : ∀ req ph, s.requests.lookup req = some ph → ph.msg.pubkey ≠ [] ∧ ph.msg.nonce ≠ [] ∧
    ∃ t ∈ times log, ph.msg.ts * 1000000000 - regSkew ≤ t
  seen : ∀ r ∈ passed, ∃ t ∈ times log,
    s.authz.recentRegs.lookup (regKey r.pubkey r.nonce) = some t ∧
      r.ts * 1000000000 - regSkew ≤ t
  once : passed.Nodup

theorem times_concat (log : List Event) (e : Event) :
    times (log ++ [e]) = times log ++ e.time.toList := by
  cases h : e.time <;> simp [times, h]

theorem mem_times_concat {log : List Event} {t : ℤ} (h : t ∈ times log) (e : Event) :
    t ∈ times (log ++ [e]) := by
  rw [times_concat]
  exact mem_append_left _ h

theorem passes_concat (cr : Crypto) (s : State) (log : List Event) (e : Event) :
    passes cr s (log ++ [e]) = passes cr s log ++
      (((verdict (run (step cr) s log) e).toList.filter (!·.replay)).map
        (registrationOf ·.msg)) := by
  simp only [passes, verdicts, trace_concat, filter_append, map_append]

variable {log : List Event} {passed : List Registration}

section

variable (h : Remembers log s passed)
include h

theorem Remembers.held_step (e : Event) (req : ℕ) (ph : Phase)
    (hreq : (step cr s e).requests.lookup req = some ph) :
    ph.msg.pubkey ≠ [] ∧ ph.msg.nonce ≠ [] ∧
      ∃ t ∈ times (log ++ [e]), ph.msg.ts * 1000000000 - regSkew ≤ t := by
  rcases step_request hreq with ⟨was, hwas, hmsg⟩ | ⟨now, rfl, hver⟩
  · obtain ⟨hkey, hnonce, t, ht, hle⟩ := h.held req was hwas
    rw [hmsg] at hkey hnonce hle
    exact ⟨hkey, hnonce, t, mem_times_concat ht e, hle⟩
  · refine ⟨verifyRegistration_pubkey_ne_nil hver, verifyRegistration_nonce_ne_nil hver, now, ?_,
      ?_⟩
    · simp [times_concat, Event.time]
    · have habs := (verifyRegistration_window hver).2
      have hge := (abs_le.1 habs).1
      omega

/-- A registration that passed is recognised until its timestamp is 60 s old. -/
theorem Remembers.fresh {now : ℤ}
    (hmem : registrationOf m ∈ passed) (htime : now < m.ts * 1000000000 + regSkew) :
    NonceCache.fresh s.authz.recentRegs now (regKey m.pubkey m.nonce) = true := by
  obtain ⟨t, -, hlook, hle⟩ := h.seen _ hmem
  change m.ts * 1000000000 - regSkew ≤ t at hle
  refine (NonceCache.fresh_iff hlook).2 ?_
  unfold regReplayWindow
  omega

theorem Remembers.keep (hsame : (Approval.step cr s e).authz.recentRegs = s.authz.recentRegs) :
    Remembers (log ++ [e]) (Approval.step cr s e) passed := by
  refine ⟨h.held_step e, fun r hr => ?_, h.once⟩
  obtain ⟨t, ht, hlook, hle⟩ := h.seen r hr
  rw [hsame]
  exact ⟨t, mem_times_concat ht e, hlook, hle⟩

theorem Remembers.pass {now : ℤ} {order : List Bytes} (hlater : ∀ t ∈ times log, t ≤ now)
    (hreq : s.requests.lookup req = some (.vetted m))
    (hcache : (Approval.step cr s (.check req now order)).authz.recentRegs =
      s.authz.recentRegs.insert (regKey m.pubkey m.nonce) now) (hnew : registrationOf m ∉ passed) :
    Remembers (log ++ [.check req now order]) (Approval.step cr s (.check req now order))
      (passed ++ [registrationOf m]) := by
  have hnow : now ∈ times (log ++ [.check req now order]) := by simp [times_concat, Event.time]
  refine ⟨h.held_step _, fun r hr => ?_, ?_⟩
  · rw [hcache]
    rcases mem_append.1 hr with hold | hr
    · -- an older entry under the same key is replaced by a later time
      obtain ⟨t, ht, hlook, hle⟩ := h.seen r hold
      by_cases hk : regKey r.pubkey r.nonce = regKey m.pubkey m.nonce
      · refine ⟨now, hnow, by rw [hk, AList.lookup_insert], ?_⟩
        have := hlater t ht
        omega
      · exact ⟨t, mem_times_concat ht _, by rw [AList.lookup_insert_ne hk, hlook], hle⟩
    · obtain rfl := mem_singleton.1 hr
      obtain ⟨-, -, t, ht, hopen⟩ := h.held req _ hreq
      refine ⟨now, hnow, AList.lookup_insert _, ?_⟩
      exact hopen.trans (hlater t ht)
  · refine nodup_append.2 ⟨h.once, nodup_singleton _, fun r hr r' hr' heq => ?_⟩
    rw [heq, mem_singleton.1 hr'] at hr
    exact hnew hr

/-- **One step.** The clock does not run backwards, there is room in the caches and the replay
check is in time. -/
theorem Remembers.step
    (hclock : (times (log ++ [e])).Pairwise (· ≤ ·)) (hroom : Roomy s) (htime : InTime s e) :
    Remembers (log ++ [e]) (Approval.step cr s e)
      (passed ++ ((verdict s e).toList.filter (!·.replay)).map (registrationOf ·.msg)) := by
  rcases step_recentRegs cr s e with
    ⟨hsame, hnone⟩ | ⟨req, now, order, m, rfl, hreq, hauthz, hverdict⟩
  · rw [hnone]
    simpa using h.keep hsame
  · have hkey : m.pubkey ≠ [] := (h.held req _ hreq).1
    have hnonce : m.nonce ≠ [] := (h.held req _ hreq).2.1
    rcases s.authz.replayed_cases now order hkey hnonce with ⟨-, hrep⟩ | ⟨⟨hfresh, -⟩, hrep⟩
    · -- a replay
      rw [hrep] at hauthz hverdict
      rw [hverdict]
      simpa using h.keep (congrArg Authorizer.recentRegs hauthz)
    · rw [Authorizer.makeRoom_of_lt _ _ _ hroom.1] at hrep
      rw [hrep] at hauthz hverdict
      rw [hverdict]
      have hlater : ∀ t ∈ times log, t ≤ now := by
        intro t ht
        rw [times_concat] at hclock
        exact (pairwise_append.1 hclock).2.2 t ht now (by simp [Event.time])
      have hnew : registrationOf m ∉ passed := by
        intro hmem
        simp only [InTime, hreq] at htime
        exact absurd (h.fresh hmem htime) (by simp [hfresh])
      exact h.pass hlater hreq (congrArg Authorizer.recentRegs hauthz) hnew

end

/-- **A registration passes at most once** in every run with a clock that does not run backwards
and caches that do not fill up, provided that each replay check is made before the timestamp is
60 s old. -/
theorem accepted_at_most_once (cr : Crypto) (file : Authorizer.FileRead) (start : ℤ)
    (es : List Event) (hclock : (times es).Pairwise (· ≤ ·))
    (hroom : Throughout (step cr) Roomy (State.new file start) es)
    (hG : Along (step cr) InTime (State.new file start) es) :
    (passes cr (State.new file start) es).Nodup := by
  have hstart : Remembers [] (State.new file start) [] :=
    ⟨fun _ _ h => by simp [State.new] at h, by simp, nodup_nil⟩
  have hinv := history_along
    (P := fun log (s : State) => (times log).Pairwise (· ≤ ·) →
      Remembers log s (passes cr (State.new file start) log))
    (fun _ => hstart)
    (fun log e ih hG hclock => by
      rw [passes_concat]
      refine (ih ?_).step hclock hG.1 hG.2
      rw [times_concat] at hclock
      exact (pairwise_append.1 hclock).1)
    (hroom.along.and hG)
  exact (hinv hclock).once

namespace Runs

open Sample

/-- An allowlist with some keys. -/
def allowlist (ks : List UInt8) (mtime : ℤ) : Authorizer.FileRead :=
  .content (ks.foldl (fun keys k => keys.insert (key k) (lit "buddy")) ∅) mtime

/-- A registration that goes through its sections within one instant. -/
def arrive (req : ℕ) (sec : ℤ) (src : UDPAddr) (m : Message) : List Event :=
  sections req (instant (sec * 1000000000)) [] src m

/-- The registration with the timestamp 100 s, at the first and at the last instant of its
window. -/
def endToEnd : List Event :=
  arrive 1 40 (home 2) (registration 2 (lit "idA") 100 []) ++
    arrive 2 160 (home 2) (registration 2 (lit "idA") 100 [])

/-- A registration with the timestamp 130 s passes at 100 s. The key is revoked and approved again,
and the registration comes once more. Another key registers before its approval, and the same
registration comes again after it. -/
def transitions : List Event :=
  arrive 1 100 (home 2) (registration 2 (lit "idA") 130 []) ++
    arrive 2 105 (home 3) (registration 3 (lit "idB") 140 []) ++
    [.poll .gone .gone (110 * 1000000000),
      .poll (.modified 2) (allowlist [2, 3] 2) (120 * 1000000000)] ++
    arrive 3 150 (home 2) (registration 2 (lit "idA") 130 []) ++
    arrive 4 155 (home 3) (registration 3 (lit "idB") 140 [])

end Runs

open Sample Runs in
/-- Both verifications accept the timestamp, and the nonce is forgotten in between: 120 s after its
first sighting it is not younger than the window. -/
theorem accepted_at_most_once_fails :
    (times endToEnd).Pairwise (· ≤ ·) ∧
    Throughout (step crypto) Roomy (State.new (allowlist [2] 1) 0) endToEnd ∧
    passes crypto (State.new (allowlist [2] 1) 0) endToEnd =
      [registrationOf (registration 2 (lit "idA") 100 []),
        registrationOf (registration 2 (lit "idA") 100 [])] := by
  decide +kernel

open Sample Runs in
/-- The first registration passes once; neither repetition passes. -/
theorem accepted_at_most_once_transitions :
    (times transitions).Pairwise (· ≤ ·) ∧
    Throughout (step crypto) Roomy (State.new (allowlist [2] 1) 0) transitions ∧
    Along (step crypto) InTime (State.new (allowlist [2] 1) 0) transitions ∧
    (verdicts crypto (State.new (allowlist [2] 1) 0) transitions).map (·.replay) =
      [false, true, true] ∧
    (passes crypto (State.new (allowlist [2] 1) 0) transitions).Nodup := by
  have hclock : (times transitions).Pairwise (· ≤ ·) := by decide +kernel
  have hroom : Throughout (step crypto) Roomy (State.new (allowlist [2] 1) 0)
    transitions := by decide +kernel
  have hG : Along (step crypto) InTime (State.new (allowlist [2] 1) 0) transitions := by
    decide +kernel
  refine ⟨hclock, hroom, hG, by decide +kernel, ?_⟩
  exact accepted_at_most_once crypto (allowlist [2] 1) 0 transitions hclock hroom hG

end BuddyNet.Handshake.Approval
