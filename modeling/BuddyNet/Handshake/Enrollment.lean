import BuddyNet.Handshake.Approval
import BuddyNet.RateLimit.Bounds

/-!
# The nonces of keys that are not approved

Registrations one after the other, each within one instant: the run of the authorizer in which
admission by the enrollment limiter and the record of the nonce are one step. It is the run of
`Approval` in which nothing is interrupted.

The limiter admits at most `40 + 20 · 120` registrations in a replay window, and the cache has room
for 4096 nonces, so nothing younger than the window is ever displaced. A registration that was seen
before its key was approved is recognised until its timestamp is 60 s old, provided that its nonce
was first seen after its window opened. Two registrations of one key with the same nonce, or one
that comes at the very first instant, fall outside of this: the entry keeps the time of the first
sighting and is expired before the last instant.
-/

namespace BuddyNet.Handshake.Enrollment

open NonceCache Pacing Approval List Limiter Machine

/-- A registration arrives, or the allowlist is looked at. -/
inductive Event where
  | register (now : ℤ) (src : UDPAddr) (m : Message) (order : List Bytes)
  | poll (stat : Authorizer.Stat) (file : Authorizer.FileRead) (now : ℤ)

/-- The reading of the clock. -/
def Event.time : Event → ℤ
  | register now _ _ _ => now
  | poll _ _ now => now

variable (cr : Crypto)

/-- One step: `verifyRegistration` and the authorizer's part of `pairRegister`, or a poll. -/
def step (a : Authorizer) : Event → Authorizer
  | .register now src m order =>
    if verifyRegistration cr now m then (a.authorize (instant now) order src m).1 else a
  | .poll stat file now => a.pollOnce stat file now

/-- The authorizer at the start, with the allowlist it found. -/
def new (file : Authorizer.FileRead) (now : ℤ) : Authorizer :=
  (Authorizer.blank now).load true file now

/-- A registration of a key that is not approved, admitted by the enrollment limiter. -/
structure Admission where
  now : ℤ
  msg : Message
  deriving DecidableEq

/-- The entry it stands for. -/
def Admission.note (x : Admission) : ℤ × Bytes := (x.now, regKey x.msg.pubkey x.msg.nonce)

/-- The admission falls into the window. -/
def Admission.within (lo hi : ℤ) (x : Admission) : Bool := lo ≤ x.now && x.now ≤ hi

/-- The admission of a step, if it is one. -/
def admission (a : Authorizer) : Event → Option Admission
  | .register now src m _ =>
    if verifyRegistration cr now m && !a.allowed m.pubkey &&
      (a.allowEnroll (fromIP src.ip) now).2 then some ⟨now, m⟩ else none
  | .poll _ _ _ => none

/-- The admissions of a run. -/
def admissions (a : Authorizer) (es : List Event) : List Admission :=
  trace (step cr) (admission cr) a es

/-! ### Uninterrupted runs -/

/-- The sections a step stands for. -/
def Event.sections : Event → List Approval.Event
  | register now src m order => Approval.sections 0 (instant now) order src m
  | poll stat file now => [.poll stat file now]

/-- **A run is a run of the sections** in which every request is done before the next one starts. -/
theorem run_sections (a : Authorizer) (es : List Event) :
    Machine.run (Approval.step cr) ⟨a, ∅⟩ (es.flatMap Event.sections) =
      ⟨Machine.run (step cr) a es, ∅⟩ := by
  induction es generalizing a with
  | nil => rfl
  | cons e es ih =>
    rw [flatMap_cons, run_append, run_cons, ← ih]
    congr 1
    cases e with
    | register now src m order =>
      have hfree : 0 ∉ (⟨a, ∅⟩ : Approval.State).requests := AList.notMem_empty 0
      cases hver : verifyRegistration cr now m with
      | true =>
        rw [step, if_pos hver]
        exact (sections_authorize (instant now) order src hfree hver).1
      | false =>
        simp [Event.sections, Approval.sections, Machine.run, Approval.step, step, instant, hver]
    | poll stat file now => rfl

/-! ### What a step does -/

/-- The cases of a step, with the admission it makes. -/
inductive Effect (a : Authorizer) : Event → Authorizer → Option Admission → Prop
  | idle (e : Event) : Effect a e a none
  | limited {now : ℤ} {src : UDPAddr} {m : Message} {order : List Bytes} :
      Effect a (.register now src m order) (a.allowEnroll (fromIP src.ip) now).1 none
  | recorded {now : ℤ} {src : UDPAddr} {m : Message} {order : List Bytes}
      (hver : verifyRegistration cr now m = true) (hkey : a.allowed m.pubkey = false)
      (hok : (a.allowEnroll (fromIP src.ip) now).2 = true) :
      Effect a (.register now src m order)
        ((a.allowEnroll (fromIP src.ip) now).1.recordPreAuth m.pubkey m.nonce now order)
        (some ⟨now, m⟩)
  | checked {now : ℤ} {src : UDPAddr} {m : Message} {order : List Bytes} :
      Effect a (.register now src m order) (a.replayed m.pubkey m.nonce now order).1 none
  | polled {stat : Authorizer.Stat} {file : Authorizer.FileRead} {now : ℤ} :
      Effect a (.poll stat file now) (a.pollOnce stat file now) none

/-- **Every step is one of the cases.** -/
theorem step_effect (a : Authorizer) (e : Event) :
    Effect cr a e (step cr a e) (admission cr a e) := by
  cases e with
  | poll stat file now => exact .polled
  | register now src m order =>
    cases hver : verifyRegistration cr now m with
    | false =>
      simp only [step, admission, hver, Bool.false_and, Bool.false_eq_true, if_false]
      exact .idle _
    | true =>
      simp only [step, admission, hver, if_true, Bool.true_and]
      cases hkey : a.allowed m.pubkey with
      | true =>
        simp only [Authorizer.authorize, hkey, Bool.not_true, Bool.false_and, Bool.false_eq_true,
          if_false]
        split_ifs
        · exact .idle _
        · exact .checked
      | false =>
        simp only [Authorizer.authorize, instant, hkey, Bool.not_false, Bool.true_and, if_true]
        by_cases hok : (a.allowEnroll (fromIP src.ip) now).2 = true
        · simp only [hok, Bool.not_true, Bool.false_eq_true, if_false, if_true]
          exact .recorded hver hkey hok
        · simp only [hok, Bool.not_false, Bool.false_eq_true, if_false, if_true]
          exact .limited

/-! ### The limiter and the cache -/

/-- The readings of a run. -/
def times (es : List Event) : List ℤ := es.map Event.time

/-- What is known after some events and their admissions: the limiter runs at its rates and its
books are in order for every window, every entry of the cache is an admission, and the admissions
are from the past. -/
structure Tracked (log : List Event) (a : Authorizer) (adm : List Admission) : Prop where
  rated : a.enroll.Rated 20 2
  books : ∀ lo hi, lo ≤ hi →
    (tokenPace 20).Books (seconds lo) (seconds hi) (a.enroll.global.level (tokenPace 20).rate)
      (adm.countP (·.within lo hi))
  noted : ∀ k seen, a.preAuthRegs.lookup k = some seen → (seen, k) ∈ adm.map Admission.note
  timed : ∀ x ∈ adm, x.now ∈ times log

variable {cr} {a : Authorizer} {log : List Event} {adm : List Admission}

theorem new_tracked (file : Authorizer.FileRead) (now : ℤ) : Tracked [] (new file now) [] := by
  have hnew : (new file now).enroll = Limiter.new 20 2 1024 now ∧
      (new file now).preAuthRegs = ∅ := by
    cases file <;> exact ⟨rfl, rfl⟩
  refine ⟨?_, fun lo hi hle => .new (seconds_mono hle), fun k seen h => ?_, nofun⟩
  · rw [hnew.1]
    exact rated_new 20 2 1024 now
  · rw [hnew.2] at h
    cases h

theorem Tracked.keep {a' : Authorizer} (h : Tracked log a adm) (e : Event)
    (henroll : a'.enroll = a.enroll)
    (hpre : ∀ k seen, a'.preAuthRegs.lookup k = some seen → a.preAuthRegs.lookup k = some seen) :
    Tracked (log ++ [e]) a' adm := by
  refine ⟨henroll ▸ h.rated, henroll ▸ h.books, fun k seen hk => h.noted k seen (hpre k seen hk),
    fun x hx => ?_⟩
  rw [times, map_append]
  exact mem_append_left _ (h.timed x hx)

theorem Admission.within_iff {lo hi : ℤ} {x : Admission} :
    x.within lo hi = true ↔ lo ≤ x.now ∧ x.now ≤ hi := by
  simp [Admission.within]

variable {now : ℤ}

theorem Tracked.record {src : Bytes} {m : Message} (h : Tracked log a adm) (e : Event)
    (order : List Bytes) (hnow : e.time = now) (hok : (a.allowEnroll src now).2 = true) :
    Tracked (log ++ [e])
      ((a.allowEnroll src now).1.recordPreAuth m.pubkey m.nonce now order) (adm ++ [⟨now, m⟩]) := by
  have henroll : ((a.allowEnroll src now).1.recordPreAuth m.pubkey m.nonce now order).enroll =
      (a.enroll.allow src now).1 := Authorizer.recordPreAuth_enroll ..
  refine ⟨?_, fun lo hi hle => ?_, fun k seen hk => ?_, fun x hx => ?_⟩
  · rw [henroll]
    exact h.rated.allow src now
  · rw [henroll, countP_append, countP_singleton]
    have hcall := h.rated.allow_call src now
    have hin : Admission.within lo hi ⟨now, m⟩ = true → (a.enroll.allow src now).2 = true ∧
        seconds lo ≤ seconds now ∧ seconds now ≤ seconds hi := by
      intro hwithin
      obtain ⟨hlo, hhi⟩ := Admission.within_iff.1 hwithin
      exact ⟨hok, seconds_mono hlo, seconds_mono hhi⟩
    simpa [Bool.toNat, Bool.cond_eq_ite] using (h.books lo hi hle).call hcall hin
  · rw [map_append]
    rcases Authorizer.lookup_of_recordPreAuth hk with hold | ⟨rfl, rfl⟩
    · exact mem_append_left _ (h.noted k seen hold)
    · exact mem_append_right _ (mem_singleton.2 rfl)
  · rw [times, map_append]
    rcases mem_append.1 hx with hx | hx
    · exact mem_append_left _ (h.timed x hx)
    · obtain rfl := mem_singleton.1 hx
      exact mem_append_right _ (mem_singleton.2 hnow.symm)

theorem Tracked.step (h : Tracked log a adm) (e : Event) :
    Tracked (log ++ [e]) (step cr a e) (adm ++ (admission cr a e).toList) := by
  have heff := step_effect cr a e
  generalize Enrollment.step cr a e = a' at heff ⊢
  generalize admission cr a e = x at heff ⊢
  cases heff with
  | idle =>
    rw [Option.toList_none, append_nil]
    exact h.keep e rfl fun _ _ hk => hk
  | @limited now src m order =>
    rw [Option.toList_none, append_nil]
    have hkeep := h.keep (.register now src m order) rfl fun _ _ hk => hk
    refine ⟨h.rated.allow _ now, fun lo hi hle => ?_, hkeep.noted, hkeep.timed⟩
    exact (h.books lo hi hle).fall (h.rated.allow_call (fromIP src.ip) now).falls
  | @recorded now src m order _ _ hok =>
    exact h.record (.register now src m order) order rfl hok
  | @checked now src m order =>
    rw [Option.toList_none, append_nil]
    refine h.keep _ ?_ fun _ _ => Authorizer.lookup_of_replayed
    rcases a.replayed_frame now order m.pubkey m.nonce with hsame | ⟨pre, -, hnew⟩
    · rw [hsame]
    · rw [hnew]
  | @polled stat file now =>
    rw [Option.toList_none, append_nil]
    obtain ⟨-, hpre, henroll⟩ := a.pollOnce_frame now stat file
    exact h.keep _ henroll fun k seen hk => hpre ▸ hk

/-- What is younger than the window are admissions of the last 120 s, so there is room. -/
theorem Tracked.young_length (h : Tracked log a adm) (hclock : ∀ t ∈ times log, t ≤ now) :
    (expire a.preAuthRegs now).keys.length ≤ 2440 := by
  have hwindow : 0 ≤ regReplayWindow := by decide
  have hbooks := h.books (now - regReplayWindow) now (by omega)
  -- one admission for each entry, and none for two
  have hsub : (expire a.preAuthRegs now).entries.map (fun e => (e.2, e.1)) ⊆
      (adm.filter (·.within (now - regReplayWindow) now)).map Admission.note := by
    intro x hx
    obtain ⟨⟨k, seen⟩, hmem, rfl⟩ := mem_map.1 hx
    obtain ⟨hlook, hyoung⟩ := lookup_of_expire (AList.mem_lookup_iff.2 hmem)
    obtain ⟨y, hy, hnote⟩ := mem_map.1 (h.noted k seen hlook)
    obtain ⟨rfl, -⟩ := Prod.mk.inj hnote
    have hpast := hclock y.now (h.timed y hy)
    refine mem_map.2 ⟨y, mem_filter.2 ⟨hy, ?_⟩, hnote⟩
    exact Admission.within_iff.2 ⟨by omega, hpast⟩
  have hnodup : ((expire a.preAuthRegs now).entries.map fun e => (e.2, e.1)).Nodup := by
    refine List.Nodup.of_map Prod.snd ?_
    rw [map_map]
    exact (expire a.preAuthRegs now).keys_nodup
  have hlen := (subperm_of_subset hnodup hsub).length_le
  rw [length_map, length_map, ← countP_eq_length_filter] at hlen
  have hkeys : (expire a.preAuthRegs now).keys.length =
      (expire a.preAuthRegs now).entries.length := length_map _
  have hcount := tokenPace_count_le hbooks
  have hspan : seconds (now - (now - regReplayWindow)) = 120 := by
    rw [sub_sub_cancel, seconds, regReplayWindow, regSkew]
    norm_num
  have hbound : adm.countP (·.within (now - regReplayWindow) now) ≤ 2440 := by
    have : ((adm.countP (·.within (now - regReplayWindow) now) : ℕ) : ℚ) ≤ (2440 : ℕ) := by
      push_cast at hcount ⊢
      linarith
    exact_mod_cast this
  omega

/-- The step removes no nonce that is younger than the window. -/
def Keeps (cr : Crypto) (a : Authorizer) (e : Event) : Prop :=
  ∀ k seen, a.preAuthRegs.lookup k = some seen → e.time - seen < regReplayWindow →
    (Enrollment.step cr a e).preAuthRegs.lookup k = some seen

/-- Making room for a nonce only drops expired ones. -/
theorem Tracked.makeRoom (h : Tracked log a adm) {seen : ℤ} {k : Bytes} (order : List Bytes)
    (hclock : ∀ t ∈ times log, t ≤ now) (hlook : a.preAuthRegs.lookup k = some seen)
    (hyoung : now - seen < regReplayWindow) :
    (NonceCache.makeRoom a.preAuthRegs now order).lookup k = some seen := by
  have hroom := h.young_length hclock
  unfold NonceCache.makeRoom
  dsimp only
  split_ifs with hfull hstill
  · unfold maxPreAuthRegs at hstill
    omega
  · exact lookup_expire hlook hyoung
  · exact hlook

theorem Tracked.keeps (h : Tracked log a adm) (e : Event)
    (hclock : ∀ t ∈ times log, t ≤ e.time) : Keeps cr a e := by
  intro k seen hlook hyoung
  have heff := step_effect cr a e
  generalize Enrollment.step cr a e = a' at heff ⊢
  generalize admission cr a e = x at heff
  cases heff with
  | idle => exact hlook
  | limited => exact hlook
  | @recorded now src m order =>
    rcases (a.allowEnroll (fromIP src.ip) now).1.recordPreAuth_cases now order m.pubkey m.nonce with
      hsame | ⟨hnot, hnew⟩
    · rw [hsame]
      exact hlook
    · rw [hnew]
      have hne : k ≠ regKey m.pubkey m.nonce := by
        rintro rfl
        exact hnot (AList.mem_keys.2 (Go.mem_keys_of_lookup hlook))
      rw [AList.lookup_insert_ne hne]
      exact h.makeRoom order hclock hlook hyoung
  | @checked now src m order => exact Authorizer.lookup_replayed order m.pubkey m.nonce hlook hyoung
  | @polled stat file now =>
    rw [(a.pollOnce_frame now stat file).2.1]
    exact hlook

/-! ### Recognition -/

/-- The nonce of a registration that is admitted is first seen after the registration's window
opened. -/
def FirstInWindow (cr : Crypto) (a : Authorizer) (e : Event) : Prop :=
  match admission cr a e with
  | some x => x.msg.ts * 1000000000 - regSkew <
      (a.preAuthRegs.lookup (regKey x.msg.pubkey x.msg.nonce)).getD x.now
  | none => True

instance (cr : Crypto) (a : Authorizer) (e : Event) : Decidable (FirstInWindow cr a e) := by
  unfold FirstInWindow
  split <;> infer_instance

/-- Every registration that was admitted has its entry while its timestamp is at most 60 s old. -/
def Known (log : List Event) (a : Authorizer) (adm : List Admission) : Prop :=
  ∀ x ∈ adm, (∀ t ∈ times log, t ≤ x.msg.ts * 1000000000 + regSkew) →
    x.msg.pubkey ≠ [] ∧ x.msg.nonce ≠ [] ∧ ∃ seen,
      a.preAuthRegs.lookup (regKey x.msg.pubkey x.msg.nonce) = some seen ∧
        x.msg.ts * 1000000000 - regSkew < seen

theorem Known.step (h : Known log a adm) (e : Event) (hkeeps : Keeps cr a e)
    (hfirst : FirstInWindow cr a e) :
    Known (log ++ [e]) (Enrollment.step cr a e) (adm ++ (admission cr a e).toList) := by
  intro x hx htimes
  have hlog : ∀ t ∈ times log, t ≤ x.msg.ts * 1000000000 + regSkew := fun t ht =>
    htimes t (by rw [times, map_append]; exact mem_append_left _ ht)
  have hnow : e.time ≤ x.msg.ts * 1000000000 + regSkew := htimes e.time (by simp [times])
  rcases mem_append.1 hx with hold | hnew
  · obtain ⟨hkey, hnonce, seen, hlook, hopen⟩ := h x hold hlog
    refine ⟨hkey, hnonce, seen, hkeeps _ seen hlook ?_, hopen⟩
    unfold regReplayWindow
    omega
  · have heff := step_effect cr a e
    unfold FirstInWindow at hfirst
    generalize Enrollment.step cr a e = a' at heff ⊢
    generalize admission cr a e = y at heff hnew hfirst
    cases heff with
    | @recorded now src m order hver hkey hok =>
      obtain rfl := mem_singleton.1 hnew
      have hpub := verifyRegistration_pubkey_ne_nil hver
      have hnonce := verifyRegistration_nonce_ne_nil hver
      exact ⟨hpub, hnonce, _, Authorizer.recordPreAuth_lookup _ now order hpub hnonce, hfirst⟩
    | _ => cases hnew

theorem admissions_concat (cr : Crypto) (a : Authorizer) (es : List Event) (e : Event) :
    admissions cr a (es ++ [e]) =
      admissions cr a es ++ (admission cr (Machine.run (step cr) a es) e).toList :=
  trace_concat _ _ _

theorem tracked_run (cr : Crypto) (file : Authorizer.FileRead) (start : ℤ) (es : List Event) :
    Tracked es (Machine.run (step cr) (new file start) es) (admissions cr (new file start) es) := by
  refine history_run
    (P := fun log (a : Authorizer) => Tracked log a (admissions cr (new file start) log))
    (new_tracked file start) (fun log e ih => ?_) es
  rw [admissions_concat]
  exact ih.step e

/-- **Nonces seen before an approval are not flushed.** However many registrations arrive, with a
clock that does not run backwards no nonce younger than the window is displaced. If moreover the
nonce of each registration that is admitted is first seen after the window of the registration
opened, every registration that was admitted is recognised while its timestamp is accepted. -/
theorem preauth_not_flushed (cr : Crypto) (file : Authorizer.FileRead) (start : ℤ)
    (es : List Event) (hclock : (times es).Pairwise (· ≤ ·)) :
    Along (step cr) (Keeps cr) (new file start) es ∧
    (Along (step cr) (FirstInWindow cr) (new file start) es →
      ∀ x ∈ admissions cr (new file start) es, ∀ now order, (∀ t ∈ times es, t ≤ now) →
        now ≤ x.msg.ts * 1000000000 + regSkew →
        ((Machine.run (step cr) (new file start) es).replayed x.msg.pubkey x.msg.nonce now
          order).2 = true) := by
  have hkeeps : Along (step cr) (Keeps cr) (new file start) es := by
    refine along_of_prefixes fun log e hp => (tracked_run cr file start log).keeps e ?_
    have hsorted := hclock.sublist (hp.sublist.map Event.time)
    rw [List.map_append] at hsorted
    intro t ht
    exact (List.pairwise_append.1 hsorted).2.2 t ht e.time (by simp)
  refine ⟨hkeeps, fun hG x hx now order hpast hlast => ?_⟩
  have hknown := history_along
    (P := fun log (a : Authorizer) => Known log a (admissions cr (new file start) log))
    (fun x hx => nomatch hx)
    (fun log e ih hG => by
      rw [admissions_concat]
      exact ih.step e hG.1 hG.2)
    (hkeeps.and hG)
  obtain ⟨hkey, hnonce, seen, hlook, hopen⟩ := hknown x hx fun t ht => (hpast t ht).trans hlast
  have hfresh := (fresh_iff hlook).2 (show now - seen < regReplayWindow by
    unfold regReplayWindow
    omega)
  rw [Authorizer.replayed_snd _ _ _ hkey hnonce, hfresh, Bool.or_true]

namespace Flood

open Sample Runs

/-- The registration with the timestamp 100 s. -/
def early : Message := registration 2 (lit "idA") 100 []

/-- It comes at the first instant of its window. -/
def firstInstant : List Event := [.register (40 * 1000000000) (home 2) early []]

/-- The key uses the nonce for another registration, a minute later. -/
def reused : List Event :=
  [.register (100 * 1000000000) (home 2) early [],
    .register (160 * 1000000000) (home 2) { early with ts := 160 } []]

/-- The key itself, strangers, one of them with a timestamp that is refused, and the approval. -/
def mixed : List Event :=
  [.register (41 * 1000000000) (home 2) early [],
    .register (45 * 1000000000) (home 4) (registration 4 (lit "idX") 300 []) [],
    .register (50 * 1000000000) (home 4) (registration 4 (lit "idX") 60 []) [],
    .register (50 * 1000000000) (home 4) (registration 4 (lit "idX") 61 []) [],
    .poll (.modified 2) (allowlist [2] 2) (90 * 1000000000)]

end Flood

open Sample Runs Flood in
/-- At the last instant of its window the registration is accepted and not recognised, when it came
at the first instant, and when its nonce had been seen with an earlier timestamp. -/
theorem preauth_not_flushed_fails :
    ((times firstInstant).Pairwise (· ≤ ·) ∧
      (admissions crypto (new .gone 0) firstInstant).map (·.msg) = [early] ∧
      verifyRegistration crypto (160 * 1000000000) early = true ∧
      ((Machine.run (step crypto) (new .gone 0) firstInstant).replayed early.pubkey early.nonce
        (160 * 1000000000) []).2 = false) ∧
    ((times reused).Pairwise (· ≤ ·) ∧
      (admissions crypto (new .gone 0) reused).map (·.msg) = [early, { early with ts := 160 }] ∧
      verifyRegistration crypto (220 * 1000000000) { early with ts := 160 } = true ∧
      ((Machine.run (step crypto) (new .gone 0) reused).replayed early.pubkey early.nonce
        (220 * 1000000000) []).2 = false) := by
  decide +kernel

open Sample Runs Flood in
/-- Approved in the meantime, the registration is recognised at the last instant of its window. -/
theorem preauth_not_flushed_mixed :
    (Machine.run (step crypto) (new .gone 0) mixed).allowed (key 2) = true ∧
    (admissions crypto (new .gone 0) mixed).length = 3 ∧
    ((Machine.run (step crypto) (new .gone 0) mixed).replayed early.pubkey early.nonce
      (160 * 1000000000) []).2 = true := by
  have hclock : (times mixed).Pairwise (· ≤ ·) := by decide +kernel
  have hG : Along (step crypto) (FirstInWindow crypto) (new .gone 0) mixed := by
    decide +kernel
  refine ⟨by decide +kernel, by decide +kernel, ?_⟩
  exact (preauth_not_flushed crypto .gone 0 mixed hclock).2 hG ⟨41 * 1000000000, early⟩
    (by decide +kernel) (160 * 1000000000) [] (by decide +kernel) (by decide +kernel)

end BuddyNet.Handshake.Enrollment
