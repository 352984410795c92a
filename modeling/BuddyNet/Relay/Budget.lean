import BuddyNet.RateLimit.Bounds
import BuddyNet.Relay.Steps

/-!
# The cost of verification

Ed25519 work at the relay is admitted by `admitTicketBind` alone: a bind draws from the reserve of
a half-open session or from the global ceiling, and then needs one of `maxSigInFlight` slots.
`step_budget` says what an event can do to the two limiters and to the goroutines. The bounds on
any window of time are those of the buckets that pay (`Pacing`): both global buckets, whatever the
clock does, and the bucket of a session id in the reserve, for arrivals in time order.
-/

namespace BuddyNet.Relay

open Pacing Limiter Machine List

/-- A bind that was admitted to verification. -/
structure Admission where
  time : ℤ
  sid : Bytes
  reserve : Bool
  deriving DecidableEq

variable (cr : Crypto) (P : Params)

/-- The admission an event makes: a bind whose goroutine it starts. -/
def admission (s : State) : Event → Option Admission
  | .recv now src pkt =>
    match parseBind pkt with
    | none => none
    | some b =>
      if s.jobs.length < (bind cr P s now b src pkt.length).1.jobs.length then
        some ⟨now, b.sessionToken, (chargeReserve s b.sessionToken now).2⟩
      else none
  | _ => none

/-- The admissions of a run. -/
def admissions (start : ℤ) (es : List Event) : List Admission :=
  trace (step cr P) (admission cr P) (State.new start) es

/-- The times at which the read loop took its datagrams. -/
def arrivals (es : List Event) : List ℤ :=
  es.filterMap fun
    | .recv now _ _ => some now
    | _ => none

/-- The admission falls in the window from `a` to `b`. -/
def Admission.within (a b : ℤ) (x : Admission) : Bool := a ≤ x.time && x.time ≤ b

variable {cr P}

/-! ### One event -/

theorem chargeBudget_bindRL (s : State) (rl : Limiter) (sid : Bytes) (now : ℤ) :
    chargeBudget { s with bindRL := rl } sid now =
      ({ (chargeBudget s sid now).1 with bindRL := rl }, (chargeBudget s sid now).2) := by
  unfold chargeBudget chargeReserve
  by_cases hopen : halfOpen s.toTable sid = true
  · simp only [hopen, if_true]
    split_ifs <;> rfl
  · simp only [hopen]
    rfl

/-- What an event can do to the budgets of verification and to the goroutines: nothing but let
one end, charge without admitting, or charge and admit. -/
inductive BudgetStep (cr : Crypto) (P : Params) (s s' : State) (e : Event) : Prop
  | idle (hsig : s'.sigRL = s.sigRL) (hreserve : s'.reserveRL = s.reserveRL)
    (hjobs : s'.jobs.length ≤ s.jobs.length) (hadm : admission cr P s e = none)
  | refused {now : ℤ} {src : UDPAddr} {pkt sid : Bytes} (he : e = .recv now src pkt)
    (hsig : s'.sigRL = (chargeBudget s sid now).1.sigRL)
    (hreserve : s'.reserveRL = (chargeBudget s sid now).1.reserveRL)
    (hjobs : s'.jobs = s.jobs) (hadm : admission cr P s e = none)
  | admitted {now : ℤ} {src : UDPAddr} {pkt sid : Bytes} (he : e = .recv now src pkt)
    (hsig : s'.sigRL = (chargeBudget s sid now).1.sigRL)
    (hreserve : s'.reserveRL = (chargeBudget s sid now).1.reserveRL)
    (hjobs : s'.jobs.length = s.jobs.length + 1) (hslot : s.jobs.length < maxSigInFlight)
    (hok : (chargeBudget s sid now).2 = true)
    (hadm : admission cr P s e = some ⟨now, sid, (chargeReserve s sid now).2⟩)

theorem admitTicketBind_budget (s : State) (now : ℤ) (b : Bind) (src : UDPAddr)
    (acct cookie : Bytes) :
    (admitTicketBind s now b src acct cookie).1 = s ∨
    ((admitTicketBind s now b src acct cookie).1.sigRL =
        (chargeBudget s b.sessionToken now).1.sigRL ∧
      (admitTicketBind s now b src acct cookie).1.reserveRL =
        (chargeBudget s b.sessionToken now).1.reserveRL ∧
      ((admitTicketBind s now b src acct cookie).1.jobs = s.jobs ∨
        (chargeBudget s b.sessionToken now).2 = true ∧ s.jobs.length < maxSigInFlight ∧
          (admitTicketBind s now b src acct cookie).1.jobs =
            s.jobs ++ [.queued b src acct cookie])) := by
  have hjobs := (chargeBudget_frame s b.sessionToken now).2
  unfold admitTicketBind
  dsimp only
  split_ifs with hticket hok hslot
  · exact Or.inl rfl
  · exact Or.inr ⟨rfl, rfl, Or.inl hjobs⟩
  · exact Or.inr ⟨rfl, rfl, Or.inl hjobs⟩
  · rw [hjobs] at hslot ⊢
    exact Or.inr ⟨rfl, rfl, Or.inr ⟨by simpa using hok, not_le.1 hslot, rfl⟩⟩

theorem admission_recv (cr : Crypto) (P : Params) (s : State) (now : ℤ) (src : UDPAddr)
    {pkt : Bytes} {b : Bind} (hb : parseBind pkt = some b) :
    admission cr P s (.recv now src pkt) =
      if s.jobs.length < (bind cr P s now b src pkt.length).1.jobs.length then
        some ⟨now, b.sessionToken, (chargeReserve s b.sessionToken now).2⟩
      else none := by
  simp only [admission, hb]

theorem step_budget (cr : Crypto) (P : Params) (s : State) (e : Event) :
    BudgetStep cr P s (step cr P s e) e := by
  cases e with
  | recv now src pkt =>
    cases hb : parseBind pkt with
    | none => refine .idle ?_ ?_ ?_ ?_ <;> simp [step, stepOut, admission, hb]
    | some b =>
      have hstep : step cr P s (.recv now src pkt) = (bind cr P s now b src pkt.length).1 := by
        simp only [step, stepOut, hb]
      have hadm := admission_recv cr P s now src hb
      rw [hstep]
      obtain ⟨rl, ⟨h, -⟩ | ⟨cookie, -, h⟩⟩ := bind_cases cr P s now b src pkt.length
      · rw [h] at hadm ⊢
        exact .idle rfl rfl le_rfl (hadm.trans (if_neg (lt_irrefl _)))
      · rw [h] at hadm ⊢
        by_cases htm : P.ticketMode = true
        · rw [if_pos htm] at hadm ⊢
          have hcharge := chargeBudget_bindRL s rl b.sessionToken now
          rcases admitTicketBind_budget { s with bindRL := rl } now b src
            (fromIP src.ip) cookie with
            hsame | ⟨hsig, hreserve, hjobs | ⟨hok, hslot, hjobs⟩⟩
          · rw [hsame] at hadm ⊢
            exact .idle rfl rfl le_rfl (hadm.trans (if_neg (lt_irrefl _)))
          · rw [hcharge] at hsig hreserve
            rw [hjobs] at hadm
            exact .refused rfl hsig hreserve hjobs (hadm.trans (if_neg (lt_irrefl _)))
          · rw [hcharge] at hsig hreserve hok
            have hlen := congrArg length hjobs
            rw [length_append, length_singleton] at hlen
            rw [hlen, if_pos (Nat.lt_succ_self _)] at hadm
            exact .admitted rfl hsig hreserve hlen hslot hok hadm
        · rw [if_neg htm] at hadm ⊢
          exact .idle rfl rfl le_rfl (hadm.trans (if_neg (lt_irrefl _)))
  | verify now i =>
    simp only [step, stepOut]
    split
    · split
      · exact .idle rfl rfl (by simp) rfl
      · exact .idle rfl rfl (length_eraseIdx_le s.jobs i) rfl
    · exact .idle rfl rfl le_rfl rfl
  | apply now i =>
    simp only [step, stepOut]
    split
    · exact .idle rfl rfl (length_eraseIdx_le s.jobs i) rfl
    · exact .idle rfl rfl le_rfl rfl
  | reap now order => exact .idle rfl rfl le_rfl rfl

/-! ### The buckets that pay -/

/-- Which buckets a bind is charged to: its reserve when that admits it, otherwise the global
ceiling, and the reserve again if it was asked first. -/
theorem chargeBudget_cases (s : State) (sid : Bytes) (now : ℤ) :
    ((chargeReserve s sid now).2 = true ∧
      (chargeBudget s sid now).1.sigRL = s.sigRL ∧
      (chargeBudget s sid now).1.reserveRL = (s.reserveRL.allow sid now).1 ∧
      (s.reserveRL.allow sid now).2 = true) ∨
    ((chargeReserve s sid now).2 = false ∧
      (chargeBudget s sid now).1.sigRL = (s.sigRL.allowGlobal now).1 ∧
      (chargeBudget s sid now).2 = (s.sigRL.allowGlobal now).2 ∧
      ((chargeBudget s sid now).1.reserveRL = s.reserveRL ∨
        (chargeBudget s sid now).1.reserveRL = (s.reserveRL.allow sid now).1)) := by
  unfold chargeBudget chargeReserve
  by_cases hopen : halfOpen s.toTable sid = true
  · simp only [hopen, if_true]
    cases hok : (s.reserveRL.allow sid now).2 with
    | true => exact Or.inl ⟨rfl, rfl, rfl, rfl⟩
    | false => exact Or.inr ⟨rfl, rfl, rfl, Or.inr rfl⟩
  · simp only [hopen]
    exact Or.inr ⟨rfl, rfl, rfl, Or.inl rfl⟩

/-- The limiters run at the rates they were made with. -/
structure Rated (s : State) : Prop where
  sig : s.sigRL.Rated 200 0
  reserve : s.reserveRL.Rated 20 4

variable {s : State} {sid : Bytes} {now τ : ℤ}

theorem rated_new (start : ℤ) : Rated (State.new start) :=
  ⟨rated_newGlobal 200 start, Limiter.rated_new 20 4 1024 start⟩

section

variable (h : Rated s)
include h

theorem Rated.chargeBudget : Rated (chargeBudget s sid now).1 := by
  rcases chargeBudget_cases s sid now with ⟨-, hs, hr, -⟩ | ⟨-, hs, -, hr | hr⟩
  · exact ⟨hs ▸ h.sig, hr ▸ h.reserve.allow sid now⟩
  · exact ⟨hs ▸ h.sig.allowGlobal now, hr ▸ h.reserve⟩
  · exact ⟨hs ▸ h.sig.allowGlobal now, hr ▸ h.reserve.allow sid now⟩

theorem Rated.step (e : Event) : Rated (step cr P s e) := by
  cases step_budget cr P s e with
  | idle hsig hreserve => exact ⟨hsig ▸ h.sig, hreserve ▸ h.reserve⟩
  | refused _ hsig hreserve => exact ⟨hsig ▸ h.chargeBudget.sig, hreserve ▸ h.chargeBudget.reserve⟩
  | admitted _ hsig hreserve =>
    exact ⟨hsig ▸ h.chargeBudget.sig, hreserve ▸ h.chargeBudget.reserve⟩

variable (sid : Bytes)

/-- The global ceiling pays for the binds that no reserve admitted. -/
theorem Rated.sig_call (now : ℤ) :
    (tokenPace 200).Call (seconds now) (s.sigRL.global.level (tokenPace 200).rate)
      ((Relay.chargeBudget s sid now).1.sigRL.global.level (tokenPace 200).rate)
      ((Relay.chargeBudget s sid now).2 && !(chargeReserve s sid now).2) := by
  rcases chargeBudget_cases s sid now with ⟨hv, hs, -, -⟩ | ⟨hv, hs, hok, -⟩
  · rw [hv, hs, Bool.not_true, Bool.and_false]
    exact .refused le_rfl
  · rw [hv, hs, hok, Bool.not_false, Bool.and_true]
    exact h.sig.allowGlobal_call now

/-- The global bucket of the reserve pays for the others. -/
theorem Rated.reserve_call (now : ℤ) :
    (tokenPace 20).Call (seconds now) (s.reserveRL.global.level (tokenPace 20).rate)
      ((Relay.chargeBudget s sid now).1.reserveRL.global.level (tokenPace 20).rate)
      (chargeReserve s sid now).2 := by
  have hcall := h.reserve.allow_call sid now
  rcases chargeBudget_cases s sid now with ⟨hv, -, hr, hok⟩ | ⟨hv, -, -, hr | hr⟩ <;> rw [hv, hr]
  · rwa [hok] at hcall
  · exact .refused le_rfl
  · exact hcall.weaken (nomatch ·)

theorem Rated.reserve_source_call (hτ : τ ≤ now) (k : Bytes) :
    (tokenPace 4).Call (seconds now) (s.reserveRL.sourceLevel k τ)
      ((Relay.chargeBudget s sid now).1.reserveRL.sourceLevel k now)
      (decide (sid = k) && (chargeReserve s sid now).2) := by
  have hsame := (Limiter.Forgets.refl now s.reserveRL).sourceLevel_le hτ k
  obtain ⟨hself, hother⟩ := h.reserve.allow_source_call sid hτ
  by_cases hk : sid = k
  · subst hk
    rw [decide_eq_true rfl, Bool.true_and]
    rcases chargeBudget_cases s sid now with ⟨hv, -, hr, hok⟩ | ⟨hv, -, -, hr | hr⟩ <;> rw [hv, hr]
    · rwa [hok] at hself
    · exact .refused hsame
    · exact hself.weaken (nomatch ·)
  · rw [decide_eq_false hk, Bool.false_and]
    refine .refused ?_
    rcases chargeBudget_cases s sid now with ⟨-, -, hr, -⟩ | ⟨-, -, -, hr | hr⟩ <;> rw [hr]
    · exact hother k
    · exact hsame
    · exact hother k

end

/-! ### Runs -/

theorem countP_concat {α : Type*} (p : α → Bool) (l : List α) (x : α) :
    (l ++ [x]).countP p = l.countP p + (p x).toNat := by
  cases h : p x <;> simp [h]

theorem admissions_concat (start : ℤ) (es : List Event) (e : Event) :
    admissions cr P start (es ++ [e]) =
      admissions cr P start es ++ (admission cr P (runFrom cr P start es) e).toList :=
  trace_concat _ es e

variable {a b : ℤ} {x : Admission}

theorem Admission.within_iff : x.within a b = true ↔ a ≤ x.time ∧ x.time ≤ b := by
  simp [Admission.within]

/-- One event, on the books of a bucket of the two limiters that pays for the admissions `q`. -/
theorem books_step {p : Pace ℚ} (level : Limiter → Limiter → ℚ) {q : Admission → Bool}
    {ok : ℤ → Bytes → Bool} {log : List Admission} {e : Event}
    (h : p.Books (seconds a) (seconds b) (level s.sigRL s.reserveRL) (log.countP q))
    (hcall : ∀ now src pkt sid, e = .recv now src pkt →
      p.Call (seconds now) (level s.sigRL s.reserveRL)
        (level (chargeBudget s sid now).1.sigRL (chargeBudget s sid now).1.reserveRL) (ok now sid))
    (hq : ∀ now sid, (chargeBudget s sid now).2 = true →
      q ⟨now, sid, (chargeReserve s sid now).2⟩ = true → ok now sid = true ∧ a ≤ now ∧ now ≤ b) :
    p.Books (seconds a) (seconds b) (level (step cr P s e).sigRL (step cr P s e).reserveRL)
      ((log ++ (admission cr P s e).toList).countP q) := by
  cases step_budget cr P s e with
  | idle hsig hreserve _ hadm =>
    rw [hadm, hsig, hreserve, Option.toList_none, append_nil]
    exact h
  | @refused now src pkt sid he hsig hreserve _ hadm =>
    rw [hadm, hsig, hreserve, Option.toList_none, append_nil]
    exact h.fall (hcall now src pkt sid he).falls
  | @admitted now src pkt sid he hsig hreserve _ _ hok hadm =>
    rw [hadm, hsig, hreserve, Option.toList_some, countP_concat]
    refine h.call (hcall now src pkt sid he) fun hcount => ?_
    obtain ⟨hyes, hlo, hhi⟩ := hq now sid hok hcount
    exact ⟨hyes, seconds_mono hlo, seconds_mono hhi⟩

section

variable (cr : Crypto) (P : Params) (start : ℤ) (es : List Event)

theorem rated_run : Rated (runFrom cr P start es) :=
  invariant_run (fun _ e h => h.step e) (rated_new start) es

theorem ceiling_run (hab : a ≤ b) :
    (tokenPace 200).Books (seconds a) (seconds b)
      ((runFrom cr P start es).sigRL.global.level (tokenPace 200).rate)
      ((admissions cr P start es).countP fun x => x.within a b && !x.reserve) := by
  refine history_run
    (P := fun log (s : State) => (tokenPace 200).Books (seconds a) (seconds b)
      (s.sigRL.global.level (tokenPace 200).rate)
      ((admissions cr P start log).countP fun x => x.within a b && !x.reserve))
    (.new (seconds_mono hab)) ?_ es
  intro log e ih
  rw [admissions_concat]
  refine books_step (fun sig _ => sig.global.level (tokenPace 200).rate) ih
    (fun now _ _ sid _ => (rated_run cr P start log).sig_call sid now) fun now sid hok hcount => ?_
  obtain ⟨hin, hvia⟩ := Bool.and_eq_true_iff.1 hcount
  exact ⟨Bool.and_eq_true_iff.2 ⟨hok, hvia⟩, Admission.within_iff.1 hin⟩

theorem reserve_run (hab : a ≤ b) :
    (tokenPace 20).Books (seconds a) (seconds b)
      ((runFrom cr P start es).reserveRL.global.level (tokenPace 20).rate)
      ((admissions cr P start es).countP fun x => x.within a b && x.reserve) := by
  refine history_run
    (P := fun log (s : State) => (tokenPace 20).Books (seconds a) (seconds b)
      (s.reserveRL.global.level (tokenPace 20).rate)
      ((admissions cr P start log).countP fun x => x.within a b && x.reserve))
    (.new (seconds_mono hab)) ?_ es
  intro log e ih
  rw [admissions_concat]
  refine books_step (fun _ reserve => reserve.global.level (tokenPace 20).rate) ih
    (fun now _ _ sid _ => (rated_run cr P start log).reserve_call sid now)
    fun now sid _ hcount => ?_
  obtain ⟨hin, hvia⟩ := Bool.and_eq_true_iff.1 hcount
  exact ⟨hvia, Admission.within_iff.1 hin⟩

theorem arrivals_concat (e : Event) : arrivals (es ++ [e]) = arrivals es ++ arrivals [e] :=
  filterMap_append

/-- The reserve of one session id over a window, for arrivals in time order: at every time `τ` that
is not before the last arrival. -/
theorem reserve_source_run (hab : a ≤ b) (sid : Bytes) :
    (arrivals es).Pairwise (· ≤ ·) → ∀ τ, (∀ t ∈ arrivals es, t ≤ τ) →
      (tokenPace 4).Books (seconds a) (seconds b)
        ((runFrom cr P start es).reserveRL.sourceLevel sid τ)
        ((admissions cr P start es).countP fun x =>
          x.within a b && (decide (x.sid = sid) && x.reserve)) := by
  refine history_run (P := fun log (s : State) => (arrivals log).Pairwise (· ≤ ·) →
      ∀ τ, (∀ t ∈ arrivals log, t ≤ τ) →
      (tokenPace 4).Books (seconds a) (seconds b) (s.reserveRL.sourceLevel sid τ)
        ((admissions cr P start log).countP fun x =>
          x.within a b && (decide (x.sid = sid) && x.reserve)))
    (fun _ _ _ => .new (seconds_mono hab)) ?_ es
  intro log e ih hsorted τ hτ
  have hrated := rated_run cr P start log
  rw [arrivals_concat] at hsorted hτ
  obtain ⟨hlog, -, hlast⟩ := pairwise_append.1 hsorted
  have hq : ∀ now sid', (chargeBudget (runFrom cr P start log) sid' now).2 = true →
      ((Admission.within a b
          ⟨now, sid', (chargeReserve (runFrom cr P start log) sid' now).2⟩) &&
        (decide (sid' = sid) && (chargeReserve (runFrom cr P start log) sid' now).2)) = true →
      (decide (sid' = sid) && (chargeReserve (runFrom cr P start log) sid' now).2) = true ∧
        a ≤ now ∧ now ≤ b := by
    intro now sid' _ hcount
    obtain ⟨hin, hvia⟩ := Bool.and_eq_true_iff.1 hcount
    exact ⟨hvia, Admission.within_iff.1 hin⟩
  rw [admissions_concat]
  -- the potential is taken at the time of an arrival, and only falls after it
  by_cases harr : ∃ now src pkt, e = .recv now src pkt
  · obtain ⟨now, src, pkt, rfl⟩ := harr
    have hnow : now ∈ arrivals [.recv now src pkt] := by simp [arrivals]
    have hbooks := @books_step cr P _ a b _ (fun _ reserve => reserve.sourceLevel sid now)
      _ _ _ (.recv now src pkt)
      (ih hlog now fun t ht => hlast t ht now hnow) ?_ hq
    · exact hbooks.fall ((Forgets.refl τ _).sourceLevel_le
        (hτ now (mem_append_right _ hnow)) sid)
    · intro now' _ _ sid' he
      obtain ⟨rfl, -, -⟩ := Event.recv.inj he
      exact hrated.reserve_source_call sid' le_rfl sid
  · refine books_step (fun _ reserve => reserve.sourceLevel sid τ)
      (ih hlog τ fun t ht => hτ t (mem_append_left _ ht)) ?_ hq
    intro now src pkt _ he
    exact absurd ⟨now, src, pkt, he⟩ harr

theorem jobs_run : (runFrom cr P start es).jobs.length ≤ maxSigInFlight := by
  refine invariant_run (P := fun s : State => s.jobs.length ≤ maxSigInFlight) ?_
    (Nat.zero_le _) es
  intro s e h
  cases step_budget cr P s e with
  | idle _ _ hjobs => exact hjobs.trans h
  | refused _ _ _ hjobs => rwa [hjobs]
  | admitted _ _ _ hjobs hslot => omega

end

/-- A bind without a valid cookie starts no verification. -/
theorem admission_of_no_cookie {src : UDPAddr} {pkt : Bytes} {b : Bind}
    (hb : parseBind pkt = some b) (hcookie : validCookie cr P b.cookie src now = none) :
    admission cr P s (.recv now src pkt) = none := by
  obtain ⟨rl, ⟨h, -⟩ | ⟨cookie, hvalid, -⟩⟩ := bind_cases cr P s now b src pkt.length
  · rw [admission_recv cr P s now src hb, h]
    exact if_neg (lt_irrefl _)
  · rw [hcookie] at hvalid
    cases hvalid

/-- **Signature work at the relay is bounded.** Over every run and every window of time, in exact
arithmetic: at most `(400 + 200 T) + (40 + 20 T)` binds are admitted to verification; for arrivals
in time order at most `8 + 4 T` are admitted through the reserve of any one session id; at most 32
verifications are running; and a bind without a valid cookie is not admitted. -/
theorem signature_work_bounded (cr : Crypto) (P : Params) (start : ℤ) (es : List Event) :
    (∀ a b, a ≤ b →
      ((admissions cr P start es).countP (·.within a b) : ℚ) ≤
        (400 + 200 * seconds (b - a)) + (40 + 20 * seconds (b - a))) ∧
    ((arrivals es).Pairwise (· ≤ ·) → ∀ sid a b, a ≤ b →
      ((admissions cr P start es).countP
          (fun x => x.within a b && (decide (x.sid = sid) && x.reserve)) : ℚ) ≤
        8 + 4 * seconds (b - a)) ∧
    (runFrom cr P start es).jobs.length ≤ 32 ∧
    ∀ now src pkt b, parseBind pkt = some b → validCookie cr P b.cookie src now = none →
      admission cr P (runFrom cr P start es) (.recv now src pkt) = none := by
  refine ⟨fun a b hab => ?_, fun hclock sid a b hab => ?_, jobs_run cr P start es,
    fun now src pkt b hb hcookie => admission_of_no_cookie hb hcookie⟩
  · have hceil := tokenPace_count_le (ceiling_run cr P start es hab)
    have hspare := tokenPace_count_le (reserve_run cr P start es hab)
    have hsplit : (admissions cr P start es).countP (·.within a b) =
        ((admissions cr P start es).countP fun x => x.within a b && !x.reserve) +
          (admissions cr P start es).countP fun x => x.within a b && x.reserve := by
      generalize admissions cr P start es = log
      induction log with
      | nil => rfl
      | cons x log ih =>
        simp only [countP_cons, ih]
        cases x.within a b <;> cases x.reserve <;> simp <;> omega
    rw [hsplit]
    push_cast at hceil hspare ⊢
    linarith
  · obtain ⟨τ, hτ⟩ : ∃ τ : ℤ, ∀ t ∈ arrivals es, t ≤ τ := by
      obtain ⟨τ, hτ⟩ := (arrivals es).toFinset.bddAbove
      exact ⟨τ, fun t ht => hτ (by simpa using ht)⟩
    have hsource := tokenPace_count_le (reserve_source_run cr P start es hab sid hclock τ hτ)
    push_cast at hsource ⊢
    linarith

end BuddyNet.Relay
