import BuddyNet.Go.Base64Text
import BuddyNet.Relay.Admission
import BuddyNet.Relay.Isolation

/-!
# What the relay answers

An unproven source gets no state: a datagram without a cookie that is valid for its source stores a
time at most. And no source gets more than it sends: the challenge is withheld when it is not
shorter than the bind, and an acknowledgement repeats only the session token, while the bind that
is acknowledged carried the token and a cookie, in whatever JSON the lenient parser takes
(`ack_lt_bind`).
-/

namespace BuddyNet.Relay

open List

variable {cr : Crypto} {P : Params}

/-! ### Lengths -/

theorem plain_of_base64urlOnly {s : Bytes} (h : base64urlOnly s = true) :
    ∀ c ∈ s, Go.Json.Plain c :=
  fun c hc => (base64urlOnly_iff.1 h c hc).plain

theorem ack_length {tok : Bytes} (h : base64urlOnly tok = true) :
    (marshalBind { sessionToken := tok }).length = tok.length + 16 := by
  have hprefix : bindPrefix.length = 8 := by decide
  have hopen : (lit "\x7b\"s\":").length = 5 := by decide
  have hclose : (lit "\x7d").length = 1 := by decide
  simp only [marshalBind, optionalMember, if_true, append_nil, length_append, hprefix,
    hopen, hclose, Go.Json.quote_plain (plain_of_base64urlOnly h), length_singleton]
  omega

variable {out : Bytes}

theorem decode_asciiLen {s : Bytes} (h : rawURLEncoding.decode s = some out) :
    out.length ≤ Go.asciiLen s := by
  have hlen := decode_length h
  rw [Go.asciiLen_eq_length (decode_ascii h)]
  omega

variable {pkt : Bytes} {b : Bind}

/-- What a bind with a cookie is at least as long as: its prefix, its token and the cookie. -/
theorem parseBind_length (h : parseBind pkt = some b) :
    base64urlOnly b.sessionToken = true ∧
      b.sessionToken.length + Go.asciiLen b.cookie + 8 ≤ pkt.length := by
  unfold parseBind at h
  split_ifs at h with hshape
  split at h
  · cases h
  · next b' hb' =>
    split_ifs at h with hwf
    cases h
    have hurl : base64urlOnly b.sessionToken = true := (Bool.and_eq_true_iff.1 hwf).2
    have hpre : bindPrefix.length = 8 := by decide
    refine ⟨hurl, ?_⟩
    obtain ⟨v, hv, hb'⟩ := Option.bind_eq_some_iff.1 hb'
    obtain ⟨ms, hms, hb'⟩ := Option.bind_eq_some_iff.1 hb'
    obtain ⟨tok, htok, hb'⟩ := Option.bind_eq_some_iff.1 hb'
    obtain ⟨cookie, hcookie, hb'⟩ := Option.bind_eq_some_iff.1 hb'
    obtain ⟨t, -, hb'⟩ := Option.bind_eq_some_iff.1 hb'
    obtain ⟨ts, -, hb'⟩ := Option.bind_eq_some_iff.1 hb'
    obtain ⟨bs, -, hb'⟩ := Option.bind_eq_some_iff.1 hb'
    cases hb'
    have hascii : Go.asciiLen tok = tok.length :=
      Go.asciiLen_eq_length fun c hc => (plain_of_base64urlOnly hurl c hc).2.1
    have hsize := Go.Json.stringFields_size hv hms (by decide) htok hcookie
    rw [length_drop, hascii] at hsize
    show tok.length + Go.asciiLen cookie + 8 ≤ pkt.length
    omega

variable {src : UDPAddr} {now : ℤ} {cookie : Bytes}

theorem validCookie_length {b64 : Bytes}
    (h : validCookie cr P b64 src now = some cookie) : cookie.length = cookieLen := by
  unfold validCookie at h
  split_ifs at h
  split at h
  · cases h
  · split_ifs at h with hlen heq
    cases h
    exact not_not.1 hlen

/-- **An acknowledgement is shorter than every bind with its token and a valid cookie.** -/
theorem ack_lt_bind
    (hb : parseBind pkt = some b) (hc : validCookie cr P b.cookie src now = some cookie) :
    (marshalBind { sessionToken := b.sessionToken }).length < pkt.length := by
  obtain ⟨hurl, hlen⟩ := parseBind_length hb
  have hcookie := decode_asciiLen (validCookie_spec hc).1
  rw [validCookie_length hc, cookieLen] at hcookie
  rw [ack_length hurl]
  omega

/-! ### Answers -/

theorem verifyTicketBind_error {o : Output} (h : verifyTicketBind cr P now b cookie = .error o) :
    ∃ reason sid leg, o = .rejected reason sid leg := by
  unfold verifyTicketBind at h
  split at h
  · split_ifs at h
    · cases h; exact ⟨_, _, _, rfl⟩
    · cases h; exact ⟨_, _, _, rfl⟩
    · split at h
      · cases h; exact ⟨_, _, _, rfl⟩
      · split at h
        · cases h; exact ⟨_, _, _, rfl⟩
        · split at h
          · cases h; exact ⟨_, _, _, rfl⟩
          · split_ifs at h
            · cases h; exact ⟨_, _, _, rfl⟩
            · split at h
              · cases h; exact ⟨_, _, _, rfl⟩
              · split_ifs at h
                cases h; exact ⟨_, _, _, rfl⟩
  · cases h; exact ⟨_, _, _, rfl⟩

theorem mem_admitTicketBind {s : State} {acct : Bytes}
    {o : Output} (h : o ∈ (admitTicketBind s now b src acct cookie).2) :
    ∃ reason, o = .rejected reason b.sessionToken [] := by
  unfold admitTicketBind at h
  dsimp only at h
  split_ifs at h
  all_goals first
    | exact ⟨_, mem_singleton.1 h⟩
    | cases h

variable {dst : UDPAddr}

theorem Answered.mem_send {t t' : Table} {tok : Bytes} {os : List Output}
    (h : Answered t t' tok src os) (ho : .send dst out ∈ os) :
    dst = src ∧ out = marshalBind { sessionToken := tok } := by
  rcases h with rfl | ⟨-, hrej⟩
  · have := mem_singleton.1 ho
    simp only [ack, Output.send.injEq] at this
    exact this
  · obtain ⟨reason, leg, heq⟩ := hrej _ ho
    cases heq

theorem recv_answer_lt {s : State} (hb : parseBind pkt = some b)
    (ho : .send dst out ∈ (stepOut cr P s (.recv now src pkt)).2) :
    dst = src ∧ out.length < pkt.length := by
  simp only [stepOut, hb] at ho
  obtain ⟨rl, ⟨-, hchal⟩ | ⟨cookie, hcookie, h⟩⟩ := bind_cases cr P s now b src pkt.length
  · obtain ⟨heq, hlt⟩ := hchal _ ho
    cases heq
    exact ⟨rfl, hlt⟩
  · rw [h] at ho
    split at ho
    · obtain ⟨reason, heq⟩ := mem_admitTicketBind ho
      cases heq
    · obtain ⟨rfl, rfl⟩ := (bindNetworkMode_spec s.toTable now b.sessionToken src _).2.mem_send ho
      exact ⟨rfl, ack_lt_bind hb hcookie⟩

theorem apply_answer_lt {start : ℤ} {es : List Event} {e : Event}
    (he : ∀ now src pkt, e ≠ .recv now src pkt)
    (ho : .send dst out ∈ (stepOut cr P (runFrom cr P start es) e).2) :
    ∃ now i p acct, e = .apply now i ∧
      (runFrom cr P start es).jobs[i]? = some (.verified p dst acct) ∧
      ∃ pre v k post b acct' cookie, es = pre ++ .verify v k :: post ∧
        (runFrom cr P start pre).jobs[k]? = some (.queued b dst acct' cookie) ∧
        verifyTicketBind cr P v b cookie = .ok p ∧ b.sessionToken = p.sid ∧
        (∃ arrival pkt, .recv arrival dst pkt ∈ pre ∧ parseBind pkt = some b) ∧
        ∀ pkt, parseBind pkt = some b → out.length < pkt.length := by
  cases e with
  | recv now src pkt => exact absurd rfl (he now src pkt)
  | verify now i =>
    simp only [stepOut] at ho
    split at ho
    · split at ho
      · cases ho
      · next o hver =>
        obtain ⟨reason, sid, leg, rfl⟩ := verifyTicketBind_error hver
        cases mem_singleton.1 ho
    · cases ho
  | apply now i =>
    simp only [stepOut] at ho
    split at ho
    · next p src acct hjob =>
      obtain ⟨rfl, rfl⟩ := (bindTicketed_spec _ now p src acct).2.mem_send ho
      obtain ⟨pre, v, k, post, b, acct', cookie, rfl, hqueued, ⟨arrival, pkt, hmem, hb, hc⟩,
        hver⟩ := jobs_origin start es _ (mem_of_getElem? hjob)
      obtain ⟨_, -, hproven⟩ :=
        @verifyTicketBind_proven cr P (fun _ _ => True) _ _ (fun _ _ _ _ => trivial) _ _ _ _ hc hver
      have hsid := hproven.session
      refine ⟨now, i, p, acct, rfl, hjob, pre, v, k, post, b, acct', cookie, rfl, hqueued, hver,
        hsid, ⟨arrival, pkt, hmem, hb⟩, fun pkt' hb' => ?_⟩
      rw [← hsid]
      exact ack_lt_bind hb' hc
    · cases ho
  | reap now order => cases ho

/-! ### Unproven sources -/

/-- **No amplifier and no state oracle.** A datagram that carries no cookie valid for its source
leaves sessions, address table, counters, partner pointers and goroutines as they are, in every
state. What the relay sends in answer to a bind goes to its source and is strictly shorter than
the bind: from the read loop in every state (challenge, and acknowledgement in network mode), and
from a goroutine in every run (acknowledgement in ticket mode), where the bind is the one that was
queued for the goroutine and whose ticket it has verified. -/
theorem relay_no_amplifier (cr : Crypto) (P : Params) :
    (∀ s now src pkt, (∀ b, parseBind pkt = some b → validCookie cr P b.cookie src now = none) →
      (step cr P s (.recv now src pkt)).sessions = s.sessions ∧
      (step cr P s (.recv now src pkt)).byAddr = s.byAddr ∧
      (step cr P s (.recv now src pkt)).legsPerIP = s.legsPerIP ∧
      (∀ f, ((step cr P s (.recv now src pkt)).fwd f).peer = (s.fwd f).peer) ∧
      (step cr P s (.recv now src pkt)).jobs = s.jobs) ∧
    (∀ s now src pkt b dst out, parseBind pkt = some b →
      .send dst out ∈ (stepOut cr P s (.recv now src pkt)).2 →
      dst = src ∧ out.length < pkt.length) ∧
    ∀ start es e dst out, (∀ now src pkt, e ≠ .recv now src pkt) →
      .send dst out ∈ (stepOut cr P (runFrom cr P start es) e).2 →
      ∃ now i p acct, e = .apply now i ∧
        (runFrom cr P start es).jobs[i]? = some (.verified p dst acct) ∧
        ∃ pre v k post b acct' cookie, es = pre ++ .verify v k :: post ∧
          (runFrom cr P start pre).jobs[k]? = some (.queued b dst acct' cookie) ∧
          verifyTicketBind cr P v b cookie = .ok p ∧ b.sessionToken = p.sid ∧
          (∃ arrival pkt, .recv arrival dst pkt ∈ pre ∧ parseBind pkt = some b) ∧
          ∀ pkt, parseBind pkt = some b → out.length < pkt.length := by
  refine ⟨fun s now src pkt hno => ?_, fun s now src pkt b dst out hb ho => recv_answer_lt hb ho,
    fun start es e dst out he ho => apply_answer_lt he ho⟩
  cases hb : parseBind pkt with
  | none =>
    simp only [step, stepOut, hb]
    unfold forward
    split
    · exact ⟨rfl, rfl, rfl, fun _ => rfl, trivial⟩
    · exact ⟨rfl, rfl, rfl, fun f => touch_peer _ f, trivial⟩
  | some b =>
    simp only [step, stepOut, hb]
    obtain ⟨rl, ⟨h, -⟩ | ⟨cookie, hcookie, -⟩⟩ := bind_cases cr P s now b src pkt.length
    · rw [h]
      exact ⟨rfl, rfl, rfl, fun _ => rfl, rfl⟩
    · rw [hno b hb] at hcookie
      cases hcookie

end BuddyNet.Relay
