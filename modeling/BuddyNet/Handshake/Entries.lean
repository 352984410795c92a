import BuddyNet.Go.NetText
import BuddyNet.Handshake.Request
import BuddyNet.Handshake.Shape

/-!
# The records behind a roster

The server as a sequence of turns: a request is handled to its end before the next one begins. Every
record in use is then one that can be presented to a buddy (`Presentable`): the id and the name pass
the server's own checks, the virtual address is the one the key derives, and each candidate is the
text of an address that a request came from.
-/

namespace BuddyNet.Handshake

open Registry

variable {cr : Crypto} {srv : Server} {ids : ℕ → Bytes}

/-- A time whose seconds fit in an `int64`. -/
def Unix64 (now : ℤ) : Prop := -2 ^ 63 ≤ now / 1000000000 ∧ now / 1000000000 < 2 ^ 63

/-! ### Records -/

/-- What a record is before a registration writes to it. -/
structure Begun (p : HsPeer) : Prop where
  id : validField p.id = true
  name : p.name = [] ∨ validName p.name = true
  few_cands : p.cands.keys.length ≤ 8
  addressed : ∀ {k c}, p.cands.lookup k = some c → c.addr = k
  endpoints : ∀ {k c}, p.cands.lookup k = some c →
    ∃ src : UDPAddr, src.Unicast ∧ c = candidateOf src

/-- A record that can be presented to a buddy. -/
structure Presentable (cr : Crypto) (p : HsPeer) : Prop extends Begun p where
  pubkey : Go.Utf8 p.pubkey
  vip : VipDerived cr p.pubkey p.virtualIP
  seen : Unix64 p.seen

theorem begun_new {id : Bytes} (h : validField id = true) : Begun { id := id } where
  id := h
  name := Or.inl rfl
  few_cands := Nat.zero_le _
  addressed := nofun
  endpoints := nofun

theorem fieldWrites_name_seen (m : Message) (src : UDPAddr) (now : ℤ) (p : HsPeer) :
    (((fieldWrites m src now).foldl FieldWrite.apply p).name = p.name ∨
      validName ((fieldWrites m src now).foldl FieldWrite.apply p).name = true) ∧
    ((fieldWrites m src now).foldl FieldWrite.apply p).seen = now := by
  obtain ⟨q, -, hseen, hname, heq⟩ := fieldWrites_observe m src now p
  rw [heq]
  rcases apply_cand q src.string (candidateOf src) with h | h <;> rw [h]
  · exact ⟨hname, hseen⟩
  · exact ⟨hname, hseen⟩

/-- What `pairRegister` has established of a registration when it calls `upsert`. -/
structure Proven (cr : Crypto) (m : Message) : Prop where
  id : validField m.id = true
  pubkey : Go.Utf8 m.pubkey
  key : m.pubkey ≠ []
  vip : ThroughDeriveVIP cr m

variable {m : Message} {src : UDPAddr} {now : ℤ}

/-- **A registration leaves a record that can be presented.** -/
theorem Begun.stored {p : HsPeer} (h : Begun p) (hm : Proven cr m)
    (hsrc : src.Unicast) (hnow : Unix64 now) :
    Presentable cr ((fieldWrites m src now).foldl FieldWrite.apply p) := by
  have hstored := fieldWrites_stored m src now p
  obtain ⟨hname, hseen⟩ := fieldWrites_name_seen m src now p
  have hreach := fieldWrites_reachable m src now h.few_cands h.addressed
  refine ⟨⟨?_, ?_, hreach.few_cands, hreach.addressed, ?_⟩, ?_, vipDerived_stored hm.vip src now p,
    ?_⟩
  · rw [hstored.id]
    exact h.id
  · rcases hname with hname | hname
    · rw [hname]
      exact h.name
    · exact Or.inr hname
  · intro k c hc
    rcases hstored.cands hc with hold | rfl
    · exact h.endpoints hold
    · exact ⟨src, hsrc, rfl⟩
  · rw [hstored.pubkey hm.key]
    exact hm.pubkey
  · rw [hseen]
    exact hnow

/-! ### Requests -/

/-- A turn of the server: a request, a pass of the reaper, or anything that changes the limiter and
the authorizer. -/
inductive Turn where
  | request (t : Clock) (o : Orders) (req : ControlRequest)
  | reap (now : ℤ)
  | others (rl : Limiter) (authz : Option Authorizer)

/-- The server after a turn. -/
def turn (cr : Crypto) (srv : Server) (ids : ℕ → Bytes) (s : Shared) : Turn → Shared
  | .request t o req => (handleControlReq cr srv ids s t o req).1
  | .reap now => { s with reg := s.reg.reap srv.params.ttl now }
  | .others rl authz => { s with rl := rl, authz := authz }

/-- Requests come from unicast addresses. -/
def ControlRequest.FromUnicast (req : ControlRequest) : Prop := ∀ src ∈ req.remote, src.Unicast

/-- The same for a turn, with a clock that the server can represent. -/
def Turn.Plausible : Turn → Prop
  | .request t _ req => req.FromUnicast ∧ Unix64 t.upsert
  | _ => True

/-- A registration that was decoded, opened and verified is proven once its address is derived. -/
theorem proven_of_checks {raw : Bytes} {w : Wire} {m' : Message}
    {openCode : Bytes → Option Bytes} (hparse : parseRegister raw = some w)
    (htoken : resolveToken openCode w = some m) (hver : verifyRegistration cr now m = true)
    (hvip : deriveVIP cr m = some m') : Proven cr m' := by
  have hkey := verifyRegistration_pubkey_ne_nil hver
  obtain ⟨pub, hpub, rfl⟩ := deriveVIP_spec hkey hvip
  have htext := resolveToken_textual hparse htoken
  have hid := resolveToken_id hparse htoken
  exact ⟨hid, htext.pubkey, hkey, ⟨m, hkey, hvip⟩⟩

/-- **One `upsert` keeps every record presentable.** -/
theorem presentable_upsert {r : Registry} (h : r.Records (Presentable cr))
    (hm : Proven cr m) (hsrc : src.Unicast) (ttl : ℤ) (hnow : Unix64 now)
    (evict order : List Bytes) :
    (r.upsert ttl now src evict order m).1.Records (Presentable cr) := by
  refine h.upsert ?_
  have hbase : Begun (r.baseRecord m) := by
    rcases h.base m with heq | hp
    · rw [heq]
      exact begun_new hm.id
    · exact hp.toBegun
  exact hbase.stored hm hsrc hnow

theorem presentable_pairRegister {s : Shared} (h : s.reg.Records (Presentable cr)) {raw : Bytes}
    {w : Wire} (hparse : parseRegister raw = some w)
    (htoken : resolveToken srv.openCode w = some m) (hsrc : src.Unicast)
    {t : Clock} (hnow : Unix64 t.upsert) (o : Orders) :
    (pairRegister cr srv s t o src m).1.reg.Records (Presentable cr) := by
  rcases pairRegister_cases cr srv s t o src m with ⟨-, hsame⟩ | ⟨hver, m', hvip, hlatch⟩
  · rw [hsame]
    exact h
  · have hproven := proven_of_checks hparse htoken hver hvip
    exact (presentable_upsert h hproven hsrc _ hnow _ _).shrink hlatch.shrinks

theorem presentable_turn {s : Shared} (h : s.reg.Records (Presentable cr)) {e : Turn}
    (he : e.Plausible) : (turn cr srv ids s e).reg.Records (Presentable cr) := by
  cases e with
  | request t o req =>
    show (handleControlReq cr srv ids s t o req).1.reg.Records (Presentable cr)
    rcases handleControlReq_inv cr srv ids s t o req with
      ⟨hsame, -⟩ | ⟨src, rl, w, m, hremote, hparse, -, htoken, heq⟩
    · rw [hsame]
      exact h
    · have hpair := presentable_pairRegister (s := { s with rl := rl }) h hparse htoken
        (he.1 src hremote) he.2 o
      rw [heq]
      generalize pairRegister cr srv { s with rl := rl } t o src m = res at hpair
      obtain ⟨s', out⟩ := res
      cases out with
      | none => exact hpair
      | some peers =>
        obtain ⟨hwaiting, hheap⟩ := @replyTo_records cr srv ids s' t m peers
        intro tok id ref hh
        rw [Holds, bucket, hwaiting] at hh
        rw [hheap]
        exact hpair tok id ref hh
  | reap now => exact h.shrink (reap_shrinks s.reg srv.params.ttl now)
  | others rl authz => exact h

/-- **Every record of a reachable registry can be presented.** -/
theorem presentable_run {start : Shared} (hstart : start.reg = Registry.empty) {es : List Turn}
    (hes : ∀ e ∈ es, e.Plausible) :
    (Machine.run (turn cr srv ids) start es).reg.Records (Presentable cr) := by
  induction es using List.reverseRecOn with
  | nil =>
    rw [Machine.run_nil, hstart]
    exact records_empty
  | append_singleton es e ih =>
    rw [Machine.run_concat]
    exact presentable_turn (ih fun e' he' => hes e' (List.mem_append_left _ he')) (hes e (by simp))

end BuddyNet.Handshake
