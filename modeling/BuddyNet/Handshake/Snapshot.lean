import BuddyNet.Handshake.Steps

/-!
# Roster entries and concurrent upserts

A finer model of control requests: `upsert` holds the lock and stores its record field by field,
while `asProtocolPeer` reads the partner's record field by field without the lock. Any interleaving
of these stores and reads is a run.

* `Fine.step`, and `run_upsert`: an `upsert` that nobody interrupts is `Registry.upsert`;
* `roster_snapshot`: when no record is read while an `upsert` on it is under way, every roster entry
  is the partner's record at one instant;
* `roster_snapshot_fails`: a run that signs a key with the virtual address of another.
-/

namespace BuddyNet.Handshake.Fine

open Registry Machine List

/-! ### The machine -/

/-- The fields of a record that `asProtocolPeer` reads. -/
inductive Field where
  | id
  | pubkey
  | virtualIP
  | name
  | cands
  | seen
  deriving DecidableEq

/-- One field is read from `p` into the copy. -/
def Field.copy (p copy : HsPeer) : Field → HsPeer
  | id => { copy with id := p.id }
  | pubkey => { copy with pubkey := p.pubkey }
  | virtualIP => { copy with virtualIP := p.virtualIP }
  | name => { copy with name := p.name }
  | cands => { copy with cands := p.cands }
  | seen => { copy with seen := p.seen }

/-- The order in which `asProtocolPeer` reads. -/
def renderOrder : List Field := [.id, .pubkey, .virtualIP, .name, .cands, .seen]

/-- An `upsert` that holds the lock and has these stores to make. -/
structure Section where
  req : ℕ
  msg : Message
  own : ℕ
  pending : List FieldWrite

/-- A request after `upsert`: in front of `notePaired`, or reading its partner's record. -/
inductive Stage where
  | paired (token : Bytes) (partner : ℕ)
  | reading (partner : ℕ) (left : List Field) (copy : HsPeer)

/-- A roster entry that `pairRegister` returned, and the record it is about. -/
structure Reply where
  partner : ℕ
  entry : Peer

/-- The registry, the holder of its lock, the requests under way and the entries returned. -/
structure State where
  reg : Registry
  lock : Option Section
  requests : AList fun _ : ℕ => Stage
  replies : List Reply

/-- A server that has just started. -/
def State.new : State := ⟨Registry.empty, none, ∅, []⟩

/-- The steps of the server. -/
inductive Event where
  | begin (req : ℕ) (now : ℤ) (src : UDPAddr) (m : Message) (evict : List Bytes)
  | store
  | finish (now : ℤ) (order : List Bytes)
  | note (req : ℕ)
  | read (req : ℕ)
  | reply (req : ℕ)
  | reap (now : ℤ)

variable (cr : Crypto) (P : Params)

/-- One step. What needs the lock waits until it is free. -/
def step (s : State) : Event → State
  | .begin req now src m evict =>
    if s.lock.isSome ∨ req ∈ s.requests then s
    else match accept cr now m with
      | none => s
      | some m =>
        let res := s.reg.beginUpsert evict m
        match res.2 with
        | none => { s with reg := res.1 }
        | some own => { s with reg := res.1, lock := some ⟨req, m, own, fieldWrites m src now⟩ }
  | .store =>
    match s.lock with
    | some ⟨req, m, own, w :: ws⟩ =>
      { s with reg := s.reg.write own [w], lock := some ⟨req, m, own, ws⟩ }
    | _ => s
  | .finish now order =>
    match s.lock with
    | some ⟨req, m, _, []⟩ =>
      let res := s.reg.finishUpsert P.ttl now order m
      { s with
        reg := res.1
        lock := none
        requests := match res.2 with
          | none => s.requests
          | some p => s.requests.insert req (.paired m.token p) }
    | _ => s
  | .note req =>
    if s.lock.isSome then s
    else match s.requests.lookup req with
      | some (.paired tok p) =>
        { s with
          reg := (s.reg.notePaired tok).1
          requests := s.requests.insert req (.reading p renderOrder {}) }
      | _ => s
  | .read req =>
    match s.requests.lookup req with
    | some (.reading p (f :: fs) copy) =>
      { s with requests := s.requests.insert req (.reading p fs (f.copy (s.reg.heap p) copy)) }
    | _ => s
  | .reply req =>
    match s.requests.lookup req with
    | some (.reading p [] copy) =>
      { s with
        requests := s.requests.erase req
        replies := s.replies ++ [⟨p, copy.asProtocolPeer P.endpoint⟩] }
    | _ => s
  | .reap now => if s.lock.isSome then s else { s with reg := s.reg.reap P.ttl now }

/-- The state after a list of steps. -/
def runFrom (es : List Event) : State := run (step cr P) State.new es

/-! ### The cases of a step -/

variable {cr P} {log : List Event} {s : State}

/-- What a step can do. -/
inductive Effect (cr : Crypto) (P : Params) (s : State) : Event → State → Prop
  | idle (e : Event) : Effect cr P s e s
  | refused {req : ℕ} {now : ℤ} {src : UDPAddr} {m : Message} {evict : List Bytes} {r' : Registry}
      (hr : LatchOnly s.reg r') :
      Effect cr P s (.begin req now src m evict) { s with reg := r' }
  | begun {req : ℕ} {now : ℤ} {src : UDPAddr} {m m' : Message} {evict : List Bytes}
      {r' : Registry} {own : ℕ} (hlock : s.lock = none) (hacc : accept cr now m = some m')
      (hbegin : s.reg.beginUpsert evict m' = (r', some own)) :
      Effect cr P s (.begin req now src m evict)
        { s with reg := r', lock := some ⟨req, m', own, fieldWrites m' src now⟩ }
  | stored {req : ℕ} {m : Message} {own : ℕ} {w : FieldWrite} {ws : List FieldWrite}
      (hlock : s.lock = some ⟨req, m, own, w :: ws⟩) :
      Effect cr P s .store { s with reg := s.reg.write own [w], lock := some ⟨req, m, own, ws⟩ }
  | finished {now : ℤ} {order : List Bytes} {req : ℕ} {m : Message} {own : ℕ}
      {requests : AList fun _ : ℕ => Stage} (hlock : s.lock = some ⟨req, m, own, []⟩)
      (hreq : ∀ q st, requests.lookup q = some st → s.requests.lookup q = some st ∨
        ∃ p, (s.reg.finishUpsert P.ttl now order m).2 = some p ∧ st = .paired m.token p) :
      Effect cr P s (.finish now order) { s with
        reg := (s.reg.finishUpsert P.ttl now order m).1, lock := none, requests := requests }
  | noted {req : ℕ} {tok : Bytes} {p : ℕ} {r' : Registry}
      (hreq : s.requests.lookup req = some (.paired tok p)) (hr : LatchOnly s.reg r') :
      Effect cr P s (.note req)
        { s with reg := r', requests := s.requests.insert req (.reading p renderOrder {}) }
  | copied {req : ℕ} {p : ℕ} {f : Field} {fs : List Field} {copy : HsPeer}
      (hreq : s.requests.lookup req = some (.reading p (f :: fs) copy)) :
      Effect cr P s (.read req) { s with
        requests := s.requests.insert req (.reading p fs (f.copy (s.reg.heap p) copy)) }
  | replied {req : ℕ} {p : ℕ} {copy : HsPeer}
      (hreq : s.requests.lookup req = some (.reading p [] copy)) :
      Effect cr P s (.reply req) { s with
        requests := s.requests.erase req
        replies := s.replies ++ [⟨p, copy.asProtocolPeer P.endpoint⟩] }
  | reaped (hlock : s.lock = none) (now : ℤ) :
      Effect cr P s (.reap now) { s with reg := s.reg.reap P.ttl now }

theorem step_effect (cr : Crypto) (P : Params) (s : State) (e : Event) :
    Effect cr P s e (step cr P s e) := by
  cases e with
  | begin req now src m evict =>
    unfold step
    dsimp only
    split_ifs with hbusy
    · exact .idle _
    · split
      · exact .idle _
      · next m' hacc =>
        have hlock : s.lock = none := by simpa using (not_or.1 hbusy).1
        generalize hbegin : s.reg.beginUpsert evict m' = res
        obtain ⟨r', _ | own⟩ := res
        · exact .refused (beginUpsert_refused hbegin)
        · exact .begun hlock hacc hbegin
  | store =>
    unfold step
    dsimp only
    split
    · next hlock => exact .stored hlock
    · exact .idle _
  | finish now order =>
    unfold step
    dsimp only
    split
    · next req m own hlock =>
      refine .finished hlock fun q st hq => ?_
      split at hq
      · exact Or.inl hq
      · next p hp =>
        rcases Go.lookup_insert_cases hq with hold | ⟨-, rfl⟩
        · exact Or.inl hold
        · exact Or.inr ⟨p, hp, rfl⟩
    · exact .idle _
  | note req =>
    unfold step
    dsimp only
    split_ifs
    · exact .idle _
    · split
      · next hreq => exact .noted hreq (notePaired_latchOnly _ _)
      · exact .idle _
  | read req =>
    unfold step
    dsimp only
    split
    · next hreq => exact .copied hreq
    · exact .idle _
  | reply req =>
    unfold step
    dsimp only
    split
    · next hreq => exact .replied hreq
    · exact .idle _
  | reap now =>
    unfold step
    split_ifs with hbusy
    · exact .idle _
    · exact .reaped (by simpa using hbusy) now

/-! ### An `upsert` that nobody interrupts -/

variable {req own : ℕ} {m : Message}

theorem run_stores (ws : List FieldWrite) (hlock : s.lock = some ⟨req, m, own, ws⟩) :
    run (step cr P) s (replicate ws.length .store) =
      { s with reg := s.reg.write own ws, lock := some ⟨req, m, own, []⟩ } := by
  induction ws generalizing s with
  | nil =>
    obtain ⟨reg, lock, requests, replies⟩ := s
    obtain rfl : lock = _ := hlock
    simp [write]
  | cons w ws ih =>
    have hstep : step cr P s .store =
        { s with reg := s.reg.write own [w], lock := some ⟨req, m, own, ws⟩ } := by
      simp only [step, hlock]
    rw [length_cons, replicate_succ, run_cons, hstep, ih rfl]
    simp [write]

theorem run_of_unlocked (hlock : s.lock = none) (es : List Event)
    (hes : ∀ e ∈ es, e = .store ∨ ∃ now order, e = .finish now order) :
    run (step cr P) s es = s := by
  induction es with
  | nil => rfl
  | cons e es ih =>
    have hstep : step cr P s e = s := by
      rcases hes e (by simp) with rfl | ⟨now, order, rfl⟩ <;> simp only [step, hlock]
    rw [run_cons, hstep]
    exact ih fun e he => hes e (mem_cons_of_mem _ he)

variable {src : UDPAddr} {m' : Message} {now : ℤ}

/-- The three parts of `upsert` in a row are `Registry.upsert`. -/
theorem run_upsert {evict order : List Bytes}
    (hlock : s.lock = none) (hreq : req ∉ s.requests) (hacc : accept cr now m = some m') :
    (run (step cr P) s (.begin req now src m evict ::
      (replicate (fieldWrites m' src now).length .store ++ [.finish now order]))).reg =
      (s.reg.upsert P.ttl now src evict order m').1 := by
  rw [run_cons]
  have hbegin : step cr P s (.begin req now src m evict) =
      match (s.reg.beginUpsert evict m').2 with
      | none => { s with reg := (s.reg.beginUpsert evict m').1 }
      | some own => { s with
          reg := (s.reg.beginUpsert evict m').1
          lock := some ⟨req, m', own, fieldWrites m' src now⟩ } := by
    simp only [step, hlock, hacc, hreq, Option.isSome_none, Bool.false_eq_true, or_self, if_false]
  rw [hbegin, upsert]
  generalize s.reg.beginUpsert evict m' = res
  obtain ⟨r₁, _ | own⟩ := res
  · refine congrArg State.reg (run_of_unlocked (s := { s with reg := r₁ }) hlock _ fun e he => ?_)
    rcases mem_append.1 he with he | he
    · exact Or.inl (eq_of_mem_replicate he)
    · exact Or.inr ⟨now, order, mem_singleton.1 he⟩
  · dsimp only
    rw [run_append, run_stores _ rfl]
    rfl

/-! ### Copies -/

theorem Field.copy_copy_self (f : Field) (p c : HsPeer) : f.copy p (f.copy p c) = f.copy p c := by
  cases f <;> rfl

theorem Field.copy_comm (f g : Field) (p c : HsPeer) :
    f.copy p (g.copy p c) = g.copy p (f.copy p c) := by
  cases f <;> cases g <;> rfl

variable {p : HsPeer}

theorem eq_of_copy_eq {c : HsPeer} (h : ∀ f : Field, f.copy p c = c) : c = p := by
  have hid := congrArg HsPeer.id (h .id)
  have hkey := congrArg HsPeer.pubkey (h .pubkey)
  have hip := congrArg HsPeer.virtualIP (h .virtualIP)
  have hname := congrArg HsPeer.name (h .name)
  have hcands := congrArg HsPeer.cands (h .cands)
  have hseen := congrArg HsPeer.seen (h .seen)
  cases p
  cases c
  simp_all [Field.copy]

theorem mem_renderOrder (f : Field) : f ∈ renderOrder := by
  cases f <;> decide

variable {fs : List Field}

theorem copy_agrees {c : HsPeer} {f : Field} (h : ∀ g, g ∉ f :: fs → g.copy p c = c) :
    ∀ g, g ∉ fs → g.copy p (f.copy p c) = f.copy p c := by
  intro g hg
  by_cases hgf : g = f
  · subst hgf
    exact Field.copy_copy_self g p c
  · rw [Field.copy_comm, h g (by simp [hgf, hg])]

/-! ### Between two upserts -/

/-- No `upsert` on this record is under way. -/
def State.Idle (s : State) (ref : ℕ) : Prop := ∀ sec ∈ s.lock, sec.own ≠ ref

theorem idle_of_unlocked (h : s.lock = none) (ref : ℕ) : s.Idle ref := by
  simp [State.Idle, h]

theorem idle_iff_of_lock {sec : Section} (h : s.lock = some sec) (ref : ℕ) :
    s.Idle ref ↔ ref ≠ sec.own := by
  simp [State.Idle, h, eq_comm]

/-- The invariant of all runs: a record between two upserts has the address its key derives, and
one that is being written will have it after the stores that are left. -/
structure Steady (cr : Crypto) (s : State) : Prop where
  owned : s.reg.Owned
  records : ∀ {ref}, ref < s.reg.next → s.Idle ref →
    VipDerived cr (s.reg.heap ref).pubkey (s.reg.heap ref).virtualIP
  locked : ∀ sec ∈ s.lock, s.reg.Holds sec.msg.token sec.msg.id sec.own ∧
    VipDerived cr (sec.pending.foldl FieldWrite.apply (s.reg.heap sec.own)).pubkey
      (sec.pending.foldl FieldWrite.apply (s.reg.heap sec.own)).virtualIP

theorem steady_new (cr : Crypto) : Steady cr State.new where
  owned := owned_empty
  records := fun h => absurd h (Nat.not_lt_zero _)
  locked := nofun

variable {r' : Registry} {requests : AList fun _ : ℕ => Stage}

section

variable (h : Steady cr s)
include h

theorem Steady.latchOnly (hr : LatchOnly s.reg r') :
    Steady cr { s with reg := r', requests := requests } := by
  refine ⟨h.owned.shrink hr.shrinks, ?_, ?_⟩
  · intro ref href hidle
    rw [hr.heap]
    exact h.records (hr.next ▸ href) hidle
  · intro sec hsec
    rw [hr.heap, hr.holds_iff]
    exact h.locked sec hsec

theorem Steady.begun {evict : List Bytes} (hlock : s.lock = none)
    (hacc : accept cr now m = some m') (hu : UpsertSpec s.reg evict m' [] own none r') :
    Steady cr { s with reg := r', lock := some ⟨req, m', own, fieldWrites m' src now⟩ } := by
  refine ⟨h.owned.upsert hu, ?_, ?_⟩
  · intro ref href hidle
    rw [hu.heap_ne ((idle_iff_of_lock rfl ref).1 hidle)]
    refine h.records ?_ (idle_of_unlocked hlock ref)
    have hne : ref ≠ own := (idle_iff_of_lock rfl ref).1 hidle
    rcases hu.self_origin with ⟨-, hnext⟩ | ⟨hown, hnext, -⟩
    · rwa [hnext] at href
    · rw [hnext] at href
      omega
  · intro sec hsec
    obtain rfl := Option.some.inj hsec
    exact ⟨hu.holds_self, vipDerived_stored (throughDeriveVIP_of_accept hacc) _ _ _⟩

theorem Steady.stored {w : FieldWrite} {ws : List FieldWrite}
    (hlock : s.lock = some ⟨req, m, own, w :: ws⟩) :
    Steady cr { s with reg := s.reg.write own [w], lock := some ⟨req, m, own, ws⟩ } := by
  obtain ⟨hheld, hderived⟩ := h.locked _ hlock
  refine ⟨⟨h.owned.refs_lt, h.owned.refs_inj⟩, ?_, ?_⟩
  · intro ref href hidle
    have hne : ref ≠ own := (idle_iff_of_lock rfl ref).1 hidle
    rw [write_heap_ne hne]
    exact h.records href ((idle_iff_of_lock hlock ref).2 hne)
  · intro sec hsec
    obtain rfl := Option.some.inj hsec
    refine ⟨hheld, ?_⟩
    rw [write_heap_self]
    exact hderived

/-- At the end of an `upsert`, and when there is none, every record is as it should be. -/
theorem Steady.unlocked (hs : Shrinks s.reg r')
    (requests : AList fun _ : ℕ => Stage) (hdone : ∀ sec ∈ s.lock, sec.pending = []) :
    Steady cr { s with reg := r', lock := none, requests := requests } := by
  refine ⟨h.owned.shrink hs, ?_, fun sec hsec => (by cases hsec)⟩
  intro ref href _
  rw [hs.next] at href
  rw [hs.heap]
  by_cases hidle : s.Idle ref
  · exact h.records href hidle
  · obtain ⟨sec, hsec, rfl⟩ : ∃ sec ∈ s.lock, sec.own = ref := by
      simpa [State.Idle] using hidle
    have hderived := (h.locked sec hsec).2
    rwa [hdone sec hsec] at hderived

theorem Steady.step (e : Event) : Steady cr (step cr P s e) := by
  have heff := step_effect cr P s e
  generalize Fine.step cr P s e = s' at heff ⊢
  cases heff with
  | idle => exact h
  | refused hr | noted hreq hr => exact h.latchOnly hr
  | begun hlock hacc hbegin => exact h.begun hlock hacc (beginUpsert_spec hbegin)
  | stored hlock => exact h.stored hlock
  | @finished now order req m own requests hlock hreq =>
    have hs := (finishUpsert_spec P.ttl now order (h.locked _ hlock).1).1
    exact h.unlocked hs requests (by simp [hlock])
  | copied hreq | replied hreq => exact ⟨h.owned, h.records, h.locked⟩
  | reaped hlock now =>
    have hu := h.unlocked (reap_shrinks s.reg P.ttl now) s.requests (by simp [hlock])
    exact ⟨hu.owned, fun href _ => hu.records href (idle_of_unlocked rfl _), by simp [hlock]⟩

end

variable {ref : ℕ}

/-- **In every run**, a record no `upsert` is writing has the virtual address its key derives. -/
theorem derived_between_upserts (cr : Crypto) (P : Params) (es : List Event)
    (href : ref < (runFrom cr P es).reg.next) (hidle : (runFrom cr P es).Idle ref) :
    VipDerived cr ((runFrom cr P es).reg.heap ref).pubkey
      ((runFrom cr P es).reg.heap ref).virtualIP :=
  (invariant_run (fun _ e h => h.step e) (steady_new cr) es).records href hidle

/-! ### Reading -/

/-- The record existed at one instant of the run at which no `upsert` on it was under way, and was
then equal to the copy. -/
def Instant (cr : Crypto) (P : Params) (log : List Event) (ref : ℕ) (copy : HsPeer) : Prop :=
  ∃ pre, pre <+: log ∧ ref < (runFrom cr P pre).reg.next ∧ (runFrom cr P pre).Idle ref ∧
    copy = (runFrom cr P pre).reg.heap ref

variable {copy : HsPeer}

theorem Instant.append (h : Instant cr P log ref copy) (es : List Event) :
    Instant cr P (log ++ es) ref copy := by
  obtain ⟨pre, hpre, h⟩ := h
  exact ⟨pre, hpre.trans (prefix_append log es), h⟩

theorem Instant.derived (h : Instant cr P log ref copy) :
    VipDerived cr copy.pubkey copy.virtualIP := by
  obtain ⟨pre, -, hlt, hidle, rfl⟩ := h
  exact derived_between_upserts cr P pre hlt hidle

/-- Where a request stands: its copy is complete and was the record at one instant, or it agrees
with the record in what was read, and nothing was read yet or no `upsert` is under way there. -/
def Stage.Sound (cr : Crypto) (P : Params) (log : List Event) (s : State) : Stage → Prop
  | paired _ p => p < s.reg.next
  | reading p left copy => p < s.reg.next ∧
      ((left = [] ∧ Instant cr P log p copy) ∨
        (left ≠ [] ∧ (∀ f, f ∉ left → f.copy (s.reg.heap p) copy = copy) ∧
          (left = renderOrder ∨ s.Idle p)))

/-- The invariant of runs without overlapping reads. -/
structure Clean (cr : Crypto) (P : Params) (log : List Event) (s : State) : Prop where
  here : s = runFrom cr P log
  owned : s.reg.Owned
  stages : ∀ {req st}, s.requests.lookup req = some st → st.Sound cr P log s
  replies : ∀ rp ∈ s.replies, ∃ copy, Instant cr P log rp.partner copy ∧
    rp.entry = copy.asProtocolPeer P.endpoint

/-- A record is not read while an `upsert` on it is under way, and no `upsert` begins on a record
that is being read. -/
def Exclusive (cr : Crypto) (s : State) : Event → Prop
  | .begin _ now _ m evict => ∀ m' r' own, s.lock = none → accept cr now m = some m' →
      s.reg.beginUpsert evict m' = (r', some own) → ∀ req left copy,
      s.requests.lookup req = some (.reading own left copy) → left = renderOrder ∨ left = []
  | .read req => ∀ p left copy, s.requests.lookup req = some (.reading p left copy) → s.Idle p
  | _ => True

theorem clean_new (cr : Crypto) (P : Params) : Clean cr P [] State.new where
  here := rfl
  owned := owned_empty
  stages := nofun
  replies := nofun

/-- A request stays sound when the record it is in the middle of reading stays as it is. -/
theorem Stage.Sound.frame {st : Stage} (h : st.Sound cr P log s) (s' : State)
    (hnext : s.reg.next ≤ s'.reg.next)
    (hkeep : ∀ p left copy, st = .reading p left copy → left ≠ [] → left ≠ renderOrder →
      s.Idle p → s'.reg.heap p = s.reg.heap p ∧ s'.Idle p) (es : List Event) :
    st.Sound cr P (log ++ es) s' := by
  cases st with
  | paired tok p => exact Nat.lt_of_lt_of_le h hnext
  | reading p left copy =>
    obtain ⟨hp, hrest⟩ := h
    refine ⟨Nat.lt_of_lt_of_le hp hnext, ?_⟩
    rcases hrest with ⟨hnil, hinst⟩ | ⟨hne, hagree, hidle⟩
    · exact Or.inl ⟨hnil, hinst.append es⟩
    · refine Or.inr ⟨hne, ?_⟩
      by_cases hall : left = renderOrder
      · exact ⟨fun f hf => absurd (mem_renderOrder f) (hall ▸ hf), Or.inl hall⟩
      · obtain ⟨hheap, hidle'⟩ := hkeep p left copy rfl hne hall (hidle.resolve_left hall)
        exact ⟨by rwa [hheap], Or.inr hidle'⟩

variable {e : Event}

/-- What a step has to keep: the records in the middle of being read. -/
theorem Clean.advance {s' : State} (h : Clean cr P log s)
    (hhere : s' = runFrom cr P (log ++ [e])) (howned : s'.reg.Owned)
    (hnext : s.reg.next ≤ s'.reg.next)
    (hkeep : ∀ {q p left copy}, s.requests.lookup q = some (.reading p left copy) → left ≠ [] →
      left ≠ renderOrder → s.Idle p → s'.reg.heap p = s.reg.heap p ∧ s'.Idle p)
    (hreq : ∀ {q st}, s'.requests.lookup q = some st → s.requests.lookup q = some st ∨
      st.Sound cr P (log ++ [e]) s') (hreplies : ∀ rp ∈ s'.replies, rp ∈ s.replies ∨ ∃ copy,
      Instant cr P log rp.partner copy ∧ rp.entry = copy.asProtocolPeer P.endpoint) :
    Clean cr P (log ++ [e]) s' := by
  refine ⟨hhere, howned, fun hq => ?_, fun rp hrp => ?_⟩
  · rcases hreq hq with hold | hnew
    · refine (h.stages hold).frame s' hnext ?_ [e]
      rintro p left copy rfl
      exact hkeep hold
    · exact hnew
  · obtain ⟨copy, hinst, hentry⟩ : ∃ copy, Instant cr P log rp.partner copy ∧
        rp.entry = copy.asProtocolPeer P.endpoint := by
      rcases hreplies rp hrp with hold | hnew
      · exact h.replies rp hold
      · exact hnew
    exact ⟨copy, hinst.append [e], hentry⟩

/-- One more field of the partner is read while no `upsert` on it is under way. -/
theorem Clean.sound_copy {p : ℕ} {f : Field} (h : Clean cr P log s) (hidle : s.Idle p)
    (hreq : s.requests.lookup req = some (.reading p (f :: fs) copy)) :
    (Stage.reading p fs (f.copy (s.reg.heap p) copy)).Sound cr P (log ++ [.read req])
      { s with requests := requests } := by
  obtain ⟨hp, ⟨hnil, -⟩ | ⟨-, hagree, -⟩⟩ := h.stages hreq
  · cases hnil
  have hagree' := copy_agrees hagree
  refine ⟨hp, ?_⟩
  by_cases hfs : fs = []
  · -- the last field: the copy is the record of this instant
    subst hfs
    refine Or.inl ⟨rfl, log, prefix_append log _, ?_⟩
    rw [← h.here]
    exact ⟨hp, hidle, eq_of_copy_eq fun g => hagree' g not_mem_nil⟩
  · exact Or.inr ⟨hfs, hagree', Or.inr hidle⟩

theorem Clean.step (h : Clean cr P log s) (hsteady : Steady cr s)
    (hG : Exclusive cr s e) : Clean cr P (log ++ [e]) (step cr P s e) := by
  have hhere : Fine.step cr P s e = runFrom cr P (log ++ [e]) :=
    (congrArg (Fine.step cr P · e) h.here).trans (run_concat log e).symm
  have howned := (hsteady.step (P := P) e).owned
  have heff := step_effect cr P s e
  generalize Fine.step cr P s e = s' at heff hhere howned ⊢
  cases heff with
  | idle => exact h.advance hhere howned le_rfl (fun _ _ _ hi => ⟨rfl, hi⟩) Or.inl fun _ => Or.inl
  | refused hr =>
    refine h.advance hhere howned hr.next.ge (fun _ _ _ hi => ⟨?_, hi⟩) Or.inl fun _ => Or.inl
    rw [hr.heap]
  | @begun req now src m m' evict r' own hlock hacc hbegin =>
    have hu := beginUpsert_spec hbegin
    refine h.advance hhere howned hu.next_le (fun {q p left copy} hq hne hall _ => ?_) Or.inl
      fun _ => Or.inl
    have hp : p ≠ own := by
      rintro rfl
      rcases hG m' r' p hlock hacc hbegin q left copy hq with hfull | hnil
      · exact hall hfull
      · exact hne hnil
    exact ⟨hu.heap_ne hp, (idle_iff_of_lock rfl p).2 hp⟩
  | @stored req m own w ws hlock =>
    refine h.advance hhere howned le_rfl (fun {q p left copy} _ _ _ hidle => ?_) Or.inl
      fun _ => Or.inl
    have hp : p ≠ own := (idle_iff_of_lock hlock p).1 hidle
    exact ⟨write_heap_ne hp, (idle_iff_of_lock rfl p).2 hp⟩
  | @finished now order req m own requests hlock hreq =>
    obtain ⟨hs, -, -, hfound⟩ := finishUpsert_spec P.ttl now order (hsteady.locked _ hlock).1
    refine h.advance hhere howned hs.next.ge (fun _ _ _ _ => ⟨?_, idle_of_unlocked rfl _⟩)
      (fun hq => ?_) fun _ => Or.inl
    · rw [hs.heap]
    · rcases hreq _ _ hq with hold | ⟨p, hp, rfl⟩
      · exact Or.inl hold
      · obtain ⟨id, -, hheld⟩ := hfound p hp
        exact Or.inr (howned.refs_lt hheld)
  | @noted req tok p r' hreq hr =>
    have hp := h.stages hreq
    refine h.advance hhere howned hr.next.ge (fun _ _ _ hi => ⟨?_, hi⟩)
      (fun hq => ?_) fun _ => Or.inl
    · rw [hr.heap]
    · rcases Go.lookup_insert_cases hq with hold | ⟨-, rfl⟩
      · exact Or.inl hold
      · refine Or.inr ⟨Nat.lt_of_lt_of_le hp hr.next.ge, Or.inr ⟨by decide, fun f hf => ?_,
          Or.inl rfl⟩⟩
        exact absurd (mem_renderOrder f) hf
  | copied hreq =>
    refine h.advance hhere howned le_rfl (fun _ _ _ hi => ⟨rfl, hi⟩) (fun hq => ?_) fun _ => Or.inl
    rcases Go.lookup_insert_cases hq with hold | ⟨-, rfl⟩
    · exact Or.inl hold
    · exact Or.inr (h.sound_copy (hG _ _ _ hreq) hreq)
  | replied hreq =>
    refine h.advance hhere howned le_rfl (fun _ _ _ hi => ⟨rfl, hi⟩)
      (fun hq => Or.inl (Go.lookup_of_erase hq)) fun rp hrp => ?_
    rcases mem_append.1 hrp with hold | hnew
    · exact Or.inl hold
    · obtain rfl := mem_singleton.1 hnew
      obtain ⟨-, ⟨-, hinst⟩ | ⟨hne, -⟩⟩ := h.stages hreq
      · exact Or.inr ⟨_, hinst, rfl⟩
      · exact absurd rfl hne
  | reaped hlock now =>
    have hs := reap_shrinks s.reg P.ttl now
    refine h.advance hhere howned hs.next.ge (fun _ _ _ hi => ⟨?_, hi⟩) Or.inl fun _ => Or.inl
    rw [hs.heap]

/-- **Roster entries as snapshots.** When no record is read while an `upsert` on it is under way,
every entry `pairRegister` returns is the partner's record at one instant of the run at which no
`upsert` on it was under way, and its virtual address is the one its key derives. -/
theorem roster_snapshot (cr : Crypto) (P : Params) (es : List Event)
    (hG : Along (step cr P) (Exclusive cr) State.new es) :
    ∀ rp ∈ (runFrom cr P es).replies,
      (∃ copy, Instant cr P es rp.partner copy ∧ rp.entry = copy.asProtocolPeer P.endpoint) ∧
      VipDerived cr rp.entry.pubkey rp.entry.virtualIP := by
  intro rp hrp
  have hclean : Clean cr P es (runFrom cr P es) :=
    history_along (P := Clean cr P) (clean_new cr P) (fun log _ h hg => h.step
      (invariant_run (fun _ e hs => hs.step e) (steady_new cr) log) hg) hG
  obtain ⟨copy, hinst, hentry⟩ := hclean.replies rp hrp
  refine ⟨⟨copy, hinst, hentry⟩, ?_⟩
  rw [hentry]
  exact hinst.derived

/-! ### A mixed entry -/

/-- A sufficient condition that can be evaluated: nobody reads while the lock is held, and nobody is
in the middle of reading when an `upsert` begins. -/
def quiet (s : State) : Event → Bool
  | .begin .. => s.requests.entries.all fun e => match e.2 with
    | .reading _ left _ => left == renderOrder || left == []
    | .paired .. => true
  | .read _ => s.lock.isNone
  | _ => true

theorem exclusive_of_quiet (h : quiet s e = true) : Exclusive cr s e := by
  cases e with
  | begin req now src m evict =>
    intro m' r' own _ _ _ q left copy hq
    have hall := all_eq_true.1 h _ (AList.mem_lookup_iff.1 hq)
    simpa using hall
  | read req =>
    intro p left copy _ sec hsec
    have hnone : s.lock = none := Option.isNone_iff_eq_none.1 h
    rw [hnone] at hsec
    cases hsec
  | _ => trivial

namespace Mixed

open Sample

/-- A whole `upsert`. -/
def upsert (req : ℕ) (k : UInt8) (id : Bytes) (sec : ℕ) (name : Bytes) : List Event :=
  .begin req (sec * 1000000000) (home k) (registration k id sec name) [] ::
    (replicate (fieldWrites (accepted k id sec name) (home k) 0).length .store ++
      [.finish (sec * 1000000000) []])

/-- A request finds its partner and has read the id and the key, when another key registers under
the partner's id. -/
def mixed : List Event :=
  upsert 0 2 (lit "idA") 100 (lit "alice") ++ upsert 1 1 (lit "idC") 101 [] ++
    [.note 1, .read 1, .read 1] ++ upsert 2 3 (lit "idA") 102 [] ++
    [.read 1, .read 1, .read 1, .read 1, .reply 1]

/-- The same requests, the reading in one go. -/
def separate : List Event :=
  upsert 0 2 (lit "idA") 100 (lit "alice") ++ upsert 1 1 (lit "idC") 101 [] ++
    [.note 1, .read 1, .read 1, .read 1, .read 1, .read 1, .read 1] ++
    upsert 2 3 (lit "idA") 102 [] ++ [.reply 1]

/-- What matters of an entry. -/
def gist (rp : Reply) : Bytes × Bytes × Bytes :=
  (rp.entry.pubkey, rp.entry.virtualIP, rp.entry.name)

end Mixed

open Sample Mixed in
/-- The entry has the key from before the second `upsert` on the record and the virtual address from
after it. It is the record of no instant. -/
theorem roster_snapshot_fails :
    (runFrom crypto params mixed).replies.map gist =
      [(key 2, virtualIPString crypto (replicate 32 3), lit "alice")] ∧
    ∃ rp ∈ (runFrom crypto params mixed).replies,
      ¬ VipDerived crypto rp.entry.pubkey rp.entry.virtualIP ∧
      ¬ ∃ copy, Instant crypto params mixed rp.partner copy ∧
        rp.entry = copy.asProtocolPeer params.endpoint := by
  have hgist : (runFrom crypto params mixed).replies.map gist =
      [(key 2, virtualIPString crypto (replicate 32 3), lit "alice")] := by decide +kernel
  refine ⟨hgist, ?_⟩
  obtain ⟨rp, hrp, hg⟩ : ∃ rp ∈ (runFrom crypto params mixed).replies,
      gist rp = (key 2, virtualIPString crypto (replicate 32 3), lit "alice") := by
    rw [← mem_map, hgist]
    exact mem_singleton_self _
  obtain ⟨hkey, hrest⟩ := Prod.mk.inj hg
  obtain ⟨hip, -⟩ := Prod.mk.inj hrest
  have hderived : ¬ VipDerived crypto rp.entry.pubkey rp.entry.virtualIP := by
    rw [hkey, hip]
    rintro ⟨pub, hpub, heq⟩
    have hkey2 : decodePubKey (key 2) = some (replicate 32 2) := by decide +kernel
    obtain rfl := Option.some.inj (hkey2.symm.trans hpub)
    exact absurd heq (by decide +kernel)
  refine ⟨rp, hrp, hderived, ?_⟩
  rintro ⟨copy, hinst, hentry⟩
  rw [hentry] at hderived
  exact hderived hinst.derived

open Sample Mixed in
/-- Read in one go, the entry is the record of one instant. -/
theorem roster_snapshot_separate :
    Along (step crypto params) (Exclusive crypto) State.new separate ∧
    (runFrom crypto params separate).replies.map gist =
      [(key 2, virtualIPString crypto (replicate 32 2), lit "alice")] ∧
    ∀ rp ∈ (runFrom crypto params separate).replies,
      VipDerived crypto rp.entry.pubkey rp.entry.virtualIP := by
  have hG : Along (step crypto params) (Exclusive crypto) State.new separate := by
    have hquiet : Along (step crypto params) (fun s e => quiet s e = true) State.new
        separate := by decide +kernel
    exact hquiet.mono fun _ _ => exclusive_of_quiet
  exact ⟨hG, by decide +kernel, fun rp hrp => (roster_snapshot crypto params separate hG rp hrp).2⟩

end BuddyNet.Handshake.Fine
