import BuddyNet.Library.Machine
import BuddyNet.Library.Tally
import BuddyNet.NetKey

/-!
# The slots of the control plane

`internal/tunnel/control.go`: `gateConn` decides about an incoming connection before its handshake,
`admit` takes a slot for it, and the release closure gives the slot back. The closure is called when
the connection's context is cancelled and when its handler returns, in any order and any number of
times; its `sync.Once` lets the first call through.

* `Slots` is what `connMu` guards for the accounting, together with the closures handed out so far;
* `ControlServer` adds the refusals that wait for a line, and the lines written;
* `slots_exact`: the counters are exact in every run;
* `refusals_accounted_iff`: the lines account for every refusal exactly in the runs in which nobody
  is refused for their address, since `admit` alone counts.
-/

namespace BuddyNet.Tunnel

open Machine List

/-! ### Addresses -/

/-- A `net.Addr`, by the types the code tells apart. -/
inductive NetAddr
  | udp (a : UDPAddr)
  | tcp (a : UDPAddr)
  | other (text : Bytes)
  | absent
  deriving DecidableEq

/-- `ipKey`, which is `netkey.FromAddr`. -/
def ipKey : NetAddr → Bytes
  | .udp a => fromIP a.ip
  | .tcp a => fromIP a.ip
  | .other text => text
  | .absent => []

/-- `sourceAllowed`: an empty allowlist is open. -/
def sourceAllowed (allowed : List Prefix) (remote : NetAddr) : Bool :=
  allowed.isEmpty || match remote with
    | .udp a => (Go.addrFromSlice a.ip).any fun ip => allowed.any (Go.prefixContains · ip)
    | _ => false

/-- What quic-go says about an incoming connection. -/
structure ClientInfo where
  remoteAddr : NetAddr
  addrVerified : Bool
  deriving DecidableEq

/-! ### Slots -/

def maxCtrlConns : ℤ := 256

def maxCtrlConnsPerIP : ℕ := 16

/-- `rejectLogInterval`, in nanoseconds. -/
def rejectLogInterval : ℤ := 30 * 1000000000

/-- A release closure: the key it captured, and whether its `sync.Once` has fired. -/
structure Release where
  key : Bytes
  fired : Bool := false
  deriving DecidableEq

/-- The accounting, and the closures handed out, in the order of admission. -/
structure Slots where
  conns : ℤ := 0
  perIP : AList fun _ : Bytes => ℕ := ∅
  releases : List Release := []

namespace Slots

/-- Whether a source may have another slot. -/
def full (s : Slots) (key : Bytes) : Bool :=
  decide (maxCtrlConns ≤ s.conns) || decide (maxCtrlConnsPerIP ≤ (s.perIP.lookup key).getD 0)

/-- The locked part of `admit` when there is room. -/
def take (s : Slots) (key : Bytes) : Slots :=
  ⟨s.conns + 1, Tally.charge s.perIP key, s.releases ++ [⟨key, false⟩]⟩

/-- What the `sync.Once` of the closure `i` runs. -/
def giveBack (s : Slots) (i : ℕ) (key : Bytes) : Slots :=
  ⟨s.conns - 1, Tally.discharge s.perIP key, s.releases.set i ⟨key, true⟩⟩

/-- A call of the closure `i`. -/
def release (s : Slots) (i : ℕ) : Slots :=
  match s.releases[i]? with
  | some r => if r.fired then s else s.giveBack i r.key
  | none => s

/-- The connections that are admitted and not released. -/
def openConns (s : Slots) : ℕ := s.releases.countP fun r => !r.fired

/-- Those of one source. -/
def openFrom (s : Slots) (key : Bytes) : ℕ := s.releases.countP fun r => !r.fired && r.key == key

/-- The counters are exact. -/
structure Exact (s : Slots) : Prop where
  counts : Tally.Counts s.perIP s.openFrom
  conns : s.conns = s.openConns
  total : Tally.total id s.perIP = s.openConns
  bound : s.conns ≤ maxCtrlConns
  boundPerIP : ∀ key, s.openFrom key ≤ maxCtrlConnsPerIP

theorem exact_empty : Exact {} where
  counts := fun _ => rfl
  conns := rfl
  total := rfl
  bound := by decide
  boundPerIP := fun _ => Nat.zero_le _

variable {s : Slots} {key : Bytes}

theorem openConns_take : (s.take key).openConns = s.openConns + 1 := by
  simp [take, openConns, countP_append]

theorem openFrom_take (key' : Bytes) :
    (s.take key).openFrom key' = s.openFrom key' + if key' = key then 1 else 0 := by
  by_cases h : key' = key
  · simp [take, openFrom, countP_append, h]
  · simp [take, openFrom, countP_append, h, Ne.symm h]

theorem Exact.take (h : s.Exact) (hroom : s.full key = false) : (s.take key).Exact := by
  simp only [full, Bool.or_eq_false_iff, decide_eq_false_iff_not, h.counts.getD, not_le] at hroom
  refine ⟨h.counts.charge openFrom_take, ?_, ?_, ?_, fun key' => ?_⟩
  · rw [openConns_take, Nat.cast_add, Nat.cast_one, ← h.conns]
    rfl
  · rw [openConns_take, ← h.total]
    exact Tally.total_charge _ _
  · exact hroom.1
  · rw [openFrom_take]
    split_ifs with hkey
    · subst hkey
      exact hroom.2
    · exact h.boundPerIP key'

variable {i : ℕ} {r : Release}

/-- A closure that fires for the first time closes one connection. -/
theorem openConns_giveBack (hr : s.releases[i]? = some r)
    (hfired : r.fired = false) : s.openConns = (s.giveBack i r.key).openConns + 1 := by
  have h := Tally.countP_set_add (fun r : Release => !r.fired) ⟨r.key, true⟩ hr
  rw [if_pos (by simp [hfired]), if_neg (by simp)] at h
  exact h.symm

/-- The connection is one of the closure's own source. -/
theorem openFrom_giveBack (hr : s.releases[i]? = some r) (hfired : r.fired = false) (key' : Bytes) :
    s.openFrom key' = (s.giveBack i r.key).openFrom key' + if key' = r.key then 1 else 0 := by
  have h := Tally.countP_set_add (fun r : Release => !r.fired && r.key == key') ⟨r.key, true⟩ hr
  simp only [hfired, Bool.not_false, Bool.true_and, Bool.not_true, Bool.false_and, beq_iff_eq,
    reduceIte, Bool.false_eq_true, Nat.add_zero, eq_comm (a := r.key)] at h
  exact h.symm

theorem Exact.giveBack (h : s.Exact) (hr : s.releases[i]? = some r)
    (hfired : r.fired = false) : (s.giveBack i r.key).Exact := by
  have hconns := openConns_giveBack hr hfired
  have hfrom := openFrom_giveBack hr hfired
  have hcounted : 0 < (s.perIP.lookup r.key).getD 0 := by
    rw [h.counts.getD, hfrom, if_pos rfl]
    omega
  have htotal := Tally.total_discharge hcounted
  refine ⟨h.counts.discharge hfrom, ?_, ?_, ?_, fun key' => ?_⟩
  · show s.conns - 1 = _
    rw [h.conns, hconns]
    omega
  · show Tally.total id (Tally.discharge s.perIP r.key) = _
    rw [h.total, hconns] at htotal
    omega
  · show s.conns - 1 ≤ _
    have := h.bound
    omega
  · exact le_trans (by rw [hfrom key']; exact Nat.le_add_right _ _) (h.boundPerIP key')

/-- Whoever calls a closure, and however often: the counters stay exact. -/
theorem Exact.release (h : s.Exact) (i : ℕ) : (s.release i).Exact := by
  unfold Slots.release
  split
  · next r hr =>
    split_ifs with hfired
    · exact h
    · exact h.giveBack hr (by simpa using hfired)
  · exact h

end Slots

/-! ### The gate -/

/-- A `ControlServer`: its slots, the refusals since the last line, and the counts of the lines
`control-conn-refused` written so far. `none` is the zero time. -/
structure ControlServer extends Slots where
  rejected : ℕ := 0
  lastLogAt : Option ℤ := none
  lines : List ℕ := []

namespace ControlServer

/-- `admit`: the closure is named by its place in the order of admission. -/
def admitConn (s : ControlServer) (remote : NetAddr) : ControlServer × Option ℕ :=
  let key := ipKey remote
  if s.full key then ({ s with rejected := s.rejected + 1 }, none)
  else ({ s with toSlots := s.take key }, some s.releases.length)

/-- `noteRejection`; the clock is read once for the interval and once for the time of the line. -/
def noteRejection (s : ControlServer) (now stamp : ℤ) : ControlServer :=
  if s.lastLogAt.any fun t => now - t < rejectLogInterval then s
  else { s with rejected := 0, lastLogAt := some stamp, lines := s.lines ++ [s.rejected] }

/-- `gateConn`: the closure of the connection, or nothing when it is refused. -/
def gateConn (allowed : List Prefix) (s : ControlServer) (info : ClientInfo) (now stamp : ℤ) :
    ControlServer × Option ℕ :=
  if !info.addrVerified then (s.noteRejection now stamp, none)
  else if !sourceAllowed allowed info.remoteAddr then (s.noteRejection now stamp, none)
  else match s.admitConn info.remoteAddr with
    | (s, none) => (s.noteRejection now stamp, none)
    | (s, some release) => (s, some release)

end ControlServer

/-- What happens at a control server. A connection that is accepted without a closure does not come
from the gate; `acceptConns` closes it and notes a rejection. -/
inductive Event
  | attempt (info : ClientInfo) (now stamp : ℤ)
  | returned (i : ℕ)
  | cancelled (i : ℕ)
  | unaccounted (now stamp : ℤ)

/-- One step. -/
def ControlServer.step (allowed : List Prefix) (s : ControlServer) : Event → ControlServer
  | .attempt info now stamp => (s.gateConn allowed info now stamp).1
  | .returned i => { s with toSlots := s.release i }
  | .cancelled i => { s with toSlots := s.release i }
  | .unaccounted now stamp => s.noteRejection now stamp

namespace ControlServer

variable {allowed : List Prefix} {s : ControlServer} {info : ClientInfo} {now stamp : ℤ}

/-- Nobody is refused for who they are. -/
def welcome (allowed : List Prefix) (info : ClientInfo) : Bool :=
  info.addrVerified && sourceAllowed allowed info.remoteAddr

theorem noteRejection_toSlots : (s.noteRejection now stamp).toSlots = s.toSlots := by
  unfold noteRejection
  split_ifs <;> rfl

variable {remote : NetAddr}

theorem admitConn_full (h : s.full (ipKey remote) = true) :
    s.admitConn remote = ({ s with rejected := s.rejected + 1 }, none) := if_pos h

theorem admitConn_room (h : s.full (ipKey remote) = false) :
    s.admitConn remote = ({ s with toSlots := s.take (ipKey remote) }, some s.releases.length) :=
  if_neg (by simp [h])

/-- **What `gateConn` does**: it refuses for the address, refuses for lack of room, or takes a
slot. -/
theorem gateConn_cases (allowed : List Prefix) (s : ControlServer) (info : ClientInfo)
    (now stamp : ℤ) :
    (welcome allowed info = false ∧
      s.gateConn allowed info now stamp = (s.noteRejection now stamp, none)) ∨
    (welcome allowed info = true ∧ s.full (ipKey info.remoteAddr) = true ∧
      s.gateConn allowed info now stamp =
        (({ s with rejected := s.rejected + 1 } : ControlServer).noteRejection now stamp, none)) ∨
    (welcome allowed info = true ∧ s.full (ipKey info.remoteAddr) = false ∧
      s.gateConn allowed info now stamp =
        ({ s with toSlots := s.take (ipKey info.remoteAddr) }, some s.releases.length)) := by
  unfold gateConn welcome
  cases info.addrVerified
  · exact Or.inl ⟨rfl, rfl⟩
  · cases sourceAllowed allowed info.remoteAddr
    · exact Or.inl ⟨rfl, rfl⟩
    · refine Or.inr ?_
      cases hfull : s.full (ipKey info.remoteAddr)
      · exact Or.inr ⟨rfl, rfl, by rw [admitConn_room hfull]; rfl⟩
      · exact Or.inl ⟨rfl, rfl, by rw [admitConn_full hfull]; rfl⟩

theorem exact_step (e : Event) (h : s.toSlots.Exact) : (s.step allowed e).toSlots.Exact := by
  cases e with
  | attempt info now stamp =>
    show (s.gateConn allowed info now stamp).1.toSlots.Exact
    rcases gateConn_cases allowed s info now stamp with ⟨-, heq⟩ | ⟨-, -, heq⟩ | ⟨-, hroom, heq⟩
    · rw [heq, noteRejection_toSlots]
      exact h
    · rw [heq, noteRejection_toSlots]
      exact h
    · rw [heq]
      exact h.take hroom
  | returned i | cancelled i => exact h.release i
  | unaccounted now stamp =>
    show (s.noteRejection now stamp).toSlots.Exact
    rw [noteRejection_toSlots]
    exact h

/-- **The slots are exact**: in every run, whoever calls the release closures and however often, the
connections counted are the sum of the counters of the sources and the number of connections
admitted and not released, at most 256, and at most 16 for each source; no counter is zero, and a
refused attempt changes none of it. -/
theorem slots_exact (allowed : List Prefix) (es : List Event) :
    let s := run (step allowed) {} es
    s.conns = Tally.total id s.perIP ∧ s.conns = s.openConns ∧ s.conns ≤ 256 ∧
    (∀ key, (s.perIP.lookup key).getD 0 = s.openFrom key ∧ s.openFrom key ≤ 16 ∧
      s.perIP.lookup key ≠ some 0) ∧
    ∀ info now stamp, (s.gateConn allowed info now stamp).2 = none →
      (s.gateConn allowed info now stamp).1.toSlots = s.toSlots := by
  have h : (run (step allowed) {} es).toSlots.Exact :=
    invariant_run (P := fun s : ControlServer => s.toSlots.Exact)
      (fun _ e hs => exact_step e hs) Slots.exact_empty es
  refine ⟨?_, h.conns, h.bound, fun key => ?_, fun info now stamp hrefused => ?_⟩
  · rw [h.total, h.conns]
  · exact ⟨h.counts.getD key, h.boundPerIP key, h.counts.ne_zero key⟩
  · rcases gateConn_cases allowed _ info now stamp with ⟨-, heq⟩ | ⟨-, -, heq⟩ | ⟨-, -, heq⟩ <;>
      rw [heq] at hrefused ⊢
    · exact noteRejection_toSlots
    · exact noteRejection_toSlots
    · cases hrefused

/-! ### Refusals -/

/-- The connection that `gateConn` refuses in a step. -/
def refused (allowed : List Prefix) (s : ControlServer) : Event → Option ClientInfo
  | .attempt info now stamp =>
    if (s.gateConn allowed info now stamp).2.isNone then some info else none
  | _ => none

/-- The connections that `gateConn` has refused. -/
def refusals (allowed : List Prefix) (es : List Event) : List ClientInfo :=
  trace (step allowed) (refused allowed) {} es

/-- The lines written and the pending counter account for every refusal. -/
def Accounted (allowed : List Prefix) (es : List Event) : Prop :=
  let s := run (step allowed) {} es
  s.lines.sum + s.rejected = (refusals allowed es).length

/-- Someone is refused for their address. -/
def turnedAway (allowed : List Prefix) : Event → Bool
  | .attempt info _ _ => !welcome allowed info
  | _ => false

theorem noteRejection_sum :
    (s.noteRejection now stamp).lines.sum + (s.noteRejection now stamp).rejected =
      s.lines.sum + s.rejected := by
  unfold noteRejection
  split_ifs
  · rfl
  · simp

/-- **What a step does to the accounts**: it counts a refusal unless it is one for the address. -/
theorem step_sum (allowed : List Prefix) (s : ControlServer) (e : Event) :
    (s.step allowed e).lines.sum + (s.step allowed e).rejected +
        (if turnedAway allowed e then 1 else 0) =
      s.lines.sum + s.rejected + (refused allowed s e).toList.length := by
  cases e with
  | attempt info now stamp =>
    unfold step refused turnedAway
    rcases gateConn_cases allowed s info now stamp with ⟨hw, heq⟩ | ⟨hw, -, heq⟩ | ⟨hw, -, heq⟩
    · simp [hw, heq, noteRejection_sum]
    · simp [hw, heq, noteRejection_sum, Nat.add_assoc]
    · simp [hw, heq]
  | returned i => rfl
  | cancelled i => rfl
  | unaccounted now stamp => exact noteRejection_sum

/-- In every run, what is missing from the accounts is the number of those refused for their
address. -/
theorem accounts (allowed : List Prefix) (es : List Event) :
    (run (step allowed) {} es).lines.sum + (run (step allowed) {} es).rejected +
      es.countP (turnedAway allowed) = (refusals allowed es).length := by
  refine history_run (P := fun log (s : ControlServer) =>
    s.lines.sum + s.rejected + log.countP (turnedAway allowed) = (refusals allowed log).length)
    rfl (fun log e ih => ?_) es
  have hstep := step_sum allowed (run (step allowed) {} log) e
  rw [refusals, trace_concat, length_append, ← refusals, ← ih, countP_append,
    countP_singleton]
  omega

/-- **The refusals are all accounted for exactly when nobody is refused for their address**: at
every moment the counts in the lines written and the pending counter add up to the number of
connections refused, if and only if every connection that comes in has a verified address in the
allowlist. -/
theorem refusals_accounted_iff (allowed : List Prefix) (es : List Event) :
    (∀ pre, pre <+: es → Accounted allowed pre) ↔
      ∀ info now stamp, .attempt info now stamp ∈ es →
        info.addrVerified = true ∧ sourceAllowed allowed info.remoteAddr = true := by
  have hmissing : ∀ pre, Accounted allowed pre ↔ pre.countP (turnedAway allowed) = 0 := by
    intro pre
    have h := accounts allowed pre
    unfold Accounted
    omega
  constructor
  · intro h info now stamp hmem
    have hnone := countP_eq_zero.1 ((hmissing es).1 (h es (prefix_refl es))) _ hmem
    simpa [turnedAway, welcome] using hnone
  · rintro h pre ⟨post, rfl⟩
    refine (hmissing pre).2 (countP_eq_zero.2 fun e he => ?_)
    cases e with
    | attempt info now stamp =>
      obtain ⟨hverified, hallowed⟩ := h info now stamp (mem_append_left _ he)
      simp [turnedAway, welcome, hverified, hallowed]
    | returned i => exact Bool.false_ne_true
    | cancelled i => exact Bool.false_ne_true
    | unaccounted now stamp => exact Bool.false_ne_true

/-- A source outside the allowlist is refused; the line says that nobody was. -/
theorem refusals_accounted_fails :
    let allowed : List Prefix := [⟨[192, 168, 0, 0], 16⟩]
    let es := [Event.attempt ⟨.udp ⟨[10, 0, 0, 1], 4433, []⟩, true⟩ 0 0]
    ¬ Accounted allowed es ∧ (refusals allowed es).length = 1 ∧
      (run (step allowed) {} es).lines = [0] ∧
      (run (step allowed) {} es).rejected = 0 := by
  unfold Accounted
  decide

end ControlServer

end BuddyNet.Tunnel
