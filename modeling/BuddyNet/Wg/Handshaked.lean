import BuddyNet.Wg.Device

/-!
# The last handshake with a peer

`Handshaked` over whatever datagrams the netlink socket gives. A slice outside of its buffer is
stuck, and so is a walk over more attributes or messages than its buffer has bytes.
`handshaked_pinned`: neither happens, and a time that is reported stands in a peer entry beside the
pinned key.
-/

namespace BuddyNet.Wg

open Netlink List

/-- Why there is no answer. -/
inductive WgError where
  /-- A slice outside of its buffer, or a loop that does not end. -/
  | stuck
  | parseReply
  | shortAck
  | errno (code : ℕ)
  | recv
  deriving DecidableEq

/-- `b[lo:hi]`. -/
def slice (b : Bytes) (lo hi : ℕ) : Except WgError Bytes :=
  if lo ≤ hi ∧ hi ≤ b.length then .ok ((b.take hi).drop lo) else .error .stuck

/-- Seconds and nanoseconds. -/
abbrev Timespec := ℤ × ℤ

section Code

variable (e : Endian)

/-- The loop of `attrWalk`, with a bound for its rounds. -/
def attrWalk : ℕ → Bytes → Except WgError (List (UInt16 × Bytes))
  | 0, _ => .error .stuck
  | n + 1, b =>
    if b.length < 4 then .ok []
    else do
      let l := get e (← slice b 0 2)
      let t := UInt16.ofNat (get e (← slice b 2 4))
      if l < 4 ∨ b.length < l then .ok []
      else do
        let val ← slice b 4 l
        if b.length < align l then .ok [(t &&& nlaTypeMask, val)]
        else do
          let rest ← attrWalk n (← slice b (align l) b.length)
          .ok ((t &&& nlaTypeMask, val) :: rest)

/-- The attributes that are visited. -/
def visit (b : Bytes) : Except WgError (List (UInt16 × Bytes)) := attrWalk e (b.length + 1) b

/-- The loop of `syscall.ParseNetlinkMessage`: the types of the messages and their data. -/
def parseNetlinkMessage : ℕ → Bytes → Except WgError (List (UInt16 × Bytes))
  | 0, _ => .error .stuck
  | n + 1, b =>
    if b.length < 16 then .ok []
    else do
      let len := get e (← slice b 0 4)
      let typ := UInt16.ofNat (get e (← slice b 4 6))
      if len < 16 ∨ b.length < align len then .error .parseReply
      else do
        let data ← slice b 16 len
        let rest ← parseNetlinkMessage n (← slice b (align len) b.length)
        .ok ((typ, data) :: rest)

def ackErr (payload : Bytes) : Except WgError Unit :=
  if payload.length < 4 then .error .shortAck
  else do
    let code := get e (← slice payload 0 4)
    if code = 0 then .ok () else .error (.errno code)

/-- `int64(nativeEndian.Uint64(b))`. -/
def int64 (b : Bytes) : ℤ := Int.bmod (get e b) (2 ^ 64)

/-- The callback of `peerHandshake`: the key and the time that it has seen. -/
def peerAttr (acc : Option Bytes × Option Timespec) (a : UInt16 × Bytes) :
    Except WgError (Option Bytes × Option Timespec) :=
  -- wgPeerAPublicKey, wgPeerALastHandshakeTime
  if a.1 = 1 ∧ a.2.length = 32 then .ok (some a.2, acc.2)
  else if a.1 = 6 ∧ 16 ≤ a.2.length then do
    let sec ← slice a.2 0 8
    let nsec ← slice a.2 8 16
    .ok (acc.1, some (int64 e sec, int64 e nsec))
  else .ok acc

def peerHandshake (peer peerPub : Bytes) : Except WgError (Option Timespec) := do
  let (key, time) ← (← visit e peer).foldlM (peerAttr e) (none, none)
  .ok (if key = some peerPub ∧ time ≠ some (0, 0) then time else none)

/-- The callbacks for the attributes of a device and for the entries of its peers. -/
def deviceAttr (peerPub : Bytes) (ts : Option Timespec) (a : UInt16 × Bytes) :
    Except WgError (Option Timespec) :=
  -- wgDeviceAPeers
  if a.1 = 8 then do
    (← visit e a.2).foldlM (fun ts peer => do
      let t ← peerHandshake e peer.2 peerPub
      .ok (t.or ts)) ts
  else .ok ts

/-- A message of a reply: the time that was found so far, and whether the dump is done. -/
def scanMessage (peerPub : Bytes) (acc : Option Timespec × Bool) (m : UInt16 × Bytes) :
    Except WgError (Option Timespec × Bool) :=
  -- NLMSG_ERROR, NLMSG_DONE
  if m.1 = 2 then do
    ackErr e m.2
    .ok (acc.1, true)
  else if m.1 = 3 then .ok (acc.1, true)
  else if m.2.length < 4 then .ok acc
  else do
    let ts ← (← visit e (← slice m.2 4 m.2.length)).foldlM (deviceAttr e peerPub) acc.1
    .ok (ts, acc.2)

def scanGetDeviceReply (resp peerPub : Bytes) : Except WgError (Option Timespec × Bool) := do
  (← parseNetlinkMessage e (resp.length + 1) resp).foldlM (scanMessage e peerPub) (none, false)

/-- The loop of `roundtripDump`, into a buffer of 64 KiB, with the callback of `Handshaked`. -/
def handshakedLoop (peerPub : Bytes) :
    List Bytes → Option Timespec → Except WgError (Option Timespec)
  | [], _ => .error .recv
  | d :: ds, ts => do
    let (t, done) ← scanGetDeviceReply e (d.take 65536) peerPub
    if done then .ok (t.or ts) else handshakedLoop peerPub ds (t.or ts)

/-- `Handshaked`, when the socket gives these datagrams and nothing after them. -/
def handshaked (peerPub : Bytes) (ds : List Bytes) : Except WgError (Option Timespec) :=
  handshakedLoop e peerPub ds none

/-- A peer entry in a datagram of a dump. -/
def PeerEntry (d peer : Bytes) : Prop :=
  ∃ ms, parseNetlinkMessage e ((d.take 65536).length + 1) (d.take 65536) = .ok ms ∧
    ∃ m ∈ ms, m.1 ≠ 2 ∧ m.1 ≠ 3 ∧ 4 ≤ m.2.length ∧
      ∃ peers i, (8, peers) ∈ walk e (m.2.drop 4) ∧ (i, peer) ∈ walk e peers

/-- The entry has the pinned key of 32 bytes and this time, which is not zero. -/
def Confirms (peerPub peer : Bytes) (t : Timespec) : Prop :=
  t ≠ (0, 0) ∧ peerPub.length = 32 ∧ (1, peerPub) ∈ walk e peer ∧
    ∃ val, (6, val) ∈ walk e peer ∧ 16 ≤ val.length ∧
      t = (int64 e (val.take 8), int64 e ((val.take 16).drop 8))

end Code

/-! ### Calls that are not stuck -/

variable {α β : Type} {P : α → Prop} {Q : β → Prop}

/-- A call that is not stuck, with what its result has. -/
def Safe (P : α → Prop) : Except WgError α → Prop
  | .ok a => P a
  | .error err => err ≠ .stuck

theorem Safe.bind {x : Except WgError α} {f : α → Except WgError β} (h : Safe P x)
    (hf : ∀ a, P a → Safe Q (f a)) : Safe Q (x >>= f) := by
  cases x with
  | error err => exact h
  | ok a => exact hf a h

theorem Safe.foldlM {xs : List β} {f : α → β → Except WgError α} {a : α} (h : P a)
    (hf : ∀ a, P a → ∀ b ∈ xs, Safe P (f a b)) : Safe P (xs.foldlM f a) := by
  induction xs generalizing a with
  | nil => exact h
  | cons b xs ih =>
    rw [foldlM_cons]
    exact (hf a h b mem_cons_self).bind fun a' h' =>
      ih h' fun a ha b hb => hf a ha b (mem_cons_of_mem _ hb)

variable {b : Bytes}

theorem slice_eq {lo hi : ℕ} (h : lo ≤ hi ∧ hi ≤ b.length) :
    slice b lo hi = .ok ((b.take hi).drop lo) := if_pos h

variable {e : Endian} {peerPub : Bytes}

/-- **A walk ends within its buffer**, and visits the attributes of the grammar. -/
theorem attrWalk_eq {n : ℕ} (h : b.length < n) : attrWalk e n b = .ok (walk e b) := by
  induction n generalizing b with
  | zero => exact absurd h (Nat.not_lt_zero _)
  | succ n ih =>
    rw [attrWalk, walk, attrs]
    by_cases hshort : b.length < 4
    · rw [if_pos hshort, if_pos (Or.inl hshort)]
      rfl
    · rw [if_neg hshort, slice_eq (by omega), slice_eq (by omega)]
      dsimp only [bind, Except.bind]
      rw [drop_zero, drop_take]
      have hlen := le_align (get e (b.take 2))
      by_cases hstop : get e (b.take 2) < 4 ∨ b.length < get e (b.take 2)
      · rw [if_pos hstop, if_pos (Or.inr hstop)]
        rfl
      · rw [if_neg hstop, if_neg (by omega), slice_eq (by omega)]
        dsimp only
        by_cases hlast : b.length < align (get e (b.take 2))
        · rw [if_pos hlast, drop_eq_nil_of_le hlast.le, attrs_nil]
          rfl
        · rw [if_neg hlast, slice_eq (by omega)]
          dsimp only
          rw [take_length, ih (by rw [length_drop]; omega)]
          rfl

theorem visit_eq (b : Bytes) : visit e b = .ok (walk e b) := attrWalk_eq (Nat.lt_succ_self _)

theorem parseNetlinkMessage_safe {n : ℕ} (h : b.length < n) :
    Safe (fun _ => True) (parseNetlinkMessage e n b) := by
  induction n generalizing b with
  | zero => exact absurd h (Nat.not_lt_zero _)
  | succ n ih =>
    rw [parseNetlinkMessage]
    split_ifs with hshort
    · trivial
    · rw [slice_eq (by omega), slice_eq (by omega)]
      dsimp only [bind, Except.bind]
      split_ifs with hstop
      · exact nofun
      · have hlen := le_align (get e ((b.take 4).drop 0))
        rw [slice_eq (by omega), slice_eq (by omega)]
        dsimp only
        rw [take_length]
        refine Safe.bind (ih ?_) fun _ _ => trivial
        rw [length_drop]
        omega

theorem ackErr_safe (payload : Bytes) : Safe (fun _ => True) (ackErr e payload) := by
  unfold ackErr
  split_ifs with h
  · exact nofun
  · rw [slice_eq (by omega)]
    dsimp only [bind, Except.bind]
    split_ifs
    · trivial
    · exact nofun

/-! ### What is reported -/

/-- The entry has what the callback has seen. -/
def Seen (e : Endian) (peer : Bytes) (acc : Option Bytes × Option Timespec) : Prop :=
  (∀ k ∈ acc.1, k.length = 32 ∧ (1, k) ∈ walk e peer) ∧
    ∀ t ∈ acc.2, ∃ val, (6, val) ∈ walk e peer ∧ 16 ≤ val.length ∧
      t = (int64 e (val.take 8), int64 e ((val.take 16).drop 8))

theorem peerAttr_safe {peer : Bytes} {acc : Option Bytes × Option Timespec} (h : Seen e peer acc)
    {a : UInt16 × Bytes} (ha : a ∈ walk e peer) : Safe (Seen e peer) (peerAttr e acc a) := by
  obtain ⟨typ, val⟩ := a
  unfold peerAttr
  split_ifs with hkey htime
  · obtain ⟨rfl, hlen⟩ := hkey
    exact ⟨by rintro _ ⟨⟩; exact ⟨hlen, ha⟩, h.2⟩
  · obtain ⟨rfl, hlen⟩ := htime
    rw [slice_eq (by dsimp only at hlen ⊢; omega), slice_eq (by dsimp only at hlen ⊢; omega)]
    refine ⟨h.1, fun t ht => ⟨val, ha, hlen, ?_⟩⟩
    rw [← Option.some.inj ht, drop_zero]
  · exact h

theorem peerHandshake_safe (peer peerPub : Bytes) :
    Safe (fun ts => ∀ t ∈ ts, Confirms e peerPub peer t) (peerHandshake e peer peerPub) := by
  rw [peerHandshake, visit_eq]
  refine Safe.bind (P := Seen e peer) (Safe.foldlM ⟨nofun, nofun⟩ fun acc h a ha =>
    peerAttr_safe h ha) ?_
  rintro ⟨key, time⟩ ⟨hkey, htime⟩
  show ∀ t ∈ (if key = some peerPub ∧ time ≠ some (0, 0) then time else none), _
  split_ifs with h
  · obtain ⟨rfl, hne⟩ := h
    rintro t rfl
    obtain ⟨hlen, hmem⟩ := hkey peerPub rfl
    exact ⟨fun heq => hne (congrArg some heq), hlen, hmem, htime t rfl⟩
  · exact nofun

/-- What a reply reports is confirmed by an entry that it has. -/
theorem scanGetDeviceReply_safe (d peerPub : Bytes) :
    Safe (fun acc => ∀ t ∈ acc.1, ∃ peer, PeerEntry e d peer ∧ Confirms e peerPub peer t)
      (scanGetDeviceReply e (d.take 65536) peerPub) := by
  unfold scanGetDeviceReply
  cases hms : parseNetlinkMessage e ((d.take 65536).length + 1) (d.take 65536) with
  | error err =>
    have hsafe := parseNetlinkMessage_safe (e := e) (Nat.lt_succ_self (d.take 65536).length)
    rw [hms] at hsafe
    exact hsafe
  | ok ms =>
    refine Safe.foldlM nofun fun acc hacc m hm => ?_
    unfold scanMessage
    split_ifs with herr hdone hshort
    · exact (ackErr_safe m.2).bind fun _ _ => hacc
    · exact hacc
    · exact hacc
    · rw [slice_eq (by omega), take_length]
      dsimp only [bind, Except.bind]
      rw [visit_eq]
      refine Safe.bind (Safe.foldlM hacc fun ts hts a ha => ?_) fun ts hts => hts
      unfold deviceAttr
      split_ifs with hpeers
      · rw [visit_eq]
        refine Safe.foldlM hts fun ts hts peer hpeer => ?_
        refine (peerHandshake_safe peer.2 peerPub).bind fun new hnew t ht => ?_
        cases new with
        | none => exact hts t ht
        | some t' =>
          exact ⟨peer.2, ⟨ms, hms, m, hm, herr, hdone, not_lt.1 hshort, a.2, peer.1, hpeers ▸ ha,
            hpeer⟩, hnew t ht⟩
      · exact hts

/-- **The report is about the pinned peer**: whatever the datagrams are, the call is not stuck, and
a time that it reports stands in a peer entry of the dump beside the pinned key. -/
theorem handshaked_pinned (e : Endian) (peerPub : Bytes) (ds : List Bytes) :
    handshaked e peerPub ds ≠ .error .stuck ∧
    ∀ t, handshaked e peerPub ds = .ok (some t) →
      ∃ d ∈ ds, ∃ peer, PeerEntry e d peer ∧ Confirms e peerPub peer t := by
  have hloop : ∀ (rest : List Bytes) (ts : Option Timespec), rest ⊆ ds →
      (∀ t ∈ ts, ∃ d ∈ ds, ∃ peer, PeerEntry e d peer ∧ Confirms e peerPub peer t) →
      Safe (fun ts => ∀ t ∈ ts, ∃ d ∈ ds, ∃ peer, PeerEntry e d peer ∧ Confirms e peerPub peer t)
        (handshakedLoop e peerPub rest ts) := by
    intro rest
    induction rest with
    | nil => exact fun _ _ _ => nofun
    | cons d rest ih =>
      intro ts hsub hts
      obtain ⟨hd, hrest⟩ := cons_subset.1 hsub
      refine (scanGetDeviceReply_safe d peerPub).bind fun acc hacc => ?_
      have hnext : ∀ t ∈ acc.1.or ts, ∃ d ∈ ds, ∃ peer, PeerEntry e d peer ∧
          Confirms e peerPub peer t := by
        intro t ht
        cases hnew : acc.1 with
        | none => exact hts t (by rw [hnew] at ht; exact ht)
        | some t' => exact ⟨d, hd, hacc t (by rw [hnew] at ht ⊢; exact ht)⟩
      show Safe _ (if acc.2 then .ok (acc.1.or ts) else handshakedLoop e peerPub rest (acc.1.or ts))
      split_ifs
      · exact hnext
      · exact ih _ hrest hnext
  have hsafe := hloop ds none (Subset.refl ds) nofun
  unfold handshaked
  refine ⟨fun hstuck => ?_, fun t ht => ?_⟩
  · rw [hstuck] at hsafe
    exact hsafe rfl
  · rw [ht] at hsafe
    exact hsafe t rfl

end BuddyNet.Wg
