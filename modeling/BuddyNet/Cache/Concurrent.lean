import BuddyNet.Cache.Names
import BuddyNet.Library.Refinement

/-!
# Concurrent calls of `Upsert`

`Upsert` holds `writeMu` over the snapshot and the write, and `mu` over the snapshot only. Between
the two the memory is ahead of the file. Since the next call has to wait for `writeMu`, the files
are written in the order of the snapshots: with the file that is about to be written in place of the
one on disk, the calls are those of one thread (`step_refines`).

* `file_current`: when no call is in progress, the file has the records of the memory and `Open`
  restores them.
-/

namespace BuddyNet.Cache

open Machine

open Handshake (Peer)
open Buddy (PeerTextual)
open Registry

/-- How far the call that holds `writeMu` has come. -/
inductive Progress where
  | entered (p : Peer)
  | snapshot (ps : List Peer)
  | saved

/-- The registry, its file, the holder of `writeMu` and the calls that wait for it. -/
structure Shared where
  reg : Registry
  file : Option Bytes
  holder : Option (ℕ × Progress) := none
  waiting : ℕ → Option Peer := fun _ => none

/-- What a call does next. -/
inductive Act where
  /-- It is made. -/
  | call (i : ℕ) (p : Peer)
  /-- It gets `writeMu`. -/
  | lock (i : ℕ)
  /-- Its section under `mu`: the record is stored and the snapshot taken. -/
  | store (i : ℕ) (now : ℤ) (order : List Bytes)
  /-- `save`, which succeeds. -/
  | save (i : ℕ)
  /-- It releases `writeMu` and returns. -/
  | unlock (i : ℕ)

/-- A step of some call; a call that cannot go on does nothing. -/
def Shared.step (c : Codec) (s : Shared) : Act → Shared
  | .call i p =>
    if s.waiting i = none ∧ s.holder.map (·.1) ≠ some i then
      { s with waiting := Function.update s.waiting i (some p) }
    else s
  | .lock i =>
    match s.holder, s.waiting i with
    | none, some p =>
      { s with holder := some (i, .entered p), waiting := Function.update s.waiting i none }
    | _, _ => s
  | .store i now order =>
    match s.holder with
    | some (j, .entered p) =>
      if i = j then
        { s with
          reg := s.reg.upsert now p
          holder := some (i, .snapshot ((s.reg.upsert now p).list order)) }
      else s
    | _ => s
  | .save i =>
    match s.holder with
    | some (j, .snapshot ps) =>
      if i = j then { s with file := some (c.marshal ps), holder := some (i, .saved) } else s
    | _ => s
  | .unlock i =>
    match s.holder with
    | some (j, .saved) => if i = j then { s with holder := none } else s
    | _ => s

/-- No call is in progress. -/
def Shared.Quiet (s : Shared) : Prop := s.holder = none ∧ ∀ i, s.waiting i = none

/-- The registry of a node that starts with this store. -/
def Shared.start (s : Store) : Shared := { reg := s.reg, file := s.file }

/-- The store once the pending snapshot is written. -/
def Shared.settled (c : Codec) (s : Shared) : Store where
  reg := s.reg
  file := match s.holder with
    | some (_, .snapshot ps) => some (c.marshal ps)
    | _ => s.file

/-- A record with a key and with well-formed texts, and a clock of 64 bits. -/
def Act.Proper : Act → Prop
  | .call _ p => p.pubkey ≠ [] ∧ PeerTextual p
  | .store _ now _ => -2 ^ 63 ≤ now ∧ now < 2 ^ 63
  | _ => True

variable {c : Codec} {s : Shared}

theorem textual_stamp {p : Peer} (h : PeerTextual p) {now : ℤ}
    (hnow : -2 ^ 63 ≤ now ∧ now < 2 ^ 63) : PeerTextual (stamp now p) := by
  unfold Registry.stamp
  split_ifs
  · exact ⟨h.id, h.pubkey, h.virtualIP, h.name, h.candidates, h.relay, hnow⟩
  · exact h

/-- The records of the calls in progress are proper. -/
structure Shared.Proper (s : Shared) : Prop where
  waiting : ∀ {i p}, s.waiting i = some p → p.pubkey ≠ [] ∧ PeerTextual p
  entered : ∀ {i p}, s.holder = some (i, .entered p) → p.pubkey ≠ [] ∧ PeerTextual p

theorem Shared.proper_start (s : Store) : (Shared.start s).Proper := by
  constructor
  · rintro i p ⟨⟩
  · rintro i p ⟨⟩

theorem Shared.Proper.later {s' : Shared} (h : s.Proper) (hwaiting : s'.waiting = s.waiting)
    (hholder : ∀ i p, s'.holder ≠ some (i, .entered p)) : s'.Proper :=
  ⟨fun hi => h.waiting (hwaiting ▸ hi), fun {i p} hi => absurd hi (hholder i p)⟩

theorem Shared.Proper.step (h : s.Proper) {a : Act} (ha : a.Proper) : (s.step c a).Proper := by
  cases a with
  | call i p =>
    simp only [Shared.step]
    split_ifs
    · refine ⟨fun {j q} hj => ?_, fun {j q} hj => h.entered hj⟩
      by_cases hij : j = i
      · subst hij
        cases (Function.update_self ..).symm.trans hj
        exact ha
      · exact h.waiting ((Function.update_of_ne hij ..).symm.trans hj)
    · exact h
  | lock i =>
    simp only [Shared.step]
    split
    · next p hholder hwait =>
      refine ⟨fun {j q} hj => ?_, fun {j q} hj => ?_⟩
      · by_cases hij : j = i
        · subst hij
          cases (Function.update_self ..).symm.trans hj
        · exact h.waiting ((Function.update_of_ne hij ..).symm.trans hj)
      · cases hj
        exact h.waiting hwait
    · exact h
  | store i now order | save i | unlock i =>
    simp only [Shared.step]
    split
    · split_ifs
      · exact h.later rfl nofun
      · exact h
    · exact h

/-- **A step of the calls is invisible or one whole `Upsert`** of the store that is settled. -/
theorem step_refines (h : s.Proper) {a : Act} (ha : a.Proper) :
    (s.step c a).settled c = s.settled c ∨
      ∃ e : Event, e.Proper ∧ (s.step c a).settled c = (s.settled c).step c e := by
  cases a with
  | call i p =>
    simp only [Shared.step]
    split_ifs <;> exact Or.inl rfl
  | lock i =>
    simp only [Shared.step]
    split
    · next p hholder hwait =>
      left
      simp only [Shared.settled, hholder]
    · exact Or.inl rfl
  | store i now order =>
    simp only [Shared.step]
    split
    · next j p hholder =>
      split_ifs
      · right
        obtain ⟨hkey, htext⟩ := h.entered hholder
        exact ⟨.upsert now order p, ⟨hkey, textual_stamp htext ha⟩, rfl⟩
      · exact Or.inl rfl
    · exact Or.inl rfl
  | save i =>
    simp only [Shared.step]
    split
    · next j ps hholder =>
      left
      split_ifs
      · simp only [Shared.settled, hholder]
      · rfl
    · exact Or.inl rfl
  | unlock i =>
    simp only [Shared.step]
    split
    · next j hholder =>
      left
      split_ifs
      · simp only [Shared.settled, hholder]
      · rfl
    · exact Or.inl rfl

/-- In every state the settled store is one of a run of whole calls. -/
theorem settled_inStep (hc : c.Lawful) {st : Store} (hst : InStep c st) {as : List Act}
    (has : ∀ a ∈ as, a.Proper) :
    InStep c ((run (Shared.step c) (Shared.start st) as).settled c) := by
  have halong : Along (Shared.step c) (fun _ a => a.Proper) (Shared.start st) as :=
    along_of_forall fun _ a ha => has a ha
  obtain ⟨es, hes, hrun⟩ := refines_run
    (fun s a (h : s.Proper) ha => h.step ha) (fun s a h ha => step_refines h ha)
    (Shared.proper_start st) halong
  rw [hrun]
  exact inStep_run hc hst hes

/-- **The file is never behind the memory.** After any interleaving of calls, when none is in
progress, the file decodes to the records in memory, each once, and opening it restores them and the
name maps. A node that has stored nothing has no file. -/
theorem file_current (hc : c.Lawful) {es : List Event} (hes : ∀ e ∈ es, e.Proper) {as : List Act}
    (has : ∀ a ∈ as, a.Proper) {s : Shared}
    (hs : run (Shared.step c) (Shared.start (run (Store.step c) {} es)) as = s)
    (hquiet : s.Quiet) :
    (s.file = none ∧ s.reg = {} ∨
      ∃ data ps, s.file = some data ∧ c.unmarshal data = some ps ∧
        (ps.map (·.pubkey)).Nodup ∧
        ∀ k p, s.reg.peers.lookup k = some p ↔ p ∈ ps ∧ p.pubkey = k) ∧
    (∀ k, (openFile c s.file).peers.lookup k = s.reg.peers.lookup k) ∧
    (∀ k, (openFile c s.file).nameByKey.lookup k = s.reg.nameByKey.lookup k) ∧
    ∀ n, (openFile c s.file).keyByName.lookup n = s.reg.keyByName.lookup n := by
  have hin := settled_inStep hc (inStep_run hc (inStep_empty c) hes) has
  have hsettled : s.settled c = ⟨s.reg, s.file⟩ := by
    unfold Shared.settled
    rw [hquiet.1]
  rw [hs, hsettled] at hin
  obtain ⟨hpeers, hnames, howners⟩ := hin.reopen_same hc
  refine ⟨?_, hpeers, hnames, howners⟩
  rcases hin.written with hnone | ⟨ps, hfile, hps⟩
  · exact Or.inl hnone
  · have htext : ∀ p ∈ ps, PeerTextual p := fun p hp =>
      hin.textual p.pubkey p ((hps.lookup_iff p.pubkey p).2 ⟨hp, rfl⟩)
    exact Or.inr ⟨_, ps, hfile, hc ps htext, hps.nodup, hps.lookup_iff⟩

namespace Sample

/-- All the steps of one call. -/
def wholeCall (i : ℕ) (p : Peer) : List Act :=
  [.call i p, .lock i, .store i 1 [], .save i, .unlock i]

/-- Two calls; the second one waits while the first one writes. -/
def twoCalls : List Act :=
  [.call 0 (alice (lit "key")), .lock 0, .store 0 1 [], .call 1 (alice (lit "other")), .lock 1,
    .save 0, .unlock 0, .lock 1, .store 1 2 [], .save 1, .unlock 1]

end Sample

open Sample in
/-- A record without a key is in the file and not in what is opened from it. -/
theorem file_current_fails :
    compact.Lawful ∧
      (run (Shared.step compact) (Shared.start {}) (wholeCall 0 (alice []))).Quiet ∧
      (run (Shared.step compact) (Shared.start {})
        (wholeCall 0 (alice []))).reg.peers.lookup [] = some (alice []) ∧
      (openFile compact (run (Shared.step compact) (Shared.start {})
        (wholeCall 0 (alice []))).file).peers.lookup [] = none := by
  refine ⟨compact_lawful, ⟨rfl, fun i => ?_⟩, by decide +kernel, by decide +kernel⟩
  match i with
  | 0 => rfl
  | n + 1 => rfl

open Sample in
theorem file_current_two :
    (∀ k, (openFile compact
        (run (Shared.step compact) (Shared.start {}) twoCalls).file).peers.lookup k =
        (run (Shared.step compact) (Shared.start {}) twoCalls).reg.peers.lookup k) ∧
      (run (Shared.step compact) (Shared.start {}) twoCalls).reg.nameByKey.lookup
        (lit "key") = some (lit "alice") ∧
      (run (Shared.step compact) (Shared.start {}) twoCalls).reg.nameByKey.lookup
        (lit "other") = none := by
  have htext : ∀ key, Go.Utf8 key → PeerTextual (alice key) := fun key hkey =>
    alice_textual hkey 0
  have hproper : ∀ a ∈ twoCalls, a.Proper := by
    simp only [twoCalls, List.forall_mem_cons]
    refine ⟨⟨by decide, htext _ (Go.utf8_of_all (by decide))⟩, trivial, ?_,
      ⟨by decide, htext _ (Go.utf8_of_all (by decide))⟩, trivial, trivial, trivial, trivial, ?_,
      trivial, trivial, List.forall_mem_nil _⟩
    · exact ⟨by decide, by decide⟩
    · exact ⟨by decide, by decide⟩
  have hquiet : (run (Shared.step compact) (Shared.start {}) twoCalls).Quiet := by
    refine ⟨rfl, fun i => ?_⟩
    match i with
    | 0 => rfl
    | 1 => rfl
    | n + 2 => rfl
  exact ⟨(file_current compact_lawful (List.forall_mem_nil Event.Proper) hproper rfl hquiet).2.1,
    by decide +kernel, by decide +kernel⟩

end BuddyNet.Cache
