import BuddyNet.Cache.Registry

/-!
# Newer and older views of a peer

`Upsert` is said to replace an entry only by a view that is as new or newer. It compares no times:
the record it is given replaces the stored one. So the stored times only grow, and the stored
endpoints survive an older view, exactly in the sequences of calls that never bring an older view
(`views_newer_iff`).
-/

namespace BuddyNet.Cache

open Machine

open Handshake (Peer)
open Registry

variable {r : Registry} {now : ℤ} {p : Peer}

theorem pinNameLocked_peers (r : Registry) (k name : Bytes) :
    (r.pinNameLocked k name).1.peers = r.peers := by
  unfold pinNameLocked
  by_cases hname : name = []
  · rw [if_pos hname]
  rw [if_neg hname]
  split
  · rfl
  · split
    · split_ifs <;> rfl
    · rfl

theorem upsert_peers (r : Registry) (now : ℤ) (p : Peer) :
    ∃ name, (r.upsert now p).peers = r.peers.insert p.pubkey (stored now p name) := by
  refine ⟨(r.pinNameLocked p.pubkey p.name).2, ?_⟩
  rw [upsert_eq]
  show (r.pinNameLocked p.pubkey p.name).1.peers.insert p.pubkey _ = _
  rw [pinNameLocked_peers]

/-- A call of `Upsert`: the clock and the record. -/
def Registry.call (r : Registry) (c : ℤ × Peer) : Registry := r.upsert c.1 c.2

/-- The view is as new as the stored one, or newer. -/
def Fresh (r : Registry) (c : ℤ × Peer) : Prop :=
  ∀ old, r.peers.lookup c.2.pubkey = some old → old.lastSeen ≤ (stamp c.1 c.2).lastSeen

instance (r : Registry) (c : ℤ × Peer) : Decidable (Fresh r c) :=
  inferInstanceAs <| Decidable <|
    ∀ old ∈ r.peers.lookup c.2.pubkey, old.lastSeen ≤ (stamp c.1 c.2).lastSeen

/-- No stored time decreases. -/
def Newer (r r' : Registry) : Prop :=
  ∀ k old, r.peers.lookup k = some old →
    ∃ new, r'.peers.lookup k = some new ∧ old.lastSeen ≤ new.lastSeen

/-- An older view leaves the stored candidates and relay in place. -/
def Keeps (r : Registry) (c : ℤ × Peer) : Prop :=
  ∀ old, r.peers.lookup c.2.pubkey = some old → (stamp c.1 c.2).lastSeen < old.lastSeen →
    ∃ new, (r.call c).peers.lookup c.2.pubkey = some new ∧
      new.candidates = old.candidates ∧ new.relay = old.relay

theorem newer_call_iff (r : Registry) (c : ℤ × Peer) : Newer r (r.call c) ↔ Fresh r c := by
  obtain ⟨name, hpeers⟩ := upsert_peers r c.1 c.2
  constructor
  · intro h old hold
    obtain ⟨new, hnew, hle⟩ := h c.2.pubkey old hold
    rw [Registry.call, hpeers, AList.lookup_insert] at hnew
    cases hnew
    exact hle
  · intro h k old hold
    rw [Registry.call, hpeers]
    by_cases hk : k = c.2.pubkey
    · subst hk
      exact ⟨_, AList.lookup_insert _, h old hold⟩
    · exact ⟨old, (AList.lookup_insert_ne hk).trans hold, le_rfl⟩

theorem Fresh.keeps {c : ℤ × Peer} (h : Fresh r c) : Keeps r c :=
  fun old hold hlt => absurd hlt (not_lt.2 (h old hold))

theorem Newer.trans {r₁ r₂ r₃ : Registry} (h : Newer r₁ r₂) (h' : Newer r₂ r₃) : Newer r₁ r₃ := by
  intro k old hold
  obtain ⟨mid, hmid, hle⟩ := h k old hold
  obtain ⟨new, hnew, hle'⟩ := h' k mid hmid
  exact ⟨new, hnew, hle.trans hle'⟩

theorem newer_run {calls : List (ℤ × Peer)} (h : Along Registry.call Fresh r calls) :
    Newer r (run Registry.call r calls) := by
  induction calls generalizing r with
  | nil => exact fun k old hold => ⟨old, hold, le_rfl⟩
  | cons c calls ih => exact ((newer_call_iff r c).2 h.1).trans (ih h.2)

/-- **When an entry is only replaced by a same-or-newer view.** In a sequence of calls no time
decreases and older views leave the endpoints alone exactly when no call brings an older view; and
then the time of a key at the end is not before any time it had. -/
theorem views_newer_iff (r : Registry) (calls : List (ℤ × Peer)) :
    (Along Registry.call (fun r c => Newer r (r.call c) ∧ Keeps r c) r calls ↔
      Along Registry.call Fresh r calls) ∧
    (Along Registry.call Fresh r calls → ∀ pre, pre <+: calls →
      Newer (run Registry.call r pre) (run Registry.call r calls)) := by
  refine ⟨⟨fun h => h.mono ?_, fun h => h.mono ?_⟩, ?_⟩
  · intro r c hrc
    exact (newer_call_iff r c).1 hrc.1
  · intro r c hrc
    exact ⟨(newer_call_iff r c).2 hrc, hrc.keeps⟩
  · rintro h pre ⟨post, rfl⟩
    rw [run_append]
    exact newer_run (along_append.1 h).2

namespace Sample

/-- A view of one peer at a time, with one endpoint. -/
def view (seen : ℤ) (addr : Bytes) : ℤ × Peer :=
  (0, { id := lit "id", pubkey := lit "key", virtualIP := [], name := [],
        candidates := [⟨addr, false⟩], relay := [], lastSeen := seen })

end Sample

open Sample in
/-- An older view replaces the newer one. -/
theorem views_newer_fails :
    ((run Registry.call {} [view 100 (lit "new")]).peers.lookup (lit "key")).map
        (fun p => (p.lastSeen, p.candidates)) = some (100, [⟨lit "new", false⟩]) ∧
      ((run Registry.call {} [view 100 (lit "new"), view 50 (lit "old")]).peers.lookup
        (lit "key")).map (fun p => (p.lastSeen, p.candidates)) =
        some (50, [⟨lit "old", false⟩]) ∧
      ¬ Along Registry.call (fun r c => Newer r (r.call c) ∧ Keeps r c) {}
        [view 100 (lit "new"), view 50 (lit "old")] := by
  refine ⟨by decide +kernel, by decide +kernel, fun h => ?_⟩
  have hfresh : Along Registry.call Fresh {} [view 100 (lit "new"), view 50 (lit "old")] :=
    h.mono fun r c hrc => (newer_call_iff r c).1 hrc.1
  exact absurd hfresh (by decide +kernel)

open Sample in
theorem views_newer_later :
    Along Registry.call (fun r c => Newer r (r.call c) ∧ Keeps r c) {}
      [view 50 (lit "old"), view 100 (lit "new")] :=
  (views_newer_iff {} _).1.2 (by decide +kernel)

end BuddyNet.Cache
