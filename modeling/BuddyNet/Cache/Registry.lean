import BuddyNet.Buddy.Roster

/-!
# The peer cache

`internal/peer/registry.go`: the peers a node has talked to, by public key, with the names that were
pinned to them, and the file they are written to. A snapshot lists the map in an order that depends
on the iteration over the map where ids are equal, so it takes that order as an argument.

* `load_spec`: what `Open` makes of a list of records;
* `pinNameLocked_spec`, `upsert_spec`: what `Upsert` does under the lock;
* `Consistent`: the records and the two name maps say the same. `Upsert` keeps it;
* `reopen_same`: a registry that is opened from what was written has the same maps.
-/

namespace BuddyNet.Cache

open List AList Go

open Handshake (Peer)
open Buddy (PeerTextual)

/-! ### The code -/

/-- `encoding/json` on lists of records: `MarshalIndent` and `Unmarshal`. -/
structure Codec where
  marshal : List Peer → Bytes
  unmarshal : Bytes → Option (List Peer)

/-- Records made of well-formed text are read back as they were written. -/
def Codec.Lawful (c : Codec) : Prop :=
  ∀ ps, (∀ p ∈ ps, PeerTextual p) → c.unmarshal (c.marshal ps) = some ps

/-- `Registry`: the records by key, the name of a key, and the key of a name. -/
structure Registry where
  peers : AList fun _ : Bytes => Peer := ∅
  nameByKey : AList fun _ : Bytes => Bytes := ∅
  keyByName : AList fun _ : Bytes => Bytes := ∅

namespace Registry

/-- One turn of the loop of `Open`. -/
def load (r : Registry) (p : Peer) : Registry :=
  if p.pubkey = [] then r
  else if p.name = [] then { r with peers := r.peers.insert p.pubkey p }
  else
    { peers := r.peers.insert p.pubkey p
      nameByKey := r.nameByKey.insert p.pubkey p.name
      keyByName := r.keyByName.insert p.name p.pubkey }

/-- `Open`: a missing or damaged file gives the empty registry. -/
def openFile (c : Codec) (file : Option Bytes) : Registry :=
  match file.bind c.unmarshal with
  | none => {}
  | some list => list.foldl load {}

/-- A name that is free is pinned to the key. -/
def pin (r : Registry) (pubkey name : Bytes) : Registry :=
  { r with
    nameByKey := r.nameByKey.insert pubkey name
    keyByName := r.keyByName.insert name pubkey }

/-- `pinNameLocked`: the name to store for a key. -/
def pinNameLocked (r : Registry) (pubkey name : Bytes) : Registry × Bytes :=
  if name = [] then (r, (r.nameByKey.lookup pubkey).getD [])
  else match r.nameByKey.lookup pubkey with
    -- the same name or another one, which is only logged
    | some pinned => (r, pinned)
    | none => match r.keyByName.lookup name with
      | some owner => if owner ≠ pubkey then (r, []) else (r.pin pubkey name, name)
      | none => (r.pin pubkey name, name)

/-- A record without a time gets the present one. -/
def stamp (now : ℤ) (p : Peer) : Peer := if p.lastSeen = 0 then { p with lastSeen := now } else p

/-- The part of `Upsert` under `mu`, without the snapshot. -/
def upsert (r : Registry) (now : ℤ) (p : Peer) : Registry :=
  let p := stamp now p
  let (r, name) := r.pinNameLocked p.pubkey p.name
  { r with peers := r.peers.insert p.pubkey { p with name := name } }

/-- `list`: the records sorted by id. -/
def list (r : Registry) (order : List Bytes) : List Peer :=
  ((visitOrder order r.peers.keys).filterMap r.peers.lookup).insertionSort
    fun p q => strLt p.id q.id = true

end Registry

/-- JSON without the indentation. -/
def compact : Codec where
  marshal := fun ps => Json.array (ps.map Handshake.Peer.json)
  unmarshal := fun data => (Json.parse data).bind fun v =>
    Json.sliceField Buddy.decodePeer [v]

theorem compact_lawful : compact.Lawful := by
  intro ps hps
  have hreads : Json.Reads (Json.array (ps.map Handshake.Peer.json))
      (.arr (ps.map Buddy.peerValue)) 4 := by
    refine Json.reads_array ?_
    rw [forall₂_map_left_iff, forall₂_map_right_iff, forall₂_same]
    exact fun p hp => (hps p hp).reads
  have hdecode : Json.sliceField Buddy.decodePeer [.arr (ps.map Buddy.peerValue)] = some ps := by
    have hfield := @Json.sliceField_omitted _ _ _ Handshake.Peer.json _ ps
      fun p hp => (hps p hp).decodePeer_value
    by_cases hnil : ps = []
    · rw [hnil]
      rfl
    · rw [if_neg hnil] at hfield
      exact hfield
  simp only [compact]
  rw [hreads.parse (by decide), Option.bind_some, hdecode]

/-! ### Opening -/

namespace Registry

variable {r : Registry} {now : ℤ} {p : Peer}

/-- The list has the records of the registry, each once. -/
structure Listing (r : Registry) (ps : List Peer) : Prop where
  nodup : (ps.map (·.pubkey)).Nodup
  lookup_iff : ∀ k p, r.peers.lookup k = some p ↔ p ∈ ps ∧ p.pubkey = k

/-- Two registries with the same maps. -/
structure Same (r r' : Registry) : Prop where
  peers : ∀ k, r'.peers.lookup k = r.peers.lookup k
  nameByKey : ∀ k, r'.nameByKey.lookup k = r.nameByKey.lookup k
  keyByName : ∀ n, r'.keyByName.lookup n = r.keyByName.lookup n

theorem Same.refl (r : Registry) : Same r r := ⟨fun _ => rfl, fun _ => rfl, fun _ => rfl⟩

/-- Every record is under its own key. -/
def Keyed (r : Registry) : Prop := ∀ {k p}, r.peers.lookup k = some p → p.pubkey = k

theorem listing_list (h : r.Keyed) (order : List Bytes) : Listing r (r.list order) := by
  have hperm : (r.list order).Perm ((visitOrder order r.peers.keys).filterMap r.peers.lookup) :=
    perm_insertionSort _ _
  constructor
  · refine (Perm.nodup_iff (hperm.map _)).2 ?_
    have hkeys : ((visitOrder order r.peers.keys).filterMap r.peers.lookup).map (·.pubkey) =
        visitOrder order r.peers.keys := by
      have hall : ∀ k ∈ visitOrder order r.peers.keys,
          (r.peers.lookup k).map (·.pubkey) = some k := by
        intro k hk
        have hmem : k ∈ r.peers := mem_keys.2 (mem_visitOrder.1 hk)
        obtain ⟨p, hp⟩ := Option.isSome_iff_exists.1 (lookup_isSome.2 hmem)
        rw [hp, Option.map_some, h hp]
      rw [map_filterMap]
      exact (filterMap_congr hall).trans filterMap_some
    rw [hkeys]
    exact nodup_visitOrder r.peers.nodupKeys
  · intro k p
    rw [hperm.mem_iff, mem_filterMap]
    constructor
    · intro hp
      exact ⟨⟨k, mem_visitOrder.2 (mem_keys_of_lookup hp), hp⟩, h hp⟩
    · rintro ⟨⟨k', -, hp⟩, rfl⟩
      rw [h hp]
      exact hp

/-- The records that carry a name. -/
def named (ps : List Peer) : List Peer := ps.filter fun p => p.name ≠ []

variable {ps : List Peer}

theorem foldl_load (hkeys : ∀ p ∈ ps, p.pubkey ≠ []) (r : Registry) :
    ps.foldl load r =
      { peers := fill (·.pubkey) id ps r.peers
        nameByKey := fill (·.pubkey) (·.name) (named ps) r.nameByKey
        keyByName := fill (·.name) (·.pubkey) (named ps) r.keyByName } := by
  induction ps generalizing r with
  | nil => rfl
  | cons p ps ih =>
    rw [foldl_cons, ih fun q hq => hkeys q (mem_cons_of_mem _ hq)]
    have hload : load r p = if p.name = [] then { r with peers := r.peers.insert p.pubkey p } else
        { peers := r.peers.insert p.pubkey p
          nameByKey := r.nameByKey.insert p.pubkey p.name
          keyByName := r.keyByName.insert p.name p.pubkey } :=
      if_neg (hkeys p mem_cons_self)
    rw [hload]
    by_cases hname : p.name = []
    · have hnamed : named (p :: ps) = named ps := filter_cons_of_neg (by simpa using hname)
      rw [if_pos hname, hnamed]
      rfl
    · have hnamed : named (p :: ps) = p :: named ps :=
        filter_cons_of_pos (by simpa using hname)
      rw [if_neg hname, hnamed]
      rfl

theorem mem_named {p : Peer} : p ∈ named ps ↔ p ∈ ps ∧ p.name ≠ [] := by
  simp [named]

/-- **What `Open` makes of a list** of records with different keys and different names. -/
theorem load_spec (hkeys : ∀ p ∈ ps, p.pubkey ≠ []) (hnodup : (ps.map (·.pubkey)).Nodup)
    (hnames : ∀ p ∈ ps, ∀ q ∈ ps, p.name ≠ [] → p.name = q.name → p = q) :
    (∀ k p, (ps.foldl load {}).peers.lookup k = some p ↔ p ∈ ps ∧ p.pubkey = k) ∧
      (∀ k n, (ps.foldl load {}).nameByKey.lookup k = some n ↔
        ∃ p ∈ ps, p.name ≠ [] ∧ p.pubkey = k ∧ p.name = n) ∧
      ∀ k n, (ps.foldl load {}).keyByName.lookup n = some k ↔
        ∃ p ∈ ps, p.name ≠ [] ∧ p.pubkey = k ∧ p.name = n := by
  have hsub : ((named ps).map (·.pubkey)).Nodup :=
    hnodup.sublist (filter_sublist.map _)
  have hdistinct : ((named ps).map (·.name)).Nodup := by
    refine Nodup.map_on ?_ (Nodup.of_map _ hsub)
    intro p hp q hq heq
    rw [mem_named] at hp hq
    exact hnames p hp.1 q hq.1 hp.2 heq
  rw [foldl_load hkeys]
  refine ⟨fun k p => ?_, fun k n => ?_, fun k n => ?_⟩
  · rw [lookup_fill hnodup]
    constructor
    · rintro ⟨q, hq, hkey, rfl⟩
      exact ⟨hq, hkey⟩
    · rintro ⟨hp, hkey⟩
      exact ⟨p, hp, hkey, rfl⟩
  · rw [lookup_fill hsub]
    simp only [mem_named, and_assoc]
  · rw [lookup_fill hdistinct]
    simp only [mem_named, and_assoc, and_comm]

/-! ### Names -/

/-- The maps say the same: the name of a key is the name of its record, and the two name maps are
inverse to each other. -/
structure Consistent (r : Registry) : Prop where
  keyed : r.Keyed
  nonempty : ∀ {k p}, r.peers.lookup k = some p → k ≠ []
  inverse : ∀ k n, r.nameByKey.lookup k = some n ↔ r.keyByName.lookup n = some k
  recorded : ∀ k n, r.nameByKey.lookup k = some n ↔
    n ≠ [] ∧ ∃ p, r.peers.lookup k = some p ∧ p.name = n

theorem consistent_empty : Consistent {} where
  keyed := nofun
  nonempty := nofun
  inverse := fun k n => by simp
  recorded := fun k n => by simp

theorem pinNameLocked_spec (h : r.Consistent) (k name : Bytes) :
    r.pinNameLocked k name = (r, (r.nameByKey.lookup k).getD []) ∨
      r.pinNameLocked k name = (r.pin k name, name) ∧ name ≠ [] ∧
        r.nameByKey.lookup k = none ∧ r.keyByName.lookup name = none := by
  unfold pinNameLocked
  by_cases hname : name = []
  · exact Or.inl (if_pos hname)
  rw [if_neg hname]
  cases hpinned : r.nameByKey.lookup k with
  | some pinned => exact Or.inl rfl
  | none =>
    cases howner : r.keyByName.lookup name with
    | none => exact Or.inr ⟨rfl, hname, rfl, rfl⟩
    | some owner =>
      -- the owner is another key, since this one has no name
      have hne : owner ≠ k := by
        rintro rfl
        rw [(h.inverse owner name).2 howner] at hpinned
        cases hpinned
      exact Or.inl (if_pos hne)

@[simp] theorem stamp_pubkey (now : ℤ) (p : Peer) : (stamp now p).pubkey = p.pubkey := by
  unfold stamp
  split_ifs <;> rfl

@[simp] theorem stamp_name (now : ℤ) (p : Peer) : (stamp now p).name = p.name := by
  unfold stamp
  split_ifs <;> rfl

/-- A record is stored under a key. -/
def put (r : Registry) (k : Bytes) (p : Peer) : Registry := { r with peers := r.peers.insert k p }

/-- The record that is stored under a name. -/
def stored (now : ℤ) (p : Peer) (name : Bytes) : Peer := { stamp now p with name := name }

theorem upsert_eq (r : Registry) (now : ℤ) (p : Peer) :
    r.upsert now p = (r.pinNameLocked p.pubkey p.name).1.put p.pubkey
      (stored now p (r.pinNameLocked p.pubkey p.name).2) := by
  have hupsert : r.upsert now p =
      (r.pinNameLocked (stamp now p).pubkey (stamp now p).name).1.put (stamp now p).pubkey
        (stored now p (r.pinNameLocked (stamp now p).pubkey (stamp now p).name).2) := rfl
  rw [hupsert, stamp_pubkey, stamp_name]

/-- **What `Upsert` does under the lock**: it stores the record with the name of its key, and the
name maps stay as they are or get one new pair. -/
theorem upsert_spec (h : r.Consistent) (now : ℤ) (p : Peer) :
    r.upsert now p = r.put p.pubkey (stored now p ((r.nameByKey.lookup p.pubkey).getD [])) ∨
    r.upsert now p = (r.pin p.pubkey p.name).put p.pubkey (stored now p p.name) ∧
      p.name ≠ [] ∧ r.nameByKey.lookup p.pubkey = none ∧ r.keyByName.lookup p.name = none := by
  rw [upsert_eq]
  rcases pinNameLocked_spec h p.pubkey p.name with heq | ⟨heq, hfree⟩
  · rw [heq]
    exact Or.inl rfl
  · rw [heq]
    exact Or.inr ⟨rfl, hfree⟩

theorem upsert_keeps (h : r.Consistent) (now : ℤ) (p : Peer) :
    (∀ k n, r.nameByKey.lookup k = some n → (r.upsert now p).nameByKey.lookup k = some n) ∧
      ∀ k n, r.keyByName.lookup n = some k → (r.upsert now p).keyByName.lookup n = some k := by
  rcases upsert_spec h now p with heq | ⟨heq, -, hkey, hname⟩
  · rw [heq]
    exact ⟨fun _ _ => id, fun _ _ => id⟩
  · rw [heq]
    constructor
    · intro k n hk
      have hne : k ≠ p.pubkey := by
        rintro rfl
        rw [hkey] at hk
        cases hk
      exact (lookup_insert_ne hne).trans hk
    · intro k n hn
      have hne : n ≠ p.name := by
        rintro rfl
        rw [hname] at hn
        cases hn
      exact (lookup_insert_ne hne).trans hn

variable {r' : Registry} (h : r.Consistent)
include h

/-- A record that is stored with the name of its key keeps the maps consistent. -/
theorem Consistent.put {k : Bytes} (hk : k ≠ []) (hp : p.pubkey = k) (hpeers : r'.peers = r.peers)
    (hinverse : ∀ k n, r'.nameByKey.lookup k = some n ↔ r'.keyByName.lookup n = some k)
    (hother : ∀ k', k' ≠ k → r'.nameByKey.lookup k' = r.nameByKey.lookup k')
    (hname : ∀ n, r'.nameByKey.lookup k = some n ↔ n ≠ [] ∧ p.name = n) :
    (r'.put k p).Consistent := by
  refine ⟨fun {k' q} hq => ?_, fun {k' q} hq => ?_, hinverse, fun k' n => ?_⟩
  · rcases lookup_insert_cases hq with hold | ⟨rfl, rfl⟩
    · rw [hpeers] at hold
      exact h.keyed hold
    · exact hp
  · rcases lookup_insert_cases hq with hold | ⟨rfl, -⟩
    · rw [hpeers] at hold
      exact h.nonempty hold
    · exact hk
  · show r'.nameByKey.lookup k' = some n ↔
      n ≠ [] ∧ ∃ q, (r'.peers.insert k p).lookup k' = some q ∧ q.name = n
    by_cases heq : k' = k
    · subst heq
      rw [lookup_insert, hname]
      simp
    · rw [hother k' heq, lookup_insert_ne heq, hpeers]
      exact h.recorded k' n

/-- The maps stay inverse when a name without a key is pinned to a key without a name. -/
theorem Consistent.pin_inverse {key name : Bytes}
    (hkey : r.nameByKey.lookup key = none) (hname : r.keyByName.lookup name = none) (k n : Bytes) :
    (r.pin key name).nameByKey.lookup k = some n ↔
    (r.pin key name).keyByName.lookup n = some k := by
  show (r.nameByKey.insert key name).lookup k = some n ↔
    (r.keyByName.insert name key).lookup n = some k
  by_cases hk : k = key
  · by_cases hn : n = name
    · rw [hk, hn, lookup_insert, lookup_insert]
      simp
    · rw [hk, lookup_insert, lookup_insert_ne hn, ← h.inverse, hkey]
      simpa [eq_comm] using hn
  · by_cases hn : n = name
    · rw [hn, lookup_insert, lookup_insert_ne hk, h.inverse, hname]
      simpa [eq_comm] using hk
    · rw [lookup_insert_ne hk, lookup_insert_ne hn, h.inverse]

theorem Consistent.upsert (hkey : p.pubkey ≠ []) (now : ℤ) : (r.upsert now p).Consistent := by
  have hstored : ∀ name, (stored now p name).pubkey = p.pubkey := fun _ => stamp_pubkey now p
  rcases upsert_spec h now p with heq | ⟨heq, hname, hfree, howner⟩ <;> rw [heq]
  · refine h.put hkey (hstored _) rfl h.inverse (fun _ _ => rfl) fun n => ?_
    show r.nameByKey.lookup p.pubkey = some n ↔
      n ≠ [] ∧ (r.nameByKey.lookup p.pubkey).getD [] = n
    cases hpin : r.nameByKey.lookup p.pubkey with
    | none => simp [eq_comm]
    | some m =>
      have hm : m ≠ [] := ((h.recorded _ m).1 hpin).1
      constructor
      · rintro ⟨⟩
        exact ⟨hm, rfl⟩
      · rintro ⟨-, rfl⟩
        rfl
  · refine h.put hkey (hstored _) rfl (h.pin_inverse hfree howner)
      (fun k' hk' => lookup_insert_ne hk') fun n => ?_
    show (r.nameByKey.insert p.pubkey p.name).lookup p.pubkey = some n ↔ n ≠ [] ∧ p.name = n
    rw [lookup_insert, Option.some.injEq]
    constructor
    · rintro rfl
      exact ⟨hname, rfl⟩
    · exact And.right

/-! ### Opening what was written -/

theorem Listing.consistent_names (hps : Listing r ps) :
    ∀ p ∈ ps, ∀ q ∈ ps, p.name ≠ [] → p.name = q.name → p = q := by
  intro p hp q hq hne heq
  have hpk := (hps.lookup_iff p.pubkey p).2 ⟨hp, rfl⟩
  have hqk := (hps.lookup_iff q.pubkey q).2 ⟨hq, rfl⟩
  have howner := (h.inverse _ _).1 ((h.recorded p.pubkey p.name).2 ⟨hne, p, hpk, rfl⟩)
  have howner' := (h.inverse _ _).1 ((h.recorded q.pubkey p.name).2 ⟨hne, q, hqk, heq.symm⟩)
  have hsame : p.pubkey = q.pubkey := Option.some.inj (howner.symm.trans howner')
  rw [hsame] at hpk
  exact Option.some.inj (hpk.symm.trans hqk)

/-- **A registry that is opened from a list of its records has the same maps.** -/
theorem Consistent.load_same (hps : Listing r ps) : Same r (ps.foldl load {}) := by
  have hkeys : ∀ p ∈ ps, p.pubkey ≠ [] := fun p hp =>
    h.nonempty ((hps.lookup_iff p.pubkey p).2 ⟨hp, rfl⟩)
  obtain ⟨hpeers, hnames, howners⟩ := load_spec hkeys hps.nodup (hps.consistent_names h)
  have hrecord : ∀ k n, (∃ p ∈ ps, p.name ≠ [] ∧ p.pubkey = k ∧ p.name = n) ↔
      r.nameByKey.lookup k = some n := by
    intro k n
    rw [h.recorded]
    constructor
    · rintro ⟨p, hp, hne, rfl, rfl⟩
      exact ⟨hne, p, (hps.lookup_iff _ p).2 ⟨hp, rfl⟩, rfl⟩
    · rintro ⟨hne, p, hp, rfl⟩
      obtain ⟨hmem, rfl⟩ := (hps.lookup_iff k p).1 hp
      exact ⟨p, hmem, hne, rfl, rfl⟩
  refine ⟨fun k => Option.ext fun p => ?_, fun k => Option.ext fun n => ?_,
    fun n => Option.ext fun k => ?_⟩
  · exact (hpeers k p).trans (hps.lookup_iff k p).symm
  · exact (hnames k n).trans (hrecord k n)
  · exact ((howners k n).trans (hrecord k n)).trans (h.inverse k n)

theorem Consistent.congr (hsame : Same r r') : r'.Consistent where
  keyed := fun {k p} hp => h.keyed ((hsame.peers k).symm.trans hp)
  nonempty := fun {k p} hp => h.nonempty ((hsame.peers k).symm.trans hp)
  inverse := fun k n => by rw [hsame.nameByKey, hsame.keyByName, h.inverse]
  recorded := fun k n => by rw [hsame.nameByKey, h.recorded, hsame.peers]

end Registry

end BuddyNet.Cache
