import BuddyNet.NetKey
import BuddyNet.RateLimit
import BuddyNet.Handshake.Control

/-!
# The authorizer of approval mode

`internal/role/authz.go`: the allowlist as it was last loaded, when each key was approved, and two
bounded caches of the nonces that were seen. `recentRegs` is for approved keys and is filled by
`replayed`; `preAuthRegs` is for the others and is filled by `recordPreAuth` behind the enrollment
limiter. Both keep the first sighting of a nonce, look only at entries younger than
`regReplayWindow`, and make room by dropping expired entries and then the oldest one.

A time stamp of the source that may be the zero `time.Time` is an `Option`.
-/

namespace BuddyNet.Handshake

open AList

def maxReplayRegs : ℕ := 4096

def maxPreAuthRegs : ℕ := 4096

/-- `regReplayWindow`, in nanoseconds. -/
def regReplayWindow : ℤ := 2 * regSkew

/-- A cache of nonces: when each was first seen, by `regKey`. -/
abbrev NonceCache := AList fun _ : Bytes => ℤ

/-- `authorizer`, without the pending enrollments and the throttles of its log lines. -/
structure Authorizer where
  keys : AList fun _ : Bytes => Bytes
  mtime : Option ℤ
  approvedAt : AList fun _ : Bytes => Option ℤ
  recentRegs : NonceCache
  preAuthRegs : NonceCache
  enroll : Limiter

def regKey (pubkey nonce : Bytes) : Bytes := pubkey ++ [0] ++ nonce

/-! ### The caches -/

namespace NonceCache

/-- The entry is there and younger than the window. -/
def fresh (c : NonceCache) (now : ℤ) (k : Bytes) : Bool :=
  match c.lookup k with
  | some seen => now - seen < regReplayWindow
  | none => false

theorem fresh_iff {c : NonceCache} {now seen : ℤ} {k : Bytes} (h : c.lookup k = some seen) :
    fresh c now k = true ↔ now - seen < regReplayWindow := by
  rw [fresh, h]
  exact decide_eq_true_iff

theorem fresh_eq_false {c : NonceCache} {k : Bytes} (h : ∀ seen, c.lookup k ≠ some seen)
    (now : ℤ) : fresh c now k = false := by
  unfold fresh
  split
  · next seen hlook => exact absurd hlook (h seen)
  · rfl

/-- The entries that are not younger than the window are dropped. -/
def expire (c : NonceCache) (now : ℤ) : NonceCache :=
  Go.deleteIf (fun seen => regReplayWindow ≤ now - seen) c

/-- `evictOldestRegLocked`, and the same loop in `recordPreAuth`. -/
def evictOldest (c : NonceCache) (order : List Bytes) : NonceCache :=
  match Go.oldest (fun k => (c.lookup k).getD 0) (Go.visitOrder order c.keys) with
  | some k => c.erase k
  | none => c

/-- Room for one more nonce of a key that is not approved. -/
def makeRoom (c : NonceCache) (now : ℤ) (order : List Bytes) : NonceCache :=
  if maxPreAuthRegs ≤ c.keys.length then
    let c := expire c now
    if maxPreAuthRegs ≤ c.keys.length then evictOldest c order else c
  else c

/-! ### What stays in a cache -/

variable {c : NonceCache} {now seen : ℤ} {k : Bytes} {order : List Bytes}

theorem lookup_of_expire (h : (expire c now).lookup k = some seen) :
    c.lookup k = some seen ∧ now - seen < regReplayWindow := by
  rw [expire, Go.lookup_deleteIf, Option.filter_eq_some_iff] at h
  simpa using h

theorem lookup_expire (h : c.lookup k = some seen) (hyoung : now - seen < regReplayWindow) :
    (expire c now).lookup k = some seen := by
  rw [expire, Go.lookup_deleteIf, Option.filter_eq_some_iff]
  simpa using ⟨h, hyoung⟩

/-- One entry goes, and it is an oldest one. -/
theorem evictOldest_spec (order : List Bytes) (h : c.keys ≠ []) :
    ∃ k old, c.lookup k = some old ∧ evictOldest c order = c.erase k ∧
      ∀ k' seen, c.lookup k' = some seen → old ≤ seen := by
  have hvisit : Go.visitOrder order c.keys ≠ [] := by
    obtain ⟨k, hk⟩ := List.exists_mem_of_ne_nil _ h
    exact List.ne_nil_of_mem (Go.mem_visitOrder.2 hk)
  have hold : ∃ k, Go.oldest (fun k => (c.lookup k).getD 0) (Go.visitOrder order c.keys) = some k :=
    Go.exists_oldest hvisit
  obtain ⟨k, hk⟩ := hold
  have hmem : k ∈ c := mem_keys.2 (Go.mem_visitOrder.1 (Go.oldest_mem hk))
  obtain ⟨old, hlook⟩ := Option.isSome_iff_exists.1 (lookup_isSome.2 hmem)
  refine ⟨k, old, hlook, by rw [evictOldest, hk], fun k' seen hseen => ?_⟩
  have hle := Go.oldest_le hk (Go.mem_visitOrder.2 (Go.mem_keys_of_lookup hseen))
  simpa [hlook, hseen] using hle

theorem lookup_of_evictOldest (h : (evictOldest c order).lookup k = some seen) :
    c.lookup k = some seen := by
  unfold evictOldest at h
  split at h
  · exact Go.lookup_of_erase h
  · exact h

theorem lookup_of_makeRoom (h : (makeRoom c now order).lookup k = some seen) :
    c.lookup k = some seen := by
  unfold makeRoom at h
  dsimp only at h
  split_ifs at h
  · exact (lookup_of_expire (lookup_of_evictOldest h)).1
  · exact (lookup_of_expire h).1
  · exact h

theorem expire_length_le (c : NonceCache) (now : ℤ) :
    (expire c now).keys.length ≤ c.keys.length := by
  refine Go.keys_length_le fun k hk => ?_
  obtain ⟨seen, hseen⟩ := Option.isSome_iff_exists.1 (lookup_isSome.2 hk)
  exact lookup_isSome.1 (by simp [(lookup_of_expire hseen).1])

theorem makeRoom_length (now : ℤ) (order : List Bytes) (h : c.keys.length ≤ maxPreAuthRegs) :
    (makeRoom c now order).keys.length < maxPreAuthRegs := by
  unfold makeRoom
  dsimp only
  split_ifs with hfull hstill
  · have hne : (expire c now).keys ≠ [] := by
      intro hnil
      simp [hnil, maxPreAuthRegs] at hstill
    obtain ⟨k, old, hlook, hevict, -⟩ := evictOldest_spec order hne
    have hmem : k ∈ expire c now := lookup_isSome.1 (by simp [hlook])
    have hlen := Go.keys_length_erase_of_mem hmem
    have hle := expire_length_le c now
    rw [hevict]
    omega
  · omega
  · omega

theorem makeRoom_evicts {k₀ : Bytes} {t₀ : ℤ} (order : List Bytes)
    (hfull : maxPreAuthRegs ≤ c.keys.length)
    (hyoung : ∀ k seen, c.lookup k = some seen → now - seen < regReplayWindow)
    (hfirst : c.lookup k₀ = some t₀)
    (hlater : ∀ k seen, c.lookup k = some seen → k = k₀ ∨ t₀ < seen) :
    (makeRoom c now order).lookup k₀ = none := by
  have hkept : c.keys.length ≤ (expire c now).keys.length := by
    refine Go.keys_length_le fun k hk => ?_
    obtain ⟨seen, hseen⟩ := Option.isSome_iff_exists.1 (lookup_isSome.2 hk)
    exact lookup_isSome.1 (by simp [lookup_expire hseen (hyoung k seen hseen)])
  have hne : (expire c now).keys ≠ [] := by
    have hmem := Go.mem_keys_of_lookup (lookup_expire hfirst (hyoung k₀ t₀ hfirst))
    exact List.ne_nil_of_mem hmem
  obtain ⟨k, old, hlook, hevict, hmin⟩ := evictOldest_spec order hne
  have hle := hmin k₀ t₀ (lookup_expire hfirst (hyoung k₀ t₀ hfirst))
  obtain rfl : k = k₀ := by
    rcases hlater k old (lookup_of_expire hlook).1 with heq | hlt
    · exact heq
    · omega
  unfold makeRoom
  rw [if_pos hfull, if_pos (hfull.trans hkept), hevict]
  exact lookup_erase _ _

end NonceCache

namespace Authorizer

open NonceCache

/-- `pruneRegsLocked`: both caches. -/
def pruneRegs (a : Authorizer) (now : ℤ) : Authorizer :=
  { a with recentRegs := expire a.recentRegs now, preAuthRegs := expire a.preAuthRegs now }

/-- Room for one more approved nonce. -/
def makeRoom (a : Authorizer) (now : ℤ) (order : List Bytes) : Authorizer :=
  if maxReplayRegs ≤ a.recentRegs.keys.length then
    let a := a.pruneRegs now
    if maxReplayRegs ≤ a.recentRegs.keys.length then
      { a with recentRegs := evictOldest a.recentRegs order }
    else a
  else a

/-- `replayed`: whether the nonce was seen within the window, and a record of it if not. -/
def replayed (a : Authorizer) (pubkey nonce : Bytes) (now : ℤ) (order : List Bytes) :
    Authorizer × Bool :=
  if pubkey = [] ∨ nonce = [] then (a, false)
  else
    let k := regKey pubkey nonce
    if fresh a.recentRegs now k then (a, true)
    else if fresh a.preAuthRegs now k then (a, true)
    else
      let a := a.makeRoom now order
      ({ a with recentRegs := a.recentRegs.insert k now }, false)

/-- `recordPreAuth`: a nonce of a key that is not approved. -/
def recordPreAuth (a : Authorizer) (pubkey nonce : Bytes) (now : ℤ) (order : List Bytes) :
    Authorizer :=
  if pubkey = [] ∨ nonce = [] then a
  else
    let k := regKey pubkey nonce
    if k ∈ a.preAuthRegs then a
    else { a with preAuthRegs := (NonceCache.makeRoom a.preAuthRegs now order).insert k now }

/-! ### The allowlist -/

/-- What reading the allowlist file gives. -/
inductive FileRead where
  | gone
  | failed
  | content (keys : AList fun _ : Bytes => Bytes) (mtime : ℤ)

/-- The approval time of each key of a newly read allowlist. -/
def approvals (initial : Bool) (old : AList fun _ : Bytes => Option ℤ) (now : ℤ)
    (keys : List Bytes) : AList fun _ : Bytes => Option ℤ :=
  keys.foldl (fun approved k => approved.insert k
    (if initial then none
     else match old.lookup k with
       | some time => time
       | none => some now)) ∅

/-- `load`. A missing file is an empty allowlist; any other error leaves everything as it is. -/
def load (a : Authorizer) (initial : Bool) (file : FileRead) (now : ℤ) : Authorizer :=
  match file with
  | .gone => { a with keys := ∅, approvedAt := ∅, mtime := none }
  | .failed => a
  | .content keys mtime =>
    { a with
      keys := keys
      approvedAt := approvals initial a.approvedAt now keys.keys
      mtime := some mtime }

def noteMissing (a : Authorizer) : Authorizer := { a with keys := ∅, mtime := none }

/-- What `os.Stat` says about the allowlist file. -/
inductive Stat where
  | gone
  | failed
  | modified (mtime : ℤ)

/-- `pollOnce`. The file may change between the two looks at it. -/
def pollOnce (a : Authorizer) (stat : Stat) (file : FileRead) (now : ℤ) : Authorizer :=
  match stat with
  | .gone => a.noteMissing
  | .failed => a
  | .modified mtime => if a.mtime = some mtime then a else a.load false file now

/-- What `newAuthorizer` starts from. -/
def blank (now : ℤ) : Authorizer where
  keys := ∅
  mtime := none
  approvedAt := ∅
  recentRegs := ∅
  preAuthRegs := ∅
  enroll := Limiter.new (20 : ℕ) (2 : ℕ) 1024 now

/-- `newAuthorizer`; it fails when the file is there and cannot be read. -/
def new (file : FileRead) (now : ℤ) : Option Authorizer :=
  match file with
  | .failed => none
  | file => some ((blank now).load true file now)

def allowed (a : Authorizer) (pubkey : Bytes) : Bool := pubkey ∈ a.keys

def allowEnroll (a : Authorizer) (src : Bytes) (now : ℤ) : Authorizer × Bool :=
  ({ a with enroll := (a.enroll.allow src now).1 }, (a.enroll.allow src now).2)

/-- `freshSinceApproval`: the registration is not older than the approval, up to a second. -/
def freshSinceApproval (a : Authorizer) (pubkey : Bytes) (ts : ℤ) : Bool :=
  match a.approvedAt.lookup pubkey with
  | some (some approved) => approved - 1000000000 ≤ ts * 1000000000
  | _ => true

/-! ### What the operations leave alone -/

variable (a : Authorizer) (now : ℤ) (order : List Bytes)

theorem pollOnce_frame (stat : Stat) (file : FileRead) :
    (a.pollOnce stat file now).recentRegs = a.recentRegs ∧
      (a.pollOnce stat file now).preAuthRegs = a.preAuthRegs ∧
      (a.pollOnce stat file now).enroll = a.enroll := by
  unfold pollOnce
  cases stat with
  | gone | failed => exact ⟨rfl, rfl, rfl⟩
  | modified mtime =>
    dsimp only
    split_ifs
    · exact ⟨rfl, rfl, rfl⟩
    · cases file <;> exact ⟨rfl, rfl, rfl⟩

section

variable (pubkey nonce : Bytes)

/-- A nonce of a key that is not approved goes to its own cache, unless it is there. -/
theorem recordPreAuth_cases :
    a.recordPreAuth pubkey nonce now order = a ∨
      regKey pubkey nonce ∉ a.preAuthRegs ∧ a.recordPreAuth pubkey nonce now order =
        { a with
          preAuthRegs := (NonceCache.makeRoom a.preAuthRegs now order).insert
            (regKey pubkey nonce) now } := by
  unfold recordPreAuth
  dsimp only
  split_ifs with hempty hmem
  · exact .inl rfl
  · exact .inl rfl
  · exact .inr ⟨hmem, rfl⟩

theorem recordPreAuth_recentRegs :
    (a.recordPreAuth pubkey nonce now order).recentRegs = a.recentRegs := by
  rcases a.recordPreAuth_cases now order pubkey nonce with h | ⟨-, h⟩ <;> rw [h]

theorem recordPreAuth_enroll : (a.recordPreAuth pubkey nonce now order).enroll = a.enroll := by
  rcases a.recordPreAuth_cases now order pubkey nonce with h | ⟨-, h⟩ <;> rw [h]

end

variable {a now order} {pubkey nonce k : Bytes} {seen : ℤ}

theorem lookup_of_recordPreAuth
    (h : (a.recordPreAuth pubkey nonce now order).preAuthRegs.lookup k = some seen) :
    a.preAuthRegs.lookup k = some seen ∨ k = regKey pubkey nonce ∧ seen = now := by
  rcases a.recordPreAuth_cases now order pubkey nonce with hsame | ⟨-, hnew⟩
  · rw [hsame] at h
    exact .inl h
  · rw [hnew] at h
    exact (Go.lookup_insert_cases h).imp_left lookup_of_makeRoom

variable (a now order)

theorem recordPreAuth_lookup (hkey : pubkey ≠ []) (hnonce : nonce ≠ []) :
    (a.recordPreAuth pubkey nonce now order).preAuthRegs.lookup (regKey pubkey nonce) =
      some ((a.preAuthRegs.lookup (regKey pubkey nonce)).getD now) := by
  rw [recordPreAuth, if_neg (not_or.2 ⟨hkey, hnonce⟩)]
  dsimp only
  split_ifs with hmem
  · obtain ⟨seen, hseen⟩ := Option.isSome_iff_exists.1 (lookup_isSome.2 hmem)
    simp [hseen]
  · rw [lookup_eq_none.2 hmem]
    exact lookup_insert _

theorem makeRoom_of_lt (h : a.recentRegs.keys.length < maxReplayRegs) :
    a.makeRoom now order = a := by
  rw [makeRoom, if_neg (by omega)]

/-- Making room drops old entries of the two caches and leaves the rest alone. -/
theorem makeRoom_frame :
    ∃ pre, (pre = a.preAuthRegs ∨ pre = expire a.preAuthRegs now) ∧
      a.makeRoom now order =
        { a with
          recentRegs := NonceCache.makeRoom a.recentRegs now order
          preAuthRegs := pre } := by
  -- the two caps are the same number
  have hcap : maxPreAuthRegs = maxReplayRegs := rfl
  unfold makeRoom NonceCache.makeRoom
  rw [hcap]
  by_cases hfull : maxReplayRegs ≤ a.recentRegs.keys.length
  · by_cases hstill : maxReplayRegs ≤ (expire a.recentRegs now).keys.length
    · exact ⟨_, .inr rfl, by simp [hfull, hstill, pruneRegs]⟩
    · exact ⟨_, .inr rfl, by simp [hfull, hstill, pruneRegs]⟩
  · exact ⟨_, .inl rfl, by simp [hfull]⟩

/-- `replayed` leaves the authorizer as it is or enters the nonce after making room. -/
theorem replayed_frame (pubkey nonce : Bytes) :
    (a.replayed pubkey nonce now order).1 = a ∨
      ∃ pre, (pre = a.preAuthRegs ∨ pre = expire a.preAuthRegs now) ∧
        (a.replayed pubkey nonce now order).1 =
          { a with
            recentRegs := (NonceCache.makeRoom a.recentRegs now order).insert
              (regKey pubkey nonce) now
            preAuthRegs := pre } := by
  obtain ⟨pre, hpre, hroom⟩ := a.makeRoom_frame now order
  unfold replayed
  dsimp only
  split_ifs
  · exact .inl rfl
  · exact .inl rfl
  · exact .inl rfl
  · exact .inr ⟨pre, hpre, by rw [hroom]⟩

variable {a now order} in
theorem lookup_of_replayed
    (h : (a.replayed pubkey nonce now order).1.preAuthRegs.lookup k = some seen) :
    a.preAuthRegs.lookup k = some seen := by
  rcases a.replayed_frame now order pubkey nonce with hsame | ⟨pre, hpre, hnew⟩
  · rwa [hsame] at h
  · rw [hnew] at h
    rcases hpre with rfl | rfl
    · exact h
    · exact (lookup_of_expire h).1

variable {a now} in
theorem lookup_replayed (pubkey nonce : Bytes) (h : a.preAuthRegs.lookup k = some seen)
    (hyoung : now - seen < regReplayWindow) :
    (a.replayed pubkey nonce now order).1.preAuthRegs.lookup k = some seen := by
  rcases a.replayed_frame now order pubkey nonce with hsame | ⟨pre, hpre, hnew⟩
  · rwa [hsame]
  · rw [hnew]
    rcases hpre with rfl | rfl
    · exact h
    · exact lookup_expire h hyoung

theorem replayed_cases (hkey : pubkey ≠ []) (hnonce : nonce ≠ []) :
    (fresh a.recentRegs now (regKey pubkey nonce) = true ∨
        fresh a.preAuthRegs now (regKey pubkey nonce) = true) ∧
        a.replayed pubkey nonce now order = (a, true) ∨
      (fresh a.recentRegs now (regKey pubkey nonce) = false ∧
        fresh a.preAuthRegs now (regKey pubkey nonce) = false) ∧
        a.replayed pubkey nonce now order =
          ({ a.makeRoom now order with
              recentRegs := (a.makeRoom now order).recentRegs.insert (regKey pubkey nonce) now },
            false) := by
  rw [replayed, if_neg (not_or.2 ⟨hkey, hnonce⟩)]
  cases hrecent : fresh a.recentRegs now (regKey pubkey nonce) with
  | true => exact .inl ⟨.inl rfl, by simp [hrecent]⟩
  | false =>
    cases hpre : fresh a.preAuthRegs now (regKey pubkey nonce) with
    | true => exact .inl ⟨.inr rfl, by simp [hrecent, hpre]⟩
    | false => exact .inr ⟨⟨rfl, rfl⟩, by simp [hrecent, hpre]⟩

theorem replayed_snd (hkey : pubkey ≠ []) (hnonce : nonce ≠ []) :
    (a.replayed pubkey nonce now order).2 = (fresh a.recentRegs now (regKey pubkey nonce) ||
        fresh a.preAuthRegs now (regKey pubkey nonce)) := by
  rcases a.replayed_cases now order hkey hnonce with ⟨hknown, hrep⟩ | ⟨⟨hrecent, hpre⟩, hrep⟩
  · rw [hrep, eq_comm, Bool.or_eq_true]
    exact hknown
  · rw [hrep, hrecent, hpre]
    rfl

end Authorizer

end BuddyNet.Handshake
