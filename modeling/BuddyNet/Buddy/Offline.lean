import BuddyNet.Buddy.Remembered

/-!
# The partner from the cache

Without a partner from the server an attempt takes the first entry of the cache that is fresh and
passes the field checks, and only then compares its key with the pin. The list is sorted by id, so
in a cache of several buddies the entry of the pinned one is used only if no usable entry stands
before it. And a server whose name resolves but which does not answer ends the attempt.

* `cached_partner_iff`: when the attempt goes on with the entry of its pin.
-/

namespace BuddyNet.Buddy

open List

open Handshake (Peer)
open Trust (Attempt)
open Transaction

variable {cr : Crypto} {cfg : Config} {nd : Node} {att : Attempt} {env : Env} {K : Bytes}
  {log : List Act}

/-- The entry is fresh and passes the field checks. -/
def Usable (env : Env) (c : Peer) : Prop :=
  fresh env.now cacheTTL c = true ∧ checkRosterPeer c = true

instance (env : Env) (c : Peer) : Decidable (Usable env c) :=
  inferInstanceAs (Decidable (_ ∧ _))

/-- The server yields no partner: its name does not resolve, it is not reached, or it names
nobody. -/
def NoPartner (env : Env) : Prop :=
  env.serverFound = false ∨ env.register = none ∨ ∃ p, env.register = some p ∧ p.pubkey = []

/-- The second pin of the attempt, if there is one, is this key as well. -/
def PinsAgree (att : Attempt) (K : Bytes) : Prop := att.cfgPin = none ∨ att.cfgPin = some K

theorem enforcePins_iff {pub : Bytes} (hpin : att.pin = some K) :
    Trust.enforcePins att pub = .ok () ↔ pub = K ∧ PinsAgree att K := by
  have hfirst : (att.pin = none ∨ att.pin = some pub) ↔ pub = K := by
    simp [hpin, eq_comm]
  rw [Trust.enforcePins_eq_ok, hfirst]
  exact and_congr_right fun hpub => by rw [hpub, PinsAgree]

theorem trusted_eq_ok {α : Type} {r : Except Trust.TrustError α} {a : α} :
    (trusted r log).2 = .ok a ↔ r = .ok a := by
  cases r with
  | ok b =>
    show ((pure b : Run α) log).2 = .ok a ↔ _
    rw [pure_eq_ok, Except.ok.injEq, eq_comm]
  | error e =>
    constructor
    · rintro ⟨⟩
    · rintro ⟨⟩

theorem fromOption_eq_ok {α : Type} {o : Option α} {e : BuddyError} {a : α} :
    (fromOption o e log).2 = .ok a ↔ o = some a := by
  cases o with
  | some b =>
    show ((pure b : Run α) log).2 = .ok a ↔ _
    rw [pure_eq_ok, Option.some.injEq, eq_comm]
  | none =>
    constructor
    · rintro ⟨⟩
    · rintro ⟨⟩

theorem judge_pinned {pub : Bytes} {needSAS : Bool} (hpin : att.pin = some K) :
    (judge cr nd att env pub log).2 = .ok needSAS ↔
      needSAS = false ∧ pub = K ∧ PinsAgree att K := by
  have hjudge : judge cr nd att env pub =
      (trusted (Trust.enforcePins att pub) >>= fun _ => pure false) :=
    if_pos (by rw [hpin]; simp)
  rw [hjudge, bind_eq_ok]
  simp only [trusted_eq_ok, pure_eq_ok]
  constructor
  · rintro ⟨_, hok, rfl⟩
    exact ⟨rfl, (enforcePins_iff hpin).1 hok⟩
  · rintro ⟨rfl, hok⟩
    exact ⟨(), (enforcePins_iff hpin).2 hok, rfl⟩

variable {found : Found}

theorem findCached_pinned (hpin : att.pin = some K) :
    (findCached cr nd att env log).2 = .ok found ↔
      (∃ c, env.cached.find? (fun c => fresh env.now cacheTTL c && checkRosterPeer c) = some c ∧
        decodePubKey c.pubkey = some K ∧ found = ⟨c, false, some c⟩) ∧ PinsAgree att K := by
  unfold findCached
  simp only [bind_eq_ok, fromOption_eq_ok, judge_pinned hpin, pure_eq_ok]
  constructor
  · rintro ⟨c, hc, pub, hpub, needSAS, ⟨rfl, rfl, hagree⟩, rfl⟩
    exact ⟨⟨c, hc, hpub, rfl⟩, hagree⟩
  · rintro ⟨⟨c, hc, hpub, rfl⟩, hagree⟩
    exact ⟨c, hc, K, hpub, false, ⟨rfl, rfl, hagree⟩, rfl⟩

/-- Without a partner from the server the cache is asked, unless the registration failed. -/
theorem findServer_eq_ok (hoffline : NoPartner env) :
    (findServer cr nd att env log).2 = .ok found ↔
      (env.serverFound = false ∨ env.register ≠ none) ∧
        (findCached cr nd att env log).2 = .ok found := by
  unfold findServer
  cases hserver : env.serverFound with
  | false => simp
  | true =>
    rw [if_pos rfl, bind_eq_ok]
    simp only [fromOption_eq_ok, Bool.true_eq_false, false_or]
    rcases hoffline with hnot | hnone | ⟨p, hp, hkey⟩
    · rw [hserver] at hnot
      cases hnot
    · simp [hnone]
    · have hfinal : (fromOption env.register BuddyError.register).final log = log := by
        rw [hp]
        rfl
      rw [hfinal, hp]
      simp [hkey]

/-- **When the cache reaches the pinned buddy.** Without a partner from the server an attempt goes
on with a usable entry of its pin exactly when the registration was not what failed, no usable entry
stands before it in the list, and the attempt has no other pin. -/
theorem cached_partner_iff (hdirect : cfg.direct = false) (hpin : att.pin = some K)
    (hoffline : NoPartner env) {e : Peer} (hkey : decodePubKey e.pubkey = some K)
    (husable : Usable env e) (log : List Act) :
    (∃ found, (findPartner cr cfg nd att env log).2 = .ok found ∧ found.partner = e ∧
        found.cached = some e) ↔
      (env.serverFound = false ∨ env.register ≠ none) ∧
        (∃ before after, env.cached = before ++ e :: after ∧ ∀ c ∈ before, ¬ Usable env c) ∧
        PinsAgree att K := by
  have hfind : findPartner cr cfg nd att env = findServer cr nd att env := by
    unfold findPartner
    rw [hdirect]
    rfl
  have hfirst : env.cached.find? (fun c => fresh env.now cacheTTL c && checkRosterPeer c) = some e ↔
      ∃ before after, env.cached = before ++ e :: after ∧ ∀ c ∈ before, ¬ Usable env c := by
    rw [find?_eq_some_iff_append]
    have hpass : (fresh env.now cacheTTL e && checkRosterPeer e) = true := by
      rw [Bool.and_eq_true]
      exact husable
    simp only [hpass, true_and, Usable, Bool.not_eq_true', Bool.and_eq_false_iff, not_and_or,
      Bool.not_eq_true]
  rw [hfind, ← hfirst]
  simp only [findServer_eq_ok hoffline, findCached_pinned hpin]
  constructor
  · rintro ⟨found, ⟨hserver, ⟨c, hc, -, rfl⟩, hagree⟩, rfl, -⟩
    exact ⟨hserver, hc, hagree⟩
  · rintro ⟨hserver, hc, hagree⟩
    exact ⟨⟨e, false, some e⟩, ⟨hserver, ⟨e, hc, hkey, rfl⟩, hagree⟩, rfl, rfl⟩

namespace Sample

open Trust.Sample (key)

/-- A cache entry of today. -/
def entry (id pub : Bytes) : Peer :=
  { partner with id := id, pubkey := pubKeyB64 pub, lastSeen := 1000 }

/-- A cache in which the entry of another buddy comes first. -/
def shared : List Peer := [entry (lit "a") (replicate 32 9), entry (lit "b") key]

/-- A node with a cache; the name of its server does not resolve. -/
def offline (cached : List Peer) : Env where
  serverFound := false
  now := 1000 * 1000000000
  cached := cached

/-- Days later there are an old entry of another buddy, the one of the pin and one of a third. -/
def mixed : Env :=
  { offline [entry (lit "a") (replicate 32 9), { entry (lit "b") key with lastSeen := 999000 },
      { entry (lit "c") (replicate 32 8) with lastSeen := 999000 }] with
    now := 1000000 * 1000000000 }

/-- The name resolves, and the server does not answer. -/
def silent (cached : List Peer) : Env := { offline cached with serverFound := true }

end Sample

open Trust.Sample (crypto key) in
open Sample in
/-- There is a usable entry of the pinned buddy, and the attempt ends: when the entry of another
buddy stands before it, and when the server resolves and does not answer. -/
theorem cached_partner_fails :
    reconnect.pin = some key ∧ PinsAgree reconnect key ∧
      decodePubKey (entry (lit "b") key).pubkey = some key ∧
      (NoPartner (offline shared) ∧ entry (lit "b") key ∈ (offline shared).cached ∧
        Usable (offline shared) (entry (lit "b") key) ∧
        (buddyRun crypto {} (node none) reconnect (offline shared) []).2 =
          .error (.trust .pinMismatch)) ∧
      NoPartner (silent [entry (lit "b") key]) ∧
      entry (lit "b") key ∈ (silent [entry (lit "b") key]).cached ∧
      Usable (silent [entry (lit "b") key]) (entry (lit "b") key) ∧
      (buddyRun crypto {} (node none) reconnect (silent [entry (lit "b") key]) []).2 =
        .error .register := by
  refine ⟨rfl, Or.inl rfl, by decide +kernel,
    ⟨Or.inl rfl, mem_cons_of_mem _ mem_cons_self,
    by decide +kernel, by decide +kernel⟩, Or.inr (Or.inl rfl), mem_cons_self,
    by decide +kernel, by decide +kernel⟩

open Trust.Sample (crypto key) in
open Sample in
theorem cached_partner_between :
    ∃ found, (findPartner crypto {} (node none) reconnect mixed []).2 = .ok found ∧
      found.partner = { entry (lit "b") key with lastSeen := 999000 } ∧
      found.cached = some { entry (lit "b") key with lastSeen := 999000 } := by
  have hstale : ∀ c ∈ [entry (lit "a") (replicate 32 9)], ¬ Usable mixed c := by
    decide +kernel
  exact (cached_partner_iff rfl rfl (Or.inl rfl) (by decide +kernel) (by decide +kernel) []).2
    ⟨Or.inl rfl, ⟨_, _, rfl, hstale⟩, Or.inl rfl⟩

end BuddyNet.Buddy
