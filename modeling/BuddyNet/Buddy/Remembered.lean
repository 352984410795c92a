import BuddyNet.Buddy.Connect
import BuddyNet.Trust.CommandSpecs

/-!
# What an attempt remembers

An attempt writes an entry of the peer cache or a session line only for a key that its data plane
has authenticated and that its pins or its trust policy have accepted, with the human check where
the policy demands one. `Vouched` is what the search for the partner establishes, `Proven` what a
write needs; each part of the attempt gets one lemma that says which of the two it provides.
-/

namespace BuddyNet.Buddy

open Handshake (Peer)
open Trust (Attempt Files TrustPolicy TrustError)
open Transaction

/-- The act writes something about the key to disk. -/
def Act.Writes (K : Bytes) : Act → Prop
  | .remembered p => decodePubKey p.pubkey = some K
  | .stored _ partnerKey _ => decodePubKey partnerKey = some K
  | _ => False

variable {cr : Crypto} {cfg : Config} {nd : Node} {att : Attempt} {env : Env} {log t : List Act}
  {K : Bytes} {needSAS : Bool}

/-- The key is what the pins of the attempt say. -/
def MatchesPins (att : Attempt) (K : Bytes) : Prop :=
  ∀ pin, att.pin = some pin → K = pin ∧ ∀ c, att.cfgPin = some c → K = c

/-- The pins accept the key, or the trust policy did. -/
structure Vouched (att : Attempt) (K : Bytes) (needSAS : Bool) (log : List Act) : Prop where
  pins : MatchesPins att K
  decided : att.pin = none → Act.decided K needSAS ∈ log

/-- What has to come before a write. -/
structure Proven (att : Attempt) (K : Bytes) (before : List Act) : Prop where
  opened : Act.opened K ∈ before
  pins : MatchesPins att K
  decided : att.pin = none → ∃ needSAS, Act.decided K needSAS ∈ before ∧
    (needSAS = true → Act.matched K ∈ before)

/-- Every write of an act is proven by the acts before it. -/
def Earned (att : Attempt) (before : List Act) (a : Act) : Prop :=
  ∀ K, a.Writes K → Proven att K before

theorem Vouched.mono (h : Vouched att K needSAS log) (ht : log <+: t) :
    Vouched att K needSAS t := ⟨h.pins, fun hpin => ht.subset (h.decided hpin)⟩

theorem Vouched.proven (h : Vouched att K needSAS log) (hopen : Act.opened K ∈ log)
    (hsas : needSAS = true → Act.matched K ∈ log) : Proven att K log :=
  ⟨hopen, h.pins, fun hpin => ⟨needSAS, h.decided hpin, hsas⟩⟩

theorem Proven.mono (h : Proven att K log) (ht : log <+: t) : Proven att K t where
  opened := ht.subset h.opened
  pins := h.pins
  decided := fun hpin => by
    obtain ⟨needSAS, hmem, hsas⟩ := h.decided hpin
    exact ⟨needSAS, ht.subset hmem, fun hn => ht.subset (hsas hn)⟩

/-! ### Small steps -/

section Steps

variable {α : Type} (hlog : Justified (Earned att) log)
include hlog

theorem require_keeps (c : Bool) (e : BuddyError) :
    Keeps (Earned att) (require c e) log fun _ _ => c = true := by
  cases c with
  | false => exact .throw hlog
  | true => exact .pure hlog rfl

theorem fromOption_keeps (o : Option α) (e : BuddyError) :
    Keeps (Earned att) (fromOption o e) log fun a _ => o = some a := by
  cases o with
  | none => exact .throw hlog
  | some a => exact .pure hlog rfl

theorem trusted_keeps (r : Except TrustError α) :
    Keeps (Earned att) (trusted r) log fun a _ => r = .ok a := by
  cases r with
  | error e => exact .throw hlog
  | ok a => exact .pure hlog rfl

theorem emit_keeps {a : Act} (ha : ∀ K, ¬a.Writes K) :
    Keeps (Earned att) (emit a : Run Unit) log fun _ t => a ∈ t :=
  .emit hlog (fun K hK => absurd hK (ha K)) (by simp)

end Steps

/-! ### Who the partner is -/

theorem enforcePins_spec (h : Trust.enforcePins att K = .ok ()) : MatchesPins att K := by
  obtain ⟨hpin, hcfg⟩ := Trust.enforcePins_eq_ok.1 h
  refine fun pin hsome => ⟨?_, fun c hc => ?_⟩
  · simpa [hsome, eq_comm] using hpin
  · simpa [hc, eq_comm] using hcfg

theorem readTrust_keeps (hlog : Justified (Earned att) log) :
    Keeps (Earned att) (readTrust nd env) log fun _ _ => True := by
  unfold readTrust
  split
  · exact (fromOption_keeps hlog _ _).mono fun _ _ _ => trivial
  · exact .pure hlog trivial

theorem judge_keeps (hlog : Justified (Earned att) log) (K : Bytes) :
    Keeps (Earned att) (judge cr nd att env K) log fun needSAS t => Vouched att K needSAS t := by
  unfold judge
  by_cases hpin : att.pin ≠ none
  · rw [if_pos hpin]
    refine (trusted_keeps hlog _).bind fun _ t ht _ hok => ?_
    exact .pure ht ⟨enforcePins_spec hok, fun hnone => absurd hnone hpin⟩
  · rw [if_neg hpin]
    have hnone : att.pin = none := not_not.1 hpin
    have hdecide : Keeps (Earned att) (decide cr nd att env K) log fun _ _ => True := by
      refine (readTrust_keeps hlog).bind fun files t ht _ _ => ?_
      exact (trusted_keeps ht _).mono fun _ _ _ => trivial
    refine hdecide.bind fun needSAS t ht _ _ => ?_
    refine (emit_keeps ht (by rintro _ ⟨⟩)).bind fun _ t' ht' _ hmem => ?_
    exact .pure ht' ⟨fun pin h => by simp [hnone] at h, fun _ => hmem⟩

/-- What the search for the partner establishes. -/
def Found.Ok (att : Attempt) (found : Found) (log : List Act) : Prop :=
  ∀ K, decodePubKey found.partner.pubkey = some K → Vouched att K found.needSAS log

section

variable (hlog : Justified (Earned att) log)
include hlog

theorem checkVouched_keeps (partner : Peer) :
    Keeps (Earned att) (checkVouched cr nd att env partner) log fun found t => found.Ok att t := by
  refine (fromOption_keeps hlog _ _).bind fun K t ht _ hK => ?_
  refine (require_keeps ht _ _).bind fun _ t ht _ _ => ?_
  refine (judge_keeps ht K).bind fun needSAS t ht _ hv => ?_
  refine Keeps.bind (Keeps.ofExcept (Q := fun _ _ => True) ht fun _ _ => trivial) ?_
  intro _ t' ht' hgrow _
  refine .pure ht' fun K' hK' => ?_
  obtain rfl : K = K' := Option.some.inj (hK.symm.trans hK')
  exact hv.mono hgrow

theorem findCached_keeps :
    Keeps (Earned att) (findCached cr nd att env) log fun found t => found.Ok att t := by
  refine (fromOption_keeps hlog _ _).bind fun c t ht _ _ => ?_
  refine (fromOption_keeps ht _ _).bind fun K t ht _ hK => ?_
  refine (judge_keeps ht K).bind fun needSAS t ht _ hv => ?_
  refine .pure ht fun K' hK' => ?_
  obtain rfl : K = K' := Option.some.inj (hK.symm.trans hK')
  exact hv

theorem findServer_keeps :
    Keeps (Earned att) (findServer cr nd att env) log fun found t => found.Ok att t := by
  unfold findServer
  split
  · refine (fromOption_keeps hlog _ _).bind fun partner t ht _ _ => ?_
    split
    · exact checkVouched_keeps ht partner
    · exact findCached_keeps ht
  · exact findCached_keeps hlog

end

/-! ### Direct mode -/

/-- An attempt of the single-peer loop. -/
def Single (cfg : Trust.Config) (att : Attempt) : Prop := ∃ f, Trust.nextAttempt cfg f = .ok att

theorem storedAttempt_cfgPin {cfg : Trust.Config} {pin : Option Bytes} {f : Files}
    (h : Trust.storedAttempt cfg pin f = .ok att) : att.cfgPin = pin := by
  unfold Trust.storedAttempt at h
  cases hload : Trust.loadSession f with
  | error e => simp [hload, bind, Except.bind] at h
  | ok session =>
    simp only [hload, bind, Except.bind] at h
    cases session with
    | none =>
      split_ifs at h
      cases h
      rfl
    | some session =>
      cases hrev : Trust.isRevoked f (pubKeyB64 session.pin) with
      | error e => simp [hrev] at h
      | ok revoked =>
        simp only [hrev] at h
        split_ifs at h
        cases h
        rfl

/-- An attempt of the single-peer loop carries `--peer-key`, and in direct mode it is its pin. -/
theorem Single.pins {cfg : Trust.Config} (h : Single cfg att) :
    Trust.cfgPin cfg = .ok att.cfgPin ∧
      (cfg.direct = true → att.pin = att.cfgPin ∧ att.pin ≠ none) := by
  obtain ⟨f, h⟩ := h
  unfold Trust.nextAttempt at h
  cases hpin : Trust.cfgPin cfg with
  | error e => simp [hpin, bind, Except.bind] at h
  | ok pin =>
    cases hrev : Trust.pinRevoked f pin with
    | error e => simp [hpin, hrev, bind, Except.bind] at h
    | ok revoked =>
      simp only [hpin, hrev, bind, Except.bind] at h
      cases revoked with
      | true => simp at h
      | false =>
        by_cases hdir : cfg.direct = true
        · rw [if_pos hdir] at h
          cases pin with
          | none => cases h
          | some pin =>
            cases h
            exact ⟨rfl, fun _ => ⟨rfl, by simp⟩⟩
        · rw [if_neg hdir] at h
          exact ⟨congrArg Except.ok (storedAttempt_cfgPin h).symm, fun hd => absurd hd hdir⟩

theorem directPartner_spec {partner : Peer} (h : directPartner cr cfg = .ok partner) :
    ∃ pub, Trust.cfgPin cfg.toConfig = .ok (some pub) ∧
      decodePubKey partner.pubkey = some pub := by
  unfold directPartner at h
  by_cases hkey : cfg.peerKey = []
  · rw [if_pos hkey] at h
    cases h
  · rw [if_neg hkey] at h
    cases hdec : decodePubKey cfg.peerKey with
    | none =>
      rw [hdec] at h
      cases h
    | some pub =>
      rw [hdec] at h
      cases h
      refine ⟨pub, ?_, decodePubKey_pubKeyB64 (decodePubKey_length hdec)⟩
      rw [Trust.cfgPin, if_neg hkey, hdec]

section

variable (hlog : Justified (Earned att) log)
include hlog

theorem findDirect_keeps (hdir : cfg.direct = true) (hatt : Single cfg.toConfig att) :
    Keeps (Earned att) (findDirect cr cfg nd) log fun found t => found.Ok att t := by
  obtain ⟨hcfg, hpins⟩ := hatt.pins
  obtain ⟨heq, hsome⟩ := hpins hdir
  refine (trusted_keeps hlog _).bind fun partner t ht _ hp => ?_
  refine (require_keeps ht _ _).bind fun _ t ht _ _ => ?_
  obtain ⟨pub, hpub, hdec⟩ := directPartner_spec hp
  have hpin : att.cfgPin = some pub := Except.ok.inj (hcfg.symm.trans hpub)
  refine .pure ht fun K hK => ⟨fun pin h => ?_, fun hnone => absurd hnone hsome⟩
  obtain rfl : pub = K := Option.some.inj (hdec.symm.trans hK)
  rw [heq, hpin] at h
  refine ⟨Option.some.inj h, fun c hc => ?_⟩
  rw [hpin] at hc
  exact Option.some.inj hc

theorem findPartner_keeps (hatt : cfg.direct = true → Single cfg.toConfig att) :
    Keeps (Earned att) (findPartner cr cfg nd att env) log fun found t => found.Ok att t := by
  unfold findPartner
  split
  · next hdir => exact findDirect_keeps hlog hdir (hatt hdir)
  · exact findServer_keeps hlog

/-! ### First contact and persistence -/

theorem confirm_keeps (K : Bytes) :
    Keeps (Earned att) (confirm cr nd att env K) log fun _ _ => True := by
  unfold confirm
  split
  · exact .pure hlog trivial
  · refine (fromOption_keeps hlog _ _).bind fun files t ht _ _ => ?_
    refine (trusted_keeps ht _).bind fun _ t ht _ _ => ?_
    exact (emit_keeps ht (by rintro _ ⟨⟩)).mono fun _ _ _ => trivial

theorem firstContact_keeps (partner : Peer) (K : Bytes) (ready : Bool) :
    Keeps (Earned att) (firstContact cr cfg nd att env partner K needSAS ready) log
      fun _ t => needSAS = true → Act.matched K ∈ t := by
  unfold firstContact
  dsimp only
  split
  · refine (require_keeps hlog _ _).bind fun _ t ht _ _ => ?_
    refine (require_keeps ht _ _).bind fun _ t ht _ _ => ?_
    refine (fromOption_keeps ht _ _).bind fun binding t ht _ _ => ?_
    split
    · next hshow =>
      refine .pure ht fun hneed => ?_
      simp [hneed] at hshow
    · refine Keeps.bind (Keeps.ofExcept (Q := fun _ _ => True) ht fun _ _ => trivial) ?_
      intro _ t ht _ _
      refine (emit_keeps ht (by rintro _ ⟨⟩)).bind fun _ t ht _ hmem => ?_
      refine Keeps.grown (confirm_keeps ht K) fun t' hgrow _ => ?_
      exact fun _ => hgrow.subset hmem
  · next hskip =>
    refine .pure hlog fun hneed => ?_
    simp [hneed] at hskip

theorem rememberPeer_keeps (partner : Peer)
    (hp : ∀ K, decodePubKey partner.pubkey = some K → Proven att K log) :
    Keeps (Earned att) (rememberPeer partner) log fun _ _ => True := by
  unfold rememberPeer
  split
  · exact .pure hlog trivial
  · exact .emit hlog hp trivial

theorem saveSession_keeps (partnerKey secret : Bytes)
    (hp : ∀ K, decodePubKey partnerKey = some K → Proven att K log) :
    Keeps (Earned att) (saveSession cr nd att env partnerKey secret) log fun _ _ => True := by
  refine (require_keeps hlog _ _).bind fun _ t ht hgrow _ => ?_
  refine (fromOption_keeps ht _ _).bind fun files t' ht' hgrow' _ => ?_
  refine (trusted_keeps ht' _).bind fun _ t'' ht'' hgrow'' _ => ?_
  exact .emit ht'' (fun K hK => (hp K hK).mono ((hgrow.trans hgrow').trans hgrow'')) trivial

/-- The last part of both data planes: remember the partner, then store the session. -/
theorem persist_keeps {y : Run Unit} (partner : Peer)
    (hp : ∀ K, decodePubKey partner.pubkey = some K → Proven att K log)
    (hy : ∀ t, Justified (Earned att) t →
      (∀ K, decodePubKey partner.pubkey = some K → Proven att K t) →
      Keeps (Earned att) y t fun _ _ => True) :
    Keeps (Earned att) (rememberPeer partner >>= fun _ => y) log fun _ _ => True :=
  (rememberPeer_keeps hlog partner hp).bind fun _ t ht hgrow _ =>
    hy t ht fun K hK => (hp K hK).mono hgrow

theorem runQUIC_keeps (found : Found) (hfound : found.Ok att log)
    (hK : decodePubKey found.partner.pubkey = some K) (paths : List Path) :
    Keeps (Earned att) (runQUIC cr cfg nd att env found K paths) log fun _ _ => True := by
  refine Keeps.bind (Keeps.ofExcept (Q := fun _ _ => True) hlog fun _ _ => trivial) ?_
  intro _ t₁ ht₁ hgrow₁ _
  refine (emit_keeps ht₁ (by rintro _ ⟨⟩)).bind fun _ t₂ ht₂ hgrow₂ hopen => ?_
  refine (firstContact_keeps ht₂ _ _ _).bind fun _ t₃ ht₃ hgrow₃ hsas => ?_
  refine persist_keeps ht₃ found.partner (fun K' hK' => ?_) fun t ht hp => ?_
  · obtain rfl : K = K' := Option.some.inj (hK.symm.trans hK')
    have hv := (hfound K hK).mono ((hgrow₁.trans hgrow₂).trans hgrow₃)
    exact hv.proven (hgrow₃.subset hopen) hsas
  · split
    · refine (fromOption_keeps ht _ _).bind fun ekm t' ht' hgrow _ => ?_
      exact saveSession_keeps ht' _ _ fun K hK => (hp K hK).mono hgrow
    · exact .pure ht trivial

theorem wgSecret_keeps : Keeps (Earned att) (wgSecret att env) log fun _ _ => True := by
  unfold wgSecret
  split
  · exact (fromOption_keeps hlog _ _).mono fun _ _ _ => trivial
  · exact .pure hlog trivial

theorem runWG_keeps (found : Found) (hfound : found.Ok att log)
    (hK : decodePubKey found.partner.pubkey = some K) (paths : List Path) :
    Keeps (Earned att) (runWG cr cfg nd att env found K paths) log fun _ _ => True := by
  refine (require_keeps hlog _ _).bind fun _ t₁ ht₁ hgrow₁ _ => ?_
  refine Keeps.bind (Keeps.ofExcept (Q := fun _ _ => True) ht₁ fun _ _ => trivial) ?_
  intro remote t₂ ht₂ hgrow₂ _
  refine (firstContact_keeps ht₂ _ _ _).bind fun _ t₃ ht₃ hgrow₃ hsas => ?_
  refine (wgSecret_keeps ht₃).bind fun secret t₄ ht₄ hgrow₄ _ => ?_
  refine (require_keeps ht₄ _ _).bind fun _ t₅ ht₅ hgrow₅ _ => ?_
  refine (require_keeps ht₅ _ _).bind fun _ t₆ ht₆ hgrow₆ _ => ?_
  refine (require_keeps ht₆ _ _).bind fun _ t₇ ht₇ hgrow₇ _ => ?_
  refine (emit_keeps ht₇ (by rintro _ ⟨⟩)).bind fun _ t₈ ht₈ hgrow₈ hopen => ?_
  have hlate : t₃ <+: t₈ :=
    ((((hgrow₄.trans hgrow₅).trans hgrow₆).trans hgrow₇).trans hgrow₈)
  refine persist_keeps ht₈ found.partner (fun K' hK' => ?_) fun t ht hp => ?_
  · obtain rfl : K = K' := Option.some.inj (hK.symm.trans hK')
    have hv := (hfound K hK).mono (((hgrow₁.trans hgrow₂).trans hgrow₃).trans hlate)
    exact hv.proven hopen fun hneed => hlate.subset (hsas hneed)
  · split
    · exact saveSession_keeps ht _ _ hp
    · exact .pure ht trivial

end

/-! ### The whole attempt -/

theorem buddyRun_keeps (hatt : cfg.direct = true → Single cfg.toConfig att) :
    Keeps (Earned att) (buddyRun cr cfg nd att env) [] fun _ _ => True := by
  refine (require_keeps justified_nil _ _).bind fun _ t ht _ _ => ?_
  refine (require_keeps ht _ _).bind fun _ t ht _ _ => ?_
  refine (findPartner_keeps ht hatt).bind fun found t ht _ hfound => ?_
  refine (fromOption_keeps ht _ _).bind fun K t' ht' hgrow hK => ?_
  refine (require_keeps ht' _ _).bind fun _ t'' ht'' hgrow' _ => ?_
  have hok : found.Ok att t'' := fun K hK => (hfound K hK).mono (hgrow.trans hgrow')
  split
  · exact runWG_keeps ht'' found hok hK _
  · exact runQUIC_keeps ht'' found hok hK _

/-- **Nothing is remembered before it is proven.** Before an act that writes something about `K`,
the data plane has completed a handshake with `K`; `K` is the pin of the attempt and the
`--peer-key` that the attempt carries, which is the configured one in the single-peer loop; and
without a pin the trust decision for `K` returned no error, and the human check it may have demanded
succeeded. -/
theorem remembered_is_proven (cr : Crypto) (cfg : Config) (nd : Node) (att : Attempt) (env : Env)
    (hatt : cfg.direct = true → Single cfg.toConfig att) (before after : List Act) (a : Act)
    (hlog : attemptLog cr cfg nd att env = before ++ a :: after) (K : Bytes) (ha : a.Writes K) :
    Act.opened K ∈ before ∧
      (∀ pin, att.pin = some pin → K = pin ∧ (∀ c, att.cfgPin = some c → K = c) ∧
        (Single cfg.toConfig att → ∀ c, Trust.cfgPin cfg.toConfig = .ok (some c) → K = c)) ∧
      (att.pin = none → ∃ needSAS, Act.decided K needSAS ∈ before ∧
        (needSAS = true → Act.matched K ∈ before)) := by
  have hp := (buddyRun_keeps hatt).justified before a after hlog K ha
  refine ⟨hp.opened, fun pin hpin => ?_, hp.decided⟩
  obtain ⟨heq, hcfg⟩ := hp.pins pin hpin
  refine ⟨heq, hcfg, fun hsingle c hc => hcfg c ?_⟩
  exact Except.ok.inj (hsingle.pins.1.symm.trans hc)

/-! ### Attempts -/

namespace Sample

open Trust.Sample (crypto key other)

/-- The roster entry of the buddy. -/
def partner : Peer where
  id := lit "buddy"
  pubkey := pubKeyB64 key
  virtualIP := []
  name := []
  candidates := [⟨lit "192.0.2.1:4000", false⟩]
  relay := []
  lastSeen := 0

/-- The server names the buddy and its data plane comes up. -/
def online : Env where
  register := some partner
  answers := fun _ => { punch := some ⟨[192, 0, 2, 1], 4000, []⟩, session := true }

/-- A node of two buddies whose operator pins the other one. -/
def pinned : Config := { peerKey := other }

/-- The session store of that node. -/
def twoBuddies : Files where
  knownPeers := some (Go.unlines
    [lit "a " ++ pubKeyB64 key ++ lit " secret", lit "b " ++ other ++ lit " secret"])
  revoked := none
  manifest := none

/-- The attempt of the worker for the first buddy. -/
def reconnect : Attempt := { rendezvous := lit "secret", pin := some key }

/-- An interactive node that pairs over an invite. -/
def inviting : Config := { token := lit "invite", ephemeral := true, interactive := true }

/-- The attempt of that node. -/
def invited : Attempt :=
  { rendezvous := lit "invite", inviteToken := lit "invite", firstPairing := true }

/-- The human confirms the buddy, and the session is stored. -/
def confirmed : Env :=
  { online with
    filesAtDecide := some ⟨none, none, none⟩
    filesAtConfirm := some ⟨none, none, none⟩
    filesAtSave := some ⟨none, none, none⟩
    sasBinding := some [1]
    promptSAS := fun _ => .ok ()
    secret := some [2] }

/-- The node itself. -/
def node (pin : Option Bytes) : Node := ⟨List.replicate 32 1, ⟨pin, false⟩, true⟩

end Sample

open Trust.Sample (crypto key other noYaml)

/-- `--peer-key` names one buddy, and the worker of another buddy does not enforce it. -/
theorem remembered_is_proven_fails :
    Trust.peerSource noYaml Sample.pinned.toConfig { pin := key } none 0 Sample.twoBuddies =
        .ok Sample.reconnect ∧
      Trust.cfgPin Sample.pinned.toConfig = .ok (some (List.replicate 32 9)) ∧
      attemptLog crypto Sample.pinned (Sample.node (some (List.replicate 32 9))) Sample.reconnect
        Sample.online = [.opened key, .remembered Sample.partner] ∧
      decodePubKey Sample.partner.pubkey = some key ∧ key ≠ List.replicate 32 9 := by
  decide +kernel

/-- A first pairing on the QUIC data plane, with the human check. -/
theorem remembered_is_proven_invite :
    ∃ needSAS, Act.decided key needSAS ∈ [.decided key true, .opened key, .matched key,
        .learned (lit "invite") key, .remembered Sample.partner] ∧
      (needSAS = true → Act.matched key ∈ [.decided key true, .opened key, .matched key,
        .learned (lit "invite") key, .remembered Sample.partner]) :=
  (remembered_is_proven crypto Sample.inviting (Sample.node none) Sample.invited Sample.confirmed
    (fun h => nomatch h)
    [.decided key true, .opened key, .matched key, .learned (lit "invite") key,
      .remembered Sample.partner] []
    (.stored (lit "invite") (pubKeyB64 key) (rawURLEncoding.encode [2]))
    (by decide +kernel) key (show decodePubKey (pubKeyB64 key) =
      some key by decide +kernel)).2.2 rfl

end BuddyNet.Buddy
