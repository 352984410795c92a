import BuddyNet.Buddy.Connect
import BuddyNet.Go.Sort
import BuddyNet.Library.Machine

/-!
# The channel binding over UDP

`RunBinding` and `runBindingOverConn`: the committing end sends the hash of its ephemeral key, the
other end answers with its key, the first one reveals, and both hash the keys and the shared secret.
The frames have no step numbers, and an end that waits sends its last frame again every 250 ms. So a
second copy of the commitment can reach the responder when it waits for the reveal, and is taken for
a wrong key.

* `binding_alarm_iff`: over a path that loses, repeats, delays and reorders frames there is no alarm
  exactly when the frame that reaches a responder waiting for the reveal is the reveal; and two ends
  that finish have the same binding.

The curve and the hash are parameters. The hash is collision free on texts of 32 bytes, the only
ones that are compared.
-/

namespace BuddyNet.Buddy.Binding

open List Machine

/-! ### The code -/

/-- `curve25519`: the product of a scalar and a point, or an error for a point of low order. -/
structure Curve where
  x25519 : (scalar point : Bytes) → Option Bytes
  basepoint : Bytes

/-- An ephemeral key pair. -/
structure KeyPair where
  priv : Bytes
  pub : Bytes

/-- Why the exchange fails. -/
inductive BindError where
  | send
  | timeout
  | badPeerKey
  | badCommitment
  | mismatch
  | curve
  deriving DecidableEq

/-- Where an end is in `RunBinding`. -/
inductive Phase where
  | fresh
  | awaitKey
  | awaitCommit
  | awaitReveal (commit : Bytes)
  | done (binding : Bytes)
  | failed (e : BindError)
  deriving DecidableEq

/-- An end, its last frame, and the frames it has written to the socket. -/
structure End where
  phase : Phase := .fresh
  lastSent : Option Bytes := none
  sent : List Bytes := []

def bindFramePrefix : Bytes := lit "BNBIND1"

/-- A message behind the tag. -/
def frame (payload : Bytes) : Bytes := bindFramePrefix ++ payload

def udpAddrEqual (a b : UDPAddr) : Bool := a.port == b.port && Go.ipEqual a.ip b.ip

/-- What `recv` takes from a datagram: only frames of the remote end, without the tag. -/
def accept (remote src : UDPAddr) (datagram : Bytes) : Option Bytes :=
  let buf := datagram.take 1500
  if udpAddrEqual src remote ∧ bindFramePrefix.isPrefixOf buf then
    some (buf.drop bindFramePrefix.length)
  else none

section Code

variable (cr : Crypto) (cv : Curve)

/-- The hash over the sorted keys and the shared secret. -/
def binding (ePub peerPub shared : Bytes) : Bytes :=
  let (lo, hi) := sortedKeys ePub peerPub
  cr.sha256 (lit "buddynet-bind-v1" ++ lo ++ hi ++ shared)

/-- The end of `RunBinding`. -/
def finish (k : KeyPair) (peerPub : Bytes) : Phase :=
  match cv.x25519 k.priv peerPub with
  | none => .failed .curve
  | some shared => .done (binding cr k.pub peerPub shared)

/-- `send`, and what comes after it; a write that fails ends the exchange. -/
def End.send (e : End) (ok : Bool) (payload : Bytes) (next : Phase) : End :=
  if ok then ⟨next, some (frame payload), e.sent ++ [frame payload]⟩
  else { e with phase := .failed .send, lastSent := some (frame payload) }

/-- `RunBinding` up to the first `recv`. -/
def End.start (committer : Bool) (k : KeyPair) (ok : Bool) (e : End) : End :=
  match e.phase with
  | .fresh => if committer then e.send ok (cr.sha256 k.pub) .awaitKey
    else { e with phase := .awaitCommit }
  | _ => e

/-- `RunBinding` after a `recv`. -/
def End.receive (k : KeyPair) (ok : Bool) (e : End) (payload : Bytes) : End :=
  match e.phase with
  | .awaitKey =>
    if payload.length ≠ 32 then { e with phase := .failed .badPeerKey }
    else e.send ok k.pub (finish cr cv k payload)
  | .awaitCommit =>
    if payload.length ≠ 32 then { e with phase := .failed .badCommitment }
    else e.send ok k.pub (.awaitReveal payload)
  | .awaitReveal commit =>
    if payload.length ≠ 32 then { e with phase := .failed .badPeerKey }
    else if cr.sha256 payload ≠ commit then { e with phase := .failed .mismatch }
    else { e with phase := finish cr cv k payload }
  | _ => e

/-- The end waits in `recv`. -/
def Phase.waiting : Phase → Bool
  | .awaitKey => true
  | .awaitCommit => true
  | .awaitReveal _ => true
  | _ => false

/-- What happens to an end. -/
inductive Input where
  | start (ok : Bool)
  /-- A datagram arrives; `ok` is the outcome of the write that may follow. -/
  | arrive (src : UDPAddr) (datagram : Bytes) (ok : Bool)
  /-- Nothing arrived for 250 ms. -/
  | tick
  /-- The deadline has passed. -/
  | expire

/-- A step of an end. -/
def End.step (committer : Bool) (k : KeyPair) (remote : UDPAddr) (e : End) : Input → End
  | .start ok => e.start cr committer k ok
  | .arrive src datagram ok =>
    match accept remote src datagram with
    | some payload => e.receive cr cv k ok payload
    | none => e
  | .tick =>
    match e.lastSent with
    | some f => if e.phase.waiting then { e with sent := e.sent ++ [f] } else e
    | none => e
  | .expire => if e.phase.waiting then { e with phase := .failed .timeout } else e

end Code

/-- The two ends. -/
structure State where
  committer : End := {}
  responder : End := {}

/-- The keys and the addresses of the two ends. -/
structure Setup where
  cr : Crypto
  cv : Curve
  committer : KeyPair
  responder : KeyPair
  committerAddr : UDPAddr
  responderAddr : UDPAddr

/-- Something happens to one of the ends. -/
inductive Event where
  | committer (i : Input)
  | responder (i : Input)

/-- A step of one of the ends. -/
def Setup.step (u : Setup) (s : State) : Event → State
  | .committer i =>
    { s with committer := s.committer.step u.cr u.cv true u.committer u.responderAddr i }
  | .responder i =>
    { s with responder := s.responder.step u.cr u.cv false u.responder u.committerAddr i }

/-! ### The path -/

/-- A datagram that `recv` takes for a frame was sent by the other end. -/
def Input.Genuine (remote : UDPAddr) (sent : List Bytes) : Input → Prop
  | .arrive src datagram _ => ∀ p, accept remote src datagram = some p → datagram ∈ sent
  | _ => True

/-- The path forges nothing. -/
def Setup.Genuine (u : Setup) (s : State) : Event → Prop
  | .committer i => i.Genuine u.responderAddr s.responder.sent
  | .responder i => i.Genuine u.committerAddr s.committer.sent

/-- A frame that reaches the responder while it waits for the reveal is the reveal. -/
def Setup.Timely (u : Setup) (s : State) : Event → Prop
  | .responder (.arrive src datagram _) => ∀ commit p, s.responder.phase = .awaitReveal commit →
      accept u.committerAddr src datagram = some p → p = u.committer.pub
  | _ => True

/-- No end has failed with a mismatch or for a malformed key or commitment. -/
def State.Quiet (s : State) : Prop :=
  ∀ e ∈ [s.committer, s.responder], e.phase ≠ .failed .mismatch ∧ e.phase ≠ .failed .badPeerKey ∧
    e.phase ≠ .failed .badCommitment

/-- What is assumed of the hash, the curve and the keys. -/
structure Setup.Lawful (u : Setup) : Prop where
  sha256_length : ∀ s, (u.cr.sha256 s).length = 32
  collision_free : ∀ a b : Bytes, a.length = 32 → b.length = 32 →
    u.cr.sha256 a = u.cr.sha256 b → a = b
  commutes : ∀ a b A B, u.cv.x25519 a u.cv.basepoint = some A →
    u.cv.x25519 b u.cv.basepoint = some B → u.cv.x25519 a B = u.cv.x25519 b A
  committer_key : u.cv.x25519 u.committer.priv u.cv.basepoint = some u.committer.pub
  responder_key : u.cv.x25519 u.responder.priv u.cv.basepoint = some u.responder.pub
  committer_length : u.committer.pub.length = 32
  responder_length : u.responder.pub.length = 32

/-! ### Frames and keys -/

variable {remote : UDPAddr}

theorem accept_frame {src : UDPAddr} {payload p : Bytes} (hlen : payload.length = 32)
    (h : accept remote src (frame payload) = some p) : p = payload := by
  have htake : (frame payload).take 1500 = frame payload := by
    refine take_of_length_le ?_
    have htag : bindFramePrefix.length = 7 := by decide
    rw [frame, length_append, htag, hlen]
    omega
  unfold accept at h
  rw [htake] at h
  dsimp only at h
  split_ifs at h
  cases h
  exact drop_left

theorem sortedKeys_comm (a b : Bytes) : sortedKeys a b = sortedKeys b a := by
  unfold sortedKeys
  by_cases hab : a = b
  · rw [hab]
  · rw [Go.strLt_of_ne hab]
    cases Go.strLt a b <;> rfl

variable {u : Setup}

/-- The commitment. -/
def Setup.commit (u : Setup) : Bytes := u.cr.sha256 u.committer.pub

/-- How the committing end finishes. -/
def Setup.ended (u : Setup) : Phase := finish u.cr u.cv u.committer u.responder.pub

/-- **Both ends finish in the same way** when each has the key of the other. -/
theorem Setup.Lawful.finish_responder (h : u.Lawful) :
    finish u.cr u.cv u.responder u.committer.pub = u.ended := by
  have hshared : u.cv.x25519 u.responder.priv u.committer.pub =
      u.cv.x25519 u.committer.priv u.responder.pub :=
    h.commutes _ _ _ _ h.responder_key h.committer_key
  unfold Setup.ended finish
  rw [hshared]
  cases u.cv.x25519 u.committer.priv u.responder.pub with
  | none => rfl
  | some shared =>
    dsimp only [binding]
    rw [sortedKeys_comm]

theorem Setup.Lawful.ended_done (h : u.Lawful) {b : Bytes} (hb : u.ended = .done b) :
    b.length = 32 := by
  unfold Setup.ended finish at hb
  split at hb
  · cases hb
  · cases hb
    exact h.sha256_length _

/-- How an end is over without an alarm. -/
def Setup.Ends (u : Setup) (p : Phase) : Prop :=
  p = u.ended ∨ p = .failed .send ∨ p = .failed .timeout

section

variable {p : Phase} (h : u.Ends p)
include h

theorem Setup.Ends.not_waiting : p.waiting = false := by
  rcases h with rfl | rfl | rfl
  · unfold Setup.ended finish
    split <;> rfl
  · rfl
  · rfl

theorem Setup.Ends.quiet : p ≠ .failed .mismatch ∧ p ≠ .failed .badPeerKey ∧
    p ≠ .failed .badCommitment := by
  rcases h with rfl | rfl | rfl
  · unfold Setup.ended finish
    split <;> simp
  · simp
  · simp

theorem Setup.Ends.done {b : Bytes} (hb : p = .done b) : u.ended = .done b := by
  rcases h with rfl | rfl | rfl
  · exact hb
  · cases hb
  · cases hb

end

theorem receive_of_not_waiting {e : End} (h : e.phase.waiting = false) (cr : Crypto) (cv : Curve)
    (k : KeyPair) (ok : Bool) (payload : Bytes) : e.receive cr cv k ok payload = e := by
  unfold End.receive
  split
  · next hw => rw [hw] at h; cases h
  · next hw => rw [hw] at h; cases h
  · next hw => rw [hw] at h; cases h
  · rfl

/-! ### The committing end -/

/-- Where the committing end can be, and what it has sent; the reveal only after the other end has
sent its key. -/
structure Committing (u : Setup) (heard : Prop) (e : End) : Prop where
  phase : e.phase = .fresh ∨ e.phase = .awaitKey ∨ u.Ends e.phase
  last : e.phase = .awaitKey → e.lastSent = some (frame u.commit)
  sent : ∀ d ∈ e.sent, d = frame u.commit ∨ d = frame u.committer.pub ∧ heard

variable {heard : Prop} {e : End}

section

variable (h : Committing u heard e)
include h

theorem Committing.stop {p : Phase} (hp : u.Ends p) (last : Option Bytes) :
    Committing u heard { e with phase := p, lastSent := last } := by
  refine ⟨Or.inr (Or.inr hp), fun hwait => ?_, h.sent⟩
  have hnot := hp.not_waiting
  change p = .awaitKey at hwait
  rw [hwait] at hnot
  cases hnot

theorem Committing.awaits (hw : e.phase.waiting = true) : e.phase = .awaitKey := by
  rcases h.phase with hph | hph | hends
  · rw [hph] at hw
    cases hw
  · exact hph
  · rw [hends.not_waiting] at hw
    cases hw

theorem Committing.send {payload : Bytes} {next : Phase} (ok : Bool)
    (hframe : frame payload = frame u.commit ∨ frame payload = frame u.committer.pub ∧ heard)
    (hnext : next = .awaitKey ∧ payload = u.commit ∨ next = u.ended) :
    Committing u heard (e.send ok payload next) := by
  cases ok with
  | false => exact h.stop (Or.inr (Or.inl rfl)) _
  | true =>
    refine ⟨?_, fun hwait => ?_, fun d hd => ?_⟩
    · exact Or.inr (hnext.imp And.left Or.inl)
    · change next = .awaitKey at hwait
      rcases hnext with ⟨-, rfl⟩ | rfl
      · rfl
      · have hnot := Setup.Ends.not_waiting (Or.inl rfl : u.Ends u.ended)
        rw [hwait] at hnot
        cases hnot
    · rcases mem_append.1 hd with hold | hnew
      · exact h.sent d hold
      · rw [mem_singleton.1 hnew]
        exact hframe

end

theorem Committing.step (hu : u.Lawful) (h : Committing u heard e) {i : Input}
    (hi : ∀ src datagram ok p, i = .arrive src datagram ok → accept remote src datagram = some p →
      p = u.responder.pub ∧ heard) :
    Committing u heard (e.step u.cr u.cv true u.committer remote i) := by
  cases i with
  | start ok =>
    simp only [End.step, End.start]
    split
    · rw [if_pos trivial]
      exact h.send ok (Or.inl rfl) (Or.inl ⟨rfl, rfl⟩)
    · exact h
  | arrive src datagram ok =>
    simp only [End.step]
    split
    · next p hp =>
      obtain ⟨rfl, hheard⟩ := hi src datagram ok p rfl hp
      cases hw : e.phase.waiting with
      | false =>
        rw [receive_of_not_waiting hw]
        exact h
      | true =>
        unfold End.receive
        rw [h.awaits hw]
        rw [if_neg (not_not.2 hu.responder_length)]
        exact h.send ok (Or.inr ⟨rfl, hheard⟩) (Or.inr rfl)
    · exact h
  | tick =>
    simp only [End.step]
    split
    · next f hf =>
      split_ifs with hw
      · -- the frame that is sent again is the commitment
        refine ⟨h.phase, h.last, fun d hd => ?_⟩
        rcases mem_append.1 hd with hold | hnew
        · exact h.sent d hold
        · rw [mem_singleton.1 hnew]
          exact Or.inl (Option.some.inj (hf.symm.trans (h.last (h.awaits hw))))
      · exact h
    · exact h
  | expire =>
    simp only [End.step]
    split_ifs
    · exact h.stop (Or.inr (Or.inr rfl)) _
    · exact h

/-! ### The responding end -/

/-- Where the responding end can be, and what it has sent: nothing before the commitment, and only
its key after it. -/
structure Responding (u : Setup) (e : End) : Prop where
  phase : e.phase = .fresh ∨ e.phase = .awaitCommit ∨ e.phase = .awaitReveal u.commit ∨
    e.phase = .failed .mismatch ∨ u.Ends e.phase
  last : ∀ f ∈ e.lastSent, f = frame u.responder.pub
  sent : ∀ d ∈ e.sent, d = frame u.responder.pub
  early : e.phase = .fresh ∨ e.phase = .awaitCommit → e.sent = [] ∧ e.lastSent = none

theorem Responding.stop (h : Responding u e) {p : Phase}
    (hp : p = .failed .mismatch ∨ u.Ends p) {last : Option Bytes}
    (hlast : ∀ f ∈ last, f = frame u.responder.pub) :
    Responding u { e with phase := p, lastSent := last } := by
  refine ⟨Or.inr (Or.inr (Or.inr hp)), hlast, h.sent, fun hwait => ?_⟩
  change p = .fresh ∨ p = .awaitCommit at hwait
  rcases hp with rfl | rfl | rfl | rfl
  · simp at hwait
  · unfold Setup.ended finish at hwait
    split at hwait <;> simp at hwait
  · simp at hwait
  · simp at hwait

theorem Responding.awaits (h : Responding u e) (hw : e.phase.waiting = true) :
    e.phase = .awaitCommit ∨ e.phase = .awaitReveal u.commit := by
  rcases h.phase with hph | hph | hph | hph | hends
  · rw [hph] at hw
    cases hw
  · exact Or.inl hph
  · exact Or.inr hph
  · rw [hph] at hw
    cases hw
  · rw [hends.not_waiting] at hw
    cases hw

theorem Setup.Lawful.commit_length (hu : u.Lawful) : u.commit.length = 32 := hu.sha256_length _

/-- The commitment is not the hash of itself, unless it is the key. -/
theorem Setup.Lawful.sha256_commit (hu : u.Lawful) (h : u.cr.sha256 u.commit = u.commit) :
    u.commit = u.committer.pub :=
  hu.collision_free _ _ hu.commit_length hu.committer_length h

/-- The first frame is the commitment, which the key answers. -/
theorem Responding.commitment (hu : u.Lawful) (h : Responding u e) (hph : e.phase = .awaitCommit)
    (ok : Bool) :
    Responding u (e.receive u.cr u.cv u.responder ok u.commit) ∧
      (e.receive u.cr u.cv u.responder ok u.commit).phase ≠ .failed .mismatch := by
  have hreceive : e.receive u.cr u.cv u.responder ok u.commit =
      e.send ok u.responder.pub (.awaitReveal u.commit) := by
    unfold End.receive
    rw [hph]
    dsimp only
    rw [if_neg (not_not.2 hu.commit_length)]
  rw [hreceive]
  cases ok with
  | false =>
    refine ⟨h.stop (Or.inr (Or.inr (Or.inl rfl))) ?_, by rintro ⟨⟩⟩
    rintro f ⟨⟩
    rfl
  | true =>
    refine ⟨⟨Or.inr (Or.inr (Or.inl rfl)), ?_, fun d hd => ?_, ?_⟩, by rintro ⟨⟩⟩
    · rintro f ⟨⟩
      rfl
    · rcases mem_append.1 hd with hold | hnew
      · exact h.sent d hold
      · exact mem_singleton.1 hnew
    · rintro (hearly | hearly) <;> cases hearly

/-- The second one is the reveal, or the commitment once more. -/
theorem Responding.reveal (hu : u.Lawful) (h : Responding u e)
    (hph : e.phase = .awaitReveal u.commit) {p : Bytes} (hp : p = u.commit ∨ p = u.committer.pub)
    (ok : Bool) :
    Responding u (e.receive u.cr u.cv u.responder ok p) ∧
      ((e.receive u.cr u.cv u.responder ok p).phase ≠ .failed .mismatch ↔ p = u.committer.pub) := by
  have hlen : p.length = 32 := by
    rcases hp with rfl | rfl
    · exact hu.commit_length
    · exact hu.committer_length
  have hreceive : e.receive u.cr u.cv u.responder ok p =
      if u.cr.sha256 p ≠ u.commit then { e with phase := .failed .mismatch }
      else { e with phase := finish u.cr u.cv u.responder p } := by
    unfold End.receive
    rw [hph]
    dsimp only
    rw [if_neg (not_not.2 hlen)]
  rw [hreceive]
  by_cases hkey : p = u.committer.pub
  · have hmatch : u.cr.sha256 p = u.commit := congrArg u.cr.sha256 hkey
    rw [if_neg (not_not.2 hmatch), hkey, hu.finish_responder]
    have hends : u.Ends u.ended := Or.inl rfl
    exact ⟨h.stop (Or.inr hends) h.last, iff_of_true hends.quiet.1 rfl⟩
  · have hmismatch : u.cr.sha256 p ≠ u.commit := by
      obtain rfl := hp.resolve_right hkey
      exact fun hsame => hkey (hu.sha256_commit hsame)
    rw [if_pos hmismatch]
    exact ⟨h.stop (Or.inl rfl) h.last, iff_of_false (absurd rfl) hkey⟩

theorem receive_responding (hu : u.Lawful) (h : Responding u e) {p : Bytes}
    (hp : p = u.commit ∨ p = u.committer.pub ∧ e.sent ≠ []) (ok : Bool) :
    Responding u (e.receive u.cr u.cv u.responder ok p) ∧
      (e.phase ≠ .failed .mismatch →
        ((e.receive u.cr u.cv u.responder ok p).phase ≠ .failed .mismatch ↔
          ∀ commit, e.phase = .awaitReveal commit → p = u.committer.pub)) := by
  cases hw : e.phase.waiting with
  | false =>
    rw [receive_of_not_waiting hw]
    refine ⟨h, fun hne => iff_of_true hne fun commit hreveal => ?_⟩
    rw [hreveal] at hw
    cases hw
  | true =>
    rcases h.awaits hw with hph | hph
    · obtain rfl : p = u.commit := hp.resolve_right fun hp => hp.2 (h.early (Or.inr hph)).1
      obtain ⟨hresp, hne⟩ := h.commitment hu hph ok
      refine ⟨hresp, fun _ => iff_of_true hne fun commit hreveal => ?_⟩
      rw [hph] at hreveal
      cases hreveal
    · obtain ⟨hresp, hiff⟩ := h.reveal hu hph (hp.imp_right And.left) ok
      exact ⟨hresp, fun _ => hiff.trans ⟨fun hkey _ _ => hkey, fun hall => hall _ hph⟩⟩

/-- **A step of the responder**: it raises an alarm exactly when something else than the reveal
reaches it while it waits for the reveal. -/
theorem Responding.step (hu : u.Lawful) (h : Responding u e) {i : Input}
    (hi : ∀ src datagram ok p, i = .arrive src datagram ok → accept remote src datagram = some p →
      p = u.commit ∨ p = u.committer.pub ∧ e.sent ≠ []) :
    Responding u (e.step u.cr u.cv false u.responder remote i) ∧
      (e.phase ≠ .failed .mismatch →
        ((e.step u.cr u.cv false u.responder remote i).phase ≠ .failed .mismatch ↔
          ∀ src datagram ok commit p, i = .arrive src datagram ok →
            e.phase = .awaitReveal commit → accept remote src datagram = some p →
              p = u.committer.pub)) := by
  cases i with
  | start ok =>
    simp only [End.step, End.start]
    split
    · next hph =>
      obtain ⟨hsent, hlast⟩ := h.early (Or.inl hph)
      exact ⟨⟨Or.inr (Or.inl rfl), h.last, h.sent, fun _ => ⟨hsent, hlast⟩⟩,
        fun _ => iff_of_true (by rintro ⟨⟩) (by rintro _ _ _ _ _ ⟨⟩)⟩
    · exact ⟨h, fun hne => iff_of_true hne (by rintro _ _ _ _ _ ⟨⟩)⟩
  | arrive src datagram ok =>
    simp only [End.step]
    split
    · next p hp =>
      obtain ⟨hresp, hiff⟩ := receive_responding hu h (hi src datagram ok p rfl hp) ok
      refine ⟨hresp, fun hne => (hiff hne).trans ⟨?_, ?_⟩⟩
      · rintro hall _ _ _ commit p' ⟨⟩ hph hp'
        cases hp.symm.trans hp'
        exact hall commit hph
      · intro hall commit hph
        exact hall src datagram ok commit p rfl hph hp
    · next hnone =>
      refine ⟨h, fun hne => iff_of_true hne ?_⟩
      rintro _ _ _ _ p ⟨⟩ - hp
      rw [hnone] at hp
      cases hp
  | tick =>
    refine ⟨?_, fun hne => ?_⟩
    · simp only [End.step]
      split
      · next f hf =>
        split_ifs with hw
        · refine ⟨h.phase, h.last, fun d hd => ?_, fun hearly => ?_⟩
          · rcases mem_append.1 hd with hold | hnew
            · exact h.sent d hold
            · rw [mem_singleton.1 hnew]
              exact h.last f hf
          · rw [(h.early hearly).2] at hf
            cases hf
        · exact h
      · exact h
    · refine iff_of_true ?_ (by rintro _ _ _ _ _ ⟨⟩)
      simp only [End.step]
      split
      · split_ifs <;> exact hne
      · exact hne
  | expire =>
    simp only [End.step]
    split_ifs
    · exact ⟨h.stop (Or.inr (Or.inr (Or.inr rfl))) h.last,
        fun _ => iff_of_true (by rintro ⟨⟩) (by rintro _ _ _ _ _ ⟨⟩)⟩
    · exact ⟨h, fun hne => iff_of_true hne (by rintro _ _ _ _ _ ⟨⟩)⟩

/-! ### Both ends -/

theorem sent_step (cr : Crypto) (cv : Curve) (committer : Bool) (k : KeyPair) (remote : UDPAddr)
    (e : End) (i : Input) : e.sent <+: (e.step cr cv committer k remote i).sent := by
  have hsend : ∀ ok payload next, e.sent <+: (e.send ok payload next).sent := by
    intro ok payload next
    cases ok with
    | true => exact prefix_append _ _
    | false => exact prefix_refl _
  cases i with
  | start ok =>
    simp only [End.step, End.start]
    split
    · split_ifs
      · exact hsend ok _ _
      · exact prefix_refl _
    · exact prefix_refl _
  | arrive src datagram ok =>
    simp only [End.step]
    split
    · unfold End.receive
      split
      · split_ifs
        · exact prefix_refl _
        · exact hsend ok _ _
      · split_ifs
        · exact prefix_refl _
        · exact hsend ok _ _
      · split_ifs <;> exact prefix_refl _
      · exact prefix_refl _
    · exact prefix_refl _
  | tick =>
    simp only [End.step]
    split
    · split_ifs
      · exact prefix_append _ _
      · exact prefix_refl _
    · exact prefix_refl _
  | expire =>
    simp only [End.step]
    split_ifs <;> exact prefix_refl _

/-- What holds in every state that a genuine path leads to. -/
structure Sound (u : Setup) (s : State) : Prop where
  committer : Committing u (s.responder.sent ≠ []) s.committer
  responder : Responding u s.responder

theorem sound_start (u : Setup) : Sound u {} := by
  refine ⟨⟨Or.inl rfl, ?_, forall_mem_nil _⟩, ⟨Or.inl rfl, ?_, forall_mem_nil _, ?_⟩⟩
  · rintro ⟨⟩
  · rintro f ⟨⟩
  · exact fun _ => ⟨rfl, rfl⟩

variable {s : State}

theorem Sound.to_committer (hu : u.Lawful) (h : Sound u s) {i : Input}
    (hi : i.Genuine remote s.responder.sent) :
    ∀ src datagram ok p, i = .arrive src datagram ok → accept remote src datagram = some p →
      p = u.responder.pub ∧ s.responder.sent ≠ [] := by
  rintro src datagram ok p rfl hp
  have hmem := hi p hp
  rw [h.responder.sent _ hmem] at hp
  exact ⟨accept_frame hu.responder_length hp, ne_nil_of_mem hmem⟩

theorem Sound.to_responder (hu : u.Lawful) (h : Sound u s) {i : Input}
    (hi : i.Genuine remote s.committer.sent) :
    ∀ src datagram ok p, i = .arrive src datagram ok → accept remote src datagram = some p →
      p = u.commit ∨ p = u.committer.pub ∧ s.responder.sent ≠ [] := by
  rintro src datagram ok p rfl hp
  rcases h.committer.sent _ (hi p hp) with rfl | ⟨rfl, hheard⟩
  · exact Or.inl (accept_frame hu.commit_length hp)
  · exact Or.inr ⟨accept_frame hu.committer_length hp, hheard⟩

theorem Sound.step (hu : u.Lawful) (h : Sound u s) {e : Event} (he : u.Genuine s e) :
    Sound u (u.step s e) := by
  cases e with
  | committer i => exact ⟨h.committer.step hu (h.to_committer hu he), h.responder⟩
  | responder i =>
    refine ⟨⟨h.committer.phase, h.committer.last, fun d hd => ?_⟩,
      (h.responder.step hu (h.to_responder hu he)).1⟩
    refine (h.committer.sent d hd).imp_right fun hd => ⟨hd.1, fun hnil => hd.2 ?_⟩
    have hpre := sent_step u.cr u.cv false u.responder u.committerAddr s.responder i
    change (s.responder.step u.cr u.cv false u.responder u.committerAddr i).sent = [] at hnil
    rw [hnil] at hpre
    exact prefix_nil.1 hpre

/-- The only alarm there can be is the responder's. -/
theorem Sound.quiet_iff (h : Sound u s) : s.Quiet ↔ s.responder.phase ≠ .failed .mismatch := by
  constructor
  · exact fun hq => (hq _ (mem_cons_of_mem _ mem_cons_self)).1
  · intro hne e he
    rcases mem_pair.1 he with rfl | rfl
    · rcases h.committer.phase with hph | hph | hends
      · simp [hph]
      · simp [hph]
      · exact hends.quiet
    · rcases h.responder.phase with hph | hph | hph | hph | hends
      · simp [hph]
      · simp [hph]
      · simp [hph]
      · exact absurd hph hne
      · exact hends.quiet

theorem quiet_step (hu : u.Lawful) (h : Sound u s) (hq : s.Quiet) {e : Event}
    (he : u.Genuine s e) : (u.step s e).Quiet ↔ u.Timely s e := by
  rw [(h.step hu he).quiet_iff]
  have hne := h.quiet_iff.1 hq
  cases e with
  | committer i => exact iff_of_true hne trivial
  | responder i =>
    refine ((h.responder.step hu (h.to_responder hu he)).2 hne).trans ?_
    cases i with
    | arrive src datagram ok =>
      constructor
      · intro hall commit p hph hp
        exact hall src datagram ok commit p rfl hph hp
      · rintro hall _ _ _ commit p ⟨⟩ hph hp
        exact hall commit p hph hp
    | start ok | tick | expire => exact iff_of_true (by rintro _ _ _ _ _ ⟨⟩) trivial

/-- **False alarms and agreement.** Over a path that loses, repeats, delays and reorders frames and
forges none, no end fails with a mismatch or for a malformed key exactly when every frame that
reaches the responder while it waits for the reveal is the reveal. In any case two ends that finish
have the same binding of 32 bytes. -/
theorem binding_alarm_iff (hu : u.Lawful) {es : List Event}
    (hpath : Along u.step u.Genuine {} es) :
    (Along u.step u.Timely {} es ↔ Throughout u.step State.Quiet {} es) ∧
    ∀ b b', (run u.step {} es).committer.phase = .done b →
      (run u.step {} es).responder.phase = .done b' → b = b' ∧ b.length = 32 := by
  have hquiet : State.Quiet {} := by
    intro e he
    rcases mem_pair.1 he with rfl | rfl <;> simp
  refine ⟨along_iff_throughout_of (I := Sound u) (P := State.Quiet)
    (fun s e h he => h.step hu he) (fun s e h hq he => quiet_step hu h hq he) (sound_start u) hquiet
    hpath, ?_⟩
  intro b b' hb hb'
  have hsound : Sound u (run u.step {} es) :=
    invariant_along (fun s e h he => h.step hu he) (sound_start u) hpath
  have hended : u.ended = .done b := by
    rcases hsound.committer.phase with hph | hph | hends
    · cases hph.symm.trans hb
    · cases hph.symm.trans hb
    · exact hends.done hb
  have hended' : u.ended = .done b' := by
    rcases hsound.responder.phase with hph | hph | hph | hph | hends
    · cases hph.symm.trans hb'
    · cases hph.symm.trans hb'
    · cases hph.symm.trans hb'
    · cases hph.symm.trans hb'
    · exact hends.done hb'
  have hsame := hended.symm.trans hended'
  exact ⟨by injection hsame, hu.ended_done hended⟩

namespace Sample

/-- A toy hash, with no collisions among texts of 32 bytes. -/
def sha256 (s : Bytes) : Bytes := if s.length = 32 then s.map (· + 1) else replicate 32 0

/-- A toy curve: the sum of the first bytes. -/
def curve : Curve where
  x25519 scalar point := some (replicate 32 (scalar.headD 0 + point.headD 0))
  basepoint := replicate 32 0

/-- Two ends with toy keys. -/
def setup : Setup where
  cr := ⟨fun _ m => m, fun _ _ _ => false, fun _ m => m, sha256⟩
  cv := curve
  committer := ⟨[1], replicate 32 1⟩
  responder := ⟨[2], replicate 32 2⟩
  committerAddr := ⟨[10, 0, 0, 1], 1000, []⟩
  responderAddr := ⟨[10, 0, 0, 2], 2000, []⟩

theorem setup_lawful : setup.Lawful where
  sha256_length s := by
    change (sha256 s).length = 32
    unfold sha256
    split_ifs with hlen
    · rw [length_map, hlen]
    · exact length_replicate
  collision_free a b ha hb hab := by
    change sha256 a = sha256 b at hab
    unfold sha256 at hab
    rw [if_pos ha, if_pos hb] at hab
    exact map_injective_iff.2 (fun x y h => (UInt8.add_left_inj 1).1 h) hab
  commutes a b A B hA hB := by
    cases hA
    cases hB
    change some _ = some _
    congr 2
    change a.headD 0 + (b.headD 0 + 0) = b.headD 0 + (a.headD 0 + 0)
    rw [UInt8.add_zero, UInt8.add_zero, UInt8.add_comm]
  committer_key := rfl
  responder_key := rfl
  committer_length := rfl
  responder_length := rfl

/-- A frame of the committing end reaches the responder. -/
def toResponder (payload : Bytes) : Event :=
  .responder (.arrive setup.committerAddr (frame payload) true)

/-- A frame of the responder reaches the committing end. -/
def toCommitter (payload : Bytes) : Event :=
  .committer (.arrive setup.responderAddr (frame payload) true)

/-- The commitment is on its way, and the responder has answered it. -/
def answered : List Event :=
  [.committer (.start true), .responder (.start true), toResponder setup.commit]

theorem answered_genuine : Along setup.step setup.Genuine {} answered :=
  ⟨trivial, trivial, fun _ _ => by decide, trivial⟩

end Sample

open Sample in
/-- The committing end repeats its commitment before the answer has reached it. The responder takes
the second copy for the reveal. -/
theorem binding_alarm_fails :
    setup.Lawful ∧
      Along setup.step setup.Genuine {}
        (answered ++ [.committer .tick, toResponder setup.commit]) ∧
      (run setup.step {}
        (answered ++ [.committer .tick, toResponder setup.commit])).responder.phase =
          .failed .mismatch := by
  refine ⟨setup_lawful, along_append.2 ⟨answered_genuine, trivial, ?_, trivial⟩, ?_⟩
  · exact fun _ _ => by decide
  · decide +kernel

open Sample in
/-- Without the second copy both ends finish, with the same binding. -/
theorem binding_alarm_once :
    Throughout setup.step State.Quiet {}
      (answered ++ [toCommitter setup.responder.pub, toResponder setup.committer.pub]) := by
  have hpath : Along setup.step setup.Genuine {}
      (answered ++ [toCommitter setup.responder.pub, toResponder setup.committer.pub]) :=
    along_append.2 ⟨answered_genuine, fun _ _ => by decide +kernel,
      fun _ _ => by decide +kernel, trivial⟩
  refine (binding_alarm_iff setup_lawful hpath).1.1 (along_append.2
    ⟨⟨trivial, trivial, ?_, trivial⟩, trivial, ?_, trivial⟩)
  · rintro _ _ ⟨⟩
  · rintro _ p - hp
    exact accept_frame rfl hp

end BuddyNet.Buddy.Binding
