import BuddyNet.Go.Sort
import BuddyNet.Buddy.Connect

/-!
# Direct mode

`direct.go`: two buddies that are configured with each other's key meet without a server. Each
decides from its own flags whether it runs the listener:

* with an endpoint to dial and no fixed port it dials;
* with a fixed port and no endpoint it listens;
* with both, the lower key listens.

The third rule supposes that the partner has both as well. `direct_roles_iff` says for which pairs
of configurations the two decisions fit together.
-/

namespace BuddyNet.Buddy

/-! ### The startup check -/

/-- The errors of `validateDirect`; of a bad address, the flag and its value. -/
inductive DirectError where
  | wantHostPort (what addr : Bytes)
  | missingHost (what addr : Bytes)
  | badPort (what addr port : Bytes)
  /-- `errDirectNoKey`. -/
  | noKey
  /-- `errDirectNoPath`. -/
  | noPath
  deriving DecidableEq

/-- `validateHostPort`; `lookupPort` says whether `net.LookupPort` knows a UDP port. -/
def validateHostPort (lookupPort : Bytes → Bool) (what addr : Bytes) : Except DirectError Unit :=
  if addr = [] then .ok ()
  else match Go.splitHostPort addr with
    | none => .error (.wantHostPort what addr)
    | some (host, port) =>
      if host = [] then .error (.missingHost what addr)
      else if lookupPort port then .ok ()
      else .error (.badPort what addr port)

def validateDirect (lookupPort : Bytes → Bool) (cfg : Config) : Except DirectError Unit :=
  match validateHostPort lookupPort (lit "--peer-relay") cfg.peerRelay with
  | .error e => .error e
  | .ok () =>
    if cfg.direct = false then .ok ()
    else if cfg.peerKey = [] then .error .noKey
    else if cfg.peerEndpoint = [] ∧ cfg.listenPort = 0 then .error .noPath
    else validateHostPort lookupPort (lit "--peer-endpoint") cfg.peerEndpoint

theorem validateDirect_ok {lookupPort : Bytes → Bool} {cfg : Config} (hdirect : cfg.direct = true)
    (h : validateDirect lookupPort cfg = .ok ()) :
    cfg.peerKey ≠ [] ∧ (cfg.peerEndpoint ≠ [] ∨ cfg.listenPort ≠ 0) := by
  unfold validateDirect at h
  split at h
  · cases h
  · rw [if_neg (by rw [hdirect]; decide)] at h
    split_ifs at h with hkey hpath
    exact ⟨hkey, not_and_or.1 hpath⟩

/-! ### The two ends -/

/-- A node with its configuration. -/
structure End where
  node : Node
  cfg : Config

namespace End

variable {x y : End} {lookupPort : Bytes → Bool} {cr : Crypto}

/-- The node runs in direct mode and its configuration passes the check. -/
def Accepted (lookupPort : Bytes → Bool) (x : End) : Prop :=
  x.cfg.direct = true ∧ validateDirect lookupPort x.cfg = .ok ()

/-- `--peer-key` is the key of the other node. -/
def Pins (x y : End) : Prop := decodePubKey x.cfg.peerKey = some y.node.key

/-- The node has an endpoint to dial. -/
def canDial (x : End) : Bool := x.cfg.peerEndpoint ≠ []

/-- The node has a fixed port to listen on. -/
def canListen (x : End) : Bool := x.cfg.listenPort ≠ 0

/-- What `buddyRun` decides for the partner of `directPartner`. -/
def listens (cr : Crypto) (x : End) : Bool :=
  match directPartner cr x.cfg with
  | .ok partner => directListening x.cfg x.node.pub partner.pubkey
  | .error _ => false

/-- Two different nodes that pin each other, with configurations that pass the check; one of them
can dial the other's fixed port. -/
structure Paired (lookupPort : Bytes → Bool) (x y : End) : Prop where
  left : x.Accepted lookupPort
  right : y.Accepted lookupPort
  pins : x.Pins y
  pinned : y.Pins x
  different : x.node.key ≠ y.node.key
  reach : x.canDial = true ∧ y.canListen = true ∨ y.canDial = true ∧ x.canListen = true

/-- One end listens and the other has an endpoint to dial. -/
def Meets (cr : Crypto) (x y : End) : Prop :=
  x.listens cr = true ∧ y.listens cr = false ∧ y.canDial = true

/-- A node that could do either faces one that could do either as well, or its key gives it the role
that the other one leaves. -/
def Fits (x y : End) : Prop :=
  x.canDial = true → x.canListen = true →
    (y.canDial = false → Go.strLt y.node.pub x.node.pub = true) ∧
    (y.canListen = false → Go.strLt x.node.pub y.node.pub = true)

theorem Pins.partner (h : x.Pins y) (hkey : x.cfg.peerKey ≠ []) (cr : Crypto) :
    ∃ partner, directPartner cr x.cfg = .ok partner ∧ partner.pubkey = y.node.pub := by
  unfold directPartner
  rw [if_neg hkey, h]
  exact ⟨_, rfl, rfl⟩

theorem directListening_eq (cfg : Config) (myPub peerPub : Bytes) (nd : Node) :
    directListening cfg myPub peerPub =
      ((⟨nd, cfg⟩ : End).canListen && (!(⟨nd, cfg⟩ : End).canDial || Go.strLt myPub peerPub)) := by
  unfold directListening canListen canDial
  by_cases hport : cfg.listenPort = 0
  · simp [hport]
  · by_cases hend : cfg.peerEndpoint = []
    · simp [hport, hend]
    · simp [hport, hend]

/-- **The decision of one end** that pins the other. -/
theorem Accepted.listens (hx : x.Accepted lookupPort) (hpin : x.Pins y) (cr : Crypto) :
    x.listens cr = (x.canListen && (!x.canDial || Go.strLt x.node.pub y.node.pub)) := by
  obtain ⟨hkey, -⟩ := validateDirect_ok hx.1 hx.2
  obtain ⟨partner, hpartner, hpub⟩ := hpin.partner hkey cr
  unfold End.listens
  rw [hpartner]
  show directListening x.cfg x.node.pub partner.pubkey = _
  rw [hpub, directListening_eq x.cfg _ _ x.node]

theorem Accepted.some_path (hx : x.Accepted lookupPort) :
    x.canDial = true ∨ x.canListen = true := by
  obtain ⟨-, hpath⟩ := validateDirect_ok hx.1 hx.2
  simpa [canDial, canListen] using hpath

theorem strLt_pub (hne : x.node.key ≠ y.node.key) :
    Go.strLt y.node.pub x.node.pub = !Go.strLt x.node.pub y.node.pub :=
  Go.strLt_of_ne fun heq => hne (pubKeyB64_injective heq)

end End

/-- **Direct-mode roles are complementary** exactly when each end that could take either role faces
one that could as well, or has the key for the role that is left. -/
theorem direct_roles_iff (lookupPort : Bytes → Bool) (cr : Crypto) (x y : End)
    (h : x.Paired lookupPort y) : (x.Meets cr y ∨ y.Meets cr x) ↔ x.Fits y ∧ y.Fits x := by
  have hlower := End.strLt_pub h.different
  have hpathx := h.left.some_path
  have hpathy := h.right.some_path
  have hreach := h.reach
  unfold End.Meets End.Fits
  rw [h.left.listens h.pins, h.right.listens h.pinned, hlower]
  -- what is left is a table over the four flags and the order of the keys
  generalize x.canDial = dx at *
  generalize x.canListen = lx at *
  generalize y.canDial = dy at *
  generalize y.canListen = ly at *
  generalize Go.strLt x.node.pub y.node.pub = lower
  revert hpathx hpathy hreach
  cases dx <;> cases lx <;> cases dy <;> cases ly <;> cases lower <;> decide

/-! ### Two ends that do not fit -/

namespace Roles

/-- A node whose key repeats one byte, with its flags; it pins the node of the other byte. -/
def node (own other : UInt8) (endpoint : Bytes) (port : ℕ) : End where
  node := { key := List.replicate 32 own, trust := ⟨none, false⟩ }
  cfg :=
    { direct := true
      peerKey := pubKeyB64 (List.replicate 32 other)
      peerEndpoint := endpoint
      listenPort := port }

/-- The one port that the lookup knows. -/
def lookupPort (port : Bytes) : Bool := port = lit "51820"

/-- A node that could do either. -/
def either (own other : UInt8) : End := node own other (lit "buddy.example:51820") 51820

/-- A node that can only be dialled. -/
def fixedPort (own other : UInt8) : End := node own other [] 51820

/-- A node that can only dial. -/
def dialer (own other : UInt8) : End := node own other (lit "buddy.example:51820") 0

theorem node_pins (own other : UInt8) (endpoint endpoint' : Bytes) (port port' : ℕ) :
    (node own other endpoint port).Pins (node other own endpoint' port') :=
  decodePubKey_pubKeyB64 List.length_replicate

end Roles

open Roles in
/-- The lower key could do either and its partner can only be dialled: both listen. The higher key
could do either and its partner can only dial: both dial. -/
theorem direct_roles_fail :
    ((either 1 2).Paired lookupPort (fixedPort 2 1) ∧
      ∀ cr, (either 1 2).listens cr = true ∧ (fixedPort 2 1).listens cr = true) ∧
    ((either 2 1).Paired lookupPort (dialer 1 2) ∧
      ∀ cr, (either 2 1).listens cr = false ∧ (dialer 1 2).listens cr = false) := by
  have hlisten : (either 1 2).Paired lookupPort (fixedPort 2 1) :=
    ⟨⟨rfl, by decide +kernel⟩, ⟨rfl, by decide +kernel⟩, node_pins .., node_pins ..,
      by decide +kernel, by decide +kernel⟩
  have hdial : (either 2 1).Paired lookupPort (dialer 1 2) :=
    ⟨⟨rfl, by decide +kernel⟩, ⟨rfl, by decide +kernel⟩, node_pins .., node_pins ..,
      by decide +kernel, by decide +kernel⟩
  refine ⟨⟨hlisten, fun cr => ?_⟩, hdial, fun cr => ?_⟩
  · rw [hlisten.left.listens hlisten.pins, hlisten.right.listens hlisten.pinned]
    decide +kernel
  · rw [hdial.left.listens hdial.pins, hdial.right.listens hdial.pinned]
    decide +kernel

open Roles in
/-- The higher key could do either and its partner can only be dialled: the partner listens. -/
theorem direct_roles_higher :
    (either 2 1).Paired lookupPort (fixedPort 1 2) ∧
      ∀ cr, (either 2 1).Meets cr (fixedPort 1 2) ∨ (fixedPort 1 2).Meets cr (either 2 1) := by
  have hpair : (either 2 1).Paired lookupPort (fixedPort 1 2) :=
    ⟨⟨rfl, by decide +kernel⟩, ⟨rfl, by decide +kernel⟩, node_pins .., node_pins ..,
      by decide +kernel, by decide +kernel⟩
  refine ⟨hpair, fun cr => (direct_roles_iff lookupPort cr _ _ hpair).2 ⟨?_, ?_⟩⟩
  · exact fun _ _ => ⟨fun _ => by decide +kernel, fun h => absurd h (by decide)⟩
  · exact fun h => absurd h (by decide)

end BuddyNet.Buddy
