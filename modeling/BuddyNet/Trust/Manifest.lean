import BuddyNet.Nft
import BuddyNet.Trust.Files

/-!
# The peers manifest

`internal/role/peersfile.go` up to `manifestNeedsMigration`: the YAML manifest of the configured
buddies, the old line format, and how both are read and written. The YAML library is a parameter
(`Yaml`): it turns bytes into a document and back, and `Yaml.Lawful` says what the development
relies on.
-/

namespace BuddyNet.Trust

open Transaction

/-- `peerSpec`. -/
structure PeerSpec where
  pin : Bytes
  token : Bytes := []
  name : Bytes := []
  expose : Option Nft.Scope := none
  deriving DecidableEq

/-- The YAML value of an `expose` field. -/
inductive ExposeNode where
  | scalar (value : Bytes)
  | seq (items : List Bytes)
  | other
  deriving DecidableEq

/-- `manifestBuddy`, with `expose` before `UnmarshalYAML`. -/
structure Buddy where
  name : Bytes
  key : Bytes
  token : Bytes
  expose : Option ExposeNode
  deriving DecidableEq

/-- What the strict decoder makes of a manifest. -/
inductive Decoded where
  | eof
  | error
  | doc (buddies : List Buddy)

/-- `yaml.Marshal` and the strict `yaml.Decoder` on a manifest. -/
structure Yaml where
  marshal : List Buddy → Bytes
  decode : Bytes → Decoded

def maxManifestBytes : ℕ := 2 ^ 20

def manifestHeader : List Bytes :=
  [lit "# BuddyNet peers manifest (YAML). Managed by 'peers add/remove/list'; hand-editable.",
    lit "# NOTE: 'peers add/remove' rewrite this file and drop custom comments.",
    lit "# One entry per buddy:",
    lit "#   - name: alice             # optional (display / .buddy hint)",
    lit "#     key: <pubkey-base64>    # required — the buddy's pinned Ed25519 identity",
    lit "#     token: <bootstrap>      # optional, only needed until the first pairing",
    lit "#     expose: [873]           # optional (WireGuard): ports this buddy may reach",
    lit "#                             # on THIS host, e.g. [873, \"udp/51820\"]; 'all' =",
    lit "#                             # explicit whole host; omitted = inherit --expose,",
    lit "#                             # else fail-closed (nothing exposed)"]

/-- The library reads back what it wrote, comments in front of it are ignored, and the first line it
writes is the name of the list. -/
structure Yaml.Lawful (y : Yaml) : Prop where
  decode_marshal : ∀ bs, y.decode (Go.unlines manifestHeader ++ y.marshal bs) = .doc bs
  first_line : ∀ bs, ∃ line rest, y.marshal bs = line ++ Go.nl :: rest ∧
    (line = lit "buddies:" ∨ line = lit "buddies: []")

/-! ### Entries -/

/-- `exposeValue.UnmarshalYAML`. -/
def ExposeNode.scope : ExposeNode → Except TrustError Nft.Scope
  | .scalar value =>
    if Go.lowerASCII (Go.trimSpace value) = lit "all" then .ok { all := true } else .error .badScope
  | .seq [] => .error .badScope
  | .seq items =>
    match Nft.parseScope ((lit ",").intercalate items) with
    | .ok scope => .ok scope
    | .error _ => .error .badScope
  | .other => .error .badScope

/-- `exposeValue.MarshalYAML`. -/
def exposeNode (s : Nft.Scope) : ExposeNode :=
  if s.all then .scalar (lit "all")
  else .seq (s.ports.map fun p =>
    match p.proto with
    | .tcp => Go.itoa p.port.toNat
    | .udp => lit "udp/" ++ Go.itoa p.port.toNat)

def validateBuddyName (name : Bytes) : Bool :=
  name.length ≤ 63 && name.all fun c =>
    (97 ≤ c.toNat && c.toNat ≤ 122) || (65 ≤ c.toNat && c.toNat ≤ 90) || Go.Json.isDigit c ||
      c == 45

/-- `manifestBuddy.toSpec`; the scope was decoded with the document. -/
def Buddy.toSpec (b : Buddy) (expose : Option Nft.Scope) : Except TrustError PeerSpec :=
  if b.key = [] then .error .missingKey
  else match decodePubKey b.key with
    | none => .error .badKey
    | some pin =>
      if b.token ≠ [] ∧ ¬validField b.token then .error (.badToken b.token)
      else if validateBuddyName b.name then .ok ⟨pin, b.token, b.name, expose⟩
      else .error (.badName b.name)

/-- `peerSpec.toManifest`. -/
def PeerSpec.toManifest (s : PeerSpec) : Buddy :=
  ⟨s.name, pubKeyB64 s.pin, s.token, s.expose.map exposeNode⟩

/-- A spec is added unless its key is listed already. -/
def addSpec (specs : List PeerSpec) (s : PeerSpec) : Except TrustError (List PeerSpec) :=
  if s.pin ∈ specs.map (·.pin) then .error (.duplicateKey (pubKeyB64 s.pin)) else .ok (specs ++ [s])

/-! ### The two formats -/

/-- A line that is neither blank nor a comment. -/
def isContent (text : Bytes) : Bool := text != [] && text.head? != some 35

def manifestIsLegacy (data : Bytes) : Bool :=
  match ((Go.scanLines data).1.map Go.trimSpace).find? isContent with
  | some text => (decodePubKey ((Go.fields text).headD [])).isSome
  | none => false

/-- One line of `parseLegacyManifest`, with its number. -/
def legacyLine (specs : List PeerSpec) (line : Bytes × ℕ) : Except TrustError (List PeerSpec) :=
  let text := Go.trimSpace line.1
  if ¬isContent text then .ok specs
  else
    let fields := Go.fields text
    if 2 < fields.length then .error (.legacyFields line.2 fields.length)
    else match decodePubKey (fields.headD []) with
      | none => .error .badKey
      | some pin => addSpec specs { pin := pin, token := fields.getD 1 [] }

def parseLegacyManifest (data : Bytes) : Except TrustError (List PeerSpec) := do
  let scan := Go.scanLines data
  let specs ← (scan.1.zipIdx 1).foldlM legacyLine []
  if scan.2 then .error .tooLong else .ok specs

/-- One entry of `parseYAMLManifest`. -/
def yamlEntry (specs : List PeerSpec) (e : Buddy × Option Nft.Scope) :
    Except TrustError (List PeerSpec) := do
  let s ← e.1.toSpec e.2
  addSpec specs s

/-- The scope of an entry, decoded with the document. -/
def Buddy.decodeExpose (b : Buddy) : Except TrustError (Buddy × Option Nft.Scope) :=
  match b.expose with
  | none => .ok (b, none)
  | some node =>
    match node.scope with
    | .ok scope => .ok (b, some scope)
    | .error _ => .error .yaml

variable (y : Yaml)

def parseYAMLManifest (data : Bytes) : Except TrustError (List PeerSpec) :=
  match y.decode data with
  | .eof => .ok []
  | .error => .error .yaml
  | .doc buddies => do
    let entries ← buddies.mapM Buddy.decodeExpose
    entries.foldlM yamlEntry []

def readManifest (f : Files) : Except TrustError (Option Bytes) :=
  match f.manifest with
  | none => .ok none
  | some data =>
    if maxManifestBytes < data.length then .error (.manifestSize data.length) else .ok data

/-- `loadPeersFile`; `peersFile` says whether a manifest path is set. -/
def loadPeersFile (peersFile : Bool) (f : Files) : Except TrustError (List PeerSpec) :=
  if peersFile then do
    match ← readManifest f with
    | none => .ok []
    | some data =>
      if manifestIsLegacy data then parseLegacyManifest data else parseYAMLManifest y data
  else .ok []

def manifestNeedsMigration (f : Files) : Except TrustError Bool := do
  match ← readManifest f with
  | none => .ok false
  | some data => .ok (manifestIsLegacy data)

/-- The manifest with these entries. -/
def manifestText (specs : List PeerSpec) : Bytes :=
  Go.unlines manifestHeader ++ y.marshal (specs.map PeerSpec.toManifest)

def saveManifestLocked (specs : List PeerSpec) : Tx Unit :=
  write fun f => { f with manifest := some (manifestText y specs) }

end BuddyNet.Trust
