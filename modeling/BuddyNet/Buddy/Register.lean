import BuddyNet.Buddy.RelayCred
import BuddyNet.Go.NetText
import BuddyNet.Handshake.WireText
import BuddyNet.SealedCode

/-!
# Registering

`buildRegister` of `internal/role/register.go`: a buddy signs its registration over the rendezvous
in the clear and sends the rendezvous sealed. The server decodes the fields, opens the token and
rebuilds the signed bytes from what it has then.

`registration_understood`: every registration of an honest buddy passes all the checks of the server
in their order, and the token that comes out is the rendezvous.
-/

namespace BuddyNet.Registration

open Go Go.Json Handshake Buddy List

/-! ### The registration -/

/-- `node`: the parts of it that go into a registration. -/
structure Node where
  id : Bytes
  pub : Bytes
  vip : Bytes
  priv : Bytes
  serverPub : Bytes

/-- `randomID`, from the eight bytes it draws. -/
def randomID (random : Bytes) : Bytes := rawURLEncoding.encode random

/-- The node that `Buddy` sets up for an identity key. -/
def newNode (cr : Crypto) (pub priv random serverPub : Bytes) : Node where
  id := randomID random
  pub := pubKeyB64 pub
  vip := virtualIPString cr pub
  priv := priv
  serverPub := serverPub

/-- What one registration draws: the bytes of `NewNonce`, and for each of the two sealed codes. -/
structure Draws where
  nonce : Bytes
  code : SealDraw
  token : SealDraw
  nonce_length : nonce.length = 16

/-- The errors of `buildRegister`. -/
inductive RegisterError where
  | sealCode
  | sealToken
  deriving DecidableEq

/-- The context that the message of an error starts with. -/
def RegisterError.text : RegisterError → Bytes
  | sealCode => lit "seal the enrollment code to the server key: "
  | sealToken => lit "seal the pairing token to the server key: "

variable (cr : Crypto) (bx : Box)

/-- The enrollment code, sealed if there is one. -/
def sealedCode (nd : Node) (code : Bytes) (d : SealDraw) : Except RegisterError Bytes :=
  if code = [] then .ok []
  else match bx.sealCode d code nd.serverPub with
    | none => .error .sealCode
    | some enc => .ok enc

/-- A registration as it travels, with its token sealed. -/
def onWire (m : Message) (tokenEnc : Bytes) : Wire :=
  { m with typ := lit "REGISTER", tokenEnc := tokenEnc, token := [] }

/-- `setToken`: the rendezvous is sealed, and its plain form does not travel. -/
def setToken (m : Message) (rendezvous serverPub : Bytes) (d : SealDraw) :
    Except RegisterError Wire :=
  match bx.sealCode d rendezvous serverPub with
  | none => .error .sealToken
  | some enc => .ok (onWire m enc)

/-- The registration before it is signed. -/
def unsigned (nd : Node) (name rendezvous epk codeEnc nonce : Bytes) (now : ℤ) : Message where
  ver := version
  role := lit "buddy"
  token := rendezvous
  id := nd.id
  pubkey := nd.pub
  virtualIP := nd.vip
  name := name
  ts := now / 1000000000
  nonce := rawURLEncoding.encode nonce
  codeEnc := codeEnc
  ephPub := epk

/-- The registration with the signature of the node. -/
def signed (nd : Node) (m : Message) : Message :=
  { m with regSig := stdEncoding.encode (cr.ed25519Sign nd.priv (registrationPayload m)) }

/-- The registration of an attempt. -/
def registration (nd : Node) (name rendezvous epk codeEnc nonce : Bytes) (now : ℤ) : Message :=
  signed cr nd (unsigned nd name rendezvous epk codeEnc nonce now)

/-- `buildRegister`, with the name and the enrollment code of the configuration. -/
def buildRegister (nd : Node) (name code rendezvous epk : Bytes) (now : ℤ) (d : Draws) :
    Except RegisterError Bytes := do
  let codeEnc ← sealedCode bx nd code d.code
  let m := registration cr nd name rendezvous epk codeEnc d.nonce now
  let w ← setToken bx m rendezvous nd.serverPub d.token
  return w.json

/-! ### What the server makes of it -/

variable {cr bx} {pub priv serverPub serverPriv : Bytes}

theorem utf8_stdEncode (s : Bytes) : Utf8 (stdEncoding.encode s) := by
  refine utf8_of_ascii fun c hc => ?_
  rcases Encoding.mem_encode hc with ⟨v, hv, rfl⟩ | ⟨-, rfl⟩
  · have hall : ∀ v < 64, (stdEncoding.char v).toNat < 0x80 := by decide
    exact hall v hv
  · show (61 : UInt8).toNat < 0x80
    decide

theorem validField_encode {s : Bytes} (hne : s ≠ []) (hlen : s.length ≤ 96) :
    validField (rawURLEncoding.encode s) = true := by
  refine validField_iff.2 ⟨fun hnil => hne ?_, ?_, fun c hc => urlSafe_encode hc⟩
  · have hdec := decode_encode_url s
    rw [hnil] at hdec
    exact (Option.some.inj hdec).symm
  · rw [Encoding.encode_length_raw rfl]
    unfold maxFieldLen
    omega

theorem validNonce_encode {s : Bytes} (h : s.length = 16) :
    validNonce (rawURLEncoding.encode s) = true := by
  have hlen : (rawURLEncoding.encode s).length = 22 := by
    rw [Encoding.encode_length_raw rfl, h]
  simp [validNonce, hlen, decode_encode_url, h]

variable {nd : Node} {m : Message}

theorem decode_signed (cr : Crypto) (hpriv : nd.priv = priv) (hpub : m.pubkey = pubKeyB64 pub) :
    stdEncoding.decode (signed cr nd m).pubkey = some pub ∧
      stdEncoding.decode (signed cr nd m).regSig =
        some (cr.ed25519Sign priv (registrationPayload (signed cr nd m))) := by
  have hsig : (signed cr nd m).regSig =
      stdEncoding.encode (cr.ed25519Sign priv (registrationPayload (signed cr nd m))) := by
    rw [← hpriv]
    rfl
  have hpubkey : (signed cr nd m).pubkey = stdEncoding.encode pub := hpub
  rw [hsig, hpubkey, Encoding.decode_encode (Or.inl rfl), Encoding.decode_encode (Or.inl rfl)]
  exact ⟨rfl, rfl⟩

theorem requireV7Fields_signed (hkey : cr.KeyPair pub priv) (hpriv : nd.priv = priv)
    (hpub : m.pubkey = pubKeyB64 pub) (hnonce : validNonce m.nonce = true) :
    requireV7Fields (signed cr nd m) = true := by
  obtain ⟨hdec, hsig⟩ := decode_signed cr hpriv hpub
  have hnonce' : validNonce (signed cr nd m).nonce = true := hnonce
  rw [requireV7Fields, hdec, hsig]
  simp [hnonce', hkey.pub_length, hkey.sig_length]

variable {now : ℤ}

theorem verifyRegistration_signed (hkey : cr.KeyPair pub priv) (hpriv : nd.priv = priv)
    (hpub : m.pubkey = pubKeyB64 pub) (hnonce : validNonce m.nonce = true)
    (hskew : |now - m.ts * 1000000000| ≤ regSkew) :
    verifyRegistration cr now (signed cr nd m) = true := by
  obtain ⟨hdec, hsig⟩ := decode_signed cr hpriv hpub
  have hnonce' : validNonce (signed cr nd m).nonce = true := hnonce
  obtain ⟨hlo, hhi⟩ := abs_le.1 hskew
  have hlo' : -regSkew ≤ now - (signed cr nd m).ts * 1000000000 := hlo
  have hhi' : now - (signed cr nd m).ts * 1000000000 ≤ regSkew := hhi
  unfold verifyRegistration
  rw [hdec, hsig]
  simp [hnonce', hlo', hhi', hkey.pub_length, hkey.sig_length, hkey.verifies]

theorem registrationMatchesTLSKey_self (hpub : m.pubkey = pubKeyB64 pub)
    (hlen : pub.length = publicKeySize) : registrationMatchesTLSKey m pub = true := by
  rw [registrationMatchesTLSKey, hpub, pubKeyB64, Encoding.decode_encode (Or.inl rfl)]
  simp [hlen]

theorem deriveVIP_self (hpub : m.pubkey = pubKeyB64 pub)
    (hlen : pub.length = publicKeySize) (hvip : m.virtualIP = virtualIPString cr pub) :
    deriveVIP cr m = some m := by
  have hne : m.pubkey ≠ [] := by
    rintro hnil
    have hdec := decodePubKey_pubKeyB64 hlen
    rw [← hpub, hnil] at hdec
    cases hdec
  have hdec : decodePubKey m.pubkey = some pub := by rw [hpub, decodePubKey_pubKeyB64 hlen]
  rw [deriveVIP, if_neg hne, hdec]
  simp only [hvip, ne_eq, not_true_eq_false, and_false, if_false]
  rw [← hvip]

/-- `Unix` cuts off less than a second, which leaves 59 s of the window. -/
theorem skew_of_clocks {serverNow : ℤ} (h : |serverNow - now| ≤ 59 * 1000000000) :
    |serverNow - now / 1000000000 * 1000000000| ≤ regSkew := by
  rw [abs_le] at h ⊢
  unfold regSkew
  omega

/-- The node of an identity key, as `newNode` makes one. -/
structure Node.IsOf (cr : Crypto) (nd : Node) (key secret server : Bytes) : Prop where
  id : validField nd.id = true
  pub : nd.pub = pubKeyB64 key
  vip : nd.vip = virtualIPString cr key
  priv : nd.priv = secret
  serverPub : nd.serverPub = server

theorem newNode_isOf (cr : Crypto) (pub priv serverPub : Bytes) {random : Bytes}
    (h : random.length = 8) :
    (newNode cr pub priv random serverPub).IsOf cr pub priv serverPub where
  id := by
    refine validField_encode (fun hnil => ?_) (by omega)
    rw [hnil] at h
    cases h
  pub := rfl
  vip := rfl
  priv := rfl
  serverPub := rfl

theorem registration_textual (hnd : nd.IsOf cr pub priv serverPub)
    {name rendezvous codeEnc : Bytes} (hname : Utf8 name)
    (hrendezvous : validField rendezvous = true) (hcode : Utf8 codeEnc)
    (ephemeral nonce : Bytes) (now : ℤ) :
    (registration cr nd name rendezvous (rawURLEncoding.encode ephemeral) codeEnc nonce
      now).Textual where
  role := show Utf8 (lit "buddy") from utf8_of_all (by decide)
  token := utf8_of_validField hrendezvous
  id := utf8_of_validField hnd.id
  pubkey := by
    show Utf8 nd.pub
    rw [hnd.pub]
    exact utf8_stdEncode pub
  virtualIP := by
    show Utf8 nd.vip
    rw [hnd.vip]
    exact utf8_dotted _
  name := hname
  nonce := utf8_of_plain (plain_encode nonce)
  codeEnc := hcode
  ephPub := utf8_of_plain (plain_encode ephemeral)

/-- What `parseRegister` asks of a registration besides its text. -/
structure Sized (m : Message) (tokenEnc : Bytes) : Prop where
  ver : m.ver = version
  ts : -2 ^ 63 ≤ m.ts ∧ m.ts < 2 ^ 63
  id : validField m.id = true
  pubkey : m.pubkey.length ≤ maxFieldLen
  nonce : m.nonce.length ≤ maxFieldLen
  codeEnc : m.codeEnc.length ≤ maxCodeEncLen
  token : tokenEnc ≠ [] ∧ tokenEnc.length ≤ maxCodeEncLen

variable {tokenEnc : Bytes}

/-- **The server decodes the registration that was sent.** -/
theorem parseRegister_onWire (h : m.Textual)
    (hsig : Utf8 m.regSig) (htoken : Utf8 tokenEnc) (hsize : Sized m tokenEnc) :
    parseRegister (onWire m tokenEnc).json = some (onWire m tokenEnc) := by
  have htext : (onWire m tokenEnc).Textual :=
    { typ := show Utf8 (lit "REGISTER") from utf8_of_all (by decide)
      tokenEnc := htoken
      signed := ⟨h.role, .nil, h.id, h.pubkey, h.virtualIP, h.name, h.nonce, h.codeEnc, h.ephPub⟩
      regSig := hsig
      ver := by
        show -2 ^ 63 ≤ m.ver ∧ m.ver < 2 ^ 63
        rw [hsize.ver]
        decide
      ts := hsize.ts }
  refine parseRegister_json htext rfl ?_
  simp [Wire.wellSized, onWire, hsize.id, hsize.pubkey, hsize.codeEnc, hsize.nonce,
    hsize.token.1, hsize.token.2]

theorem registration_sized (hkey : cr.KeyPair pub priv)
    (hnd : nd.IsOf cr pub priv serverPub) (name ephemeral : Bytes)
    {rendezvous codeEnc nonce : Bytes}
    (hrendezvous : validField rendezvous = true) (hcode : codeEnc.length ≤ maxCodeEncLen)
    (hnonce : nonce.length = 16)
    (hnow : -2 ^ 63 ≤ now / 1000000000 ∧ now / 1000000000 < 2 ^ 63) {raw : Bytes}
    (hraw : raw.length = 72 + rendezvous.length) :
    Sized (registration cr nd name rendezvous ephemeral codeEnc nonce now)
      (stdEncoding.encode raw) where
  ver := rfl
  ts := hnow
  id := hnd.id
  pubkey := by
    show nd.pub.length ≤ maxFieldLen
    rw [hnd.pub, pubKeyB64, Encoding.encode_length_padded rfl, hkey.pub_length]
    decide
  nonce := by
    show (rawURLEncoding.encode nonce).length ≤ maxFieldLen
    rw [Encoding.encode_length_raw rfl, hnonce]
    decide
  codeEnc := hcode
  token := by
    have hlen : (stdEncoding.encode raw).length = (72 + rendezvous.length + 2) / 3 * 4 := by
      rw [Encoding.encode_length_padded rfl, hraw]
    constructor
    · intro hnil
      rw [hnil, length_nil] at hlen
      omega
    · have hmax := (validField_iff.1 hrendezvous).2.1
      unfold maxFieldLen at hmax
      unfold maxCodeEncLen
      omega

theorem resolveToken_onWire {openCode : Bytes → Option Bytes}
    (hopen : openCode tokenEnc = some m.token) (htoken : validField m.token = true) :
    resolveToken openCode (onWire m tokenEnc) = some m := by
  have henc : (onWire m tokenEnc).tokenEnc = tokenEnc := rfl
  rw [resolveToken, henc, hopen]
  dsimp only
  rw [if_pos htoken]
  rfl

theorem sealedCode_ok (hserver : bx.Opens serverPub serverPriv)
    (hnd : nd.IsOf cr pub priv serverPub) {code : Bytes} {d : SealDraw}
    (hlen : ∀ enc, bx.sealCode d code serverPub = some enc → enc.length ≤ maxCodeEncLen) :
    ∃ enc, sealedCode bx nd code d = .ok enc ∧ enc.length ≤ maxCodeEncLen ∧ Utf8 enc := by
  obtain ⟨raw, hseal, -, -⟩ := hserver.openCode_sealCode d code
  unfold sealedCode
  split_ifs
  · exact ⟨[], rfl, Nat.zero_le _, .nil⟩
  · rw [hnd.serverPub, hseal]
    exact ⟨_, rfl, hlen _ hseal, utf8_stdEncode raw⟩

/-- **Every honest registration is understood.** -/
theorem registration_understood (cr : Crypto) (bx : Box) {pub priv serverPub serverPriv : Bytes}
    (hkey : cr.KeyPair pub priv) (hserver : bx.Opens serverPub serverPriv) {random : Bytes}
    (hrandom : random.length = 8) {rendezvous name : Bytes}
    (hrendezvous : validField rendezvous = true) (hname : Utf8 name) (ephPub ephPriv : Bytes)
    (code : Bytes) (d : Draws)
    (hcode : ∀ enc, bx.sealCode d.code code serverPub = some enc → enc.length ≤ 512)
    {now serverNow : ℤ} (hnow : -2 ^ 63 ≤ now / 1000000000 ∧ now / 1000000000 < 2 ^ 63)
    (hskew : |serverNow - now| ≤ 59 * 1000000000) :
    ∃ raw w m,
      buildRegister cr bx (newNode cr pub priv random serverPub) name code rendezvous
        (epk (some (newRelayCred ephPub ephPriv))) now d = .ok raw ∧
      parseRegister raw = some w ∧ registrationMatchesTLSKey w.toMessage pub = true ∧
      requireV7Fields w.toMessage = true ∧
      resolveToken (bx.openCode serverPriv) w = some m ∧ m.token = rendezvous ∧
      verifyRegistration cr serverNow m = true ∧ deriveVIP cr m = some m := by
  obtain ⟨raw, hseal, hraw, hopen⟩ := hserver.openCode_sealCode d.token rendezvous
  obtain ⟨nd, hnew⟩ : ∃ nd, newNode cr pub priv random serverPub = nd := ⟨_, rfl⟩
  have hnd : nd.IsOf cr pub priv serverPub := hnew ▸ newNode_isOf cr pub priv serverPub hrandom
  obtain ⟨codeEnc, hsealed, hcodeLen, hcodeText⟩ := sealedCode_ok hserver hnd hcode
  obtain ⟨m, hm⟩ : ∃ m, registration cr nd name rendezvous
      (epk (some (newRelayCred ephPub ephPriv)))
    codeEnc d.nonce now = m := ⟨_, rfl⟩
  have htext : m.Textual := by
    rw [← hm]
    exact registration_textual hnd hname hrendezvous hcodeText ephPub d.nonce now
  have hnonce := validNonce_encode d.nonce_length
  have hpubkey : m.pubkey = pubKeyB64 pub := by
    rw [← hm]
    exact hnd.pub
  refine ⟨(onWire m (stdEncoding.encode raw)).json, onWire m (stdEncoding.encode raw), m, ?_, ?_,
    registrationMatchesTLSKey_self hpubkey hkey.pub_length, ?_, ?_, ?_, ?_,
    deriveVIP_self hpubkey hkey.pub_length ?_⟩
  · rw [hnew]
    simp only [buildRegister, hsealed, setToken, hnd.serverPub, hseal, bind, Except.bind, hm]
    rfl
  · refine parseRegister_onWire htext ?_ (utf8_stdEncode raw) ?_
    · rw [← hm]
      exact utf8_stdEncode _
    · rw [← hm]
      exact registration_sized hkey hnd name _ hrendezvous hcodeLen d.nonce_length hnow hraw
  · show requireV7Fields m = true
    rw [← hm]
    exact requireV7Fields_signed hkey hnd.priv hnd.pub hnonce
  · refine resolveToken_onWire ?_ ?_
    · rw [hopen, ← hm]
      rfl
    · rw [← hm]
      exact hrendezvous
  · rw [← hm]
    rfl
  · rw [← hm]
    exact verifyRegistration_signed hkey hnd.priv hnd.pub hnonce (skew_of_clocks hskew)
  · rw [← hm]
    exact hnd.vip

namespace FirstAttempt

open Meeting (crypto key keyPair)

/-- A box that hides nothing. -/
def box : Box where
  sha512 := fun s => s
  montgomery := some
  basePoint := fun _ => replicate 32 0
  boxSeal := fun msg _ _ _ => replicate 16 0 ++ msg
  boxOpen := fun box _ _ _ => some (box.drop 16)

theorem box_opens (pub priv : Bytes) : box.Opens pub priv where
  basePoint_length := fun _ => length_replicate
  boxSeal_length := fun msg _ _ _ => by
    show (replicate 16 (0 : UInt8) ++ msg).length = msg.length + 16
    rw [length_append, length_replicate, Nat.add_comm]
  recipient := ⟨pub, rfl, fun _ _ _ => rfl⟩

/-- Zeros for everything that is drawn. -/
def draw : SealDraw := ⟨[], replicate 24 0, rfl⟩

/-- What the attempt draws. -/
def draws : Draws := ⟨replicate 16 0, draw, draw, rfl⟩

end FirstAttempt

open FirstAttempt Meeting in
/-- A buddy with a name and an enrollment code, 59 s ahead of the server. -/
theorem registration_understood_first : ∃ raw w m,
    buildRegister crypto box (newNode crypto (key 2) (key 2) (replicate 8 5) (key 9))
      (lit "laptop") (lit "1234") (lit "rendezvous") (epk (some (newRelayCred (key 3) (key 3))))
      (159 * 1000000000) draws = .ok raw ∧
    parseRegister raw = some w ∧ resolveToken (box.openCode (key 9)) w = some m ∧
    m.token = lit "rendezvous" ∧ verifyRegistration crypto (100 * 1000000000) m = true := by
  have hname : Utf8 (lit "laptop") := utf8_of_all (by decide)
  have hcode : ∀ enc, box.sealCode draws.code (lit "1234") (key 9) = some enc →
      enc.length ≤ 512 := by
    intro enc henc
    obtain ⟨raw, hraw, hlen, -⟩ := (box_opens (key 9) (key 9)).openCode_sealCode draws.code
      (lit "1234")
    rw [hraw] at henc
    cases henc
    rw [Encoding.encode_length_padded rfl, hlen]
    decide
  have hrandom : (replicate 8 (5 : UInt8)).length = 8 := rfl
  have hrendezvous : validField (lit "rendezvous") = true := by decide
  have hnow : (-2 ^ 63 : ℤ) ≤ 159 * 1000000000 / 1000000000 ∧
      (159 * 1000000000 / 1000000000 : ℤ) < 2 ^ 63 := by decide
  have hskew : |(100 * 1000000000 - 159 * 1000000000 : ℤ)| ≤ 59 * 1000000000 := by decide
  obtain ⟨raw, w, m, hbuild, hparse, -, -, htoken, hsame, hverify, -⟩ :=
    registration_understood crypto box (keyPair 2) (box_opens (key 9) (key 9)) hrandom hrendezvous
      hname (key 3) (key 3) (lit "1234") draws hcode hnow hskew
  exact ⟨raw, w, m, hbuild, hparse, htoken, hsame, hverify⟩

end BuddyNet.Registration
