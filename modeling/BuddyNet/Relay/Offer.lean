import BuddyNet.Keys

/-!
# The relay's control datagrams

`internal/relay/offer.go`: the bind a buddy sends to claim one leg of a session, the challenge the
relay answers an unproven source with, and the bounds checked before any field is looked at.
-/

namespace BuddyNet.Relay

/-- `BindPrefix`. -/
def bindPrefix : Bytes := lit "BNRELAY1"

/-- `ChallengePrefix`. -/
def challengePrefix : Bytes := lit "BNRLYC1"

/-- `CookieLen`. -/
def cookieLen : ℕ := 16

/-- `MinSessionTokenLen`. -/
def minSessionTokenLen : ℕ := 16

/-- `MaxBindLen`. -/
def maxBindLen : ℕ := 1024

def maxTicketB64 : ℕ := 700

def maxSigB64 : ℕ := 96

/-- `Bind`: the control message that claims one leg of a session. -/
structure Bind where
  sessionToken : Bytes
  cookie : Bytes := []
  ticket : Bytes := []
  ticketSig : Bytes := []
  bindSig : Bytes := []
  deriving DecidableEq

/-- An `omitempty` string member. -/
def optionalMember (name v : Bytes) : Bytes :=
  if v = [] then [] else lit ",\"" ++ name ++ lit "\":" ++ Go.Json.quote v

/-- `MarshalBind`. -/
def marshalBind (b : Bind) : Bytes :=
  bindPrefix ++ lit "\x7b\"s\":" ++ Go.Json.quote b.sessionToken ++
    optionalMember (lit "c") b.cookie ++ optionalMember (lit "t") b.ticket ++
    optionalMember (lit "ts") b.ticketSig ++ optionalMember (lit "b") b.bindSig ++ lit "\x7d"

/-- The JSON names of the fields of a bind. -/
def bindFields : List Bytes := [lit "s", lit "c", lit "t", lit "ts", lit "b"]

/-- `json.Unmarshal` into a `Bind`; unknown members are ignored. -/
def unmarshalBind (body : Bytes) : Option Bind := do
  let ms ← Go.Json.structMembers (← Go.Json.parse body)
  let vals := Go.Json.valuesOf bindFields ms
  return { sessionToken := ← Go.Json.stringField (vals (lit "s"))
           cookie := ← Go.Json.stringField (vals (lit "c"))
           ticket := ← Go.Json.stringField (vals (lit "t"))
           ticketSig := ← Go.Json.stringField (vals (lit "ts"))
           bindSig := ← Go.Json.stringField (vals (lit "b")) }

def base64urlOnly (s : Bytes) : Bool :=
  s.all fun c =>
    let n := c.toNat
    (65 ≤ n && n ≤ 90) || (97 ≤ n && n ≤ 122) || (48 ≤ n && n ≤ 57) || n == 45 || n == 95

theorem base64urlOnly_iff {s : Bytes} : base64urlOnly s = true ↔ ∀ c ∈ s, UrlSafe c := by
  simp only [base64urlOnly, List.all_eq_true, Bool.or_eq_true, Bool.and_eq_true,
    decide_eq_true_eq, beq_iff_eq, UrlSafe, or_assoc]

/-- The bounds on the fields of a bind. -/
def Bind.wellFormed (b : Bind) : Bool :=
  minSessionTokenLen ≤ b.sessionToken.length && b.sessionToken.length ≤ maxFieldLen &&
    b.cookie.length ≤ maxFieldLen && b.ticket.length ≤ maxTicketB64 &&
    b.ticketSig.length ≤ maxSigB64 && b.bindSig.length ≤ maxSigB64 &&
    base64urlOnly b.sessionToken

/-- `ParseBind`: anything that is not a bind is data to forward. -/
def parseBind (pkt : Bytes) : Option Bind :=
  if pkt.length < bindPrefix.length ∨ maxBindLen < pkt.length ∨
      pkt.take bindPrefix.length ≠ bindPrefix then none
  else match unmarshalBind (pkt.drop bindPrefix.length) with
    | none => none
    | some b => if b.wellFormed then some b else none

/-- `BindCred`: what a bind presents in ticket mode. -/
structure BindCred where
  payload : Bytes
  sig : Bytes
  eph : Bytes
  deriving DecidableEq

/-- `BindCred.bind`: the bind to send under a cookie, whose base64 text is `cookieB64`. -/
def BindCred.bind (cr : Crypto) (c : Option BindCred) (token cookieB64 cookie : Bytes) : Bind :=
  match c with
  | none => { sessionToken := token, cookie := cookieB64 }
  | some c =>
    { sessionToken := token
      cookie := cookieB64
      ticket := rawURLEncoding.encode c.payload
      ticketSig := rawURLEncoding.encode c.sig
      bindSig := rawURLEncoding.encode (Ticket.signBind cr c.eph c.payload c.sig cookie) }

/-- `MarshalChallenge`. -/
def marshalChallenge (cookie : Bytes) : Bytes := challengePrefix ++ cookie

end BuddyNet.Relay
