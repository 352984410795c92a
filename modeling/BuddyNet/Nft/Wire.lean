import BuddyNet.Library.Netlink
import BuddyNet.Nft

/-!
# The batch

`nft_linux.go`, from the attributes up to `buildBatch`: the bytes that replace the `buddynet` table.
The order of the host's bytes is a parameter.
-/

namespace BuddyNet.Nft.Wire

open Netlink

/-! ### Constants -/

def nfnlSubsysNftables : UInt16 := 10
def nfnlMsgBatchBegin : UInt16 := 0x10
def nfnlMsgBatchEnd : UInt16 := 0x11

def nftMsgNewTable : UInt16 := 0
def nftMsgDelTable : UInt16 := 2
def nftMsgNewChain : UInt16 := 3
def nftMsgNewRule : UInt16 := 6

/-- `NLM_F_REQUEST`. -/
def nlmFRequest : UInt16 := 0x1
/-- `NLM_F_ACK`. -/
def nlmFAck : UInt16 := 0x4
/-- `NLM_F_CREATE`. -/
def nlmFCreate : UInt16 := 0x400
/-- `NLM_F_APPEND`. -/
def nlmFAppend : UInt16 := 0x800

def nfprotoInet : UInt8 := 1
def nfInetLocalIn : ℕ := 1
def nfInetForward : ℕ := 2
def nfAccept : ℕ := 1
def nfDrop : ℕ := 0

def nlaFNested : UInt16 := 0x8000
def nftReg1 : ℕ := 1
def nftRegVerdict : ℕ := 0
def ifNameSize : ℕ := 16
def ctStateEstablished : ℕ := 1 <<< 1
def ctStateRelated : ℕ := 1 <<< 2

def tableName : Bytes := lit "buddynet"

/-- `chainName` and `fwdChainName`. -/
def chainName : Chain → Bytes
  | .input => lit "in"
  | .forward => lit "fwd"

section Code

variable (e : Endian)

/-! ### Attributes -/

def nlAttr (typ : UInt16) (data : Bytes) : Bytes := attr e typ data

def nlAttrBE32 (typ : UInt16) (v : ℕ) : Bytes := nlAttr e typ (put .big 4 v)

def nlAttrStrZ (typ : UInt16) (s : Bytes) : Bytes := nlAttr e typ (s ++ [0])

def nlNested (typ : UInt16) (payload : Bytes) : Bytes := nlAttr e (typ ||| nlaFNested) payload

/-! ### Expressions -/

def expr (name data : Bytes) : Bytes :=
  -- nftaListElem; nftaExprName, nftaExprData
  nlNested e 1 (nlAttrStrZ e 1 name ++ nlNested e 2 data)

def dataValue (typ : UInt16) (b : Bytes) : Bytes := nlNested e typ (nlAttr e 1 b)

def exprCmp (op : ℕ) (value : Bytes) : Bytes :=
  -- nftaCmpSreg, nftaCmpOp, nftaCmpData
  expr e (lit "cmp") (nlAttrBE32 e 1 nftReg1 ++ nlAttrBE32 e 2 op ++ dataValue e 3 value)

/-- A `meta` expression. -/
def exprMeta (key : ℕ) : Bytes :=
  -- nftaMetaDreg, nftaMetaKey
  expr e (lit "meta") (nlAttrBE32 e 1 nftReg1 ++ nlAttrBE32 e 2 key)

/-- A name in the register layout of `iifname`. -/
def padded (name : Bytes) : Bytes := (name ++ List.replicate ifNameSize 0).take ifNameSize

/-- `exprsIifname`; the key is `nftMetaIifname`. -/
def exprsIifname (name : Bytes) : Bytes := exprMeta e 6 ++ exprCmp e 0 (padded name)

/-- `exprsL4Proto`; the key is `nftMetaL4Proto`. -/
def exprsL4Proto (proto : UInt8) : Bytes := exprMeta e 16 ++ exprCmp e 0 [proto]

def exprsDport (port : UInt16) : Bytes :=
  -- nftaPayloadDreg, nftaPayloadBase, nftaPayloadOffset, nftaPayloadLen
  expr e (lit "payload")
    (nlAttrBE32 e 1 nftReg1 ++ nlAttrBE32 e 2 2 ++ nlAttrBE32 e 3 2 ++ nlAttrBE32 e 4 2) ++
    exprCmp e 0 (put .big 2 port.toNat)

def exprsCtStateEstRel : Bytes :=
  let mask := put e 4 (ctStateEstablished ||| ctStateRelated)
  -- nftaCtDreg, nftaCtKey
  expr e (lit "ct") (nlAttrBE32 e 1 nftReg1 ++ nlAttrBE32 e 2 0) ++
    -- nftaBitwiseSreg, nftaBitwiseDreg, nftaBitwiseLen, nftaBitwiseMask, nftaBitwiseXor
    expr e (lit "bitwise") (nlAttrBE32 e 1 nftReg1 ++ nlAttrBE32 e 2 nftReg1 ++ nlAttrBE32 e 3 4 ++
      dataValue e 4 mask ++ dataValue e 5 (List.replicate 4 0)) ++
    exprCmp e 1 (List.replicate 4 0)

def exprVerdict (code : ℕ) : Bytes :=
  -- nftaDataVerdict, nftaVerdictCode; nftaImmediateDreg, nftaImmediateData
  let verdict := nlNested e 2 (nlAttrBE32 e 1 code)
  expr e (lit "immediate") (nlAttrBE32 e 1 nftRegVerdict ++ nlNested e 2 verdict)

/-- `ruleExprs`; 1 and 58 are `IPPROTO_ICMP` and `IPPROTO_ICMPV6`. -/
def ruleExprs (ifName : Bytes) (s : Scope) : List Bytes :=
  if s.all then []
  else [exprsIifname e ifName ++ exprsCtStateEstRel e ++ exprVerdict e nfAccept] ++
    s.ports.map (fun p => exprsIifname e ifName ++ exprsL4Proto e p.proto.number ++
      exprsDport e p.port ++ exprVerdict e nfAccept) ++
    [exprsIifname e ifName ++ exprsL4Proto e 1 ++ exprVerdict e nfAccept,
      exprsIifname e ifName ++ exprsL4Proto e 58 ++ exprVerdict e nfAccept,
      exprsIifname e ifName ++ exprVerdict e nfDrop]

def forwardExprs (ifName : Bytes) : List Bytes := [exprsIifname e ifName ++ exprVerdict e nfDrop]

/-! ### Messages -/

def nftMessage (msgType flags : UInt16) (seq : UInt32) (family : UInt8) (attrs : Bytes) : Bytes :=
  message e ⟨msgType, flags, seq, 0, [family, 0, 0, 0] ++ attrs⟩

/-- Bytes written over others. -/
def overwrite (out : Bytes) (i : ℕ) (bs : Bytes) : Bytes :=
  out.take i ++ bs ++ out.drop (i + bs.length)

def batchDelim (msgType : UInt16) (seq : UInt32) : Bytes :=
  overwrite (nftMessage e msgType nlmFRequest seq 0 []) 18 (put .big 2 nfnlSubsysNftables.toNat)

/-- The type of a message to the subsystem. -/
def nft (msg : UInt16) : UInt16 := nfnlSubsysNftables <<< 8 ||| msg

/-- The batch so far, the number of its last message, and where that begins. -/
structure Builder where
  out : Bytes
  seq : UInt32
  lastInner : ℕ

/-- `appendMsg` of a message with the `next` number. -/
def Builder.appendMsg (b : Builder) (msgType flags : UInt16) (attrs : Bytes) : Builder :=
  ⟨b.out ++ nftMessage e msgType flags (b.seq + 1) nfprotoInet attrs, b.seq + 1, b.out.length⟩

/-- `NLM_F_REQUEST|NLM_F_CREATE`. -/
def create : UInt16 := nlmFRequest ||| nlmFCreate

/-- The attributes of `newChain`. -/
def chainAttrs (name : Bytes) (hookNum : ℕ) : Bytes :=
  -- nftaHookHooknum, nftaHookPriority
  let hook := nlAttrBE32 e 1 hookNum ++ nlAttrBE32 e 2 0
  -- nftaChainTable, nftaChainName, nftaChainHook, nftaChainPolicy, nftaChainType
  nlAttrStrZ e 1 tableName ++ nlAttrStrZ e 3 name ++ nlNested e 4 hook ++
    nlAttrBE32 e 5 nfAccept ++ nlAttrStrZ e 7 (lit "filter")

/-- The attributes of a rule. -/
def ruleAttrs (chain : Chain) (exprs : Bytes) : Bytes :=
  -- nftaRuleTable, nftaRuleChain, nftaRuleExpressions
  nlAttrStrZ e 1 tableName ++ nlAttrStrZ e 2 (chainName chain) ++ nlNested e 4 exprs

/-- `appendRules`. -/
def Builder.appendRules (b : Builder) (chain : Chain) (rules : List Bytes) : Builder :=
  rules.foldl (fun b exprs =>
    b.appendMsg e (nft nftMsgNewRule) (create ||| nlmFAppend) (ruleAttrs e chain exprs)) b

def buildBatch (scopes : AList fun _ : Bytes => Scope) (order : List Bytes) : Bytes :=
  let b : Builder := ⟨batchDelim e nfnlMsgBatchBegin 1, 1, 0⟩
  let tbl := nlAttrStrZ e 1 tableName
  let b := b.appendMsg e (nft nftMsgNewTable) create tbl
  let b := b.appendMsg e (nft nftMsgDelTable) nlmFRequest tbl
  let b :=
    if scopes.keys.length > 0 then
      let b := b.appendMsg e (nft nftMsgNewTable) create tbl
      let b := b.appendMsg e (nft nftMsgNewChain) create
        (chainAttrs e (chainName .input) nfInetLocalIn)
      let b := b.appendMsg e (nft nftMsgNewChain) create
        (chainAttrs e (chainName .forward) nfInetForward)
      order.foldl (fun b ifName =>
        (b.appendRules e .input (ruleExprs e ifName ((scopes.lookup ifName).getD {}))).appendRules e
          .forward (forwardExprs e ifName)) b
    else b
  -- the last inner message asks for an answer
  let flags := UInt16.ofNat (get e ((b.out.drop (b.lastInner + 6)).take 2))
  overwrite b.out (b.lastInner + 6) (put e 2 (flags ||| nlmFAck).toNat) ++
    batchDelim e nfnlMsgBatchEnd (b.seq + 1)

end Code

end BuddyNet.Nft.Wire
