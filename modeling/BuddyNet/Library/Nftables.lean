import BuddyNet.Library.Netlink

/-!
# Nftables

The receiving side of `NETLINK_NETFILTER`: a batch is read message by message, builds tables of base
chains, and takes effect as a whole or not at all; a rule is a list of expressions that load, change
and compare registers until one of them breaks off or gives a verdict. What the kernel offers beyond
the messages and the expressions below is refused.

* `Reads`: a text is a list of expressions, whatever follows.
* `Tests`: a list of expressions lets exactly the packets of a condition through to what follows.
* `evalRules_map`: the first rule with a verdict decides.
-/

namespace Nftables

open Netlink List

/-! ### Packets -/

/-- The name of an interface: a C string in sixteen bytes. -/
structure IfName where
  name : List UInt8
  short : name.length ≤ 15
  noNul : (0 : UInt8) ∉ name

/-- What connection tracking says of a packet. -/
inductive CtState where
  | invalid
  | established
  | related
  | new
  | untracked
  deriving DecidableEq

/-- The bit of a state. -/
def CtState.bit : CtState → ℕ
  | .invalid => 1
  | .established => 2
  | .related => 4
  | .new => 8
  | .untracked => 64

/-- What the expressions see of a packet. There is no protocol when its headers are malformed, and
no transport header in later fragments either. -/
structure Packet where
  iif : IfName
  l4proto : Option UInt8
  transport : Option (List UInt8)
  ct : CtState

/-! ### Rules -/

/-- What becomes of a packet. -/
inductive Verdict where
  | accept
  | drop
  deriving DecidableEq

/-- What `meta` loads. -/
inductive MetaKey where
  | iifname
  | l4proto
  deriving DecidableEq

/-- An expression. -/
inductive Expr where
  | loadMeta (key : MetaKey) (dreg : ℕ)
  | cmp (sreg : ℕ) (equal : Bool) (data : List UInt8)
  /-- From the transport header. -/
  | payload (dreg offset len : ℕ)
  | ctState (dreg : ℕ)
  | bitwise (sreg dreg : ℕ) (mask xor : List UInt8)
  | immediate (v : Verdict)
  deriving DecidableEq

/-- The registers. -/
abbrev Regs := ℕ → List UInt8

/-- Write to the front of a register. -/
def store (regs : Regs) (r : ℕ) (bs : List UInt8) : Regs :=
  Function.update regs r (bs ++ (regs r).drop bs.length)

/-- What an expression does: go on, break off the rule, or decide. -/
inductive Step where
  | next (regs : Regs)
  | stop (regs : Regs)
  | done (v : Verdict)

/-- An expression on a packet; `e` is the order of the host. -/
def Expr.eval (e : Endian) (pkt : Packet) (regs : Regs) : Expr → Step
  | .loadMeta .iifname dreg =>
    .next (store regs dreg (pkt.iif.name ++ replicate (16 - pkt.iif.name.length) 0))
  | .loadMeta .l4proto dreg =>
    match pkt.l4proto with
    | some p => .next (store regs dreg [p, 0, 0, 0])
    | none => .stop regs
  | .cmp sreg equal data =>
    if decide ((regs sreg).take data.length = data) = equal then .next regs else .stop regs
  | .payload dreg offset len =>
    match pkt.l4proto, pkt.transport with
    | some _, some header =>
      if offset + len ≤ header.length then
        .next (store regs dreg
          ((header.drop offset).take len ++ replicate (align len - len) 0))
      else .stop regs
    | _, _ => .stop regs
  | .ctState dreg => .next (store regs dreg (put e 4 pkt.ct.bit))
  | .bitwise sreg dreg mask xor =>
    .next (store regs dreg
      (zipWith (· ^^^ ·) (zipWith (· &&& ·) (regs sreg) mask) xor))
  | .immediate v => .done v

/-- A rule on a packet, with the registers it leaves. -/
def evalRule (e : Endian) (pkt : Packet) : List Expr → Regs → Option Verdict × Regs
  | [], regs => (none, regs)
  | x :: xs, regs =>
    match x.eval e pkt regs with
    | .next regs => evalRule e pkt xs regs
    | .stop regs => (none, regs)
    | .done v => (some v, regs)

/-- Rules in order; the first verdict decides. -/
def evalRules (e : Endian) (pkt : Packet) : List (List Expr) → Regs → Option Verdict
  | [], _ => none
  | rule :: rules, regs =>
    match evalRule e pkt rule regs with
    | (some v, _) => some v
    | (none, regs) => evalRules e pkt rules regs

/-! ### Tables -/

/-- A base chain. -/
structure BaseChain where
  name : List UInt8
  hook : ℕ
  policy : Verdict
  rules : List (List Expr)

/-- A table. -/
abbrev Table := List BaseChain

/-- The tables by family and name. -/
abbrev Kernel := UInt8 × List UInt8 → Option Table

/-- The verdict of a chain. -/
def BaseChain.verdict (e : Endian) (c : BaseChain) (pkt : Packet) : Verdict :=
  (evalRules e pkt c.rules fun _ => replicate 16 0).getD c.policy

/-- A packet passes a hook when no chain there drops it. -/
def Table.accepts (e : Endian) (t : Table) (hook : ℕ) (pkt : Packet) : Bool :=
  t.all fun c => c.hook ≠ hook || c.verdict e pkt = .accept

/-! ### Reading expressions -/

/-- The bytes of a text. -/
def chars (s : String) : List UInt8 := s.toList.flatMap String.utf8EncodeChar

/-- Attributes as they are read. -/
abbrev Attrs := List (UInt16 × List UInt8)

/-- A number in network order. -/
def be32 (l : Attrs) (typ : UInt16) : Option ℕ :=
  (field typ l).bind fun d => if d.length = 4 then some (get .big d) else none

/-- A text; the zero byte at its end is not part of it. -/
def text (l : Attrs) (typ : UInt16) : Option (List UInt8) :=
  (field typ l).map fun d => if d.getLast? = some 0 then d.dropLast else d

/-- Attributes in an attribute. -/
def nested (e : Endian) (l : Attrs) (typ : UInt16) : Option Attrs := (field typ l).map (attrs e)

/-- One of the four data registers. -/
def reg (l : Attrs) (typ : UInt16) : Option ℕ :=
  (be32 l typ).bind fun r => if 1 ≤ r ∧ r ≤ 4 then some r else none

/-- A value for a register. -/
def value (e : Endian) (l : Attrs) (typ : UInt16) : Option (List UInt8) :=
  (nested e l typ).bind fun d => (field 1 d).bind fun v =>
    if 0 < v.length ∧ v.length ≤ 16 then some v else none

/-- The body of a `meta` expression. -/
def readMeta (l : Attrs) : Option Expr := do
  let dreg ← reg l 1
  let key ← be32 l 2
  if key = 6 then some (.loadMeta .iifname dreg)
  else if key = 16 then some (.loadMeta .l4proto dreg)
  else none

/-- The body of a `cmp` expression. -/
def readCmp (e : Endian) (l : Attrs) : Option Expr := do
  let sreg ← reg l 1
  let op ← be32 l 2
  let data ← value e l 3
  if op = 0 then some (.cmp sreg true data)
  else if op = 1 then some (.cmp sreg false data)
  else none

/-- The body of a `payload` expression. -/
def readPayload (l : Attrs) : Option Expr := do
  let dreg ← reg l 1
  let base ← be32 l 2
  let offset ← be32 l 3
  let len ← be32 l 4
  if base = 2 ∧ 0 < len ∧ len ≤ 16 then some (.payload dreg offset len) else none

/-- The body of a `ct` expression. -/
def readCt (l : Attrs) : Option Expr := do
  let dreg ← reg l 1
  let key ← be32 l 2
  if key = 0 then some (.ctState dreg) else none

/-- The body of a `bitwise` expression. -/
def readBitwise (e : Endian) (l : Attrs) : Option Expr := do
  let sreg ← reg l 1
  let dreg ← reg l 2
  let len ← be32 l 3
  let mask ← value e l 4
  let xor ← value e l 5
  if mask.length = len ∧ xor.length = len then some (.bitwise sreg dreg mask xor) else none

/-- The code of a verdict. -/
def readVerdict (code : ℕ) : Option Verdict :=
  if code = 0 then some .drop else if code = 1 then some .accept else none

/-- The body of an `immediate` expression; only verdicts are loaded. -/
def readImmediate (e : Endian) (l : Attrs) : Option Expr := do
  let dreg ← be32 l 1
  let data ← nested e l 2
  let verdict ← nested e data 2
  let code ← be32 verdict 1
  if dreg = 0 then (readVerdict code).map .immediate else none

/-- The body of an expression. -/
def readExpr (e : Endian) (name : List UInt8) (l : Attrs) : Option Expr :=
  if name = chars "meta" then readMeta l
  else if name = chars "cmp" then readCmp e l
  else if name = chars "payload" then readPayload l
  else if name = chars "ct" then readCt l
  else if name = chars "bitwise" then readBitwise e l
  else if name = chars "immediate" then readImmediate e l
  else none

/-- An element of the list of expressions. -/
def readElem (e : Endian) (a : UInt16 × List UInt8) : Option Expr := do
  let l := attrs e a.2
  let name ← text l 1
  let body ← nested e l 2
  if a.1 &&& 0x3fff = 1 then readExpr e name body else none

/-- The expressions of a rule. -/
def readExprs (e : Endian) (bs : List UInt8) : Option (List Expr) :=
  (attrs e bs).mapM (readElem e)

/-! ### Reading messages -/

/-- `NLM_F_REQUEST`, `NLM_F_REPLACE`, `NLM_F_EXCL`, `NLM_F_CREATE` and `NLM_F_APPEND` are set. -/
def has (m : Message) (flag : UInt16) : Bool := m.flags &&& flag ≠ 0

/-- A table is added, or is there already. -/
def newTable (k : Kernel) (m : Message) (family : UInt8) (l : Attrs) : Option Kernel := do
  let name ← text l 1
  match k (family, name) with
  | some _ => if has m 0x200 || has m 0x100 then none else some k
  | none => some (Function.update k (family, name) (some []))

/-- A table is removed with all it has. -/
def delTable (k : Kernel) (family : UInt8) (l : Attrs) : Option Kernel := do
  let name ← text l 1
  let _ ← k (family, name)
  some (Function.update k (family, name) none)

/-- A base chain of type `filter` is added. -/
def newChain (e : Endian) (k : Kernel) (family : UInt8) (l : Attrs) : Option Kernel := do
  let table ← text l 1
  let t ← k (family, table)
  let name ← text l 3
  let hook ← nested e l 4
  let hooknum ← be32 hook 1
  let _priority ← be32 hook 2
  let policy ← (be32 l 5).bind readVerdict
  let type ← text l 7
  if type = chars "filter" ∧ ∀ c ∈ t, c.name ≠ name then
    some (Function.update k (family, table) (some (t ++ [⟨name, hooknum, policy, []⟩])))
  else none

/-- A rule is added to a chain, at its end or at its front. -/
def newRule (e : Endian) (k : Kernel) (m : Message) (family : UInt8) (l : Attrs) :
    Option Kernel := do
  let table ← text l 1
  let t ← k (family, table)
  let chain ← text l 2
  let exprs ← (field 4 l).bind (readExprs e)
  if has m 0x400 ∧ ¬ has m 0x100 ∧ field 3 l = none ∧ field 6 l = none ∧
      ∃ c ∈ t, c.name = chain then
    some (Function.update k (family, table) (some (t.map fun c =>
      if c.name = chain then
        { c with rules := if has m 0x800 then c.rules ++ [exprs] else exprs :: c.rules }
      else c)))
  else none

/-- A message inside a batch. -/
def handle (e : Endian) (k : Kernel) (m : Message) : Option Kernel :=
  let family := m.body.headD 0
  let l := attrs e (m.body.drop 4)
  if m.typ = 0xa00 then newTable k m family l
  else if m.typ = 0xa02 then delTable k family l
  else if m.typ = 0xa03 then newChain e k family l
  else if m.typ = 0xa06 then newRule e k m family l
  else none

/-- The messages after the beginning of a batch. Without its end, or when one of them is refused,
nothing happens. -/
def runBatch (e : Endian) : List Message → Kernel → Option Kernel
  | [], _ => none
  | m :: ms, k =>
    if m.body.length < 4 ∨ ¬ has m 1 then none
    else if m.typ = 0x11 then some k
    else (handle e k m).bind (runBatch e ms)

/-- A batch for the nftables subsystem. -/
def receive (e : Endian) (k : Kernel) (bs : List UInt8) : Option Kernel :=
  match messages e bs with
  | [] => none
  | m :: ms =>
    if m.typ = 0x10 ∧ (m.body.drop 2).take 2 = put .big 2 10 then runBatch e ms k else none

/-! ### Texts of expressions -/

variable {e : Endian}

/-- The text is a list of expressions, whatever follows. -/
def Reads (e : Endian) (bs : List UInt8) (xs : List Expr) : Prop :=
  ∀ rest, readExprs e (bs ++ rest) = (readExprs e rest).map (xs ++ ·)

theorem reads_nil : Reads e [] [] := by
  intro rest
  rw [nil_append]
  cases readExprs e rest <;> rfl

variable {bs : List UInt8} {xs : List Expr}

theorem Reads.append {bs' : List UInt8} {xs' : List Expr} (h : Reads e bs xs)
    (h' : Reads e bs' xs') : Reads e (bs ++ bs') (xs ++ xs') := by
  intro rest
  rw [append_assoc, h, h', Option.map_map]
  congr 1
  funext ys
  exact (append_assoc xs xs' ys).symm

variable {x : Expr} {typ : UInt16}

theorem reads_elem {body : List UInt8} (hlen : body.length < 65532)
    (h : readElem e (typ, body) = some x) : Reads e (attr e typ body) [x] := by
  intro rest
  rw [readExprs, attrs_attr_append hlen, mapM_cons, h, ← readExprs]
  cases readExprs e rest <;> rfl

theorem Reads.readExprs (h : Reads e bs xs) : readExprs e bs = some xs := by
  have hnil : Nftables.readExprs e [] = some [] := by
    rw [Nftables.readExprs, attrs_nil]
    rfl
  have hall := h []
  rwa [append_nil, hnil, Option.map_some, append_nil] at hall

variable {l : Attrs} {n : ℕ}

theorem be32_of_field (h : field typ l = some (put .big 4 n))
    (hn : n < 4294967296) : be32 l typ = some n := by
  rw [be32, h, Option.bind_some, if_pos (put_length _ _ _), get_put hn]

theorem reg_of_field (h : field typ l = some (put .big 4 n))
    (hn : 1 ≤ n ∧ n ≤ 4) : reg l typ = some n := by
  rw [reg, be32_of_field h (by omega), Option.bind_some, if_pos hn]

theorem text_of_field {s : List UInt8}
    (h : field typ l = some (s ++ [0])) : text l typ = some s := by
  rw [text, h, Option.map_some, getLast?_concat, if_pos rfl, dropLast_concat]

theorem nested_of_field {d : List UInt8} (h : field typ l = some d) :
    nested e l typ = some (attrs e d) := by
  rw [nested, h, Option.map_some]

theorem value_of_field {v : List UInt8}
    (h : field typ l = some (attr e 1 v)) (hv : 0 < v.length ∧ v.length ≤ 16) :
    value e l typ = some v := by
  rw [value, nested_of_field h, attrs_attr (by omega), Option.bind_some]
  exact if_pos hv

/-! ### What rules decide -/

variable {pkt : Packet} {regs : Regs}

/-- Exactly the packets of a condition come through to what follows. -/
def Tests (e : Endian) (xs : List Expr) (c : Packet → Bool) : Prop :=
  ∀ pkt regs, ∃ regs', ∀ rest, evalRule e pkt (xs ++ rest) regs =
    if c pkt then evalRule e pkt rest regs' else (none, regs')

variable {c : Packet → Bool} {d : Packet → Bool}

theorem Tests.append {ys : List Expr} (h : Tests e xs c)
    (h' : Tests e ys d) : Tests e (xs ++ ys) fun pkt => c pkt && d pkt := by
  intro pkt regs
  obtain ⟨regs₁, h₁⟩ := h pkt regs
  obtain ⟨regs₂, h₂⟩ := h' pkt regs₁
  cases hc : c pkt with
  | true =>
    refine ⟨regs₂, fun rest => ?_⟩
    simp only [append_assoc, h₁, h₂, hc, Bool.true_and, if_true]
  | false =>
    refine ⟨regs₁, fun rest => ?_⟩
    simp only [append_assoc, h₁, hc, Bool.false_and, Bool.false_eq_true, if_false]

theorem Tests.congr (h : Tests e xs c) (hcd : ∀ pkt, c pkt = d pkt) : Tests e xs d := by
  have hfun : c = d := funext hcd
  rwa [← hfun]

theorem tests_nil : Tests e [] fun _ => true := fun _ regs => ⟨regs, fun _ => rfl⟩

theorem Tests.verdict (h : Tests e xs c) (v : Verdict) (pkt : Packet) (regs : Regs) :
    (evalRule e pkt (xs ++ [.immediate v]) regs).1 = if c pkt then some v else none := by
  obtain ⟨regs', h'⟩ := h pkt regs
  rw [h']
  split_ifs <;> rfl

variable {r : ℕ}

theorem take_store (h : n ≤ bs.length) : (store regs r bs r).take n = bs.take n := by
  rw [store, Function.update_self, take_append_of_le_length h]

theorem eval_cmp (r : ℕ) (equal : Bool) (data : List UInt8) :
    (Expr.cmp r equal data).eval e pkt regs =
      if decide ((regs r).take data.length = data) = equal then .next regs else .stop regs := rfl

theorem tests_load {v : Packet → Option (List UInt8)} {equal : Bool} {data : List UInt8}
    (hx : ∀ pkt regs, x.eval e pkt regs =
    (v pkt).elim (.stop regs) fun bs => .next (store regs r bs))
    (hlen : ∀ pkt bs, v pkt = some bs → data.length ≤ bs.length) :
    Tests e [x, .cmp r equal data] fun pkt =>
      (v pkt).any fun bs => decide (bs.take data.length = data) == equal := by
  intro pkt regs
  cases hv : v pkt with
  | none =>
    refine ⟨regs, fun rest => ?_⟩
    simp only [cons_append, evalRule, hx, hv, Option.elim_none]
    rfl
  | some bs =>
    refine ⟨store regs r bs, fun rest => ?_⟩
    simp only [cons_append, nil_append, evalRule, hx, hv, Option.elim_some, eval_cmp,
      take_store (hlen pkt bs hv), Option.any_some, beq_iff_eq]
    split_ifs <;> rfl

theorem zipWith_append_left {f : UInt8 → UInt8 → UInt8} {a b c : List UInt8}
    (h : c.length ≤ a.length) : zipWith f (a ++ b) c = zipWith f a c := by
  induction a generalizing c with
  | nil => rw [eq_nil_of_length_eq_zero (Nat.le_zero.1 h), zipWith_nil_right,
      zipWith_nil_right]
  | cons x a ih =>
    cases c with
    | nil => rfl
    | cons y c => rw [cons_append, zipWith_cons_cons, zipWith_cons_cons,
        ih (Nat.le_of_succ_le_succ h)]

theorem eval_bitwise (s d : ℕ) (mask xor : List UInt8) :
    (Expr.bitwise s d mask xor).eval e pkt regs = .next (store regs d
      (zipWith (· ^^^ ·) (zipWith (· &&& ·) (regs s) mask) xor)) := rfl

theorem tests_load_bitwise {v : Packet → List UInt8} {equal : Bool} {mask xor data : List UInt8}
    (hx : ∀ pkt regs, x.eval e pkt regs = .next (store regs r (v pkt)))
    (hlen : ∀ pkt, mask.length ≤ (v pkt).length) (hxor : xor.length = mask.length)
    (hdata : data.length = mask.length) :
    Tests e [x, .bitwise r r mask xor, .cmp r equal data] fun pkt =>
      decide (zipWith (· ^^^ ·) (zipWith (· &&& ·) (v pkt) mask) xor =
    data) == equal := by
  intro pkt regs
  have hmask := hlen pkt
  have hreg : store regs r (v pkt) r = v pkt ++ (regs r).drop (v pkt).length :=
    Function.update_self _ _ _
  -- the comparison reads no further than the mask
  have htake : ∀ l : List UInt8, l = zipWith (· ^^^ ·)
      (zipWith (· &&& ·) (v pkt) mask) xor → l.take data.length = l := by
    intro l hl
    refine take_of_length_le ?_
    rw [hl, length_zipWith, length_zipWith]
    omega
  refine ⟨store (store regs r (v pkt)) r (zipWith (· ^^^ ·)
    (zipWith (· &&& ·) (v pkt) mask) xor), fun rest => ?_⟩
  simp only [cons_append, nil_append, evalRule, hx, eval_bitwise, eval_cmp, hreg,
    zipWith_append_left hmask, beq_iff_eq]
  rw [take_store (by rw [length_zipWith, length_zipWith]; omega), htake _ rfl]
  split_ifs <;> rfl

/-- The first rule with a verdict decides. -/
theorem evalRules_map {α : Type*} {rules : List α} {exprs : α → List Expr} {f : α → Option Verdict}
    (h : ∀ r ∈ rules, ∀ regs, (evalRule e pkt (exprs r) regs).1 = f r) (regs : Regs) :
    evalRules e pkt (rules.map exprs) regs = rules.findSome? f := by
  induction rules generalizing regs with
  | nil => rfl
  | cons r rules ih =>
    have hr := h r mem_cons_self regs
    rw [map_cons, evalRules, findSome?_cons]
    cases heval : evalRule e pkt (exprs r) regs with
    | mk v regs' =>
      rw [heval] at hr
      rw [← hr]
      cases v with
      | some v => rfl
      | none => exact ih (fun r' hr' => h r' (mem_cons_of_mem _ hr')) regs'

end Nftables
