import BuddyNet.Library.Nftables
import BuddyNet.Nft.Wire

/-!
# Rules as expressions

A rule is written by `ruleExprs` and `forwardExprs` as a text of expressions. Here is what the
kernel reads in that text (`reads_rule`) and what it then does with a packet (`evalRule_rule`): the
rule gives its verdict to the packets of its interface that meet its condition, and is passed over
by the others.
-/

namespace BuddyNet.Nft

open Netlink Nftables Wire List

/-! ### What a rule is for -/

/-- The destination port of a packet. -/
def dport (pkt : Packet) : Option ℕ :=
  pkt.transport.bind fun header =>
    if 4 ≤ header.length then some (get .big ((header.drop 2).take 2)) else none

/-- The condition of a rule. -/
def Match.holds (pkt : Packet) : Match → Bool
  | .any => true
  | .established => pkt.ct = .established || pkt.ct = .related
  | .port p => pkt.l4proto = some p.proto.number && dport pkt = some p.port.toNat
  | .icmp => pkt.l4proto = some 1
  | .icmpv6 => pkt.l4proto = some 58

/-- The verdict of a rule. -/
def Rule.decision (r : Rule) : Verdict := if r.accept then .accept else .drop

/-- A rule on a packet. -/
def Rule.verdict (pkt : Packet) (r : Rule) : Option Verdict :=
  if pkt.iif.name = r.ifName && r.cond.holds pkt then some r.decision else none

/-! ### The expressions of a rule -/

/-- The text of a condition. -/
def Match.wire (e : Endian) : Match → Bytes
  | .any => []
  | .established => exprsCtStateEstRel e
  | .port p => exprsL4Proto e p.proto.number ++ exprsDport e p.port
  | .icmp => exprsL4Proto e 1
  | .icmpv6 => exprsL4Proto e 58

/-- The text of a rule. -/
def Rule.wire (e : Endian) (r : Rule) : Bytes :=
  exprsIifname e r.ifName ++ r.cond.wire e ++ exprVerdict e (if r.accept then nfAccept else nfDrop)

theorem ruleExprs_wire (e : Endian) (ifName : Bytes) (s : Scope) :
    Wire.ruleExprs e ifName s = (Nft.ruleExprs ifName s).map (Rule.wire e) := by
  unfold Wire.ruleExprs Nft.ruleExprs
  split_ifs with hall
  · rfl
  · simp only [map_append, map_cons, map_nil, map_map, Function.comp_def,
      Rule.wire, Match.wire, append_assoc, nil_append, if_true, if_false,
      Bool.false_eq_true]

theorem forwardExprs_wire (e : Endian) (ifName : Bytes) :
    Wire.forwardExprs e ifName = (Nft.forwardExprs ifName).map (Rule.wire e) := by
  simp only [Wire.forwardExprs, Nft.forwardExprs, map_cons, map_nil, Rule.wire,
    Match.wire, append_nil, if_false, Bool.false_eq_true]

/-- The test of the interface. -/
def iifnameExprs (name : Bytes) : List Expr := [.loadMeta .iifname 1, .cmp 1 true (padded name)]

/-- The test of the protocol. -/
def l4protoExprs (proto : UInt8) : List Expr := [.loadMeta .l4proto 1, .cmp 1 true [proto]]

/-- The test of the port. -/
def dportExprs (port : UInt16) : List Expr :=
  [.payload 1 2 2, .cmp 1 true (put .big 2 port.toNat)]

/-- The test of the state. -/
def ctStateExprs (e : Endian) : List Expr :=
  [.ctState 1, .bitwise 1 1 (put e 4 6) (List.replicate 4 0), .cmp 1 false (List.replicate 4 0)]

/-- The expressions of a condition. -/
def Match.exprs (e : Endian) : Match → List Expr
  | .any => []
  | .established => ctStateExprs e
  | .port p => l4protoExprs p.proto.number ++ dportExprs p.port
  | .icmp => l4protoExprs 1
  | .icmpv6 => l4protoExprs 58

/-- The expressions of a rule. -/
def Rule.exprs (e : Endian) (r : Rule) : List Expr :=
  iifnameExprs r.ifName ++ r.cond.exprs e ++ [.immediate r.decision]

/-! ### Lengths -/

variable {e : Endian}

section

variable (e : Endian)

section

variable (typ : UInt16)

@[simp] theorem nlAttr_length (data : Bytes) :
    (nlAttr e typ data).length = align (4 + data.length) := attr_length e typ data

@[simp] theorem nlAttrBE32_length (v : ℕ) : (nlAttrBE32 e typ v).length = 8 := by
  simp [nlAttrBE32, align]

@[simp] theorem nlAttrStrZ_length (s : Bytes) :
    (nlAttrStrZ e typ s).length = align (5 + s.length) := by
  simp [nlAttrStrZ, Nat.add_comm]

@[simp] theorem nlNested_length (payload : Bytes) :
    (nlNested e typ payload).length = align (4 + payload.length) := nlAttr_length e _ payload

@[simp] theorem dataValue_length (b : Bytes) :
    (dataValue e typ b).length = align (4 + align (4 + b.length)) := by
  simp [dataValue]

end

@[simp] theorem padded_length (name : Bytes) : (padded name).length = 16 := by
  simp [padded, ifNameSize]

/-- A rule fits into an attribute. -/
theorem Rule.wire_length_le (r : Rule) : (r.wire e).length ≤ 390 := by
  have hnames : (lit "meta").length = 4 ∧ (lit "cmp").length = 3 ∧ (lit "payload").length = 7 ∧
      (lit "ct").length = 2 ∧ (lit "bitwise").length = 7 ∧ (lit "immediate").length = 9 := by
    decide
  cases hcond : r.cond <;>
    simp [Rule.wire, hcond, Match.wire, exprsIifname, exprsCtStateEstRel, exprsL4Proto, exprsDport,
      exprVerdict, exprMeta, exprCmp, expr, hnames, align]

end

/-! ### Reading -/

variable {name : Bytes}

/-- A body that is read makes an expression that is read. -/
theorem reads_expr {data : Bytes} {x : Expr} (hname : name.length ≤ 16)
    (hdata : data.length ≤ 256) (h : readExpr e name (attrs e data) = some x) :
    Reads e (expr e name data) [x] := by
  have hlen := align_lt (5 + name.length)
  have hlen' := align_lt (4 + data.length)
  refine reads_elem ?_ ?_
  · rw [length_append, nlAttrStrZ_length, nlNested_length]
    omega
  · have hattrs : attrs e (nlAttrStrZ e 1 name ++ nlNested e 2 data) =
        [(1, name ++ [0]), (2 ||| nlaFNested, data)] := by
      rw [nlAttrStrZ, nlAttr, attrs_attr_append, nlNested, nlAttr, attrs_attr]
      · omega
      · rw [length_append, length_singleton]
        omega
    have htext : text [(1, name ++ [0]), (2 ||| nlaFNested, data)] 1 = some name :=
      text_of_field rfl
    have hnested : nested e [(1, name ++ [0]), (2 ||| nlaFNested, data)] 2 = some (attrs e data) :=
      nested_of_field rfl
    unfold readElem
    dsimp only
    rw [hattrs, htext, hnested]
    exact (if_pos (by decide)).trans h

@[simp] theorem attrs_BE32_append (typ : UInt16) (v : ℕ) (rest : Bytes) :
    attrs e (nlAttrBE32 e typ v ++ rest) = (typ, put .big 4 v) :: attrs e rest :=
  attrs_attr_append (by rw [put_length]; decide) rest

@[simp] theorem attrs_BE32 (typ : UInt16) (v : ℕ) :
    attrs e (nlAttrBE32 e typ v) = [(typ, put .big 4 v)] :=
  attrs_attr (by rw [put_length]; decide)

variable {b payload : Bytes}

@[simp] theorem attrs_nested_append (h : payload.length < 65532) (typ : UInt16) (rest : Bytes) :
    attrs e (nlNested e typ payload ++ rest) = (typ ||| nlaFNested, payload) :: attrs e rest :=
  attrs_attr_append h rest

@[simp] theorem attrs_nested (h : payload.length < 65532) (typ : UInt16) :
    attrs e (nlNested e typ payload) = [(typ ||| nlaFNested, payload)] := attrs_attr h

/-- The operator of a comparison. -/
def cmpOp (equal : Bool) : ℕ := if equal then 0 else 1

theorem reads_cmp (equal : Bool) {v : Bytes} (hv : 0 < v.length ∧ v.length ≤ 16) :
    Reads e (exprCmp e (cmpOp equal) v) [.cmp 1 equal v] := by
  have hlen := align_lt (4 + v.length)
  have hlen' := align_lt (4 + align (4 + v.length))
  refine reads_expr (by decide) ?_ ?_
  · simp only [length_append, nlAttrBE32_length, dataValue_length]
    omega
  · rw [append_assoc, attrs_BE32_append, attrs_BE32_append, dataValue,
      attrs_nested (by rw [nlAttr_length]; omega)]
    change readCmp e _ = _
    have hop : cmpOp equal < 4294967296 := by cases equal <;> decide
    rw [readCmp, reg_of_field rfl (by decide), be32_of_field rfl hop, value_of_field rfl hv]
    cases equal <;> rfl

theorem reads_meta {key : ℕ} {k : MetaKey} (h : key = 6 ∧ k = .iifname ∨ key = 16 ∧ k = .l4proto) :
    Reads e (exprMeta e key) [.loadMeta k 1] := by
  refine reads_expr (by decide) (by simp) ?_
  rw [attrs_BE32_append, attrs_BE32]
  change readMeta _ = _
  rcases h with ⟨rfl, rfl⟩ | ⟨rfl, rfl⟩
  all_goals
    rw [readMeta, reg_of_field rfl (by decide), be32_of_field rfl (by decide)]
    rfl

theorem reads_iifname (name : Bytes) : Reads e (exprsIifname e name) (iifnameExprs name) :=
  (reads_meta (Or.inl ⟨rfl, rfl⟩)).append (reads_cmp true (by simp))

theorem reads_l4proto (proto : UInt8) : Reads e (exprsL4Proto e proto) (l4protoExprs proto) :=
  (reads_meta (Or.inr ⟨rfl, rfl⟩)).append (reads_cmp true (by simp))

theorem reads_dport (port : UInt16) : Reads e (exprsDport e port) (dportExprs port) := by
  refine Reads.append (reads_expr (by decide) (by simp) ?_) (reads_cmp true (by simp))
  simp only [append_assoc, attrs_BE32_append, attrs_BE32]
  rfl

theorem reads_ctState : Reads e (exprsCtStateEstRel e) (ctStateExprs e) := by
  refine Reads.append (Reads.append (reads_expr (by decide) (by simp) ?_)
    (reads_expr (by decide) (by simp [align]) ?_)) (reads_cmp false (by decide))
  · rw [attrs_BE32_append, attrs_BE32]
    rfl
  · simp only [append_assoc, attrs_BE32_append, dataValue]
    rw [attrs_nested_append (by simp [align]), attrs_nested (by simp [align])]
    change readBitwise e _ = _
    rw [readBitwise, value_of_field (v := put e 4 6) rfl (by simp), value_of_field rfl (by decide)]
    exact if_pos ⟨put_length _ _ _, rfl⟩

theorem reads_verdict (accept : Bool) :
    Reads e (exprVerdict e (if accept then nfAccept else nfDrop))
      [.immediate (if accept then .accept else .drop)] := by
  generalize hcode : (if accept then nfAccept else nfDrop) = code
  refine reads_expr (by decide) (by simp [align]) ?_
  have hdata : nested e [(1, put .big 4 nftRegVerdict),
      (2 ||| nlaFNested, nlNested e 2 (nlAttrBE32 e 1 code))] 2 =
        some [(2 ||| nlaFNested, nlAttrBE32 e 1 code)] := by
    rw [nested_of_field rfl, attrs_nested (by simp)]
  have hverdict : nested e [(2 ||| nlaFNested, nlAttrBE32 e 1 code)] 2 =
      some [(1, put .big 4 code)] := by
    rw [nested_of_field rfl, attrs_BE32]
  have hnum : code < 4294967296 := by rw [← hcode]; cases accept <;> decide
  rw [attrs_BE32_append, attrs_nested (by simp [align])]
  change readImmediate e _ = _
  rw [readImmediate, be32_of_field rfl (by decide), hdata]
  simp only [Option.bind_eq_bind, Option.bind_some, hverdict]
  rw [be32_of_field rfl hnum, ← hcode]
  cases accept <;> rfl

theorem reads_match (m : Match) : Reads e (m.wire e) (m.exprs e) := by
  cases m with
  | any => exact reads_nil
  | established => exact reads_ctState
  | port p =>
    exact (reads_l4proto _).append (reads_dport _)
  | icmp => exact reads_l4proto 1
  | icmpv6 => exact reads_l4proto 58

/-- **The kernel reads the expressions of the rule.** -/
theorem reads_rule (r : Rule) : Reads e (r.wire e) (r.exprs e) :=
  ((reads_iifname _).append (reads_match _)).append (reads_verdict _)

/-! ### Meaning -/

/-- A name that an interface can have. -/
def ValidName (name : Bytes) : Prop := name.length ≤ 15 ∧ (0 : UInt8) ∉ name

instance decidableValidName (name : Bytes) : Decidable (ValidName name) :=
  inferInstanceAs (Decidable (_ ∧ _))

theorem padded_eq (h : name.length ≤ 15) :
    padded name = name ++ List.replicate (16 - name.length) 0 := by
  have htake : name.take ifNameSize = name := take_of_length_le (Nat.le_succ_of_le h)
  rw [padded, take_append, htake, take_replicate]
  congr 2
  unfold ifNameSize
  omega

theorem padded_inj {a : Bytes} (ha : ValidName a) (hb : ValidName b) (h : padded a = padded b) :
    a = b := by
  -- a name is what stands before the first zero byte
  have hname : ∀ {s : Bytes}, ValidName s → (padded s).takeWhile (· ≠ 0) = s := by
    intro s hs
    have hpos : 0 < 16 - s.length := by
      have := hs.1
      omega
    obtain ⟨n, hn⟩ := Nat.exists_eq_succ_of_ne_zero hpos.ne'
    have hall : ∀ c ∈ s, decide (c ≠ 0) = true := by
      intro c hc
      refine decide_eq_true ?_
      rintro rfl
      exact hs.2 hc
    rw [padded_eq hs.1, takeWhile_append_of_pos hall, hn, replicate_succ,
      takeWhile_cons_of_neg (by decide), append_nil]
  rw [← hname ha, h, hname hb]

theorem tests_iifname (h : ValidName name) :
    Tests e (iifnameExprs name) fun pkt => pkt.iif.name = name := by
  have hiif : ∀ pkt : Packet, pkt.iif.name ++ List.replicate (16 - pkt.iif.name.length) 0 =
      padded pkt.iif.name := fun pkt => (padded_eq pkt.iif.short).symm
  refine (tests_load (v := fun pkt => some (padded pkt.iif.name)) ?_ ?_).congr fun pkt => ?_
  · intro pkt regs
    rw [← hiif]
    rfl
  · rintro pkt bs ⟨⟩
    rw [padded_length, padded_length]
  · have htake : (padded pkt.iif.name).take (padded name).length = padded pkt.iif.name :=
      take_of_length_le (by rw [padded_length, padded_length])
    rw [Option.any_some, htake, beq_true, decide_eq_decide]
    exact ⟨padded_inj ⟨pkt.iif.short, pkt.iif.noNul⟩ h, congrArg padded⟩

theorem tests_l4proto (proto : UInt8) :
    Tests e (l4protoExprs proto) fun pkt => pkt.l4proto = some proto := by
  refine (tests_load (v := fun pkt => pkt.l4proto.map fun p => [p, 0, 0, 0]) ?_ ?_).congr
    fun pkt => ?_
  · intro pkt regs
    simp only [Expr.eval]
    cases pkt.l4proto <;> rfl
  · intro pkt bs hbs
    obtain ⟨p, -, rfl⟩ := Option.map_eq_some_iff.1 hbs
    exact Nat.le_add_left 1 3
  · cases pkt.l4proto with
    | none => rfl
    | some p => simp

theorem tests_dport (port : UInt16) :
    Tests e (dportExprs port) fun pkt =>
      pkt.l4proto.isSome && dport pkt = some port.toNat := by
  refine (tests_load (v := fun pkt => pkt.l4proto.bind fun _ => pkt.transport.bind fun header =>
    if 4 ≤ header.length then some ((header.drop 2).take 2 ++ [0, 0]) else none) ?_ ?_).congr
    fun pkt => ?_
  · intro pkt regs
    simp only [Expr.eval]
    cases pkt.l4proto with
    | none => rfl
    | some p =>
      cases pkt.transport with
      | none => rfl
      | some header =>
        simp only [Option.bind_some]
        split_ifs <;> rfl
  · intro pkt bs hbs
    obtain ⟨_, -, hbs⟩ := Option.bind_eq_some_iff.1 hbs
    obtain ⟨header, -, hbs⟩ := Option.bind_eq_some_iff.1 hbs
    split_ifs at hbs with hlen
    cases hbs
    simp only [put_length, length_append, length_take, length_drop, length_cons, length_nil]
    omega
  · unfold dport
    cases pkt.l4proto with
    | none => rfl
    | some p =>
      cases pkt.transport with
      | none => rfl
      | some header =>
        simp only [Option.bind_some, Option.isSome_some, Bool.true_and]
        split_ifs with hlen
        · have hport : ((header.drop 2).take 2).length = (put .big 2 port.toNat).length := by
            rw [put_length, length_take, length_drop]
            omega
          rw [Option.any_some, ← hport, take_left, beq_true, decide_eq_decide, Option.some.injEq]
          constructor
          · intro hbytes
            rw [hbytes, get_put port.toNat_lt]
          · intro hnum
            refine get_inj (e := .big) hport ?_
            rw [hnum, get_put port.toNat_lt]
        · rfl

theorem tests_ctState : Tests e (ctStateExprs e) fun pkt =>
    pkt.ct = .established || pkt.ct = .related := by
  refine (tests_load_bitwise (v := fun pkt => put e 4 pkt.ct.bit) (fun _ _ => rfl) ?_ ?_ ?_).congr
    fun pkt => ?_
  · intro pkt
    rw [put_length, put_length]
  · rw [put_length, length_replicate]
  · rw [put_length, length_replicate]
  · cases e <;> cases pkt.ct <;> decide

theorem tests_match (m : Match) : Tests e (m.exprs e) fun pkt => m.holds pkt := by
  cases m with
  | any => exact tests_nil
  | established => exact tests_ctState
  | port p =>
    refine ((tests_l4proto _).append (tests_dport _)).congr fun pkt => ?_
    unfold Match.holds
    cases pkt.l4proto <;> simp
  | icmp => exact tests_l4proto 1
  | icmpv6 => exact tests_l4proto 58

/-- **A rule decides about the packets it is for**, whatever the rules before it have loaded. -/
theorem evalRule_rule {r : Rule} (h : ValidName r.ifName) (pkt : Packet) (regs : Regs) :
    (evalRule e pkt (r.exprs e) regs).1 = r.verdict pkt :=
  ((tests_iifname h).append (tests_match r.cond)).verdict r.decision pkt regs

end BuddyNet.Nft
