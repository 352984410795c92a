import BuddyNet.Nft.Compile

/-!
# The batch as the kernel reads it

`buildBatch` writes the messages of a list of operations on the `buddynet` table (`plan`), the last
of them with a request for an answer. The kernel does them in order.

* `handle_op`: a message does its operation.
* `buildBatch_eq`, `messages_buildBatch`: the bytes are those of the plan.
* `receive_buildBatch`: the table that the batch leaves, whatever the kernel had before.
-/

namespace BuddyNet.Nft

open Netlink Nftables Wire List

/-! ### Operations -/

/-- What a message of the batch does. -/
inductive Op where
  | newTable
  | delTable
  | newChain (c : Chain)
  | newRule (r : Rule)

/-- The hook of a chain. -/
def Chain.hook : Chain → ℕ
  | .input => 1
  | .forward => 2

/-- The type of the message. -/
def Op.typ : Op → UInt16
  | .newTable => nft nftMsgNewTable
  | .delTable => nft nftMsgDelTable
  | .newChain _ => nft nftMsgNewChain
  | .newRule _ => nft nftMsgNewRule

/-- The flags of the message. -/
def Op.flags : Op → UInt16
  | .newTable => create
  | .delTable => nlmFRequest
  | .newChain _ => create
  | .newRule _ => create ||| nlmFAppend

/-- The attributes of the message. -/
def Op.attrs (e : Endian) : Op → Bytes
  | .newTable => nlAttrStrZ e 1 tableName
  | .delTable => nlAttrStrZ e 1 tableName
  | .newChain c => chainAttrs e (chainName c) c.hook
  | .newRule r => ruleAttrs e r.chain (r.wire e)

/-- The message, with its number, and whether it asks for an answer. -/
def Op.message (e : Endian) (seq : UInt32) (ack : Bool) (op : Op) : Message :=
  ⟨op.typ, if ack then op.flags ||| nlmFAck else op.flags, seq, 0,
    [nfprotoInet, 0, 0, 0] ++ op.attrs e⟩

/-- The place of the table in the kernel. -/
def tableKey : UInt8 × Bytes := (1, lit "buddynet")

/-- An added chain. -/
def emptyChain (c : Chain) : BaseChain := ⟨chainName c, c.hook, .accept, []⟩

/-- A chain after a rule was added. -/
def addRule (e : Endian) (r : Rule) (c : BaseChain) : BaseChain :=
  if c.name = chainName r.chain then { c with rules := c.rules ++ [r.exprs e] } else c

/-- What the operation does to the table. -/
def Op.run (e : Endian) (t : Option Table) : Op → Option (Option Table)
  | .newTable => some (some (t.getD []))
  | .delTable => t.map fun _ => none
  | .newChain c => t.bind fun t =>
      if ∀ c' ∈ t, c'.name ≠ chainName c then some (some (t ++ [emptyChain c])) else none
  | .newRule r => t.bind fun t =>
      if ∃ c ∈ t, c.name = chainName r.chain then some (some (t.map (addRule e r))) else none

/-- The operations of the batch. -/
def plan (scopes : AList fun _ : Bytes => Scope) (order : List Bytes) : List Op :=
  [.newTable, .delTable] ++
    if scopes.keys.length > 0 then
      [.newTable, .newChain .input, .newChain .forward] ++ (ruleset scopes order).map .newRule
    else []

/-! ### Messages -/

variable {e : Endian}

theorem attrs_StrZ_append {s : Bytes} (h : s.length ≤ 16) (typ : UInt16) (rest : Bytes) :
    attrs e (nlAttrStrZ e typ s ++ rest) = (typ, s ++ [0]) :: attrs e rest :=
  attrs_attr_append (by simp; omega) rest

theorem attrs_StrZ {s : Bytes} (h : s.length ≤ 16) (typ : UInt16) :
    attrs e (nlAttrStrZ e typ s) = [(typ, s ++ [0])] :=
  attrs_attr (by simp; omega)

theorem chainName_length (c : Chain) : (chainName c).length ≤ 16 := by
  cases c <;> decide

theorem chainName_inj {c c' : Chain} : chainName c = chainName c' ↔ c = c' := by
  cases c <;> cases c' <;> decide

theorem Chain.hook_lt (c : Chain) : c.hook < 4294967296 := by
  cases c <;> decide

theorem attrs_chain (c : Chain) : attrs e (chainAttrs e (chainName c) c.hook) =
    [(1, tableName ++ [0]), (3, chainName c ++ [0]),
      (4 ||| nlaFNested, nlAttrBE32 e 1 c.hook ++ nlAttrBE32 e 2 0), (5, put .big 4 nfAccept),
      (7, lit "filter" ++ [0])] := by
  unfold chainAttrs
  simp only [append_assoc]
  rw [attrs_StrZ_append (by decide), attrs_StrZ_append (chainName_length c),
    attrs_nested_append (by simp), attrs_BE32_append, attrs_StrZ (by decide)]

theorem attrs_rule (r : Rule) : attrs e (ruleAttrs e r.chain (r.wire e)) =
    [(1, tableName ++ [0]), (2, chainName r.chain ++ [0]), (4 ||| nlaFNested, r.wire e)] := by
  have hlen := r.wire_length_le e
  unfold ruleAttrs
  rw [append_assoc, attrs_StrZ_append (by decide), attrs_StrZ_append (chainName_length _),
    attrs_nested (by omega)]

variable {k : Kernel} {seq : UInt32} {ack : Bool}

/-- The flags that the kernel looks at do not depend on the request for an answer. -/
theorem has_message (e : Endian) (seq : UInt32) (ack : Bool) (op : Op) :
    has (op.message e seq ack) 1 = true ∧ has (op.message e seq ack) 0x100 = false ∧
      has (op.message e seq ack) 0x200 = false := by
  cases op <;> cases ack <;>
    simp only [has, Op.message, Op.flags, if_true, if_false, Bool.false_eq_true] <;> decide

theorem has_newRule (e : Endian) (seq : UInt32) (ack : Bool) (r : Rule) :
    has (Op.message e seq ack (.newRule r)) 0x400 = true ∧
      has (Op.message e seq ack (.newRule r)) 0x800 = true := by
  cases ack <;>
    simp only [has, Op.message, Op.flags, if_true, if_false, Bool.false_eq_true] <;> decide

theorem text_table : text (attrs e (nlAttrStrZ e 1 tableName)) 1 = some tableName := by
  rw [attrs_StrZ (by decide)]
  exact text_of_field rfl

theorem handle_newTable : handle e k (Op.message e seq ack .newTable) =
    (Op.run e (k tableKey) .newTable).map (Function.update k tableKey) := by
  obtain ⟨-, hreplace, hexcl⟩ := has_message e seq ack .newTable
  change newTable k _ 1 (attrs e (nlAttrStrZ e 1 tableName)) = _
  rw [newTable, text_table, Option.bind_eq_bind, Option.bind_some, hreplace, hexcl]
  have hkey : k (1, tableName) = k tableKey := rfl
  rw [hkey]
  cases hk : k tableKey with
  | none => rfl
  | some t =>
    have hsame := Function.update_eq_self tableKey k
    rw [hk] at hsame
    exact congrArg some hsame.symm

theorem handle_delTable : handle e k (Op.message e seq ack .delTable) =
    (Op.run e (k tableKey) .delTable).map (Function.update k tableKey) := by
  change delTable k 1 (attrs e (nlAttrStrZ e 1 tableName)) = _
  rw [delTable, text_table, Option.bind_eq_bind, Option.bind_some]
  change (k tableKey).bind _ = _
  cases k tableKey <;> rfl

theorem handle_newChain (c : Chain) : handle e k (Op.message e seq ack (.newChain c)) =
    (Op.run e (k tableKey) (.newChain c)).map (Function.update k tableKey) := by
  change newChain e k 1 (attrs e (chainAttrs e (chainName c) c.hook)) = _
  rw [attrs_chain]
  generalize hl : [(1, tableName ++ [0]), (3, chainName c ++ [0]),
      (4 ||| nlaFNested, nlAttrBE32 e 1 c.hook ++ nlAttrBE32 e 2 0), (5, put .big 4 nfAccept),
      (7, lit "filter" ++ [0])] = l
  have htable : text l 1 = some tableName := text_of_field (by rw [← hl]; rfl)
  have hname : text l 3 = some (chainName c) := text_of_field (by rw [← hl]; rfl)
  have hhook : nested e l 4 = some [(1, put .big 4 c.hook), (2, put .big 4 0)] := by
    rw [nested_of_field (d := nlAttrBE32 e 1 c.hook ++ nlAttrBE32 e 2 0) (by rw [← hl]; rfl),
      attrs_BE32_append, attrs_BE32]
  have hnum : be32 [(1, put .big 4 c.hook), (2, put .big 4 0)] 1 = some c.hook :=
    be32_of_field rfl c.hook_lt
  have hprio : be32 [(1, put .big 4 c.hook), (2, put .big 4 0)] 2 = some 0 :=
    be32_of_field rfl (by decide)
  have hpolicy : be32 l 5 = some nfAccept := be32_of_field (by rw [← hl]; rfl) (by decide)
  have htype : text l 7 = some (lit "filter") := text_of_field (by rw [← hl]; rfl)
  unfold newChain
  simp only [htable, hname, hhook, hnum, hprio, hpolicy, htype, Option.bind_eq_bind,
    Option.bind_some]
  change ((k tableKey).bind fun t => if lit "filter" = lit "filter" ∧ _ then
    some (Function.update k tableKey (some (t ++ [emptyChain c]))) else none) = _
  cases k tableKey with
  | none => rfl
  | some t =>
    simp only [Op.run, Option.bind_some, true_and]
    split_ifs <;> rfl

theorem handle_newRule (r : Rule) : handle e k (Op.message e seq ack (.newRule r)) =
    (Op.run e (k tableKey) (.newRule r)).map (Function.update k tableKey) := by
  obtain ⟨hcreate, happend⟩ := has_newRule e seq ack r
  obtain ⟨-, hreplace, -⟩ := has_message e seq ack (.newRule r)
  change newRule e k _ 1 (attrs e (ruleAttrs e r.chain (r.wire e))) = _
  rw [attrs_rule]
  generalize hl : [(1, tableName ++ [0]), (2, chainName r.chain ++ [0]),
    (4 ||| nlaFNested, r.wire e)] = l
  have htable : text l 1 = some tableName := text_of_field (by rw [← hl]; rfl)
  have hchain : text l 2 = some (chainName r.chain) := text_of_field (by rw [← hl]; rfl)
  have hexprs : (field 4 l).bind (readExprs e) = some (r.exprs e) := by
    have hfield : field 4 l = some (r.wire e) := by rw [← hl]; rfl
    rw [hfield, Option.bind_some, (reads_rule r).readExprs]
  have hhandle : field 3 l = none := by rw [← hl]; rfl
  have hposition : field 6 l = none := by rw [← hl]; rfl
  unfold newRule
  simp only [htable, hchain, hexprs, hcreate, happend, hreplace, hhandle, hposition,
    Option.bind_eq_bind, Option.bind_some, true_and, if_true, Bool.false_eq_true, not_false_eq_true]
  change ((k tableKey).bind fun t => if ∃ c ∈ t, c.name = chainName r.chain then
    some (Function.update k tableKey (some (t.map (addRule e r)))) else none) = _
  cases k tableKey with
  | none => rfl
  | some t =>
    simp only [Op.run, Option.bind_some]
    split_ifs <;> rfl

/-- **A message of the batch does its operation.** -/
theorem handle_op (op : Op) : handle e k (op.message e seq ack) =
    (op.run e (k tableKey)).map (Function.update k tableKey) := by
  cases op with
  | newTable => exact handle_newTable
  | delTable => exact handle_delTable
  | newChain c => exact handle_newChain c
  | newRule r => exact handle_newRule r

/-- The messages are those of the operations, with some numbers and requests for an answer. -/
def Carries (e : Endian) (ms : List Message) (ops : List Op) : Prop :=
  List.Forall₂ (fun m op => ∃ seq ack, m = Op.message e seq ack op) ms ops

/-- The end of a batch. -/
structure Ends (m : Message) : Prop where
  typ : m.typ = 0x11
  request : has m 1 = true
  body : 4 ≤ m.body.length

theorem Op.typ_ne_end (op : Op) : op.typ ≠ 0x11 := by
  cases op <;> simp only [Op.typ] <;> decide

theorem runBatch_end {m : Message} (h : Ends m) (k : Kernel) : runBatch e [m] k = some k := by
  have hok : ¬(m.body.length < 4 ∨ ¬has m 1) := by
    rw [h.request]
    have := h.body
    simp only [not_true_eq_false, or_false]
    omega
  rw [runBatch, if_neg hok, if_pos h.typ]

variable {ms : List Message}

theorem runBatch_op (op : Op) :
    runBatch e (op.message e seq ack :: ms) k =
      (op.run e (k tableKey)).bind fun t => runBatch e ms (Function.update k tableKey t) := by
  have hok : ¬((op.message e seq ack).body.length < 4 ∨ ¬has (op.message e seq ack) 1) := by
    rw [(has_message e seq ack op).1]
    simp only [Op.message, length_append, length_cons, length_nil, not_true_eq_false, or_false]
    omega
  have hend : (op.message e seq ack).typ ≠ 0x11 := op.typ_ne_end
  rw [runBatch, if_neg hok, if_neg hend, handle_op]
  cases op.run e (k tableKey) <;> rfl

variable {ops : List Op}

/-- **The batch does its operations in order.** -/
theorem runBatch_ops (h : Carries e ms ops) {m : Message}
    (hm : Ends m) (k : Kernel) : runBatch e (ms ++ [m]) k =
      (ops.foldlM (Op.run e) (k tableKey)).map (Function.update k tableKey) := by
  induction h generalizing k with
  | nil =>
    rw [nil_append, runBatch_end hm]
    exact congrArg some (Function.update_eq_self tableKey k).symm
  | cons hop _ ih =>
    obtain ⟨seq, ack, rfl⟩ := hop
    rw [cons_append, runBatch_op, foldlM_cons, Option.bind_eq_bind]
    cases hrun : Op.run e (k tableKey) _ with
    | none => rfl
    | some t =>
      have hupdate : Function.update (Function.update k tableKey t) tableKey =
          Function.update k tableKey := by
        funext t'
        rw [Function.update_idem]
      rw [Option.bind_some, Option.bind_some, ih, Function.update_self, hupdate]

/-! ### The table -/

/-- The chain with the rules that are for it. -/
def compiledChain (e : Endian) (rules : List Rule) (c : Chain) : BaseChain :=
  { emptyChain c with rules := (rules.filter (·.chain = c)).map (Rule.exprs e) }

/-- The table with these rules. -/
def compiled (e : Endian) (rules : List Rule) : Table :=
  [compiledChain e rules .input, compiledChain e rules .forward]

theorem addRule_compiledChain (rules : List Rule) (r : Rule) (c : Chain) :
    addRule e r (compiledChain e rules c) = compiledChain e (rules ++ [r]) c := by
  unfold addRule compiledChain
  simp only [emptyChain, chainName_inj, filter_append, map_append]
  by_cases hc : r.chain = c
  · rw [if_pos hc.symm, filter_cons_of_pos (by simpa using hc)]
    rfl
  · rw [if_neg (Ne.symm hc), filter_cons_of_neg (by simpa using hc)]
    simp

theorem run_newRule (rules : List Rule) (r : Rule) :
    Op.run e (some (compiled e rules)) (.newRule r) = some (some (compiled e (rules ++ [r]))) := by
  have hmem : ∃ c ∈ compiled e rules, c.name = chainName r.chain := by
    cases r.chain with
    | input => exact ⟨_, mem_cons_self, rfl⟩
    | forward => exact ⟨_, mem_cons_of_mem _ mem_cons_self, rfl⟩
  rw [Op.run, Option.bind_some, if_pos hmem, compiled, map_cons, map_cons, map_nil,
    addRule_compiledChain, addRule_compiledChain]
  rfl

theorem run_newRules (rules done : List Rule) :
    (rules.map Op.newRule).foldlM (Op.run e) (some (compiled e done)) =
      some (some (compiled e (done ++ rules))) := by
  induction rules generalizing done with
  | nil => rw [append_nil]; rfl
  | cons r rules ih =>
    rw [map_cons, foldlM_cons, run_newRule, Option.bind_eq_bind, Option.bind_some, ih,
      append_assoc, singleton_append]

/-- **The plan replaces the table**, or removes it when nothing is scoped. -/
theorem run_plan (scopes : AList fun _ : Bytes => Scope) (order : List Bytes) (t : Option Table) :
    (plan scopes order).foldlM (Op.run e) t =
      some (if scopes.keys.length > 0 then some (compiled e (ruleset scopes order)) else none) := by
  have hstart : [Op.newTable, .delTable].foldlM (Op.run e) t = some none := rfl
  have hchains : [Op.newTable, .newChain .input, .newChain .forward].foldlM (Op.run e) none =
      some (some (compiled e [])) := by
    rfl
  rw [plan, foldlM_append, hstart, Option.bind_eq_bind, Option.bind_some]
  split_ifs
  · rw [foldlM_append, hchains, Option.bind_eq_bind, Option.bind_some, run_newRules, nil_append]
  · rfl

/-! ### The bytes -/

theorem Op.attrs_length (e : Endian) (op : Op) :
    4 ∣ (op.attrs e).length ∧ (op.attrs e).length ≤ 1000 := by
  have htext : tableName.length = 8 ∧ (lit "filter").length = 6 := by decide
  cases op with
  | newTable | delTable => simp [Op.attrs, htext, align]
  | newChain c =>
    cases c <;> simp [Op.attrs, chainAttrs, htext, chainName, align] <;> decide
  | newRule r =>
    have hwire := r.wire_length_le e
    have hname := chainName_length r.chain
    simp only [Op.attrs, ruleAttrs, length_append, nlAttrStrZ_length, nlNested_length, align, htext]
    omega

theorem Op.message_fits (op : Op) : (op.message e seq ack).Fits := by
  obtain ⟨hdvd, hle⟩ := op.attrs_length e
  have hbody : (op.message e seq ack).body.length = 4 + (op.attrs e).length := by
    rw [Op.message, length_append]
    rfl
  refine ⟨?_, ?_⟩
  · rw [hbody]
    exact Nat.dvd_add (by decide) hdvd
  · rw [hbody]
    omega

theorem Carries.fits (h : Carries e ms ops) : ∀ m ∈ ms, m.Fits := by
  induction h with
  | nil => exact forall_mem_nil _
  | cons hop _ ih =>
    obtain ⟨seq, ack, rfl⟩ := hop
    exact forall_mem_cons.2 ⟨Op.message_fits _, ih⟩

theorem message_flags (e : Endian) (m : Message) :
    message e m = (put e 4 (16 + m.body.length) ++ put e 2 m.typ.toNat) ++
      (put e 2 m.flags.toNat ++ (put e 4 m.seq.toNat ++ put e 4 m.pid.toNat ++ m.body)) := by
  simp only [message, append_assoc]

theorem overwrite_append {a b b' c : Bytes} {i : ℕ} (hi : a.length = i)
    (hb : b.length = b'.length) : overwrite (a ++ (b ++ c)) i b' = a ++ (b' ++ c) := by
  have hdrop : (a ++ (b ++ c)).drop (i + b'.length) = c := by
    rw [← hi, ← hb, ← append_assoc, ← length_append, drop_left]
  rw [overwrite, take_left' hi, hdrop, append_assoc]

theorem get_flags (out : Bytes) (m : Message) :
    UInt16.ofNat (get e (((out ++ message e m).drop (out.length + 6)).take 2)) = m.flags := by
  rw [message_flags, ← append_assoc out, take_drop_append (by simp) (put_length _ _ _),
    get_put m.flags.toNat_lt, UInt16.ofNat_toNat]

theorem overwrite_flags (out : Bytes) (m : Message) (flags : UInt16) :
    overwrite (out ++ message e m) (out.length + 6) (put e 2 flags.toNat) =
      out ++ message e { m with flags := flags } := by
  rw [message_flags, message_flags, ← append_assoc out, overwrite_append (by simp) (by simp),
    append_assoc]

/-- A delimiter is a message with the number of the subsystem. -/
theorem batchDelim_eq (typ : UInt16) (seq : UInt32) :
    batchDelim e typ seq = message e ⟨typ, 1, seq, 0, [0, 0, 0, 10]⟩ := by
  have hsplit : nftMessage e typ nlmFRequest seq 0 [] =
      (put e 4 20 ++ put e 2 typ.toNat ++ put e 2 (1 : UInt16).toNat ++ put e 4 seq.toNat ++
        put e 4 0 ++ [0, 0]) ++ ([0, 0] ++ []) := by
    simp only [nftMessage, message, append_assoc]
    rfl
  rw [batchDelim, hsplit, overwrite_append (by simp) (by simp)]
  simp only [message, append_assoc]
  rfl

theorem delim_fits (typ : UInt16) (seq : UInt32) : (Message.mk typ 1 seq 0 [0, 0, 0, 10]).Fits :=
  ⟨⟨1, rfl⟩, Nat.lt_of_lt_of_le (Nat.lt_succ_self 4) (by decide)⟩

/-! ### The builder -/

/-- The next message is that of the operation. -/
def appendOp (e : Endian) (b : Builder) (op : Op) : Builder :=
  b.appendMsg e op.typ op.flags (op.attrs e)

theorem appendOp_out (b : Builder) (op : Op) :
    (appendOp e b op).out = b.out ++ message e (op.message e (b.seq + 1) false) := rfl

/-- The end of `buildBatch`. -/
def finish (e : Endian) (b : Builder) : Bytes :=
  overwrite b.out (b.lastInner + 6) (put e 2
    (UInt16.ofNat (get e ((b.out.drop (b.lastInner + 6)).take 2)) ||| nlmFAck).toNat) ++
      batchDelim e nfnlMsgBatchEnd (b.seq + 1)

theorem appendRules_eq {rules : List Rule} {c : Chain} (h : ∀ r ∈ rules, r.chain = c)
    (b : Builder) : b.appendRules e c (rules.map (Rule.wire e)) =
      (rules.map Op.newRule).foldl (appendOp e) b := by
  induction rules generalizing b with
  | nil => rfl
  | cons r rules ih =>
    obtain ⟨rfl, hrest⟩ := forall_mem_cons.1 h
    exact ih hrest _

theorem ruleExprs_chain {r : Rule} {name : Bytes} {s : Scope} (h : r ∈ Nft.ruleExprs name s) :
    r.chain = .input := by
  unfold Nft.ruleExprs at h
  split_ifs at h
  · cases h
  · simp only [mem_append, mem_cons, mem_map, not_mem_nil, or_false] at h
    rcases h with (rfl | ⟨p, -, rfl⟩) | rfl | rfl | rfl <;> rfl

theorem forwardExprs_chain {r : Rule} {name : Bytes} (h : r ∈ Nft.forwardExprs name) :
    r.chain = .forward := by
  rw [mem_singleton.1 h]

/-- The rules of one interface, as `buildBatch` appends them. -/
def appendBlock (e : Endian) (scopes : AList fun _ : Bytes => Scope) (b : Builder) (name : Bytes) :
    Builder :=
  (b.appendRules e .input (Wire.ruleExprs e name ((scopes.lookup name).getD {}))).appendRules e
    .forward (Wire.forwardExprs e name)

variable (scopes : AList fun _ : Bytes => Scope)

theorem appendBlock_eq (b : Builder) (name : Bytes) :
    appendBlock e scopes b name = ((Nft.ruleExprs name ((scopes.lookup name).getD {}) ++
      Nft.forwardExprs name).map Op.newRule).foldl (appendOp e) b := by
  rw [appendBlock, ruleExprs_wire, forwardExprs_wire, appendRules_eq fun r => ruleExprs_chain,
    appendRules_eq fun r => forwardExprs_chain, map_append, foldl_append]

variable (order : List Bytes)

/-- **`buildBatch` writes the messages of the plan.** -/
theorem buildBatch_eq :
    buildBatch e scopes order = finish e ((plan scopes order).foldl (appendOp e)
      ⟨batchDelim e nfnlMsgBatchBegin 1, 1, 0⟩) := by
  have hrules : ∀ b : Builder, order.foldl (appendBlock e scopes) b =
      ((ruleset scopes order).map Op.newRule).foldl (appendOp e) b := by
    intro b
    rw [ruleset, map_flatMap, foldl_flatMap]
    exact congrArg (order.foldl · b) (funext₂ (appendBlock_eq scopes))
  have hfinish : buildBatch e scopes order = finish e (if scopes.keys.length > 0 then
      order.foldl (appendBlock e scopes)
        ([Op.newTable, .delTable, .newTable, .newChain .input, .newChain .forward].foldl
          (appendOp e) ⟨batchDelim e nfnlMsgBatchBegin 1, 1, 0⟩)
      else [Op.newTable, .delTable].foldl (appendOp e)
        ⟨batchDelim e nfnlMsgBatchBegin 1, 1, 0⟩) := rfl
  rw [hfinish, plan]
  split_ifs
  · rw [hrules, ← append_assoc, foldl_append, cons_append, cons_append, nil_append]
  · rw [append_nil]

theorem foldl_appendOp (ops : List Op) (b : Builder) :
    ∃ ms, (ops.foldl (appendOp e) b).out = b.out ++ ms.flatMap (message e) ∧ Carries e ms ops := by
  induction ops generalizing b with
  | nil => exact ⟨[], (append_nil _).symm, .nil⟩
  | cons op ops ih =>
    obtain ⟨ms, hout, hms⟩ := ih (appendOp e b op)
    refine ⟨op.message e (b.seq + 1) false :: ms, ?_, .cons ⟨_, _, rfl⟩ hms⟩
    rw [foldl_cons, hout, appendOp_out, flatMap_cons, append_assoc]

/-- The end of the batch asks for an answer to the last operation. -/
theorem finish_appendOp (b : Builder) (op : Op) :
    finish e (appendOp e b op) = b.out ++ message e (op.message e (b.seq + 1) true) ++
      message e ⟨nfnlMsgBatchEnd, 1, b.seq + 1 + 1, 0, [0, 0, 0, 10]⟩ := by
  unfold finish
  rw [appendOp_out, batchDelim_eq]
  change overwrite _ (b.out.length + 6) (put e 2 (UInt16.ofNat (get e
    (((b.out ++ _).drop (b.out.length + 6)).take 2)) ||| nlmFAck).toNat) ++ _ = _
  rw [get_flags, overwrite_flags]
  rfl

/-- The beginning of the batch. -/
def batchBegin : Message := ⟨nfnlMsgBatchBegin, 1, 1, 0, [0, 0, 0, 10]⟩

theorem messages_finish {b : Builder}
    (hout : b.out = message e batchBegin ++ ms.flatMap (message e)) (hms : Carries e ms ops)
    (op : Op) : ∃ ms' m, messages e (finish e (appendOp e b op)) = batchBegin :: (ms' ++ [m]) ∧
      Carries e ms' (ops ++ [op]) ∧ Ends m := by
  have hcarries : Carries e (ms ++ [op.message e (b.seq + 1) true]) (ops ++ [op]) :=
    rel_append hms (.cons ⟨_, _, rfl⟩ .nil)
  refine ⟨ms ++ [op.message e (b.seq + 1) true],
    ⟨nfnlMsgBatchEnd, 1, b.seq + 1 + 1, 0, [0, 0, 0, 10]⟩, ?_, hcarries, ?_⟩
  · have hbytes : finish e (appendOp e b op) = (batchBegin ::
        ((ms ++ [op.message e (b.seq + 1) true]) ++
          [⟨nfnlMsgBatchEnd, 1, b.seq + 1 + 1, 0, [0, 0, 0, 10]⟩])).flatMap (message e) ++ [] := by
      rw [finish_appendOp, hout]
      simp only [flatMap_cons, flatMap_append, flatMap_nil, append_nil, append_assoc]
    rw [hbytes, messages_flatMap, messages_nil, append_nil]
    refine forall_mem_cons.2 ⟨delim_fits _ _, forall_mem_append.2 ⟨hcarries.fits, ?_⟩⟩
    exact forall_mem_singleton.2 (delim_fits _ _)
  · refine ⟨rfl, ?_, Nat.le_refl 4⟩
    change decide ((1 : UInt16) &&& 1 ≠ 0) = true
    decide

/-- **What the kernel reads**: the messages of the plan, between the two delimiters. -/
theorem messages_buildBatch :
    ∃ ms m, messages e (buildBatch e scopes order) = batchBegin :: (ms ++ [m]) ∧
      Carries e ms (plan scopes order) ∧ Ends m := by
  obtain ⟨init, last, hplan⟩ : ∃ init last, plan scopes order = init ++ [last] := by
    refine (eq_nil_or_concat' (plan scopes order)).resolve_left ?_
    exact cons_ne_nil _ _
  obtain ⟨ms, hout, hms⟩ := foldl_appendOp (e := e) init ⟨batchDelim e nfnlMsgBatchBegin 1, 1, 0⟩
  rw [buildBatch_eq, hplan, foldl_append, foldl_cons, foldl_nil]
  refine messages_finish ?_ hms last
  rw [hout, batchDelim_eq]
  rfl

/-- **The kernel takes the batch** and has the new table, or none. -/
theorem receive_buildBatch (k : Kernel) : receive e k (buildBatch e scopes order) =
      some (Function.update k tableKey
        (if scopes.keys.length > 0 then some (compiled e (ruleset scopes order)) else none)) := by
  obtain ⟨ms, m, hread, hcarries, hm⟩ := messages_buildBatch (e := e) scopes order
  have hbegin : batchBegin.typ = 0x10 ∧ (batchBegin.body.drop 2).take 2 = put .big 2 10 := by
    decide
  rw [receive, hread]
  dsimp only
  rw [if_pos hbegin, runBatch_ops hcarries hm, run_plan, Option.map_some]

end BuddyNet.Nft
