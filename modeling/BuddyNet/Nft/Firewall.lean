import BuddyNet.Nft.Batch

/-!
# What the firewall lets through

In the table that the batch leaves the first rule for a packet decides about it. So an interface
with a scope has exactly what its scope says, and every other interface has everything.

* `firewall_means`: what passes the two hooks after the batch of `buildBatch`.
-/

namespace BuddyNet.Nft

open Netlink Nftables Wire List

variable {e : Endian} {pkt : Packet}

/-! ### Rules in order -/

/-- What the rules of a chain do with a packet; without a verdict it is accepted. -/
def decided (rules : List Rule) (c : Chain) (pkt : Packet) : Verdict :=
  ((rules.filter (·.chain = c)).findSome? (Rule.verdict pkt)).getD .accept

variable {rules : List Rule}

theorem verdict_compiledChain (h : ∀ r ∈ rules, ValidName r.ifName) (c : Chain) (pkt : Packet) :
    (compiledChain e rules c).verdict e pkt = decided rules c pkt := by
  unfold BaseChain.verdict compiledChain decided
  rw [evalRules_map fun r hr regs => evalRule_rule (h r (mem_of_mem_filter hr)) pkt regs]
  rfl

theorem Chain.hook_inj {c c' : Chain} : c.hook = c'.hook ↔ c = c' := by
  cases c <;> cases c' <;> decide

/-- **A packet passes a hook of the table** when the rules for that hook accept it. -/
theorem accepts_compiled (h : ∀ r ∈ rules, ValidName r.ifName) (c : Chain) (pkt : Packet) :
    Table.accepts e (compiled e rules) c.hook pkt = true ↔ decided rules c pkt = .accept := by
  have hhook : ∀ c c' : Chain, (compiledChain e rules c').hook ≠ c.hook ↔ c' ≠ c :=
    fun c c' => not_congr Chain.hook_inj
  simp only [Table.accepts, compiled, all_cons, all_nil, Bool.and_true, Bool.and_eq_true,
    Bool.or_eq_true, decide_eq_true_eq, hhook, verdict_compiledChain h]
  cases c <;> simp

/-! ### The rules of one interface -/

/-- What a scope lets through. -/
def Reaches (s : Scope) (pkt : Packet) : Prop :=
  pkt.ct = .established ∨ pkt.ct = .related ∨ pkt.l4proto = some 1 ∨ pkt.l4proto = some 58 ∨
    ∃ p ∈ s.ports, pkt.l4proto = some p.proto.number ∧ dport pkt = some p.port.toNat

/-- The conditions under which a scope accepts a packet. -/
def Scope.accepts (s : Scope) : List Match :=
  [.established] ++ s.ports.map .port ++ [.icmp, .icmpv6]

theorem reaches_iff (s : Scope) (pkt : Packet) :
    Reaches s pkt ↔ ∃ m ∈ s.accepts, m.holds pkt = true := by
  have hport : (∃ m ∈ s.ports.map Match.port, m.holds pkt = true) ↔
      ∃ p ∈ s.ports, pkt.l4proto = some p.proto.number ∧ dport pkt = some p.port.toNat := by
    simp [Match.holds]
  unfold Scope.accepts Reaches
  simp only [mem_append, or_and_right, exists_or, hport]
  simp only [mem_cons, not_mem_nil, or_false, exists_eq_or_imp, exists_eq_left,
    Match.holds, Bool.or_eq_true, decide_eq_true_eq]
  generalize (∃ p ∈ s.ports, pkt.l4proto = some p.proto.number ∧
    dport pkt = some p.port.toNat) = ports
  tauto

/-- The conditions are tried in order, and then the packet is dropped. -/
theorem findSome_accepts {name : Bytes} (hname : pkt.iif.name = name) (ms : List Match) :
    (ms.map (fun m => Rule.mk .input name m true) ++
      [Rule.mk .input name .any false]).findSome? (Rule.verdict pkt) =
      some (if ∃ m ∈ ms, m.holds pkt = true then .accept else .drop) := by
  induction ms with
  | nil => simp [Rule.verdict, hname, Match.holds, Rule.decision]
  | cons m ms ih =>
    rw [map_cons, cons_append, findSome?_cons]
    cases hm : m.holds pkt with
    | true =>
      have hverdict : Rule.verdict pkt ⟨.input, name, m, true⟩ = some .accept := by
        simp [Rule.verdict, hname, hm, Rule.decision]
      rw [hverdict, if_pos ⟨m, mem_cons_self, hm⟩]
    | false =>
      have hverdict : Rule.verdict pkt ⟨.input, name, m, true⟩ = none := by
        simp [Rule.verdict, hm]
      rw [hverdict]
      simp only [ih, mem_cons, exists_eq_or_imp, hm, Bool.false_eq_true, false_or]

/-- What the rules of an interface say of a packet. -/
theorem findSome_ruleExprs (name : Bytes) (s : Scope) :
    (ruleExprs name s).findSome? (Rule.verdict pkt) =
      if pkt.iif.name = name ∧ s.all = false then
        some (if ∃ m ∈ s.accepts, m.holds pkt = true then .accept else .drop)
      else none := by
  cases hall : s.all with
  | true => simp [ruleExprs, hall]
  | false =>
    have hrules : ruleExprs name s = s.accepts.map (fun m => Rule.mk .input name m true) ++
        [Rule.mk .input name .any false] := by
      simp [ruleExprs, hall, Scope.accepts]
    by_cases hname : pkt.iif.name = name
    · rw [if_pos ⟨hname, rfl⟩, hrules, findSome_accepts hname]
    · rw [if_neg fun h => hname h.1, findSome?_eq_none_iff]
      intro r hr
      have hif := ruleExprs_ifName (mem_append_left (forwardExprs name) hr)
      simp [Rule.verdict, hif, hname]

theorem findSome_forwardExprs (name : Bytes) :
    (forwardExprs name).findSome? (Rule.verdict pkt) =
      if pkt.iif.name = name then some .drop else none := by
  by_cases hname : pkt.iif.name = name <;>
    simp [forwardExprs, Rule.verdict, hname, Match.holds, Rule.decision]

/-! ### The rules of all interfaces -/

theorem filter_input (scopes : AList fun _ : Bytes => Scope) (order : List Bytes) :
    (ruleset scopes order).filter (·.chain = .input) =
      order.flatMap fun name => ruleExprs name ((scopes.lookup name).getD {}) := by
  rw [ruleset, filter_flatMap]
  refine flatMap_congr fun name _ => ?_
  rw [filter_append, filter_eq_self.2, filter_eq_nil_iff.2, append_nil]
  · intro r hr
    rw [forwardExprs_chain hr]
    decide
  · intro r hr
    rw [ruleExprs_chain hr]
    decide

theorem filter_forward (scopes : AList fun _ : Bytes => Scope) (order : List Bytes) :
    (ruleset scopes order).filter (·.chain = .forward) = order.flatMap forwardExprs := by
  rw [ruleset, filter_flatMap]
  refine flatMap_congr fun name _ => ?_
  rw [filter_append, filter_eq_nil_iff.2, filter_eq_self.2, nil_append]
  · intro r hr
    rw [forwardExprs_chain hr]
    decide
  · intro r hr
    rw [ruleExprs_chain hr]
    decide

variable {order : List Bytes}

/-- Only the block of the packet's interface has a verdict. -/
theorem findSome_flatMap {block : Bytes → List Rule}
    (h : ∀ name, pkt.iif.name ≠ name → (block name).findSome? (Rule.verdict pkt) = none) :
    (order.flatMap block).findSome? (Rule.verdict pkt) =
      if pkt.iif.name ∈ order then (block pkt.iif.name).findSome? (Rule.verdict pkt) else none := by
  induction order with
  | nil => rfl
  | cons name order ih =>
    rw [flatMap_cons, findSome?_append, ih]
    by_cases hname : pkt.iif.name = name
    · subst hname
      rw [if_pos mem_cons_self]
      split_ifs
      · exact Option.or_self
      · exact Option.or_none
    · rw [h name hname, Option.none_or]
      simp only [mem_cons, hname, false_or]

theorem decided_input {scopes : AList fun _ : Bytes => Scope}
    (horder : ∀ name, name ∈ order ↔ name ∈ scopes) (pkt : Packet) :
    decided (ruleset scopes order) .input pkt = .accept ↔
      ∀ s, scopes.lookup pkt.iif.name = some s → s.all = true ∨ Reaches s pkt := by
  unfold decided
  rw [filter_input, findSome_flatMap fun name hname => ?_]
  · cases hs : scopes.lookup pkt.iif.name with
    | none =>
      have hout : pkt.iif.name ∉ order := fun hmem =>
        AList.lookup_eq_none.1 hs ((horder _).1 hmem)
      rw [if_neg hout]
      exact iff_of_true rfl nofun
    | some s =>
      have hin : pkt.iif.name ∈ order :=
        (horder _).2 (AList.lookup_isSome.1 (Option.isSome_of_eq_some hs))
      rw [if_pos hin, Option.getD_some, findSome_ruleExprs]
      simp only [Option.some.injEq, forall_eq', true_and, reaches_iff]
      cases hall : s.all <;> simp
  · rw [findSome_ruleExprs, if_neg fun h => hname h.1]

theorem decided_forward {scopes : AList fun _ : Bytes => Scope}
    (horder : ∀ name, name ∈ order ↔ name ∈ scopes) (pkt : Packet) :
    decided (ruleset scopes order) .forward pkt = .accept ↔ pkt.iif.name ∉ scopes := by
  unfold decided
  rw [filter_forward, findSome_flatMap fun name hname => ?_, findSome_forwardExprs, if_pos rfl,
    ← horder]
  · split_ifs with hmem
    · exact iff_of_false (by decide) (not_not.2 hmem)
    · exact iff_of_true rfl hmem
  · rw [findSome_forwardExprs, if_neg hname]

/-! ### The firewall -/

/-- A packet passes a hook; it does when there is no table. -/
def passes (e : Endian) (t : Option Table) (c : Chain) (pkt : Packet) : Bool :=
  t.elim true fun t => Table.accepts e t c.hook pkt

theorem ruleset_ifName {scopes : AList fun _ : Bytes => Scope} {r : Rule}
    (h : r ∈ ruleset scopes order) : r.ifName ∈ order := by
  obtain ⟨name, hname, hr⟩ := mem_flatMap.1 h
  rwa [ruleExprs_ifName hr]

/-- The table that the batch leaves. -/
def installedTable (e : Endian) (scopes : AList fun _ : Bytes => Scope) (order : List Bytes) :
    Option Table :=
  if scopes.keys.length > 0 then some (compiled e (ruleset scopes order)) else none

theorem installedTable_eq_none {scopes : AList fun _ : Bytes => Scope} :
    installedTable e scopes order = none ↔ ∀ name, name ∉ scopes := by
  unfold installedTable
  by_cases hpos : scopes.keys.length > 0
  · obtain ⟨name, hname⟩ := exists_mem_of_length_pos hpos
    rw [if_pos hpos]
    exact iff_of_false (Option.some_ne_none _) fun h => h name hname
  · rw [if_neg hpos]
    have hnil : scopes.keys = [] := eq_nil_of_length_eq_zero (Nat.eq_zero_of_not_pos hpos)
    refine iff_of_true rfl fun name hname => ?_
    rw [AList.mem_keys, hnil] at hname
    cases hname

theorem passes_installedTable {scopes : AList fun _ : Bytes => Scope}
    (horder : ∀ name, name ∈ order ↔ name ∈ scopes) (hnames : ∀ name ∈ scopes, ValidName name)
    (c : Chain) (pkt : Packet) :
    passes e (installedTable e scopes order) c pkt = true ↔
      decided (ruleset scopes order) c pkt = .accept := by
  cases htable : installedTable e scopes order with
  | none =>
    have hempty : order = [] := eq_nil_iff_forall_not_mem.2 fun name hname =>
      installedTable_eq_none.1 htable name ((horder name).1 hname)
    rw [hempty]
    exact iff_of_true rfl rfl
  | some t =>
    have ht : compiled e (ruleset scopes order) = t := by
      by_cases hpos : scopes.keys.length > 0
      · rw [installedTable, if_pos hpos] at htable
        exact Option.some.inj htable
      · rw [installedTable, if_neg hpos] at htable
        cases htable
    rw [← ht]
    exact accepts_compiled (fun r hr => hnames _ ((horder _).1 (ruleset_ifName hr))) c pkt

/-- **The firewall means what the scopes say.** The kernel takes the batch, whatever it had before,
and touches no other table. Afterwards, on the input hook, everything passes that comes from an
interface without a scope or with the scope `all`; from another scoped interface exactly what
belongs to an established or related connection, is ICMP, or goes to a port of the scope. On the
forward hook everything from a scoped interface is dropped. Without scoped interfaces there is no
table. -/
theorem firewall_means (e : Endian) (k : Kernel) {scopes : AList fun _ : Bytes => Scope}
    {order : List Bytes} (horder : ∀ name, name ∈ order ↔ name ∈ scopes)
    (hnames : ∀ name ∈ scopes, ValidName name) :
    ∃ t, receive e k (buildBatch e scopes order) = some (Function.update k tableKey t) ∧
      (t = none ↔ ∀ name, name ∉ scopes) ∧
      ∀ pkt,
        (scopes.lookup pkt.iif.name = none → passes e t .input pkt = true) ∧
        (∀ s, scopes.lookup pkt.iif.name = some s → s.all = true → passes e t .input pkt = true) ∧
        (∀ s, scopes.lookup pkt.iif.name = some s → s.all = false →
          (passes e t .input pkt = true ↔
            (pkt.ct = .established ∨ pkt.ct = .related) ∨
            (pkt.l4proto = some 1 ∨ pkt.l4proto = some 58) ∨
            ∃ p ∈ s.ports, pkt.l4proto = some p.proto.number ∧ dport pkt = some p.port.toNat)) ∧
        (passes e t .forward pkt = false ↔ pkt.iif.name ∈ scopes) := by
  have hpasses := fun c pkt => passes_installedTable (e := e) horder hnames c pkt
  refine ⟨installedTable e scopes order, receive_buildBatch scopes order k,
    installedTable_eq_none, fun pkt => ⟨fun hs => ?_, fun s hs hall => ?_, fun s hs hall => ?_, ?_⟩⟩
  · refine (hpasses .input pkt).2 ((decided_input horder pkt).2 fun s hs' => ?_)
    rw [hs] at hs'
    cases hs'
  · refine (hpasses .input pkt).2 ((decided_input horder pkt).2 fun s' hs' => ?_)
    cases hs.symm.trans hs'
    exact Or.inl hall
  · rw [hpasses, decided_input horder, hs]
    simp only [Option.some.injEq, forall_eq', hall, Bool.false_eq_true, false_or, Reaches,
      or_assoc]
  · rw [← Bool.not_eq_true, hpasses, decided_forward horder, not_not]

namespace Sample

/-- An interface. -/
def bnet0 : IfName := ⟨lit "bnet0", by decide, by decide⟩

/-- The first interface exposes its SSH port. -/
def scopes : AList fun _ : Bytes => Scope :=
  (∅ : AList fun _ : Bytes => Scope).insert bnet0.name ⟨false, [⟨.tcp, 22⟩]⟩

/-- The first segment of a connection to this port. -/
def syn (iif : IfName) (port : UInt8) : Packet :=
  ⟨iif, some 6, some ([156, 64, 0, port] ++ replicate 16 0), .new⟩

end Sample

open Sample in
/-- A connection to the exposed port passes, one to another port does not, and none is forwarded. -/
theorem firewall_means_ssh :
    ∃ t, receive .little (fun _ => none) (buildBatch .little scopes [bnet0.name]) =
        some (Function.update (fun _ => none) tableKey t) ∧
      passes .little t .input (syn bnet0 22) = true ∧
      passes .little t .input (syn bnet0 23) = false ∧
      passes .little t .forward (syn bnet0 22) = false := by
  have hmem : ∀ name, name ∈ scopes ↔ name = bnet0.name := by
    intro name
    rw [scopes, AList.mem_insert]
    exact or_iff_left (AList.notMem_empty name)
  have horder : ∀ name, name ∈ [bnet0.name] ↔ name ∈ scopes :=
    fun name => mem_singleton.trans (hmem name).symm
  have hnames : ∀ name ∈ scopes, ValidName name := by
    intro name hname
    rw [(hmem name).1 hname]
    exact ⟨bnet0.short, bnet0.noNul⟩
  obtain ⟨t, hreceive, -, ht⟩ := firewall_means .little (fun _ => none) horder hnames
  have hlookup : scopes.lookup bnet0.name = some ⟨false, [⟨.tcp, 22⟩]⟩ := AList.lookup_insert _
  refine ⟨t, hreceive, ?_, ?_, ?_⟩
  · exact (((ht (syn bnet0 22)).2.2.1 _ hlookup rfl).2 (Or.inr (Or.inr
      ⟨⟨.tcp, 22⟩, mem_singleton_self _, by decide, by decide⟩)))
  · rw [← Bool.not_eq_true, (ht (syn bnet0 23)).2.2.1 _ hlookup rfl]
    decide
  · exact (ht (syn bnet0 22)).2.2.2.2 ((hmem _).2 rfl)

end BuddyNet.Nft
