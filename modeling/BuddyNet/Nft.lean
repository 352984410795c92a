import Mathlib.Data.List.AList
import Mathlib.Data.List.Sort
import BuddyNet.Go.Json

/-!
# Scoped exposure

`internal/nft`: what a buddy may reach over its WireGuard interface, and the one `buddynet` table in
the kernel. `Apply` and `Remove` keep the wanted scope of every interface in memory, and each change
replaces the whole table in one batch (`ruleset`). A batch that fails leaves the kernel as it was.
-/

namespace BuddyNet

open List

def wgIfName (ifIndex : ℕ) : Bytes := lit "bnet" ++ Go.itoa ifIndex

theorem wgIfName_injective : Function.Injective wgIfName :=
  fun _ _ h => Go.itoa_injective (append_cancel_left h)

namespace Nft

/-! ### Scopes -/

/-- The protocol of an exposed port. -/
inductive Proto where
  | tcp
  | udp
  deriving DecidableEq

/-- `IPPROTO_TCP` and `IPPROTO_UDP`. -/
def Proto.number : Proto → UInt8
  | .tcp => 6
  | .udp => 17

structure Port where
  proto : Proto
  port : UInt16
  deriving DecidableEq

/-- `Scope`: the whole host, or a list of ports; the zero value exposes nothing. -/
structure Scope where
  all : Bool := false
  ports : List Port := []
  deriving DecidableEq

/-- The text of a port. -/
def Port.string (p : Port) : Bytes :=
  (match p.proto with
    | .tcp => lit "tcp/"
    | .udp => lit "udp/") ++ Go.itoa p.port.toNat

/-- `Scope.String`. -/
def Scope.string (s : Scope) : Bytes :=
  if s.all then lit "all"
  else if s.ports = [] then lit "NONE"
  else (lit ",").intercalate (s.ports.map Port.string)

/-! ### Specifications -/

/-- Why an exposure specification is refused; the entry as it was written. -/
inductive ScopeError where
  | empty
  | protocol (part : Bytes)
  | port (part : Bytes)
  deriving DecidableEq

/-- The name of a protocol. -/
def Proto.parse (s : Bytes) : Option Proto :=
  if s = lit "tcp" then some .tcp else if s = lit "udp" then some .udp else none

def parsePort (part : Bytes) : Except ScopeError Port :=
  let part := Go.trimSpace part
  let (proto, portStr) :=
    match part.dropWhile (· ≠ 47) with
    | [] => (lit "tcp", part)
    | _ :: rest => (Go.lowerASCII (Go.trimSpace (part.takeWhile (· ≠ 47))), Go.trimSpace rest)
  match Proto.parse proto with
  | none => .error (.protocol part)
  | some proto =>
    match Go.parseUint16 portStr with
    | some n => if n = 0 then .error (.port part) else .ok ⟨proto, n⟩
    | none => .error (.port part)

/-- `Scope.add`. -/
def Scope.add (s : Scope) (p : Port) : Scope :=
  if p ∈ s.ports then s else { s with ports := s.ports ++ [p] }

/-- The order of `normalize`: tcp before udp, then by number. -/
def Port.le (p q : Port) : Bool :=
  match p.proto, q.proto with
  | .tcp, .udp => true
  | .udp, .tcp => false
  | _, _ => p.port ≤ q.port

/-- `Scope.normalize`. -/
def Scope.normalize (s : Scope) : Scope :=
  { s with ports := s.ports.insertionSort fun p q => Port.le p q }

/-- `ParseScope`. -/
def parseScope (spec : Bytes) : Except ScopeError Scope :=
  let spec := Go.trimSpace spec
  if spec = [] then .error .empty
  else if Go.lowerASCII spec = lit "all" then .ok { all := true }
  else do
    let ports ← (spec.splitOn 44).mapM parsePort
    return (ports.foldl Scope.add {}).normalize

/-! ### The table -/

/-- The two base chains, both with policy accept. -/
inductive Chain where
  | input
  | forward
  deriving DecidableEq

/-- What a rule looks at besides the interface. -/
inductive Match where
  | any
  | established
  | port (p : Port)
  | icmp
  | icmpv6
  deriving DecidableEq

/-- A rule for packets that arrive on one interface. -/
structure Rule where
  chain : Chain
  ifName : Bytes
  cond : Match
  accept : Bool
  deriving DecidableEq

def ruleExprs (ifName : Bytes) (s : Scope) : List Rule :=
  if s.all then []
  else [⟨.input, ifName, .established, true⟩] ++
    s.ports.map (fun p => ⟨.input, ifName, .port p, true⟩) ++
    [⟨.input, ifName, .icmp, true⟩, ⟨.input, ifName, .icmpv6, true⟩, ⟨.input, ifName, .any, false⟩]

/-- `forwardExprs`: nothing is routed onward, whatever the scope. -/
def forwardExprs (ifName : Bytes) : List Rule := [⟨.forward, ifName, .any, false⟩]

/-- The rules that the batch of `buildBatch` leaves in the kernel. -/
def ruleset (scopes : AList fun _ : Bytes => Scope) (order : List Bytes) : List Rule :=
  order.flatMap fun ifName =>
    ruleExprs ifName ((scopes.lookup ifName).getD {}) ++ forwardExprs ifName

/-- The wanted scopes, the order of their rules, and the table in the kernel. -/
structure State where
  scopes : AList fun _ : Bytes => Scope
  order : List Bytes
  kernel : List Rule

/-- No interface is scoped and the table does not exist. -/
def State.empty : State := ⟨∅, [], []⟩

/-- `Apply`; `ok` says whether the kernel takes the batch. -/
def apply (ok : Bool) (st : State) (ifName : Bytes) (s : Scope) : State × Bool :=
  let prev := st.scopes.lookup ifName
  let order := if prev = none then st.order ++ [ifName] else st.order
  let scopes := st.scopes.insert ifName s
  if ok then (⟨scopes, order, ruleset scopes order⟩, true)
  else match prev with
    | some prev => (⟨scopes.insert ifName prev, order, st.kernel⟩, false)
    | none => (⟨scopes.erase ifName, order.dropLast, st.kernel⟩, false)

/-- `Remove`. -/
def remove (ok : Bool) (st : State) (ifName : Bytes) : State × Bool :=
  if ifName ∉ st.scopes then (st, true)
  else
    let scopes := st.scopes.erase ifName
    let order := st.order.erase ifName
    (⟨scopes, order, if ok then ruleset scopes order else st.kernel⟩, ok)

/-! ### What the text of a scope tells -/

theorem Port.string_injective : Function.Injective Port.string := by
  rintro ⟨proto, port⟩ ⟨proto', port'⟩ h
  have hport : ∀ {n n' : UInt16}, Go.itoa n.toNat = Go.itoa n'.toNat → n = n' :=
    fun h => UInt16.toNat_inj.1 (Go.itoa_injective h)
  cases proto <;> cases proto' <;> simp only [Port.string] at h
  · rw [hport (append_cancel_left h)]
  · exact absurd (append_inj_left h rfl) (by decide)
  · exact absurd (append_inj_left h rfl) (by decide)
  · rw [hport (append_cancel_left h)]

theorem Port.slash_mem (p : Port) : (47 : UInt8) ∈ p.string := by
  refine mem_append_left _ ?_
  cases p.proto <;> decide

theorem Port.comma_notMem (p : Port) : (44 : UInt8) ∉ p.string := by
  intro h
  rcases mem_append.1 h with hproto | hdigits
  · cases hp : p.proto <;> simp only [hp] at hproto <;> exact absurd hproto (by decide)
  · exact absurd (Go.mem_itoa hdigits).1 (by decide)

/-- The entries of a scope's text. -/
def Scope.parts (s : Scope) : List Bytes :=
  if s.all then [lit "all"] else if s.ports = [] then [lit "NONE"] else s.ports.map Port.string

theorem Scope.splitOn_string (s : Scope) : s.string.splitOn 44 = s.parts := by
  unfold Scope.string Scope.parts
  split_ifs with hall hports
  · decide
  · decide
  · refine splitOn_intercalate 44 ?_ (by simpa using hports)
    intro l hl
    obtain ⟨p, -, rfl⟩ := mem_map.1 hl
    exact p.comma_notMem

theorem word_ne_ports {word : Bytes} (h : (47 : UInt8) ∉ word) (ports : List Port) :
    [word] ≠ ports.map Port.string := by
  intro heq
  obtain ⟨p, -, hp⟩ := mem_map.1 (heq ▸ mem_singleton_self word)
  exact h (hp ▸ p.slash_mem)

theorem Scope.all_iff (s : Scope) : s.all = true ↔ s.parts = [lit "all"] := by
  unfold Scope.parts
  split_ifs with hall hports
  · simp [hall]
  · exact iff_of_false hall (by decide)
  · exact iff_of_false hall fun h => word_ne_ports (by decide) _ h.symm

theorem Scope.ports_of_parts {a b : Scope} (ha : ¬a.all = true) (hb : ¬b.all = true)
    (h : a.parts = b.parts) : a.ports = b.ports := by
  unfold Scope.parts at h
  rw [if_neg ha, if_neg hb] at h
  by_cases hap : a.ports = []
  · by_cases hbp : b.ports = []
    · rw [hap, hbp]
    · rw [if_pos hap, if_neg hbp] at h
      exact absurd h (word_ne_ports (by decide) _)
  · by_cases hbp : b.ports = []
    · rw [if_neg hap, if_pos hbp] at h
      exact absurd h.symm (word_ne_ports (by decide) _)
    · rw [if_neg hap, if_neg hbp] at h
      exact Port.string_injective.list_map h

theorem ruleExprs_of_string {a b : Scope} (h : a.string = b.string) (ifName : Bytes) :
    ruleExprs ifName a = ruleExprs ifName b := by
  have hparts : a.parts = b.parts := by rw [← a.splitOn_string, ← b.splitOn_string, h]
  have hall : a.all = true ↔ b.all = true := by rw [a.all_iff, b.all_iff, hparts]
  unfold ruleExprs
  by_cases ha : a.all = true
  · rw [if_pos ha, if_pos (hall.1 ha)]
  · have hb := mt hall.2 ha
    rw [if_neg ha, if_neg hb, Scope.ports_of_parts ha hb hparts]

/-! ### What the kernel has -/

/-- The table holds the rules of this scope for the interface. -/
def Programmed (kernel : List Rule) (ifName : Bytes) (s : Scope) : Prop :=
  ruleExprs ifName s ++ forwardExprs ifName ⊆ kernel

variable {st : State} {ifName : Bytes} {s : Scope}

theorem mem_apply {name : Bytes} :
    name ∈ (apply true st ifName s).1.scopes ↔ name = ifName ∨ name ∈ st.scopes :=
  AList.mem_insert _

/-! ### The rules of one interface -/

/-- The rules the kernel has for an interface. -/
def installed (st : State) (ifName : Bytes) : List Rule :=
  st.kernel.filter fun r => r.ifName = ifName

theorem ruleExprs_ifName {r : Rule} (h : r ∈ ruleExprs ifName s ++ forwardExprs ifName) :
    r.ifName = ifName := by
  unfold ruleExprs forwardExprs at h
  split_ifs at h
  · simp at h
    rw [h]
  · simp only [mem_append, mem_cons, mem_map, not_mem_nil, or_false] at h
    rcases h with ((rfl | ⟨p, -, rfl⟩) | rfl | rfl | rfl) | rfl <;> rfl

/-- Only the block of one name is kept. -/
theorem flatMap_single {order : List Bytes} (hnodup : order.Nodup) (hmem : ifName ∈ order)
    (block : List Rule) : order.flatMap (fun name => if name = ifName then block else []) =
    block := by
  induction order with
  | nil => cases hmem
  | cons name order ih =>
    obtain ⟨hnew, hnodup⟩ := nodup_cons.1 hnodup
    rw [flatMap_cons]
    rcases mem_cons.1 hmem with rfl | hrest
    · have hnone : order.flatMap (fun name => if name = ifName then block else []) = [] := by
        refine flatMap_eq_nil_iff.2 fun name hname => if_neg ?_
        rintro rfl
        exact hnew hname
      rw [if_pos rfl, hnone, append_nil]
    · have hne : name ≠ ifName := by
        rintro rfl
        exact hnew hrest
      rw [if_neg hne, nil_append, ih hnodup hrest]

/-- A batch leaves exactly the rules of its scope for each interface of the order. -/
theorem filter_ruleset {scopes : AList fun _ : Bytes => Scope} {order : List Bytes}
    (hnodup : order.Nodup) (hmem : ifName ∈ order) (h : scopes.lookup ifName = some s) :
    (ruleset scopes order).filter (fun r => r.ifName = ifName) =
      ruleExprs ifName s ++ forwardExprs ifName := by
  have hblock : ∀ name, (ruleExprs name ((scopes.lookup name).getD {}) ++ forwardExprs name).filter
      (fun r => r.ifName = ifName) =
        if name = ifName then ruleExprs ifName s ++ forwardExprs ifName else [] := by
    intro name
    split_ifs with hname
    · subst hname
      rw [h]
      exact filter_eq_self.2 fun r hr => by simpa using ruleExprs_ifName hr
    · refine filter_eq_nil_iff.2 fun r hr => ?_
      simpa [ruleExprs_ifName hr] using hname
  rw [ruleset, filter_flatMap]
  exact (flatMap_congr fun name _ => hblock name).trans (flatMap_single hnodup hmem _)

end Nft

end BuddyNet
