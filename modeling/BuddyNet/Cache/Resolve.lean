import BuddyNet.Cache.Names

/-!
# Resolving names

`internal/dns/resolver.go`: the table of a node, built from a snapshot of the peer cache, and the
lookup in it. Names, fingerprint aliases and the node's own name share one table. A label does not
look like a fingerprint, so the parts of the table do not meet (`nodup_labels`), and a query finds
the owner of the name and nobody else (`names_belong`).

`strings.ToLower` is a parameter; what is used of it is that it lowers ASCII text byte by byte.
-/

namespace BuddyNet.Dns

open List

open Handshake (Peer)

/-! ### The code -/

def buddyTLD : Bytes := lit ".buddy"

/-- `strings.TrimSuffix`. -/
def trimSuffix (s suffix : Bytes) : Bytes :=
  if suffix <:+ s then s.take (s.length - suffix.length) else s

/-- `Resolve`. -/
def resolve (toLower : Bytes → Bytes) (table : AList fun _ : Bytes => Addr) (qname : Bytes) :
    Option Addr :=
  let q := trimSuffix (toLower qname) (lit ".")
  if ¬ buddyTLD <:+ q then none
  else
    let q := trimSuffix q buddyTLD
    if q = [] ∨ 46 ∈ q then none else table.lookup q

def fingerprint (cr : Crypto) (pubkeyB64 : Bytes) : Bytes :=
  (Trust.hexEncode (cr.sha256 pubkeyB64)).take 8

/-- One turn of the loop of `BuildTable`. -/
def addPeer (cr : Crypto) (table : AList fun _ : Bytes => Addr) (p : Peer) :
    AList fun _ : Bytes => Addr :=
  match Go.parseAddr p.virtualIP with
  | none => table
  | some ip =>
    (if p.name ≠ [] then table.insert p.name ip else table).insert (fingerprint cr p.pubkey) ip

/-- `BuildTable`; the zero address of a node that has none is `none`. -/
def buildTable (cr : Crypto) (peers : List Peer) (selfName : Bytes) (selfIP : Option Addr) :
    AList fun _ : Bytes => Addr :=
  let table := peers.foldl (addPeer cr) ∅
  match selfIP with
  | none => table
  | some ip => if selfName ≠ [] then table.insert selfName ip else table

/-! ### Labels -/

/-- The shape of a fingerprint alias. -/
def isFingerprint (s : Bytes) : Bool :=
  s.length == 8 && s.all fun c => Go.Json.isDigit c || (97 ≤ c.toNat && c.toNat ≤ 102)

/-- Lower-case ASCII text without a dot. -/
structure Plain (s : Bytes) : Prop where
  nonempty : s ≠ []
  lower : ∀ c ∈ s, c.toNat < 128 ∧ ¬ (65 ≤ c.toNat ∧ c.toNat ≤ 90)
  dotless : 46 ∉ s

variable {s : Bytes}

theorem not_isFingerprint_of_validName (h : validName s = true) : isFingerprint s = false := by
  simp only [validName, Bool.and_eq_true, Bool.not_eq_true'] at h
  exact h.2

theorem plain_of_validName (h : validName s = true) : Plain s := by
  simp only [validName, Bool.and_eq_true, decide_eq_true_eq] at h
  obtain ⟨⟨⟨⟨⟨hpos, -⟩, hall⟩, -⟩, -⟩, -⟩ := h
  have hchar : ∀ c ∈ s, isNameChar c = true := all_eq_true.1 hall
  refine ⟨ne_nil_of_length_pos hpos, fun c hc => ?_, fun hdot => ?_⟩
  · have := hchar c hc
    simp only [isNameChar, Bool.or_eq_true, Bool.and_eq_true, decide_eq_true_eq, beq_iff_eq] at this
    rcases this with (h | h) | rfl
    · omega
    · omega
    · decide
  · exact absurd (hchar 46 hdot) (by decide)

theorem plain_of_isFingerprint (h : isFingerprint s = true) : Plain s := by
  simp only [isFingerprint, Bool.and_eq_true, beq_iff_eq] at h
  have hchar := all_eq_true.1 h.2
  refine ⟨ne_nil_of_length_pos (by omega), fun c hc => ?_, fun hdot => ?_⟩
  · have := hchar c hc
    simp only [Go.Json.isDigit, Bool.or_eq_true, Bool.and_eq_true, decide_eq_true_eq] at this
    omega
  · exact absurd (hchar 46 hdot) (by decide)

/-- A digest has at least four bytes, so an alias has its eight digits. -/
theorem isFingerprint_fingerprint {cr : Crypto} (hsha : ∀ s, (cr.sha256 s).length = 32)
    (k : Bytes) : isFingerprint (fingerprint cr k) = true := by
  have hdigit : ∀ n < 16, (Go.Json.isDigit (Go.Json.hexChar n) ||
      (97 ≤ (Go.Json.hexChar n).toNat && (Go.Json.hexChar n).toNat ≤ 102)) = true := by decide
  have hlength : (Trust.hexEncode (cr.sha256 k)).length = 64 := by
    rw [Trust.hexEncode, length_flatMap]
    simp [hsha]
  simp only [isFingerprint, Bool.and_eq_true, beq_iff_eq]
  refine ⟨?_, all_eq_true.2 fun c hc => ?_⟩
  · rw [fingerprint, length_take, hlength]
    rfl
  · obtain ⟨b, -, hb⟩ := mem_flatMap.1 (mem_of_mem_take hc)
    have hlt : b.toNat < 256 := b.toNat_lt
    rcases mem_pair.1 hb with rfl | rfl
    · exact hdigit _ (by omega)
    · exact hdigit _ (by omega)

/-! ### Queries -/

section Query

variable {toLower : Bytes → Bytes} {table : AList fun _ : Bytes => Addr}

theorem trimSuffix_append (s suffix : Bytes) : trimSuffix (s ++ suffix) suffix = s := by
  rw [trimSuffix, if_pos (suffix_append s suffix), length_append, Nat.add_sub_cancel, take_left]

theorem toLower_eq (hlower : ∀ s : Bytes, (∀ c ∈ s, c.toNat < 128) → toLower s = Go.lowerASCII s)
    {q t : Bytes} (hq : Go.lowerASCII q = t) (ht : ∀ c ∈ t, c.toNat < 128) : toLower q = t := by
  rw [hlower q fun c hc => ?_, hq]
  have hmem : (if 65 ≤ c.toNat ∧ c.toNat ≤ 90 then c + 32 else c) ∈ t := by
    rw [← hq]
    exact mem_map_of_mem hc
  have := ht _ hmem
  split_ifs at this with hupper
  · omega
  · exact this

theorem ascii_of_all {s : Bytes} (h : s.all (fun c => c.toNat < 128) = true) :
    ∀ c ∈ s, c.toNat < 128 := fun c hc => of_decide_eq_true (all_eq_true.1 h c hc)

/-- **A query for a label**, in any case and with or without the last dot, looks that label up. -/
theorem resolve_label (hlower : ∀ s : Bytes, (∀ c ∈ s, c.toNat < 128) → toLower s = Go.lowerASCII s)
    {l q : Bytes} (hl : Plain l)
    (hq : Go.lowerASCII q = l ++ lit ".buddy" ∨ Go.lowerASCII q = l ++ lit ".buddy.") :
    resolve toLower table q = table.lookup l := by
  have hascii : ∀ t : Bytes, (∀ c ∈ t, c.toNat < 128) → ∀ c ∈ l ++ t, c.toNat < 128 := by
    intro t ht c hc
    rcases mem_append.1 hc with h | h
    · exact (hl.lower c h).1
    · exact ht c h
  have htrim : trimSuffix (toLower q) (lit ".") = l ++ buddyTLD := by
    rcases hq with hq | hq
    · rw [toLower_eq hlower hq (hascii _ (ascii_of_all (by decide)))]
      refine if_neg ?_
      rintro ⟨t, ht⟩
      -- the text ends in a letter
      have hdot : (lit ".").getLast? = some 46 := by decide
      have hletter : (lit ".buddy").getLast? = some 121 := by decide
      have hlast := congrArg List.getLast? ht
      rw [List.getLast?_append, List.getLast?_append, hdot, hletter] at hlast
      exact absurd (Option.some.inj hlast) (by decide)
    · rw [toLower_eq hlower hq (hascii _ (ascii_of_all (by decide)))]
      have hsplit : l ++ lit ".buddy." = (l ++ buddyTLD) ++ lit "." := by
        rw [append_assoc]
        rfl
      rw [hsplit, trimSuffix_append]
  unfold resolve
  rw [htrim]
  rw [if_neg (not_not.2 (suffix_append l buddyTLD)), trimSuffix_append,
    if_neg (not_or.2 ⟨hl.nonempty, hl.dotless⟩)]

end Query

/-! ### The table -/

section Table

variable {cr : Crypto} {ps : List Peer}

/-- What the table gets from a record. -/
def entriesOf (cr : Crypto) (p : Peer) : List (Bytes × Addr) :=
  match Go.parseAddr p.virtualIP with
  | none => []
  | some ip => (if p.name ≠ [] then [(p.name, ip)] else []) ++ [(fingerprint cr p.pubkey, ip)]

/-- What it gets from the node itself. -/
def selfEntries (selfName : Bytes) (selfIP : Option Addr) : List (Bytes × Addr) :=
  match selfIP with
  | none => []
  | some ip => if selfName ≠ [] then [(selfName, ip)] else []

theorem foldl_addPeer (cr : Crypto) (ps : List Peer) (table : AList fun _ : Bytes => Addr) :
    ps.foldl (addPeer cr) table = Go.fill Prod.fst Prod.snd (ps.flatMap (entriesOf cr)) table := by
  induction ps generalizing table with
  | nil => rfl
  | cons p ps ih =>
    have hadd : addPeer cr table p = Go.fill Prod.fst Prod.snd (entriesOf cr p) table := by
      unfold addPeer entriesOf
      cases Go.parseAddr p.virtualIP with
      | none => rfl
      | some ip =>
        split_ifs <;> rfl
    rw [foldl_cons, ih, hadd, flatMap_cons]
    exact foldl_append.symm

theorem buildTable_eq (cr : Crypto) (ps : List Peer) (selfName : Bytes) (selfIP : Option Addr) :
    buildTable cr ps selfName selfIP =
      Go.fill Prod.fst Prod.snd (ps.flatMap (entriesOf cr) ++ selfEntries selfName selfIP) ∅ := by
  have hpeers := foldl_addPeer cr ps ∅
  unfold buildTable selfEntries
  rw [hpeers]
  cases selfIP with
  | none => rw [append_nil]
  | some ip =>
    split_ifs
    · rw [Go.fill, Go.fill, foldl_append]
      rfl
    · rw [append_nil]

variable {l : Bytes}

theorem mem_entriesOf {p : Peer} {ip : Addr} :
    (l, ip) ∈ entriesOf cr p ↔ Go.parseAddr p.virtualIP = some ip ∧
      (p.name ≠ [] ∧ l = p.name ∨ l = fingerprint cr p.pubkey) := by
  unfold entriesOf
  cases Go.parseAddr p.virtualIP with
  | none => simp
  | some ip' =>
    by_cases hname : p.name = []
    · simp [hname, and_comm, eq_comm]
    · simp [hname, and_or_left, and_comm, eq_comm]

/-- The names are labels, no two records share a name or an alias, and the node's own name is none
of them. -/
structure Apart (cr : Crypto) (ps : List Peer) (selfName : Bytes) : Prop where
  nodup : ps.Nodup
  labels : ∀ p ∈ ps, p.name ≠ [] → isFingerprint p.name = false
  names : ∀ p ∈ ps, ∀ q ∈ ps, p.name ≠ [] → p.name = q.name → p = q
  aliases : ∀ p ∈ ps, ∀ q ∈ ps, fingerprint cr p.pubkey = fingerprint cr q.pubkey → p = q
  self : selfName ≠ [] → isFingerprint selfName = false ∧ ∀ p ∈ ps, p.name ≠ selfName

variable {selfName : Bytes}

/-- **The parts of the table do not meet.** -/
theorem nodup_labels (hsha : ∀ s, (cr.sha256 s).length = 32)
    (h : Apart cr ps selfName) (selfIP : Option Addr) :
    ((ps.flatMap (entriesOf cr) ++ selfEntries selfName selfIP).map Prod.fst).Nodup := by
  have hfp : ∀ {l k}, l = fingerprint cr k → isFingerprint l = true := by
    rintro l k rfl
    exact isFingerprint_fingerprint hsha k
  have hlabel : ∀ {p l}, l ∈ (entriesOf cr p).map Prod.fst →
      p.name ≠ [] ∧ l = p.name ∨ l = fingerprint cr p.pubkey := by
    intro p l hl
    obtain ⟨⟨l', ip⟩, hmem, rfl⟩ := mem_map.1 hl
    exact (mem_entriesOf.1 hmem).2
  have hblock : ∀ p ∈ ps, ((entriesOf cr p).map Prod.fst).Nodup := by
    intro p hp
    unfold entriesOf
    split
    · exact nodup_nil
    · split_ifs with hname
      · have hne : p.name ≠ fingerprint cr p.pubkey := fun heq => by
          have hnot := h.labels p hp hname
          rw [hfp heq] at hnot
          cases hnot
        simpa using hne
      · simp
  have hdisjoint : ∀ p ∈ ps, ∀ q ∈ ps, p ≠ q →
      ((entriesOf cr p).map Prod.fst).Disjoint ((entriesOf cr q).map Prod.fst) := by
    intro p hp q hq hne l hlp hlq
    rcases hlabel hlp with ⟨hname, rfl⟩ | hpl <;> rcases hlabel hlq with ⟨hname', hql⟩ | hql
    · exact hne (h.names p hp q hq hname hql)
    · have hnot := h.labels p hp hname
      rw [hfp hql] at hnot
      cases hnot
    · have hnot := h.labels q hq hname'
      rw [← hql, hfp hpl] at hnot
      cases hnot
    · exact hne (h.aliases p hp q hq (hpl.symm.trans hql))
  rw [map_append, map_flatMap]
  refine nodup_append'.2 ⟨nodup_flatMap.2 ⟨hblock, ?_⟩, ?_, ?_⟩
  · exact h.nodup.pairwise_of_forall_ne hdisjoint
  · unfold selfEntries
    split
    · exact nodup_nil
    · split_ifs <;> simp
  · intro l hl hself
    obtain ⟨p, hp, hlp⟩ := mem_flatMap.1 hl
    have hown : l = selfName ∧ selfName ≠ [] := by
      unfold selfEntries at hself
      split at hself
      · cases hself
      · split_ifs at hself with hne
        · exact ⟨by simpa using hself, hne⟩
        · cases hself
    obtain ⟨rfl, hne⟩ := hown
    obtain ⟨hshape, hother⟩ := h.self hne
    rcases hlabel hlp with ⟨-, heq⟩ | heq
    · exact hother p hp heq.symm
    · rw [hfp heq] at hshape
      cases hshape

theorem mem_selfEntries {selfIP : Option Addr} {ip : Addr} :
    (l, ip) ∈ selfEntries selfName selfIP ↔ selfName ≠ [] ∧ l = selfName ∧ selfIP = some ip := by
  unfold selfEntries
  cases selfIP with
  | none => simp
  | some ip' =>
    by_cases hself : selfName = []
    · simp [hself]
    · simp [hself, eq_comm]

/-- **The table has the address of the owner** under a name and under an alias. -/
theorem lookup_buildTable (hsha : ∀ s, (cr.sha256 s).length = 32)
    (h : Apart cr ps selfName) (selfIP : Option Addr) {p : Peer} (hp : p ∈ ps)
    (hl : p.name ≠ [] ∧ l = p.name ∨ l = fingerprint cr p.pubkey) :
    (buildTable cr ps selfName selfIP).lookup l = Go.parseAddr p.virtualIP := by
  have hfp : ∀ k, isFingerprint (fingerprint cr k) = true := isFingerprint_fingerprint hsha
  rw [buildTable_eq]
  refine Option.ext fun ip => ?_
  rw [Go.lookup_fill (nodup_labels hsha h selfIP)]
  constructor
  · rintro ⟨⟨l', ip'⟩, hmem, rfl, rfl⟩
    dsimp only at hl ⊢
    rcases mem_append.1 hmem with hpeer | hself
    · obtain ⟨q, hq, hqe⟩ := mem_flatMap.1 hpeer
      obtain ⟨hip, hql⟩ := mem_entriesOf.1 hqe
      -- the entry is of the same record
      have hsame : q = p := by
        rcases hl with ⟨hname, hl⟩ | hl <;> rcases hql with ⟨hname', hql⟩ | hql
        · exact h.names q hq p hp hname' (hql.symm.trans hl)
        · have hnot := h.labels p hp hname
          rw [← hl, hql, hfp] at hnot
          cases hnot
        · have hnot := h.labels q hq hname'
          rw [← hql, hl, hfp] at hnot
          cases hnot
        · exact h.aliases q hq p hp (hql.symm.trans hl)
      rw [← hsame]
      exact hip
    · obtain ⟨hne, hown, -⟩ := mem_selfEntries.1 hself
      obtain ⟨hshape, hother⟩ := h.self hne
      rcases hl with ⟨-, hl⟩ | hl
      · exact absurd (hl.symm.trans hown) (hother p hp)
      · rw [← hown, hl, hfp] at hshape
        cases hshape
  · intro hip
    refine ⟨(l, ip), mem_append_left _ (mem_flatMap.2 ⟨p, hp, ?_⟩), rfl, rfl⟩
    exact mem_entriesOf.2 ⟨hip, hl⟩

end Table

end BuddyNet.Dns

namespace BuddyNet.Cache

open Dns Registry Machine List Go
open Handshake (Peer)

/-- A snapshot of a registry with labels for names goes into a table without clashes. -/
theorem apart_list {r : Registry} (h : r.Consistent) (hl : Labels r) {cr : Crypto}
    {selfName : Bytes} (hself : selfName = [] ∨ (∀ k, r.keyByName.lookup selfName ≠ some k) ∧
      isFingerprint selfName = false)
    (hfp : ∀ k ∈ r.peers, ∀ k' ∈ r.peers, fingerprint cr k = fingerprint cr k' → k = k')
    (order : List Bytes) : Apart cr (r.list order) selfName := by
  have hlist := listing_list h.keyed order
  have hlookup : ∀ p ∈ r.list order, r.peers.lookup p.pubkey = some p := fun p hp =>
    (hlist.lookup_iff p.pubkey p).2 ⟨hp, rfl⟩
  have hpinned : ∀ p ∈ r.list order, p.name ≠ [] → r.nameByKey.lookup p.pubkey = some p.name :=
    fun p hp hne => (h.recorded _ _).2 ⟨hne, p, hlookup p hp, rfl⟩
  have hmem : ∀ p ∈ r.list order, p.pubkey ∈ r.peers := fun p hp =>
    AList.mem_keys.2 (mem_keys_of_lookup (hlookup p hp))
  refine ⟨hlist.nodup.of_map _, fun p hp hne => ?_, hlist.consistent_names h,
    fun p hp q hq heq => ?_, fun hne => ?_⟩
  · exact not_isFingerprint_of_validName (hl _ _ (hpinned p hp hne))
  · have hkey := hfp _ (hmem p hp) _ (hmem q hq) heq
    have hpk := hlookup p hp
    rw [hkey] at hpk
    exact Option.some.inj (hpk.symm.trans (hlookup q hq))
  · obtain ⟨hfree, hshape⟩ := hself.resolve_left hne
    refine ⟨hshape, fun p hp heq => ?_⟩
    have howner := (h.inverse _ _).1 (hpinned p hp (heq ▸ hne))
    rw [heq] at howner
    exact hfree _ howner

/-- **Names belong to their first owner.** In every run the two name maps are inverse to each other,
and no later event takes a name from its key or gives a key another name. A query for a name finds
the address of its owner, and one for an alias the address of the key with that fingerprint. -/
theorem names_belong {c : Codec} (hc : c.Lawful) {cr : Crypto}
    (hsha : ∀ s, (cr.sha256 s).length = 32) {toLower : Bytes → Bytes}
    (hlower : ∀ s : Bytes, (∀ b ∈ s, b.toNat < 128) → toLower s = lowerASCII s)
    {es es' : List Event} (hes : ∀ e ∈ es ++ es', e.Proper)
    (hlabels : ∀ e ∈ es ++ es', e.Labelled) :
    (∀ k n, (run (Store.step c) {} es).reg.nameByKey.lookup k = some n ↔
      (run (Store.step c) {} es).reg.keyByName.lookup n = some k) ∧
    NamesStay (run (Store.step c) {} es).reg
      (run (Store.step c) {} (es ++ es')).reg ∧
    ∀ selfName selfIP order,
      (selfName = [] ∨
        (∀ k, (run (Store.step c) {} es).reg.keyByName.lookup selfName ≠ some k) ∧
          isFingerprint selfName = false) →
      (∀ k ∈ (run (Store.step c) {} es).reg.peers,
        ∀ k' ∈ (run (Store.step c) {} es).reg.peers,
          fingerprint cr k = fingerprint cr k' → k = k') →
      ∀ k p, (run (Store.step c) {} es).reg.peers.lookup k = some p → ∀ q,
        (∀ n, (run (Store.step c) {} es).reg.keyByName.lookup n = some k →
          lowerASCII q = n ++ lit ".buddy" ∨ lowerASCII q = n ++ lit ".buddy." →
          resolve toLower (buildTable cr ((run (Store.step c) {} es).reg.list order)
            selfName selfIP) q = parseAddr p.virtualIP) ∧
        (lowerASCII q = fingerprint cr k ++ lit ".buddy" ∨
            lowerASCII q = fingerprint cr k ++ lit ".buddy." →
          resolve toLower (buildTable cr ((run (Store.step c) {} es).reg.list order)
            selfName selfIP) q = parseAddr p.virtualIP) := by
  have hpre : ∀ e ∈ es, e.Proper := fun e he => hes e (mem_append_left _ he)
  have hin := inStep_run hc (inStep_empty c) hpre
  have hl : Labels (run (Store.step c) {} es).reg :=
    labels_run hc hpre fun e he => hlabels e (mem_append_left _ he)
  refine ⟨hin.consistent.inverse, ?_, ?_⟩
  · rw [run_append]
    exact names_stay_run hc hin fun e he => hes e (mem_append_right _ he)
  · intro selfName selfIP order hself hfp k p hp q
    have hcons := hin.consistent
    have hapart := apart_list hcons hl hself hfp order
    obtain ⟨hmem, hkey⟩ := ((listing_list hcons.keyed order).lookup_iff k p).1 hp
    constructor
    · intro n hn hq
      have hname := (hcons.inverse k n).2 hn
      obtain ⟨hne, p', hp', hpn⟩ := (hcons.recorded k n).1 hname
      cases hp.symm.trans hp'
      rw [resolve_label hlower (plain_of_validName (hl k n hname)) hq]
      exact lookup_buildTable hsha hapart selfIP hmem (Or.inl ⟨hpn ▸ hne, hpn.symm⟩)
    · intro hq
      rw [resolve_label hlower (plain_of_isFingerprint (isFingerprint_fingerprint hsha k)) hq]
      exact lookup_buildTable hsha hapart selfIP hmem (Or.inr (by rw [hkey]))

namespace Sample

/-- A digest for the example: the input, filled up. -/
def crypto : Crypto where
  ed25519Sign := fun _ _ => []
  ed25519Verify := fun _ _ _ => false
  hmacSHA256 := fun _ _ => []
  sha256 := fun s => (s ++ replicate 32 0).take 32

end Sample

open Sample in
/-- A record without a key is written and not read back, so after a restart its name is free. -/
theorem names_belong_fails :
    compact.Lawful ∧
      (∀ e ∈ [Event.upsert 1 [] (alice []), .reopen, .upsert 2 [] (alice (lit "key"))],
        e.Labelled) ∧
      (run (Store.step compact) {}
        [.upsert 1 [] (alice [])]).reg.keyByName.lookup (lit "alice") = some [] ∧
      (run (Store.step compact) {} [.upsert 1 [] (alice []), .reopen,
        .upsert 2 [] (alice (lit "key"))]).reg.keyByName.lookup (lit "alice") =
    some (lit "key") := by
  refine ⟨compact_lawful, ?_, by decide +kernel, by decide +kernel⟩
  have hlabel : validName (lit "alice") = true := by decide
  simp only [forall_mem_cons]
  exact ⟨Or.inr hlabel, trivial, Or.inr hlabel, forall_mem_nil _⟩

namespace Sample

/-- Another key with an address of its own, which claims the name. -/
def mallory : Peer where
  id := lit "idM"
  pubkey := lit "other"
  virtualIP := lit "10.66.6.6"
  name := lit "alice"
  candidates := []
  relay := []
  lastSeen := 100

/-- The owner is seen first, then the other key; then the program is started again. -/
def rivals : List Event := [.upsert 1 [] (alice (lit "key")), .upsert 2 [] mallory, .reopen]

theorem mallory_textual : Buddy.PeerTextual (stamp 2 mallory) := by
  have hid : Utf8 (lit "idM") := utf8_of_all (by decide)
  have hkey : Utf8 (lit "other") := utf8_of_all (by decide)
  have hvip : Utf8 (lit "10.66.6.6") := utf8_of_all (by decide)
  have hname : Utf8 (lit "alice") := utf8_of_all (by decide)
  have hseen : -2 ^ 63 ≤ (100 : ℤ) ∧ (100 : ℤ) < 2 ^ 63 := by decide
  exact ⟨hid, hkey, hvip, hname, forall_mem_nil _, .nil, hseen⟩

theorem rivals_proper : ∀ e ∈ rivals ++ [], e.Proper := by
  have howner : Utf8 (lit "key") := utf8_of_all (by decide)
  rw [append_nil, rivals, forall_mem_cons, forall_mem_cons,
    forall_mem_singleton]
  refine ⟨⟨?_, alice_textual howner 1⟩, ⟨?_, mallory_textual⟩, trivial⟩
  · exact cons_ne_nil _ _
  · exact cons_ne_nil _ _

end Sample

open Sample in
/-- Both keys have their records, and the name leads to the first. -/
theorem names_belong_alice :
    (run (Store.step compact) {} rivals).reg.peers.keys = [lit "other", lit "key"] ∧
    (run (Store.step compact) {} rivals).reg.keyByName.lookup (lit "alice") =
      some (lit "key") ∧
    resolve lowerASCII (buildTable crypto ((run (Store.step compact) {} rivals).reg.list
      []) (lit "bob") none) (lit "Alice.BUDDY.") = some ⟨[10, 66, 1, 2], []⟩ := by
  have hkeys : (run (Store.step compact) {} rivals).reg.peers.keys =
      [lit "other", lit "key"] := by decide +kernel
  have hkey : (run (Store.step compact) {} rivals).reg.keyByName.lookup (lit "alice") =
      some (lit "key") := by decide +kernel
  have hpeer : (run (Store.step compact) {} rivals).reg.peers.lookup (lit "key") =
      some (alice (lit "key")) := by decide +kernel
  have hself : (run (Store.step compact) {} rivals).reg.keyByName.lookup (lit "bob") =
      none := by decide +kernel
  have hsha : ∀ s, (crypto.sha256 s).length = 32 := by
    intro s
    show ((s ++ replicate 32 0).take 32).length = 32
    rw [length_take, length_append, length_replicate]
    omega
  have hlabel : ∀ e ∈ rivals ++ [], e.Labelled := by
    simp only [rivals, append_nil, forall_mem_cons]
    exact ⟨Or.inr (by decide), Or.inr (by decide), trivial, forall_mem_nil _⟩
  have hfp : ∀ k ∈ [lit "other", lit "key"], ∀ k' ∈ [lit "other", lit "key"],
      fingerprint crypto k = fingerprint crypto k' → k = k' := by decide +kernel
  refine ⟨hkeys, hkey, (((names_belong compact_lawful hsha (fun _ _ => rfl) rivals_proper
    hlabel).2.2 (lit "bob") none [] (Or.inr ⟨fun k hk => ?_, by decide⟩) (fun k hk k' hk' => ?_) _ _
    hpeer _).1 _ hkey (Or.inr (by decide +kernel))).trans (by decide +kernel)⟩
  · cases hself.symm.trans hk
  · rw [AList.mem_keys, hkeys] at hk hk'
    exact hfp k hk k' hk'

end BuddyNet.Cache
