import BuddyNet.Go.NetText
import BuddyNet.Go.Trim
import BuddyNet.Library.Gather
import BuddyNet.Supervisor
import BuddyNet.Trust.Commands

/-!
# The text of an exposure

`ParseScope` gives scopes in a normal form (`parseScope_normal`), whether the text comes from the
command line or from a manifest, and a scope in normal form is read back from the value that
`MarshalYAML` writes for it (`scope_exposeNode`) and from its own text. The text of an accepted
scope therefore names the set of ports it denotes, and `sameScope` compares sets
(`scope_canonical`).
-/

namespace BuddyNet.Nft

open List

/-! ### The normal form -/

/-- The whole host, or some ports in order, none of them twice and none of them zero. -/
inductive Scope.Normal : Scope → Prop
  | all : Normal { all := true }
  | ports {ps : List Port} (ne : ps ≠ []) (nodup : ps.Nodup)
      (sorted : ps.Pairwise fun p q => Port.le p q = true) (nonzero : ∀ p ∈ ps, p.port ≠ 0) :
      Normal { ports := ps }

theorem Port.le_total (p q : Port) : Port.le p q = true ∨ Port.le q p = true := by
  obtain ⟨proto, port⟩ := p
  obtain ⟨proto', port'⟩ := q
  cases proto <;> cases proto' <;> simp [Port.le, UInt16.le_total]

variable {p : Port}

theorem Port.le_trans {q r : Port} (hpq : Port.le p q = true) (hqr : Port.le q r = true) :
    Port.le p r = true := by
  obtain ⟨proto, port⟩ := p
  obtain ⟨proto', port'⟩ := q
  obtain ⟨proto'', port''⟩ := r
  cases proto <;> cases proto' <;> cases proto'' <;> simp_all [Port.le]
  · exact UInt16.le_trans hpq hqr
  · exact UInt16.le_trans hpq hqr

instance : Std.Total fun p q : Port => Port.le p q = true := ⟨Port.le_total⟩

instance : IsTrans Port fun p q => Port.le p q = true := ⟨fun _ _ _ => Port.le_trans⟩

theorem parsePort_nonzero {part : Bytes} (h : parsePort part = .ok p) : p.port ≠ 0 := by
  unfold parsePort at h
  dsimp only at h
  split at h
  · cases h
  · split at h
    · split_ifs at h with hzero
      cases h
      exact hzero
    · cases h

variable {s : Scope}

/-- What a number of additions leaves: the ports of both, none of them twice. -/
theorem foldl_add_spec (ps : List Port) (h : s.ports.Nodup) :
    (ps.foldl Scope.add s).all = s.all ∧ (ps.foldl Scope.add s).ports.Nodup ∧
      ∀ p, p ∈ (ps.foldl Scope.add s).ports ↔ p ∈ s.ports ∨ p ∈ ps := by
  induction ps generalizing s with
  | nil => exact ⟨rfl, h, fun p => by simp⟩
  | cons q ps ih =>
    have hadd : (s.add q).all = s.all ∧ (s.add q).ports.Nodup ∧
        ∀ p, p ∈ (s.add q).ports ↔ p ∈ s.ports ∨ p = q := by
      unfold Scope.add
      split_ifs with hq
      · refine ⟨rfl, h, fun p => ⟨Or.inl, ?_⟩⟩
        rintro (hp | rfl)
        · exact hp
        · exact hq
      · refine ⟨rfl, ?_, fun p => by simp⟩
        exact nodup_append.2 ⟨h, nodup_singleton q, fun p hp q' hq' heq =>
          hq (mem_singleton.1 hq' ▸ heq ▸ hp)⟩
    obtain ⟨hall, hnodup, hmem⟩ := ih hadd.2.1
    refine ⟨hall.trans hadd.1, hnodup, fun p => ?_⟩
    rw [foldl_cons, hmem, hadd.2.2, mem_cons, or_assoc]

/-- Different ports are added one behind the other. -/
theorem foldl_add_of_nodup {ps : List Port} (h : (s.ports ++ ps).Nodup) :
    ps.foldl Scope.add s = { s with ports := s.ports ++ ps } := by
  induction ps generalizing s with
  | nil => rw [append_nil]; rfl
  | cons q ps ih =>
    have hnew : q ∉ s.ports := fun hq =>
      (nodup_append.1 h).2.2 q hq q mem_cons_self rfl
    have hadd : s.add q = { s with ports := s.ports ++ [q] } := if_neg hnew
    have hsplit : s.ports ++ q :: ps = (s.ports ++ [q]) ++ ps := by rw [append_assoc]; rfl
    rw [hsplit] at h ⊢
    rw [foldl_cons, hadd, ih h]

variable {spec : Bytes}

/-- What `ParseScope` accepts: the word for the whole host, or ports, which it sorts. -/
theorem parseScope_spec (h : parseScope spec = .ok s) :
    (Go.lowerASCII (Go.trimSpace spec) = lit "all" ∧ s = { all := true }) ∨
    Go.lowerASCII (Go.trimSpace spec) ≠ lit "all" ∧ s = { ports := s.ports } ∧ s.Normal ∧
      ∀ p, p ∈ s.ports ↔ ∃ part ∈ (Go.trimSpace spec).splitOn 44, parsePort part = .ok p := by
  simp only [parseScope] at h
  split_ifs at h with hempty hall
  · exact Or.inl ⟨hall, (Except.ok.inj h).symm⟩
  · cases hports : ((Go.trimSpace spec).splitOn 44).mapM parsePort with
    | error e => simp [hports, bind, Except.bind] at h
    | ok ps =>
      simp only [hports, bind, Except.bind, pure, Except.pure, Except.ok.injEq] at h
      have hgives := Gather.mapM_eq_ok.1 hports
      obtain ⟨hfalse, hnodup, hmem⟩ := foldl_add_spec ps (s := {}) nodup_nil
      have hne : ps ≠ [] := by
        rintro rfl
        exact splitOn_ne_nil 44 (Go.trimSpace spec) (forall₂_nil_right_iff.1 hgives)
      have hsame : ∀ p, p ∈ s.ports ↔ p ∈ ps := fun p => by
        rw [← h, Scope.normalize, mem_insertionSort, hmem]
        exact or_iff_right not_mem_nil
      have hs : s = { ports := s.ports } := by
        rw [← h, Scope.normalize, hfalse]
      have hread : ∀ p, p ∈ s.ports ↔
          ∃ part ∈ (Go.trimSpace spec).splitOn 44, parsePort part = .ok p := by
        refine fun p => (hsame p).trans ⟨hgives.mem, ?_⟩
        rintro ⟨part, hpart, hp⟩
        obtain ⟨q, hq, hread⟩ := hgives.exists_of_mem hpart
        cases hp.symm.trans hread
        exact hq
      refine Or.inr ⟨hall, hs, hs ▸ .ports ?_ ?_ ?_ fun p hp => ?_, hread⟩
      · obtain ⟨p, hp⟩ := exists_mem_of_ne_nil ps hne
        exact ne_nil_of_mem ((hsame p).2 hp)
      · rw [← h]
        exact (perm_insertionSort _ _).nodup_iff.2 hnodup
      · rw [← h]
        exact pairwise_insertionSort _ _
      · obtain ⟨part, -, hpart⟩ := (hread p).1 hp
        exact parsePort_nonzero hpart

/-- **What `ParseScope` accepts is in normal form.** -/
theorem parseScope_normal (h : parseScope spec = .ok s) : s.Normal := by
  rcases parseScope_spec h with ⟨-, rfl⟩ | ⟨-, -, hnormal, -⟩
  · exact .all
  · exact hnormal

/-! ### What a scope denotes -/

/-- The set of ports, or the whole host. -/
def Scope.denote (s : Scope) : Option (Set Port) :=
  if s.all then none else some {p | p ∈ s.ports}

/-- The set of ports that a specification names, or the whole host. -/
def written (spec : Bytes) : Option (Set Port) :=
  if Go.lowerASCII (Go.trimSpace spec) = lit "all" then none
  else some {p | ∃ part ∈ (Go.trimSpace spec).splitOn 44, parsePort part = .ok p}

theorem denote_parseScope (h : parseScope spec = .ok s) : s.denote = written spec := by
  rcases parseScope_spec h with ⟨hall, rfl⟩ | ⟨hall, hs, -, hread⟩
  · exact (if_pos hall).symm
  · rw [written, if_neg hall, hs]
    exact congrArg some (Set.ext hread)

theorem Port.le_antisymm {q : Port} (hpq : Port.le p q = true) (hqp : Port.le q p = true) :
    p = q := by
  obtain ⟨proto, port⟩ := p
  obtain ⟨proto', port'⟩ := q
  cases proto <;> cases proto' <;> simp_all [Port.le]
  · exact UInt16.le_antisymm hpq hqp
  · exact UInt16.le_antisymm hpq hqp

/-- A scope in normal form is determined by its ports. -/
theorem Scope.Normal.eq_of_denote {t : Scope} (hs : s.Normal) (ht : t.Normal)
    (h : s.denote = t.denote) : s = t := by
  cases hs with
  | all =>
    cases ht with
    | all => rfl
    | ports => cases h
  | @ports ps _ hnodup hsorted _ =>
    cases ht with
    | all => cases h
    | @ports qs _ hnodup' hsorted' _ =>
      have hset : {p | p ∈ ps} = {p | p ∈ qs} := Option.some.inj h
      have hperm : ps.Perm qs := (perm_ext_iff_of_nodup hnodup hnodup').2 fun p =>
        iff_of_eq (congrFun hset p)
      rw [hperm.eq_of_pairwise (fun _ _ _ _ => Port.le_antisymm) hsorted hsorted']

/-! ### Reading a list of ports -/

variable {c : UInt8}

theorem isToken_digits {s : Bytes} (h : ∀ c ∈ s, 48 ≤ c.toNat ∧ c.toNat ≤ 57 ∨ c ∈ lit "tcpud/,") :
    Go.IsToken s := by
  have hsigns : ∀ c ∈ lit "tcpud/,", 33 ≤ c.toNat ∧ c.toNat < 0x80 := by decide +kernel
  intro c hc
  rcases h c hc with hdigit | hsign
  · exact Go.solid_of_visible ⟨by omega, by omega⟩
  · exact Go.solid_of_visible (hsigns c hsign)

/-- A way to write ports that `parsePort` reads. -/
structure Readable (text : Port → Bytes) : Prop where
  char : ∀ {p c}, c ∈ text p → 48 ≤ c.toNat ∧ c.toNat ≤ 57 ∨ c ∈ lit "tcpud/"
  parse : ∀ {p}, p.port ≠ 0 → parsePort (text p) = .ok p

theorem mem_intercalate {sep : UInt8} {ls : List Bytes} (h : c ∈ [sep].intercalate ls) :
    c = sep ∨ ∃ l ∈ ls, c ∈ l := by
  induction ls with
  | nil => cases h
  | cons l ls ih =>
    cases ls with
    | nil => exact Or.inr ⟨l, mem_cons_self, by simpa using h⟩
    | cons l' ls =>
      rw [intercalate_cons_cons] at h
      rcases mem_append.1 h with h | h
      · rcases mem_append.1 h with h | h
        · exact Or.inr ⟨l, mem_cons_self, h⟩
        · exact Or.inl (mem_singleton.1 h)
      · rcases ih h with h | ⟨l'', hl'', hc⟩
        · exact Or.inl h
        · exact Or.inr ⟨l'', mem_cons_of_mem _ hl'', hc⟩

namespace Readable

variable {text : Port → Bytes} {ps : List Port} (htext : Readable text)
include htext

theorem mem_list (h : c ∈ (lit ",").intercalate (ps.map text)) :
    48 ≤ c.toNat ∧ c.toNat ≤ 57 ∨ c ∈ lit "tcpud/," := by
  have hsub : lit "tcpud/" ⊆ lit "tcpud/," := by decide
  rcases mem_intercalate h with rfl | ⟨l, hl, hc⟩
  · exact Or.inr (by decide)
  · obtain ⟨p, -, rfl⟩ := mem_map.1 hl
    exact (htext.char hc).imp_right fun hc => hsub hc

/-- A list of ports is not the word for the whole host. -/
theorem list_ne_all (ps : List Port) :
    Go.lowerASCII ((lit ",").intercalate (ps.map text)) ≠ lit "all" := by
  intro hall
  have hmem : (97 : UInt8) ∈ Go.lowerASCII ((lit ",").intercalate (ps.map text)) := by
    rw [hall]
    decide
  obtain ⟨c, hc, hlower⟩ := mem_map.1 hmem
  have hchars : ∀ n : Fin 256, (48 ≤ n.1 ∧ n.1 ≤ 57 ∨ UInt8.ofNat n.1 ∈ lit "tcpud/,") →
      (if 65 ≤ n.1 ∧ n.1 ≤ 90 then UInt8.ofNat n.1 + 32 else UInt8.ofNat n.1) ≠ 97 := by
    decide +kernel
  have hchar := hchars ⟨c.toNat, c.toNat_lt⟩
  rw [UInt8.ofNat_toNat] at hchar
  exact hchar (htext.mem_list hc) hlower

/-- Ports in normal form are parsed from their texts. -/
theorem parseScope_list (hne : ps ≠ []) (hnodup : ps.Nodup)
    (hsorted : ps.Pairwise fun p q => Port.le p q = true) (hnonzero : ∀ p ∈ ps, p.port ≠ 0) :
    parseScope ((lit ",").intercalate (ps.map text)) = .ok { ports := ps } := by
  have htexts : ps.map text ≠ [] := by simpa using hne
  have hcomma : ∀ l ∈ ps.map text, (44 : UInt8) ∉ l := by
    intro l hl hmem
    obtain ⟨p, -, rfl⟩ := mem_map.1 hl
    rcases htext.char hmem with hdigit | hproto
    · exact absurd hdigit.1 (by decide)
    · exact absurd hproto (by decide)
  have hsplit : ((lit ",").intercalate (ps.map text)).splitOn 44 = ps.map text :=
    splitOn_intercalate 44 hcomma htexts
  have hports : (ps.map text).mapM parsePort = .ok ps := by
    refine Gather.mapM_eq_ok.2 (forall₂_map_left_iff.2 (forall₂_same.2 fun p hp => ?_))
    exact htext.parse (hnonzero p hp)
  have hspec : (lit ",").intercalate (ps.map text) ≠ [] := by
    intro hnil
    rw [hnil] at hsplit
    obtain ⟨p, ps, rfl⟩ := exists_cons_of_ne_nil hne
    have hread := htext.parse (hnonzero p mem_cons_self)
    rw [← (List.cons.inj hsplit).1] at hread
    cases hread
  unfold parseScope
  rw [Go.trimSpace_token (isToken_digits fun _ => htext.mem_list), if_neg hspec,
    if_neg (htext.list_ne_all ps), hsplit, hports]
  show Except.ok _ = _
  rw [foldl_add_of_nodup (s := {}) hnodup]
  show Except.ok (Scope.mk false (ps.insertionSort _)) = _
  rw [hsorted.insertionSort_eq]

end Readable

theorem Port.mem_string (h : c ∈ p.string) : 48 ≤ c.toNat ∧ c.toNat ≤ 57 ∨ c ∈ lit "tcpud/" := by
  rcases mem_append.1 h with h | h
  · have hsub : lit "tcp/" ⊆ lit "tcpud/" ∧ lit "udp/" ⊆ lit "tcpud/" := by decide
    split at h
    · exact Or.inr (hsub.1 h)
    · exact Or.inr (hsub.2 h)
  · exact Or.inl (Go.mem_itoa h)

theorem readable_string : Readable Port.string where
  char := Port.mem_string
  parse := by
    rintro ⟨proto, port⟩ h
    have htrim : Go.trimSpace (Port.string ⟨proto, port⟩) = Port.string ⟨proto, port⟩ := by
      have hsub : lit "tcpud/" ⊆ lit "tcpud/," := by decide
      exact Go.trimSpace_token (isToken_digits fun c hc => (Port.mem_string hc).imp_right (hsub ·))
    have hdrop : (Port.string ⟨proto, port⟩).dropWhile (fun c => decide (c ≠ 47)) =
        47 :: Go.itoa port.toNat := by cases proto <;> rfl
    obtain ⟨name, htake, hname⟩ : ∃ name,
        (Port.string ⟨proto, port⟩).takeWhile (fun c => decide (c ≠ 47)) = name ∧
        Proto.parse (Go.lowerASCII (Go.trimSpace name)) = some proto := by
      cases proto with
      | tcp => exact ⟨lit "tcp", rfl, by decide⟩
      | udp => exact ⟨lit "udp", rfl, by decide⟩
    unfold parsePort
    dsimp only
    rw [htrim, hdrop]
    dsimp only
    rw [htake, hname, Go.trimSpace_token (Go.itoa_isToken _), Go.parseUint16_itoa]
    exact if_neg h

/-- A scope in normal form is parsed from its text. -/
theorem Scope.Normal.parseScope_string (h : s.Normal) : parseScope s.string = .ok s := by
  cases h with
  | all => decide
  | @ports ps hne hnodup hsorted hnonzero =>
    have hstring : Scope.string { ports := ps } = (lit ",").intercalate (ps.map Port.string) :=
      if_neg hne
    rw [hstring]
    exact readable_string.parseScope_list hne hnodup hsorted hnonzero

end BuddyNet.Nft

namespace BuddyNet.Trust

/-! ### Writing and reading back -/

/-- A port as it is written into a manifest. -/
def portText (p : Nft.Port) : Bytes :=
  match p.proto with
  | .tcp => Go.itoa p.port.toNat
  | .udp => lit "udp/" ++ Go.itoa p.port.toNat

theorem readable_portText : Nft.Readable portText where
  char := by
    rintro ⟨proto, port⟩ c h
    cases proto with
    | tcp => exact Or.inl (Go.mem_itoa h)
    | udp => exact Nft.Port.mem_string (p := ⟨.udp, port⟩) h
  parse := by
    rintro ⟨proto, port⟩ h
    cases proto with
    | tcp =>
      have hslash : (Go.itoa port.toNat).dropWhile (fun c => decide (c ≠ 47)) = [] := by
        refine List.dropWhile_eq_nil_iff.2 fun c hc => ?_
        rw [decide_eq_true_iff]
        rintro rfl
        exact absurd (Go.mem_itoa hc).1 (by decide)
      have hproto : Nft.Proto.parse (lit "tcp") = some .tcp := by decide
      unfold portText Nft.parsePort
      dsimp only
      rw [Go.trimSpace_token (Go.itoa_isToken _), hslash]
      dsimp only
      rw [hproto, Go.parseUint16_itoa]
      exact if_neg h
    | udp => exact Nft.readable_string.parse (p := ⟨.udp, port⟩) h

variable {s : Nft.Scope}

/-- **A scope in normal form is read back from what is written for it.** -/
theorem scope_exposeNode (h : s.Normal) : (exposeNode s).scope = .ok s := by
  cases h with
  | all => decide
  | @ports ps hne hnodup hsorted hnonzero =>
    have hparse := readable_portText.parseScope_list hne hnodup hsorted hnonzero
    have hnode : exposeNode { ports := ps } = .seq (ps.map portText) := rfl
    obtain ⟨p, ps, rfl⟩ := List.exists_cons_of_ne_nil hne
    rw [hnode, List.map_cons, ExposeNode.scope, ← List.map_cons, hparse]
    rintro ⟨⟩

theorem normal_of_scope {node : ExposeNode} (h : node.scope = .ok s) : s.Normal := by
  unfold ExposeNode.scope at h
  split at h
  · split_ifs at h
    cases h
    exact .all
  · cases h
  · split at h
    · next scope hscope =>
      cases h
      exact Nft.parseScope_normal hscope
    · cases h
  · cases h

theorem normal_of_parseExpose {expose : Bytes}
    (h : parseExpose expose = .ok (some s)) : s.Normal := by
  unfold parseExpose at h
  split_ifs at h
  · cases h
  · split at h
    · next scope hscope =>
      cases h
      exact Nft.parseScope_normal hscope
    · cases h

/-- **Exposures have a canonical form.** An accepted scope is sorted, has no port twice, denotes
what was written and is read back from its text; accepted scopes are equal, and so are their texts,
exactly when they denote the same set; so a reload sees a change exactly when there is one, where a
buddy without a scope of its own counts as different from every buddy with one. -/
theorem scope_canonical :
    (∀ spec s, Nft.parseScope spec = .ok s →
      (s.ports.Pairwise fun p q => Nft.Port.le p q = true) ∧ s.ports.Nodup ∧
        s.denote = Nft.written spec ∧ Nft.parseScope s.string = .ok s) ∧
    (∀ spec spec' s s', Nft.parseScope spec = .ok s → Nft.parseScope spec' = .ok s' →
      (s = s' ↔ Nft.written spec = Nft.written spec') ∧
        (s.string = s'.string ↔ s.denote = s'.denote)) ∧
    ∀ a b : Option Nft.Scope, (∀ s ∈ a, ∃ spec, Nft.parseScope spec = .ok s) →
      (∀ s ∈ b, ∃ spec, Nft.parseScope spec = .ok s) →
      (Supervisor.sameScope a b = true ↔ a.map (·.denote) = b.map (·.denote)) := by
  have hstring : ∀ {spec spec' s s'}, Nft.parseScope spec = .ok s →
      Nft.parseScope spec' = .ok s' → (s.string = s'.string ↔ s.denote = s'.denote) := by
    intro spec spec' s s' h h'
    have hs := Nft.parseScope_normal h
    have hs' := Nft.parseScope_normal h'
    refine ⟨fun heq => ?_, fun heq => by rw [hs.eq_of_denote hs' heq]⟩
    have hread := hs.parseScope_string
    rw [heq, hs'.parseScope_string] at hread
    rw [Except.ok.inj hread]
  refine ⟨fun spec s h => ?_, fun spec spec' s s' h h' => ⟨?_, hstring h h'⟩, fun a b ha hb => ?_⟩
  · have hs := Nft.parseScope_normal h
    refine ⟨?_, ?_, Nft.denote_parseScope h, hs.parseScope_string⟩
    · cases hs with
      | all => exact List.Pairwise.nil
      | ports _ _ hsorted _ => exact hsorted
    · cases hs with
      | all => exact List.nodup_nil
      | ports _ hnodup _ _ => exact hnodup
  · rw [← Nft.denote_parseScope h, ← Nft.denote_parseScope h']
    exact ⟨congrArg _, (Nft.parseScope_normal h).eq_of_denote (Nft.parseScope_normal h')⟩
  · cases a with
    | none => cases b <;> simp [Supervisor.sameScope]
    | some s =>
      cases b with
      | none => simp [Supervisor.sameScope]
      | some s' =>
        obtain ⟨spec, h⟩ := ha s rfl
        obtain ⟨spec', h'⟩ := hb s' rfl
        simp [Supervisor.sameScope, hstring h h']

end BuddyNet.Trust
