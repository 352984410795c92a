import BuddyNet.Cache.Registry

/-!
# Names belong to their first owner

The run of one node's cache: calls of `Upsert` whose save succeeds, and restarts that open the file
again. The file always lists the records of the registry, so a restart changes nothing.

* `InStep`: what holds in every state of a run;
* `names_stay`: no call and no restart moves a name or renames a key.
-/

namespace BuddyNet.Cache

open Machine Go

open Handshake (Peer)
open Buddy (PeerTextual)
open Registry

/-- The registry of a node and the file it is written to. -/
structure Store where
  reg : Registry := {}
  file : Option Bytes := none

/-- A call of `Upsert` with the clock and the order of its snapshot, or a restart. -/
inductive Event where
  | upsert (now : ℤ) (order : List Bytes) (p : Peer)
  | reopen

/-- What an event does when its save succeeds. -/
def Store.step (c : Codec) (s : Store) : Event → Store
  | .upsert now order p =>
    ⟨s.reg.upsert now p, some (c.marshal ((s.reg.upsert now p).list order))⟩
  | .reopen => { s with reg := openFile c s.file }

/-- A record with a key and with well-formed texts. -/
def Event.Proper : Event → Prop
  | .upsert now _ p => p.pubkey ≠ [] ∧ PeerTextual (stamp now p)
  | .reopen => True

/-- A record whose name is empty or a label. -/
def Event.Labelled : Event → Prop
  | .upsert _ _ p => p.name = [] ∨ validName p.name = true
  | .reopen => True

variable {c : Codec} {s : Store} {r : Registry}

/-! ### Texts -/

/-- Every record has well-formed texts. -/
def Textual (r : Registry) : Prop := ∀ k p, r.peers.lookup k = some p → PeerTextual p

theorem textual_named {p : Peer} (h : PeerTextual p) {name : Bytes} (hname : Utf8 name) :
    PeerTextual { p with name := name } :=
  ⟨h.id, h.pubkey, h.virtualIP, hname, h.candidates, h.relay, h.lastSeen⟩

theorem Textual.name (ht : Textual r) (h : r.Consistent) (k : Bytes) :
    Utf8 ((r.nameByKey.lookup k).getD []) := by
  cases hname : r.nameByKey.lookup k with
  | none => exact .nil
  | some n =>
    obtain ⟨-, p, hp, rfl⟩ := (h.recorded k n).1 hname
    exact (ht k p hp).name

theorem Textual.upsert (ht : Textual r) (h : r.Consistent) {now : ℤ} {p : Peer}
    (hp : PeerTextual (stamp now p)) : Textual (r.upsert now p) := by
  have hname : Utf8 p.name := by
    rw [← stamp_name now p]
    exact hp.name
  intro k q hq
  rcases upsert_spec h now p with heq | ⟨heq, -⟩ <;> rw [heq] at hq
  · rcases lookup_insert_cases hq with hold | ⟨-, rfl⟩
    · exact ht k q hold
    · exact textual_named hp (ht.name h p.pubkey)
  · rcases lookup_insert_cases hq with hold | ⟨-, rfl⟩
    · exact ht k q hold
    · exact textual_named hp hname

/-! ### The file -/

/-- The file lists the records of the registry; a node that has stored nothing has no file. -/
def Written (c : Codec) (s : Store) : Prop :=
  s.file = none ∧ s.reg = {} ∨ ∃ ps, s.file = some (c.marshal ps) ∧ Listing s.reg ps

/-- What holds in every state of a run. -/
structure InStep (c : Codec) (s : Store) : Prop where
  consistent : s.reg.Consistent
  textual : Textual s.reg
  written : Written c s

theorem inStep_empty (c : Codec) : InStep c {} where
  consistent := consistent_empty
  textual := nofun
  written := Or.inl ⟨rfl, rfl⟩

theorem Registry.Listing.congr {r' : Registry} {ps : List Peer} (h : Listing r ps)
    (hsame : Same r r') : Listing r' ps :=
  ⟨h.nodup, fun k p => by rw [hsame.peers, h.lookup_iff]⟩

/-- **Opening the file gives the registry back.** -/
theorem InStep.reopen_same (hc : c.Lawful) (h : InStep c s) : Same s.reg (openFile c s.file) := by
  rcases h.written with ⟨hfile, hreg⟩ | ⟨ps, hfile, hps⟩
  · rw [hfile, hreg]
    exact Same.refl _
  · have htext : ∀ p ∈ ps, PeerTextual p := fun p hp =>
      h.textual p.pubkey p ((hps.lookup_iff p.pubkey p).2 ⟨hp, rfl⟩)
    have hopen : openFile c s.file = ps.foldl load {} := by
      unfold openFile
      rw [hfile, Option.bind_some, hc ps htext]
    rw [hopen]
    exact h.consistent.load_same hps

theorem InStep.step (hc : c.Lawful) (h : InStep c s) {e : Event} (he : e.Proper) :
    InStep c (s.step c e) := by
  cases e with
  | upsert now order p =>
    have hcons := h.consistent.upsert he.1 now
    exact ⟨hcons, h.textual.upsert h.consistent he.2,
      Or.inr ⟨_, rfl, listing_list hcons.keyed order⟩⟩
  | reopen =>
    have hsame := h.reopen_same hc
    refine ⟨h.consistent.congr hsame, fun k p hp => ?_, ?_⟩
    · exact h.textual k p ((hsame.peers k).symm.trans hp)
    · rcases h.written with ⟨hfile, hreg⟩ | ⟨ps, hfile, hps⟩
      · refine Or.inl ⟨hfile, ?_⟩
        show openFile c s.file = {}
        rw [hfile]
        rfl
      · exact Or.inr ⟨ps, hfile, hps.congr hsame⟩

/-- The names that a step leaves with their keys. -/
def NamesStay (r r' : Registry) : Prop :=
  (∀ k n, r.nameByKey.lookup k = some n → r'.nameByKey.lookup k = some n) ∧
    ∀ k n, r.keyByName.lookup n = some k → r'.keyByName.lookup n = some k

theorem InStep.names_stay (hc : c.Lawful) (h : InStep c s) (e : Event) :
    NamesStay s.reg (s.step c e).reg := by
  cases e with
  | upsert now order p => exact upsert_keeps h.consistent now p
  | reopen =>
    have hsame := h.reopen_same hc
    exact ⟨fun k n hk => (hsame.nameByKey k).trans hk, fun k n hn => (hsame.keyByName n).trans hn⟩

/-! ### Runs -/

variable {es : List Event}

theorem inStep_run (hc : c.Lawful) {s : Store} (h : InStep c s)
    (hes : ∀ e ∈ es, e.Proper) : InStep c (run (Store.step c) s es) :=
  invariant_along (fun _ _ h he => h.step hc he) h
    (along_of_forall fun _ e he => hes e he)

/-- **A name stays with its key** over the whole run. -/
theorem names_stay_run (hc : c.Lawful) {s : Store} (h : InStep c s)
    (hes : ∀ e ∈ es, e.Proper) : NamesStay s.reg (run (Store.step c) s es).reg := by
  induction es generalizing s with
  | nil => exact ⟨fun _ _ => id, fun _ _ => id⟩
  | cons e es ih =>
    have hstep := h.names_stay hc e
    have hrest := ih (h.step hc (hes e List.mem_cons_self))
      fun e he => hes e (List.mem_cons_of_mem _ he)
    exact ⟨fun k n hk => hrest.1 k n (hstep.1 k n hk), fun k n hn => hrest.2 k n (hstep.2 k n hn)⟩

/-- Every pinned name is a label. -/
def Labels (r : Registry) : Prop := ∀ k n, r.nameByKey.lookup k = some n → validName n = true

theorem InStep.labels_step (hc : c.Lawful) (h : InStep c s) (hl : Labels s.reg) {e : Event}
    (he : e.Labelled) : Labels (s.step c e).reg := by
  cases e with
  | upsert now order p =>
    intro k n hk
    change (s.reg.upsert now p).nameByKey.lookup k = some n at hk
    rcases upsert_spec h.consistent now p with heq | ⟨heq, hne, -⟩ <;> rw [heq] at hk
    · exact hl k n hk
    · rcases lookup_insert_cases hk with hold | ⟨-, rfl⟩
      · exact hl k n hold
      · exact he.resolve_left hne
  | reopen =>
    intro k n hk
    exact hl k n (((h.reopen_same hc).nameByKey k).symm.trans hk)

theorem labels_run (hc : c.Lawful) (hes : ∀ e ∈ es, e.Proper)
    (hlabels : ∀ e ∈ es, e.Labelled) : Labels (run (Store.step c) {} es).reg := by
  have hboth : InStep c (run (Store.step c) {} es) ∧
      Labels (run (Store.step c) {} es).reg :=
    invariant_along (P := fun s : Store => InStep c s ∧ Labels s.reg)
      (fun _ _ h he => ⟨h.1.step hc he.1, h.1.labels_step hc h.2 he.2⟩)
      ⟨inStep_empty c, nofun⟩
      (along_of_forall fun _ e he => And.intro (hes e he) (hlabels e he))
  exact hboth.2

/-! ### A record -/

namespace Sample

/-- A record of a buddy that calls itself alice. -/
def alice (key : Bytes) : Peer where
  id := lit "idA"
  pubkey := key
  virtualIP := lit "10.66.1.2"
  name := lit "alice"
  candidates := []
  relay := []
  lastSeen := 100

theorem alice_textual {key : Bytes} (h : Utf8 key) (now : ℤ) :
    PeerTextual (stamp now (alice key)) := by
  have hid : Utf8 (lit "idA") := utf8_of_all (by decide)
  have hvip : Utf8 (lit "10.66.1.2") := utf8_of_all (by decide)
  have hname : Utf8 (lit "alice") := utf8_of_all (by decide)
  have hseen : -2 ^ 63 ≤ (100 : ℤ) ∧ (100 : ℤ) < 2 ^ 63 := by decide
  exact ⟨hid, h, hvip, hname, List.forall_mem_nil _, .nil, hseen⟩

end Sample

end BuddyNet.Cache
