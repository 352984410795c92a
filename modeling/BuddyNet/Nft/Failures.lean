import BuddyNet.Go.Map
import BuddyNet.Library.Machine
import BuddyNet.Nft

/-!
# The firewall when batches fail

`Apply` takes its change back when the kernel refuses the batch; `Remove` does not. After a failed
`Remove` the kernel has rules of an interface without a scope, and the next batch that is taken
drops them. No failure takes away the rules of an interface that has a scope.

* `firewall_follows`: what holds after every sequence of calls, whichever of them fail.
-/

namespace BuddyNet.Nft

open Machine AList List

variable {st : State} {ifName : Bytes} {s : Scope}

/-- A call, and whether the kernel takes its batch. -/
inductive Call where
  | apply (ok : Bool) (ifName : Bytes) (s : Scope)
  | remove (ok : Bool) (ifName : Bytes)

/-- The state after a call. -/
def State.step (st : State) : Call → State
  | .apply ok ifName s => (apply ok st ifName s).1
  | .remove ok ifName => (remove ok st ifName).1

/-- The order lists the interfaces with a scope, each once. -/
structure Enumerated (st : State) : Prop where
  nodup : st.order.Nodup
  mem_iff : ∀ name, name ∈ st.order ↔ name ∈ st.scopes

/-- The kernel has, for every interface with a scope, exactly the rules of that scope. -/
def Enforced (st : State) : Prop :=
  ∀ name s, st.scopes.lookup name = some s →
    installed st name = ruleExprs name s ++ forwardExprs name

/-- What `Apply` does to the order. -/
def applyOrder (st : State) (ifName : Bytes) : List Bytes :=
  if st.scopes.lookup ifName = none then st.order ++ [ifName] else st.order

theorem Enumerated.applied (h : Enumerated st) (ifName : Bytes) :
    (applyOrder st ifName).Nodup ∧
      ∀ name, name ∈ applyOrder st ifName ↔ name = ifName ∨ name ∈ st.scopes := by
  unfold applyOrder
  split_ifs with hnone
  · have hnew : ifName ∉ st.order := fun hmem =>
      lookup_eq_none.1 hnone ((h.mem_iff ifName).1 hmem)
    refine ⟨nodup_append'.2 ⟨h.nodup, nodup_singleton _, ?_⟩, fun name => ?_⟩
    · exact disjoint_singleton.2 hnew
    · rw [mem_append, mem_singleton, h.mem_iff, or_comm]
  · refine ⟨h.nodup, fun name => ?_⟩
    rw [h.mem_iff]
    constructor
    · exact Or.inr
    · rintro (rfl | hmem)
      · exact lookup_isSome.1 (Option.isSome_iff_ne_none.2 hnone)
      · exact hmem

/-- A batch that is taken leaves the rules of the scopes it was built from. -/
theorem enforced_ruleset {scopes : AList fun _ : Bytes => Scope} {order : List Bytes}
    (h : Enumerated ⟨scopes, order, ruleset scopes order⟩) :
    Enforced ⟨scopes, order, ruleset scopes order⟩ := by
  intro name s hs
  exact filter_ruleset h.nodup ((h.mem_iff _).2 (lookup_isSome.1 (by simp [hs]))) hs

/-- The rules for an interface are those of the kernel, whatever the scopes are. -/
theorem installed_congr {st st' : State} (h : st'.kernel = st.kernel) (name : Bytes) :
    installed st' name = installed st name := by
  unfold installed
  rw [h]

/-! ### Apply -/

theorem apply_true (st : State) (ifName : Bytes) (s : Scope) :
    apply true st ifName s = (⟨st.scopes.insert ifName s, applyOrder st ifName,
      ruleset (st.scopes.insert ifName s) (applyOrder st ifName)⟩, true) := rfl

/-- **A failed `Apply` leaves everything as it was.** -/
theorem apply_false (st : State) (ifName : Bytes) (s : Scope) :
    (apply false st ifName s).2 = false ∧ (apply false st ifName s).1.order = st.order ∧
      (∀ name, (apply false st ifName s).1.scopes.lookup name = st.scopes.lookup name) ∧
      (apply false st ifName s).1.kernel = st.kernel := by
  cases hprev : st.scopes.lookup ifName with
  | none =>
    -- the new name is cut off the order again
    have heq : apply false st ifName s =
        (⟨(st.scopes.insert ifName s).erase ifName, (st.order ++ [ifName]).dropLast, st.kernel⟩,
          false) := by
      simp [apply, hprev]
    rw [heq]
    refine ⟨rfl, dropLast_concat, fun name => ?_, rfl⟩
    by_cases hname : name = ifName
    · rw [hname, lookup_erase, hprev]
    · rw [lookup_erase_ne hname, lookup_insert_ne hname]
  | some prev =>
    have heq : apply false st ifName s =
        (⟨(st.scopes.insert ifName s).insert ifName prev, st.order, st.kernel⟩, false) := by
      simp [apply, hprev]
    rw [heq]
    refine ⟨rfl, rfl, fun name => ?_, rfl⟩
    by_cases hname : name = ifName
    · rw [hname, lookup_insert, hprev]
    · rw [lookup_insert_ne hname, lookup_insert_ne hname]

theorem mem_scopes_congr {a b : AList fun _ : Bytes => Scope}
    (h : ∀ name, a.lookup name = b.lookup name) (name : Bytes) : name ∈ a ↔ name ∈ b := by
  rw [← lookup_isSome, ← lookup_isSome, h]

variable {name : Bytes}

theorem mem_apply_of_mem (ok : Bool) (h : name ∈ st.scopes) :
    name ∈ (apply ok st ifName s).1.scopes := by
  cases ok with
  | true => exact mem_apply.2 (Or.inr h)
  | false => exact (mem_scopes_congr (apply_false st ifName s).2.2.1 name).2 h

theorem lookup_apply_of_ne (ok : Bool) (hne : name ≠ ifName) :
    (apply ok st ifName s).1.scopes.lookup name = st.scopes.lookup name := by
  cases ok with
  | true => exact lookup_insert_ne hne
  | false => exact (apply_false st ifName s).2.2.1 name

/-! ### Remove -/

theorem remove_of_mem (ok : Bool) (h : ifName ∈ st.scopes) :
    (remove ok st ifName).1 = ⟨st.scopes.erase ifName, st.order.erase ifName,
      if ok then ruleset (st.scopes.erase ifName) (st.order.erase ifName) else st.kernel⟩ := by
  rw [remove, if_neg (not_not.2 h)]

theorem lookup_remove_of_ne (ok : Bool) (hne : name ≠ ifName) :
    (remove ok st ifName).1.scopes.lookup name = st.scopes.lookup name := by
  by_cases hmem : ifName ∈ st.scopes
  · rw [remove_of_mem ok hmem]
    exact lookup_erase_ne hne
  · rw [remove, if_pos hmem]

theorem mem_remove_of_ne (ok : Bool) (hne : name ≠ ifName) (h : name ∈ st.scopes) :
    name ∈ (remove ok st ifName).1.scopes := by
  rwa [← lookup_isSome, lookup_remove_of_ne ok hne, lookup_isSome]

theorem Enumerated.removed (h : Enumerated st) (ifName : Bytes) (kernel : List Rule) :
    Enumerated ⟨st.scopes.erase ifName, st.order.erase ifName, kernel⟩ := by
  refine ⟨h.nodup.erase _, fun name => ?_⟩
  rw [h.nodup.mem_erase_iff, h.mem_iff, mem_erase]

/-! ### Runs -/

/-- What every call keeps. -/
structure Follows (st : State) : Prop where
  enumerated : Enumerated st
  enforced : Enforced st

theorem follows_empty : Follows State.empty where
  enumerated := ⟨nodup_nil, fun _ => iff_of_false not_mem_nil (notMem_empty _)⟩
  enforced := nofun

theorem Follows.programmed (h : Follows st) (hs : st.scopes.lookup ifName = some s) :
    Programmed st.kernel ifName s := by
  intro r hr
  rw [← h.enforced _ _ hs] at hr
  exact mem_of_mem_filter hr

theorem Follows.apply (h : Follows st) (ok : Bool) (ifName : Bytes) (s : Scope) :
    Follows (apply ok st ifName s).1 := by
  cases ok with
  | true =>
    rw [apply_true]
    obtain ⟨hnodup, hmem⟩ := h.enumerated.applied ifName
    have henum : Enumerated ⟨st.scopes.insert ifName s, applyOrder st ifName,
        ruleset (st.scopes.insert ifName s) (applyOrder st ifName)⟩ :=
      ⟨hnodup, fun name => (hmem name).trans (mem_insert _).symm⟩
    exact ⟨henum, enforced_ruleset henum⟩
  | false =>
    obtain ⟨-, horder, hscopes, hkernel⟩ := apply_false st ifName s
    refine ⟨⟨?_, fun name => ?_⟩, fun name s' hs' => ?_⟩
    · rw [horder]
      exact h.enumerated.nodup
    · rw [horder, h.enumerated.mem_iff]
      exact (mem_scopes_congr hscopes name).symm
    · rw [installed_congr hkernel]
      exact h.enforced name s' ((hscopes name).symm.trans hs')

theorem Follows.remove (h : Follows st) (ok : Bool) (ifName : Bytes) :
    Follows (remove ok st ifName).1 := by
  by_cases hmem : ifName ∈ st.scopes
  · rw [remove_of_mem ok hmem]
    refine ⟨h.enumerated.removed ifName _, ?_⟩
    cases ok with
    | true => exact enforced_ruleset (h.enumerated.removed ifName _)
    | false =>
      -- the rules of the removed interface stay behind, and those of the others stay
      intro name s hs
      exact h.enforced name s (Go.lookup_of_erase hs)
  · rw [Nft.remove, if_pos hmem]
    exact h

theorem Follows.step (h : Follows st) (c : Call) : Follows (st.step c) := by
  cases c with
  | apply ok ifName s => exact h.apply ok ifName s
  | remove ok ifName => exact h.remove ok ifName

/-- **The firewall follows the program.** After every sequence of calls, whichever batches fail, the
order lists the scoped interfaces without repetition and the kernel has exactly the rules of the
scope for each of them; and an `Apply` that fails now changes nothing. -/
theorem firewall_follows (calls : List Call) :
    ((run State.step State.empty calls).order.Nodup ∧
      ∀ name, name ∈ (run State.step State.empty calls).order ↔
        name ∈ (run State.step State.empty calls).scopes) ∧
    (∀ name s, (run State.step State.empty calls).scopes.lookup name = some s →
      installed (run State.step State.empty calls) name =
        ruleExprs name s ++ forwardExprs name) ∧
    ∀ ifName s st', apply false (run State.step State.empty calls) ifName s = (st', false) →
      st'.order = (run State.step State.empty calls).order ∧
      (∀ name, st'.scopes.lookup name =
        (run State.step State.empty calls).scopes.lookup name) ∧
      st'.kernel = (run State.step State.empty calls).kernel := by
  obtain ⟨⟨hnodup, hmem⟩, henforced⟩ := invariant_run (P := Follows)
    (fun _ c h => h.step c) follows_empty calls
  refine ⟨⟨hnodup, hmem⟩, henforced, fun ifName s st' hfail => ?_⟩
  have hback := (apply_false (run State.step State.empty calls) ifName s).2
  rw [hfail] at hback
  exact hback

end BuddyNet.Nft
