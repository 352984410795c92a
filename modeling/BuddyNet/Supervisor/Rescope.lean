import BuddyNet.Supervisor.Rules

/-!
# A reloaded scope sticks

`scope_sticks`: when no worker is between its attempt and its `applyScope` at the moment its scope
is changed, an interface that is up has the rules of the last manifest. A worker that is caught
there programs the old scope over the new one.
-/

namespace BuddyNet.Supervisor

/-- **A reloaded scope sticks**, provided that the kernel takes every batch and link operation, that
a buddy's worker is started only after the earlier workers of that buddy have returned, and that a
worker has no attempt in hand when its scope is changed. When a reload has been carried out, every
running buddy is in the manifest that was loaded last, and when its worker has brought its interface
up, the kernel has exactly the rules of the scope that the manifest gives it. -/
theorem scope_sticks (flag : Option Nft.Scope) (specs : List Spec) (es : List Event)
    (hG : Machine.Along (step flag) (fun s e => e.kernelOk ∧ drained s e ∧ settled s e)
      (State.new specs) es) (key : Bytes) (hd : Handle) (w : Worker) (link : ℕ)
    (htodo : (runFrom flag specs es).todo = [])
    (hrun : (runFrom flag specs es).running.lookup key = some hd)
    (hw : (runFrom flag specs es).workers.lookup hd.gen = some w) (hup : w.phase = .up link) :
    ∃ spec, (manifest flag specs es).lookup key = some spec ∧
      Nft.installed (runFrom flag specs es).nft (wgIfName w.ifIndex) =
        Nft.ruleExprs (wgIfName w.ifIndex) (effectiveScopeOf flag spec.expose) ++
          Nft.forwardExprs (wgIfName w.ifIndex) := by
  obtain ⟨-, hcarried⟩ : Books (runFrom flag specs es) ∧
      Carried flag (fun _ => False) (runFrom flag specs es) := by
    refine Machine.invariant_along (P := fun s => Books s ∧ Carried flag (fun _ => False) s) ?_
      ⟨⟨sane_new specs, cells_new specs⟩, nofun⟩ hG
    rintro s e ⟨hbooks, hcarried⟩ ⟨hok, hdrained, hsettled⟩
    refine ⟨hbooks.step hdrained hsettled, carried_step hcarried hbooks.sane hbooks.cells
      (fun _ => id) fun hmisses => absurd hmisses (misses_ne ?_ _)⟩
    rintro rfl
    cases hok
  exact hcarried.agrees (fun _ => id) (planned_run flag specs es) htodo key hd w hrun hw
    (by rw [hup]; trivial)

/-! ### A worker that is caught with an attempt -/

namespace Sample

/-- The buddy may reach the whole host. -/
def wide : Spec := { spec with expose := some { all := true } }

/-- The manifest takes this back. -/
def narrow : List Event := [.reload [spec] [] [], .act true]

end Sample

/-- The worker has drawn its attempt when the manifest closes the host to the buddy: it programs the
whole host over the new scope. -/
theorem scope_sticks_fails :
    let es := [.act true, .draw 1] ++ Sample.narrow ++ [.apply 1 true, .up 1 true]
    let s := runFrom none [Sample.wide] es
    Machine.Along (step none) (fun s e => e.kernelOk ∧ drained s e) (State.new [Sample.wide]) es ∧
      s.todo = [] ∧ s.running.lookup Sample.spec.key = some ⟨1, none⟩ ∧
      s.workers.lookup 1 = some ⟨Sample.spec.key, 0, none, false, .up 0⟩ ∧
      (manifest none [Sample.wide] es).lookup Sample.spec.key = some Sample.spec ∧
      Nft.installed s.nft (wgIfName 0) =
        Nft.ruleExprs (wgIfName 0) { all := true } ++ Nft.forwardExprs (wgIfName 0) ∧
      Nft.installed s.nft (wgIfName 0) ≠
        Nft.ruleExprs (wgIfName 0) (effectiveScopeOf none Sample.spec.expose) ++
          Nft.forwardExprs (wgIfName 0) := by
  decide +kernel

/-- The same change while the interface is up. -/
theorem scope_sticks_narrowed :
    let es := .act true :: Sample.connect 1 ++ Sample.narrow
    Nft.installed (runFrom none [Sample.wide] es).nft (wgIfName 0) =
      Nft.ruleExprs (wgIfName 0) {} ++ Nft.forwardExprs (wgIfName 0) := by
  intro es
  obtain ⟨spec, hspec, hrules⟩ := scope_sticks none [Sample.wide] es (by decide +kernel)
    Sample.spec.key ⟨1, none⟩ ⟨Sample.spec.key, 0, none, false, .up 0⟩ 0 (by decide +kernel)
    (by decide +kernel) (by decide +kernel) rfl
  have hlast : (manifest none [Sample.wide] es).lookup Sample.spec.key = some Sample.spec := by
    decide +kernel
  obtain rfl := Option.some.inj (hspec.symm.trans hlast)
  exact hrules

end BuddyNet.Supervisor
