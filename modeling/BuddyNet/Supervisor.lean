import BuddyNet.Library.Machine
import BuddyNet.Go.Map
import BuddyNet.Keys
import BuddyNet.Nft

/-!
# The supervisor and its workers

`supervise` and `peerLoop` of `internal/role/supervisor.go` with the part of `runWG` that owns
kernel state: the exposure scope of an interface and the interface itself. The supervisor goroutine,
the workers and the kernel are one state. A run is any interleaving of their steps:

* the supervisor plans a reload of the manifest (`reloadPlan`) and carries it out action by action,
  takes exit notifications, and on shutdown waits for its workers;
* a worker draws an attempt, programs the scope, brings the interface up, takes it down, removes the
  scope, returns, and sends its notification;
* `ok` says whether the kernel takes a batch or a link operation.
-/

namespace BuddyNet.Supervisor

/-! ### Data -/

/-- The parts of a `peerSpec` the supervisor looks at. -/
structure Spec where
  pin : Bytes
  expose : Option Nft.Scope := none
  deriving DecidableEq

/-- The key of the worker maps. -/
def Spec.key (s : Spec) : Bytes := pubKeyB64 s.pin

def sameScope : Option Nft.Scope → Option Nft.Scope → Bool
  | some a, some b => a.string == b.string
  | none, none => true
  | _, _ => false

/-- `effectiveScopeOf`: the buddy's scope, then the flag's, then nothing exposed. -/
def effectiveScopeOf (flag perBuddy : Option Nft.Scope) : Nft.Scope :=
  match perBuddy, flag with
  | some s, _ => s
  | none, some s => s
  | none, none => {}

/-- Where a worker is. -/
inductive Phase where
  /-- At the top of the loop, for the first time or after a run. -/
  | looping (first : Bool)
  /-- With an attempt, before `applyScope`; the scope was read from the cell with the attempt. -/
  | drawn (expose : Option Nft.Scope)
  /-- After `applyScope`. -/
  | scoped
  /-- After `bringUpWGDirect`, with the kernel's number of the interface. -/
  | up (link : ℕ)
  /-- The deferred `down` has run, the deferred `removeScope` has not. -/
  | closing
  /-- `peerLoop` has returned, the exit notification is not sent. -/
  | returned
  deriving DecidableEq

/-- A worker goroutine. `cell` is the `scopeCell` it shares with its handle. -/
structure Worker where
  key : Bytes
  ifIndex : ℕ
  cell : Option Nft.Scope
  cancelled : Bool
  phase : Phase
  deriving DecidableEq

/-- `handle`: the generation of the worker and the scope it is known to have. -/
structure Handle where
  gen : ℕ
  expose : Option Nft.Scope
  deriving DecidableEq

/-- One thing a reload does. -/
inductive Action where
  | stop (key : Bytes)
  | rescope (key : Bytes) (expose : Option Nft.Scope)
  | start (spec : Spec)
  deriving DecidableEq

/-- The supervisor's maps, its workers by generation, the exit notifications in the channel, what is
left of a reload, whether the context is cancelled and whether the supervisor waits for its workers;
the firewall, the interfaces by name, and the next number the kernel gives out. -/
structure State where
  gen : ℕ
  running : AList fun _ : Bytes => Handle
  ifIndexOf : AList fun _ : Bytes => ℕ
  workers : AList fun _ : ℕ => Worker
  exited : List (Bytes × ℕ)
  todo : List Action
  cancelled : Bool
  waiting : Bool
  nft : Nft.State
  links : AList fun _ : Bytes => ℕ
  nextLink : ℕ

/-- `supervise` is called; there are no interfaces and no table. -/
def State.new (specs : List Spec) : State where
  gen := 0
  running := ∅
  ifIndexOf := ∅
  workers := ∅
  exited := []
  todo := specs.map .start
  cancelled := false
  waiting := false
  nft := Nft.State.empty
  links := ∅
  nextLink := 0

/-- The buffer of the `exited` channel. -/
def exitedCap : ℕ := 16

/-! ### The supervisor -/

/-- The lowest index that is not in use. -/
def firstFree (used : List ℕ) : ℕ := ((List.range (used.length + 1)).find? (· ∉ used)).getD 0

def allocIf (ifIndexOf : AList fun _ : Bytes => ℕ) (key : Bytes) : ℕ :=
  match ifIndexOf.lookup key with
  | some idx => idx
  | none => firstFree (ifIndexOf.entries.map (·.2))

namespace State

def start (s : State) (spec : Spec) : State :=
  if spec.key ∈ s.running then s
  else
    let idx := allocIf s.ifIndexOf spec.key
    { s with
      gen := s.gen + 1
      ifIndexOf := s.ifIndexOf.insert spec.key idx
      running := s.running.insert spec.key ⟨s.gen + 1, spec.expose⟩
      workers := s.workers.insert (s.gen + 1) ⟨spec.key, idx, spec.expose, false, .looping true⟩ }

/-- A worker, if it still exists, is changed. -/
def withWorker (s : State) (g : ℕ) (f : Worker → Worker) : AList fun _ : ℕ => Worker :=
  match s.workers.lookup g with
  | some w => s.workers.insert g (f w)
  | none => s.workers

/-- A buddy that is no longer wanted: its worker is cancelled and forgotten. Its index is kept. -/
def stop (s : State) (key : Bytes) : State :=
  match s.running.lookup key with
  | some h =>
    { s with
      workers := s.withWorker h.gen fun w => { w with cancelled := true }
      running := s.running.erase key }
  | none => s

/-- A buddy whose scope was edited: the cell is set, `reprogramScope` is called, and the handle
remembers the new scope whether or not that worked. -/
def rescope (flag : Option Nft.Scope) (ok : Bool) (s : State) (key : Bytes)
    (expose : Option Nft.Scope) : State :=
  match s.running.lookup key with
  | some h =>
    let ifName := wgIfName ((s.ifIndexOf.lookup key).getD 0)
    { s with
      workers := s.withWorker h.gen fun w => { w with cell := expose }
      nft := (Nft.apply ok s.nft ifName (effectiveScopeOf flag expose)).1
      running := s.running.insert key { h with expose := expose } }
  | none => s

/-- The specs of `want` by key, the last one winning. -/
def wanted (desired : List Spec) : AList fun _ : Bytes => Spec :=
  desired.foldl (fun want s => want.insert s.key s) ∅

/-- What a reload does: first the buddies that are not wanted any more, then the wanted ones. The
maps are visited in the given orders. -/
def reloadPlan (s : State) (desired : List Spec) (stopOrder wantOrder : List Bytes) : List Action :=
  let want := wanted desired
  ((Go.visitOrder stopOrder s.running.keys).filter (· ∉ want)).map .stop ++
    (Go.visitOrder wantOrder want.keys).filterMap fun key =>
      match want.lookup key, s.running.lookup key with
      | some spec, some h =>
        if sameScope h.expose spec.expose then none else some (.rescope key spec.expose)
      | some spec, none => some (.start spec)
      | none, _ => none

/-- An exit notification: the slot and the index are free again, unless the worker was already
replaced or forgotten. -/
def noteExit (s : State) (key : Bytes) (g : ℕ) : State :=
  match s.running.lookup key with
  | some h =>
    if h.gen = g then
      { s with running := s.running.erase key, ifIndexOf := s.ifIndexOf.erase key }
    else s
  | none => s

end State

/-! ### Steps -/

/-- The steps of the system. Workers are named by their generation. -/
inductive Event where
  | reload (desired : List Spec) (stopOrder wantOrder : List Bytes)
  | act (ok : Bool)
  | exit
  | cancel
  | wait
  | draw (g : ℕ)
  | fail (g : ℕ)
  | apply (g : ℕ) (ok : Bool)
  | up (g : ℕ) (ok : Bool)
  | down (g : ℕ)
  | remove (g : ℕ) (ok : Bool)
  | ret (g : ℕ)
  | send (g : ℕ)

/-- Delete the interface with this number, if it is still there. -/
def delLink (links : AList fun _ : Bytes => ℕ) (ifName : Bytes) (link : ℕ) :
    AList fun _ : Bytes => ℕ :=
  if links.lookup ifName = some link then links.erase ifName else links

/-- A worker goes on. -/
def State.move (s : State) (g : ℕ) (w : Worker) (phase : Phase) : State :=
  { s with workers := s.workers.insert g { w with phase := phase } }

/-- One step; `flag` is the global `--expose`. -/
def step (flag : Option Nft.Scope) (s : State) : Event → State
  | .reload desired stopOrder wantOrder =>
    if s.todo = [] ∧ s.waiting = false then
      { s with todo := s.reloadPlan desired stopOrder wantOrder }
    else s
  | .act ok =>
    match s.todo with
    | .stop key :: rest => { s.stop key with todo := rest }
    | .rescope key expose :: rest => { s.rescope flag ok key expose with todo := rest }
    | .start spec :: rest => { s.start spec with todo := rest }
    | [] => s
  | .exit =>
    match s.exited with
    | (key, g) :: rest =>
      if s.todo = [] ∧ s.waiting = false then { s.noteExit key g with exited := rest } else s
    | [] => s
  | .cancel => { s with cancelled := true }
  | .wait => if s.todo = [] ∧ s.cancelled then { s with waiting := true } else s
  | .draw g =>
    match s.workers.lookup g with
    | some w =>
      match w.phase with
      | .looping first =>
        if first ∨ ¬(w.cancelled ∨ s.cancelled) then s.move g w (.drawn w.cell) else s
      | _ => s
    | none => s
  | .fail g =>
    match s.workers.lookup g with
    | some w =>
      match w.phase with
      | .drawn _ => s.move g w (.looping false)
      | _ => s
    | none => s
  | .apply g ok =>
    match s.workers.lookup g with
    | some w =>
      match w.phase with
      | .drawn expose =>
        let res := Nft.apply ok s.nft (wgIfName w.ifIndex) (effectiveScopeOf flag expose)
        { s.move g w (if res.2 then .scoped else .looping false) with nft := res.1 }
      | _ => s
    | none => s
  | .up g ok =>
    match s.workers.lookup g with
    | some w =>
      match w.phase with
      | .scoped =>
        if ok then
          { s.move g w (.up s.nextLink) with
            links := s.links.insert (wgIfName w.ifIndex) s.nextLink
            nextLink := s.nextLink + 1 }
        else { s.move g w .closing with links := s.links.erase (wgIfName w.ifIndex) }
      | _ => s
    | none => s
  | .down g =>
    match s.workers.lookup g with
    | some w =>
      match w.phase with
      | .up link => { s.move g w .closing with links := delLink s.links (wgIfName w.ifIndex) link }
      | _ => s
    | none => s
  | .remove g ok =>
    match s.workers.lookup g with
    | some w =>
      match w.phase with
      | .closing =>
        { s.move g w (.looping false) with nft := (Nft.remove ok s.nft (wgIfName w.ifIndex)).1 }
      | _ => s
    | none => s
  | .ret g =>
    match s.workers.lookup g with
    | some w =>
      match w.phase with
      | .looping _ => s.move g w .returned
      | .drawn _ => s.move g w .returned
      | _ => s
    | none => s
  | .send g =>
    match s.workers.lookup g with
    | some w =>
      if w.phase = .returned ∧ s.exited.length < exitedCap then
        { s with workers := s.workers.erase g, exited := s.exited ++ [(w.key, g)] }
      else s
    | none => s

/-- The state after a list of steps. -/
def runFrom (flag : Option Nft.Scope) (specs : List Spec) (es : List Event) : State :=
  Machine.run (step flag) (State.new specs) es

/-! ### What a step can do -/

/-- Everything that one step can do. A worker goes from phase to phase by `draw`, `fail` and `ret`
without touching the kernel. -/
inductive Effect (flag : Option Nft.Scope) (s : State) : Event → State → Prop
  | idle (e : Event) : Effect flag s e s
  | plan {desired : List Spec} {stopOrder wantOrder : List Bytes} (htodo : s.todo = [])
      (hwait : s.waiting = false) :
      Effect flag s (.reload desired stopOrder wantOrder)
        { s with todo := s.reloadPlan desired stopOrder wantOrder }
  | stopped {ok : Bool} {key : Bytes} {rest : List Action} (htodo : s.todo = .stop key :: rest) :
      Effect flag s (.act ok) { s.stop key with todo := rest }
  | rescoped {ok : Bool} {key : Bytes} {expose : Option Nft.Scope} {rest : List Action}
      (htodo : s.todo = .rescope key expose :: rest) :
      Effect flag s (.act ok) { s.rescope flag ok key expose with todo := rest }
  | started {ok : Bool} {spec : Spec} {rest : List Action} (htodo : s.todo = .start spec :: rest) :
      Effect flag s (.act ok) { s.start spec with todo := rest }
  | noted {key : Bytes} {g : ℕ} {rest : List (Bytes × ℕ)} (hexit : s.exited = (key, g) :: rest)
      (htodo : s.todo = []) (hwait : s.waiting = false) :
      Effect flag s .exit { s.noteExit key g with exited := rest }
  | cancelled : Effect flag s .cancel { s with cancelled := true }
  | waiting (htodo : s.todo = []) (hcancel : s.cancelled) :
      Effect flag s .wait { s with waiting := true }
  | drawn {g : ℕ} {w : Worker} {first : Bool} (hw : s.workers.lookup g = some w)
      (hphase : w.phase = .looping first) (hlive : first ∨ ¬(w.cancelled ∨ s.cancelled)) :
      Effect flag s (.draw g) (s.move g w (.drawn w.cell))
  | failed {g : ℕ} {w : Worker} {expose : Option Nft.Scope} (hw : s.workers.lookup g = some w)
      (hphase : w.phase = .drawn expose) : Effect flag s (.fail g) (s.move g w (.looping false))
  | applied {g : ℕ} {ok : Bool} {w : Worker} {expose : Option Nft.Scope}
      (hw : s.workers.lookup g = some w) (hphase : w.phase = .drawn expose) {res : Nft.State × Bool}
      (hres : res = Nft.apply ok s.nft (wgIfName w.ifIndex) (effectiveScopeOf flag expose)) :
      Effect flag s (.apply g ok)
        { s.move g w (if res.2 then .scoped else .looping false) with nft := res.1 }
  | upped {g : ℕ} {w : Worker} (hw : s.workers.lookup g = some w) (hphase : w.phase = .scoped) :
      Effect flag s (.up g true)
        { s.move g w (.up s.nextLink) with
          links := s.links.insert (wgIfName w.ifIndex) s.nextLink
          nextLink := s.nextLink + 1 }
  | upFailed {g : ℕ} {w : Worker} (hw : s.workers.lookup g = some w) (hphase : w.phase = .scoped) :
      Effect flag s (.up g false)
        { s.move g w .closing with links := s.links.erase (wgIfName w.ifIndex) }
  | downed {g : ℕ} {w : Worker} {link : ℕ} (hw : s.workers.lookup g = some w)
      (hphase : w.phase = .up link) :
      Effect flag s (.down g)
        { s.move g w .closing with links := delLink s.links (wgIfName w.ifIndex) link }
  | removed {g : ℕ} {ok : Bool} {w : Worker} (hw : s.workers.lookup g = some w)
      (hphase : w.phase = .closing) :
      Effect flag s (.remove g ok)
        { s.move g w (.looping false) with nft := (Nft.remove ok s.nft (wgIfName w.ifIndex)).1 }
  | returned {g : ℕ} {w : Worker} (hw : s.workers.lookup g = some w)
      (hphase : (∃ first, w.phase = .looping first) ∨ ∃ expose, w.phase = .drawn expose) :
      Effect flag s (.ret g) (s.move g w .returned)
  | sent {g : ℕ} {w : Worker} (hw : s.workers.lookup g = some w) (hphase : w.phase = .returned)
      (hroom : s.exited.length < exitedCap) :
      Effect flag s (.send g)
        { s with workers := s.workers.erase g, exited := s.exited ++ [(w.key, g)] }

theorem step_effect (flag : Option Nft.Scope) (s : State) (e : Event) :
    Effect flag s e (step flag s e) := by
  cases e with
  | reload desired stopOrder wantOrder =>
    unfold step
    dsimp only
    split
    · next h => exact .plan h.1 h.2
    · exact .idle _
  | act ok =>
    unfold step
    dsimp only
    split
    · next h => exact .stopped h
    · next h => exact .rescoped h
    · next h => exact .started h
    · exact .idle _
  | exit =>
    unfold step
    dsimp only
    split
    · next hexit =>
      split
      · next h => exact .noted hexit h.1 h.2
      · exact .idle _
    · exact .idle _
  | cancel => exact .cancelled
  | wait =>
    unfold step
    dsimp only
    split
    · next h => exact .waiting h.1 h.2
    · exact .idle _
  | draw g =>
    unfold step
    dsimp only
    split
    · next w hw =>
      split
      · next first hphase =>
        split
        · next hlive => exact .drawn hw hphase hlive
        · exact .idle _
      · exact .idle _
    · exact .idle _
  | fail g =>
    unfold step
    dsimp only
    split
    · next w hw =>
      split
      · next hphase => exact .failed hw hphase
      · exact .idle _
    · exact .idle _
  | apply g ok =>
    unfold step
    dsimp only
    split
    · next w hw =>
      split
      · next hphase => exact .applied hw hphase rfl
      · exact .idle _
    · exact .idle _
  | up g ok =>
    unfold step
    dsimp only
    split
    · next w hw =>
      split
      · next hphase =>
        cases ok with
        | true => exact .upped hw hphase
        | false => exact .upFailed hw hphase
      · exact .idle _
    · exact .idle _
  | down g =>
    unfold step
    dsimp only
    split
    · next w hw =>
      split
      · next hphase => exact .downed hw hphase
      · exact .idle _
    · exact .idle _
  | remove g ok =>
    unfold step
    dsimp only
    split
    · next w hw =>
      split
      · next hphase => exact .removed hw hphase
      · exact .idle _
    · exact .idle _
  | ret g =>
    unfold step
    dsimp only
    split
    · next w hw =>
      split
      · next hphase => exact .returned hw (Or.inl ⟨_, hphase⟩)
      · next hphase => exact .returned hw (Or.inr ⟨_, hphase⟩)
      · exact .idle _
    · exact .idle _
  | send g =>
    unfold step
    dsimp only
    split
    · next w hw =>
      split
      · next h => exact .sent hw h.1 h.2
      · exact .idle _
    · exact .idle _

end BuddyNet.Supervisor
