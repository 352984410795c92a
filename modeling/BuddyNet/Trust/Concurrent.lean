import BuddyNet.Library.Optimistic
import BuddyNet.Trust.Adding
import BuddyNet.Trust.Migration

/-!
# Manifest commands side by side

`PeersAdd`, `PeersRemove` and `PeersMigrate` as processes on the same files: each reads files
without the lock and then runs one section that holds it.

* `Command.program`: the steps of a command, and `alone_run`: without company it is the command;
* `PeersAdd` decides under the lock, from what it loads there. What it has read before, that the
  manifest is not in the old format, stays true (`Modern`);
* `PeersRemove` resolves its reference before the lock, and `PeersMigrate` loads the manifest that
  it writes before the lock. Both can be out of date;
* `commands_serialize`: when they are not, and no removal fails half way, the commands that succeed
  can be run one after the other.

The backup that a migration keeps is left out: no command reads it.
-/

namespace BuddyNet.Trust

open Transaction Optimistic Machine

/-- A command with its arguments. -/
inductive Command where
  | add (today : Date) (peersFile : Bool) (key token name expose : Bytes)
  | remove (today : Date) (peersFile : Bool) (ref : Bytes)
  | migrate (peersFile : Bool)

/-- The part of a command that holds the lock, with what the command has found out before. -/
inductive Locked where
  | add (today : Date) (r : AddRequest)
  | remove (today : Date) (peersFile : Bool) (keyB64 : Bytes)
  | migrate (specs : List PeerSpec)

section

variable (y : Yaml)

/-- The command alone on the files. -/
def Command.run : Command → Tx Unit
  | .add today peersFile key token name expose => do
    let _ ← peersAdd y today peersFile key token name expose
    pure ()
  | .remove today peersFile ref => do
    let _ ← peersRemove y today peersFile ref
    pure ()
  | .migrate peersFile => fun f =>
    let w := peersMigrate y peersFile ⟨f, none⟩
    (w.1.map Disk.files, w.2.map fun _ => ())

/-- The locked part. -/
def Locked.body : Locked → Tx Unit
  | .add today r => do
    let _ ← peersAddLocked y today r
    pure ()
  | .remove today peersFile keyB64 => do
    let _ ← peersRemoveLocked y today peersFile keyB64
    pure ()
  | .migrate specs => saveManifestLocked y specs

/-- A command on its way. -/
abbrev Proc := Process Files TrustError Unit Locked

/-- The end of `resolveKeyRef`: the one known key that starts with the reference. -/
def matchKeyRef (ref : Bytes) (known : List Bytes) : Except TrustError Bytes :=
  match known.dedup.filter ref.isPrefixOf with
  | [key] => .ok key
  | [] => .error (.noMatch ref)
  | ks => .error (.ambiguous ref ks.length)

/-- `resolveKeyRef`, one file after the other. -/
def resolving (peersFile : Bool) (ref : Bytes) (k : Bytes → Proc) : Proc :=
  match decodePubKey ref with
  | some pin => k (pubKeyB64 pin)
  | none =>
    .look (loadPeersFile y peersFile) fun specs =>
    .look loadSessions fun sessions =>
    .look revokedSet fun revoked =>
    match matchKeyRef ref (specs.map (fun s => pubKeyB64 s.pin) ++
        sessions.map (fun s => pubKeyB64 s.pin) ++ revoked) with
    | .ok keyB64 => k keyB64
    | .error e => .done (.error e)

/-- `os.ReadFile` of the manifest. -/
def readFile (f : Files) : Except TrustError Bytes :=
  match f.manifest with
  | some data => .ok data
  | none => .error .notExist

/-- The second half of `PeersMigrate`, for a manifest in the old format. -/
def migrating : Proc :=
  .look (loadPeersFile y true) fun specs =>
  .look readFile fun _ =>
  .enter (.migrate specs)

/-- The steps of a command. The checks of `PeersAdd` that need no file are made with its read. -/
def Command.program : Command → Proc
  | .add today peersFile key token name expose =>
    .look (fun f => peersAddCheck peersFile f key token name expose) fun r => .enter (.add today r)
  | .remove today peersFile ref =>
    resolving y peersFile ref fun keyB64 => .enter (.remove today peersFile keyB64)
  | .migrate peersFile =>
    if peersFile then
      .look manifestNeedsMigration fun legacy => if legacy then migrating y else .done (.ok ())
    else .done (.error .peersFileRequired)

end

variable {y : Yaml} {f : Files}

/-! ### The commands without company -/

theorem settle_resolving (peersFile : Bool) (ref : Bytes) (k : Bytes → Proc) :
    (resolving y peersFile ref k).settle f =
      match resolveKeyRef y peersFile f ref with
      | .ok keyB64 => (k keyB64).settle f
      | .error e => .inl (.error e) := by
  cases hdecode : decodePubKey ref with
  | some pin => simp only [resolving, resolveKeyRef, hdecode]
  | none =>
  simp only [resolving, hdecode]
  cases hspecs : loadPeersFile y peersFile f with
  | error e => simp only [settle_look_error hspecs, resolveKeyRef, hdecode, hspecs, bind,
    Except.bind]
  | ok specs =>
  rw [settle_look_ok hspecs]
  cases hsessions : loadSessions f with
  | error e =>
    simp only [settle_look_error hsessions, resolveKeyRef, hdecode, hspecs, hsessions, bind,
      Except.bind]
  | ok sessions =>
  rw [settle_look_ok hsessions]
  cases hrevoked : revokedSet f with
  | error e =>
    simp only [settle_look_error hrevoked, resolveKeyRef, hdecode, hspecs, hsessions, hrevoked,
      bind,
      Except.bind]
  | ok revoked =>
    rw [settle_look_ok hrevoked]
    have hmatch : resolveKeyRef y peersFile f ref = matchKeyRef ref
        (specs.map (fun s => pubKeyB64 s.pin) ++ sessions.map (fun s => pubKeyB64 s.pin) ++
          revoked) := by
      rw [resolveKeyRef, hdecode, hspecs, hsessions, hrevoked, matchKeyRef]
      rfl
    rw [hmatch]
    split <;> rfl

variable {today : Date} {peersFile : Bool} {r : AddRequest}

theorem settle_add {key token name expose : Bytes}
    (h : peersAddCheck peersFile f key token name expose = .ok r) :
    (Command.program y (.add today peersFile key token name expose)).settle f =
      .inr (.add today r) := by
  exact settle_look_ok h

variable {e : TrustError}

theorem settle_add_error {key token name expose : Bytes}
    (h : peersAddCheck peersFile f key token name expose = .error e) :
    (Command.program y (.add today peersFile key token name expose)).settle f =
      .inl (.error e) := by
  exact settle_look_error h

theorem settle_remove {ref k : Bytes} (h : resolveKeyRef y peersFile f ref = .ok k) :
    (Command.program y (.remove today peersFile ref)).settle f = .inr
    (.remove today peersFile k) := by
  rw [Command.program, settle_resolving, h]
  rfl

theorem exists_legacyFile (h : manifestNeedsMigration f = .ok true) :
    ∃ data, LegacyFile f data := by
  rcases manifestNeedsMigration_eq_ok.1 h with ⟨-, h⟩ | ⟨h, -⟩ | ⟨-, h⟩
  · cases h
  · exact h
  · cases h

variable {specs : List PeerSpec}

theorem settle_migrate (hlegacy : manifestNeedsMigration f = .ok true)
    (hload : loadPeersFile y true f = .ok specs) :
    (Command.program y (.migrate true)).settle f = .inr (.migrate specs) := by
  obtain ⟨data, hdata, -⟩ := exists_legacyFile hlegacy
  have hread : readFile f = .ok data := by rw [readFile, hdata]
  rw [Command.program, if_pos rfl, settle_look_ok hlegacy, if_pos rfl, migrating,
    settle_look_ok hload, settle_look_ok hread]
  rfl

section

variable (today : Date)

theorem alone_add (peersFile : Bool) (key token name expose : Bytes) (f : Files) :
    (Command.program y (.add today peersFile key token name expose)).alone (Locked.body y) f =
      Command.run y (.add today peersFile key token name expose) f := by
  cases hcheck : peersAddCheck peersFile f key token name expose with
  | ok r =>
    have hadd : peersAdd y today peersFile key token name expose f =
        peersAddLocked y today r f := by
      rw [peersAdd, read_bind_apply, ofExcept_ok_bind hcheck]
    rw [Process.alone, settle_add hcheck]
    exact (bind_congr hadd _).symm
  | error e =>
    have hadd : peersAdd y today peersFile key token name expose f =
        (throw e : Tx AddResult) f := by
      rw [peersAdd, read_bind_apply, ofExcept_error_bind hcheck]
      rfl
    rw [Process.alone, settle_add_error hcheck]
    exact (bind_congr hadd _).symm

theorem alone_remove (peersFile : Bool) (ref : Bytes) (f : Files) :
    (Command.program y (.remove today peersFile ref)).alone (Locked.body y) f =
      Command.run y (.remove today peersFile ref) f := by
  cases hkey : resolveKeyRef y peersFile f ref with
  | ok k =>
    have hremove : peersRemove y today peersFile ref f =
        peersRemoveLocked y today peersFile k f := by
      rw [peersRemove, read_bind_apply, ofExcept_ok_bind hkey]
    rw [Process.alone, settle_remove hkey]
    exact (bind_congr hremove _).symm
  | error e =>
    have hremove : peersRemove y today peersFile ref f = (throw e : Tx (ℕ × ℕ × Bool)) f := by
      rw [peersRemove, read_bind_apply, ofExcept_error_bind hkey]
      rfl
    rw [Process.alone, Command.program, settle_resolving, hkey]
    exact (bind_congr hremove _).symm

theorem run_migrate {ws : List Disk} {r : Except TrustError Bool}
    (h : peersMigrate y peersFile ⟨f, none⟩ = (ws, r)) :
    (Command.run y (.migrate peersFile)).final f = (ws.map Disk.files).getLastD f ∧
      (Command.run y (.migrate peersFile) f).2 = r.map fun _ => () := by
  have hrun : Command.run y (.migrate peersFile) f = (ws.map Disk.files, r.map fun _ => ()) :=
    congrArg (fun w => (w.1.map Disk.files, w.2.map fun _ => ())) h
  exact ⟨congrArg (fun w => w.1.getLastD f) hrun, congrArg Prod.snd hrun⟩

theorem alone_migrate_end {r : Except TrustError Bool}
    (h : peersMigrate y peersFile ⟨f, none⟩ = ([], r))
    (hsettle : (Command.program y (.migrate peersFile)).settle f = .inl (r.map fun _ => ())) :
    ((Command.program y (.migrate peersFile)).alone (Locked.body y)).final f =
        (Command.run y (.migrate peersFile)).final f ∧
      ((Command.program y (.migrate peersFile)).alone (Locked.body y) f).2 =
        (Command.run y (.migrate peersFile) f).2 := by
  obtain ⟨hend, hfinal⟩ := Process.alone_end (Locked.body y) hsettle
  rw [hend, hfinal, (run_migrate h).1, (run_migrate h).2]
  exact ⟨rfl, rfl⟩

/-- `PeersMigrate` without company, which writes the backup too. -/
theorem alone_migrate (peersFile : Bool) (f : Files) :
    ((Command.program y (.migrate peersFile)).alone (Locked.body y)).final f =
        (Command.run y (.migrate peersFile)).final f ∧
      ((Command.program y (.migrate peersFile)).alone (Locked.body y) f).2 =
        (Command.run y (.migrate peersFile) f).2 := by
  cases peersFile with
  | false => exact ⟨rfl, rfl⟩
  | true =>
  cases hlegacy : manifestNeedsMigration f with
  | error e =>
    refine alone_migrate_end (r := .error e) ?_ ?_
    · rw [peersMigrate, if_pos rfl, read_bind_apply, ofExcept_error_bind hlegacy]
    · rw [Command.program, if_pos rfl, settle_look_error hlegacy]
      rfl
  | ok legacy =>
  cases legacy with
  | false =>
    refine alone_migrate_end (r := .ok false) ?_ ?_
    · rw [peersMigrate, if_pos rfl, read_bind_apply, ofExcept_ok_bind hlegacy]
      rfl
    · rw [Command.program, if_pos rfl, settle_look_ok hlegacy]
      rfl
  | true =>
  cases hload : loadPeersFile y true f with
  | error e =>
    refine alone_migrate_end (r := .error e) ?_ ?_
    · rw [peersMigrate, if_pos rfl, read_bind_apply, ofExcept_ok_bind hlegacy, if_pos rfl,
        ofExcept_error_bind hload]
    · rw [Command.program, if_pos rfl, settle_look_ok hlegacy, if_pos rfl, migrating,
        settle_look_error hload]
      rfl
  | ok specs =>
    obtain ⟨data, hdata, -⟩ := exists_legacyFile hlegacy
    have hmigrate : peersMigrate y true ⟨f, none⟩ =
        ([⟨f, some data⟩, ⟨{ f with manifest := some (manifestText y specs) }, some data⟩],
          .ok true) := by
      rw [peersMigrate, if_pos rfl, read_bind_apply, ofExcept_ok_bind hlegacy, if_pos rfl,
        ofExcept_ok_bind hload]
      simp only [hdata]
      rfl
    obtain ⟨halone, hfinal⟩ :=
      Process.alone_section (Locked.body y) (settle_migrate (y := y) hlegacy hload)
    rw [halone, hfinal, (run_migrate hmigrate).1, (run_migrate hmigrate).2]
    exact ⟨rfl, rfl⟩

/-- **A program without company is the command**: the same files at the end and the same result. -/
theorem alone_run (c : Command) (f : Files) :
    ((c.program y).alone (Locked.body y)).final f = (c.run y).final f ∧
      ((c.program y).alone (Locked.body y) f).2 = (c.run y f).2 := by
  cases c with
  | add today peersFile key token name expose =>
    have h := alone_add (y := y) today peersFile key token name expose f
    exact ⟨congrArg (fun w => w.1.getLastD f) h, congrArg Prod.snd h⟩
  | remove today peersFile ref =>
    have h := alone_remove (y := y) today peersFile ref f
    exact ⟨congrArg (fun w => w.1.getLastD f) h, congrArg Prod.snd h⟩
  | migrate peersFile => exact alone_migrate peersFile f

end

/-! ### The format of the manifest -/

/-- The manifest, if there is one, is not in the old format. -/
def Modern (f : Files) : Prop := ∀ data, f.manifest = some data → manifestIsLegacy data = false

theorem modern_of_check (h : manifestNeedsMigration f = .ok false) : Modern f := by
  intro data hdata
  rcases manifestNeedsMigration_eq_ok.1 h with ⟨hnone, -⟩ | ⟨-, h⟩ | ⟨⟨data', hfile⟩, -⟩
  · rw [hdata] at hnone
    cases hnone
  · cases h
  · cases hdata.symm.trans hfile.1
    exact hfile.2.2

/-- A manifest that can be loaded and is not in the old format passes the check. -/
theorem Modern.check (h : Modern f)
    (hload : loadPeersFile y true f = .ok specs) : manifestNeedsMigration f = .ok false := by
  refine manifestNeedsMigration_eq_ok.2 ?_
  rcases loadPeersFile_eq_ok.1 hload with ⟨hnone, -⟩ | ⟨data, hfile, -⟩ | ⟨data, hfile, -⟩
  · exact Or.inl ⟨hnone, rfl⟩
  · have hold := h data hfile.1
    rw [hfile.2.2] at hold
    cases hold
  · exact Or.inr (Or.inr ⟨⟨data, hfile⟩, rfl⟩)

theorem Written.modern (hy : y.Lawful) {t : Files} (h : Written y f t) (hf : Modern f) :
    Modern t := by
  intro data hdata
  rcases h with h | ⟨specs, h⟩
  · exact hf data (h ▸ hdata)
  · cases h.symm.trans hdata
    exact manifestIsLegacy_manifestText hy specs

/-- What a locked part does to the manifest. -/
theorem body_written (k : Locked) (f : Files) : Written y f ((k.body y).final f) := by
  cases k with
  | add today r =>
    have h : Meets ((Locked.add today r).body y) f _ fun _ t => Written y f t :=
      (peersAddLocked_meets y f today r).bind (fun _ _ h => Adding.written h) fun _ _ h =>
        Meets.pure (Adding.written h)
    exact h.post
  | remove today peersFile keyB64 =>
    have h : Meets ((Locked.remove today peersFile keyB64).body y) f
        (Removing y today peersFile keyB64 f) fun _ t => Written y f t := by
      refine (peersRemoveLocked_meets y today peersFile keyB64 f).bind (fun _ _ h => h.2.written) ?_
      rintro _ _ ⟨es, m, hload, hread, hm, rfl⟩
      exact Meets.pure (Removing.cleared hload hread hm).written
    exact h.post
  | migrate specs => exact Or.inr ⟨specs, rfl⟩

theorem add_failed (h : ((Locked.add today r).body y f).2 = .error e) :
    ((Locked.add today r).body y).final f = f := by
  have hmeets : Meets ((Locked.add today r).body y) f _ fun res t => ∀ e, res = .error e → t = f :=
    (peersAddLocked_meets y f today r).bind (fun _ _ h _ _ => h) fun _ _ _ => Meets.pure nofun
  exact hmeets.post e h

theorem remove_succeeds (h : readable y peersFile f = true) (keyB64 : Bytes) :
    ((Locked.remove today peersFile keyB64).body y f).2 ≠ .error e := by
  have hmeets : Meets ((Locked.remove today peersFile keyB64).body y) f
      (Removing y today peersFile keyB64 f) fun res _ => res ≠ .error e := by
    refine (peersRemoveLocked_meets y today peersFile keyB64 f).bind ?_
      fun _ _ _ => Meets.pure nofun
    rintro _ _ ⟨hfails, -⟩
    exact absurd h (by simp [hfails])
  exact hmeets.post

theorem add_loaded (h : ((Locked.add today r).body y f).2 = .ok ()) :
    ∃ existing, loadPeersFile y true f = .ok existing := by
  have hmeets : Ensures ((Locked.add today r).body y) f fun _ _ =>
      ∃ existing, loadPeersFile y true f = .ok existing := by
    refine (peersAddLocked_meets y f today r).ensures.bind ?_
    rintro _ t ⟨existing, es, hadded⟩
    exact Ensures.pure ⟨existing, hadded.manifest⟩
  exact hmeets () h

/-! ### Where the programs lead -/

section

variable {D : Except TrustError Unit → Prop} {K : Locked → Prop}

theorem leads_resolving (hD : ∀ e, D (.error e)) {peersFile : Bool} {ref : Bytes}
    {k : Bytes → Proc} (hk : ∀ keyB64, (k keyB64).Leads D K) :
    (resolving y peersFile ref k).Leads D K := by
  unfold resolving
  split
  · exact hk _
  · refine leads_look hD fun specs => leads_look hD fun sessions => leads_look hD fun revoked => ?_
    split
    · exact hk _
    · exact hD _

theorem leads_migrating (hD : ∀ e, D (.error e)) (hK : ∀ specs, K (.migrate specs)) :
    (migrating y).Leads D K :=
  leads_look hD fun specs => leads_look hD fun _ => hK specs

end

theorem error_ne_ok (e : TrustError) (a : Unit) : Except.error e ≠ .ok a := by
  rintro ⟨⟩

/-- The section belongs to the command. -/
def Command.Owns : Command → Locked → Prop
  | .add today _ _ _ _ _, .add today' _ => today' = today
  | .remove today peersFile _, .remove today' peersFile' _ =>
    today' = today ∧ peersFile' = peersFile
  | .migrate peersFile, .migrate _ => peersFile = true
  | _, _ => False

/-- A removal does not end well by reading. -/
theorem leads_remove (today : Date) (peersFile : Bool) (ref : Bytes) :
    (Command.program y (.remove today peersFile ref)).Leads (fun r => ∀ a, r ≠ .ok a)
      (Command.remove today peersFile ref).Owns := by
  rw [Command.program]
  exact leads_resolving error_ne_ok fun keyB64 => ⟨rfl, rfl⟩

theorem prompt_program (c : Command) : Prompt (c.program y) := by
  cases c with
  | add today peersFile key token name expose =>
    exact prompt_of_leads (K := fun _ => True) (leads_look error_ne_ok fun _ => trivial)
  | remove today peersFile ref => exact prompt_of_leads (leads_remove today peersFile ref)
  | migrate peersFile =>
    cases peersFile with
    | false => exact prompt_of_leads (K := fun _ => True) (error_ne_ok _)
    | true =>
      refine prompt_look (K := fun _ => True) fun legacy => ?_
      cases legacy with
      | false => exact Or.inr ⟨_, rfl⟩
      | true => exact Or.inl (leads_migrating error_ne_ok fun _ => trivial)

theorem program_ne_ok (c : Command) (a : Unit) : c.program y ≠ .done (.ok a) := by
  cases c with
  | add today peersFile key token name expose => rintro ⟨⟩
  | remove today peersFile ref =>
    intro h
    have hlead := leads_remove (y := y) today peersFile ref
    rw [h] at hlead
    exact hlead a rfl
  | migrate peersFile => cases peersFile <;> rintro ⟨⟩

/-- A command enters only its own section. -/
theorem leads_program (c : Command) : ∃ D, (c.program y).Leads D c.Owns := by
  cases c with
  | add today peersFile key token name expose =>
    exact ⟨fun _ => True, leads_look (fun _ => trivial) fun _ => rfl⟩
  | remove today peersFile ref => exact ⟨_, leads_remove today peersFile ref⟩
  | migrate peersFile =>
    refine ⟨fun _ => True, ?_⟩
    cases peersFile with
    | false => trivial
    | true =>
      refine leads_look (fun _ => trivial) fun legacy => ?_
      cases legacy with
      | false => trivial
      | true => exact leads_migrating (fun _ => trivial) fun _ => rfl

variable {c : Command}

theorem owns_of_reads {k : Locked} (h : Reads (c.program y) (.enter k)) : c.Owns k := by
  obtain ⟨D, hlead⟩ := leads_program (y := y) c
  exact hlead.reads h

/-- A process in front of the section of an addition has passed the checks. -/
theorem reads_add (h : Reads (c.program y) (.enter (.add today r))) :
    ∃ peersFile key token name expose seen, c = .add today peersFile key token name expose ∧
      peersAddCheck peersFile seen key token name expose = .ok r := by
  cases c with
  | add today' peersFile key token name expose =>
    rcases reads_look h with h | ⟨seen, r', hcheck, h⟩ | ⟨e, h⟩
    · cases h
    · cases reads_enter h
      exact ⟨peersFile, key, token, name, expose, seen, rfl, hcheck⟩
    · cases h
  | remove today' peersFile ref | migrate peersFile => exact (owns_of_reads h).elim

/-- An addition does not start in front of the lock. -/
theorem program_ne_enter_add (c : Command) (today : Date) (r : AddRequest) :
    c.program y ≠ .enter (.add today r) := by
  intro h
  have hreads : Reads (c.program y) (.enter (.add today r)) := by
    rw [h]
    exact .refl
  obtain ⟨peersFile, key, token, name, expose, -, rfl, -⟩ := reads_add hreads
  cases h

/-- It comes there with a read of a manifest that is not in the old format. -/
theorem modern_of_read {next : Files → Proc}
    (h : Reads (c.program y) (.read next)) (henter : next f = .enter (.add today r)) :
    Modern f := by
  have hreads : Reads (c.program y) (.enter (.add today r)) := henter ▸ h.read f
  obtain ⟨peersFile, key, token, name, expose, -, rfl, -⟩ := reads_add hreads
  rcases reads_look h with hread | ⟨seen, r', -, hread⟩ | ⟨e, hread⟩
  · cases hread
    dsimp only at henter
    split at henter
    · next r' hcheck => exact modern_of_check (peersAddCheck_spec hcheck).modern
    · cases henter
  · cases reads_enter hread
  · cases hread

/-! ### Runs -/

section

variable {ι : Type} [DecidableEq ι] {cmds : ι → Command}

/-- The commands before their first step. -/
def launch (y : Yaml) (cmds : ι → Command) (f : Files) : State Files TrustError Unit Locked ι :=
  ⟨f, fun i => (cmds i).program y⟩

/-- What a command has read in front of the lock is still so when it has the lock. -/
def fresh (y : Yaml) (f : Files) : Command → Locked → Bool
  | .remove _ peersFile ref, .remove _ _ keyB64 =>
    decide (resolveKeyRef y peersFile f ref = .ok keyB64) && readable y peersFile f
  | .migrate _, .migrate specs =>
    decide (manifestNeedsMigration f = .ok true) && decide (loadPeersFile y true f = .ok specs)
  | _, _ => true

/-- **The condition of a step**: a reference still means the same key, and the files that the
removal needs can be read; the manifest that a migration writes is still the one in the old
format. -/
def undisturbed (y : Yaml) (cmds : ι → Command) (st : State Files TrustError Unit Locked ι)
    (i : ι) :
    Bool :=
  match st.procs i with
  | .enter k => fresh y st.shared (cmds i) k
  | _ => true

/-- No addition stands in front of the lock while the manifest is in the old format. -/
def AddsModern (st : State Files TrustError Unit Locked ι) : Prop :=
  ∀ i today r, st.procs i = .enter (.add today r) → Modern st.shared

variable {st : State Files TrustError Unit Locked ι}

/-- The commands on their way. -/
abbrev Underway (y : Yaml) (cmds : ι → Command) (st : State Files TrustError Unit Locked ι) :
    Prop :=
  OnWay (fun i => (cmds i).program y) st

omit [DecidableEq ι] in
theorem Underway.reads (h : Underway y cmds st) {i : ι} {p : Proc} (hi : st.procs i = p)
    (hp : ∀ r, p ≠ .done r) : Reads ((cmds i).program y) p := by
  rcases h i with hreads | ⟨r, hr⟩
  · rwa [hi] at hreads
  · exact absurd (hi.symm.trans hr) (hp r)

theorem addsModern_step (hy : y.Lawful) (hway : Underway y cmds st) (h : AddsModern st) (i : ι) :
    AddsModern (step (Locked.body y) st i) := by
  unfold step
  split
  · exact h
  · next next hi =>
    intro j today r hj
    by_cases hij : j = i
    · subst hij
      refine modern_of_read (hway.reads hi ?_) (by simpa using hj)
      rintro r ⟨⟩
    · exact h j today r (by simpa [hij] using hj)
  · intro j today r hj
    by_cases hij : j = i
    · subst hij
      simp at hj
    · exact (body_written _ _).modern hy (h j today r (by simpa [hij] using hj))

/-- The checks of `PeersAdd` see nothing of the files but the format of the manifest. -/
theorem peersAddCheck_congr {seen : Files} {peersFile : Bool} {key token name expose : Bytes}
    {r : AddRequest} (h : peersAddCheck peersFile seen key token name expose = .ok r)
    (hf : manifestNeedsMigration f = .ok false) :
    peersAddCheck peersFile f key token name expose = .ok r := by
  have hseen := (peersAddCheck_spec h).modern
  unfold peersAddCheck at h ⊢
  rw [hf]
  rwa [hseen] at h

omit [DecidableEq ι] in
theorem sound_of_undisturbed (hway : Underway y cmds st) (hadds : AddsModern st) {i : ι}
    (h : undisturbed y cmds st i = true) :
    Sound (Locked.body y) (fun i => (cmds i).program y) st i := by
  intro k hk
  have hreads : Reads ((cmds i).program y) (.enter k) := hway.reads hk (by rintro r ⟨⟩)
  rw [undisturbed, hk] at h
  show (∀ a, _ → ((cmds i).program y).settle st.shared = .inr k) ∧ _
  cases k with
  | add today r =>
    refine ⟨fun a ha => ?_, fun e he => add_failed he⟩
    obtain ⟨peersFile, key, token, name, expose, seen, hc, hcheck⟩ := reads_add hreads
    obtain ⟨existing, hload⟩ := add_loaded ha
    have hmodern := (hadds i today r hk).check hload
    rw [hc]
    exact settle_add (peersAddCheck_congr hcheck hmodern)
  | remove today peersFile keyB64 =>
    have howns := owns_of_reads hreads
    cases hc : cmds i with
    | add today' peersFile' key token name expose | migrate peersFile' =>
      rw [hc] at howns; exact howns.elim
    | remove today' peersFile' ref =>
      rw [hc] at howns h
      obtain ⟨rfl, rfl⟩ := howns
      simp only [fresh, Bool.and_eq_true, decide_eq_true_eq] at h
      exact ⟨fun _ _ => settle_remove h.1, fun e he => absurd he (remove_succeeds h.2 keyB64)⟩
  | migrate specs =>
    have howns := owns_of_reads hreads
    cases hc : cmds i with
    | add today' peersFile' key token name expose | remove today' peersFile' ref =>
      rw [hc] at howns; exact howns.elim
    | migrate peersFile' =>
      rw [hc] at howns h
      cases (howns : peersFile' = true)
      simp only [fresh, Bool.and_eq_true, decide_eq_true_eq] at h
      refine ⟨fun _ _ => settle_migrate h.1 h.2, fun e he => ?_⟩
      cases he

/-- **Manifest commands side by side**: as long as every step meets the condition, the commands that
have succeeded can be run one after the other, each with success, and leave the same files. -/
theorem commands_serialize (hy : y.Lawful) (cmds : ι → Command) (f : Files) {es : List ι}
    (h : Along (step (Locked.body y)) (fun st i => undisturbed y cmds st i = true)
      (launch y cmds f) es) :
    ∃ order : List ι, order.Nodup ∧
      (∀ i, i ∈ order ↔
        (run (step (Locked.body y)) (launch y cmds f) es).succeeded i = true) ∧
      Along (fun g i => ((cmds i).run y).final g) (fun g i => ((cmds i).run y g).2 = .ok ())
        f order ∧
      run (fun g i => ((cmds i).run y).final g) f order =
        (run (step (Locked.body y)) (launch y cmds f) es).shared := by
  have hthroughout : Throughout (step (Locked.body y))
      (fun st => Underway y cmds st ∧ AddsModern st) (launch y cmds f) es := by
    have hstart : Underway y cmds (launch y cmds f) ∧ AddsModern (launch y cmds f) :=
      ⟨fun _ => Or.inl .refl, fun i today r hi => absurd hi (program_ne_enter_add _ _ _)⟩
    intro pre _
    refine invariant_run (P := fun st => Underway y cmds st ∧ AddsModern st) ?_ hstart pre
    exact fun st i hst => ⟨onWay_step hst.1 i, addsModern_step hy hst.1 hst.2 i⟩
  have hsound := (hthroughout.along.and h).mono fun st i hst =>
    sound_of_undisturbed hst.1.1 hst.1.2 hst.2
  obtain ⟨order, hnodup, hmem, halong, hrun⟩ :=
    exists_serial (fun i => prompt_program (cmds i)) (fun i a => program_ne_ok (cmds i) a) hsound
  have hstep : serialStep (Locked.body y) (fun i => (cmds i).program y) =
      fun g i => ((cmds i).run y).final g := by
    funext g i
    exact (alone_run (cmds i) g).1
  rw [hstep] at halong hrun
  refine ⟨order, hnodup, hmem, halong.mono fun g i hwell => ?_, hrun⟩
  obtain ⟨a, ha⟩ := hwell
  exact (alone_run (cmds i) g).2.symm.trans ha

end

namespace Sample

/-- A buddy whose key starts like `key`. -/
def sibling : Bytes := List.replicate 16 7 ++ List.replicate 16 8

/-- A manifest in the old format with one buddy, and another buddy that is revoked. -/
def mixedNode : Files :=
  ⟨none, some (revokedText day [⟨pubKeyB64 sibling, revokedOn day⟩]),
    some (pubKeyB64 key ++ lit " token")⟩

/-- Two migrations, the revoked buddy added again, and a removal with six characters that both keys
start with. -/
def racing : Fin 4 → Command
  | 0 => .migrate true
  | 1 => .migrate true
  | 2 => .add day true (pubKeyB64 sibling) (lit "token") [] []
  | 3 => .remove day true (lit "BwcHBw")

/-- The first migration has read the manifest and waits; the second one and the addition complete;
the first migration writes what it has read; the removal runs. -/
def race : State Files TrustError Unit Locked (Fin 4) :=
  run (step (Locked.body shortYaml)) (launch shortYaml racing mixedNode)
    [0, 0, 0, 1, 1, 1, 1, 2, 2, 0, 3, 3, 3, 3]

/-- The node after a migration. -/
def migratedNode : Files :=
  { mixedNode with manifest := some (manifestText shortYaml [⟨key, lit "token", [], none⟩]) }

/-- The node after a migration and the addition. -/
def extendedNode : Files := ((racing 2).run shortYaml).final migratedNode

/-- The files that the commands can leave one after the other, in any order and number. -/
def serialNodes : List Files := [mixedNode, migratedNode, extendedNode]

end Sample

open Sample in
/-- A migration writes back what it has read, and the buddy that was added is gone. So the removal,
which is ambiguous in every serial order, finds one buddy only and takes it off the manifest. -/
theorem commands_serialize_fails :
    shortYaml.Lawful ∧ (∀ i, race.succeeded i = true) ∧
      ∀ order : List (Fin 4),
        (run (fun g i => ((racing i).run shortYaml).final g) mixedNode order).manifest ≠
          race.shared.manifest := by
  -- one evaluation for all of it, since most of its time goes into the header of the manifest
  have hfacts : (∀ i, race.succeeded i = true) ∧ ∀ g ∈ serialNodes,
      g.manifest ≠ race.shared.manifest ∧
        ∀ i, ((racing i).run shortYaml).final g ∈ serialNodes := by decide +kernel
  refine ⟨shortYaml_lawful, hfacts.1, fun order => (hfacts.2 _ ?_).1⟩
  exact invariant_run (P := (· ∈ serialNodes)) (fun g i hg => (hfacts.2 g hg).2 i)
    List.mem_cons_self order

namespace Sample

/-- A buddy is added while another one, given by its key, is removed. -/
def apart : Fin 2 → Command
  | 0 => .add day true (pubKeyB64 key) (lit "token") [] []
  | 1 => .remove day true other

end Sample

open Sample in
theorem commands_serialize_apart :
    ∃ order : List (Fin 2), order.Nodup ∧ (∀ i, i ∈ order) ∧
      run (fun g i => ((apart i).run shortYaml).final g) newNode order =
        (run (step (Locked.body shortYaml)) (launch shortYaml apart newNode)
          [0, 1, 0]).shared := by
  have hgood : Along (step (Locked.body shortYaml))
      (fun st i => undisturbed shortYaml apart st i = true) (launch shortYaml apart newNode)
      [0, 1, 0] := by decide +kernel
  have hall : ∀ i, (run (step (Locked.body shortYaml)) (launch shortYaml apart newNode)
      [0, 1, 0]).succeeded i = true := by decide +kernel
  obtain ⟨order, hnodup, hmem, -, hrun⟩ := commands_serialize shortYaml_lawful apart newNode hgood
  exact ⟨order, hnodup, fun i => (hmem i).2 (hall i), hrun⟩

end BuddyNet.Trust
