import BuddyNet.Library.Machine
import BuddyNet.Trust.RevocationList

/-!
# The revocation list as a set with notes

`addRevokedLocked` and `removeRevokedLocked` read the list and write it again. The line of an entry
can get longer by that: one that just fits the scanner's buffer may not fit it any more once it has
been rewritten, and then the whole list cannot be read. `revocations_iff`: that is all that can go
wrong.
-/

namespace BuddyNet.Trust

open Transaction List Machine Go

/-! ### Edits -/

/-- A call of `removeRevokedLocked` or of `addRevokedLocked`. -/
structure Edit where
  removes : Bool
  today : Date
  key : Bytes

namespace Edit

/-- The files after the call. -/
def step (f : Files) (e : Edit) : Files :=
  if e.removes then (removeRevokedLocked e.today e.key).final f
  else (addRevokedLocked e.today e.key).final f

/-- What it makes of a set of keys. -/
def apply (S : Set Bytes) (e : Edit) : Set Bytes :=
  if e.removes then S \ {e.key} else insert e.key S

/-- The entries it writes, if it writes any. -/
def writes (es : List RevokedEntry) (e : Edit) : Option (List RevokedEntry) :=
  if e.removes = decide (e.key ∈ es.map (·.key)) then
    some (if e.removes then es.filter (·.key ≠ e.key) else es ++ [⟨e.key, revokedOn e.today⟩])
  else none

end Edit

/-- The keys of a list. -/
def keySet (es : List RevokedEntry) : Set Bytes := {k | k ∈ es.map (·.key)}

/-- The call does to the keys that are loaded what it does to a set, keeps every other key with its
note, and changes nothing when it does not change the set. -/
def Behaves (f : Files) (e : Edit) : Prop :=
  ∀ es, loadRevoked f.revoked = .ok es → ∃ es', loadRevoked (e.step f).revoked = .ok es' ∧
    keySet es' = e.apply (keySet es) ∧
    (∀ n ∈ es, n.key ≠ e.key → n.note ≠ [] → n ∈ es') ∧
    (e.apply (keySet es) = keySet es → e.step f = f)

/-- Every line that the call writes fits the scanner's buffer. -/
def Fits (f : Files) (e : Edit) : Prop :=
  ∀ es es', loadRevoked f.revoked = .ok es → e.writes es = some es' →
    ∀ n ∈ es', (n.line e.today).length < maxScanTokenSize

variable {f : Files} {edit : Edit} {es es' : List RevokedEntry}

theorem Edit.step_eq (h : loadRevoked f.revoked = .ok es) (edit : Edit) :
    edit.step f = match edit.writes es with
      | none => f
      | some es' => { f with revoked := some (revokedText edit.today es') } := by
  obtain ⟨removes, today, k⟩ := edit
  cases removes with
  | false =>
    have hcall : addRevokedLocked today k f = _ := ofExcept_ok_bind h _ f
    by_cases hk : k ∈ es.map (·.key)
    · simp only [Edit.step, Edit.writes, final, hcall, hk]
      rfl
    · simp only [Edit.step, Edit.writes, final, hcall, hk]
      rfl
  | true =>
    have hcall : removeRevokedLocked today k f = _ := ofExcept_ok_bind h _ f
    by_cases hk : k ∈ es.map (·.key)
    · simp only [Edit.step, Edit.writes, final, hcall, hk]
      rfl
    · simp only [Edit.step, Edit.writes, final, hcall, hk]
      rfl

/-- A call writes exactly when it changes the set. -/
theorem Edit.writes_eq_none : edit.writes es = none ↔ edit.apply (keySet es) = keySet es := by
  have hmem : edit.key ∈ es.map (·.key) ↔ edit.key ∈ keySet es := Iff.rfl
  unfold Edit.writes Edit.apply
  cases edit.removes <;> simp [hmem]

/-- What a call writes: a list like a loaded one, with the keys of the set and the other entries. -/
theorem Loaded.writes (h : Loaded es) (hkey : IsKey edit.key) (hw : edit.writes es = some es') :
    Loaded es' ∧ keySet es' = edit.apply (keySet es) ∧ ∀ n ∈ es, n.key ≠ edit.key → n ∈ es' := by
  obtain ⟨removes, today, k⟩ := edit
  rw [Edit.writes, Option.ite_none_right_eq_some] at hw
  obtain ⟨hk, hw⟩ := hw
  obtain rfl := Option.some.inj hw
  cases removes with
  | false =>
    have hnew : k ∉ es.map (·.key) := of_decide_eq_false hk.symm
    refine ⟨h.concat hkey hnew today, ?_, fun n hn _ => mem_append_left _ hn⟩
    ext k'
    simp [keySet, Edit.apply, or_comm]
  | true =>
    refine ⟨h.filter _, Set.ext fun k' => mem_keys_filter, fun n hn hne => ?_⟩
    exact mem_filter.2 ⟨hn, by simpa using hne⟩

theorem fits_iff (h : loadRevoked f.revoked = .ok es) (hw : edit.writes es = some es') :
    Fits f edit ↔ ∀ n ∈ es', (n.line edit.today).length < maxScanTokenSize := by
  refine ⟨fun hfit => hfit es es' h hw, fun hfit es₁ es₂ h₁ h₂ => ?_⟩
  cases h.symm.trans h₁
  cases hw.symm.trans h₂
  exact hfit

/-- What is loaded after a call whose lines fit. -/
theorem load_step (h : loadRevoked f.revoked = .ok es) (hkey : IsKey edit.key)
    (hw : edit.writes es = some es') (hfit : Fits f edit) :
    loadRevoked (edit.step f).revoked = .ok (es'.map (·.noted edit.today)) := by
  rw [edit.step_eq h, hw]
  exact loadRevoked_revokedText ((loadRevoked_loaded h).writes hkey hw).1 ((fits_iff h hw).1 hfit)

/-- One call behaves exactly when what it writes can be read. -/
theorem behaves_iff (h : loadRevoked f.revoked = .ok es) (hkey : IsKey edit.key) :
    Behaves f edit ↔ Fits f edit := by
  have hloaded := loadRevoked_loaded h
  have hstep := edit.step_eq h
  cases hw : edit.writes es with
  | none =>
    rw [hw] at hstep
    refine iff_of_true (fun es₁ h₁ => ?_) fun es₁ es' h₁ hw' => ?_ <;> cases h.symm.trans h₁
    · rw [hstep, Edit.writes_eq_none.1 hw]
      exact ⟨es, h, rfl, fun n hn _ _ => hn, fun _ => rfl⟩
    · cases hw.symm.trans hw'
  | some es' =>
    rw [hw] at hstep
    obtain ⟨hwritten, hkeys, hkept⟩ := hloaded.writes hkey hw
    constructor
    · intro hbehaves
      obtain ⟨es₂, hload, -⟩ := hbehaves es h
      rw [hstep] at hload
      exact (fits_iff h hw).2 ((exists_loadRevoked_revokedText hwritten).1 ⟨es₂, hload⟩)
    · intro hfit es₁ h₁
      cases h.symm.trans h₁
      refine ⟨es'.map (·.noted edit.today), load_step h hkey hw hfit, ?_,
        fun n hn hne hnote => ?_, fun heq => ?_⟩
      · rw [← hkeys, keySet, map_map]
        rfl
      · refine mem_map.2 ⟨n, hkept n hn hne, ?_⟩
        rw [RevokedEntry.noted, if_neg hnote]
      · cases hw.symm.trans (Edit.writes_eq_none.2 heq)

/-- **The revocation list is a set with notes as long as every rewritten line fits the scanner's
buffer**: then every call of a history behaves, and the history loads as the history of the set. -/
theorem revocations_iff (f : Files) (es : List RevokedEntry) (h : loadRevoked f.revoked = .ok es)
    (history : List Edit) (hkeys : ∀ e ∈ history, IsKey e.key) :
    (Along Edit.step Fits f history ↔ Along Edit.step Behaves f history) ∧
    (Along Edit.step Fits f history →
      ∃ es', loadRevoked (run Edit.step f history).revoked = .ok es' ∧
        keySet es' = history.foldl Edit.apply (keySet es)) := by
  induction history generalizing f es with
  | nil => exact ⟨Iff.rfl, fun _ => ⟨es, h, rfl⟩⟩
  | cons e history ih =>
    have hiff := behaves_iff h (hkeys e mem_cons_self)
    by_cases hfit : Fits f e
    · obtain ⟨es₁, h₁, hset, -⟩ := hiff.2 hfit es h
      obtain ⟨hall, hrun⟩ := ih _ es₁ h₁ fun e he => hkeys e (mem_cons_of_mem _ he)
      refine ⟨and_congr hiff.symm hall, fun halong => ?_⟩
      rw [foldl_cons, ← hset]
      exact hrun halong.2
    · exact ⟨iff_of_false (fun h => hfit h.1) fun h => hfit (hiff.1 h.1), fun h => absurd h.1 hfit⟩

/-! ### A list that was edited by hand -/

namespace Noted

def key (c : UInt8) : Bytes := pubKeyB64 (replicate publicKeySize c)

/-- A comment, a key with a note, a line that is no key, a second key with a note, and the first key
once more. -/
def byHand : Files :=
  ⟨none, some (unlines [lit "# lost", key 1 ++ lit " # stolen", lit "junk",
    key 2 ++ lit " #left", key 1]), none⟩

/-- A third key is revoked, the first one is allowed again, and the third is revoked once more. -/
def history : List Edit :=
  [⟨false, ⟨2024, 1, 2⟩, key 3⟩, ⟨true, ⟨2024, 1, 3⟩, key 1⟩, ⟨false, ⟨2024, 1, 4⟩, key 3⟩]

end Noted

open Noted in
theorem revocations_noted :
    loadRevoked byHand.revoked = .ok [⟨key 1, lit "stolen"⟩, ⟨key 2, lit "left"⟩] ∧
      Along Edit.step Behaves byHand history ∧
      ∃ es', loadRevoked (run Edit.step byHand history).revoked = .ok es' ∧
        keySet es' = history.foldl Edit.apply
          (keySet [⟨key 1, lit "stolen"⟩, ⟨key 2, lit "left"⟩]) := by
  have hkey : ∀ c, IsKey (key c) := fun c => ⟨_, length_replicate, rfl⟩
  have h : loadRevoked byHand.revoked = .ok [⟨key 1, lit "stolen"⟩, ⟨key 2, lit "left"⟩] := by
    decide +kernel
  -- the third key is written, the first one is left out, and the last call writes nothing
  have hw₁ : Edit.writes [⟨key 1, lit "stolen"⟩, ⟨key 2, lit "left"⟩]
      ⟨false, ⟨2024, 1, 2⟩, key 3⟩ = some [⟨key 1, lit "stolen"⟩, ⟨key 2, lit "left"⟩,
        ⟨key 3, revokedOn ⟨2024, 1, 2⟩⟩] := by decide +kernel
  have hfit₁ := (fits_iff h hw₁).2 (by decide +kernel)
  have h₁ := load_step h (hkey 3) hw₁ hfit₁
  have hw₂ : Edit.writes [⟨key 1, lit "stolen"⟩, ⟨key 2, lit "left"⟩,
      ⟨key 3, revokedOn ⟨2024, 1, 2⟩⟩] ⟨true, ⟨2024, 1, 3⟩, key 1⟩ =
        some [⟨key 2, lit "left"⟩, ⟨key 3, revokedOn ⟨2024, 1, 2⟩⟩] := by decide +kernel
  have hfit₂ := (fits_iff h₁ hw₂).2 (by decide +kernel)
  have h₂ := load_step h₁ (hkey 1) hw₂ hfit₂
  have hw₃ : Edit.writes [⟨key 2, lit "left"⟩, ⟨key 3, revokedOn ⟨2024, 1, 2⟩⟩]
      ⟨false, ⟨2024, 1, 4⟩, key 3⟩ = none := by decide +kernel
  have hfit₃ : Fits _ ⟨false, ⟨2024, 1, 4⟩, key 3⟩ := fun es es' hes hw => by
    cases h₂.symm.trans hes
    cases hw₃.symm.trans hw
  obtain ⟨hiff, hrun⟩ := revocations_iff _ _ h history fun e he => by
    simp only [history, mem_cons, not_mem_nil, or_false] at he
    rcases he with rfl | rfl | rfl <;> exact hkey _
  have hfits : Along Edit.step Fits byHand history := ⟨hfit₁, hfit₂, hfit₃, trivial⟩
  exact ⟨h, hiff.1 hfits, hrun hfits⟩

/-! ### A line that gets too long -/

namespace Oversize

def key : Bytes := pubKeyB64 (replicate publicKeySize 1)

/-- A node whose list has one line: a key, and a note of `n` characters behind it. -/
def revoking (n : ℕ) : Files :=
  ⟨none, some (unlines [key ++ lit " #" ++ replicate n 97]), none⟩

/-- Another key is revoked. -/
def another : Edit := ⟨false, ⟨2024, 1, 2⟩, pubKeyB64 (replicate publicKeySize 2)⟩

end Oversize

open Oversize

theorem key_length : key.length = 44 := by
  rw [key, pubKeyB64, Encoding.encode_length_padded rfl, length_replicate]
  rfl

theorem loadRevoked_revoking {n : ℕ} (hn : n < 65490) :
    loadRevoked (revoking n).revoked = .ok [⟨key, replicate n 97⟩] := by
  have hword : IsToken (replicate n 97) := fun c hc => by
    rw [eq_of_mem_replicate hc]
    exact ⟨by unfold IsASCII; decide, by decide⟩
  have hpin : (replicate publicKeySize (1 : UInt8)).length = publicKeySize :=
    length_replicate
  have hread := revokedLine_noted hpin not_mem_nil fun r hr =>
    hword.spaceFree r (mem_of_mem_getLast? hr)
  have hnl : nl ∉ key ++ lit " #" ++ replicate n 97 := by
    intro hmem
    rcases mem_append.1 hmem with hmem | hmem
    · rcases mem_append.1 hmem with hmem | hmem
      · exact absurd (pubKeyB64_char hmem).2.1 (by decide)
      · exact absurd hmem (by decide)
    · exact absurd (eq_of_mem_replicate hmem) (by decide)
  have hlen : (key ++ lit " #" ++ replicate n 97).length < maxScanTokenSize := by
    have hlit : (lit " #").length = 2 := rfl
    rw [length_append, length_append, key_length, hlit, length_replicate]
    unfold maxScanTokenSize
    omega
  rw [trimSpace_token hword] at hread
  have hline : key ++ lit " #" ++ replicate n 97 =
      key ++ 32 :: [] ++ [35] ++ replicate n 97 := by
    rw [append_assoc key [32]]
    rfl
  have hentries : ([key ++ lit " #" ++ replicate n 97].map dropCR).filterMap revokedLine =
      [⟨key, replicate n 97⟩] := by
    rw [hline]
    exact filterMap_cons_some hread
  rw [revoking, loadRevoked_unlines (forall_mem_singleton.2 ⟨hnl, hlen⟩)]
  exact congrArg (fun es => Except.ok (es.foldl keepEntry [])) hentries

/-- A list with a line of 65535 bytes can be read, and cannot be read any more when another key has
been added. -/
theorem revocations_lost :
    loadRevoked (revoking 65489).revoked = .ok [⟨key, replicate 65489 97⟩] ∧
      ∀ es, loadRevoked (another.step (revoking 65489)).revoked ≠ .ok es := by
  generalize hn : 65489 = n
  have h := loadRevoked_revoking (n := n) (by omega)
  refine ⟨h, fun es hload => ?_⟩
  have hw : another.writes [⟨key, replicate n 97⟩] =
      some [⟨key, replicate n 97⟩, ⟨another.key, revokedOn another.today⟩] := by
    have hnew : another.key ∉ [key] := by decide
    exact if_pos (decide_eq_false hnew).symm
  have hloaded := ((loadRevoked_loaded h).writes ⟨_, length_replicate, rfl⟩ hw).1
  rw [another.step_eq h, hw] at hload
  have hfit := (exists_loadRevoked_revokedText hloaded).1 ⟨es, hload⟩ _ mem_cons_self
  have hlit : (lit "  # ").length = 4 := rfl
  rw [RevokedEntry.line, if_neg (by simp; omega), length_append, length_append,
    key_length, hlit, length_replicate] at hfit
  unfold maxScanTokenSize at hfit
  omega

end BuddyNet.Trust
