import BuddyNet.Handshake.Authorizer

/-!
# Approval times and the allowlist

The allowlist over the life of a server: it is loaded at the start, read again when a poll finds its
file changed, and emptied when the file is gone. `load` sets the approval times together with the
keys. `noteMissing`, the branch of a poll that finds no file, empties the keys and leaves the times,
so a key that comes back with the file is taken for one that was approved all along.

`approval_times_track`: as long as no poll finds the file gone while keys are allowed, the times are
those of the allowed keys, and a key that was away carries the time of the load that let it back in.
-/

namespace BuddyNet.Handshake.ApprovalTimes

open Authorizer Machine AList

/-- The file is read again, or a poll looks at it. -/
inductive Event where
  | reload (file : FileRead) (now : ℤ)
  | poll (stat : Stat) (file : FileRead) (now : ℤ)

/-- The reading of the clock. -/
def Event.time : Event → ℤ
  | reload _ now => now
  | poll _ _ now => now

/-- One step. -/
def step (a : Authorizer) : Event → Authorizer
  | .reload file now => a.load false file now
  | .poll stat file now => a.pollOnce stat file now

/-- The authorizer after some steps of a server that has started. -/
abbrev after (a : Authorizer) (es : List Event) : Authorizer := run step a es

/-! ### What a step does -/

variable {a : Authorizer} {e : Event} {k : Bytes}

theorem lookup_approvals (initial : Bool) (old : AList fun _ : Bytes => Option ℤ) (now : ℤ)
    (ks : List Bytes) (k : Bytes) :
    (approvals initial old now ks).lookup k =
      if k ∈ ks then some (if initial then none else (old.lookup k).getD (some now)) else none := by
  unfold approvals
  induction ks using List.reverseRecOn with
  | nil => rfl
  | append_singleton ks k' ih =>
    rw [List.foldl_concat]
    by_cases hk : k = k'
    · subst hk
      have hmem : k ∈ ks ++ [k] := by simp
      rw [lookup_insert, if_pos hmem]
      cases initial with
      | true => rfl
      | false => cases old.lookup k <;> rfl
    · rw [lookup_insert_ne hk, ih]
      simp [hk]

/-- The cases of a step: nothing changes, the file is read, or a poll finds no file. -/
inductive Effect (a : Authorizer) : Event → Authorizer → Prop
  | idle (e : Event) : Effect a e a
  | read (file : FileRead) (e : Event) : Effect a e (a.load false file e.time)
  | missing (file : FileRead) (now : ℤ) : Effect a (.poll .gone file now) a.noteMissing

theorem step_effect (a : Authorizer) (e : Event) : Effect a e (step a e) := by
  cases e with
  | reload file now => exact .read file (.reload file now)
  | poll stat file now =>
    simp only [step, pollOnce]
    cases stat with
    | gone => exact .missing file now
    | failed => exact .idle _
    | modified mtime =>
      dsimp only
      split_ifs
      · exact .idle _
      · exact .read file (.poll (.modified mtime) file now)

/-- The keys with an approval time are the allowed ones. -/
def Tracks (a : Authorizer) : Prop := ∀ k, k ∈ a.approvedAt ↔ a.allowed k = true

/-- No poll finds the file gone while a key is allowed. -/
def Unbroken (a : Authorizer) : Event → Prop
  | .poll .gone _ _ => a.keys.keys = []
  | _ => True

instance (a : Authorizer) (e : Event) : Decidable (Unbroken a e) := by
  unfold Unbroken
  split <;> infer_instance

theorem allowed_iff : a.allowed k = true ↔ k ∈ a.keys := decide_eq_true_iff

theorem tracks_load (h : Tracks a) (initial : Bool) (file : FileRead) (now : ℤ) :
    Tracks (a.load initial file now) := by
  cases file with
  | gone => exact fun k => by simp [load, allowed]
  | failed => exact h
  | content keys mtime =>
    intro k
    rw [allowed_iff, ← lookup_isSome]
    show ((approvals initial a.approvedAt now keys.keys).lookup k).isSome = true ↔ k ∈ keys
    rw [lookup_approvals, mem_keys]
    split_ifs with hk <;> simp [hk]

theorem tracks_step (h : Tracks a) (hG : Unbroken a e) : Tracks (step a e) := by
  have heffect := step_effect a e
  generalize step a e = b at heffect ⊢
  cases heffect with
  | idle => exact h
  | read file => exact tracks_load h false file _
  | missing file now =>
    -- the times stay, but there was none: no key was allowed
    have hempty : a.keys.keys = [] := hG
    intro k
    have hold : k ∈ a.approvedAt ↔ k ∈ a.keys := (h k).trans allowed_iff
    rw [allowed_iff]
    show k ∈ a.approvedAt ↔ k ∈ (∅ : AList fun _ : Bytes => Bytes)
    rw [hold, mem_keys, hempty]
    simp

/-! ### Keys that come back -/

theorem lookup_of_newly_allowed (h : Tracks a) (hno : a.allowed k = false)
    (hyes : (step a e).allowed k = true) : (step a e).approvedAt.lookup k = some (some e.time) := by
  have hnone : a.approvedAt.lookup k = none := by
    rw [lookup_eq_none, h k, hno]
    exact Bool.false_ne_true
  have heffect := step_effect a e
  generalize step a e = b at heffect hyes ⊢
  cases heffect with
  | idle => rw [hno] at hyes; cases hyes
  | missing file now => simp [noteMissing, allowed] at hyes
  | read file =>
    cases file with
    | gone => simp [load, allowed] at hyes
    | failed => rw [load, hno] at hyes; cases hyes
    | content keys mtime =>
      have hmem : k ∈ keys.keys := mem_keys.1 (allowed_iff.1 hyes)
      show (approvals false a.approvedAt e.time keys.keys).lookup k = _
      rw [lookup_approvals, if_pos hmem, hnone]
      rfl

theorem lookup_of_still_allowed {time : Option ℤ} (h : a.approvedAt.lookup k = some time)
    (hyes : (step a e).allowed k = true) : (step a e).approvedAt.lookup k = some time := by
  have heffect := step_effect a e
  generalize step a e = b at heffect hyes ⊢
  cases heffect with
  | idle => exact h
  | missing file now => exact h
  | read file =>
    cases file with
    | gone => simp [load, allowed] at hyes
    | failed => exact h
    | content keys mtime =>
      have hmem : k ∈ keys.keys := mem_keys.1 (allowed_iff.1 hyes)
      show (approvals false a.approvedAt e.time keys.keys).lookup k = _
      rw [lookup_approvals, if_pos hmem, h]
      rfl

/-- The last step of a run that let the key in: it was out before, and in ever since. -/
structure LetIn (a : Authorizer) (k : Bytes) (es : List Event) (e : Event) : Prop where
  split : ∃ pre post, es = pre ++ e :: post ∧ (after a pre).allowed k = false ∧
    ∀ mid, mid <+: post → (after a (pre ++ e :: mid)).allowed k = true

variable {es : List Event}

theorem LetIn.concat (h : LetIn a k es e) {e' : Event}
    (hyes : (after a (es ++ [e'])).allowed k = true) : LetIn a k (es ++ [e']) e := by
  obtain ⟨pre, post, rfl, hout, hin⟩ := h.split
  refine ⟨pre, post ++ [e'], by simp, hout, fun mid hmid => ?_⟩
  rcases List.prefix_concat_iff.1 hmid with rfl | hmid
  · simpa using hyes
  · exact hin mid hmid

/-- **A key that was out at some point and is in at the end** was let in by a step, and carries the
time of that step. -/
theorem let_in (h : Tracks a) (hG : Along step Unbroken a es)
    (hout : a.allowed k = false) (hin : (after a es).allowed k = true) :
    ∃ e, LetIn a k es e ∧ (after a es).approvedAt.lookup k = some (some e.time) := by
  induction es using List.reverseRecOn with
  | nil => exact absurd (hout.symm.trans hin) Bool.false_ne_true
  | append_singleton es e ih =>
    obtain ⟨hpre, hlast⟩ := along_append.1 hG
    have htracks : Tracks (after a es) := invariant_along (fun _ _ => tracks_step) h hpre
    have hstep : after a (es ++ [e]) = step (after a es) e := run_concat es e
    cases hbefore : (after a es).allowed k with
    | true =>
      obtain ⟨e', hletin, hlook⟩ := ih hpre hbefore
      refine ⟨e', hletin.concat hin, ?_⟩
      rw [hstep] at hin ⊢
      exact lookup_of_still_allowed hlook hin
    | false =>
      refine ⟨e, ⟨es, [], rfl, hbefore, fun mid hmid => ?_⟩, ?_⟩
      · rw [List.prefix_nil.1 hmid]
        exact hin
      · rw [hstep] at hin ⊢
        exact lookup_of_newly_allowed htracks hbefore hin

theorem freshSinceApproval_eq {approved : ℤ} (h : a.approvedAt.lookup k = some (some approved))
    (ts : ℤ) : a.freshSinceApproval k ts = decide (approved - 1000000000 ≤ ts * 1000000000) := by
  rw [freshSinceApproval, h]

/-- **Approval times track the allowlist** in every run in which no poll finds the file gone while
keys are allowed. In every state the keys with an approval time are the allowed ones; and a key that
is allowed at the end and was not allowed at some earlier point carries the time of the step that
let it in last, so that registrations from more than a second before that are refused. -/
theorem approval_times_track (file : FileRead) (start : ℤ) (a : Authorizer)
    (hstart : Authorizer.new file start = some a) (es : List Event)
    (hG : Along step Unbroken a es) :
    Throughout step Tracks a es ∧
    ∀ k pre post, es = pre ++ post → (after a pre).allowed k = false →
      (after a es).allowed k = true →
      ∃ e, LetIn (after a pre) k post e ∧
        (after a es).approvedAt.lookup k = some (some e.time) ∧
        ∀ ts, ts * 1000000000 < e.time - 1000000000 →
          (after a es).freshSinceApproval k ts = false := by
  have hnew : Tracks a := by
    have hblank : Tracks (blank start) := fun k => by simp [blank, allowed]
    cases file with
    | failed => cases hstart
    | gone =>
      cases hstart
      exact tracks_load hblank true .gone start
    | content keys mtime =>
      cases hstart
      exact tracks_load hblank true (.content keys mtime) start
  refine ⟨throughout_along (fun _ _ => tracks_step) hnew hG, ?_⟩
  rintro k pre post rfl hout hin
  obtain ⟨hpre, hpost⟩ := along_append.1 hG
  have htracks : Tracks (after a pre) := invariant_along (fun _ _ => tracks_step) hnew hpre
  have hsplit : after a (pre ++ post) = after (after a pre) post := run_append pre post
  rw [hsplit] at hin ⊢
  obtain ⟨e, hletin, hlook⟩ := let_in htracks hpost hout hin
  refine ⟨e, hletin, hlook, fun ts hts => ?_⟩
  rw [freshSinceApproval_eq hlook]
  exact decide_eq_false (by omega)

/-! ### A file that disappears -/

namespace Runs

/-- A file that lists one key. -/
def file (mtime : ℤ) : FileRead := .content
    ((∅ : AList fun _ : Bytes => Bytes).insert (lit "k") []) mtime

/-- A server that starts with this file. -/
def start : Authorizer := (blank 0).load true (file 1) 0

/-- A poll finds the file gone, and the next one finds it again. -/
def restored : List Event :=
  [.poll .gone .gone (100 * 1000000000), .poll (.modified 2) (file 2) (200 * 1000000000)]

/-- The key is taken off the list and put on it again, with the file in place. -/
def rewritten : List Event :=
  [.poll (.modified 2) (.content ∅ 2) (100 * 1000000000),
    .poll (.modified 3) (file 3) (200 * 1000000000)]

end Runs

open Runs in
/-- While the file is gone the key has an approval time and is not allowed; when it is back, the key
is allowed without one, and a registration from the beginning of time is fresh. -/
theorem approval_times_track_fails :
    Authorizer.new (file 1) 0 = some start ∧
    ¬Tracks (after start (restored.take 1)) ∧
    (after start (restored.take 1)).allowed (lit "k") = false ∧
    (after start restored).allowed (lit "k") = true ∧
    (after start restored).approvedAt.lookup (lit "k") = some none ∧
    (after start restored).freshSinceApproval (lit "k") 0 = true := by
  refine ⟨rfl, fun h => ?_, by decide, by decide, by decide, by decide⟩
  exact absurd ((h (lit "k")).1 (by decide)) (by decide)

open Runs in
/-- The key that was taken off the list carries the time at which it came back. -/
theorem approval_times_track_rewritten :
    (after start rewritten).approvedAt.lookup (lit "k") = some (some (200 * 1000000000)) ∧
    (after start rewritten).freshSinceApproval (lit "k") 198 = false := by
  have hG : Along step Unbroken start rewritten := by decide
  have hout : (after start (rewritten.take 1)).allowed (lit "k") = false := by decide
  have hin : (after start rewritten).allowed (lit "k") = true := by decide
  obtain ⟨-, htimes⟩ := approval_times_track (file 1) 0 start rfl rewritten hG
  obtain ⟨e, hletin, hlook, hold⟩ := htimes (lit "k") (rewritten.take 1)
      (rewritten.drop 1) rfl hout hin
  obtain ⟨pre, post, hsplit, -, -⟩ := hletin.split
  have hmem : e ∈ rewritten.drop 1 := by rw [hsplit]; simp
  obtain rfl : e = .poll (.modified 3) (file 3) (200 * 1000000000) := List.mem_singleton.1 hmem
  exact ⟨hlook, hold 198 (by decide)⟩

end BuddyNet.Handshake.ApprovalTimes
