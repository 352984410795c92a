import BuddyNet.Relay.Steps

/-!
# The live legs after each operation

For every operation on the table: which legs are live afterwards, what the address table then
holds, and which forwarding records keep their times. The invariants of the relay are proved from
these equivalences and never unfold an operation again.
-/

namespace BuddyNet.Relay

open List AList

variable {P : Params} {t t' : Table} {tok tok' : Bytes} {ses : Session} {l held : Leg} {now : ℤ}

/-! ### Sessions -/

theorem live_of_insert (t : Table) (tok : Bytes) (h : t'.sessions = t.sessions.insert tok ses) :
    t'.Live tok' l ↔ (tok' = tok ∧ l ∈ ses.legs) ∨ (tok' ≠ tok ∧ t.Live tok' l) := by
  unfold Table.Live
  rw [h]
  by_cases htok : tok' = tok
  · subst htok
    simp [lookup_insert]
  · simp [lookup_insert_ne htok, htok]

theorem live_iff_of_lookup (h : t.sessions.lookup tok = some ses) :
    t.Live tok l ↔ l ∈ ses.legs := by
  simp [Table.Live, h]

/-! ### Claiming and moving a leg -/

/-- The leg a claim creates. -/
def newLeg (t : Table) (src : UDPAddr) (acct name epk : Bytes) : Leg :=
  ⟨src, t.nextFwd, acct, name, epk⟩

/-- A leg after a move. -/
def Leg.movedTo (l : Leg) (src : UDPAddr) (acct : Bytes) : Leg :=
  { l with addr := src, acctKey := acct }

@[simp] theorem Leg.movedTo_fwd (l : Leg) (src : UDPAddr) (acct : Bytes) :
    (l.movedTo src acct).fwd = l.fwd := rfl

variable {src : UDPAddr} {acct name epk : Bytes}

/-- A claimed session is the stored one, or a new one without legs. -/
theorem claimed_session (h : t.sessions.lookup tok = some ses ∨
    t.sessions.lookup tok = none ∧ t.sessions.keys.length < P.maxSessions ∧
      ses = ⟨tok, [], false, now⟩) :
    t.sessions.lookup tok = some ses ∨ t.sessions.lookup tok = none ∧ ses.legs = [] := by
  rcases h with h | ⟨hnone, -, rfl⟩
  · exact Or.inl h
  · exact Or.inr ⟨hnone, rfl⟩

theorem live_claimLeg
    (hses : t.sessions.lookup tok = some ses ∨ t.sessions.lookup tok = none ∧ ses.legs = []) :
    (claimLeg t now tok ses src acct name epk).Live tok' l ↔
      t.Live tok' l ∨ (tok' = tok ∧ l = newLeg t src acct name epk) := by
  rw [live_of_insert t tok rfl]
  have hlegs : t.Live tok l ↔ l ∈ ses.legs := by
    rcases hses with hses | ⟨hnone, hnil⟩
    · exact live_iff_of_lookup hses
    · simp [Table.Live, hnone, hnil]
  by_cases htok : tok' = tok
  · subst htok
    simp [hlegs, newLeg]
  · simp [htok]

variable {legs : List Leg}

theorem mem_migrated_legs {moved : Leg} (hheld : held ∈ legs) :
    (l ∈ legs.map fun x => if x.fwd = held.fwd then moved else x) ↔
      l = moved ∨ (l ∈ legs ∧ l.fwd ≠ held.fwd) := by
  rw [mem_map]
  constructor
  · rintro ⟨x, hx, hxl⟩
    split_ifs at hxl with hf
    · exact Or.inl hxl.symm
    · exact Or.inr ⟨hxl ▸ hx, hxl ▸ hf⟩
  · rintro (hl | ⟨hmem, hf⟩)
    · exact ⟨held, hheld, by rw [if_pos rfl, hl]⟩
    · exact ⟨l, hmem, if_neg hf⟩

theorem live_migrateLeg (hses : t.sessions.lookup tok = some ses) (hheld : held ∈ ses.legs) :
    (migrateLeg t now tok ses held src acct).Live tok' l ↔
      (tok' = tok ∧ l = held.movedTo src acct) ∨
        (t.Live tok' l ∧ ¬ (tok' = tok ∧ l.fwd = held.fwd)) := by
  rw [live_of_insert t tok rfl]
  by_cases htok : tok' = tok
  · subst htok
    simp only [true_and, ne_eq, not_true_eq_false, false_and, or_false]
    rw [mem_migrated_legs hheld, live_iff_of_lookup hses]
    rfl
  · simp [htok]

/-! ### One session of a reaper pass -/

/-- A pass of the reaper at time `now` drops this leg. -/
def Reaped (P : Params) (t : Table) (now : ℤ) (tok : Bytes) (l : Leg) : Prop :=
  ∃ ses, t.sessions.lookup tok = some ses ∧ l ∈ reaped P t now ses

theorem mem_kept_iff : l ∈ kept P t now ses ↔ l ∈ ses.legs ∧ l ∉ reaped P t now ses := by
  unfold kept reaped
  split_ifs
  · simp
  · simp only [mem_filter, Bool.not_eq_eq_eq_not, Bool.not_true]
    constructor
    · rintro ⟨hl, hi⟩
      exact ⟨hl, by simp [hi]⟩
    · rintro ⟨hl, hi⟩
      exact ⟨hl, by simpa [hl] using hi⟩

theorem mem_legs_of_mem_reaped (h : l ∈ reaped P t now ses) : l ∈ ses.legs := by
  unfold reaped at h
  split_ifs at h
  · exact h
  · exact mem_of_mem_filter h

theorem foldl_dropLeg_frame (ls : List Leg) (t : Table) :
    (ls.foldl dropLeg t).sessions = t.sessions ∧ (ls.foldl dropLeg t).fwd = t.fwd ∧
      (ls.foldl dropLeg t).nextFwd = t.nextFwd := by
  induction ls generalizing t with
  | nil => exact ⟨rfl, rfl, rfl⟩
  | cons l ls ih => exact ih (dropLeg t l)

theorem foldl_dropLeg_byAddr (ls : List Leg) (t : Table) (k : Bytes) :
    (ls.foldl dropLeg t).byAddr.lookup k =
      if ∃ l ∈ ls, l.addr.string = k then none else t.byAddr.lookup k := by
  induction ls generalizing t with
  | nil => simp
  | cons l ls ih =>
    rw [foldl_cons, ih]
    by_cases hls : ∃ l ∈ ls, l.addr.string = k
    · rw [if_pos hls, if_pos]
      obtain ⟨x, hx, hk⟩ := hls
      exact ⟨x, mem_cons_of_mem l hx, hk⟩
    · rw [if_neg hls]
      by_cases hl : l.addr.string = k
      · rw [if_pos ⟨l, mem_cons_self, hl⟩, ← hl]
        exact lookup_erase l.addr.string t.byAddr
      · rw [if_neg (by simpa [hl] using hls)]
        exact lookup_erase_ne (Ne.symm hl)

theorem reapSession_of_none (h : t.sessions.lookup tok = none) : reapSession P now t tok = t := by
  simp [reapSession, h]

theorem reapSession_lookup (h : t.sessions.lookup tok = some ses) :
    (reapSession P now t tok).sessions.lookup tok' =
      if tok' = tok then
        if kept P t now ses = [] then none else some { ses with legs := kept P t now ses }
      else t.sessions.lookup tok' := by
  obtain ⟨hs, -, -⟩ := foldl_dropLeg_frame (reaped P t now ses) t
  simp only [reapSession, h, hs]
  by_cases htok : tok' = tok
  · subst htok
    rw [if_pos rfl]
    split_ifs
    · exact lookup_erase tok' t.sessions
    · exact lookup_insert t.sessions
  · rw [if_neg htok]
    split_ifs
    · exact lookup_erase_ne htok
    · exact lookup_insert_ne htok

theorem reapSession_byAddr (h : t.sessions.lookup tok = some ses) (k : Bytes) :
    (reapSession P now t tok).byAddr.lookup k =
      if ∃ l ∈ reaped P t now ses, l.addr.string = k then none else t.byAddr.lookup k := by
  rw [← foldl_dropLeg_byAddr]
  simp only [reapSession, h]

theorem reapSession_nextFwd : (reapSession P now t tok).nextFwd = t.nextFwd := by
  cases h : t.sessions.lookup tok with
  | none => rw [reapSession_of_none h]
  | some ses =>
    simp only [reapSession, h]
    exact (foldl_dropLeg_frame (reaped P t now ses) t).2.2

theorem reapSession_fwd (h : t.sessions.lookup tok = some ses) :
    (reapSession P now t tok).fwd = clearLone t.fwd (kept P t now ses) := by
  simp only [reapSession, h, (foldl_dropLeg_frame (reaped P t now ses) t).2.1]

theorem clearLone_of_not_mem {fwd : ℕ → Fwd} {f : ℕ}
    (h : ∀ l ∈ legs, l.fwd ≠ f) : clearLone fwd legs f = fwd f := by
  rcases legs with _ | ⟨l, _ | ⟨l', ls⟩⟩
  · rfl
  · exact Function.update_of_ne (h l (by simp)).symm _ _
  · rfl

theorem clearLone_seen (fwd : ℕ → Fwd) (legs : List Leg) (f : ℕ) :
    (clearLone fwd legs f).seen = (fwd f).seen := by
  rcases legs with _ | ⟨l, _ | ⟨l', ls⟩⟩
  · rfl
  · by_cases hf : f = l.fwd
    · subst hf; simp [clearLone]
    · simp [clearLone, Function.update_of_ne hf]
  · rfl

theorem reapSession_seen (f : ℕ) : ((reapSession P now t tok).fwd f).seen = (t.fwd f).seen := by
  cases h : t.sessions.lookup tok with
  | none => rw [reapSession_of_none h]
  | some ses =>
    rw [reapSession_fwd h, clearLone_seen]

theorem live_reapSession :
    (reapSession P now t tok).Live tok' l ↔
      t.Live tok' l ∧ ¬ (tok' = tok ∧ Reaped P t now tok l) := by
  cases h : t.sessions.lookup tok with
  | none => simp [reapSession_of_none h, Reaped, h]
  | some ses =>
    by_cases htok : tok' = tok
    · subst htok
      have hkept : (reapSession P now t tok').Live tok' l ↔ l ∈ kept P t now ses := by
        unfold Table.Live
        rw [reapSession_lookup h, if_pos rfl]
        by_cases hk : kept P t now ses = []
        · simp [hk]
        · simp [hk]
      rw [hkept, mem_kept_iff, live_iff_of_lookup h]
      simp [Reaped, h]
    · unfold Table.Live
      rw [reapSession_lookup h, if_neg htok]
      simp [htok]

/-! ### A whole pass -/

theorem reaped_congr (hseen : ∀ f, (t'.fwd f).seen = (t.fwd f).seen) :
    reaped P t' now ses = reaped P t now ses := by
  have hidle : idle P t' now = idle P t now := by
    funext l
    simp [idle, hseen]
  rw [reaped, reaped, hidle]

/-- A session's turn does not change who is dropped in the turns of the others. -/
theorem reaped_reapSession_of_ne (h : tok' ≠ tok) :
    Reaped P (reapSession P now t tok) now tok' l ↔ Reaped P t now tok' l := by
  unfold Reaped
  simp only [reaped_congr reapSession_seen]
  cases hl : t.sessions.lookup tok with
  | none => rw [reapSession_of_none hl]
  | some ses => rw [reapSession_lookup hl, if_neg h]

theorem not_reaped_reapSession_self : ¬ Reaped P (reapSession P now t tok) now tok l := by
  rintro ⟨ses', hlook, hl⟩
  rw [reaped_congr reapSession_seen] at hl
  cases h : t.sessions.lookup tok with
  | none =>
    rw [reapSession_of_none h, h] at hlook
    cases hlook
  | some ses =>
    rw [reapSession_lookup h, if_pos rfl] at hlook
    split_ifs at hlook with hk
    cases hlook
    unfold reaped kept at hl
    unfold kept at hk
    by_cases he : expired P now ses = true
    · simp [he] at hk
    · have he' : ∀ ls, expired P now { ses with legs := ls } = expired P now ses := fun _ => rfl
      simp only [he', he] at hl
      simp at hl

theorem live_foldl_reapSession (toks : List Bytes) (t : Table) :
    (toks.foldl (reapSession P now) t).Live tok l ↔
      t.Live tok l ∧ ¬ (tok ∈ toks ∧ Reaped P t now tok l) := by
  induction toks generalizing t with
  | nil => simp
  | cons a toks ih =>
    rw [foldl_cons, ih, live_reapSession]
    by_cases hta : tok = a
    · subst hta
      simp [not_reaped_reapSession_self]
    · rw [reaped_reapSession_of_ne hta]
      simp [hta]

/-- The part of a pass that is still to come does not see what its other turns did. -/
theorem kept_reapSession : kept P (reapSession P now t tok) now ses = kept P t now ses := by
  have hidle : idle P (reapSession P now t tok) now = idle P t now := by
    funext l
    simp [idle, reapSession_seen]
  rw [kept, kept, hidle]

theorem lookup_foldl_reapSession (toks : List Bytes) (hnd : toks.Nodup) (t : Table) :
    (toks.foldl (reapSession P now) t).sessions.lookup tok =
      if tok ∈ toks then
        (t.sessions.lookup tok).bind fun ses =>
          if kept P t now ses = [] then none else some { ses with legs := kept P t now ses }
      else t.sessions.lookup tok := by
  induction toks generalizing t with
  | nil => rfl
  | cons a toks ih =>
    obtain ⟨ha, hnd⟩ := nodup_cons.1 hnd
    rw [foldl_cons, ih hnd]
    simp only [kept_reapSession]
    by_cases hta : tok = a
    · subst hta
      rw [if_neg ha, if_pos mem_cons_self]
      cases h : t.sessions.lookup tok with
      | none => rw [reapSession_of_none h, h]; rfl
      | some ses => rw [reapSession_lookup h, if_pos rfl]; rfl
    · have hlook : (reapSession P now t a).sessions.lookup tok = t.sessions.lookup tok := by
        cases h : t.sessions.lookup a with
        | none => rw [reapSession_of_none h]
        | some ses => rw [reapSession_lookup h, if_neg hta]
      simp [hta, hlook]

variable {order : List Bytes}

theorem lookup_reap :
    (reap P t now order).sessions.lookup tok =
      (t.sessions.lookup tok).bind fun ses =>
        if kept P t now ses = [] then none else some { ses with legs := kept P t now ses } := by
  unfold reap
  rw [lookup_foldl_reapSession _ (Go.nodup_visitOrder t.sessions.keys_nodup)]
  split_ifs with h
  · rfl
  · cases hs : t.sessions.lookup tok with
    | none => rfl
    | some ses => exact absurd (Go.mem_visitOrder.2 (Go.mem_keys_of_lookup hs)) h

/-- **A pass of the reaper removes exactly the legs it finds quiet or half-open too long.** -/
theorem live_reap : (reap P t now order).Live tok l ↔ t.Live tok l ∧ ¬ Reaped P t now tok l := by
  unfold reap
  rw [live_foldl_reapSession, Go.mem_visitOrder]
  constructor
  · rintro ⟨hl, hr⟩
    refine ⟨hl, fun h => hr ⟨?_, h⟩⟩
    obtain ⟨ses, hlook, -⟩ := h
    exact Go.mem_keys_of_lookup hlook
  · rintro ⟨hl, hr⟩
    exact ⟨hl, fun h => hr h.2⟩

end BuddyNet.Relay
