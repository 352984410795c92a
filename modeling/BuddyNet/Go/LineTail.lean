import BuddyNet.Go.Lines

/-!
# The end of a text of lines

A text is some finished lines and a last line without its newline (`exists_unlines`), which is what
an append adds to. When a word is appended, the fields of the last line become those of the word
behind white space, or the first of them grows or stays (`fields_head_seam`).
-/

namespace BuddyNet.Go

open List

/-! ### The last line -/

/-- The text behind the last newline. -/
def unfinished (s : Bytes) : Bytes := (lines s).getLastD []

theorem exists_unlines (s : Bytes) :
    ∃ ls tail, s = unlines ls ++ tail ∧ (∀ l ∈ ls, nl ∉ l) ∧ nl ∉ tail := by
  induction s using line_induction with
  | last l hl => exact ⟨[], l, rfl, forall_mem_nil _, hl⟩
  | cons l r hl ih =>
    obtain ⟨ls, tail, rfl, hls, htail⟩ := ih
    refine ⟨l :: ls, tail, ?_, ?_, htail⟩
    · rw [unlines_cons, append_assoc, cons_append]
    · exact forall_mem_cons.2 ⟨hl, hls⟩

theorem unfinished_append (s : Bytes) {tail : Bytes} (h : nl ∉ tail) :
    unfinished (s ++ nl :: tail) = tail := by
  rw [unfinished, lines_append, lines_of_not_mem h]
  simp

theorem unfinished_unlines_append (ls : List Bytes) {tail : Bytes} (h : nl ∉ tail) :
    unfinished (unlines ls ++ tail) = tail := by
  cases ls using List.reverseRecOn with
  | nil =>
    rw [unlines_nil, nil_append, unfinished, lines_of_not_mem h]
    rfl
  | append_singleton ls l =>
    have hsplit : unlines (ls ++ [l]) ++ tail = (unlines ls ++ l) ++ nl :: tail := by
      simp [unlines_append, unlines_cons]
    rw [hsplit, unfinished_append _ h]

/-! ### Scanning a text and what follows it -/

variable {ls : List Bytes}

/-- A line that does not fit the buffer ends the scan, whatever follows it. -/
theorem scanLines_unlines_long (h : ∀ l ∈ ls, nl ∉ l)
    (hlong : ∃ l ∈ ls, maxScanTokenSize ≤ l.length) :
    ∃ xs, ∀ t, scanLines (unlines ls ++ t) = (xs, true) := by
  induction ls with
  | nil =>
    obtain ⟨l, hl, -⟩ := hlong
    cases hl
  | cons l ls ih =>
    have hl := h l mem_cons_self
    by_cases hfit : maxScanTokenSize ≤ l.length
    · refine ⟨[], fun t => ?_⟩
      rw [unlines_cons, append_assoc, cons_append, scanLines_append hl, if_pos hfit]
    · have hlong' : ∃ l ∈ ls, maxScanTokenSize ≤ l.length := by
        obtain ⟨l', hl', hlen⟩ := hlong
        rcases mem_cons.1 hl' with rfl | hl'
        · exact absurd hlen hfit
        · exact ⟨l', hl', hlen⟩
      obtain ⟨xs, hxs⟩ := ih (fun l' hl' => h l' (mem_cons_of_mem _ hl')) hlong'
      refine ⟨dropCR l :: xs, fun t => ?_⟩
      rw [unlines_cons, append_assoc, cons_append, scanLines_append hl, if_neg hfit, hxs]

theorem scanLines_last {l : Bytes} (h : nl ∉ l) (hne : l ≠ []) :
    scanLines l = if maxScanTokenSize ≤ l.length then ([], true) else ([dropCR l], false) := by
  rw [← scanLinesAux_of_length_le (Nat.le_succ _), scanLinesAux_succ hne, cutLine_of_not_mem h]

theorem length_dropCR_le (l : Bytes) : (dropCR l).length ≤ l.length := by
  unfold dropCR
  split_ifs
  · rw [length_dropLast]
    omega
  · exact le_rfl

variable {s : Bytes}

theorem length_of_mem_scanLines {l : Bytes} (h : l ∈ (scanLines s).1) :
    l.length < maxScanTokenSize := by
  induction s using line_induction with
  | last r hr =>
    rcases eq_or_ne r [] with rfl | hne
    · cases h
    · rw [scanLines_last hr hne] at h
      split_ifs at h with hlong
      · cases h
      · rw [mem_singleton.1 h]
        exact (length_dropCR_le r).trans_lt (not_le.1 hlong)
  | cons r rest hr ih =>
    rw [scanLines_append hr] at h
    split_ifs at h with hlong
    · cases h
    · rcases mem_cons.1 h with rfl | h
      · exact (length_dropCR_le r).trans_lt (not_le.1 hlong)
      · exact ih h

/-- Lines of a scan, written again, are what a scan reads, up to carriage returns. -/
theorem scanLines_rewrite (h : ls ⊆ (scanLines s).1) :
    scanLines (unlines ls) = (ls.map dropCR, false) :=
  scanLines_unlines_fit fun _ hl =>
    ⟨not_mem_of_mem_scanLines (h hl), length_of_mem_scanLines (h hl)⟩

/-! ### A word behind a text -/

variable {rs : List (Bytes × Bool)}

theorem fieldsAux_blank (h : fieldsAux rs [] = [])
    (rs' : List (Bytes × Bool)) : fieldsAux (rs ++ rs') [] = fieldsAux rs' [] := by
  induction rs with
  | nil => rfl
  | cons r rs ih =>
    obtain ⟨b, sp⟩ := r
    cases sp with
    | true => exact ih h
    | false =>
      rcases eq_or_ne b [] with rfl | hb
      · exact ih h
      · obtain ⟨f, fs, hf⟩ := fieldsAux_head rs (show ([] : Bytes) ++ b ≠ [] by simpa using hb)
        rw [fieldsAux, if_neg (by decide), hf] at h
        cases h

/-- The first field is complete, or it is the last one and goes on. -/
theorem fieldsAux_seam {cur : Bytes} (h : fieldsAux rs cur ≠ []) (rs' : List (Bytes × Bool)) :
    ∃ f fs, fieldsAux rs cur = f :: fs ∧ ((∃ fs', fieldsAux (rs ++ rs') cur = f :: fs') ∨
      (f ≠ [] ∧ fieldsAux (rs ++ rs') cur = fieldsAux rs' f)) := by
  induction rs generalizing cur with
  | nil =>
    by_cases hcur : cur = []
    · rw [hcur] at h
      exact absurd rfl h
    · exact ⟨cur, [], by rw [fieldsAux, if_neg hcur], Or.inr ⟨hcur, rfl⟩⟩
  | cons r rs ih =>
    obtain ⟨b, sp⟩ := r
    cases sp with
    | true =>
      by_cases hcur : cur = []
      · subst hcur
        exact ih h
      · refine ⟨cur, fieldsAux rs [], ?_, Or.inl ⟨fieldsAux (rs ++ rs') [], ?_⟩⟩
        · rw [fieldsAux, if_pos rfl, if_neg hcur]
        · rw [cons_append, fieldsAux, if_pos rfl, if_neg hcur]
    | false => exact ih h

variable {tok : Bytes}

theorem runesOf_append_token (h : IsToken tok) (hne : tok ≠ []) (s t : Bytes) :
    runesOf (s ++ (tok ++ t)) = runesOf s ++ runesOf (tok ++ t) := by
  obtain ⟨c, tok, rfl⟩ := exists_cons_of_ne_nil hne
  have hc := (h c mem_cons_self).1
  have hself := runesOf_append hc [] (tok ++ t)
  rw [nil_append, runesOf_nil, nil_append] at hself
  rw [cons_append, runesOf_append hc, hself]

theorem fields_blank_append (hs : fields s = []) (h : IsToken tok) (hne : tok ≠ [])
    (t : Bytes) : fields (s ++ (tok ++ t)) = fields (tok ++ t) := by
  rw [fields_eq] at hs
  rw [fields_eq, runesOf_append_token h hne, fieldsAux_blank hs, ← fields_eq]

/-- **Behind other text a word is not the first field**: that is complete, or grows by the word. -/
theorem fields_head_seam (hs : fields s ≠ []) (h : IsToken tok) (hne : tok ≠ []) (t : Bytes) :
    ∃ f fs, fields s = f :: fs ∧ ((∃ fs', fields (s ++ (tok ++ t)) = f :: fs') ∨
      (f ≠ [] ∧ ∃ w fs', fields (s ++ (tok ++ t)) = (f ++ tok ++ w) :: fs')) := by
  rw [fields_eq] at hs
  obtain ⟨f, fs, hf, hcases⟩ := fieldsAux_seam hs (runesOf (tok ++ t))
  refine ⟨f, fs, hf, ?_⟩
  rw [fields_eq (s ++ _), runesOf_append_token h hne]
  rcases hcases with hfirst | ⟨hfne, hgrow⟩
  · exact Or.inl hfirst
  · obtain ⟨w, fs', hw⟩ := fieldsAux_head (runesOf t) (show f ++ tok ≠ [] by simp [hfne])
    exact Or.inr ⟨hfne, w, fs', by rw [hgrow, fieldsAux_token h, hw]⟩

end BuddyNet.Go
