import BuddyNet.Buddy.Paths
import BuddyNet.Library.FirstDistinct
import BuddyNet.Library.Machine

/-!
# The log of untrusted relay offers

`relayOfferLatch` of `internal/role/relaytrust.go`: `noteSkipped` writes a line for a skipped offer
whose value it does not remember, and remembers at most `maxRelayOfferLatch` values.

* `latch_seen`: it remembers the first 64 different values;
* `logged_count`: a value that is remembered has one line, any other has one for each offer;
* `once_per_value_iff`: so the log has one line for each value as long as there are at most 64
  different values.
-/

namespace BuddyNet.Buddy

open FirstDistinct List

def maxRelayOfferLatch : ℕ := 64

/-- A `relayOfferLatch`, and the lines written: the value and the reason of each. -/
structure RelayOfferLatch where
  seen : List Bytes := []
  lines : List (Bytes × Bytes) := []

/-- `noteSkipped`. -/
def RelayOfferLatch.noteSkipped (l : RelayOfferLatch) (o : RelayOffer) : RelayOfferLatch :=
  if o.skipped = [] then l
  else
    let done := o.skipped ∈ l.seen
    { seen := if ¬done ∧ l.seen.length < maxRelayOfferLatch then l.seen ++ [o.skipped] else l.seen
      lines := if done then l.lines else l.lines ++ [(o.skipped, o.reason)] }

/-- The latch after a sequence of offers in one process. -/
def latch (offers : List RelayOffer) : RelayOfferLatch :=
  Machine.run RelayOfferLatch.noteSkipped {} offers

/-- The values that were skipped. -/
def skippedValues (offers : List RelayOffer) : List Bytes :=
  (offers.map (·.skipped)).filter fun v => v ≠ []

/-- The values that lines were written for. -/
def loggedValues (offers : List RelayOffer) : List Bytes := (latch offers).lines.map (·.1)

section Step

variable {l : RelayOfferLatch} {o : RelayOffer}

theorem noteSkipped_nothing (h : o.skipped = []) : l.noteSkipped o = l := if_pos h

theorem noteSkipped_seen (h : o.skipped ≠ []) :
    (l.noteSkipped o).seen = enlist maxRelayOfferLatch l.seen o.skipped := by
  rw [RelayOfferLatch.noteSkipped, if_neg h, enlist]
  by_cases hdone : o.skipped ∈ l.seen
  · simp [hdone]
  · by_cases hroom : l.seen.length < maxRelayOfferLatch
    · simp [hdone, hroom]
    · simp [hdone, hroom, not_lt.1 hroom]

theorem noteSkipped_lines (h : o.skipped ≠ []) :
    (l.noteSkipped o).lines.map (·.1) =
      l.lines.map (·.1) ++ if o.skipped ∈ l.seen then [] else [o.skipped] := by
  rw [RelayOfferLatch.noteSkipped, if_neg h]
  by_cases hdone : o.skipped ∈ l.seen
  · simp [hdone]
  · simp [hdone]

end Step

section

variable (offers : List RelayOffer)

theorem skippedValues_concat (o : RelayOffer) :
    skippedValues (offers ++ [o]) =
      skippedValues offers ++ if o.skipped = [] then [] else [o.skipped] := by
  by_cases h : o.skipped = [] <;> simp [skippedValues, h]

theorem latch_concat (o : RelayOffer) :
    latch (offers ++ [o]) = (latch offers).noteSkipped o := Machine.run_concat offers o

/-- **The latch remembers the first 64 different values.** -/
theorem latch_seen :
    (latch offers).seen = firstDistinct maxRelayOfferLatch (skippedValues offers) := by
  induction offers using reverseRecOn with
  | nil => rfl
  | append_singleton offers o ih =>
    rw [latch_concat, skippedValues_concat]
    by_cases h : o.skipped = []
    · rw [noteSkipped_nothing h, if_pos h, append_nil, ih]
    · rw [noteSkipped_seen h, if_neg h, firstDistinct_concat, ih]

theorem loggedValues_concat {o : RelayOffer} (h : o.skipped ≠ []) :
    loggedValues (offers ++ [o]) = loggedValues offers ++
      if o.skipped ∈ firstDistinct maxRelayOfferLatch (skippedValues offers) then []
      else [o.skipped] := by
  rw [loggedValues, latch_concat, noteSkipped_lines h, latch_seen]
  rfl

/-- **How many lines a value has**: one when it is remembered, one for each offer otherwise. -/
theorem logged_count (v : Bytes) :
    (loggedValues offers).count v =
      if v ∈ firstDistinct maxRelayOfferLatch (skippedValues offers) then 1
      else (skippedValues offers).count v := by
  induction offers using reverseRecOn with
  | nil => rfl
  | append_singleton offers o ih =>
    by_cases hnone : o.skipped = []
    · have hsame : loggedValues (offers ++ [o]) = loggedValues offers := by
        rw [loggedValues, latch_concat, noteSkipped_nothing hnone, loggedValues]
      rw [hsame, ih, skippedValues_concat, if_pos hnone, append_nil]
    · rw [loggedValues_concat offers hnone, skippedValues_concat, if_neg hnone, reports_concat,
        count_append, ih]

end

/-- One line for each value: no value has two lines, there are at most as many lines as different
values, and offering a value again adds no line. -/
structure OncePerValue (offers : List RelayOffer) : Prop where
  once : ∀ v, (loggedValues offers).count v ≤ 1
  bounded : (loggedValues offers).length ≤ (skippedValues offers).dedup.length
  repeats : ∀ o : RelayOffer, o.skipped ∈ skippedValues offers →
    loggedValues (offers ++ [o]) = loggedValues offers

variable {offers : List RelayOffer}

theorem mem_skippedValues {v : Bytes} (h : v ∈ skippedValues offers) : v ≠ [] := by
  simpa using (mem_filter.1 h).2

theorem mem_of_logged {v : Bytes} (h : v ∈ loggedValues offers) : v ∈ skippedValues offers := by
  have hpos := count_pos_iff.2 h
  rw [logged_count] at hpos
  split_ifs at hpos with hin
  · exact mem_of_mem_firstDistinct hin
  · exact count_pos_iff.1 hpos

theorem oncePerValue_iff_remembered (offers : List RelayOffer) : OncePerValue offers ↔
    ∀ v ∈ skippedValues offers, v ∈ firstDistinct maxRelayOfferLatch (skippedValues offers) := by
  constructor
  · intro h v hv
    by_contra hmissing
    have hsame := h.repeats ⟨[], v, []⟩ hv
    rw [loggedValues_concat offers (mem_skippedValues hv), if_neg hmissing] at hsame
    exact cons_ne_nil v [] (append_right_eq_self.1 hsame)
  · intro h
    have honce : ∀ v, (loggedValues offers).count v ≤ 1 := by
      intro v
      rw [logged_count]
      split_ifs with hin
      · exact le_rfl
      · exact (count_eq_zero.2 fun hv => hin (h v hv)).le.trans (Nat.zero_le 1)
    refine ⟨honce, ?_, fun o ho => ?_⟩
    · have hsub : loggedValues offers ⊆ (skippedValues offers).dedup :=
        fun v hv => mem_dedup.2 (mem_of_logged hv)
      exact ((nodup_iff_count_le_one.2 honce).subperm hsub).length_le
    · rw [loggedValues_concat offers (mem_skippedValues ho), if_pos (h _ ho), append_nil]

theorem dedup_length_mono {pre : List RelayOffer} (h : pre <+: offers) :
    (skippedValues pre).dedup.length ≤ (skippedValues offers).dedup.length := by
  have hsub : (skippedValues pre).dedup ⊆ (skippedValues offers).dedup := by
    intro v hv
    rw [mem_dedup] at hv ⊢
    exact (((h.map _).filter _).sublist).subset hv
  exact ((nodup_dedup _).subperm hsub).length_le

/-- **Untrusted relay offers are logged once for each value exactly while at most 64 different
values are offered.** At most 64 values are remembered in any case. -/
theorem once_per_value_iff (offers : List RelayOffer) :
    (latch offers).seen.length ≤ maxRelayOfferLatch ∧
    ((∀ pre, pre <+: offers → OncePerValue pre) ↔
      (skippedValues offers).dedup.length ≤ maxRelayOfferLatch) := by
  refine ⟨by rw [latch_seen]; exact length_firstDistinct_le _, fun h => ?_, fun h pre hpre => ?_⟩
  · rw [← forall_mem_firstDistinct_iff, ← oncePerValue_iff_remembered]
    exact h offers (prefix_refl offers)
  · rw [oncePerValue_iff_remembered, forall_mem_firstDistinct_iff]
    exact (dedup_length_mono hpre).trans h

/-- A server that rotates through 65 values: the last of them has a line each time it is offered. -/
theorem once_per_value_fails :
    let offer := fun i : ℕ =>
      trustedRelay Go.lowerASCII [] (lit "vps.example:51820") [UInt8.ofNat i]
    let offers := (range 65).map (fun i => offer (i + 1)) ++ [offer 65, offer 65]
    ¬ OncePerValue offers ∧ (skippedValues offers).dedup.length = 65 ∧
      (loggedValues offers).length = 67 ∧ (loggedValues offers).count [65] = 3 := by
  intro offer offers
  have hcount : (loggedValues offers).count [65] = 3 := by decide +kernel
  refine ⟨fun h => ?_, by decide +kernel, by decide +kernel, hcount⟩
  have := h.once [65]
  omega

end BuddyNet.Buddy
