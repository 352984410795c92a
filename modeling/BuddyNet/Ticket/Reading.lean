import BuddyNet.TicketText

/-!
# When a ticket holds, and what it says

* `window_exact`: `CheckWindow` computes in wrapping 64-bit arithmetic, and accepts exactly what the
  unbounded integers would accept: a span that is small only because it wrapped comes with an issue
  time far in the future;
* `one_reading_iff`: the duplicate scan of `Parse` compares member names byte by byte, the decoder
  matches them without regard to case. A ticket can be read in one way only exactly when no two of
  its member names are the same up to case.
-/

namespace BuddyNet.Ticket

open List Go

/-! ### The window -/

/-- The clock in whole seconds, `now.Unix()`. -/
def unix (now : ℤ) : ℤ := now / 1000000000

/-- A value of type `int64`. -/
def Int64 (n : ℤ) : Prop := -2 ^ 63 ≤ n ∧ n < 2 ^ 63

/-- The window of a ticket over the unbounded integers. -/
structure Payload.InWindow (p : Payload) (sec : ℤ) : Prop where
  positive : 0 < p.exp - p.iat
  bounded : p.exp - p.iat ≤ 120
  issued : p.iat ≤ sec + 10
  lasting : sec - 10 ≤ p.exp

variable {p : Payload} {now : ℤ}

/-- The wrapped span is in bounds when the true one is, or when the issue time is far too high. -/
theorem span_ok_iff (hiat : Int64 p.iat) (hexp : Int64 p.exp) :
    ¬ (wrap64 (p.exp - p.iat) ≤ 0 ∨ maxTTL < wrap64 (p.exp - p.iat)) ↔
      (0 < p.exp - p.iat ∧ p.exp - p.iat ≤ 120) ∨ p.exp - p.iat + 2 ^ 64 ≤ 120 := by
  obtain ⟨hilo, hihi⟩ := hiat
  obtain ⟨helo, hehi⟩ := hexp
  unfold maxTTL
  rcases wrap64_cases (n := p.exp - p.iat) (by omega) (by omega) with
    ⟨hlo, hhi, h⟩ | ⟨hlo, h⟩ | ⟨hlo, h⟩ <;> rw [h] <;> omega

/-- **The window check is exact** at a clock that leaves room for the skew. -/
theorem checkWindow_iff (hiat : Int64 p.iat) (hexp : Int64 p.exp) (hnow : |unix now| < 2 ^ 62) :
    p.checkWindow now = .ok () ↔ p.InWindow (unix now) := by
  obtain ⟨hlo, hhi⟩ := abs_lt.1 hnow
  have hadd : wrap64 (unix now + skew) = unix now + 10 :=
    wrap64_eq (by unfold skew; omega) (by unfold skew; omega)
  have hsub : wrap64 (unix now - skew) = unix now - 10 :=
    wrap64_eq (by unfold skew; omega) (by unfold skew; omega)
  have hspan := span_ok_iff hiat hexp
  unfold Payload.checkWindow
  rw [← unix]
  dsimp only
  rw [hadd, hsub]
  by_cases hbad : wrap64 (p.exp - p.iat) ≤ 0 ∨ maxTTL < wrap64 (p.exp - p.iat)
  · rw [if_pos hbad]
    refine iff_of_false (nofun) fun h => hspan.2 (Or.inl ⟨h.1, h.2⟩) hbad
  · rw [if_neg hbad]
    rcases hspan.1 hbad with ⟨hpos, hle⟩ | hwrapped
    · split_ifs with hout
      · refine iff_of_false (nofun) fun h => ?_
        have := h.issued
        have := h.lasting
        omega
      · exact iff_of_true rfl ⟨hpos, hle, by omega, by omega⟩
    · -- the span wrapped: the ticket was issued near the end of the range
      have hfar : unix now + 10 < p.iat := by
        have := hexp.1
        omega
      rw [if_pos (Or.inl hfar)]
      refine iff_of_false (nofun) fun h => ?_
      have := h.issued
      omega

/-- **The lifetime of a ticket has no overflow surprises**: for all 64-bit issue and expiry times
and every clock below `2 ^ 62` seconds, `CheckWindow` accepts exactly within the window over the
unbounded integers, so the clocks at which a ticket is accepted are at most 140 seconds apart. -/
theorem window_exact (p : Payload) (hiat : Int64 p.iat) (hexp : Int64 p.exp) :
    (∀ now, |unix now| < 2 ^ 62 → (p.checkWindow now = .ok () ↔
      0 < p.exp - p.iat ∧ p.exp - p.iat ≤ 120 ∧ p.iat ≤ unix now + 10 ∧ unix now - 10 ≤ p.exp)) ∧
    ∀ now now', |unix now| < 2 ^ 62 → |unix now'| < 2 ^ 62 → p.checkWindow now = .ok () →
      p.checkWindow now' = .ok () → |unix now - unix now'| ≤ 140 := by
  refine ⟨fun now hnow => ?_, fun now now' hnow hnow' h h' => ?_⟩
  · rw [checkWindow_iff hiat hexp hnow]
    exact ⟨fun h => ⟨h.1, h.2, h.3, h.4⟩, fun h => ⟨h.1, h.2.1, h.2.2.1, h.2.2.2⟩⟩
  · have hin := (checkWindow_iff hiat hexp hnow).1 h
    have hin' := (checkWindow_iff hiat hexp hnow').1 h'
    have := hin.bounded
    have := hin.issued
    have := hin.lasting
    have := hin'.issued
    have := hin'.lasting
    rw [abs_le]
    omega

/-- A ticket of the full lifetime is accepted from ten seconds before to ten seconds after it; one
with a span that wraps to a small number is refused. -/
theorem window_exact_bounds :
    ((⟨1, [], [], [], [], 1000, 1120, []⟩ : Payload).checkWindow (990 * 1000000000) = .ok () ∧
      (⟨1, [], [], [], [], 1000, 1120, []⟩ : Payload).checkWindow (1130 * 1000000000) = .ok ()) ∧
    (⟨1, [], [], [], [], 2 ^ 63 - 1, -2 ^ 63, []⟩ : Payload).checkWindow 0 ≠ .ok () := by
  refine ⟨⟨?_, ?_⟩, fun h => ?_⟩
  · exact ((window_exact _ (by unfold Int64; decide) (by unfold Int64; decide)).1 _ (by decide)).2
      (by decide)
  · exact ((window_exact _ (by unfold Int64; decide) (by unfold Int64; decide)).1 _ (by decide)).2
      (by decide)
  · have hin := ((window_exact _ (by unfold Int64; decide) (by unfold Int64; decide)).1 0
      (by decide)).1 h
    exact absurd hin (by decide)

/-! ### Members and fields -/

/-- The field in which a member is stored. -/
def field (m : Bytes × Json) : Option Bytes := Json.resolve fieldNames m.1

/-- What a reader sees who takes the first of several members of one field. -/
def firstMembers : List (Bytes × Json) → List (Bytes × Json)
  | [] => []
  | m :: ms => m :: (firstMembers ms).filter fun m' => field m' ≠ field m

/-- What a reader sees who takes the last of several members of one field. -/
def lastMembers (ms : List (Bytes × Json)) : List (Bytes × Json) :=
  (firstMembers ms.reverse).reverse

/-- A ticket can be read in one way only. -/
structure OneReading (ms : List (Bytes × Json)) : Prop where
  distinct : (ms.map field).Nodup
  agree : decodePayload (firstMembers ms) = decodePayload (lastMembers ms)

variable {ms : List (Bytes × Json)}

section

variable (h : (ms.map field).Nodup)
include h

theorem firstMembers_eq : firstMembers ms = ms := by
  induction ms with
  | nil => rfl
  | cons m ms ih =>
    rw [map_cons, nodup_cons] at h
    rw [firstMembers, ih h.2, filter_eq_self.2]
    intro m' hm'
    exact decide_eq_true fun heq => h.1 (heq ▸ mem_map_of_mem hm')

theorem lastMembers_eq : lastMembers ms = ms := by
  rw [lastMembers, firstMembers_eq, reverse_reverse]
  rw [map_reverse]
  exact nodup_reverse.2 h

theorem OneReading.of_distinct : OneReading ms :=
  ⟨h, by rw [firstMembers_eq h, lastMembers_eq h]⟩

end

/-! ### Names up to case -/

/-- No two fields of a ticket have the same name up to case. -/
theorem foldName_injOn {f g : Bytes} (hf : f ∈ fieldNames) (hg : g ∈ fieldNames)
    (h : Json.foldName f = Json.foldName g) : f = g := by
  have hall : ∀ f ∈ fieldNames, ∀ g ∈ fieldNames,
      Json.foldName f = Json.foldName g → f = g := by decide
  exact hall f hf g hg h

/-- A member is stored in the field that has its name up to case. -/
theorem field_spec {m : Bytes × Json} {f : Bytes} (h : field m = some f) :
    f ∈ fieldNames ∧ Json.foldName f = Json.foldName m.1 := by
  unfold field Json.resolve at h
  split_ifs at h with hexact
  · cases h
    exact ⟨hexact, rfl⟩
  · have hfold := find?_some h
    exact ⟨mem_of_find?_eq_some h, of_decide_eq_true hfold⟩

/-- Two members go into the same field exactly when their names are the same up to case. -/
theorem field_eq_iff {m m' : Bytes × Json} (h : (field m).isSome) (h' : (field m').isSome) :
    field m = field m' ↔ Json.foldName m.1 = Json.foldName m'.1 := by
  obtain ⟨f, hf⟩ := Option.isSome_iff_exists.1 h
  obtain ⟨f', hf'⟩ := Option.isSome_iff_exists.1 h'
  obtain ⟨hmem, hfold⟩ := field_spec hf
  obtain ⟨hmem', hfold'⟩ := field_spec hf'
  rw [hf, hf', ← hfold, ← hfold', Option.some.injEq]
  exact ⟨congrArg _, foldName_injOn hmem hmem'⟩

theorem nodup_field_iff (h : Json.allKnown fieldNames ms = true) :
    (ms.map field).Nodup ↔ (ms.map fun m => Json.foldName m.1).Nodup := by
  have hknown : ∀ m ∈ ms, (field m).isSome := all_eq_true.1 h
  rw [Nodup, Nodup, pairwise_map, pairwise_map]
  constructor <;> refine Pairwise.imp_of_mem fun ha hb hne heq => hne ?_
  · exact (field_eq_iff (hknown _ ha) (hknown _ hb)).2 heq
  · exact (field_eq_iff (hknown _ ha) (hknown _ hb)).1 heq

/-! ### What is parsed -/

/-- An accepted payload is an object whose members are all known. -/
theorem parse_ok {payload : Bytes} {p : Payload} (h : parse payload = .ok p) :
    ∃ ms, Json.parse payload = some (.obj ms) ∧ Json.allKnown fieldNames ms = true ∧
      decodePayload ms = some p := by
  unfold parse at h
  split_ifs at h
  split at h
  · next ms hms =>
    split_ifs at h
    split at h
    · cases h
    · next q hq =>
      have hp : q = p := by
        unfold checkPayload at h
        split_ifs at h
        cases h
        rfl
      refine ⟨ms, hms, ?_, hp ▸ hq⟩
      by_contra hunknown
      rw [decodePayload, if_neg hunknown] at hq
      cases hq
  · cases h

/-- **A ticket that is accepted can be read in one way only exactly when no two of its member names
are the same up to case.** The duplicate scan of `Parse` asks this of the names byte by byte
only. -/
theorem one_reading_iff {payload : Bytes} {p : Payload} (h : parse payload = .ok p) :
    ∃ ms, Json.parse payload = some (.obj ms) ∧
      (OneReading ms ↔ (ms.map fun m => Json.foldName m.1).Nodup) := by
  obtain ⟨ms, hms, hknown, -⟩ := parse_ok h
  refine ⟨ms, hms, fun hone => ?_, fun hnames => ?_⟩
  · exact (nodup_field_iff hknown).1 hone.distinct
  · exact OneReading.of_distinct ((nodup_field_iff hknown).2 hnames)

/-- A ticket for the first leg. -/
def sample : Payload :=
  ⟨1, newID (replicate 16 0), newID (replicate 16 0), legA,
    rawURLEncoding.encode (replicate 32 0), 0, 60, newID (replicate 16 0)⟩

/-- Its text with a member `"Leg":"b"` after the others. -/
def twofold : Bytes := (marshal sample).dropLast ++ lit ",\"Leg\":\"b\"\x7d"

/-- The legs that the two readers see. -/
def legs (ms : List (Bytes × Json)) : Option Bytes × Option Bytes :=
  ((decodePayload (firstMembers ms)).map (·.leg), (decodePayload (lastMembers ms)).map (·.leg))

/-- A ticket with the members `leg` and `Leg` is accepted. A reader that takes the first of them
reads another leg than one that takes the last. -/
theorem one_reading_fails :
    parse twofold = .ok { sample with leg := legB } ∧
    ∃ ms, Json.parse twofold = some (.obj ms) ∧ ¬ OneReading ms ∧
      legs ms = (some legA, some legB) := by
  have hlegs : (Json.parse twofold).bind (fun v => (Json.structMembers v).map legs) =
      some (some legA, some legB) := by decide +kernel
  have hparse : parse twofold = .ok { sample with leg := legB } := by decide +kernel
  obtain ⟨ms, hms, -, -⟩ := parse_ok hparse
  rw [hms] at hlegs
  have hms' : legs ms = (some legA, some legB) := Option.some.inj hlegs
  refine ⟨hparse, ms, hms, fun hone => ?_, hms'⟩
  rw [legs, hone.agree, Prod.mk.injEq] at hms'
  exact absurd (hms'.1.symm.trans hms'.2) (by decide)

theorem sample_wellFormed : sample.WellFormed where
  ver := rfl
  rid := validID_newID (by decide)
  sid := validID_newID (by decide)
  leg := Or.inl rfl
  epk := ⟨_, decode_encode_url _, by decide⟩
  iat := by decide
  exp := by decide
  nonce := validID_newID (by decide)

/-- What `Sign` writes has one reading. -/
theorem one_reading_sample :
    ∃ ms, Json.parse (marshal sample) = some (.obj ms) ∧ OneReading ms := by
  have hparse := sample_wellFormed.parse_marshal (by decide +kernel)
  have hread := sample_wellFormed.reads.parse (by decide)
  obtain ⟨ms, hms, hiff⟩ := one_reading_iff hparse
  cases hread.symm.trans hms
  exact ⟨_, hms, hiff.2 (by decide +kernel)⟩

end BuddyNet.Ticket
