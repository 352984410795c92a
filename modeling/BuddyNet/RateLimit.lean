import BuddyNet.Go.Map
import BuddyNet.Go.Text
import BuddyNet.Library.Machine
import BuddyNet.Library.Pacing

/-!
# The token-bucket limiter

`internal/ratelimit` with rational tokens and rates, as exact arithmetic has them: the rates and
bursts of a `Limits` are any non-negative numbers. Time is in nanoseconds. A bucket's clock may be
ahead of the call's own: a run is any sequence of `Allow` and `AllowGlobal` calls, each with the
time that its caller read before it took the lock.
-/

namespace BuddyNet

open Pacing

/-- A duration in seconds. -/
def seconds (d : ℤ) : ℚ := d / 1000000000

theorem seconds_sub (a b : ℤ) : seconds (a - b) = seconds a - seconds b := by
  unfold seconds
  push_cast
  ring

theorem seconds_mono {a b : ℤ} (h : a ≤ b) : seconds a ≤ seconds b := by
  unfold seconds
  have : (a : ℚ) ≤ b := by exact_mod_cast h
  linarith

/-! ### Buckets -/

/-- A token bucket. -/
structure Bucket where
  tokens : ℚ
  last : ℤ
  deriving DecidableEq

namespace Bucket

/-- The tokens after the refill, capped at the burst. -/
def refill (b : Bucket) (now : ℤ) (rate burst : ℚ) : ℚ :=
  let tokens := b.tokens + seconds (now - b.last) * rate
  if burst < tokens then burst else tokens

def take (b : Bucket) (now : ℤ) (rate burst : ℚ) : Bucket × Bool :=
  let tokens := b.refill now rate burst
  if 1 ≤ tokens then (⟨tokens - 1, now⟩, true) else (⟨tokens, now⟩, false)

def full (b : Bucket) (now : ℤ) (rate burst : ℚ) : Bool :=
  burst ≤ b.tokens + seconds (now - b.last) * rate

/-- The potential of a bucket: what it holds, less what its rate has brought since time zero. -/
def level (b : Bucket) (rate : ℚ) : ℚ := b.tokens - rate * seconds b.last

variable {b : Bucket} {now τ : ℤ} {rate burst : ℚ}

theorem refill_le_burst (b : Bucket) (now : ℤ) (rate burst : ℚ) :
    b.refill now rate burst ≤ burst := by
  unfold refill
  dsimp only
  split_ifs with h
  · exact le_rfl
  · exact not_lt.1 h

theorem refill_le_level (b : Bucket) (now : ℤ) (rate burst : ℚ) :
    b.refill now rate burst ≤ b.level rate + rate * seconds now := by
  have hsum : b.level rate + rate * seconds now = b.tokens + seconds (now - b.last) * rate := by
    rw [level, seconds_sub]
    ring
  rw [hsum]
  unfold refill
  dsimp only
  split_ifs with h
  · exact h.le
  · exact le_rfl

theorem refill_of_full (h : b.full now rate burst = true) : b.refill now rate burst = burst := by
  unfold refill
  dsimp only
  split_ifs with hlt
  · rfl
  · exact le_antisymm (not_lt.1 hlt) (of_decide_eq_true h)

theorem full_new (burst : ℚ) (now : ℤ) (rate : ℚ) : full ⟨burst, now⟩ now rate burst = true := by
  simp [full, seconds]

theorem take_cases (b : Bucket) (now : ℤ) (rate burst : ℚ) :
    (1 ≤ b.refill now rate burst ∧
      b.take now rate burst = (⟨b.refill now rate burst - 1, now⟩, true)) ∨
    (b.refill now rate burst < 1 ∧ b.take now rate burst =
    (⟨b.refill now rate burst, now⟩, false)) := by
  unfold take
  dsimp only
  split_ifs with h
  · exact Or.inl ⟨h, rfl⟩
  · exact Or.inr ⟨not_le.1 h, rfl⟩

/-- **Forgetting a full bucket is not observable**: a call on it is a call on a new one. -/
theorem take_of_full (h : b.full now rate burst = true) :
    b.take now rate burst = take ⟨burst, now⟩ now rate burst := by
  unfold take
  rw [refill_of_full h, refill_of_full (full_new burst now rate)]

/-- A full bucket stays full while nobody uses it. -/
theorem full_mono (hrate : 0 ≤ rate) (h : b.full τ rate burst = true) (hτ : τ ≤ now) :
    b.full now rate burst = true := by
  have hmul : seconds (τ - b.last) * rate ≤ seconds (now - b.last) * rate :=
    mul_le_mul_of_nonneg_right (seconds_mono (by omega)) hrate
  have hfull : burst ≤ b.tokens + seconds (τ - b.last) * rate := of_decide_eq_true h
  exact decide_eq_true (hfull.trans (by linarith))

theorem full_level (h : b.full now rate burst = true) :
    burst - rate * seconds now ≤ b.level rate := by
  have hfull : burst ≤ b.tokens + seconds (now - b.last) * rate := of_decide_eq_true h
  rw [seconds_sub] at hfull
  unfold level
  linarith

end Bucket

/-- The pace of a bucket that sells single tokens. -/
def pace (rate burst : ℚ) (hrate : 0 ≤ rate) (hburst : 0 ≤ burst) : Pace ℚ :=
  ⟨burst, rate, 1, hburst, hrate⟩

/-- A call of `take` is paced, and never ends above a full bucket. -/
theorem Bucket.take_call (b : Bucket) (now : ℤ) {rate burst : ℚ} (hrate : 0 ≤ rate)
    (hburst : 0 ≤ burst) :
    (pace rate burst hrate hburst).Call (seconds now) (b.level rate)
      ((b.take now rate burst).1.level rate) (b.take now rate burst).2 ∧
    (b.take now rate burst).1.level rate ≤ burst - rate * seconds now := by
  have hcap := b.refill_le_burst now rate burst
  have hfall := b.refill_le_level now rate burst
  rcases b.take_cases now rate burst with ⟨hone, htake⟩ | ⟨-, htake⟩ <;> rw [htake]
  · have hlevel : Bucket.level ⟨b.refill now rate burst - 1, now⟩ rate =
        b.refill now rate burst - 1 - rate * seconds now := rfl
    refine ⟨⟨by linarith, fun _ => ?_, fun _ => ?_, fun _ => ?_⟩, by linarith⟩
    · show _ + (1 : ℚ) ≤ _
      linarith
    · show _ + (1 : ℚ) ≤ burst - rate * seconds now
      linarith
    · show -(rate * seconds now) ≤ _
      linarith
  · have hlevel : Bucket.level ⟨b.refill now rate burst, now⟩ rate =
        b.refill now rate burst - rate * seconds now := rfl
    exact ⟨.refused (by linarith), by linarith⟩

/-! ### The limiter -/

/-- What a limiter is made with. -/
structure Limits where
  globalRate : ℚ
  globalBurst : ℚ
  srcRate : ℚ
  srcBurst : ℚ
  maxSources : ℕ
  globalRate_nonneg : 0 ≤ globalRate
  globalBurst_nonneg : 0 ≤ globalBurst
  srcRate_nonneg : 0 ≤ srcRate
  srcBurst_nonneg : 0 ≤ srcBurst

/-- The pace of the global bucket. -/
def Limits.globalPace (l : Limits) : Pace ℚ :=
  pace l.globalRate l.globalBurst l.globalRate_nonneg l.globalBurst_nonneg

/-- The pace of the bucket of a source. -/
def Limits.srcPace (l : Limits) : Pace ℚ :=
  pace l.srcRate l.srcBurst l.srcRate_nonneg l.srcBurst_nonneg

structure Limiter extends Limits where
  global : Bucket
  perSrc : AList (fun _ : Bytes => Bucket)

namespace Limiter

/-- `New`. -/
def new (globalRate srcRate : ℚ≥0) (maxSources : ℕ) (now : ℤ) : Limiter where
  globalRate := globalRate
  globalBurst := 2 * globalRate
  srcRate := srcRate
  srcBurst := 2 * srcRate
  maxSources := maxSources
  globalRate_nonneg := globalRate.2
  globalBurst_nonneg := mul_nonneg zero_le_two globalRate.2
  srcRate_nonneg := srcRate.2
  srcBurst_nonneg := mul_nonneg zero_le_two srcRate.2
  global := ⟨2 * globalRate, now⟩
  perSrc := ∅

/-- `NewGlobal`. -/
def newGlobal (rate : ℚ≥0) (now : ℤ) : Limiter where
  globalRate := rate
  globalBurst := 2 * rate
  srcRate := 0
  srcBurst := 0
  maxSources := 0
  globalRate_nonneg := rate.2
  globalBurst_nonneg := mul_nonneg zero_le_two rate.2
  srcRate_nonneg := le_rfl
  srcBurst_nonneg := le_rfl
  global := ⟨2 * rate, now⟩
  perSrc := ∅

/-- `AllowGlobal`. -/
def allowGlobal (l : Limiter) (now : ℤ) : Limiter × Bool :=
  let (g, ok) := l.global.take now l.globalRate l.globalBurst
  ({ l with global := g }, ok)

def pruneLocked (l : Limiter) (now : ℤ) : Limiter :=
  { l with perSrc := l.perSrc.entries.foldl (fun m e =>
      if e.2.full now l.srcRate l.srcBurst then m.erase e.1 else m) l.perSrc }

/-- The bucket a source is charged to; `none` when the map stays full of active sources. -/
def sourceBucket (l : Limiter) (src : Bytes) (now : ℤ) : Limiter × Option Bucket :=
  match l.perSrc.lookup src with
  | some b => (l, some b)
  | none =>
    let l := if l.maxSources ≤ l.perSrc.keys.length then l.pruneLocked now else l
    (l, if l.maxSources ≤ l.perSrc.keys.length then none else some ⟨l.srcBurst, now⟩)

/-- A call on the bucket of a source, and the bucket put back. -/
def charge (l : Limiter) (src : Bytes) (now : ℤ) (b : Bucket) : Limiter × Bool :=
  let (b, ok) := b.take now l.srcRate l.srcBurst
  ({ l with perSrc := l.perSrc.insert src b }, ok)

/-- The first half of `Allow`: what the source's own bucket says, if it has one. -/
def chargeSource (l : Limiter) (src : Bytes) (now : ℤ) : Limiter × Option Bool :=
  match l.sourceBucket src now with
  | (l, none) => (l, none)
  | (l, some b) => ((l.charge src now b).1, some (l.charge src now b).2)

/-- `Allow`. -/
def allow (l : Limiter) (src : Bytes) (now : ℤ) : Limiter × Bool :=
  match l.chargeSource src now with
  | (l, some true) => l.allowGlobal now
  | (l, _) => (l, false)

/-- `Allow` with a map that has no bound and is never pruned. -/
def allowUnbounded (l : Limiter) (src : Bytes) (now : ℤ) : Limiter × Bool :=
  match l.charge src now ((l.perSrc.lookup src).getD ⟨l.srcBurst, now⟩) with
  | (l, true) => l.allowGlobal now
  | (l, false) => (l, false)

/-! ### Calls -/

/-- A call with the time its caller read. -/
inductive Call where
  | allow (src : Bytes) (now : ℤ)
  | allowGlobal (now : ℤ)
  deriving DecidableEq

/-- The time of a call. -/
def Call.now : Call → ℤ
  | .allow _ now => now
  | .allowGlobal now => now

/-- A call on the limiter. -/
def serve (l : Limiter) : Call → Limiter × Bool
  | .allow src now => l.allow src now
  | .allowGlobal now => l.allowGlobal now

/-- A call on the limiter with the unbounded map. -/
def serveUnbounded (l : Limiter) : Call → Limiter × Bool
  | .allow src now => l.allowUnbounded src now
  | .allowGlobal now => l.allowGlobal now

/-- The call gets as far as the global bucket. -/
def reaches (l : Limiter) : Call → Bool
  | .allow src now => (l.chargeSource src now).2 == some true
  | .allowGlobal _ => true

/-- The call is dropped because the map is full of active sources. -/
def drops (l : Limiter) : Call → Bool
  | .allow src now => (l.chargeSource src now).2 == none
  | .allowGlobal _ => false

/-- The limiter after a call. -/
def step (l : Limiter) (c : Call) : Limiter := (l.serve c).1

/-- The same with the unbounded map. -/
def stepUnbounded (l : Limiter) (c : Call) : Limiter := (l.serveUnbounded c).1

/-- The limiter after a sequence of calls. -/
def run (l : Limiter) (cs : List Call) : Limiter := Machine.run step l cs

/-- The answers to a sequence of calls. -/
def answers (l : Limiter) (cs : List Call) : List Bool :=
  Machine.trace step (fun l c => some (l.serve c).2) l cs

/-- The answers of the limiter with the unbounded map. -/
def answersUnbounded (l : Limiter) (cs : List Call) : List Bool :=
  Machine.trace stepUnbounded (fun l c => some (l.serveUnbounded c).2) l cs

/-- The calls that the global bucket is charged with: their times and its answers. -/
def charges (l : Limiter) (cs : List Call) : List (ℤ × Bool) :=
  Machine.trace step (fun l c => if l.reaches c then some (c.now, (l.serve c).2) else none) l cs

/-- How many calls the global bucket admits. -/
def admitted (l : Limiter) (cs : List Call) : ℕ := (l.charges cs).countP (·.2)

/-- The time of a call that the bucket of this source admits. -/
def hit (src : Bytes) (l : Limiter) : Call → Option ℤ
  | .allow src' now => if src' = src ∧ l.reaches (.allow src' now) then some now else none
  | .allowGlobal _ => none

/-- How many calls the bucket of a source admits. -/
def admittedFrom (src : Bytes) (l : Limiter) (cs : List Call) : ℕ :=
  (Machine.trace step (hit src) l cs).length

end Limiter

end BuddyNet
