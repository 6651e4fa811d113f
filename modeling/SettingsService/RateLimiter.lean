import SettingsService.SettingsModel
import Mathlib.Data.List.AList

/-!
# The rate limiter

A fixed-window limiter: for every key it counts the requests of the current window, which starts
with the first request after the end of the one before.

Main definitions:

* `RateLimiter`, `Buckets` — the limiter, and the count and the start of the window of each key;
* `RateLimiter.allow` — may a request go on?

Main results:

* `RateLimiter.counts_allow` — no count ever exceeds the limit.
-/

set_option relaxedAutoImplicit false
set_option autoImplicit false

namespace SettingsService

/-- The limiter. -/
structure RateLimiter where
  /-- How many requests a key has in a window. -/
  maxRequests : ℕ
  /-- The length of a window. -/
  window : ℕ

/-- The count and the start of the window of each key. -/
abbrev Buckets : Type := AList fun _ : String => ℕ × Instant

namespace RateLimiter

/-- `allow`, at the time `now`. -/
def allow (limiter : RateLimiter) (key : String) (now : Instant) (buckets : Buckets) :
    Bool × Buckets :=
  let bucket := (buckets.lookup key).getD (0, now)
  let bucket := if limiter.window ≤ now - bucket.2 then (0, now) else bucket
  if limiter.maxRequests ≤ bucket.1 then (false, buckets.insert key bucket)
  else (true, buckets.insert key (bucket.1 + 1, bucket.2))

/-- No count exceeds the limit. -/
def CountsLe (limiter : RateLimiter) (buckets : Buckets) : Prop :=
  ∀ key bucket, buckets.lookup key = some bucket → bucket.1 ≤ limiter.maxRequests

/-- **No count ever exceeds the limit.** -/
theorem counts_allow {limiter : RateLimiter} {buckets : Buckets} (h : limiter.CountsLe buckets)
    (key : String) (now : Instant) : limiter.CountsLe (limiter.allow key now buckets).2 := by
  have hbucket : ((buckets.lookup key).getD (0, now)).1 ≤ limiter.maxRequests := by
    cases hk : buckets.lookup key with
    | none => exact Nat.zero_le _
    | some bucket => exact h key bucket hk
  have hreset : (if limiter.window ≤ now - ((buckets.lookup key).getD (0, now)).2 then (0, now)
      else (buckets.lookup key).getD (0, now)).1 ≤ limiter.maxRequests := by
    split_ifs
    · exact Nat.zero_le _
    · exact hbucket
  intro key' bucket' hk'
  dsimp only [allow] at hk'
  generalize (if limiter.window ≤ now - ((buckets.lookup key).getD (0, now)).2 then (0, now)
    else (buckets.lookup key).getD (0, now)) = bucket at hk' hreset
  rcases eq_or_ne key' key with rfl | hne
  · by_cases hmax : limiter.maxRequests ≤ bucket.1
    · simp only [hmax, if_true, AList.lookup_insert, Option.some.injEq] at hk'
      exact hk' ▸ hreset
    · simp only [hmax, if_false, AList.lookup_insert, Option.some.injEq] at hk'
      rw [← hk']
      exact Nat.lt_of_not_le hmax
  · apply h key' bucket'
    split_ifs at hk' <;> rwa [AList.lookup_insert_ne hne] at hk'

end RateLimiter

end SettingsService
