import SettingsService.FixedWindow
import SettingsService.RateLimiter

/-!
# What the rate limiter lets through

The limiter keeps one bucket for each key.  Whatever the calls of the other keys, the calls of a key
get the answers of a limiter that has this key alone, and what such a limiter lets through is
bounded over every interval, wherever its windows begin.

Main definitions:

* `RateLimiter.run` — calls of `allow` one after another, with their answers;
* `admitted` — how many calls of a key were let through.

Main results:

* `RateLimiter.run_key` — **a key has its own limiter**: its bucket and its answers are those of a
  run of its calls alone;
* `RateLimiter.run_fair` — **the limiter neither lets too much through nor refuses without cause**.
-/

set_option relaxedAutoImplicit false
set_option autoImplicit false

namespace SettingsService

/-- A call of `allow`, with its answer. -/
structure AllowCall where
  /-- The key. -/
  key : String
  /-- When the call was made. -/
  time : Instant
  /-- May the request go on? -/
  allowed : Bool
deriving DecidableEq

/-- How many calls for `key`, at times with `p`, were let through. -/
def admitted (key : String) (p : Instant → Prop) [DecidablePred p] (log : List AllowCall) : ℕ :=
  log.countP fun call => call.allowed && decide (call.key = key ∧ p call.time)

namespace RateLimiter

variable (limiter : RateLimiter)

/-! ### Runs -/

/-- Calls of `allow` one after another, each with its key and its time: the buckets at the end, and
the calls with their answers. -/
def run (calls : List (String × Instant)) : Buckets × List AllowCall :=
  calls.foldl (fun s call =>
    let r := limiter.allow call.1 call.2 s.1
    (r.2, s.2 ++ [⟨call.1, call.2, r.1⟩])) (∅, [])

theorem run_snoc (calls : List (String × Instant)) (key : String) (now : Instant) :
    limiter.run (calls ++ [(key, now)]) = ((limiter.allow key now (limiter.run calls).1).2,
      (limiter.run calls).2 ++ [⟨key, now, (limiter.allow key now (limiter.run calls).1).1⟩]) := by
  rw [run, List.foldl_append]
  rfl

/-- The log tells the calls in their order. -/
theorem run_calls (calls : List (String × Instant)) :
    (limiter.run calls).2.map (fun call => (call.key, call.time)) = calls := by
  induction calls using List.reverseRecOn with
  | nil => rfl
  | append_singleton calls call ih =>
      obtain ⟨key, now⟩ := call
      rw [run_snoc, List.map_append, ih, List.map_singleton]

/-! ### A key has its own limiter -/

/-- The times of the calls for a key. -/
def timesOf (key : String) (calls : List (String × Instant)) : List Instant :=
  (calls.filter fun call => call.1 = key).map Prod.snd

theorem timesOf_snoc_self (key : String) (calls : List (String × Instant)) (now : Instant) :
    timesOf key (calls ++ [(key, now)]) = timesOf key calls ++ [now] := by
  rw [timesOf, List.filter_append, List.map_append, List.filter_cons_of_pos (by simp)]
  rfl

theorem timesOf_snoc_of_ne {key key' : String} (hne : key' ≠ key)
    (calls : List (String × Instant)) (now : Instant) :
    timesOf key (calls ++ [(key', now)]) = timesOf key calls := by
  rw [timesOf, List.filter_append, List.filter_cons_of_neg (by simpa using hne), List.filter_nil,
    List.append_nil]
  rfl

theorem timesOf_sorted {calls : List (String × Instant)}
    (hsorted : calls.Pairwise fun c d => c.2 ≤ d.2) (key : String) :
    (timesOf key calls).Pairwise (· ≤ ·) :=
  List.Pairwise.map _ (fun _ _ h => h) (hsorted.filter _)

/-- A call goes to the bucket of its key. -/
theorem allow_eq (key : String) (now : Instant) (buckets : Buckets) :
    limiter.allow key now buckets =
      ((FixedWindow.hit limiter.maxRequests limiter.window now (buckets.lookup key)).1,
        buckets.insert key
          (FixedWindow.hit limiter.maxRequests limiter.window now (buckets.lookup key)).2) := by
  dsimp only [allow]
  rcases Nat.lt_or_ge (FixedWindow.current limiter.window now (buckets.lookup key)).1
    limiter.maxRequests with hroom | hfull
  · rw [FixedWindow.hit_of_room hroom]
    exact if_neg (Nat.not_le.2 hroom)
  · rw [FixedWindow.hit_of_full hfull]
    exact if_pos hfull

/-- **A key has its own limiter.** -/
theorem run_key (key : String) (calls : List (String × Instant)) :
    (limiter.run calls).1.lookup key =
        (FixedWindow.run limiter.maxRequests limiter.window (timesOf key calls)).1 ∧
      (limiter.run calls).2.filter (fun call => call.key = key) =
        (FixedWindow.run limiter.maxRequests limiter.window (timesOf key calls)).2.map
          fun call => ⟨key, call.1, call.2⟩ := by
  induction calls using List.reverseRecOn with
  | nil => exact ⟨rfl, rfl⟩
  | append_singleton calls call ih =>
      obtain ⟨key', now⟩ := call
      obtain ⟨hbucket, hlog⟩ := ih
      rw [run_snoc, allow_eq]
      rcases eq_or_ne key' key with rfl | hne
      · rw [timesOf_snoc_self, FixedWindow.run_snoc, ← hbucket]
        refine ⟨AList.lookup_insert _, ?_⟩
        rw [List.filter_append, hlog, List.filter_cons_of_pos (by simp),
          List.filter_nil, List.map_append, List.map_singleton]
      · rw [timesOf_snoc_of_ne hne]
        refine ⟨(AList.lookup_insert_ne hne.symm).trans hbucket, ?_⟩
        rw [List.filter_append, hlog, List.filter_cons_of_neg (by simpa using hne),
          List.filter_nil, List.append_nil]

/-- What a key was let through is what its own limiter lets through. -/
theorem admitted_run (key : String) (p : Instant → Prop) [DecidablePred p]
    (calls : List (String × Instant)) :
    admitted key p (limiter.run calls).2 =
      (FixedWindow.run limiter.maxRequests limiter.window (timesOf key calls)).2.countP
        fun call => call.2 && decide (p call.1) := by
  have hcount := congrArg (List.countP fun call : AllowCall => call.allowed && decide (p call.time))
    (limiter.run_key key calls).2
  rw [List.countP_filter, List.countP_map] at hcount
  refine Eq.trans (List.countP_congr fun call _ => ?_) hcount
  simp only [Bool.and_eq_true, decide_eq_true_eq]
  tauto

/-- The calls of other keys do not matter. -/
theorem run_filter (key : String) (calls : List (String × Instant)) :
    (limiter.run calls).2.filter (fun call => call.key = key) =
      (limiter.run (calls.filter fun call => call.1 = key)).2 := by
  have hown : timesOf key (calls.filter fun call => call.1 = key) = timesOf key calls := by
    rw [timesOf, List.filter_filter]
    simp only [Bool.and_self]
    rfl
  have hall : (limiter.run (calls.filter fun call => call.1 = key)).2.filter
      (fun call => call.key = key) = (limiter.run (calls.filter fun call => call.1 = key)).2 := by
    rw [List.filter_eq_self]
    intro call hcall
    have hmem := List.mem_map_of_mem (f := fun call : AllowCall => (call.key, call.time)) hcall
    rw [run_calls, List.mem_filter] at hmem
    exact hmem.2
  rw [← hall, (limiter.run_key key _).2, (limiter.run_key key _).2, hown]

/-! ### What the limiter guarantees -/

/-- No count ever exceeds the limit. -/
theorem counts_run (calls : List (String × Instant)) :
    limiter.CountsLe (limiter.run calls).1 := by
  induction calls using List.reverseRecOn with
  | nil => exact fun _ _ h => nomatch h
  | append_singleton calls call ih =>
      obtain ⟨key, now⟩ := call
      rw [run_snoc]
      exact counts_allow ih key now

/-- A refused call has had enough calls of its key in the window that ends with it. -/
theorem le_admitted_of_refused {calls : List (String × Instant)}
    (hsorted : calls.Pairwise fun c d => c.2 ≤ d.2) {before after : List AllowCall}
    {call : AllowCall} (hrun : (limiter.run calls).2 = before ++ call :: after)
    (hcall : call.allowed = false) :
    limiter.maxRequests ≤
      admitted call.key (fun t => call.time < t + limiter.window ∧ t ≤ call.time) before := by
  induction calls using List.reverseRecOn generalizing after with
  | nil => simp [run] at hrun
  | append_singleton calls last ih =>
      obtain ⟨key, now⟩ := last
      obtain ⟨hsorted, -, hnow⟩ := List.pairwise_append.1 hsorted
      rw [run_snoc] at hrun
      rcases List.eq_nil_or_concat after with rfl | ⟨after, e, rfl⟩
      · -- the refused call is the last one
        obtain ⟨rfl, hlast⟩ := List.append_inj' hrun rfl
        obtain rfl := List.singleton_inj.1 hlast
        rw [allow_eq, (limiter.run_key key calls).1] at hcall
        have htimes : ∀ t ∈ timesOf key calls, t ≤ now := by
          intro t ht
          obtain ⟨c, hc, rfl⟩ := List.mem_map.1 ht
          exact hnow c (List.mem_of_mem_filter hc) (key, now) (by simp)
        rw [admitted_run]
        refine (FixedWindow.full_of_refused (timesOf_sorted hsorted key) htimes hcall).trans ?_
        refine List.countP_mono_left fun c hc h => ?_
        have hpast : c.1 ∈ timesOf key calls := by
          rw [← FixedWindow.run_times (m := limiter.maxRequests) (W := limiter.window)
            (timesOf key calls)]
          exact List.mem_map_of_mem hc
        rw [Bool.and_eq_true, decide_eq_true_eq] at h ⊢
        exact ⟨h.1, h.2, htimes _ hpast⟩
      · rw [List.concat_eq_append, ← List.cons_append, ← List.append_assoc] at hrun
        exact ih hsorted (List.append_inj' hrun rfl).1

/-- **The limiter neither lets too much through nor refuses without cause.**  Whatever the calls at
times that do not go back: of each key, an interval of length `k * window` holds at most
`(k + 1) * maxRequests` calls that were let through; a call is refused only if `maxRequests` calls
of its key were let through within the window that ends with it; a key is answered as if there were
no other; and no count is ever above `maxRequests`. -/
theorem run_fair (calls : List (String × Instant))
    (hsorted : calls.Pairwise fun c d => c.2 ≤ d.2) :
    (∀ key a k, 1 ≤ k →
        admitted key (fun t => a ≤ t ∧ t < a + k * limiter.window) (limiter.run calls).2 ≤
            (k + 1) * limiter.maxRequests ∧
          admitted key (fun t => a < t ∧ t ≤ a + k * limiter.window) (limiter.run calls).2 ≤
            (k + 1) * limiter.maxRequests) ∧
      (∀ before call after, (limiter.run calls).2 = before ++ call :: after →
        call.allowed = false → limiter.maxRequests ≤
          admitted call.key (fun t => call.time < t + limiter.window ∧ t ≤ call.time) before) ∧
      (∀ key, (limiter.run calls).2.filter (fun call => call.key = key) =
        (limiter.run (calls.filter fun call => call.1 = key)).2) ∧
      ∀ before after, calls = before ++ after → limiter.CountsLe (limiter.run before).1 := by
  have hbetween (key : String) (a k : ℕ) :
      admitted key (fun t => a ≤ t ∧ t < a + k * limiter.window) (limiter.run calls).2 ≤
        (k + 1) * limiter.maxRequests := by
    rw [admitted_run]
    exact FixedWindow.between_le (timesOf_sorted hsorted key) a k
  refine ⟨fun key a k _ => ⟨hbetween key a k, ?_⟩, fun before call after hrun hcall =>
    limiter.le_admitted_of_refused hsorted hrun hcall, fun key => limiter.run_filter key calls,
    fun before _ _ => limiter.counts_run before⟩
  refine le_trans (List.countP_mono_left fun call _ h => ?_) (hbetween key (a + 1) k)
  rw [Bool.and_eq_true, decide_eq_true_eq] at h ⊢
  refine ⟨h.1, h.2.1, h.2.2.1, ?_⟩
  have := h.2.2.2
  rw [Nat.add_right_comm]
  exact Nat.lt_succ_of_le this

/-- Two calls of a key in one window of a limiter that lets one call through: the second is refused,
and the key is let through again when the window is over. -/
theorem run_fair_two_keys :
    let calls := [("tenant:acme", 0), ("tenant:globex", 3), ("tenant:acme", 5), ("tenant:acme", 10)]
    let log := (run ⟨1, 10⟩ calls).2
    log.map AllowCall.allowed = [true, true, false, true] ∧
      admitted "tenant:acme" (fun t => 1 ≤ t ∧ t < 1 + 1 * 10) log ≤ (1 + 1) * 1 ∧
      1 ≤ admitted "tenant:acme" (fun t => 5 < t + 10 ∧ t ≤ 5) (log.take 2) ∧
      log.filter (fun call => call.key = "tenant:globex") =
        (run ⟨1, 10⟩ [("tenant:globex", 3)]).2 := by
  have hfair := run_fair ⟨1, 10⟩
    [("tenant:acme", 0), ("tenant:globex", 3), ("tenant:acme", 5), ("tenant:acme", 10)] (by decide)
  exact ⟨by decide, (hfair.1 "tenant:acme" 1 1 (by decide)).1,
    hfair.2.1 _ ⟨"tenant:acme", 5, false⟩ [⟨"tenant:acme", 10, true⟩] (by decide) rfl,
    hfair.2.2.1 "tenant:globex"⟩

end RateLimiter

end SettingsService
