import Mathlib.Data.List.Induction
import Mathlib.Data.Nat.Basic
import Mathlib.Tactic.SplitIfs

/-!
# Fixed windows that start with a call

A limiter of one key lets `m` calls through in a window of length `W`.  A window starts with the
first call after the end of the one before, so the windows lie wherever the calls put them.

Main definitions:

* `FixedWindow.hit` — what a call does to the count and the start of the window;
* `FixedWindow.run` — calls one after another, with their answers;
* `FixedWindow.since`, `FixedWindow.between` — how many calls of a stretch of time were let through;
* `FixedWindow.Fits` — what the count and the start of the window say about the past.

Main results:

* `FixedWindow.fits_run` — **the invariant holds after every run**;
* `FixedWindow.between_le` — **no burst**: wherever an interval of length `k * W` lies, at most
  `(k + 1) * m` of its calls are let through;
* `FixedWindow.full_of_refused` — **no refusal without cause**: a call is refused only when `m`
  calls of the window of length `W` that ends with it were let through.
-/

set_option relaxedAutoImplicit false
set_option autoImplicit false

namespace FixedWindow

variable (m W : ℕ)

/-! ### One call -/

/-- The count and the start of the window a call at `now` falls in: the stored ones, or a fresh
window. -/
def current (now : ℕ) (bucket : Option (ℕ × ℕ)) : ℕ × ℕ :=
  if W ≤ now - (bucket.getD (0, now)).2 then (0, now) else bucket.getD (0, now)

/-- A call at `now`: may it go on, and what is stored from then on? -/
def hit (now : ℕ) (bucket : Option (ℕ × ℕ)) : Bool × (ℕ × ℕ) :=
  if m ≤ (current W now bucket).1 then (false, current W now bucket)
  else (true, ((current W now bucket).1 + 1, (current W now bucket).2))

variable {m W}

theorem hit_of_full {now : ℕ} {bucket : Option (ℕ × ℕ)} (h : m ≤ (current W now bucket).1) :
    hit m W now bucket = (false, current W now bucket) :=
  if_pos h

theorem hit_of_room {now : ℕ} {bucket : Option (ℕ × ℕ)} (h : (current W now bucket).1 < m) :
    hit m W now bucket = (true, ((current W now bucket).1 + 1, (current W now bucket).2)) :=
  if_neg (Nat.not_le.2 h)

theorem full_of_hit {now : ℕ} {bucket : Option (ℕ × ℕ)} (h : (hit m W now bucket).1 = false) :
    m ≤ (current W now bucket).1 := by
  by_contra hroom
  rw [hit_of_room (Nat.lt_of_not_le hroom)] at h
  cases h

/-! ### Runs -/

variable (m W)

/-- The calls at `times`, one after another: what is stored at the end, and every call with its
answer. -/
def run (times : List ℕ) : Option (ℕ × ℕ) × List (ℕ × Bool) :=
  times.foldl (fun s now => (some (hit m W now s.1).2, s.2 ++ [(now, (hit m W now s.1).1)]))
    (none, [])

variable {m W}

@[simp] theorem run_nil : run m W [] = (none, []) := rfl

theorem run_snoc (times : List ℕ) (now : ℕ) :
    run m W (times ++ [now]) = (some (hit m W now (run m W times).1).2,
      (run m W times).2 ++ [(now, (hit m W now (run m W times).1).1)]) := by
  rw [run, List.foldl_append]
  rfl

/-- The log tells the calls in their order. -/
theorem run_times (times : List ℕ) : (run m W times).2.map Prod.fst = times := by
  induction times using List.reverseRecOn with
  | nil => rfl
  | append_singleton times now ih => rw [run_snoc, List.map_append, ih, List.map_singleton]

/-! ### Counting what was let through -/

/-- How many calls at `a` or later were let through. -/
def since (a : ℕ) (log : List (ℕ × Bool)) : ℕ :=
  log.countP fun call => call.2 && decide (a ≤ call.1)

/-- How many calls from `a` on, but before `b`, were let through. -/
def between (a b : ℕ) (log : List (ℕ × Bool)) : ℕ :=
  log.countP fun call => call.2 && decide (a ≤ call.1 ∧ call.1 < b)

theorem since_snoc (a now : ℕ) (ok : Bool) (log : List (ℕ × Bool)) :
    since a (log ++ [(now, ok)]) = since a log + if ok && decide (a ≤ now) then 1 else 0 := by
  rw [since, List.countP_append, List.countP_singleton]
  rfl

theorem between_snoc (a b now : ℕ) (ok : Bool) (log : List (ℕ × Bool)) :
    between a b (log ++ [(now, ok)]) =
      between a b log + if ok && decide (a ≤ now ∧ now < b) then 1 else 0 := by
  rw [between, List.countP_append, List.countP_singleton]
  rfl

theorem between_le_since (a b : ℕ) (log : List (ℕ × Bool)) : between a b log ≤ since a log := by
  refine List.countP_mono_left fun call _ h => ?_
  rw [Bool.and_eq_true, decide_eq_true_eq] at h ⊢
  exact ⟨h.1, h.2.1⟩

/-- Nothing was let through after the last call. -/
theorem since_eq_zero {a now : ℕ} {log : List (ℕ × Bool)} (hlog : ∀ call ∈ log, call.1 ≤ now)
    (ha : now < a) : since a log = 0 := by
  rw [since, List.countP_eq_zero]
  intro call hcall
  have := hlog call hcall
  rw [Bool.and_eq_true, decide_eq_true_eq]
  omega

/-! ### The invariant -/

/-- What the count `bucket.1` and the start `bucket.2` of the window say at `now` about the past. -/
structure Fits (m W : ℕ) (bucket : ℕ × ℕ) (log : List (ℕ × Bool)) (now : ℕ) : Prop where
  /-- The window has begun. -/
  start_le : bucket.2 ≤ now
  /-- The calls of the log are past. -/
  past : ∀ call ∈ log, call.1 ≤ now
  /-- The count respects the limit. -/
  count_le : bucket.1 ≤ m
  /-- Whatever is counted was let through in the window. -/
  count_le_since : bucket.1 ≤ since bucket.2 log
  /-- From a time on that is less than `j` windows before the start, no more than this window and
  `j` full ones were let through. -/
  since_le : ∀ a j, bucket.2 < a + j * W → since a log ≤ bucket.1 + j * m

/-- Before the first call there is nothing to count. -/
theorem fits_nil (now : ℕ) : Fits m W (0, now) [] now where
  start_le := Nat.le_refl now
  past _ h := nomatch h
  count_le := Nat.zero_le m
  count_le_since := Nat.zero_le _
  since_le _ _ _ := Nat.zero_le _

namespace Fits

variable {bucket : ℕ × ℕ} {log : List (ℕ × Bool)} {now now' : ℕ}

/-- Time goes on. -/
theorem mono (h : Fits m W bucket log now) (hnow : now ≤ now') : Fits m W bucket log now' where
  start_le := Nat.le_trans h.start_le hnow
  past call hcall := Nat.le_trans (h.past call hcall) hnow
  count_le := h.count_le
  count_le_since := h.count_le_since
  since_le := h.since_le

/-- A new window takes the place of one that is over: it is one window further away from what was
let through before. -/
theorem fresh (h : Fits m W bucket log now) (hover : W ≤ now - bucket.2) :
    Fits m W (0, now) log now where
  start_le := Nat.le_refl now
  past := h.past
  count_le := Nat.zero_le m
  count_le_since := Nat.zero_le _
  since_le := by
    intro a j ha
    cases j with
    | zero =>
        rw [since_eq_zero h.past (by omega)]
        exact Nat.zero_le _
    | succ j =>
        have hstart := h.start_le
        have hcount := h.count_le
        rw [Nat.succ_mul] at ha ⊢
        have := h.since_le a j (by omega)
        omega

/-- The window a later call falls in. -/
theorem current (h : Fits m W bucket log now) (hnow : now ≤ now') :
    Fits m W (current W now' (some bucket)) log now' := by
  rw [FixedWindow.current, Option.getD_some]
  split_ifs with hover
  · exact (h.mono hnow).fresh hover
  · exact h.mono hnow

/-- A call that is let through is counted. -/
theorem letThrough (h : Fits m W bucket log now) (hroom : bucket.1 < m) :
    Fits m W (bucket.1 + 1, bucket.2) (log ++ [(now, true)]) now where
  start_le := h.start_le
  past := by
    intro call hcall
    rcases List.mem_append.1 hcall with hcall | hcall
    · exact h.past call hcall
    · rw [List.mem_singleton.1 hcall]
  count_le := hroom
  count_le_since := by
    rw [since_snoc, Bool.true_and, if_pos (decide_eq_true h.start_le)]
    exact Nat.succ_le_succ h.count_le_since
  since_le := by
    intro a j ha
    have hsince := h.since_le a j ha
    rw [since_snoc]
    split_ifs <;> omega

/-- A call that is refused changes nothing. -/
theorem refuse (h : Fits m W bucket log now) : Fits m W bucket (log ++ [(now, false)]) now where
  start_le := h.start_le
  past := by
    intro call hcall
    rcases List.mem_append.1 hcall with hcall | hcall
    · exact h.past call hcall
    · rw [List.mem_singleton.1 hcall]
  count_le := h.count_le
  count_le_since := by
    rw [since_snoc]
    exact h.count_le_since
  since_le := by
    intro a j ha
    rw [since_snoc]
    exact h.since_le a j ha

end Fits

/-- A call keeps the invariant. -/
theorem fits_hit {bucket : Option (ℕ × ℕ)} {log : List (ℕ × Bool)} {now : ℕ}
    (h : Fits m W (current W now bucket) log now) :
    Fits m W (hit m W now bucket).2 (log ++ [(now, (hit m W now bucket).1)]) now := by
  rcases Nat.lt_or_ge (current W now bucket).1 m with hroom | hfull
  · rw [hit_of_room hroom]
    exact h.letThrough hroom
  · rw [hit_of_full hfull]
    exact h.refuse

theorem current_none (now : ℕ) : current W now none = (0, now) := by
  rw [current, Option.getD_none, ite_self]

/-- **After every run the window a next call falls in fits the past.** -/
theorem fits_run {times : List ℕ} (hsorted : times.Pairwise (· ≤ ·)) {now : ℕ}
    (hnow : ∀ t ∈ times, t ≤ now) :
    Fits m W (current W now (run m W times).1) (run m W times).2 now := by
  induction times using List.reverseRecOn generalizing now with
  | nil =>
      rw [run_nil, current_none]
      exact fits_nil now
  | append_singleton times t ih =>
      obtain ⟨hsorted, -, ht⟩ := List.pairwise_append.1 hsorted
      rw [run_snoc]
      exact (fits_hit (ih hsorted fun t' ht' => ht t' ht' t (by simp))).current (hnow t (by simp))

/-! ### What the limiter guarantees -/

/-- **No burst.** -/
theorem between_le {times : List ℕ} (hsorted : times.Pairwise (· ≤ ·)) (a k : ℕ) :
    between a (a + k * W) (run m W times).2 ≤ (k + 1) * m := by
  induction times using List.reverseRecOn with
  | nil => exact Nat.zero_le _
  | append_singleton times t ih =>
      obtain ⟨hsorted', -, ht⟩ := List.pairwise_append.1 hsorted
      rcases Nat.lt_or_ge t (a + k * W) with hlt | hge
      · -- the last call lies in the interval, and so its window bounds all that came before it
        have hfits := fits_hit (fits_run (m := m) (W := W) hsorted'
          fun t' ht' => ht t' ht' t (by simp))
        rw [run_snoc]
        generalize hit m W t (run m W times).1 = r at hfits
        have hstart := hfits.start_le
        have hcount := hfits.count_le
        calc between a (a + k * W) ((run m W times).2 ++ [(t, r.1)])
            ≤ since a ((run m W times).2 ++ [(t, r.1)]) := between_le_since ..
          _ ≤ r.2.1 + k * m := hfits.since_le a k (Nat.lt_of_le_of_lt hstart hlt)
          _ ≤ (k + 1) * m := by
              rw [Nat.succ_mul]
              omega
      · rw [run_snoc, between_snoc, if_neg (by simp; omega)]
        exact ih hsorted'

/-- **No refusal without cause.** -/
theorem full_of_refused {times : List ℕ} (hsorted : times.Pairwise (· ≤ ·)) {now : ℕ}
    (hnow : ∀ t ∈ times, t ≤ now) (h : (hit m W now (run m W times).1).1 = false) :
    m ≤ (run m W times).2.countP fun call => call.2 && decide (now < call.1 + W) := by
  have hfits : Fits m W (current W now (run m W times).1) (run m W times).2 now :=
    fits_run hsorted hnow
  have hfull := full_of_hit h
  have hcount := hfits.count_le_since
  by_cases hover : W ≤ now - ((run m W times).1.getD (0, now)).2
  · -- a fresh window is full only if nothing is ever let through
    rw [current, if_pos hover] at hfull
    exact Nat.le_trans hfull (Nat.zero_le _)
  · rw [current, if_neg hover] at hfits hfull hcount
    have hstart := hfits.start_le
    generalize (run m W times).1.getD (0, now) = bucket at *
    refine Nat.le_trans hfull (Nat.le_trans hcount (List.countP_mono_left fun call _ hcall => ?_))
    rw [Bool.and_eq_true, decide_eq_true_eq] at hcall ⊢
    exact ⟨hcall.1, by omega⟩

end FixedWindow
