import Mathlib.Data.Nat.Notation
import Mathlib.Tactic.Common

/-!
# Pagination

The shared value object for a page of a collection: a 1-based page and a size of at most 100.

Main definitions:

* `Pagination`, `Pagination.new` — the value object and its validation;
* `Pagination.offset`, `Pagination.limit` — what the adapter binds to `OFFSET` and `LIMIT`;
* `Pagination.nth`, `lastPage` — the pages of one size, and the last page of a total.

Main results:

* `lastPage_le_iff` — the last page is the first that reaches the total.
-/

set_option relaxedAutoImplicit false
set_option autoImplicit false

namespace SettingsService

/-- Why a page request is refused. -/
inductive PaginationError
  | badPage
  | badSize
  deriving DecidableEq

/-- A page request: `page` is 1-based, `size` is within `1..=100`. -/
structure Pagination where
  /-- The page. -/
  page : ℕ
  /-- The number of rows on a page. -/
  size : ℕ
  /-- Pages count from one. -/
  page_pos : 1 ≤ page
  /-- A page has a row. -/
  size_pos : 1 ≤ size
  /-- A page has at most a hundred rows. -/
  size_le : size ≤ 100
  deriving DecidableEq

namespace Pagination

/-- `Pagination::new`. -/
def new (page size : ℕ) : Except PaginationError Pagination :=
  if hp : page < 1 then .error .badPage
  else if hs : 1 ≤ size ∧ size ≤ 100 then .ok ⟨page, size, by omega, hs.1, hs.2⟩
  else .error .badSize

/-- A page request is for the page and the size that were given. -/
theorem eq_of_new {page size : ℕ} {p : Pagination} (h : new page size = .ok p) :
    p.page = page ∧ p.size = size := by
  rw [new] at h
  split_ifs at h
  obtain rfl := Except.ok.inj h
  exact ⟨rfl, rfl⟩

/-- The value object is its own validation. -/
theorem new_eq (p : Pagination) : new p.page p.size = .ok p := by
  rw [new, dif_neg (Nat.not_lt.2 p.page_pos), dif_pos ⟨p.size_pos, p.size_le⟩]

/-- `offset`. -/
def offset (p : Pagination) : ℕ := (p.page - 1) * p.size

/-- `limit`. -/
def limit (p : Pagination) : ℕ := p.size

/-- The page at an index, counted from zero, of the size of a page request. -/
def nth (p : Pagination) (i : ℕ) : Pagination :=
  ⟨i + 1, p.size, by omega, p.size_pos, p.size_le⟩

theorem nth_page (p : Pagination) : p.nth (p.page - 1) = p := by
  have hpage : p.page - 1 + 1 = p.page := Nat.sub_add_cancel p.page_pos
  simp only [nth, hpage]

end Pagination

/-! ### The last page -/

/-- The last page of a total, as the service computes it. -/
def lastPage (size total : ℕ) : ℕ := max ((total + size - 1) / size) 1

theorem one_le_lastPage (size total : ℕ) : 1 ≤ lastPage size total :=
  Nat.le_max_right _ _

theorem le_lastPage_mul {size : ℕ} (hsize : 0 < size) (total : ℕ) :
    total ≤ lastPage size total * size := by
  have hceil : total ≤ (total + size - 1) / size * size := by
    have hdiv := Nat.div_add_mod (total + size - 1) size
    have hmod := Nat.mod_lt (total + size - 1) hsize
    rw [Nat.mul_comm] at hdiv
    omega
  exact Nat.le_trans hceil (Nat.mul_le_mul_right size (Nat.le_max_left _ _))

/-- **The last page is the first that reaches the total.** -/
theorem lastPage_le_iff {size k : ℕ} (hsize : 0 < size) (hk : 1 ≤ k) (total : ℕ) :
    lastPage size total ≤ k ↔ total ≤ k * size := by
  rw [lastPage, Nat.max_le, and_iff_left hk]
  constructor
  · intro h
    exact Nat.le_trans (le_lastPage_mul hsize total)
      (Nat.mul_le_mul_right size (Nat.max_le.2 ⟨h, hk⟩))
  · intro h
    rw [Nat.div_le_iff_le_mul_add_pred hsize, Nat.mul_comm]
    omega

end SettingsService
