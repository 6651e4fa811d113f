import Mathlib.Data.List.Nodup
import Mathlib.Data.List.Perm.Basic
import Mathlib.Data.Nat.Notation
import Mathlib.Tactic.Common

/-!
# Slices of a list

A list cut into slices of one size, as a collection is cut into pages.  If every slice is cut from
the same list, the slices together are the list.  If each is cut from an arrangement of its own, and
elements that compare equal may be arranged in any order, an element can show up in two slices and
another in none; this is a library about when that happens.

Main definitions:

* `Slices.slice` — the slice at an index;
* `Slices.before`, `Slices.upTo` — how many elements come before an element, and how many do not
  come after it;
* `Slices.ClassesUncut` — no boundary of slices falls between elements that compare equal.

Main results:

* `Slices.flatMap_slice` — the slices of a list are the list;
* `Slices.before_le_of_getElem` — where an element stands in an arrangement;
* `Slices.perm_flatMap_slice_iff` — **slices of different arrangements hold every element once
  exactly when no boundary falls between elements that compare equal**.
-/

set_option relaxedAutoImplicit false
set_option autoImplicit false

namespace Slices

variable {α : Type}

/-- The slice at an index, counted from zero. -/
def slice (size i : ℕ) (l : List α) : List α := (l.drop (i * size)).take size

@[simp] theorem slice_nil (size i : ℕ) : slice size i ([] : List α) = [] := by simp [slice]

theorem length_slice (size i : ℕ) (l : List α) :
    (slice size i l).length = min size (l.length - i * size) := by
  simp [slice]

/-- **The slices of a list are the list.** -/
theorem flatMap_slice {size n : ℕ} {l : List α} (h : l.length ≤ n * size) :
    (List.range n).flatMap (fun i => slice size i l) = l := by
  have htake : ∀ n, (List.range n).flatMap (fun i => slice size i l) = l.take (n * size) := by
    intro n
    induction n with
    | zero => simp
    | succ n ih =>
        rw [List.range_succ, List.flatMap_append, ih, List.flatMap_singleton, slice,
          Nat.succ_mul, List.take_add]
  rw [htake, List.take_of_length_le h]

/-- A slice holds the elements whose position is in it. -/
theorem mem_slice_iff {size i : ℕ} (hsize : 0 < size) {l : List α} {x : α} :
    x ∈ slice size i l ↔ ∃ p, ∃ h : p < l.length, p / size = i ∧ l[p] = x := by
  rw [slice, List.mem_take_iff_getElem]
  constructor
  · rintro ⟨q, hq, rfl⟩
    rw [List.length_drop] at hq
    refine ⟨i * size + q, by omega, ?_, by rw [List.getElem_drop]⟩
    rw [Nat.mul_comm, Nat.mul_add_div hsize, Nat.div_eq_of_lt (by omega), Nat.add_zero]
  · rintro ⟨p, hp, rfl, rfl⟩
    have hdiv := Nat.div_add_mod p size
    have hmod := Nat.mod_lt p hsize
    rw [Nat.mul_comm] at hdiv
    refine ⟨p % size, ?_, ?_⟩
    · rw [List.length_drop]
      omega
    · rw [List.getElem_drop]
      simp only [hdiv]

theorem nodup_slice {size i : ℕ} {l : List α} (h : l.Nodup) : (slice size i l).Nodup :=
  (h.sublist (List.drop_sublist _ _)).sublist (List.take_sublist _ _)

/-! ### Arrangements -/

/-- An arrangement: the same elements, in order. -/
structure Arranges (r : α → α → Prop) (V l : List α) : Prop where
  perm : l.Perm V
  sorted : l.Pairwise r

/-- Neighbours that compare equal may be exchanged. -/
theorem Arranges.swap {r : α → α → Prop} {V A B : List α} {y z : α}
    (h : Arranges r V (A ++ y :: z :: B)) (hzy : r z y) :
    Arranges r V (A ++ z :: y :: B) := by
  refine ⟨((List.Perm.swap y z B).append_left A).trans h.perm, ?_⟩
  have hsorted := h.sorted
  rw [List.pairwise_append, List.pairwise_cons, List.pairwise_cons] at hsorted ⊢
  obtain ⟨hA, ⟨hy, hz, hB⟩, hAB⟩ := hsorted
  refine ⟨hA, ⟨fun x hx => ?_, fun x hx => ?_, hB⟩, fun x hx w hw => hAB x hx w ?_⟩
  · rcases List.mem_cons.1 hx with rfl | hx
    · exact hzy
    · exact hz x hx
  · exact hy x (List.mem_cons_of_mem _ hx)
  · simp only [List.mem_cons] at hw ⊢
    tauto

section Arrangements

variable (r : α → α → Prop) [DecidableRel r]

/-- How many elements come before `x`. -/
def before (V : List α) (x : α) : ℕ := V.countP fun y => ¬ r x y

/-- How many elements do not come after `x`. -/
def upTo (V : List α) (x : α) : ℕ := V.countP fun y => r y x

/-- **No boundary of slices falls between elements that compare equal**: those that compare equal to
`x` stand at the positions from `before r V x` on, below `upTo r V x`. -/
def ClassesUncut (size : ℕ) (V : List α) : Prop :=
  ∀ x ∈ V, ∀ k, before r V x < k * size → upTo r V x ≤ k * size

variable {r} {V l : List α}

/-- **Where an element stands in an arrangement.** -/
theorem before_le_of_getElem (htotal : ∀ x y, r x y ∨ r y x) (hl : Arranges r V l) {p : ℕ}
    (hp : p < l.length) : before r V l[p] ≤ p ∧ p < upTo r V l[p] := by
  have hrefl : ∀ x, r x x := fun x => (htotal x x).elim id id
  have hsplit : ∀ (q : α → Bool) (n : ℕ),
      V.countP q = (l.take n).countP q + (l.drop n).countP q := by
    intro q n
    rw [← hl.perm.countP_eq, ← List.countP_append, List.take_append_drop]
  have hsorted := List.pairwise_iff_getElem.1 hl.sorted
  constructor
  · -- what stands at `p` or later does not come before the element at `p`
    have hdrop : (l.drop p).countP (fun y => decide (¬ r l[p] y)) = 0 := by
      rw [List.countP_eq_zero]
      intro y hy
      obtain ⟨q, hq, rfl⟩ := List.mem_drop_iff_getElem.1 hy
      rcases Nat.eq_zero_or_pos q with rfl | hpos
      · simpa using hrefl l[p]
      · simpa using hsorted p (p + q) hp (by omega) (by omega)
    have hle := List.countP_le_length (p := fun y => decide (¬ r l[p] y)) (l := l.take p)
    rw [before, hsplit _ p, hdrop]
    rw [List.length_take] at hle
    omega
  · -- what stands at `p` or earlier does not come after it
    have htake : (l.take (p + 1)).countP (fun y => decide (r y l[p])) =
        (l.take (p + 1)).length := by
      rw [List.countP_eq_length]
      intro y hy
      obtain ⟨q, hq, rfl⟩ := List.mem_take_iff_getElem.1 hy
      rcases Nat.lt_or_ge q p with hlt | hge
      · simpa using hsorted q p (by omega) hp hlt
      · obtain rfl : q = p := by omega
        simpa using hrefl l[q]
    rw [upTo, hsplit _ (p + 1), htake, List.length_take]
    omega

theorem before_le_upTo_of_rel (htrans : ∀ x y z, r x y → r y z → r x z) {x y : α}
    (h : ¬ r x y) : upTo r V y ≤ before r V x := by
  refine List.countP_mono_left fun z _ hz => ?_
  simp only [decide_eq_true_eq] at hz ⊢
  exact fun hxz => h (htrans x z y hxz hz)

/-- The elements at the positions of `x` compare equal to it. -/
theorem rel_of_position (htotal : ∀ x y, r x y ∨ r y x) (htrans : ∀ x y z, r x y → r y z → r x z)
    (hl : Arranges r V l) {x : α} {p : ℕ} (hp : p < l.length) (hlow : before r V x ≤ p)
    (hup : p < upTo r V x) : r x l[p] ∧ r l[p] x := by
  obtain ⟨h₁, h₂⟩ := before_le_of_getElem htotal hl hp
  constructor
  · by_contra h
    have := before_le_upTo_of_rel (V := V) htrans h
    omega
  · by_contra h
    have := before_le_upTo_of_rel (V := V) htrans h
    omega

end Arrangements

/-! ### Slices of different arrangements -/

section Different

variable {r : α → α → Prop} [DecidableRel r] {V : List α} {size n : ℕ}

/-- **Elements whose slice is the same in every arrangement** are held once. -/
theorem perm_flatMap_slice_of_index (hsize : 0 < size) (hV : V.Nodup) {L : ℕ → List α}
    (hL : ∀ i, (L i).Perm V) {f : α → ℕ} (hf : ∀ i p (h : p < (L i).length), f (L i)[p] = p / size)
    (hn : V.length ≤ n * size) :
    ((List.range n).flatMap fun i => slice size i (L i)).Perm V := by
  have hmem : ∀ i x, x ∈ slice size i (L i) ↔ x ∈ V ∧ f x = i := by
    intro i x
    rw [mem_slice_iff hsize, ← (hL i).mem_iff]
    constructor
    · rintro ⟨p, hp, rfl, rfl⟩
      exact ⟨List.getElem_mem hp, hf (p / size) p hp⟩
    · rintro ⟨hx, rfl⟩
      obtain ⟨p, hp, hpx⟩ := List.mem_iff_getElem.1 hx
      have hindex := hf (f x) p hp
      rw [hpx] at hindex
      exact ⟨p, hp, hindex.symm, hpx⟩
  refine (List.perm_ext_iff_of_nodup (List.nodup_flatMap.2 ⟨fun i _ => ?_, ?_⟩) hV).2 fun x => ?_
  · exact nodup_slice ((hL i).nodup_iff.2 hV)
  · refine List.nodup_range.imp fun {i j} hij x hxi hxj => hij ?_
    rw [← ((hmem i x).1 hxi).2, ((hmem j x).1 hxj).2]
  · simp only [List.mem_flatMap, List.mem_range, hmem]
    constructor
    · rintro ⟨i, -, hx, -⟩
      exact hx
    · intro hx
      refine ⟨f x, ?_, hx, rfl⟩
      obtain ⟨p, hp, rfl⟩ := List.mem_iff_getElem.1 ((hL 0).mem_iff.2 hx)
      rw [hf 0 p hp]
      have := (hL 0).length_eq
      exact Nat.div_lt_of_lt_mul (by rw [Nat.mul_comm]; omega)

/-- An element that stands at two positions of different slices is held twice. -/
theorem not_nodup_flatMap_slice (hsize : 0 < size) {L : ℕ → List α} {y : α} {p q : ℕ}
    (hp : p < (L (p / size)).length) (hq : q < (L (q / size)).length)
    (hpy : (L (p / size))[p] = y) (hqy : (L (q / size))[q] = y) (hne : p / size < q / size)
    (hn : q / size < n) : ¬ ((List.range n).flatMap fun i => slice size i (L i)).Nodup := by
  intro h
  have hdisjoint := List.pairwise_iff_getElem.1 (List.nodup_flatMap.1 h).2 (p / size) (q / size)
    (by rw [List.length_range]; omega) (by rw [List.length_range]; omega) hne
  rw [List.getElem_range, List.getElem_range] at hdisjoint
  exact hdisjoint ((mem_slice_iff hsize).2 ⟨p, hp, rfl, hpy⟩)
    ((mem_slice_iff hsize).2 ⟨q, hq, rfl, hqy⟩)

/-- **A boundary that cuts a class** falls between neighbours that compare equal, in every
arrangement. -/
theorem exists_neighbours_of_cut (htotal : ∀ x y, r x y ∨ r y x)
    (htrans : ∀ x y z, r x y → r y z → r x z) {l₀ : List α} (hl₀ : Arranges r V l₀)
    (h : ¬ ClassesUncut r size V) : ∃ (k q : ℕ) (hq : q + 1 < l₀.length), k * size = q + 1 ∧
      r l₀[q] l₀[q + 1] ∧ r l₀[q + 1] l₀[q] := by
  simp only [ClassesUncut, not_forall] at h
  obtain ⟨x, -, k, hk, hup⟩ := h
  obtain ⟨q, hq⟩ : ∃ q, k * size = q + 1 := Nat.exists_eq_add_one.2 (by omega)
  have hlen : q + 1 < l₀.length := by
    have hle : upTo r V x ≤ V.length := List.countP_le_length
    rw [hl₀.perm.length_eq]
    omega
  obtain ⟨hxy, hyx⟩ := rel_of_position (x := x) htotal htrans hl₀ (p := q) (by omega)
    (by omega) (by omega)
  obtain ⟨hxz, hzx⟩ := rel_of_position (x := x) htotal htrans hl₀ hlen (by omega) (by omega)
  exact ⟨k, q, hlen, hq, htrans _ _ _ hyx hxz, htrans _ _ _ hzx hxy⟩

/-- Where no two elements compare equal, no boundary falls between such. -/
theorem classesUncut_of_antisymm (htotal : ∀ x y, r x y ∨ r y x)
    (htrans : ∀ x y z, r x y → r y z → r x z) (hV : V.Nodup) {l₀ : List α}
    (hl₀ : Arranges r V l₀) (hanti : ∀ x ∈ V, ∀ y ∈ V, r x y → r y x → x = y) (size : ℕ) :
    ClassesUncut r size V := by
  by_contra h
  obtain ⟨k, q, hq, -, h₁, h₂⟩ := exists_neighbours_of_cut htotal htrans hl₀ h
  have heq := hanti _ (hl₀.perm.mem_iff.1 (List.getElem_mem (by omega)))
    _ (hl₀.perm.mem_iff.1 (List.getElem_mem hq)) h₁ h₂
  have := (hl₀.perm.nodup_iff.2 hV).getElem_inj_iff.1 heq
  omega

/-- Where a boundary falls between elements that compare equal, slices of different arrangements
show one of them twice. -/
theorem exists_repeated_of_cut (htotal : ∀ x y, r x y ∨ r y x)
    (htrans : ∀ x y z, r x y → r y z → r x z) (hsize : 0 < size) (hn : V.length ≤ n * size)
    {l₀ : List α} (hl₀ : Arranges r V l₀) (hcut : ¬ ClassesUncut r size V) :
    ∃ L : ℕ → List α, (∀ i, Arranges r V (L i)) ∧
      ¬ ((List.range n).flatMap fun i => slice size i (L i)).Nodup := by
  obtain ⟨k, q, hlen, hq, hyz, hzy⟩ := exists_neighbours_of_cut htotal htrans hl₀ hcut
  -- the neighbours are exchanged from slice `k` on
  have hsplit : l₀ = l₀.take q ++ l₀[q] :: l₀[q + 1] :: l₀.drop (q + 2) := by
    rw [← List.drop_eq_getElem_cons hlen, ← List.drop_eq_getElem_cons (by omega),
      List.take_append_drop]
  have hswap : Arranges r V (l₀.take q ++ l₀[q + 1] :: l₀[q] :: l₀.drop (q + 2)) :=
    (hsplit ▸ hl₀).swap hzy
  have hpos : 0 < k := Nat.pos_of_ne_zero fun h => by simp [h] at hq
  have hfirst : q / size = k - 1 := by
    rw [Nat.div_eq_iff hsize]
    have := Nat.sub_mul k 1 size
    omega
  have hsecond : (q + 1) / size = k := by
    rw [← hq, Nat.mul_div_cancel _ hsize]
  obtain ⟨L, hL⟩ : ∃ L : ℕ → List α, L = fun i =>
      if i < k then l₀ else l₀.take q ++ l₀[q + 1] :: l₀[q] :: l₀.drop (q + 2) := ⟨_, rfl⟩
  have hlow : L (q / size) = l₀ := by
    rw [hL, hfirst]
    exact if_pos (by omega)
  have hhigh : L ((q + 1) / size) = l₀.take q ++ l₀[q + 1] :: l₀[q] :: l₀.drop (q + 2) := by
    rw [hL, hsecond]
    exact if_neg (by omega)
  have htake : (l₀.take q).length = q := by
    rw [List.length_take]
    omega
  refine ⟨L, fun i => ?_, not_nodup_flatMap_slice (p := q) (q := q + 1) hsize ?_ ?_
    (List.getElem_of_eq hlow _) ?_ (by omega) ?_⟩
  · rw [hL]
    dsimp only
    split_ifs
    · exact hl₀
    · exact hswap
  · rw [hlow]
    omega
  · rw [hhigh, List.length_append, htake, List.length_cons, List.length_cons]
    omega
  · rw [List.getElem_of_eq hhigh, List.getElem_append_right (by omega)]
    simp [htake]
  · rw [hsecond]
    have := hl₀.perm.length_eq
    exact Nat.lt_of_mul_lt_mul_right (a := size) (by omega)

/-- Where no boundary falls between elements that compare equal, slices of different arrangements
hold every element once. -/
theorem ClassesUncut.perm_flatMap_slice (h : ClassesUncut r size V)
    (htotal : ∀ x y, r x y ∨ r y x) (hsize : 0 < size) (hV : V.Nodup)
    (hn : V.length ≤ n * size) {L : ℕ → List α} (hL : ∀ i, Arranges r V (L i)) :
    ((List.range n).flatMap fun i => slice size i (L i)).Perm V := by
  refine perm_flatMap_slice_of_index hsize hV (fun i => (hL i).perm)
    (f := fun x => before r V x / size) (fun i p hp => ?_) hn
  obtain ⟨hlow, hup⟩ := before_le_of_getElem htotal (hL i) hp
  refine Nat.le_antisymm (Nat.div_le_div_right hlow) (Nat.not_lt.1 fun hlt => ?_)
  have hmem : (L i)[p] ∈ V := (hL i).perm.mem_iff.1 (List.getElem_mem hp)
  have hbound := Nat.div_mul_le_self p size
  have hcut := h _ hmem (p / size) ((Nat.div_lt_iff_lt_mul hsize).1 hlt)
  omega

/-- **Slices of different arrangements hold every element once exactly when** no boundary falls
between elements that compare equal. -/
theorem perm_flatMap_slice_iff (htotal : ∀ x y, r x y ∨ r y x)
    (htrans : ∀ x y z, r x y → r y z → r x z) (hsize : 0 < size) (hV : V.Nodup)
    (hn : V.length ≤ n * size) {l₀ : List α} (hl₀ : Arranges r V l₀) :
    (∀ L : ℕ → List α, (∀ i, Arranges r V (L i)) →
      ((List.range n).flatMap fun i => slice size i (L i)).Perm V) ↔ ClassesUncut r size V := by
  constructor
  · intro h
    by_contra hcut
    obtain ⟨L, hL, hrepeated⟩ := exists_repeated_of_cut htotal htrans hsize hn hl₀ hcut
    exact hrepeated ((h L hL).nodup_iff.2 hV)
  · exact fun h L hL => h.perm_flatMap_slice htotal hsize hV hn hL

end Different

end Slices
