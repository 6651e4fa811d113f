import Mathlib.Data.List.Pairwise
import Mathlib.Data.List.Lookmap
import Mathlib.Data.List.Nodup
import Mathlib.Order.Lattice
import Mathlib.Order.Defs.LinearOrder
import Mathlib.Tactic.Common

/-!
# Ordered maps as sorted association lists

A finite map over a linearly ordered key type is kept as the list of its entries in strictly
increasing key order.  That representation is canonical: two sorted lists with the same lookups
are equal, so equality of maps is equality of lists.

Main definitions:

* `OrderedMap.Sorted` — the keys are strictly increasing;
* `OrderedMap.insert`, `OrderedMap.remove` — setting and removing a key; lookup is `List.lookup`;
* `OrderedMap.updateAll` — going through the entries of one map and setting or removing each key in
  another.

Main results:

* `OrderedMap.lookup_insert`, `OrderedMap.lookup_remove` — what the operations do to lookups;
* `OrderedMap.Sorted.insert`, `OrderedMap.Sorted.remove` — they keep the order;
* `OrderedMap.ext_lookup` — **extensionality**: sorted lists with the same lookups are equal;
* `OrderedMap.lookup_updateAll` — a loop over a sorted map acts on each key on its own.
-/

set_option relaxedAutoImplicit false
set_option autoImplicit false

namespace OrderedMap

variable {K V : Type} [LinearOrder K]

/-- The keys are strictly increasing. -/
def Sorted (m : List (K × V)) : Prop := (m.map Prod.fst).Pairwise (· < ·)

instance (m : List (K × V)) : Decidable (Sorted m) :=
  inferInstanceAs (Decidable ((m.map Prod.fst).Pairwise (· < ·)))

/-- Set the key `k` to `v`, in its place in the order. -/
def insert (k : K) (v : V) : List (K × V) → List (K × V)
  | [] => [(k, v)]
  | (k', v') :: m =>
      if k < k' then (k, v) :: (k', v') :: m
      else if k = k' then (k, v) :: m
      else (k', v') :: insert k v m

/-- Remove the key `k`. -/
def remove (k : K) (m : List (K × V)) : List (K × V) := m.filter fun e => e.1 ≠ k

@[simp] theorem sorted_nil : Sorted ([] : List (K × V)) := List.Pairwise.nil

theorem sorted_cons {k : K} {v : V} {m : List (K × V)} :
    Sorted ((k, v) :: m) ↔ (∀ e ∈ m, k < e.1) ∧ Sorted m := by
  simp [Sorted]

theorem Sorted.tail {e : K × V} {m : List (K × V)} (h : Sorted (e :: m)) : Sorted m :=
  (sorted_cons.1 h).2

/-! ### Lookups -/

/-- A key below all keys of the map is not in it. -/
theorem lookup_eq_none_of_lt {k : K} {m : List (K × V)} (h : ∀ e ∈ m, k < e.1) :
    m.lookup k = none := by
  rw [List.lookup_eq_none_iff]
  intro e he
  simpa using (h e he).ne

theorem lookup_cons_self (k : K) (v : V) (m : List (K × V)) :
    ((k, v) :: m).lookup k = some v := List.lookup_cons_self

theorem lookup_cons_ne {k k' : K} (hk : k ≠ k') (v : V) (m : List (K × V)) :
    ((k', v) :: m).lookup k = m.lookup k := by
  simp [List.lookup_cons, beq_eq_false_iff_ne.2 hk]

/-- Looking up after an insertion. -/
theorem lookup_insert (k k' : K) (v : V) (m : List (K × V)) :
    (insert k v m).lookup k' = if k' = k then some v else m.lookup k' := by
  induction m with
  | nil =>
      rcases eq_or_ne k' k with rfl | hk
      · simp [insert]
      · rw [insert, lookup_cons_ne hk, if_neg hk]
  | cons e m ih =>
      obtain ⟨k₁, v₁⟩ := e
      rw [insert]
      split_ifs with h₁ h₂ h₃ h₄ h₅
      · rw [h₂, lookup_cons_self]
      · rw [lookup_cons_ne h₂]
      · rw [h₄, lookup_cons_self]
      · rw [lookup_cons_ne h₄, lookup_cons_ne (fun h => h₄ (h.trans h₃.symm))]
      · subst h₅
        rw [lookup_cons_ne h₃, ih, if_pos rfl]
      · rcases eq_or_ne k' k₁ with rfl | h₆
        · rw [lookup_cons_self, lookup_cons_self]
        · rw [lookup_cons_ne h₆, lookup_cons_ne h₆, ih, if_neg h₅]

/-- Looking up after a removal. -/
theorem lookup_remove (k k' : K) (m : List (K × V)) :
    (remove k m).lookup k' = if k' = k then none else m.lookup k' := by
  induction m with
  | nil => simp [remove]
  | cons e m ih =>
      obtain ⟨k₁, v₁⟩ := e
      rw [remove] at ih
      rcases eq_or_ne k₁ k with rfl | h₁
      · rw [remove, List.filter_cons_of_neg (by simp), ih]
        split_ifs with h₂
        · rfl
        · rw [lookup_cons_ne h₂]
      · rw [remove, List.filter_cons_of_pos (by simpa using h₁)]
        rcases eq_or_ne k' k₁ with rfl | h₂
        · rw [lookup_cons_self, lookup_cons_self, if_neg h₁]
        · rw [lookup_cons_ne h₂, lookup_cons_ne h₂, ih]

/-- An entry of a sorted map is found under its key. -/
theorem lookup_of_mem {m : List (K × V)} (hm : Sorted m) {k : K} {v : V} (h : (k, v) ∈ m) :
    m.lookup k = some v := by
  induction m with
  | nil => simp at h
  | cons e m ih =>
      obtain ⟨k₁, v₁⟩ := e
      obtain ⟨hlt, hs⟩ := sorted_cons.1 hm
      rcases List.mem_cons.1 h with h | h
      · obtain ⟨rfl, rfl⟩ := Prod.mk.inj h
        exact lookup_cons_self ..
      · rw [lookup_cons_ne (hlt _ h).ne' , ih hs h]

/-- What is found under a key is an entry. -/
theorem mem_of_lookup {m : List (K × V)} {k : K} {v : V} (h : m.lookup k = some v) :
    (k, v) ∈ m := by
  induction m with
  | nil => simp at h
  | cons e m ih =>
      obtain ⟨k₁, v₁⟩ := e
      rcases eq_or_ne k k₁ with rfl | h₁
      · rw [lookup_cons_self, Option.some.injEq] at h
        exact h ▸ List.mem_cons_self ..
      · rw [lookup_cons_ne h₁] at h
        exact List.mem_cons_of_mem _ (ih h)

/-- Looking up in a map whose values were replaced. -/
theorem lookup_map {W : Type} (f : K × V → W) (m : List (K × V)) (k : K) :
    (m.map fun e => (e.1, f e)).lookup k = (m.lookup k).map fun v => f (k, v) := by
  induction m with
  | nil => rfl
  | cons e m ih =>
      obtain ⟨k₁, v₁⟩ := e
      rcases eq_or_ne k k₁ with rfl | hk
      · rw [List.map_cons, lookup_cons_self, lookup_cons_self, Option.map_some]
      · rw [List.map_cons, lookup_cons_ne hk, lookup_cons_ne hk, ih]

/-! ### The operations keep the order -/

theorem Sorted.map {W : Type} {m : List (K × V)} (hm : Sorted m) (f : K × V → W) :
    Sorted (m.map fun e => (e.1, f e)) := by
  rw [Sorted, List.map_map]
  exact hm

theorem mem_insert {k : K} {v : V} {m : List (K × V)} {e : K × V} (h : e ∈ insert k v m) :
    e = (k, v) ∨ e ∈ m := by
  induction m with
  | nil => exact Or.inl (by simpa [insert] using h)
  | cons e' m ih =>
      rw [insert] at h
      split_ifs at h with h₁ h₂
      · exact List.mem_cons.1 h
      · rcases List.mem_cons.1 h with h | h
        · exact Or.inl h
        · exact Or.inr (List.mem_cons_of_mem _ h)
      · rcases List.mem_cons.1 h with rfl | h
        · exact Or.inr (List.mem_cons_self ..)
        · exact (ih h).imp_right (List.mem_cons_of_mem _)

theorem Sorted.insert {m : List (K × V)} (hm : Sorted m) (k : K) (v : V) :
    Sorted (insert k v m) := by
  induction m with
  | nil => exact sorted_cons.2 ⟨by simp, sorted_nil⟩
  | cons e m ih =>
      obtain ⟨k₁, v₁⟩ := e
      obtain ⟨hlt, hs⟩ := sorted_cons.1 hm
      rw [OrderedMap.insert]
      split_ifs with h₁ h₂
      · refine sorted_cons.2 ⟨fun e he => ?_, hm⟩
        rcases List.mem_cons.1 he with rfl | he
        · exact h₁
        · exact h₁.trans (hlt e he)
      · subst h₂
        exact sorted_cons.2 ⟨hlt, hs⟩
      · refine sorted_cons.2 ⟨fun e he => ?_, ih hs⟩
        rcases mem_insert he with rfl | he
        · exact lt_of_le_of_ne (not_lt.1 h₁) (Ne.symm h₂)
        · exact hlt e he

theorem Sorted.remove {m : List (K × V)} (hm : Sorted m) (k : K) : Sorted (remove k m) :=
  List.Pairwise.sublist (List.Sublist.map _ List.filter_sublist) hm

/-! ### Extensionality -/

/-- **Extensionality**: sorted maps with the same lookups are equal. -/
theorem ext_lookup {m m' : List (K × V)} (hm : Sorted m) (hm' : Sorted m')
    (h : ∀ k, m.lookup k = m'.lookup k) : m = m' := by
  induction m generalizing m' with
  | nil =>
      cases m' with
      | nil => rfl
      | cons e m' => exact absurd ((h e.1).trans (lookup_cons_self ..)) (by simp)
  | cons e m ih =>
      obtain ⟨k, v⟩ := e
      cases m' with
      | nil => exact absurd ((h k).symm.trans (lookup_cons_self ..)) (by simp)
      | cons e' m' =>
          obtain ⟨k', v'⟩ := e'
          obtain ⟨hlt, hs⟩ := sorted_cons.1 hm
          obtain ⟨hlt', hs'⟩ := sorted_cons.1 hm'
          -- the least keys agree: either one would be missing from the other map
          have hk : k = k' := by
            rcases lt_trichotomy k k' with hkk | hkk | hkk
            · have hn : ((k', v') :: m').lookup k = none := by
                rw [lookup_cons_ne hkk.ne]
                exact lookup_eq_none_of_lt fun e he => hkk.trans (hlt' e he)
              rw [← h k, lookup_cons_self] at hn
              exact absurd hn (by simp)
            · exact hkk
            · have hn : ((k, v) :: m).lookup k' = none := by
                rw [lookup_cons_ne hkk.ne]
                exact lookup_eq_none_of_lt fun e he => hkk.trans (hlt e he)
              rw [h k', lookup_cons_self] at hn
              exact absurd hn (by simp)
          subst hk
          have hv : v = v' := by
            have := h k
            rwa [lookup_cons_self, lookup_cons_self, Option.some.injEq] at this
          subst hv
          rw [ih hs hs' fun k' => ?_]
          rcases eq_or_ne k' k with rfl | hne
          · rw [lookup_eq_none_of_lt hlt, lookup_eq_none_of_lt hlt']
          · have := h k'
            rwa [lookup_cons_ne hne, lookup_cons_ne hne] at this

/-! ### Loops over a map -/

/-- Set the key `k`, or remove it. -/
def alter (k : K) : Option V → List (K × V) → List (K × V)
  | some v, m => insert k v m
  | none, m => remove k m

theorem lookup_alter (k k' : K) (o : Option V) (m : List (K × V)) :
    (alter k o m).lookup k' = if k' = k then o else m.lookup k' := by
  cases o with
  | some v => exact lookup_insert k k' v m
  | none => exact lookup_remove k k' m

theorem Sorted.alter {m : List (K × V)} (hm : Sorted m) (k : K) (o : Option V) :
    Sorted (alter k o m) := by
  cases o with
  | some v => exact hm.insert k v
  | none => exact hm.remove k

/-- Go through the entries `(k, w)` of a map and replace what is under `k` by what `f` makes of it
and of `w`. -/
def updateAll {W : Type} (f : Option V → W → Option V) :
    List (K × V) → List (K × W) → List (K × V)
  | m, [] => m
  | m, (k, w) :: p => updateAll f (alter k (f (m.lookup k) w) m) p

theorem Sorted.updateAll {W : Type} (f : Option V → W → Option V) {m : List (K × V)}
    (hm : Sorted m) (p : List (K × W)) : Sorted (updateAll f m p) := by
  induction p generalizing m with
  | nil => exact hm
  | cons e p ih => exact ih (hm.alter ..)

/-- **A loop over a sorted map acts on each key on its own.** -/
theorem lookup_updateAll {W : Type} (f : Option V → W → Option V) {p : List (K × W)}
    (hp : Sorted p) (m : List (K × V)) (k : K) :
    (updateAll f m p).lookup k = (p.lookup k).elim (m.lookup k) (f (m.lookup k)) := by
  induction p generalizing m with
  | nil => rfl
  | cons e p ih =>
      obtain ⟨k₁, w₁⟩ := e
      obtain ⟨hlt, hs⟩ := sorted_cons.1 hp
      rw [updateAll, ih hs, lookup_alter]
      rcases eq_or_ne k k₁ with rfl | hk
      · -- the keys that follow are larger, so `k` is not touched again
        rw [lookup_eq_none_of_lt hlt, lookup_cons_self, if_pos rfl]
        rfl
      · rw [lookup_cons_ne hk, if_neg hk]

/-- An entry of the result was there before, or its key is one the loop went through. -/
theorem mem_updateAll {W : Type} {f : Option V → W → Option V} {m : List (K × V)}
    {p : List (K × W)} (hm : Sorted m) (hp : Sorted p) {k : K} {v : V}
    (h : (k, v) ∈ updateAll f m p) :
    (k, v) ∈ m ∨ ∃ w, (k, w) ∈ p ∧ f (m.lookup k) w = some v := by
  have hl := lookup_of_mem (hm.updateAll f p) h
  rw [lookup_updateAll f hp] at hl
  cases hw : p.lookup k with
  | none => exact Or.inl (mem_of_lookup (by rwa [hw] at hl))
  | some w => exact Or.inr ⟨w, mem_of_lookup hw, by rwa [hw] at hl⟩

end OrderedMap
