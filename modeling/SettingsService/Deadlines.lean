import Mathlib.Data.List.Induction
import Mathlib.Logic.Function.Basic
import Mathlib.Order.Lattice
import Mathlib.Tactic.SplitIfs

/-!
# Deadlines, and stores that forget them once they have passed

A full record keeps for every key the deadline given to it last.  A store may drop the entry of a
key whose deadline has passed.  Nobody who asks whether a key is live, at times that never go back,
can tell the two apart.

Main definitions:

* `Deadlines.record` — the deadline given to each key last in a history;
* `Deadlines.live` — the key has a deadline and it has not passed;
* `Deadlines.Prunes` — a store is the full record less some entries whose deadline has passed.

Main results:

* `Deadlines.record_eq_some_iff` — what the full record holds was given last;
* `Deadlines.Prunes.live_eq` — **pruning is unobservable**: the store and the full record give the
  same answer;
* `Deadlines.Prunes.insert`, `Deadlines.Prunes.remove` — a new deadline and the removal of a passed
  one keep the relation.
-/

set_option relaxedAutoImplicit false
set_option autoImplicit false

namespace Deadlines

variable {K T E : Type}

/-! ### The full record -/

section Record

variable [DecidableEq K] (given : E → Option (K × T))

/-- The deadline given to a key last, when `given` says which deadline an event gives to which
key. -/
def record (hist : List E) : K → Option T :=
  hist.foldl (fun m e => match given e with
    | some (k, d) => Function.update m k (some d)
    | none => m) fun _ => none

theorem record_snoc (hist : List E) (e : E) :
    record given (hist ++ [e]) = match given e with
      | some (k, d) => Function.update (record given hist) k (some d)
      | none => record given hist := by
  rw [record, List.foldl_append]
  rfl

theorem record_snoc_eq {hist : List E} {e : E} {k : K} {d : T} (he : given e = some (k, d)) :
    record given (hist ++ [e]) k = some d := by
  rw [record_snoc, he]
  exact Function.update_self ..

theorem record_snoc_of_ne {hist : List E} {e : E} {k : K} (he : ∀ d, given e ≠ some (k, d)) :
    record given (hist ++ [e]) k = record given hist k := by
  rw [record_snoc]
  cases hg : given e with
  | none => rfl
  | some kd =>
      obtain ⟨k', d⟩ := kd
      refine Function.update_of_ne ?_ ..
      rintro rfl
      exact he d hg

/-- What the record holds for a key is of what the events give to the key, and of nothing else. -/
theorem record_congr {given' : E → Option (K × T)} {hist : List E} {k : K}
    (h : ∀ e ∈ hist, ∀ d, given e = some (k, d) ↔ given' e = some (k, d)) :
    record given hist k = record given' hist k := by
  induction hist using List.reverseRecOn with
  | nil => rfl
  | append_singleton hist e ih =>
      have he := h e (by simp)
      by_cases hd : ∃ d, given e = some (k, d)
      · obtain ⟨d, hd⟩ := hd
        rw [record_snoc_eq given hd, record_snoc_eq given' ((he d).1 hd)]
      · have hd' : ∀ d, given' e ≠ some (k, d) := fun d hd' => hd ⟨d, (he d).2 hd'⟩
        rw [record_snoc_of_ne given fun d hd' => hd ⟨d, hd'⟩, record_snoc_of_ne given' hd']
        exact ih fun e' he' => h e' (List.mem_append_left _ he')

/-- The event at position `n` gave the key its deadline `d`, and no later one gave it another. -/
def LastGiven (hist : List E) (k : K) (n : ℕ) (d : T) : Prop :=
  (∃ e, hist[n]? = some e ∧ given e = some (k, d)) ∧
    ∀ (n' : ℕ) (e' : E) (d' : T), n < n' → hist[n']? = some e' → given e' ≠ some (k, d')

omit [DecidableEq K] in
/-- An event that gives the key a deadline is the last to do so. -/
theorem lastGiven_snoc_self {hist : List E} {e : E} {k : K} {d d' : T} {n : ℕ}
    (he : given e = some (k, d)) :
    LastGiven given (hist ++ [e]) k n d' ↔ n = hist.length ∧ d' = d := by
  constructor
  · rintro ⟨⟨e', he', hd'⟩, hlast⟩
    rcases Nat.lt_or_ge n hist.length with hlt | hge
    · exact absurd he (hlast hist.length e d hlt (by simp))
    · rw [List.getElem?_append_right hge, List.getElem?_singleton] at he'
      split_ifs at he' with hn
      rw [← Option.some.inj he', he] at hd'
      exact ⟨by omega, (congrArg Prod.snd (Option.some.inj hd')).symm⟩
  · rintro ⟨rfl, rfl⟩
    refine ⟨⟨e, by simp, he⟩, fun n' e' _ hn' he' => ?_⟩
    have := (List.getElem?_eq_some_iff.1 he').1
    rw [List.length_append, List.length_singleton] at this
    omega

omit [DecidableEq K] in
/-- An event that gives the key nothing does not matter. -/
theorem lastGiven_snoc_of_ne {hist : List E} {e : E} {k : K} {d : T} {n : ℕ}
    (he : ∀ d, given e ≠ some (k, d)) :
    LastGiven given (hist ++ [e]) k n d ↔ LastGiven given hist k n d := by
  -- what gives the key something at a position of the longer history is at the same one before
  have hpast : ∀ {n : ℕ} {e' : E} {d : T}, given e' = some (k, d) →
      ((hist ++ [e])[n]? = some e' ↔ hist[n]? = some e') := by
    intro n e' d hd
    rcases Nat.lt_or_ge n hist.length with hlt | hge
    · rw [List.getElem?_append_left hlt]
    · rw [List.getElem?_append_right hge, List.getElem?_eq_none hge, List.getElem?_singleton]
      refine iff_of_false (fun h => ?_) (by simp)
      split_ifs at h
      exact he d (Option.some.inj h ▸ hd)
  constructor
  · rintro ⟨⟨e', he', hd⟩, hlast⟩
    exact ⟨⟨e', (hpast hd).1 he', hd⟩, fun n' e'' d' hn' he'' hd' =>
      hlast n' e'' d' hn' ((hpast hd').2 he'') hd'⟩
  · rintro ⟨⟨e', he', hd⟩, hlast⟩
    exact ⟨⟨e', (hpast hd).2 he', hd⟩, fun n' e'' d' hn' he'' hd' =>
      hlast n' e'' d' hn' ((hpast hd').1 he'') hd'⟩

/-- What the full record holds was given last. -/
theorem record_eq_some_iff {hist : List E} {k : K} {d : T} :
    record given hist k = some d ↔ ∃ n, LastGiven given hist k n d := by
  induction hist using List.reverseRecOn generalizing d with
  | nil => simp [record, LastGiven]
  | append_singleton hist e ih =>
      by_cases he : ∃ d', given e = some (k, d')
      · obtain ⟨d', hd'⟩ := he
        rw [record_snoc_eq given hd', Option.some.injEq]
        constructor
        · rintro rfl
          exact ⟨hist.length, (lastGiven_snoc_self given hd').2 ⟨rfl, rfl⟩⟩
        · rintro ⟨n, hn⟩
          exact ((lastGiven_snoc_self given hd').1 hn).2.symm
      · have hne : ∀ d', given e ≠ some (k, d') := fun d' hd' => he ⟨d', hd'⟩
        rw [record_snoc_of_ne given hne, ih]
        exact exists_congr fun n => (lastGiven_snoc_of_ne given hne).symm

/-- A key that was given a deadline has one. -/
theorem exists_record {hist : List E} {n : ℕ} {e : E} {k : K} {d : T} (he : hist[n]? = some e)
    (hd : given e = some (k, d)) : ∃ d', record given hist k = some d' := by
  induction hist using List.reverseRecOn with
  | nil => simp at he
  | append_singleton hist e' ih =>
      by_cases he' : ∃ d', given e' = some (k, d')
      · obtain ⟨d', hd'⟩ := he'
        exact ⟨d', record_snoc_eq given hd'⟩
      · have hne : ∀ d', given e' ≠ some (k, d') := fun d' hd' => he' ⟨d', hd'⟩
        rw [record_snoc_of_ne given hne]
        rcases Nat.lt_or_ge n hist.length with hlt | hge
        · exact ih (by rwa [List.getElem?_append_left hlt] at he)
        · rw [List.getElem?_append_right hge, List.getElem?_singleton] at he
          split_ifs at he
          exact absurd (Option.some.inj he ▸ hd) (hne d)

end Record

variable [LinearOrder T]

/-! ### Keys that are live -/

/-- The key has a deadline and it is still ahead. -/
def live (m : K → Option T) (k : K) (now : T) : Bool :=
  match m k with
  | some d => now < d
  | none => false

theorem live_eq_true_iff {m : K → Option T} {k : K} {now : T} :
    live m k now = true ↔ ∃ d, m k = some d ∧ now < d := by
  rw [live]
  cases m k with
  | none => simp
  | some d => simp

/-- A key that is not live at a time is not live later. -/
theorem live_anti {m : K → Option T} {k : K} {s t : T} (hst : s ≤ t) (h : live m k t = true) :
    live m k s = true := by
  obtain ⟨d, hd, ht⟩ := live_eq_true_iff.1 h
  exact live_eq_true_iff.2 ⟨d, hd, lt_of_le_of_lt hst ht⟩

/-- `m` is `full` less some entries whose deadline has passed. -/
def Prunes (m full : K → Option T) (now : T) : Prop :=
  ∀ k, m k = full k ∨ m k = none ∧ live full k now = false

namespace Prunes

variable {m full : K → Option T} {now now' : T}

/-- The empty store is the empty record. -/
theorem refl (m : K → Option T) (now : T) : Prunes m m now := fun _ => .inl rfl

/-- What has passed has passed later, too. -/
theorem mono (h : Prunes m full now) (hnow : now ≤ now') : Prunes m full now' := by
  intro k
  refine (h k).imp id fun ⟨hm, hlive⟩ => ⟨hm, ?_⟩
  rw [Bool.eq_false_iff] at hlive ⊢
  exact fun hlive' => hlive (live_anti hnow hlive')

/-- **Pruning is unobservable.** -/
theorem live_eq (h : Prunes m full now) (k : K) : live m k now = live full k now := by
  rcases h k with hk | ⟨hk, hlive⟩
  · rw [live, live, hk]
  · rw [hlive, live, hk]

variable [DecidableEq K]

/-- A new deadline goes to both. -/
theorem insert (h : Prunes m full now) (k : K) (d : T) :
    Prunes (Function.update m k (some d)) (Function.update full k (some d)) now := by
  intro j
  rcases eq_or_ne j k with rfl | hj
  · exact .inl (by simp)
  · simpa only [live, Function.update_of_ne hj] using h j

/-- An entry that is not live may go. -/
theorem remove (h : Prunes m full now) {k : K} (hk : live full k now = false) :
    Prunes (Function.update m k none) full now := by
  intro j
  rcases eq_or_ne j k with rfl | hj
  · exact .inr ⟨by simp, hk⟩
  · simpa only [Function.update_of_ne hj] using h j

end Prunes

end Deadlines
