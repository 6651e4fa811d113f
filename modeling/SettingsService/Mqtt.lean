import SettingsService.Texts

/-!
# Topics and topic filters of MQTT

A topic is a text whose levels are separated by slashes.  A filter may hold wildcards: a level `+`
stands for any one level, a last level `#` for the level above it and all levels below.

Main definitions:

* `Mqtt.levels` — the levels of a topic or a filter;
* `Mqtt.Publishable` — a topic a message may be published to;
* `Mqtt.ValidFilter`, `Mqtt.Matches` — well-formed filters, and the topics they match;
* `Mqtt.Covers` — levels that come first in others, a level `+` standing for any.

Main results:

* `Mqtt.matches_hash_iff` — **what a filter that ends in `#` matches**: the topics whose first
  levels it covers;
* `Mqtt.covers_iff_isPrefix` — without wildcards, levels cover what they are a prefix of.
-/

set_option relaxedAutoImplicit false
set_option autoImplicit false

namespace Mqtt

/-! ### Levels -/

/-- The levels of a topic or a filter. -/
def levels (s : List Char) : List (List Char) := s.splitOn '/'

theorem levels_append (s t : List Char) : levels (s ++ '/' :: t) = levels s ++ levels t :=
  List.splitOn_append_cons_self s t

theorem levels_of_not_mem {s : List Char} (h : '/' ∉ s) : levels s = [s] :=
  List.splitOn_eq_singleton h

/-- The characters of a level are characters of the text. -/
theorem mem_of_mem_level {s l : List Char} (hl : l ∈ levels s) {c : Char} (hc : c ∈ l) : c ∈ s := by
  have hmem : c ∈ ['/'].intercalate (levels s) := Texts.mem_intercalate hl hc
  rwa [levels, List.intercalate_splitOn] at hmem

/-! ### Topics and filters -/

/-- A topic a message may be published to holds no wildcard and no U+0000. -/
def Publishable (topic : List Char) : Prop := ∀ c ∈ topic, c ≠ '+' ∧ c ≠ '#' ∧ c ≠ '\x00'

instance (topic : List Char) : Decidable (Publishable topic) :=
  List.decidableBAll (fun c => c ≠ '+' ∧ c ≠ '#' ∧ c ≠ '\x00') topic

theorem publishable_append {s t : List Char} :
    Publishable (s ++ t) ↔ Publishable s ∧ Publishable t :=
  List.forall_mem_append

/-- The part of a filter before its last level: a `+` is a level of its own, and there is no `#` and
no U+0000. -/
def ValidPart (part : List Char) : Prop :=
  ∀ l ∈ levels part, '\x00' ∉ l ∧ '#' ∉ l ∧ ('+' ∈ l → l = ['+'])

instance (part : List Char) : Decidable (ValidPart part) :=
  List.decidableBAll (fun l => '\x00' ∉ l ∧ '#' ∉ l ∧ ('+' ∈ l → l = ['+'])) (levels part)

theorem validPart_append {s t : List Char} :
    ValidPart (s ++ '/' :: t) ↔ ValidPart s ∧ ValidPart t := by
  rw [ValidPart, levels_append, List.forall_mem_append]
  rfl

theorem Publishable.validPart {s : List Char} (h : Publishable s) : ValidPart s := by
  intro l hl
  have hchar : ∀ c ∈ l, c ≠ '+' ∧ c ≠ '#' ∧ c ≠ '\x00' := fun c hc => h c (mem_of_mem_level hl hc)
  exact ⟨fun hc => (hchar _ hc).2.2 rfl, fun hc => (hchar _ hc).2.1 rfl,
    fun hc => absurd rfl (hchar _ hc).1⟩

/-- A filter: its last level may be `#` as well. -/
def ValidFilter (filter : List Char) : Prop :=
  (∀ l ∈ (levels filter).dropLast, '\x00' ∉ l ∧ '#' ∉ l ∧ ('+' ∈ l → l = ['+'])) ∧
    ∀ l ∈ (levels filter).getLast?, '\x00' ∉ l ∧ ('#' ∈ l → l = ['#']) ∧ ('+' ∈ l → l = ['+'])

/-- Do the levels of a filter match those of a topic? -/
def matchLevels : List (List Char) → List (List Char) → Bool
  | [], topic => topic.isEmpty
  | l :: _, [] => l = ['#']
  | l :: ls, l' :: ls' => l = ['#'] || (l = ['+'] || l = l') && matchLevels ls ls'

/-- **A filter matches a topic.**  A topic that starts with a dollar sign is not matched by a filter
that starts with a wildcard. -/
def Matches (filter topic : List Char) : Prop :=
  ValidFilter filter ∧
    (topic.head? = some '$' → filter.head? ≠ some '+' ∧ filter.head? ≠ some '#') ∧
    matchLevels (levels filter) (levels topic) = true

/-! ### Filters that end in `#` -/

/-- The levels come first in those of a topic; a level `+` stands for any. -/
def Covers : List (List Char) → List (List Char) → Prop
  | [], _ => True
  | _ :: _, [] => False
  | l :: ls, l' :: ls' => (l = ['+'] ∨ l = l') ∧ Covers ls ls'

instance decidableCovers : (ls topic : List (List Char)) → Decidable (Covers ls topic)
  | [], _ => inferInstanceAs (Decidable True)
  | _ :: _, [] => inferInstanceAs (Decidable False)
  | l :: ls, l' :: ls' =>
      have := decidableCovers ls ls'
      inferInstanceAs (Decidable ((l = ['+'] ∨ l = l') ∧ Covers ls ls'))

theorem covers_append_self (ls ls' : List (List Char)) : Covers ls (ls ++ ls') := by
  induction ls with
  | nil => trivial
  | cons l ls ih => exact ⟨.inr rfl, ih⟩

/-- Without wildcards, levels cover what they are a prefix of. -/
theorem covers_iff_isPrefix {ls topic : List (List Char)} (h : ['+'] ∉ ls) :
    Covers ls topic ↔ ls <+: topic := by
  induction ls generalizing topic with
  | nil => exact iff_of_true trivial List.nil_prefix
  | cons l ls ih =>
      rw [List.mem_cons, not_or] at h
      cases topic with
      | nil => exact iff_of_false id (by simp)
      | cons l' ls' =>
          rw [List.cons_prefix_cons, ← ih h.2, Covers, or_iff_right (Ne.symm h.1)]

theorem matchLevels_hash {ls : List (List Char)} (h : ['#'] ∉ ls) (topic : List (List Char)) :
    matchLevels (ls ++ [['#']]) topic = true ↔ Covers ls topic := by
  induction ls generalizing topic with
  | nil => cases topic <;> exact iff_of_true rfl trivial
  | cons l ls ih =>
      rw [List.mem_cons, not_or] at h
      have hl : l ≠ ['#'] := Ne.symm h.1
      cases topic with
      | nil => exact iff_of_false (by simpa [matchLevels] using hl) id
      | cons l' ls' =>
          rw [List.cons_append, matchLevels]
          simp only [hl, decide_false, Bool.false_or, Bool.and_eq_true, Bool.or_eq_true,
            decide_eq_true_eq, ih h.2, Covers]

theorem validFilter_hash {part : List Char} :
    ValidFilter (part ++ '/' :: ['#']) ↔ ValidPart part := by
  have hlevels : levels (part ++ '/' :: ['#']) = levels part ++ [['#']] := by
    rw [levels_append]
    rfl
  rw [ValidFilter, hlevels, List.dropLast_concat, List.getLast?_concat]
  refine and_iff_left fun l hl => ?_
  rw [← Option.some.inj hl]
  decide

/-- **A filter that ends in `#`** matches the topics whose first levels it covers. -/
theorem matches_hash_iff {part topic : List Char} (htopic : topic.head? ≠ some '$') :
    Matches (part ++ '/' :: ['#']) topic ↔
      ValidPart part ∧ Covers (levels part) (levels topic) := by
  rw [Matches, validFilter_hash, and_iff_right fun h => absurd h htopic]
  refine and_congr_right fun hvalid => ?_
  have hhash : ['#'] ∉ levels part := fun h => (hvalid _ h).2.1 List.mem_cons_self
  rw [levels_append]
  exact matchLevels_hash hhash _

end Mqtt
