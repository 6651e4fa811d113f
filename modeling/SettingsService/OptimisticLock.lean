import Mathlib.Logic.Function.Basic
import Mathlib.Data.Int.Notation
import Mathlib.Data.List.Count
import Mathlib.Data.List.Induction
import Mathlib.Tactic.Common
import Mathlib.Tactic.SplitIfs

/-!
# Optimistic locking

A store keeps a version and a content under each key.  A change *creates* a key at version `1`,
*replaces* the content under a key and advances the version, or *removes* a key; a replacement or
removal presents a version and takes effect only where the key has exactly that version.

A key that was removed can be created again, and its versions then start over.  Between one
creation and the next, the content under a key is called an *incarnation*: within one incarnation
a version names one content, across incarnations it does not.

Main definitions:

* `OptimisticLock.Store`, `OptimisticLock.Change` — stores and changes;
* `OptimisticLock.Effective` — a change takes effect;
* `OptimisticLock.Run` — a sequence of changes that took effect one after the other.

Main results:

* `OptimisticLock.Run.version_eq` — **a version counts the replacements since the creation**;
* `OptimisticLock.Run.exists_create_between` — **no version is used up twice**: two changes of one
  key that present the same version have a creation of that key between them;
* `OptimisticLock.Run.content_eq` — with no creation in between, the same version is the same
  content, and nothing happened to the key;
* `OptimisticLock.Run.content_mem` — every content was there at the start or was put there.
-/

set_option relaxedAutoImplicit false
set_option autoImplicit false

namespace OptimisticLock

variable {K V : Type} [DecidableEq K]

/-- The version and the content under each key. -/
abbrev Store (K V : Type) : Type := K → Option (ℤ × V)

/-- A change of one key. -/
inductive Change (K V : Type) : Type
  | create (k : K) (v : V)
  | replace (k : K) (e : ℤ) (v : V)
  | remove (k : K) (e : ℤ)

namespace Change

/-- The key a change is about. -/
def key : Change K V → K
  | create k _ => k
  | replace k _ _ => k
  | remove k _ => k

/-- The version a replacement or removal presents. -/
def presents : Change K V → Option ℤ
  | create _ _ => none
  | replace _ e _ => some e
  | remove _ e => some e

/-- The content a change puts under its key. -/
def content : Change K V → Option V
  | create _ v => some v
  | replace _ _ v => some v
  | remove _ _ => none

/-- The version a change gives its key. -/
def gives : Change K V → Option ℤ
  | create _ _ => some 1
  | replace _ e _ => some (e + 1)
  | remove _ _ => none

/-- Is the change a creation of the key? -/
def creates (k : K) : Change K V → Bool
  | create k' _ => decide (k' = k)
  | _ => false

/-- Is the change a replacement of the key? -/
def replaces (k : K) : Change K V → Bool
  | replace k' _ _ => decide (k' = k)
  | _ => false

end Change

/-- **A change takes effect.** -/
inductive Effective (S : Store K V) : Change K V → Store K V → Prop
  | create {k : K} {v : V} (h : S k = none) :
      Effective S (.create k v) (Function.update S k (some (1, v)))
  | replace {k : K} {e : ℤ} {v w : V} (h : S k = some (e, w)) :
      Effective S (.replace k e v) (Function.update S k (some (e + 1, v)))
  | remove {k : K} {e : ℤ} {w : V} (h : S k = some (e, w)) :
      Effective S (.remove k e) (Function.update S k none)

/-- A change leaves the other keys alone. -/
theorem Effective.of_ne {S S' : Store K V} {c : Change K V} (h : Effective S c S') {k : K}
    (hk : c.key ≠ k) : S' k = S k := by
  cases h <;> exact Function.update_of_ne (Ne.symm hk) _ _

/-- A replacement or removal finds the key at the version it presents. -/
theorem Effective.found {S S' : Store K V} {c : Change K V} (h : Effective S c S') {e : ℤ}
    (he : c.presents = some e) : ∃ w, S c.key = some (e, w) := by
  cases h with
  | create h => simp [Change.presents] at he
  | replace h => exact ⟨_, by rw [Change.key, h, Option.some.inj he]⟩
  | remove h => exact ⟨_, by rw [Change.key, h, Option.some.inj he]⟩

/-- The content a change puts under its key is there afterwards. -/
theorem Effective.of_content {S S' : Store K V} {c : Change K V} (h : Effective S c S') {v : V}
    (hv : c.content = some v) : ∃ n, S' c.key = some (n, v) := by
  cases h with
  | create h => exact ⟨1, by rw [Change.key, Function.update_self, Option.some.inj hv]⟩
  | @replace k e w w' h =>
      exact ⟨e + 1, by rw [Change.key, Function.update_self, Option.some.inj hv]⟩
  | remove h => simp [Change.content] at hv

/-- What is under the key of a change afterwards is the content of the change. -/
theorem Effective.content_eq {S S' : Store K V} {c : Change K V} (h : Effective S c S') {n : ℤ}
    {v : V} (hv : S' c.key = some (n, v)) : c.content = some v := by
  cases h with
  | create h =>
      rw [Change.key, Function.update_self, Option.some.injEq, Prod.mk.injEq] at hv
      rw [Change.content, hv.2]
  | replace h =>
      rw [Change.key, Function.update_self, Option.some.injEq, Prod.mk.injEq] at hv
      rw [Change.content, hv.2]
  | remove h => simp [Change.key] at hv

/-- A change that takes effect changes the store. -/
theorem Effective.ne {S S' : Store K V} {c : Change K V} (h : Effective S c S') : S' ≠ S := by
  intro heq
  have hk := congrFun heq c.key
  cases h with
  | create h => simp [Change.key, h] at hk
  | replace h =>
      rw [Change.key, Function.update_self, h, Option.some.injEq, Prod.mk.injEq] at hk
      omega
  | remove h => simp [Change.key, h] at hk

/-- A sequence of changes that took effect one after the other, starting in `S₀`. -/
inductive Run (S₀ : Store K V) : List (Change K V) → Store K V → Prop
  | nil : Run S₀ [] S₀
  | snoc {cs : List (Change K V)} {S S' : Store K V} {c : Change K V} :
      Run S₀ cs S → Effective S c S' → Run S₀ (cs ++ [c]) S'

namespace Run

theorem nil_iff {S₀ S : Store K V} : Run S₀ [] S ↔ S = S₀ := by
  constructor
  · intro h
    generalize hl : ([] : List (Change K V)) = l at h
    cases h with
    | nil => rfl
    | snoc h hc => simp at hl
  · rintro rfl
    exact .nil

theorem snoc_iff {S₀ S : Store K V} {cs : List (Change K V)} {c : Change K V} :
    Run S₀ (cs ++ [c]) S ↔ ∃ S₁, Run S₀ cs S₁ ∧ Effective S₁ c S := by
  constructor
  · intro h
    generalize hl : cs ++ [c] = l at h
    cases h with
    | nil => simp at hl
    | snoc h hc =>
        obtain ⟨hcs, hcc⟩ := List.append_inj' hl rfl
        rw [List.singleton_inj] at hcc
        subst hcs hcc
        exact ⟨_, h, hc⟩
  · rintro ⟨S₁, h, hc⟩
    exact .snoc h hc

/-- A run of two sequences is a run of the one and then of the other. -/
theorem append_iff {S₀ S : Store K V} {cs ds : List (Change K V)} :
    Run S₀ (cs ++ ds) S ↔ ∃ S₁, Run S₀ cs S₁ ∧ Run S₁ ds S := by
  induction ds using List.reverseRecOn generalizing S with
  | nil => simp [nil_iff]
  | append_singleton ds d ih =>
      rw [← List.append_assoc, snoc_iff]
      constructor
      · rintro ⟨S₂, h, hd⟩
        obtain ⟨S₁, h₁, h₂⟩ := ih.1 h
        exact ⟨S₁, h₁, .snoc h₂ hd⟩
      · rintro ⟨S₁, h₁, h₂⟩
        obtain ⟨S₂, h₂, hd⟩ := snoc_iff.1 h₂
        exact ⟨S₂, ih.2 ⟨S₁, h₁, h₂⟩, hd⟩

/-- The first change of a run. -/
theorem cons_iff {S₀ S : Store K V} {c : Change K V} {cs : List (Change K V)} :
    Run S₀ (c :: cs) S ↔ ∃ S₁, Effective S₀ c S₁ ∧ Run S₁ cs S := by
  rw [← List.singleton_append, append_iff]
  refine exists_congr fun S₁ => and_congr_left fun _ => ?_
  rw [← List.nil_append [c], snoc_iff]
  simp [nil_iff]

/-- What is under a key was there at the start or was put there by a change. -/
theorem content_mem {S S' : Store K V} {cs : List (Change K V)} (h : Run S cs S') {k : K} {n : ℤ}
    {v : V} (hv : S' k = some (n, v)) : S k = some (n, v) ∨ ∃ c ∈ cs, c.content = some v := by
  induction h generalizing n v with
  | nil => exact .inl hv
  | @snoc cs S₁ S₂ c _ hc ih =>
      rcases ne_or_eq c.key k with hne | rfl
      · refine (ih (hc.of_ne hne ▸ hv)).imp_right fun ⟨d, hd, hdv⟩ => ?_
        exact ⟨d, List.mem_append_left _ hd, hdv⟩
      · exact .inr ⟨c, by simp, hc.content_eq hv⟩

/-- **With no creation of the key, versions only grow.**  Where the version is the same the content
is the same and nothing happened to the key; where it grew, the old version was presented. -/
theorem mono {S S' : Store K V} {cs : List (Change K V)} (h : Run S cs S') {k : K}
    (hk : ∀ c ∈ cs, c.creates k = false) {n' : ℤ} {v' : V} (hv : S' k = some (n', v')) :
    ∃ n v, S k = some (n, v) ∧ n ≤ n' ∧ (n = n' → v = v' ∧ ∀ c ∈ cs, c.key ≠ k) ∧
      (n < n' → ∃ c ∈ cs, c.presents = some n) := by
  induction h generalizing n' v' with
  | nil => exact ⟨n', v', hv, by omega, by simp, by omega⟩
  | @snoc cs S₁ S₂ c _ hc ih =>
      have hcs : ∀ c ∈ cs, c.creates k = false := fun c hm => hk c (List.mem_append_left _ hm)
      have hck : c.creates k = false := hk c (by simp)
      rcases ne_or_eq c.key k with hne | rfl
      · obtain ⟨n, v, hn, hle, heq, hlt⟩ := ih hcs (hc.of_ne hne ▸ hv)
        refine ⟨n, v, hn, hle, fun h => ⟨(heq h).1, fun d hd => ?_⟩, fun h => ?_⟩
        · rcases List.mem_append.1 hd with hd | hd
          · exact (heq h).2 d hd
          · exact List.mem_singleton.1 hd ▸ hne
        · obtain ⟨d, hd, hdn⟩ := hlt h
          exact ⟨d, List.mem_append_left _ hd, hdn⟩
      · cases hc with
        | create h => simp [Change.creates, Change.key] at hck
        | remove h => simp [Change.key] at hv
        | @replace k e w w' h =>
            rw [Change.key, Function.update_self, Option.some.injEq, Prod.mk.injEq] at hv
            obtain ⟨n, v, hn, hle, -, hlt⟩ := ih hcs h
            obtain ⟨rfl, rfl⟩ := hv
            refine ⟨n, v, hn, by omega, by omega, fun _ => ?_⟩
            -- either the old version was presented before, or this replacement presents it
            rcases Int.lt_or_eq_of_le hle with h | rfl
            · obtain ⟨d, hd, hdn⟩ := hlt h
              exact ⟨d, List.mem_append_left _ hd, hdn⟩
            · exact ⟨.replace k n w, by simp, rfl⟩

/-- **With no creation of the key in between, the same version is the same content**, and no change
of the key took effect.  Versions below one count as one here; they are not to be presented. -/
theorem content_eq {S S' : Store K V} {cs : List (Change K V)} (h : Run S cs S') {k : K}
    (hk : ∀ c ∈ cs, c.creates k = false) (hpos : ∀ c ∈ cs, ∀ e, c.presents = some e → 1 ≤ e)
    {n n' : ℤ} {v v' : V} (hv : S k = some (n, v)) (hv' : S' k = some (n', v'))
    (hn : max n 1 = max n' 1) : v = v' ∧ ∀ c ∈ cs, c.key ≠ k := by
  obtain ⟨m, w, hm, hle, heq, hlt⟩ := h.mono hk hv'
  rw [hv, Option.some.injEq, Prod.mk.injEq] at hm
  obtain ⟨rfl, rfl⟩ := hm
  refine heq ?_
  rcases Int.lt_or_eq_of_le hle with h | h
  · obtain ⟨c, hc, hcn⟩ := hlt h
    have := hpos c hc n hcn
    omega
  · exact h

/-- **No version is used up twice**: between two changes of one key that present the same version
the key was created again. -/
theorem exists_create_between {S₀ S : Store K V} {pre mid post : List (Change K V)}
    {c d : Change K V} (h : Run S₀ (pre ++ c :: (mid ++ d :: post)) S) (hkey : c.key = d.key)
    {e : ℤ} (hc : c.presents = some e) (hd : d.presents = some e) :
    ∃ a ∈ mid, a.creates c.key = true := by
  by_contra hno
  have hno : ∀ a ∈ mid, a.creates c.key = false := fun a ha =>
    Bool.eq_false_iff.2 fun hca => hno ⟨a, ha, hca⟩
  obtain ⟨S₁, -, h⟩ := append_iff.1 h
  obtain ⟨S₂, hS₂, h⟩ := cons_iff.1 h
  obtain ⟨S₃, hmid, h⟩ := append_iff.1 h
  obtain ⟨S₄, hS₄, -⟩ := cons_iff.1 h
  obtain ⟨w, hw⟩ := hS₄.found hd
  rw [← hkey] at hw
  obtain ⟨n, v, hn, hle, -⟩ := hmid.mono hno hw
  -- after `c` the key is past the version `e`, or gone
  cases hS₂ with
  | create _ => simp [Change.presents] at hc
  | replace _ =>
      rw [Change.key, Function.update_self, Option.some.injEq, Prod.mk.injEq] at hn
      rw [Change.presents, Option.some.injEq] at hc
      omega
  | remove _ => simp [Change.key] at hn

/-- **A version counts the replacements since the creation** of the key. -/
theorem version_eq {S₀ S : Store K V} {cs : List (Change K V)} (h : Run S₀ cs S) {k : K}
    (h₀ : S₀ k = none) {n : ℤ} {v : V} (hv : S k = some (n, v)) :
    ∃ pre w post, cs = pre ++ .create k w :: post ∧
      (∀ c ∈ post, c.key = k → c.replaces k = true) ∧ n = 1 + post.countP (Change.replaces k) := by
  induction h generalizing n v with
  | nil => rw [h₀] at hv; exact absurd hv (by simp)
  | @snoc cs S₁ S₂ c _ hc ih =>
      rcases ne_or_eq c.key k with hne | rfl
      · obtain ⟨pre, w, post, rfl, hpost, rfl⟩ := ih (hc.of_ne hne ▸ hv)
        -- a change of another key is not counted
        have hcr : c.replaces k = false := by
          cases c <;> simp_all [Change.replaces, Change.key]
        refine ⟨pre, w, post ++ [c], by simp, fun d hd hdk => ?_, by simp [hcr]⟩
        rcases List.mem_append.1 hd with hd | hd
        · exact hpost d hd hdk
        · exact absurd (List.mem_singleton.1 hd ▸ hdk) hne
      · cases hc with
        | @create k w h =>
            rw [Change.key, Function.update_self, Option.some.injEq, Prod.mk.injEq] at hv
            exact ⟨cs, w, [], rfl, by simp, by simp [hv.1]⟩
        | remove h => simp [Change.key] at hv
        | @replace k e w w' h =>
            rw [Change.key, Function.update_self, Option.some.injEq, Prod.mk.injEq] at hv
            obtain ⟨pre, u, post, rfl, hpost, he⟩ := ih h
            refine ⟨pre, u, post ++ [.replace k e w], by simp [Change.key], fun d hd hdk => ?_, ?_⟩
            · rcases List.mem_append.1 hd with hd | hd
              · exact hpost d hd hdk
              · simp [List.mem_singleton.1 hd, Change.replaces, Change.key]
            · rw [← hv.1, he, List.countP_append]
              simp [Change.replaces, Change.key]
              omega

/-- A key that no change is about stays as it is. -/
theorem of_ne {S S' : Store K V} {cs : List (Change K V)} (h : Run S cs S') {k : K}
    (hk : ∀ c ∈ cs, c.key ≠ k) : S' k = S k := by
  induction h with
  | nil => rfl
  | snoc _ hc ih =>
      rw [hc.of_ne (hk _ (by simp))]
      exact ih fun c hm => hk c (List.mem_append_left _ hm)

/-- **What the last change of a key left there**: its content, or nothing. -/
theorem content_of_last {S₀ S : Store K V} {pre post : List (Change K V)} {c : Change K V}
    (h : Run S₀ (pre ++ c :: post) S) (hpost : ∀ d ∈ post, d.key ≠ c.key) :
    (S c.key).map Prod.snd = c.content := by
  obtain ⟨S₁, -, h⟩ := append_iff.1 h
  obtain ⟨S₂, hc, h⟩ := cons_iff.1 h
  rw [h.of_ne hpost]
  cases hc with
  | create _ => simp [Change.key, Change.content]
  | replace _ => simp [Change.key, Change.content]
  | remove _ => simp [Change.key, Change.content]

end Run

/-! ### The events of an incarnation -/

section Incarnation

variable {E : Type} (change : E → Option (Change K V))

/-- The events that made the present incarnation of a key: its creation and the replacements
since. -/
def incarnation (k : K) (hist : List E) : List E :=
  hist.foldl (fun es e => match change e with
    | some (.create k' _) => if k' = k then [e] else es
    | some (.replace k' _ _) => if k' = k then es ++ [e] else es
    | some (.remove k' _) => if k' = k then [] else es
    | none => es) []

theorem incarnation_snoc (k : K) (hist : List E) (e : E) :
    incarnation change k (hist ++ [e]) = match change e with
      | some (.create k' _) => if k' = k then [e] else incarnation change k hist
      | some (.replace k' _ _) =>
          if k' = k then incarnation change k hist ++ [e] else incarnation change k hist
      | some (.remove k' _) => if k' = k then [] else incarnation change k hist
      | none => incarnation change k hist := by
  rw [incarnation, List.foldl_append]
  rfl

/-- An event that does not change the key is not of its incarnation. -/
theorem incarnation_snoc_of_ne {k : K} {hist : List E} {e : E}
    (h : ∀ c, change e = some c → c.key ≠ k) :
    incarnation change k (hist ++ [e]) = incarnation change k hist := by
  rw [incarnation_snoc]
  cases hc : change e with
  | none => rfl
  | some c =>
      have hk := h c hc
      cases c with
      | create k' v => exact if_neg hk
      | replace k' n v => exact if_neg hk
      | remove k' n => exact if_neg hk

/-- The events of an incarnation are events of the history that changed the key. -/
theorem mem_of_mem_incarnation {k : K} {hist : List E} {e : E}
    (he : e ∈ incarnation change k hist) :
    e ∈ hist ∧ ∃ c, change e = some c ∧ c.key = k ∧ ∃ v, c.content = some v := by
  induction hist using List.reverseRecOn with
  | nil => simp [incarnation] at he
  | append_singleton hist e' ih =>
      have hold : e ∈ incarnation change k hist → e ∈ hist ++ [e'] ∧
          ∃ c, change e = some c ∧ c.key = k ∧ ∃ v, c.content = some v :=
        fun h => ⟨List.mem_append_left _ (ih h).1, (ih h).2⟩
      by_cases hk : ∃ c, change e' = some c ∧ c.key = k
      · obtain ⟨c, hc, rfl⟩ := hk
        rw [incarnation_snoc, hc] at he
        cases c with
        | create k v =>
            simp only [Change.key, if_true, List.mem_singleton] at he
            subst he
            exact ⟨by simp, _, hc, rfl, v, rfl⟩
        | replace k n v =>
            simp only [Change.key, if_true] at he
            rcases List.mem_append.1 he with he | he
            · exact hold he
            · obtain rfl := List.mem_singleton.1 he
              exact ⟨by simp, _, hc, rfl, v, rfl⟩
        | remove k n =>
            simp only [Change.key, if_true] at he
            cases he
      · rw [incarnation_snoc_of_ne change fun c hc hck => hk ⟨c, hc, hck⟩] at he
        exact hold he

/-- The events give the versions from one on, and the last of them put the content that is
there. -/
def Counts (es : List E) (content : Option (ℤ × V)) : Prop :=
  (∀ (j : ℕ) (e : E), es[j]? = some e →
    (change e).bind Change.gives = some ((j : ℤ) + 1)) ∧
  content = es.getLast?.bind fun e =>
    ((change e).bind Change.content).map fun v => ((es.length : ℤ), v)

variable {change}

omit [DecidableEq K] in
/-- The version that is there counts the events. -/
theorem Counts.length_eq {es : List E} {n : ℤ} {v : V} (h : Counts change es (some (n, v))) :
    n = es.length := by
  obtain ⟨e, -, he⟩ := Option.bind_eq_some_iff.1 h.2.symm
  obtain ⟨u, -, hu⟩ := Option.map_eq_some_iff.1 he
  exact (congrArg Prod.fst hu).symm

omit [DecidableEq K] in
/-- A creation starts to count. -/
theorem counts_create {e : E} {k : K} {v : V} (he : change e = some (.create k v)) :
    Counts change [e] (some (1, v)) := by
  refine ⟨fun j e' he' => ?_, by simp [he, Change.content]⟩
  rw [List.getElem?_singleton] at he'
  split_ifs at he' with hj
  obtain rfl := Option.some.inj he'
  simp [he, hj, Change.gives]

omit [DecidableEq K] in
/-- A replacement counts one more. -/
theorem Counts.replace {es : List E} {e : E} {k : K} {n : ℤ} {v w : V}
    (h : Counts change es (some (n, w))) (he : change e = some (.replace k n v)) :
    Counts change (es ++ [e]) (some (n + 1, v)) := by
  have hn := h.length_eq
  refine ⟨fun j e' he' => ?_, by simp [he, Change.content, hn]⟩
  rcases Nat.lt_or_ge j es.length with hlt | hge
  · rw [List.getElem?_append_left hlt] at he'
    exact h.1 j e' he'
  · rw [List.getElem?_append_right hge, List.getElem?_singleton] at he'
    split_ifs at he' with hj
    obtain rfl := Option.some.inj he'
    simp only [he, Change.gives, Option.bind_some, Option.some.injEq]
    omega

variable (change)

/-- **The events of an incarnation give the versions from one on**, and the last of them put the
content that is there. -/
theorem Run.incarnation_spec {S₀ S : Store K V} {hist : List E}
    (h : Run S₀ (hist.filterMap change) S) {k : K} (h₀ : S₀ k = none) :
    (∀ (j : ℕ) (e : E), (incarnation change k hist)[j]? = some e →
      (change e).bind Change.gives = some ((j : ℤ) + 1)) ∧
    S k = (incarnation change k hist).getLast?.bind fun e =>
      ((change e).bind Change.content).map fun v =>
        (((incarnation change k hist).length : ℤ), v) := by
  change Counts change (incarnation change k hist) (S k)
  induction hist using List.reverseRecOn generalizing S with
  | nil =>
      rw [List.filterMap_nil, nil_iff] at h
      subst h
      exact ⟨by simp [incarnation], by simp [incarnation, h₀]⟩
  | append_singleton hist e ih =>
      rw [List.filterMap_append] at h
      cases hc : change e with
      | none =>
          rw [incarnation_snoc_of_ne change (by simp [hc])]
          refine ih ?_
          simpa [hc] using h
      | some c =>
          rw [List.filterMap_cons_some hc, List.filterMap_nil] at h
          obtain ⟨S₁, h₁, heff⟩ := snoc_iff.1 h
          have hcounts := ih h₁
          rcases eq_or_ne c.key k with rfl | hk
          · rw [incarnation_snoc, hc]
            cases heff with
            | create hnone =>
                simp only [Change.key, if_true, Function.update_self]
                exact counts_create hc
            | replace hsome =>
                simp only [Change.key, hsome] at hcounts
                simp only [Change.key, if_true, Function.update_self]
                exact hcounts.replace hc
            | remove hsome =>
                simp only [Change.key, if_true, Function.update_self]
                exact ⟨by simp, by simp⟩
          · rw [heff.of_ne hk, incarnation_snoc_of_ne change fun c' hc' => by
              rwa [← Option.some.inj (hc.symm.trans hc')]]
            exact hcounts

end Incarnation

end OptimisticLock
