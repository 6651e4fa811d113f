import SettingsService.SettingsModel

/-!
# What a patch leaves alone

The merge of a patch read along paths of object keys.  Where the patch does not mention a path the
result has what the base has there; where it holds a value that is neither `null` nor an object the
result has that value.

Main definitions:

* `Json.member`, `Json.follow` — the member of an object, and the value a path leads to.

Main results:

* `Json.member_mergePatch_of_lacks`, `Json.member_mergePatch_of_has` — one step into a merge;
* `Json.follow_mergePatch_of_lacks`, `Json.follow_mergePatch_of_leaf` — a whole path;
* `Value.changes_only_mentioned` — **a patch changes only what it mentions**.
-/

set_option relaxedAutoImplicit false
set_option autoImplicit false

namespace SettingsService

namespace Json

/-! ### Paths -/

/-- The member of an object under a key. -/
def member : Json → String → Option Json
  | object ms, k => ms.lookup k
  | _, _ => none

/-- **The value a path of object keys leads to**, through objects only. -/
def follow : Json → List String → Option Json
  | j, [] => some j
  | j, k :: ks => (j.member k).bind fun v => v.follow ks

@[simp] theorem follow_nil (j : Json) : j.follow [] = some j := by
  cases j <;> rfl

theorem follow_cons (j : Json) (k : String) (ks : List String) :
    j.follow (k :: ks) = (j.member k).bind fun v => v.follow ks := by
  cases j <;> rfl

theorem follow_append (j : Json) (ks ks' : List String) :
    j.follow (ks ++ ks') = (j.follow ks).bind fun v => v.follow ks' := by
  induction ks generalizing j with
  | nil => simp
  | cons k ks ih =>
      rw [List.cons_append, follow_cons, follow_cons, Option.bind_assoc]
      exact Option.bind_congr fun v _ => ih v

/-- Only an object has members. -/
theorem member_eq_some_iff {j v : Json} {k : String} :
    j.member k = some v ↔ ∃ ms, j = object ms ∧ ms.lookup k = some v := by
  cases j <;> simp [member]

theorem isSorted_of_member {j v : Json} {k : String} (hj : j.isSorted = true)
    (h : j.member k = some v) : v.isSorted = true := by
  obtain ⟨ms, rfl, h⟩ := member_eq_some_iff.1 h
  exact isSorted_of_lookup hj h

/-! ### One step into a merge -/

/-- **What the patch does not have is what the base has.** -/
theorem member_mergePatch_of_lacks {p : List (String × Json)} (hp : (object p).isSorted = true)
    {k : String} (hk : p.lookup k = none) (base : Json) :
    (mergePatch base (object p)).member k = base.member k := by
  cases base with
  | object b =>
      rw [mergePatch, member, member, lookup_mergeMembers (isSorted_object.1 hp).1, hk]
      rfl
  | _ =>
      rw [mergePatch_of_base_not_object (by simp), member, hk]
      rfl

/-- What the patch has is merged into the member of the base, or put there as it is. -/
theorem member_mergePatch_of_has {patch v : Json} (hp : patch.isSorted = true) {k : String}
    (hk : patch.member k = some v) (hv : v ≠ null) (base : Json) :
    (mergePatch base patch).member k =
      some ((base.member k).elim v fun bv => mergePatch bv v) := by
  obtain ⟨p, rfl, hlookup⟩ := member_eq_some_iff.1 hk
  cases base with
  | object b =>
      rw [mergePatch, member, member, lookup_mergeMembers (isSorted_object.1 hp).1, hlookup]
      cases hb : b.lookup k with
      | none => exact mergedEntry_none hv
      | some bv => exact mergedEntry_some hv bv
  | _ =>
      rw [mergePatch_of_base_not_object (by simp), hk]
      rfl

/-! ### Whole paths -/

/-- **Where the patch ends in an object that lacks the next key**, the merge has what the base
has. -/
theorem follow_mergePatch_of_lacks (ks : List String) {k : String} {ks' : List String}
    {patch : Json} {p : List (String × Json)} (hp : patch.isSorted = true)
    (hks : patch.follow ks = some (object p)) (hk : p.lookup k = none) (base : Json) :
    (mergePatch base patch).follow (ks ++ k :: ks') = base.follow (ks ++ k :: ks') := by
  induction ks generalizing patch base with
  | nil =>
      obtain rfl : patch = object p := by simpa using hks
      rw [List.nil_append, follow_cons, follow_cons, member_mergePatch_of_lacks hp hk]
  | cons k₀ ks ih =>
      rw [follow_cons] at hks
      obtain ⟨v, hv, hks⟩ := Option.bind_eq_some_iff.1 hks
      have hsorted := isSorted_of_member hp hv
      have hnull : v ≠ null := by
        rintro rfl
        cases ks with
        | nil => simp at hks
        | cons k ks => simp [follow_cons, member] at hks
      rw [List.cons_append, follow_cons, follow_cons, member_mergePatch_of_has hp hv hnull]
      cases hb : base.member k₀ with
      | some bv => exact ih hsorted hks bv
      | none =>
          -- the member of the patch is put there as it is, and has nothing at the path
          change v.follow (ks ++ k :: ks') = none
          rw [follow_append, hks, Option.bind_some, follow_cons, member, hk, Option.bind_none]

/-- **Where the patch ends in a value that is neither `null` nor an object**, the merge has that
value. -/
theorem follow_mergePatch_of_leaf (ks : List String) {patch leaf : Json}
    (hp : patch.isSorted = true) (hks : patch.follow ks = some leaf) (hnull : leaf ≠ null)
    (hobject : leaf.isObject = false) (base : Json) :
    (mergePatch base patch).follow ks = some leaf := by
  induction ks generalizing patch base with
  | nil =>
      obtain rfl : patch = leaf := by simpa using hks
      rw [mergePatch_of_not_object (fun p hp => by simp [hp, isObject] at hobject), follow_nil]
  | cons k ks ih =>
      rw [follow_cons] at hks
      obtain ⟨v, hv, hks⟩ := Option.bind_eq_some_iff.1 hks
      have hne : v ≠ null := by
        rintro rfl
        cases ks with
        | nil => exact hnull (by simpa using hks.symm)
        | cons k ks => simp [follow_cons, member] at hks
      rw [follow_cons, member_mergePatch_of_has hp hv hne, Option.bind_some]
      cases hb : base.member k with
      | some bv => exact ih (isSorted_of_member hp hv) hks bv
      | none => exact hks

end Json

namespace Value

/-- **A patch changes only what it mentions**, at every path of object keys: where the path in the
patch reaches an object that lacks the next key, the result has what the base has; where it ends at
a value that is neither `null` nor an object, the result has that value. -/
theorem changes_only_mentioned (base patch : Value) :
    (∀ (ks : List String) (k : String) (ks' : List String) (p : List (String × Json)),
      patch.json.follow ks = some (.object p) → p.lookup k = none →
        (base.mergePatch patch).json.follow (ks ++ k :: ks') =
          base.json.follow (ks ++ k :: ks')) ∧
    ∀ (ks : List String) (leaf : Json), patch.json.follow ks = some leaf → leaf ≠ .null →
      leaf.isObject = false → (base.mergePatch patch).json.follow ks = some leaf :=
  ⟨fun ks _ _ _ hks hk => Json.follow_mergePatch_of_lacks ks patch.sorted hks hk base.json,
    fun ks _ hks hnull hobject =>
      Json.follow_mergePatch_of_leaf ks patch.sorted hks hnull hobject base.json⟩

/-- `{ "editor": { "font": { "size": "big" } } }` sets the size two objects down, and keeps the name
beside it, whatever the base holds there. -/
theorem changes_only_mentioned_size :
    let base : Value := ⟨.object [("editor", .object [("font", .object [("name", .object
      [("family", .string "mono")]), ("size", .string "small")])])], rfl⟩
    let patch : Value := ⟨.object [("editor", .object [("font", .object
      [("size", .string "big")])])], rfl⟩
    (base.mergePatch patch).json.follow ["editor", "font", "name", "family"] =
        some (.string "mono") ∧
      (base.mergePatch patch).json.follow ["editor", "font", "size"] = some (.string "big") := by
  intro base patch
  have hchanges := changes_only_mentioned base patch
  exact ⟨hchanges.1 ["editor", "font"] "name" ["family"] [("size", .string "big")] rfl rfl,
    hchanges.2 ["editor", "font", "size"] (.string "big") rfl (by simp) rfl⟩

end Value

end SettingsService
