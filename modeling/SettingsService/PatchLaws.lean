import SettingsService.MergePatch

/-!
# Patches twice, and what patches can reach

A client whose `PATCH` got no response sends it again.  Merging a patch twice is merging it once
exactly when the patch merges cleanly: an object that is stored as it is, with its `null` members,
loses these members the second time.

What a base can be patched to at all: every member of the target is there already, or is not `null`
and can be reached from what the base has in its place.

Main definitions:

* `Json.Reaches` — the target can be reached from the base.

Main results:

* `Json.updateAll_updateAll_iff` — going through a map twice is going through it once when that is
  so under each key;
* `Value.mergePatch_twice_iff` — **merging twice is merging once exactly for the patches that merge
  cleanly**;
* `Value.exists_mergePatch_eq_iff` — **the values a patch can make of a base**.
-/

set_option relaxedAutoImplicit false
set_option autoImplicit false

namespace SettingsService

namespace Json

/-! ### Merging twice -/

/-- Going through an ordered map twice ends in the same map exactly when the second time changes
nothing under any key. -/
theorem updateAll_updateAll_iff {f : Option Json → Json → Option Json} {b p : List (String × Json)}
    (hb : OrderedMap.Sorted b) (hp : OrderedMap.Sorted p) :
    OrderedMap.updateAll f (OrderedMap.updateAll f b p) p = OrderedMap.updateAll f b p ↔
      ∀ m ∈ p, f (f (b.lookup m.1) m.2) m.2 = f (b.lookup m.1) m.2 := by
  constructor
  · rintro h ⟨k, v⟩ hm
    have hk := OrderedMap.lookup_of_mem hp hm
    have := congrArg (List.lookup k) h
    rwa [OrderedMap.lookup_updateAll f hp, OrderedMap.lookup_updateAll f hp, hk] at this
  · intro h
    refine OrderedMap.ext_lookup ((hb.updateAll f p).updateAll f p) (hb.updateAll f p) fun k => ?_
    rw [OrderedMap.lookup_updateAll f hp, OrderedMap.lookup_updateAll f hp]
    cases hk : p.lookup k with
    | none => rfl
    | some v => exact h _ (OrderedMap.mem_of_lookup hk)

/-- Going through an ordered map on itself. -/
theorem updateAll_self_iff {f : Option Json → Json → Option Json} {p : List (String × Json)}
    (hp : OrderedMap.Sorted p) :
    OrderedMap.updateAll f p p = p ↔ ∀ m ∈ p, f (some m.2) m.2 = some m.2 := by
  constructor
  · rintro h ⟨k, v⟩ hm
    have hk := OrderedMap.lookup_of_mem hp hm
    have := congrArg (List.lookup k) h
    rwa [OrderedMap.lookup_updateAll f hp, hk] at this
  · intro h
    refine OrderedMap.ext_lookup (hp.updateAll f p) hp fun k => ?_
    rw [OrderedMap.lookup_updateAll f hp]
    cases hk : p.lookup k with
    | none => rfl
    | some v => exact h _ (OrderedMap.mem_of_lookup hk)

/-- Merging into `null` gives back the patch. -/
theorem mergePatch_null (v : Json) : mergePatch null v = v :=
  mergePatch_of_base_not_object (by simp) v

/-- What is merged twice under a key, if the patch value is not `null`. -/
theorem mergedEntry_mergedEntry_iff {o : Option Json} {v : Json} (hv : v ≠ null) :
    mergedEntry (mergedEntry o v) v = mergedEntry o v ↔
      mergePatch (mergePatch (o.getD null) v) v = mergePatch (o.getD null) v := by
  cases o with
  | some bv => rw [mergedEntry_some hv, mergedEntry_some hv, Option.some.injEq, Option.getD_some]
  | none =>
      rw [mergedEntry_none hv, mergedEntry_some hv, Option.some.injEq, Option.getD_none,
        mergePatch_null]

/-- Merging a patch into itself gives it back exactly when it is null-free. -/
theorem mergePatch_self_iff {patch : Json} (hp : patch.isSorted = true)
    (ih : ∀ p, patch = object p → ∀ m ∈ p, mergePatch m.2 m.2 = m.2 ↔ m.2.NullFree) :
    mergePatch patch patch = patch ↔ patch.NullFree := by
  cases patch with
  | object p =>
      rw [mergePatch, object.injEq, mergeMembers_eq, updateAll_self_iff (isSorted_object.1 hp).1,
        NullFree, nullFreeMembers_iff]
      refine forall₂_congr fun m hm => ?_
      rcases eq_or_ne m.2 null with hv | hv
      · simp [hv, mergedEntry]
      · rw [mergedEntry_some hv, Option.some.injEq, ih p rfl m hm]
        simp [hv]
  | _ =>
      rw [mergePatch_of_not_object (by simp)]
      simp [NullFree]

/-- **Merging twice is merging once exactly when the patch merges cleanly.** -/
theorem mergePatch_mergePatch_iff (patch : Json) (hp : patch.isSorted = true) : ∀ base : Json,
    base.isSorted = true →
      (mergePatch (mergePatch base patch) patch = mergePatch base patch ↔
        MergesCleanly base patch) := by
  induction patch using treeInduction with
  | object p ih =>
      intro base hb
      obtain ⟨hps, hpm⟩ := isSorted_object.1 hp
      by_cases hobject : ∃ b, base = object b
      · obtain ⟨b, rfl⟩ := hobject
        rw [mergePatch, mergePatch, object.injEq, mergeMembers_eq, mergeMembers_eq,
          updateAll_updateAll_iff (isSorted_object.1 hb).1 hps, MergesCleanly,
          mergesCleanlyMembers_iff]
        refine forall₂_congr fun m hm => ?_
        rcases eq_or_ne m.2 null with hv | hv
        · simp [hv, mergedEntry]
        · have hbv : ((b.lookup m.1).getD null).isSorted = true := by
            cases hl : b.lookup m.1 with
            | none => rfl
            | some bv => exact isSorted_of_lookup hb hl
          rw [mergedEntry_mergedEntry_iff hv, ih m hm (hpm m hm) _ hbv]
          simp [hv]
      · have hbase : ∀ b, base ≠ object b := fun b hb => hobject ⟨b, hb⟩
        rw [mergePatch_of_base_not_object hbase, mergesCleanly_of_base_not_object hbase]
        refine mergePatch_self_iff hp fun p' hp' m hm => ?_
        obtain rfl := object.inj hp'
        have h := ih m hm (hpm m hm) null rfl
        rwa [mergePatch_null, mergesCleanly_of_base_not_object (by simp)] at h
  | _ =>
      intro base _
      rw [mergePatch_of_not_object (by simp), mergePatch_of_not_object (by simp)]
      cases base <;> simp [MergesCleanly, NullFree]

/-! ### What a patch can make of a base -/

mutual

/-- **The target can be reached from the base**: an object only from an object member by member,
anything else always. -/
def Reaches : Json → Json → Prop
  | object b, object t => ReachesMembers b t
  | _, _ => True
termination_by structural _ target => target

/-- Every member of the target is there already, or it is not `null` and can be reached from what
the base has under its key. -/
def ReachesMembers (b : List (String × Json)) : List (String × Json) → Prop
  | [] => True
  | (k, v) :: t =>
      (b.lookup k = some v ∨ v ≠ null ∧ Reaches ((b.lookup k).getD null) v) ∧ ReachesMembers b t
termination_by structural t => t

end

theorem reachesMembers_iff {b t : List (String × Json)} : ReachesMembers b t ↔
    ∀ m ∈ t, b.lookup m.1 = some m.2 ∨ m.2 ≠ null ∧ Reaches ((b.lookup m.1).getD null) m.2 := by
  induction t with
  | nil => simp [ReachesMembers]
  | cons m t ih => simp [ReachesMembers, ih]

theorem reaches_of_base_not_object {base : Json} (h : ∀ b, base ≠ object b) (target : Json) :
    Reaches base target := by
  cases base with
  | object b => exact absurd rfl (h b)
  | _ => cases target <;> trivial

/-- A merge with a patch that is not `null` is not `null`. -/
theorem mergePatch_ne_null {v : Json} (hv : v ≠ null) (base : Json) : mergePatch base v ≠ null := by
  cases v with
  | null => exact absurd rfl hv
  | _ => cases base <;> simp [mergePatch]

/-- What a patch makes of a base can be reached from it. -/
theorem reaches_mergePatch (target : Json) : ∀ base patch : Json, base.isSorted = true →
    patch.isSorted = true → mergePatch base patch = target → Reaches base target := by
  induction target using treeInduction with
  | object t ih =>
      intro base patch hb hp h
      by_cases hobject : ∃ b, base = object b
      · obtain ⟨b, rfl⟩ := hobject
        cases patch with
        | object p =>
            rw [mergePatch, object.injEq] at h
            obtain ⟨hps, hpm⟩ := isSorted_object.1 hp
            have ht : OrderedMap.Sorted t := h ▸ sorted_mergeMembers (isSorted_object.1 hb).1 p
            rw [Reaches, reachesMembers_iff]
            rintro ⟨k, v⟩ hm
            have hk := OrderedMap.lookup_of_mem ht hm
            rw [← h, lookup_mergeMembers hps] at hk
            cases hl : p.lookup k with
            | none => exact .inl (by rwa [hl] at hk)
            | some pv =>
                rw [hl, Option.elim_some] at hk
                have hpv : pv ≠ null := by
                  rintro rfl
                  cases hk
                have hs := hpm _ (OrderedMap.mem_of_lookup hl)
                refine .inr ?_
                cases hb' : b.lookup k with
                | none =>
                    rw [hb', mergedEntry_none hpv, Option.some.injEq] at hk
                    exact ⟨hk ▸ hpv, reaches_of_base_not_object (by simp) _⟩
                | some bv =>
                    rw [hb', mergedEntry_some hpv, Option.some.injEq] at hk
                    exact ⟨hk ▸ mergePatch_ne_null hpv bv,
                      ih _ hm bv pv (isSorted_of_lookup hb hb') hs hk⟩
        | _ => cases h
      · exact reaches_of_base_not_object (fun b hb => hobject ⟨b, hb⟩) _
  | _ =>
      intro base patch _ _ _
      cases base <;> trivial

/-- What a patch has to hold under the key of one member of the target, if anything. -/
theorem exists_patchEntry {b : List (String × Json)} {k : String} {v : Json}
    (hv : v.isSorted = true) (h : b.lookup k = some v ∨ v ≠ null ∧
      Reaches ((b.lookup k).getD null) v)
    (ih : ∀ bv, b.lookup k = some bv → Reaches bv v →
      ∃ patch, patch.isSorted = true ∧ mergePatch bv patch = v) :
    ∃ e : Option Json, (∀ x, e = some x → x.isSorted = true) ∧
      e.elim (b.lookup k) (mergedEntry (b.lookup k)) = some v := by
  rcases h with h | ⟨hnull, hreach⟩
  · exact ⟨none, by simp, h⟩
  · cases hb : b.lookup k with
    | none => exact ⟨some v, fun x hx => Option.some.inj hx ▸ hv, mergedEntry_none hnull⟩
    | some bv =>
        rw [hb] at hreach
        obtain ⟨patch, hs, hmerge⟩ := ih bv hb hreach
        have hpatch : patch ≠ null := by
          rintro rfl
          rw [mergePatch_of_not_object (by simp)] at hmerge
          exact hnull hmerge.symm
        refine ⟨some patch, fun x hx => Option.some.inj hx ▸ hs, ?_⟩
        rw [Option.elim_some, mergedEntry_some hpatch, hmerge]

/-- A patch that removes what the target lacks, and holds the entry of each of its members. -/
theorem exists_mergePatch_of_reaches (target : Json) : ∀ base : Json, base.isSorted = true →
    target.isSorted = true → Reaches base target →
      ∃ patch, patch.isSorted = true ∧ mergePatch base patch = target := by
  induction target using treeInduction with
  | object t ih =>
      intro base hb ht h
      by_cases hobject : ∃ b, base = object b
      · obtain ⟨b, rfl⟩ := hobject
        obtain ⟨hts, htm⟩ := isSorted_object.1 ht
        obtain ⟨hbs, -⟩ := isSorted_object.1 hb
        rw [Reaches, reachesMembers_iff] at h
        have hentry : ∀ m : String × Json, ∃ e : Option Json, m ∈ t →
            (∀ x, e = some x → x.isSorted = true) ∧
              e.elim (b.lookup m.1) (mergedEntry (b.lookup m.1)) = some m.2 := by
          intro m
          by_cases hm : m ∈ t
          · obtain ⟨e, he⟩ := exists_patchEntry (htm m hm) (h m hm) fun bv hbv =>
              ih m hm bv (isSorted_of_lookup hb hbv) (htm m hm)
            exact ⟨e, fun _ => he⟩
          · exact ⟨none, fun hm' => absurd hm' hm⟩
        choose g hg using hentry
        have hnulls : OrderedMap.Sorted (b.map fun m => (m.1, null)) := OrderedMap.Sorted.map hbs _
        have hentries : OrderedMap.Sorted (t.map fun m => (m.1, g m)) := OrderedMap.Sorted.map hts _
        refine ⟨object (OrderedMap.updateAll (fun _ e => e) (b.map fun m => (m.1, null))
          (t.map fun m => (m.1, g m))), ?_, ?_⟩
        · refine isSorted_object.2 ⟨hnulls.updateAll _ _, ?_⟩
          rintro ⟨k, v⟩ hm
          rcases OrderedMap.mem_updateAll hnulls hentries hm with hm | ⟨w, hw, rfl⟩
          · obtain ⟨m, -, hm⟩ := List.mem_map.1 hm
            obtain ⟨-, rfl⟩ := Prod.mk.inj hm
            rfl
          · obtain ⟨m, hm, hw⟩ := List.mem_map.1 hw
            exact (hg m hm).1 v (Prod.mk.inj hw).2
        · rw [mergePatch, object.injEq]
          refine OrderedMap.ext_lookup (sorted_mergeMembers hbs _) hts fun k => ?_
          rw [lookup_mergeMembers (hnulls.updateAll _ _),
            OrderedMap.lookup_updateAll _ hentries, OrderedMap.lookup_map, OrderedMap.lookup_map]
          cases ht : t.lookup k with
          | none => cases b.lookup k <;> rfl
          | some v => exact (hg (k, v) (OrderedMap.mem_of_lookup ht)).2
      · exact ⟨object t, ht,
          mergePatch_of_base_not_object (fun b hb => hobject ⟨b, hb⟩) _⟩
  | _ =>
      intro base _ ht _
      exact ⟨_, ht, mergePatch_of_not_object (by simp) base⟩

end Json

namespace Value

/-- **A patch that is sent twice is merged once exactly when it merges cleanly**: it holds a `null`
member only at places where the base holds an object too. -/
theorem mergePatch_twice_iff (base patch : Value) :
    (base.mergePatch patch).mergePatch patch = base.mergePatch patch ↔
      Json.MergesCleanly base.json patch.json := by
  rw [Value.ext_iff]
  exact Json.mergePatch_mergePatch_iff patch.json patch.sorted base.json base.sorted

/-- **The values a patch can make of a base.** -/
theorem exists_mergePatch_eq_iff (base target : Value) :
    (∃ patch, base.mergePatch patch = target) ↔ Json.Reaches base.json target.json := by
  constructor
  · rintro ⟨patch, rfl⟩
    exact Json.reaches_mergePatch _ base.json patch.json base.sorted patch.sorted rfl
  · intro h
    obtain ⟨patch, hs, hmerge⟩ :=
      Json.exists_mergePatch_of_reaches target.json base.json base.sorted target.sorted h
    exact ⟨⟨patch, hs⟩, Value.ext hmerge⟩

end Value

end SettingsService
