import SettingsService.Json
import Mathlib.Data.List.Perm.Subperm
import Mathlib.Data.Option.Basic

/-!
# JSON merge patch

`merge_patch` of the settings model, and the `MergePatch` of RFC 7396 it is documented to be.  The
two recursions look alike, but where the base lacks a member the source clones the patch value,
and where the base holds a non-object it returns the patch, while the RFC goes on merging into an
empty object and so drops the `null` members of the patch.

Main definitions:

* `Json.mergePatch`, `Value.mergePatch` — `merge_patch`, with the loop over the members of the
  patch as `Json.mergeMembers`;
* `Json.rfcMergePatch`, `Value.rfcMergePatch` — the RFC's `MergePatch`;
* `Json.NullFree` — no object of the value, reached through objects, has a `null` member;
* `Json.MergesCleanly` — wherever the patch holds an object and the base does not, the object of
  the patch is null-free;
* `Json.NulFreeMember` — a member without U+0000.

Main results:

* `Json.lookup_mergeMembers` — the loop of `merge_patch`, one lookup at a time;
* `Json.hasNul_mergePatch` — merging values without U+0000 gives one;
* `Json.mem_mergeMembers_nil`, `Json.size_mergePatch_nil` — what the empty object is patched to;
* `Value.mergePatch_eq_rfc_iff` — **the source agrees with the RFC exactly when the patch merges
  cleanly into the base**.
-/

set_option relaxedAutoImplicit false
set_option autoImplicit false

namespace SettingsService

namespace Json

/-! ### Induction on trees -/

/-- **Induction on trees**: an array or object satisfies the motive if its parts do. -/
@[elab_as_elim] theorem treeInduction {motive : Json → Prop} (null : motive null)
    (bool : ∀ b, motive (bool b)) (number : ∀ n, motive (number n))
    (string : ∀ s, motive (string s))
    (array : ∀ xs : List Json, (∀ x ∈ xs, motive x) → motive (array xs))
    (object : ∀ ms : List (String × Json), (∀ m ∈ ms, motive m.2) → motive (object ms)) :
    ∀ j : Json, motive j :=
  @Json.rec motive (fun xs => ∀ x ∈ xs, motive x) (fun ms => ∀ m ∈ ms, motive m.2)
    (fun m => motive m.2) null bool number string array object
    (by simp) (fun _ _ hx hxs => List.forall_mem_cons.2 ⟨hx, hxs⟩)
    (by simp) (fun _ _ hm hms => List.forall_mem_cons.2 ⟨hm, hms⟩) (fun _ _ hv => hv)

theorem isSortedMembers_iff {ms : List (String × Json)} :
    isSortedMembers ms = true ↔ ∀ m ∈ ms, m.2.isSorted = true := by
  induction ms with
  | nil => simp [isSortedMembers]
  | cons m ms ih => simp [isSortedMembers, ih]

theorem isSorted_object {ms : List (String × Json)} :
    (object ms).isSorted = true ↔ OrderedMap.Sorted ms ∧ ∀ m ∈ ms, m.2.isSorted = true := by
  rw [isSorted, Bool.and_eq_true, decide_eq_true_iff, isSortedMembers_iff]

/-! ### The merge of the source -/

mutual

/-- `merge_patch`. -/
def mergePatch : Json → Json → Json
  | object b, object p => object (mergeMembers b p)
  | _, patch => patch
termination_by structural _ patch => patch

/-- The loop of `merge_patch` over the members of the patch, on the map built so far. -/
def mergeMembers : List (String × Json) → List (String × Json) → List (String × Json)
  | out, [] => out
  | out, (k, null) :: p => mergeMembers (OrderedMap.remove k out) p
  | out, (k, pv) :: p =>
      let merged := match out.lookup k with
        | some bv => mergePatch bv pv
        | none => pv
      mergeMembers (OrderedMap.insert k merged out) p
termination_by structural _ p => p

end

/-! ### The merge of the RFC -/

/-- The target a patch object is merged into: the base if it is an object, the empty object
otherwise. -/
def targetMembers : Json → List (String × Json)
  | object b => b
  | _ => []

mutual

/-- `MergePatch` of RFC 7396. -/
def rfcMergePatch : Json → Json → Json
  | base, object p => object (rfcMembers base.targetMembers p)
  | _, patch => patch
termination_by structural _ patch => patch

/-- The members of the patch, one by one.  A member the target lacks is merged into a
non-object. -/
def rfcMembers : List (String × Json) → List (String × Json) → List (String × Json)
  | target, [] => target
  | target, (k, null) :: p => rfcMembers (OrderedMap.remove k target) p
  | target, (k, v) :: p =>
      rfcMembers (OrderedMap.insert k (rfcMergePatch ((target.lookup k).getD null) v) target) p
termination_by structural _ p => p

end

/-! ### When they agree -/

mutual

/-- No object of the value, reached through objects, has a `null` member. -/
def NullFree : Json → Prop
  | object p => NullFreeMembers p
  | _ => True

/-- No member is `null`, and every member is null-free. -/
def NullFreeMembers : List (String × Json) → Prop
  | [] => True
  | (_, v) :: p => v ≠ null ∧ v.NullFree ∧ NullFreeMembers p

end

mutual

/-- **The patch merges cleanly into the base**: wherever it holds an object and the base does not,
that object is null-free. -/
def MergesCleanly : Json → Json → Prop
  | object b, object p => MergesCleanlyMembers b p
  | _, patch => patch.NullFree
termination_by structural _ patch => patch

/-- Every member of the patch is `null` or merges cleanly into what the base has under its key. -/
def MergesCleanlyMembers (b : List (String × Json)) : List (String × Json) → Prop
  | [] => True
  | (k, v) :: p =>
      (v ≠ null → MergesCleanly ((b.lookup k).getD null) v) ∧ MergesCleanlyMembers b p
termination_by structural p => p

end

theorem nullFreeMembers_iff {p : List (String × Json)} :
    NullFreeMembers p ↔ ∀ m ∈ p, m.2 ≠ null ∧ m.2.NullFree := by
  induction p with
  | nil => simp [NullFreeMembers]
  | cons m p ih => simp [NullFreeMembers, ih, and_assoc]

theorem mergesCleanlyMembers_iff {b p : List (String × Json)} :
    MergesCleanlyMembers b p ↔
      ∀ m ∈ p, m.2 ≠ null → MergesCleanly ((b.lookup m.1).getD null) m.2 := by
  induction p with
  | nil => simp [MergesCleanlyMembers]
  | cons m p ih => simp [MergesCleanlyMembers, ih]

/-! ### The loops as loops over ordered maps -/

/-- What `merge_patch` leaves under a key where the base has `o` and the patch `v`. -/
def mergedEntry (o : Option Json) : Json → Option Json
  | null => none
  | v => some (match o with
      | some bv => mergePatch bv v
      | none => v)

/-- What `MergePatch` leaves under a key where the target has `o` and the patch `v`. -/
def rfcEntry (o : Option Json) : Json → Option Json
  | null => none
  | v => some (rfcMergePatch (o.getD null) v)

theorem mergeMembers_eq (out p : List (String × Json)) :
    mergeMembers out p = OrderedMap.updateAll mergedEntry out p := by
  induction p generalizing out with
  | nil => rfl
  | cons e p ih =>
      obtain ⟨k, v⟩ := e
      cases v <;> exact ih _

theorem rfcMembers_eq (target p : List (String × Json)) :
    rfcMembers target p = OrderedMap.updateAll rfcEntry target p := by
  induction p generalizing target with
  | nil => rfl
  | cons e p ih =>
      obtain ⟨k, v⟩ := e
      cases v <;> exact ih _

/-- The loop of `merge_patch`, one lookup at a time. -/
theorem lookup_mergeMembers {p : List (String × Json)} (hp : OrderedMap.Sorted p)
    (out : List (String × Json)) (k : String) :
    (mergeMembers out p).lookup k =
      (p.lookup k).elim (out.lookup k) (mergedEntry (out.lookup k)) := by
  rw [mergeMembers_eq, OrderedMap.lookup_updateAll mergedEntry hp]

/-- A merge of patches that are not objects returns the patch. -/
theorem mergePatch_of_not_object {patch : Json} (h : ∀ p, patch ≠ object p) (base : Json) :
    mergePatch base patch = patch := by
  cases patch with
  | object p => exact absurd rfl (h p)
  | _ => cases base <;> rfl

/-- The same for the RFC. -/
theorem rfcMergePatch_of_not_object {patch : Json} (h : ∀ p, patch ≠ object p) (base : Json) :
    rfcMergePatch base patch = patch := by
  cases patch with
  | object p => exact absurd rfl (h p)
  | _ => cases base <;> rfl

/-! ### Both merges give back ordered objects -/

/-- Going through the members of an ordered patch keeps objects ordered, if what is put under each
key is. -/
theorem isSorted_updateAll {f : Option Json → Json → Option Json} {b p : List (String × Json)}
    (hb : (object b).isSorted = true) (hp : (object p).isSorted = true)
    (hf : ∀ m ∈ p, ∀ j, f (b.lookup m.1) m.2 = some j → j.isSorted = true) :
    (object (OrderedMap.updateAll f b p)).isSorted = true := by
  obtain ⟨hb, hbm⟩ := isSorted_object.1 hb
  obtain ⟨hp, -⟩ := isSorted_object.1 hp
  refine isSorted_object.2 ⟨hb.updateAll f p, ?_⟩
  rintro ⟨k, v⟩ hm
  rcases OrderedMap.mem_updateAll hb hp hm with hm | ⟨w, hw, hv⟩
  · exact hbm _ hm
  · exact hf (k, w) hw v hv

/-- What an ordered object has under a key is ordered. -/
theorem isSorted_of_lookup {b : List (String × Json)} (hb : (object b).isSorted = true)
    {k : String} {v : Json} (h : b.lookup k = some v) : v.isSorted = true :=
  (isSorted_object.1 hb).2 _ (OrderedMap.mem_of_lookup h)

theorem mergePatch_isSorted (patch : Json) : ∀ base : Json, base.isSorted = true →
    patch.isSorted = true → (mergePatch base patch).isSorted = true := by
  induction patch using treeInduction with
  | object p ih =>
      intro base hb hp
      cases base with
      | object b =>
          rw [mergePatch, mergeMembers_eq]
          refine isSorted_updateAll hb hp fun m hm j hj => ?_
          have hv : m.2.isSorted = true := (isSorted_object.1 hp).2 m hm
          cases hl : b.lookup m.1 with
          | none =>
              rw [hl, mergedEntry.eq_def] at hj
              split at hj <;> simp_all
          | some bv =>
              rw [hl, mergedEntry.eq_def] at hj
              split at hj
              · simp at hj
              · exact Option.some.inj hj ▸ ih m hm bv (isSorted_of_lookup hb hl) hv
      | _ => exact hp
  | _ =>
      intro base _ hp
      rwa [mergePatch_of_not_object (by simp)]

theorem isSorted_targetMembers {base : Json} (h : base.isSorted = true) :
    (object base.targetMembers).isSorted = true := by
  cases base with
  | object b => exact h
  | _ => rfl

theorem rfcMergePatch_isSorted (patch : Json) : ∀ base : Json, base.isSorted = true →
    patch.isSorted = true → (rfcMergePatch base patch).isSorted = true := by
  induction patch using treeInduction with
  | object p ih =>
      intro base hb hp
      rw [rfcMergePatch, rfcMembers_eq]
      have hb := isSorted_targetMembers hb
      refine isSorted_updateAll hb hp fun m hm j hj => ?_
      have hv : m.2.isSorted = true := (isSorted_object.1 hp).2 m hm
      have ht : ((base.targetMembers.lookup m.1).getD null).isSorted = true := by
        cases hl : base.targetMembers.lookup m.1 with
        | none => rfl
        | some bv => exact isSorted_of_lookup hb hl
      rw [rfcEntry.eq_def] at hj
      split at hj
      · simp at hj
      · exact Option.some.inj hj ▸ ih m hm _ ht hv
  | _ =>
      intro base _ hp
      rwa [rfcMergePatch_of_not_object (by simp)]

/-! ### Agreement -/

/-- Two loops over an ordered patch end in the same map exactly when they leave the same under each
key of the patch. -/
theorem updateAll_eq_iff {f g : Option Json → Json → Option Json} {b p : List (String × Json)}
    (hb : OrderedMap.Sorted b) (hp : OrderedMap.Sorted p) :
    OrderedMap.updateAll f b p = OrderedMap.updateAll g b p ↔
      ∀ m ∈ p, f (b.lookup m.1) m.2 = g (b.lookup m.1) m.2 := by
  constructor
  · rintro h ⟨k, v⟩ hm
    have hk := OrderedMap.lookup_of_mem hp hm
    have := congrArg (List.lookup k) h
    rwa [OrderedMap.lookup_updateAll f hp, OrderedMap.lookup_updateAll g hp, hk] at this
  · intro h
    refine OrderedMap.ext_lookup (hb.updateAll f p) (hb.updateAll g p) fun k => ?_
    rw [OrderedMap.lookup_updateAll f hp, OrderedMap.lookup_updateAll g hp]
    cases hk : p.lookup k with
    | none => rfl
    | some v => exact h _ (OrderedMap.mem_of_lookup hk)

/-- A loop from the empty map rebuilds the patch exactly when it leaves every member as it is. -/
theorem updateAll_nil_eq_iff {f : Option Json → Json → Option Json} {p : List (String × Json)}
    (hp : OrderedMap.Sorted p) :
    OrderedMap.updateAll f [] p = p ↔ ∀ m ∈ p, f none m.2 = some m.2 := by
  constructor
  · rintro h ⟨k, v⟩ hm
    have hk := OrderedMap.lookup_of_mem hp hm
    have := congrArg (List.lookup k) h
    rwa [OrderedMap.lookup_updateAll f hp, hk] at this
  · intro h
    refine OrderedMap.ext_lookup (OrderedMap.sorted_nil.updateAll f p) hp fun k => ?_
    rw [OrderedMap.lookup_updateAll f hp]
    cases hk : p.lookup k with
    | none => rfl
    | some v => exact h _ (OrderedMap.mem_of_lookup hk)

theorem rfcEntry_none_eq_some_iff {v : Json} :
    rfcEntry none v = some v ↔ v ≠ null ∧ rfcMergePatch null v = v := by
  cases v <;> simp [rfcEntry]

/-- Merging into a non-object gives back the patch exactly when the patch is null-free. -/
theorem rfcMergePatch_eq_self_iff (patch : Json) : ∀ base : Json, base.targetMembers = [] →
    patch.isSorted = true → (rfcMergePatch base patch = patch ↔ patch.NullFree) := by
  induction patch using treeInduction with
  | object p ih =>
      intro base hbase hp
      obtain ⟨hps, hpm⟩ := isSorted_object.1 hp
      rw [rfcMergePatch, hbase, object.injEq, rfcMembers_eq, updateAll_nil_eq_iff hps, NullFree,
        nullFreeMembers_iff]
      refine forall₂_congr fun m hm => ?_
      rw [rfcEntry_none_eq_some_iff, ih m hm null rfl (hpm m hm)]
  | _ =>
      intro base _ _
      rw [rfcMergePatch_of_not_object (by simp)]
      simp [NullFree]

/-- A base that is not an object is merged into by replacing it. -/
theorem mergePatch_of_base_not_object {base : Json} (h : ∀ b, base ≠ object b) (patch : Json) :
    mergePatch base patch = patch := by
  cases base with
  | object b => exact absurd rfl (h b)
  | _ => cases patch <;> rfl

theorem mergesCleanly_of_base_not_object {base : Json} (h : ∀ b, base ≠ object b)
    (patch : Json) : MergesCleanly base patch ↔ patch.NullFree := by
  cases base with
  | object b => exact absurd rfl (h b)
  | _ => cases patch <;> rfl

theorem mergedEntry_some {v : Json} (hv : v ≠ null) (bv : Json) :
    mergedEntry (some bv) v = some (mergePatch bv v) := by
  cases v with
  | null => exact absurd rfl hv
  | _ => rfl

theorem mergedEntry_none {v : Json} (hv : v ≠ null) : mergedEntry none v = some v := by
  cases v with
  | null => exact absurd rfl hv
  | _ => rfl

theorem rfcEntry_of_ne_null {v : Json} (hv : v ≠ null) (o : Option Json) :
    rfcEntry o v = some (rfcMergePatch (o.getD null) v) := by
  cases v with
  | null => exact absurd rfl hv
  | _ => rfl

/-- What the two loops leave under a key, if the patch value is not `null`. -/
theorem mergedEntry_eq_rfcEntry_iff {o : Option Json} {v : Json} (hv : v ≠ null)
    (ho : ∀ j, o = some j → j.isSorted = true) (hs : v.isSorted = true)
    (ih : ∀ base : Json, base.isSorted = true →
      (mergePatch base v = rfcMergePatch base v ↔ MergesCleanly base v)) :
    mergedEntry o v = rfcEntry o v ↔ MergesCleanly (o.getD null) v := by
  rw [rfcEntry_of_ne_null hv]
  cases o with
  | some bv =>
      rw [mergedEntry_some hv, Option.some.injEq]
      exact ih bv (ho bv rfl)
  | none =>
      rw [mergedEntry_none hv, Option.some.injEq, eq_comm]
      exact (rfcMergePatch_eq_self_iff v null rfl hs).trans
        (mergesCleanly_of_base_not_object (by simp) v).symm

/-- **The two merges agree exactly when the patch merges cleanly into the base.** -/
theorem mergePatch_eq_rfcMergePatch_iff (patch : Json) (hp : patch.isSorted = true) : ∀ base : Json,
    base.isSorted = true →
      (mergePatch base patch = rfcMergePatch base patch ↔ MergesCleanly base patch) := by
  induction patch using treeInduction with
  | object p ih =>
      intro base hb
      obtain ⟨hps, hpm⟩ := isSorted_object.1 hp
      cases base with
      | object b =>
          rw [mergePatch, rfcMergePatch, object.injEq, mergeMembers_eq, rfcMembers_eq,
            targetMembers, updateAll_eq_iff (isSorted_object.1 hb).1 hps, MergesCleanly,
            mergesCleanlyMembers_iff]
          refine forall₂_congr fun m hm => ?_
          rcases eq_or_ne m.2 null with hv | hv
          · simp [hv, mergedEntry, rfcEntry]
          · rw [mergedEntry_eq_rfcEntry_iff hv (fun j hj => isSorted_of_lookup hb hj) (hpm m hm)
              (ih m hm (hpm m hm))]
            simp [hv]
      | _ =>
          rw [mergePatch_of_base_not_object (by simp), mergesCleanly_of_base_not_object (by simp),
            eq_comm]
          exact rfcMergePatch_eq_self_iff (object p) _ rfl hp
  | _ =>
      intro base _
      rw [mergePatch_of_not_object (by simp), rfcMergePatch_of_not_object (by simp)]
      cases base <;> simp [MergesCleanly, NullFree]

/-! ### Values without U+0000 -/

/-- Neither the key nor the value of a member contains U+0000. -/
def NulFreeMember (m : String × Json) : Prop :=
  m.1.toList.contains '\x00' = false ∧ m.2.hasNul = false

theorem hasNul_object_iff {ms : List (String × Json)} :
    (object ms).hasNul = false ↔ ∀ m ∈ ms, NulFreeMember m := by
  rw [hasNul]
  induction ms with
  | nil => simp [hasNulMembers]
  | cons m ms ih =>
      rw [hasNulMembers, Bool.or_eq_false_iff, Bool.or_eq_false_iff, ih, List.forall_mem_cons,
        NulFreeMember]

/-- Going through the members of a patch brings no U+0000 into a map, if what is put under each key
has none. -/
theorem nulFreeMember_updateAll {f : Option Json → Json → Option Json} {b p : List (String × Json)}
    (hb : OrderedMap.Sorted b) (hp : OrderedMap.Sorted p) (hbn : ∀ m ∈ b, NulFreeMember m)
    (hf : ∀ m ∈ p, ∀ j, f (b.lookup m.1) m.2 = some j → NulFreeMember (m.1, j)) :
    ∀ m ∈ OrderedMap.updateAll f b p, NulFreeMember m := by
  rintro ⟨k, v⟩ hm
  rcases OrderedMap.mem_updateAll hb hp hm with hm | ⟨w, hw, hv⟩
  · exact hbn _ hm
  · exact hf (k, w) hw v hv

/-- The loop of `merge_patch` brings no U+0000 into a map, if the members of the patch that are not
`null` have none, and no merge below them does. -/
theorem nulFreeMember_mergeMembers {b p : List (String × Json)} (hb : (object b).isSorted = true)
    (hp : (object p).isSorted = true) (hbn : ∀ m ∈ b, NulFreeMember m)
    (hpn : ∀ m ∈ p, m.2 ≠ null → NulFreeMember m)
    (hmerge : ∀ m ∈ p, ∀ bv : Json, bv.isSorted = true → m.2.isSorted = true → bv.hasNul = false →
      m.2.hasNul = false → (mergePatch bv m.2).hasNul = false) :
    ∀ m ∈ mergeMembers b p, NulFreeMember m := by
  obtain ⟨hbs, -⟩ := isSorted_object.1 hb
  obtain ⟨hps, hpm⟩ := isSorted_object.1 hp
  rw [mergeMembers_eq]
  refine nulFreeMember_updateAll hbs hps hbn fun m hm j hj => ?_
  have hv : m.2 ≠ null := by
    intro hv
    rw [hv, mergedEntry] at hj
    exact absurd hj (by simp)
  obtain ⟨hkey, hvalue⟩ := hpn m hm hv
  refine ⟨hkey, ?_⟩
  cases hl : b.lookup m.1 with
  | none =>
      rw [hl, mergedEntry_none hv, Option.some.injEq] at hj
      exact hj ▸ hvalue
  | some bv =>
      rw [hl, mergedEntry_some hv, Option.some.injEq] at hj
      have hbv : bv.hasNul = false := (hbn _ (OrderedMap.mem_of_lookup hl)).2
      exact hj ▸ hmerge m hm bv (isSorted_of_lookup hb hl) (hpm m hm) hbv hvalue

/-- **Merging values without U+0000 gives one.** -/
theorem hasNul_mergePatch (patch : Json) : ∀ base : Json, base.isSorted = true →
    patch.isSorted = true → base.hasNul = false → patch.hasNul = false →
      (mergePatch base patch).hasNul = false := by
  induction patch using treeInduction with
  | object p ih =>
      intro base hb hp hbn hpn
      cases base with
      | object b =>
          rw [mergePatch, hasNul_object_iff]
          exact nulFreeMember_mergeMembers hb hp (hasNul_object_iff.1 hbn)
            (fun m hm _ => hasNul_object_iff.1 hpn m hm) fun m hm bv => ih m hm bv
      | _ => exact hpn
  | _ =>
      intro base _ _ _ hpn
      rwa [mergePatch_of_not_object (by simp)]

/-! ### A patch of the empty object -/

theorem sorted_mergeMembers {out : List (String × Json)} (h : OrderedMap.Sorted out)
    (p : List (String × Json)) : OrderedMap.Sorted (mergeMembers out p) := by
  rw [mergeMembers_eq]
  exact h.updateAll mergedEntry p

/-- **The empty object is patched to the members of the patch that are not `null`.** -/
theorem mem_mergeMembers_nil {p : List (String × Json)} (hp : OrderedMap.Sorted p)
    {m : String × Json} : m ∈ mergeMembers [] p ↔ m ∈ p ∧ m.2 ≠ null := by
  obtain ⟨k, v⟩ := m
  have hmem : (k, v) ∈ mergeMembers [] p ↔ (mergeMembers [] p).lookup k = some v :=
    ⟨OrderedMap.lookup_of_mem (sorted_mergeMembers OrderedMap.sorted_nil p),
      OrderedMap.mem_of_lookup⟩
  rw [hmem, lookup_mergeMembers hp, List.lookup_nil]
  constructor
  · intro h
    cases hl : p.lookup k with
    | none => simp [hl] at h
    | some w =>
        rw [hl] at h
        change mergedEntry none w = some v at h
        rcases eq_or_ne w null with rfl | hw
        · exact absurd h (by simp [mergedEntry])
        · rw [mergedEntry_none hw, Option.some.injEq] at h
          exact h ▸ ⟨OrderedMap.mem_of_lookup hl, hw⟩
  · rintro ⟨hm, hv⟩
    rw [OrderedMap.lookup_of_mem hp hm]
    exact mergedEntry_none hv

theorem utf8ByteSize_printMembers_cons (m : String × Json) (ms : List (String × Json)) :
    (printMembers (m :: ms)).utf8ByteSize =
      ("," ++ quote m.1 ++ ":" ++ m.2.print).utf8ByteSize + (printMembers ms).utf8ByteSize := by
  rw [printMembers, String.utf8ByteSize_append]

/-- The order of members does not matter for the length of their text. -/
theorem utf8ByteSize_printMembers_perm {ms ms' : List (String × Json)} (h : ms.Perm ms') :
    (printMembers ms).utf8ByteSize = (printMembers ms').utf8ByteSize := by
  induction h with
  | nil => rfl
  | cons m _ ih => rw [utf8ByteSize_printMembers_cons, utf8ByteSize_printMembers_cons, ih]
  | swap m m' ms =>
      simp only [utf8ByteSize_printMembers_cons]
      exact Nat.add_left_comm _ _ _
  | trans _ _ ih ih' => rw [ih, ih']

theorem utf8ByteSize_printMembers_le {ms ms' : List (String × Json)} (h : ms.Sublist ms') :
    (printMembers ms).utf8ByteSize ≤ (printMembers ms').utf8ByteSize := by
  induction h with
  | slnil => exact le_rfl
  | cons m _ ih =>
      rw [utf8ByteSize_printMembers_cons]
      exact Nat.le_add_left_of_le ih
  | cons_cons m _ ih =>
      rw [utf8ByteSize_printMembers_cons, utf8ByteSize_printMembers_cons]
      exact Nat.add_le_add_left ih _

/-- An object with members has one comma less than members, and two braces. -/
theorem size_object {ms : List (String × Json)} (h : ms ≠ []) :
    (object ms).size = (printMembers ms).utf8ByteSize + 1 := by
  cases ms with
  | nil => exact absurd rfl h
  | cons m ms =>
      rw [size, print, utf8ByteSize_printMembers_cons]
      simp only [String.utf8ByteSize_append]
      have hbraces : "\x7b".utf8ByteSize = 1 ∧ "\x7d".utf8ByteSize = 1 ∧ ",".utf8ByteSize = 1 :=
        ⟨rfl, rfl, rfl⟩
      omega

/-- Some of the members of an object make up an object that is no longer. -/
theorem size_object_le {ms ms' : List (String × Json)} (hms : ms.Subperm ms') :
    (object ms).size ≤ (object ms').size := by
  obtain ⟨l, hperm, hsub⟩ := hms
  have hle : (printMembers ms).utf8ByteSize ≤ (printMembers ms').utf8ByteSize := by
    rw [← utf8ByteSize_printMembers_perm hperm]
    exact utf8ByteSize_printMembers_le hsub
  rcases eq_or_ne ms [] with rfl | hne
  · cases ms' with
    | nil => exact le_rfl
    | cons m ms' =>
        have hempty : (object []).size = 2 := rfl
        have hcomma : 1 ≤ ("," ++ quote m.1 ++ ":" ++ m.2.print).utf8ByteSize := by
          rw [String.append_assoc, String.append_assoc, String.utf8ByteSize_append]
          exact Nat.le_add_right 1 _
        rw [hempty, size_object (by simp), utf8ByteSize_printMembers_cons]
        exact Nat.succ_le_succ (Nat.le_add_right_of_le hcomma)
  · have hne' : ms' ≠ [] := by
      rintro rfl
      rw [List.sublist_nil.1 hsub] at hperm
      exact hne hperm.symm.eq_nil
    rw [size_object hne, size_object hne']
    exact Nat.succ_le_succ hle

/-- **The empty object is patched to one that is no longer than the patch.** -/
theorem size_mergePatch_nil {p : List (String × Json)} (hp : OrderedMap.Sorted p) :
    (mergePatch (object []) (object p)).size ≤ (object p).size := by
  rw [mergePatch]
  refine size_object_le (List.subperm_of_subset ?_ fun m hm => ((mem_mergeMembers_nil hp).1 hm).1)
  exact List.Nodup.of_map Prod.fst
    ((sorted_mergeMembers OrderedMap.sorted_nil p).imp fun h => h.ne)

end Json

/-! ### Values -/

namespace Value

/-- `merge_patch` on values. -/
def mergePatch (base patch : Value) : Value :=
  ⟨Json.mergePatch base.json patch.json,
    Json.mergePatch_isSorted patch.json base.json base.sorted patch.sorted⟩

/-- The RFC's `MergePatch` on values. -/
def rfcMergePatch (base patch : Value) : Value :=
  ⟨Json.rfcMergePatch base.json patch.json,
    Json.rfcMergePatch_isSorted patch.json base.json base.sorted patch.sorted⟩

/-- **`merge_patch` is the RFC's `MergePatch` exactly on the patches that merge cleanly**: those
that hold a `null` member only at places where the base holds an object too. -/
theorem mergePatch_eq_rfc_iff (base patch : Value) :
    base.mergePatch patch = base.rfcMergePatch patch ↔
      Json.MergesCleanly base.json patch.json := by
  rw [Value.ext_iff]
  exact Json.mergePatch_eq_rfcMergePatch_iff patch.json patch.sorted base.json base.sorted

/-- The base `{}` and the patch `{"a":{"b":null}}`: the source stores the `null`, the RFC drops
it. -/
theorem mergePatch_ne_rfc : ¬ ∀ base patch : Value,
    base.mergePatch patch = base.rfcMergePatch patch := by
  intro h
  have := h ⟨.object [], rfl⟩ ⟨.object [("a", .object [("b", .null)])], rfl⟩
  simp [Value.ext_iff, mergePatch, rfcMergePatch, Json.mergePatch, Json.mergeMembers,
    Json.rfcMergePatch, Json.rfcMembers, Json.targetMembers, OrderedMap.insert,
    OrderedMap.remove] at this

end Value

end SettingsService
