import SettingsService.SettingsModel
import Mathlib.Data.List.AList

/-!
# The trace context of a notification

The notifier writes its carrier, a map, as a list of User Properties, in whatever order it iterates
over the map.  The broker forwards the list, and others may have put properties of their own into
it.  The receiver inserts one property after another into a new map, under the name in lower case,
so that of two properties of one name the later one stays.

Main definitions:

* `Carrier`, `UserProperties` — the map, and the list on the wire;
* `userProperties` — what the notifier writes;
* `handlePublish` — what the receiver reads.

Main results:

* `lookup_foldl_insert` — of properties that agree on a name the order does not matter;
* `trace_context_survives` — **every entry of the carrier arrives**, whatever the order and wherever
  the foreign properties stand.
-/

set_option relaxedAutoImplicit false
set_option autoImplicit false

namespace SettingsService

/-! ### Maps that are built by insertion -/

section Insertion

variable {K K' V : Type} [DecidableEq K] (f : K' → K)

/-- What is never written stays. -/
theorem lookup_foldl_insert_of_forall_ne {es : List (K' × V)} {k : K} (hes : ∀ e ∈ es, f e.1 ≠ k)
    (m : AList fun _ : K => V) :
    (es.foldl (fun m e => m.insert (f e.1) e.2) m).lookup k = m.lookup k := by
  induction es generalizing m with
  | nil => rfl
  | cons e es ih =>
      obtain ⟨he, hes⟩ := List.forall_mem_cons.1 hes
      rw [List.foldl_cons, ih hes, AList.lookup_insert_ne he.symm]

/-- Whatever the order of the writes, one value is read back if it is the only one that is written
for the key. -/
theorem lookup_foldl_insert {es : List (K' × V)} {k : K} {v : V}
    (hes : ∀ e ∈ es, f e.1 = k → e.2 = v) (hmem : ∃ e ∈ es, f e.1 = k) (m : AList fun _ : K => V) :
    (es.foldl (fun m e => m.insert (f e.1) e.2) m).lookup k = some v := by
  induction es generalizing m with
  | nil =>
      obtain ⟨e, he, -⟩ := hmem
      cases he
  | cons e es ih =>
      obtain ⟨he, hes⟩ := List.forall_mem_cons.1 hes
      rw [List.foldl_cons]
      by_cases hlater : ∃ e' ∈ es, f e'.1 = k
      · exact ih hes hlater _
      · -- the write at hand is the last one of the key
        have hlast : ∀ e' ∈ es, f e'.1 ≠ k := fun e' he' hk => hlater ⟨e', he', hk⟩
        obtain ⟨e', he', hk⟩ := hmem
        obtain rfl : e' = e := (List.mem_cons.1 he').resolve_right fun h => hlast e' h hk
        rw [lookup_foldl_insert_of_forall_ne f hlast, hk, AList.lookup_insert, he hk]

end Insertion

/-! ### The two ends -/

/-- A carrier of the propagator: a map from names to values. -/
abbrev Carrier : Type := AList fun _ : String => String

/-- The User Properties of a message. -/
abbrev UserProperties : Type := List (String × String)

/-- `iter` is an iteration over the map: every entry once, in some order. -/
def Carrier.Iterates (carrier : Carrier) (iter : List (String × String)) : Prop :=
  iter.Perm (carrier.entries.map fun e => (e.1, e.2))

/-- The User Properties `MqttNotifier::notify` writes, when it meets the entries in this order. -/
def userProperties (iter : List (String × String)) : UserProperties :=
  iter.foldl (fun props e => props ++ [e]) []

/-- The carrier `handle_publish` builds from the properties of a message and hands to the
propagator; `toLowercase` is `str::to_lowercase`. -/
def handlePublish (toLowercase : String → String) (properties : Option UserProperties) : Carrier :=
  match properties with
  | some props => props.foldl (fun carrier e => carrier.insert (toLowercase e.1) e.2) ∅
  | none => ∅

theorem userProperties_eq (iter : List (String × String)) : userProperties iter = iter := by
  have hpush (props : UserProperties) :
      iter.foldl (fun props e => props ++ [e]) props = props ++ iter := by
    induction iter generalizing props with
    | nil => rw [List.foldl_nil, List.append_nil]
    | cons e iter ih => rw [List.foldl_cons, ih, List.append_assoc, List.singleton_append]
  exact hpush []

/-- A message without properties is one with an empty list of them. -/
theorem handlePublish_eq (toLowercase : String → String) (properties : Option UserProperties) :
    handlePublish toLowercase properties =
      (properties.getD []).foldl (fun carrier e => carrier.insert (toLowercase e.1) e.2) ∅ := by
  cases properties with
  | none => rfl
  | some props => rfl

/-- An iteration meets what the map holds. -/
theorem Carrier.Iterates.mem_iff {carrier : Carrier} {iter : List (String × String)}
    (h : carrier.Iterates iter) {k v : String} : (k, v) ∈ iter ↔ carrier.lookup k = some v := by
  rw [List.Perm.mem_iff h, ← Option.mem_def, AList.mem_lookup_iff, List.mem_map]
  constructor
  · rintro ⟨e, he, hkv⟩
    obtain ⟨rfl, rfl⟩ := Prod.mk.inj hkv
    exact he
  · intro he
    exact ⟨_, he, rfl⟩

/-! ### The context arrives -/

/-- **The trace context survives.**  The names of the carrier are in lower case, the notifier writes
its entries in any order, and whatever foreign properties of other names are received among them:
the receiver reads every entry of the carrier as it was. -/
theorem trace_context_survives (toLowercase : String → String) (carrier : Carrier)
    (iter : List (String × String)) (foreign : UserProperties) (properties : Option UserProperties)
    (hlower : ∀ k ∈ carrier, toLowercase k = k) (hiter : carrier.Iterates iter)
    (hforeign : ∀ p ∈ foreign, toLowercase p.1 ∉ carrier)
    (hreceived : (properties.getD []).Perm (userProperties iter ++ foreign)) :
    ∀ k ∈ carrier, (handlePublish toLowercase properties).lookup k = carrier.lookup k := by
  intro k hk
  obtain ⟨v, hv⟩ := Option.isSome_iff_exists.1 (AList.lookup_isSome.2 hk)
  have hmem : ∀ p : String × String, p ∈ properties.getD [] ↔ p ∈ iter ∨ p ∈ foreign := by
    intro p
    rw [hreceived.mem_iff, userProperties_eq, List.mem_append]
  rw [handlePublish_eq, hv]
  refine lookup_foldl_insert toLowercase ?_ ⟨(k, v), (hmem _).2 (.inl (hiter.mem_iff.2 hv)),
    hlower k hk⟩ ∅
  rintro ⟨k', v'⟩ hp hk'
  rcases (hmem _).1 hp with hown | hother
  · -- a property of the carrier that is read under `k` is that of `k`
    have hv' := hiter.mem_iff.1 hown
    have hin : k' ∈ carrier := AList.lookup_isSome.1 (Option.isSome_iff_exists.2 ⟨v', hv'⟩)
    rw [← (hlower k' hin).symm.trans hk', hv'] at hv
    exact Option.some.inj hv
  · exact absurd (hk' ▸ hk) (hforeign _ hother)

/-- The two names of the convention, written in the other order, with a property of another name in
mixed case around them. -/
theorem trace_context_survives_two_names :
    let carrier : Carrier := (AList.singleton "tracestate" "vendor1=value1").insert "traceparent"
      "00-0af7651916cd43dd8448eb211c80319c-b7ad6b7169203331-01"
    (handlePublish toAsciiLowercase (some [("Source", "a"), ("tracestate", "vendor1=value1"),
        ("SOURCE", "b"), ("traceparent",
          "00-0af7651916cd43dd8448eb211c80319c-b7ad6b7169203331-01")])).lookup "traceparent" =
      carrier.lookup "traceparent" := by
  intro carrier
  have hiter : carrier.Iterates [("tracestate", "vendor1=value1"),
      ("traceparent", "00-0af7651916cd43dd8448eb211c80319c-b7ad6b7169203331-01")] :=
    List.Perm.swap _ _ []
  exact trace_context_survives toAsciiLowercase carrier _ [("Source", "a"), ("SOURCE", "b")] _
    (by decide +kernel) hiter (by decide +kernel) (by decide +kernel) "traceparent"
    (by decide +kernel)

end SettingsService
