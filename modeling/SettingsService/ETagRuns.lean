import SettingsService.Runs

/-!
# ETags over a run

The ETag of a response is the version of its setting.  Over a run, one request at a time, an ETag
of an identity stands for one value as long as no row is created under an identity that had one
before; an `INSERT` after a `DELETE` starts the versions of the identity over.

Main definitions:

* `ETagsUnique` — an ETag is never reused for another value, and a precondition taken from a
  response holds only while nothing happened to the row;
* `NoRecreation` — no request of the run creates a row under an identity that had one before.

Main results:

* `etagsUnique_of_noRecreation` — **runs without re-creation never reuse an ETag**;
* `not_etagsUnique` — a run that does.
-/

set_option relaxedAutoImplicit false
set_option autoImplicit false

namespace SettingsService

open OptimisticLock (Change Run)

/-- **ETags are never reused** in a run. -/
structure ETagsUnique (pg : Postgres) (base : Anchor) (T₀ : Table) (reqs : List Request) :
    Prop where
  /-- Two responses for an identity with one version carry one value. -/
  same_value : ∀ i j s s', responseAt pg base T₀ reqs i = some (.ok (.setting s)) →
    responseAt pg base T₀ reqs j = some (.ok (.setting s')) → s.identity = s'.identity →
    s.version = s'.version → s.value = s'.value
  /-- A write whose precondition was taken from a response takes effect only if no write of its
  identity took effect since. -/
  precondition : ∀ i j s w, i < j → responseAt pg base T₀ reqs i = some (.ok (.setting s)) →
    reqs[j]? = some (.write w) → w.identity = s.identity → w.expected = some s.version →
    changesAt pg base T₀ reqs j ≠ [] →
    ∀ l, i < l → l < j → ∀ c ∈ changesAt pg base T₀ reqs l, c.key ≠ s.identity

/-- No request of the run creates a row under an identity that had a row at an earlier point. -/
def NoRecreation (pg : Postgres) (base : Anchor) (T₀ : Table) (reqs : List Request) : Prop :=
  ∀ i < reqs.length, ∀ c ∈ changesAt pg base T₀ reqs i, c.creates c.key = true →
    ∀ j ≤ i, (tableAt pg base T₀ reqs j).row? c.key = none

instance (pg : Postgres) (base : Anchor) (T₀ : Table) (reqs : List Request) :
    Decidable (NoRecreation pg base T₀ reqs) :=
  inferInstanceAs (Decidable (∀ i < _, ∀ c ∈ _, _ → ∀ j ≤ i, _))

variable {pg : Postgres} {base : Anchor} {T₀ : Table} {reqs : List Request}

/-- A response shows the row of its identity in the table it leaves. -/
theorem exists_row_of_responseAt {i : ℕ} {s : Setting}
    (h : responseAt pg base T₀ reqs i = some (.ok (.setting s))) : ∃ r,
      (tableAt pg base T₀ reqs (i + 1)).row? s.identity = some r ∧ r.intoDomain base = .ok s := by
  rw [responseAt, Option.map_eq_some_iff] at h
  obtain ⟨q, hq, hres⟩ := h
  rw [tableAt_succ hq]
  exact q.exists_row_of_response hres

/-- Where a row is there, no later change of the run creates it. -/
theorem NoRecreation.creates_eq_false (hnr : NoRecreation pg base T₀ reqs) {i n : ℕ}
    {id : Identity} {r : SettingRecord} (hr : (tableAt pg base T₀ reqs i).row? id = some r)
    {c : Change Identity SettingRecord} (hc : c ∈ changesFrom pg base T₀ reqs i n) :
    c.creates id = false := by
  obtain ⟨l, hil, -, hc⟩ := mem_changesFrom.1 hc
  obtain ⟨w, hw, -⟩ := makes_of_mem_changesAt hc
  rw [Bool.eq_false_iff]
  intro hcr
  have hkey : c.key = id := by
    cases c <;> simp_all [Change.creates, Change.key]
  have := hnr l (List.getElem?_eq_some_iff.1 hw).1 c hc (hkey ▸ hcr) i hil
  rw [hkey, hr] at this
  exact absurd this (by simp)

/-- The changes of a run present positive versions. -/
theorem one_le_of_presents {i n : ℕ} {c : Change Identity SettingRecord}
    (hc : c ∈ changesFrom pg base T₀ reqs i n) {e : ℤ} (he : c.presents = some e) : 1 ≤ e := by
  obtain ⟨l, -, -, hc⟩ := mem_changesFrom.1 hc
  obtain ⟨w, -, hm⟩ := makes_of_mem_changesAt hc
  obtain ⟨m, r, -, rfl, h1, -⟩ := hm.found e he
  omega

/-- Between two tables that show an identity at one version, nothing happened to it. -/
theorem NoRecreation.content_eq (hnr : NoRecreation pg base T₀ reqs) {i n : ℕ} {id : Identity}
    {r r' : SettingRecord} (hr : (tableAt pg base T₀ reqs i).row? id = some r)
    (hr' : (tableAt pg base T₀ reqs (i + n)).row? id = some r')
    (hv : max r.version 1 = max r'.version 1) :
    r = r' ∧ ∀ c ∈ changesFrom pg base T₀ reqs i n, c.key ≠ id :=
  (run_changesFrom i n).content_eq (fun _ hc => hnr.creates_eq_false hr hc)
    (fun _ hc _ he => one_le_of_presents hc he) (Table.view_eq_some_iff.2 ⟨hr, rfl⟩)
    (Table.view_eq_some_iff.2 ⟨hr', rfl⟩) hv

/-- A later response with the same setting and version has the same value. -/
theorem NoRecreation.value_eq_of_le (hnr : NoRecreation pg base T₀ reqs) {i j : ℕ} {s s' : Setting}
    (hij : i ≤ j) (hs : responseAt pg base T₀ reqs i = some (.ok (.setting s)))
    (hs' : responseAt pg base T₀ reqs j = some (.ok (.setting s')))
    (hid : s.identity = s'.identity) (hv : s.version = s'.version) : s.value = s'.value := by
  obtain ⟨r, hr, hdec⟩ := exists_row_of_responseAt hs
  obtain ⟨r', hr', hdec'⟩ := exists_row_of_responseAt hs'
  obtain ⟨n, rfl⟩ := Nat.exists_eq_add_of_le hij
  rw [← hid, Nat.add_right_comm] at hr'
  have h := version_of_intoDomain hdec
  have h' := version_of_intoDomain hdec'
  obtain ⟨rfl, -⟩ := hnr.content_eq hr hr' (by omega)
  exact SettingValue.ext (h.2.trans h'.2.symm)

/-- **Runs without re-creation never reuse an ETag.** -/
theorem etagsUnique_of_noRecreation (pg : Postgres) (base : Anchor) (T₀ : Table)
    (reqs : List Request) (hnr : NoRecreation pg base T₀ reqs) :
    ETagsUnique pg base T₀ reqs := by
  constructor
  · -- the earlier of the two responses first
    intro i j s s' hs hs' hid hv
    rcases Nat.le_total i j with hij | hij
    · exact hnr.value_eq_of_le hij hs hs' hid hv
    · exact (hnr.value_eq_of_le hij hs' hs hid.symm hv.symm).symm
  · intro i j s w hij hs hw hid he hne l hil hlj c hc
    obtain ⟨r, hr, hdec⟩ := exists_row_of_responseAt hs
    obtain ⟨n, rfl⟩ := Nat.exists_eq_add_of_le hij
    obtain ⟨d, hd⟩ := List.exists_mem_of_ne_nil _ hne
    obtain ⟨w', hw', hm⟩ := makes_of_mem_changesAt hd
    obtain rfl : w = w' := by
      rw [hw] at hw'
      simpa using hw'
    cases hp : d.presents with
    | none =>
        -- a creation, of an identity that had a row
        have hcr : d.creates d.key = true := by
          cases d <;> simp_all [Change.creates, Change.key, Change.presents]
        have := hnr _ (List.getElem?_eq_some_iff.1 hw).1 d hd hcr (i + 1) hij
        rw [hm.key_eq, hid, hr] at this
        exact absurd this (by simp)
    | some e =>
        obtain ⟨m, r', hm', rfl, -, hr', hv'⟩ := hm.found e hp
        rw [he, Option.some.injEq] at hm'
        rw [hid] at hr'
        have h := version_of_intoDomain hdec
        refine (hnr.content_eq hr hr' ?_).2 c (mem_changesFrom.2 ⟨l, hil, hlj, hc⟩)
        omega

open Sample in
/-- A put, a read, a put of the version read, and a delete. -/
theorem etagsUnique_of_two_puts :
    ETagsUnique (Postgres.ofJsonb id) ⟨0, 0⟩ Table.empty
      [.write (.put theme dark alice none 0), .get theme alice,
        .write (.put theme light alice (some 1) 0), .write (.delete theme alice 2)] :=
  etagsUnique_of_noRecreation _ _ _ _ (by decide +kernel)

open Sample in
/-- **An ETag can be reused**: a row is put, deleted and put again with another value, both times at
version one. -/
theorem not_etagsUnique :
    ¬ ∀ (pg : Postgres) (base : Anchor), (∀ v, pg.jsonb v = v) → ∀ (T₀ : Table)
      (reqs : List Request), ETagsUnique pg base T₀ reqs := by
  intro h
  have hvalue := (h (Postgres.ofJsonb id) ⟨0, 0⟩ (fun _ => rfl) Table.empty
    [.write (.put theme dark alice none 0), .write (.delete theme alice 1),
      .write (.put theme light alice none 0)]).same_value 0 2
    ⟨theme, dark, alice.scopeOwnership, 1, 0⟩ ⟨theme, light, alice.scopeOwnership, 1, 0⟩
    rfl rfl rfl rfl
  exact absurd (congrArg (fun v : SettingValue => v.value.json.print) hvalue) (by decide)

end SettingsService
