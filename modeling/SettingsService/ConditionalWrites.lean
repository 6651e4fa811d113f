import SettingsService.Visibility

/-!
# Conditional writes of the adapter

The repository port asks that an update or a removal succeeds only for the version it expects, that
a stale version is a `VersionConflict` and an absent row `NotFound`.  The adapter compares with the
low 32 bits of the version expected, and finds out by a second statement why it matched no row.

Main definitions:

* `HonoursExpected` — what the port asks of one call;
* `Classifies` — what the adapter does, by the row addressed and the version it compares with.

Main results:

* `asI32_eq_iff` — when a version is taken for another one;
* `Repo.classifies_update`, `Repo.classifies_delete` — what the two methods do, on every table;
* `honoursExpected_iff` — **the port is implemented exactly when** the row has the version expected,
  or the statement is accepted and the versions do not differ by a multiple of `2 ^ 32`;
* `not_honoursExpected` — a row that is updated, and removed, at a version it does not have.
-/

set_option relaxedAutoImplicit false
set_option autoImplicit false

namespace SettingsService

open Interaction (Prog)

variable {pg : Postgres} {base : Anchor}

/-! ### The port and the adapter -/

section Port

variable {α : Type}

/-- **What the port asks** of a call that expects a version of the row addressed, on a table. -/
structure HonoursExpected (row : Option SettingRecord) (expected : ℕ) (T : Table)
    (res : Except SettingsError α × Table) : Prop where
  success : ∀ a, res.1 = .ok a → ∃ r, row = some r ∧ r.version = expected
  stale : ∀ r, row = some r → r.version ≠ expected → res = (.error .versionConflict, T)
  absent : row = none → res = (.error .notFound, T)

/-- What the adapter answers when no row matched. -/
def missed (row : Option SettingRecord) : SettingsError :=
  if row.isSome = true then .versionConflict else .notFound

/-- What the adapter does: it compares with the version `sent`. -/
structure Classifies (accepted : Prop) (row : Option SettingRecord) (sent : ℤ) (T : Table)
    (res : Except SettingsError α × Table) : Prop where
  refused : ¬ accepted → res.1 = .error .internal
  missed : accepted → (∀ r, row = some r → r.version ≠ sent) → res = (.error (missed row), T)
  taken : accepted → ∀ r, row = some r → r.version = sent → res.1 ≠ .error .versionConflict

/-- **The port is implemented exactly when** the row has the version expected, or the statement is
accepted and the row, if there is one, does not have the version sent. -/
theorem Classifies.honours_iff {accepted : Prop} {row : Option SettingRecord} {sent : ℤ}
    {T : Table} {res : Except SettingsError α × Table} (h : Classifies accepted row sent T res)
    (expected : ℕ) :
    HonoursExpected row expected T res ↔ (∃ r, row = some r ∧ r.version = expected) ∨
      accepted ∧ ∀ r, row = some r → r.version ≠ sent := by
  constructor
  · intro hport
    by_cases hexact : ∃ r, row = some r ∧ r.version = expected
    · exact .inl hexact
    · have ha : accepted := by
        by_contra ha
        have hinternal := h.refused ha
        cases hrow : row with
        | none => simp [hport.absent hrow] at hinternal
        | some r => simp [hport.stale r hrow fun hv => hexact ⟨r, hrow, hv⟩] at hinternal
      refine .inr ⟨ha, fun r hr hv => h.taken ha r hr hv ?_⟩
      exact congrArg Prod.fst (hport.stale r hr fun hv => hexact ⟨r, hr, hv⟩)
  · rintro (⟨r, hr, hv⟩ | ⟨ha, hne⟩)
    · refine ⟨fun _ _ => ⟨r, hr, hv⟩, fun r' hr' hv' => ?_, fun hnone => ?_⟩
      · obtain rfl := Option.some.inj (hr.symm.trans hr')
        exact absurd hv hv'
      · exact absurd (hr.symm.trans hnone) (by simp)
    · have hres := h.missed ha hne
      refine ⟨fun a hok => ?_, fun r hr _ => ?_, fun hnone => ?_⟩
      · rw [hres] at hok
        exact absurd hok (by simp)
      · rw [hres, hr]
        rfl
      · rw [hres, hnone]
        rfl

end Port

theorem eq_bmod_iff {v n : ℤ} {m : ℕ} (hv : v.bmod m = v) : v = n.bmod m ↔ (m : ℤ) ∣ n - v := by
  constructor
  · rintro rfl
    exact Int.dvd_self_sub_bmod
  · intro h
    rw [Int.bmod_eq_bmod_iff_bmod_sub_eq_zero.2 (Int.bmod_eq_zero_of_dvd h), hv]

/-- **A version is taken for another one** exactly when they differ by a multiple of `2 ^ 32`. -/
theorem asI32_eq_iff {v : ℤ} (hv : -i32Max - 1 ≤ v ∧ v ≤ i32Max) (n : ℕ) :
    v = asI32 n ↔ ((2 ^ 32 : ℕ) : ℤ) ∣ n - v := by
  rw [i32Max] at hv
  exact eq_bmod_iff (Int.bmod_eq_of_le (by omega) (by omega))

/-! ### The two methods -/

namespace Postgres

variable {T : Table} {tenant key : String} {user : Option String} {version : ℤ}

/-- No row is addressed at a version that the row of the identity does not have. -/
theorem find?_addressed_eq_none
    (h : ∀ r, T.row? (tenant, user.getD "", key) = some r → r.version ≠ version) :
    (T.rows.find? fun r => r.addressed tenant user key && r.version == version) = none := by
  rw [find?_addressed, Option.filter_eq_none_iff]
  intro r hr
  simpa using h r hr

/-- An accepted `UPDATE` at a version that the row does not have. -/
theorem exec_update_of_stale {value : Value} {updatedAt : ℤ}
    (ha : (Stmt.update value updatedAt tenant user key version).accepted = true)
    (h : ∀ r, T.row? (tenant, user.getD "", key) = some r → r.version ≠ version) :
    pg.exec (.update value updatedAt tenant user key version) T = (.ok none, T) := by
  rw [exec_of_accepted ha, execAccepted, Table.updateRows, find?_addressed_eq_none h]

/-- An accepted `DELETE` at a version that the row does not have. -/
theorem exec_delete_of_stale
    (ha : (Stmt.delete tenant user key version).accepted = true)
    (h : ∀ r, T.row? (tenant, user.getD "", key) = some r → r.version ≠ version) :
    pg.exec (.delete tenant user key version) T = (.ok none, T) := by
  have hret : (pg.exec (.delete tenant user key version) T).1 = .ok none := by
    rw [exec_of_accepted ha, execAccepted, Table.deleteRows, find?_addressed_eq_none h]
  refine Prod.ext hret (exec_delete_of_ne fun r hr => ?_)
  exact absurd (hret.symm.trans hr) (by simp)

end Postgres

namespace Repo

variable {T : Table}

/-- The rest of a call that matched no row. -/
def whyMissed (α : Type) (key : SettingKey) (ownership : Ownership) : Db α := do
  if ← existsRow key ownership then throw .versionConflict else throw .notFound

theorem whyMissed_eq (α : Type) (key : SettingKey) (o : Ownership) : (whyMissed α key o).run =
    .call (.count o.tenant.asStr o.userColumn key.asStr) fun r => match r with
      | .ok row => .pure (.error (if (0 : ℤ) < row then .versionConflict else .notFound))
      | .error e => .pure (.error (mapPgErr e)) := by
  refine congrArg (Prog.call _) (funext fun r => ?_)
  rcases r with e | row
  · rfl
  · change (if decide ((0 : ℤ) < row) = true then throw .versionConflict
      else throw .notFound : Db α).run = _
    simp only [decide_eq_true_eq]
    split_ifs <;> rfl

/-- The second statement tells a stale version from an absent row. -/
theorem run_whyMissed {α : Type} {key : SettingKey} {o : Ownership}
    (ha : (Stmt.count o.tenant.asStr o.userColumn key.asStr).accepted = true) :
    Prog.run pg.exec (whyMissed α key o).run T =
      (.error (missed (T.row? (o.identity key.asStr))), T) := by
  obtain ⟨n, hn, hpos⟩ : ∃ n : ℤ, (pg.exec (.count o.tenant.asStr o.userColumn key.asStr) T).1 =
      .ok n ∧ (0 < n ↔ (T.row? (o.tenant.asStr, o.userColumn.getD "", key.asStr)).isSome = true) :=
    Postgres.exec_count_eq ha
  rw [whyMissed_eq, Prog.run_call, Postgres.exec_count_snd, hn]
  simp only [Prog.run_pure, hpos]
  rfl

/-- `update` is its statement, and what its answer leads to. -/
theorem run_update (s : Setting) (n : ℕ) : (update base s n).run =
    .call (.update s.value.value (instantToMillis base s.updatedAt) s.ownership.tenant.asStr
      s.ownership.userColumn s.key.asStr (asI32 n)) fun r => match r with
        | .ok (some r) => .pure (r.intoDomain base)
        | .ok none => (whyMissed Setting s.key s.ownership).run
        | .error e => .pure (.error (mapPgErr e)) := by
  refine congrArg (Prog.call _) (funext fun r => ?_)
  rcases r with e | (_ | r) <;> rfl

/-- `delete` is its statement, and what its answer leads to. -/
theorem run_delete (key : SettingKey) (o : Ownership) (n : ℕ) : (delete key o n).run =
    .call (.delete o.tenant.asStr o.userColumn key.asStr (asI32 n)) fun r => match r with
      | .ok (some _) => .pure (.ok ())
      | .ok none => (whyMissed Unit key o).run
      | .error e => .pure (.error (mapPgErr e)) := by
  refine congrArg (Prog.call _) (funext fun r => ?_)
  rcases r with e | (_ | r) <;> rfl

theorem mapPgErr_ne_versionConflict (e : PgError) : mapPgErr e ≠ .versionConflict := by
  cases e <;> simp [mapPgErr]

/-- **What `update` does**, on every table. -/
theorem classifies_update (s : Setting) (n : ℕ) :
    Classifies ((Stmt.update s.value.value (instantToMillis base s.updatedAt)
        s.ownership.tenant.asStr s.ownership.userColumn s.key.asStr (asI32 n)).accepted = true)
      (T.row? s.identity) (asI32 n) T (Prog.run pg.exec (update base s n).run T) := by
  rw [run_update, Prog.run_call]
  constructor
  case refused =>
    intro ha
    rw [Postgres.exec_of_not_accepted ha]
    rfl
  case missed =>
    intro ha hne
    rw [Postgres.exec_update_of_stale ha hne]
    simp only [Stmt.accepted, Bool.and_eq_true] at ha
    exact run_whyMissed (by simp only [Stmt.accepted, ha, Bool.and_self])
  case taken =>
    intro ha r hr hv
    rcases hret : (pg.exec (.update s.value.value (instantToMillis base s.updatedAt)
      s.ownership.tenant.asStr s.ownership.userColumn s.key.asStr (asI32 n)) T).1 with
      e | (_ | r')
    · simpa using mapPgErr_ne_versionConflict e
    · rw [Postgres.exec_of_accepted ha, Postgres.execAccepted, Table.updateRows,
        Postgres.find?_addressed] at hret
      rw [show (s.ownership.tenant.asStr, s.ownership.userColumn.getD "", s.key.asStr) =
        s.identity from rfl, hr, Option.filter_some, if_pos (by simpa using hv)] at hret
      dsimp only at hret
      split_ifs at hret
      simp at hret
    · intro h
      rcases SettingRecord.intoDomain_eq_error h with h | h <;> exact absurd h (by simp)

/-- **What `delete` does**, on every table. -/
theorem classifies_delete (key : SettingKey) (o : Ownership) (n : ℕ) :
    Classifies ((Stmt.delete o.tenant.asStr o.userColumn key.asStr (asI32 n)).accepted = true)
      (T.row? (o.identity key.asStr)) (asI32 n) T (Prog.run pg.exec (delete key o n).run T) := by
  rw [run_delete, Prog.run_call]
  constructor
  case refused =>
    intro ha
    rw [Postgres.exec_of_not_accepted ha]
    rfl
  case missed =>
    intro ha hne
    rw [Postgres.exec_delete_of_stale ha hne]
    exact run_whyMissed ha
  case taken =>
    intro ha r hr hv
    rw [Postgres.exec_delete_eq_some_iff.2 ⟨ha, hr, hv⟩]
    simp

end Repo

/-- The texts that address the row of an ownership and a key are texts of Postgres. -/
def Ownership.Accepted (o : Ownership) (key : SettingKey) : Prop :=
  textAccepted o.tenant.asStr = true ∧ o.userColumn.all textAccepted = true ∧
    textAccepted key.asStr = true

instance (o : Ownership) (key : SettingKey) : Decidable (o.Accepted key) :=
  inferInstanceAs (Decidable (_ ∧ _))

theorem Ownership.accepted_update_iff {o : Ownership} {key : SettingKey} {value : Value}
    {updatedAt version : ℤ} :
    (Stmt.update value updatedAt o.tenant.asStr o.userColumn key.asStr version).accepted = true ↔
      jsonbAccepted value = true ∧ o.Accepted key := by
  simp only [Stmt.accepted, Bool.and_eq_true, Accepted, and_assoc]

theorem Ownership.accepted_delete_iff {o : Ownership} {key : SettingKey} {version : ℤ} :
    (Stmt.delete o.tenant.asStr o.userColumn key.asStr version).accepted = true ↔
      o.Accepted key := by
  simp only [Stmt.accepted, Bool.and_eq_true, Accepted, and_assoc]

/-- A row does not have the version sent exactly when the versions do not differ by a multiple of
`2 ^ 32`. -/
theorem forall_version_ne_iff {T : Table} {id : Identity} {n : ℕ} :
    (∀ r, T.row? id = some r → r.version ≠ asI32 n) ↔
      ∀ r, T.row? id = some r → ¬ ((2 ^ 32 : ℕ) : ℤ) ∣ n - r.version :=
  forall₂_congr fun _ hr =>
    not_congr (asI32_eq_iff (T.range _ (Table.row?_eq_some_iff.1 hr).1) n)

/-- **The port is implemented exactly when** the row has the version expected, or Postgres takes the
texts and the document and the versions do not differ by a multiple of `2 ^ 32`: for every table,
setting, key, ownership and version. -/
theorem honoursExpected_iff (pg : Postgres) (base : Anchor) (T : Table) :
    (∀ (s : Setting) (n : ℕ),
      HonoursExpected (T.row? s.identity) n T (Prog.run pg.exec (Repo.update base s n).run T) ↔
        (∃ r, T.row? s.identity = some r ∧ r.version = n) ∨
          (jsonbAccepted s.value.value = true ∧ s.ownership.Accepted s.key) ∧
            ∀ r, T.row? s.identity = some r → ¬ ((2 ^ 32 : ℕ) : ℤ) ∣ n - r.version) ∧
    ∀ (key : SettingKey) (o : Ownership) (n : ℕ),
      HonoursExpected (T.row? (o.identity key.asStr)) n T
          (Prog.run pg.exec (Repo.delete key o n).run T) ↔
        (∃ r, T.row? (o.identity key.asStr) = some r ∧ r.version = n) ∨
          o.Accepted key ∧
            ∀ r, T.row? (o.identity key.asStr) = some r → ¬ ((2 ^ 32 : ℕ) : ℤ) ∣ n - r.version := by
  refine ⟨fun s n => ?_, fun key o n => ?_⟩
  · rw [(Repo.classifies_update s n).honours_iff, Ownership.accepted_update_iff,
      forall_version_ne_iff]
  · rw [(Repo.classifies_delete key o n).honours_iff, Ownership.accepted_delete_iff,
      forall_version_ne_iff]

open Sample in
/-- **A row at version 1 is updated, and removed, for the version `2 ^ 32 + 1`.** -/
theorem not_honoursExpected :
    (¬ ∀ (pg : Postgres) (base : Anchor) (T : Table) (s : Setting) (n : ℕ), n < 2 ^ 64 →
      s.ownership.Accepted s.key → jsonbAccepted s.value.value = true →
        HonoursExpected (T.row? s.identity) n T
          (Prog.run pg.exec (Repo.update base s n).run T)) ∧
    ¬ ∀ (pg : Postgres) (T : Table) (key : SettingKey) (o : Ownership) (n : ℕ), n < 2 ^ 64 →
      o.Accepted key → HonoursExpected (T.row? (o.identity key.asStr)) n T
        (Prog.run pg.exec (Repo.delete key o n).run T) := by
  have hrow : (themes [some "alice"] (by decide)).row?
      (alice.scopeOwnership.identity theme.asStr) = some (themeOf (some "alice")) := rfl
  constructor
  · intro h
    obtain ⟨r, hr, hv⟩ := (h (Postgres.ofJsonb id) ⟨0, 0⟩ (themes [some "alice"] (by decide))
      ⟨theme, light, alice.scopeOwnership, 2, 0⟩ 4294967297 (by omega) (by decide)
      (by decide)).success ⟨theme, light, alice.scopeOwnership, 2, 0⟩ rfl
    obtain rfl := Option.some.inj (hrow.symm.trans hr)
    exact absurd hv (by decide)
  · intro h
    obtain ⟨r, hr, hv⟩ := (h (Postgres.ofJsonb id) (themes [some "alice"] (by decide)) theme
      alice.scopeOwnership 4294967297 (by omega) (by decide)).success () rfl
    obtain rfl := Option.some.inj (hrow.symm.trans hr)
    exact absurd hv (by decide)

end SettingsService
