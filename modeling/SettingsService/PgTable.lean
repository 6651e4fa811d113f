import SettingsService.OptimisticLock
import SettingsService.SettingsModel
import Mathlib.Data.List.Sort

/-!
# The `settings` table and the statements run against it

The table of the migration, with its unique index on `(tenant, COALESCE("user", ''), key)` and its
`INTEGER` version column as fields of `Table`, and the SQL statements of the adapter as functions
on it.  What the statements rely on beyond that (how `JSONB` stores a document, the text of a
document, the collation, the order of rows that compare equal) is the structure `Postgres`.

A statement is refused when Postgres rejects one of its parameters: text with a U+0000 is no
`TEXT`, and a document with a U+0000 in a string or key is no `JSONB`.

Main definitions:

* `SettingRecord`, `Table` — rows and the table;
* `Stmt`, `Stmt.Rows` — the statements and what they return;
* `Postgres.exec` — **running one statement**;
* `Stmt.stores`, `Postgres.Keeps` — the value a statement stores, and that `JSONB` gives it back;
* `Table.view`, `Stmt.change` — the table as a store of the optimistic-locking library, and the
  change a statement made to it.

Main results:

* `Postgres.exec_insert_eq_some_iff`, `Postgres.exec_update_eq_some_iff`,
  `Postgres.exec_delete_eq_some_iff` — when a write takes effect, and what it returns;
* `Postgres.exec_change` — **a statement either changes nothing or is one effective change**.
-/

set_option relaxedAutoImplicit false
set_option autoImplicit false

namespace SettingsService

open OptimisticLock (Change Effective)

/-! ### Rows and the table -/

/-- A row of `settings`. -/
structure SettingRecord where
  /-- `tenant TEXT NOT NULL`. -/
  tenant : String
  /-- `"user" TEXT`, `NULL` for a tenant-scoped entry. -/
  user : Option String
  /-- `key TEXT NOT NULL`. -/
  key : String
  /-- `value JSONB NOT NULL`. -/
  value : Value
  /-- `version INTEGER NOT NULL`. -/
  version : ℤ
  /-- `updated_at BIGINT NOT NULL`, in unix milliseconds. -/
  updatedAt : ℤ

/-- What the unique index compares: `(tenant, COALESCE("user", ''), key)`. -/
abbrev Identity : Type := String × String × String

/-- The identity of a row. -/
def SettingRecord.identity (r : SettingRecord) : Identity := (r.tenant, r.user.getD "", r.key)

/-- The largest `INTEGER`. -/
def i32Max : ℤ := 2147483647

/-- **The table**: rows with distinct identities and 32-bit versions. -/
@[ext] structure Table where
  /-- The rows, in the order they were inserted. -/
  rows : List SettingRecord
  /-- The unique index `ux_settings_identity`. -/
  unique : (rows.map SettingRecord.identity).Nodup
  /-- The range of the version column. -/
  range : ∀ r ∈ rows, -i32Max - 1 ≤ r.version ∧ r.version ≤ i32Max

namespace Table

/-- The table without rows. -/
def empty : Table := ⟨[], List.nodup_nil, by simp⟩

/-- The row with a given identity. -/
def row? (T : Table) (id : Identity) : Option SettingRecord :=
  T.rows.find? fun r => decide (r.identity = id)

/-- The table as a store of versioned contents, one for each identity. -/
def view (T : Table) : OptimisticLock.Store Identity SettingRecord :=
  fun id => (T.row? id).map fun r => (r.version, r)

@[simp] theorem row?_empty (id : Identity) : empty.row? id = none := rfl

@[simp] theorem view_empty (id : Identity) : empty.view id = none := rfl

theorem row?_eq_some_iff {T : Table} {id : Identity} {r : SettingRecord} :
    T.row? id = some r ↔ r ∈ T.rows ∧ r.identity = id := by
  constructor
  · intro h
    exact ⟨List.mem_of_find?_eq_some h, by simpa using List.find?_some h⟩
  · rintro ⟨hr, rfl⟩
    cases h : T.row? r.identity with
    | none => exact absurd (List.find?_eq_none.1 h r hr) (by simp)
    | some r' =>
        have hr' : r' ∈ T.rows := List.mem_of_find?_eq_some h
        have hid : r'.identity = r.identity := by simpa using List.find?_some h
        rw [List.inj_on_of_nodup_map T.unique hr' hr hid]

theorem row?_eq_none_iff {T : Table} {id : Identity} :
    T.row? id = none ↔ ∀ r ∈ T.rows, r.identity ≠ id := by
  simp [row?, List.find?_eq_none]

/-- At most one row has a given identity. -/
theorem countP_identity_le (T : Table) (id : Identity) :
    T.rows.countP (fun r => decide (r.identity = id)) ≤ 1 := by
  have h := List.nodup_iff_count_le_one.1 T.unique id
  rw [List.count, List.countP_map] at h
  exact (List.countP_congr fun r _ => by simp).trans_le h

theorem view_eq_some_iff {T : Table} {id : Identity} {n : ℤ} {r : SettingRecord} :
    T.view id = some (n, r) ↔ T.row? id = some r ∧ r.version = n := by
  rw [view, Option.map_eq_some_iff]
  constructor
  · rintro ⟨r', h, he⟩
    obtain ⟨rfl, rfl⟩ := Prod.mk.inj he
    exact ⟨h, rfl⟩
  · rintro ⟨h, rfl⟩
    exact ⟨r, h, rfl⟩

theorem view_eq_none_iff {T : Table} {id : Identity} : T.view id = none ↔ T.row? id = none := by
  rw [view, Option.map_eq_none_iff]

end Table

/-! ### Statements -/

/-- The statements of `PgSettingsRepository`. -/
inductive Stmt
  /-- `SELECT … WHERE tenant = $1 AND key = $2 ORDER BY "user" NULLS FIRST`. -/
  | find (tenant key : String)
  /-- `INSERT … VALUES ($1, $2, $3, $4, 1, $5) ON CONFLICT … DO NOTHING RETURNING …`. -/
  | insert (tenant : String) (user : Option String) (key : String) (value : Value)
      (updatedAt : ℤ)
  /-- `UPDATE … SET value = $1, updated_at = $2, version = version + 1 WHERE … RETURNING …`. -/
  | update (value : Value) (updatedAt : ℤ) (tenant : String) (user : Option String)
      (key : String) (version : ℤ)
  /-- `DELETE … WHERE … RETURNING …`. -/
  | delete (tenant : String) (user : Option String) (key : String) (version : ℤ)
  /-- `SELECT COUNT(*) … WHERE …`. -/
  | count (tenant : String) (user : Option String) (key : String)
  /-- The search CTE, with `LIMIT` and `OFFSET`. -/
  | search (tenant pattern user : String) (isAdmin : Bool) (limit offset : ℕ)

/-- The value a statement stores. -/
def Stmt.stores : Stmt → Option Value
  | .insert _ _ _ value _ => some value
  | .update value _ _ _ _ _ => some value
  | _ => none

/-- A row of the search CTE: the page columns are `NULL` exactly when the page is empty. -/
structure SearchRow where
  tenant : Option String
  user : Option String
  key : Option String
  value : Option Value
  version : Option ℤ
  updatedAt : Option ℤ
  total : ℤ

/-- What a statement returns when it succeeds. -/
@[reducible] def Stmt.Rows : Stmt → Type
  | find .. => List SettingRecord
  | insert .. => Option SettingRecord
  | update .. => Option SettingRecord
  | delete .. => Option SettingRecord
  | count .. => ℤ
  | search .. => List SearchRow

/-- The errors of `sqlx` the adapter tells apart. -/
inductive PgError
  | poolTimedOut
  | io
  | database
  deriving DecidableEq

/-- The answer to a statement. -/
abbrev Stmt.Ret (s : Stmt) : Type := Except PgError s.Rows

/-- A `TEXT` parameter is accepted when it has no U+0000. -/
def textAccepted (s : String) : Bool := !s.toList.contains '\x00'

/-- A `JSONB` parameter is accepted when no string or key in it has a U+0000. -/
def jsonbAccepted (v : Value) : Bool := !v.json.hasNul

/-- All parameters of the statement are accepted. -/
def Stmt.accepted : Stmt → Bool
  | find tenant key => textAccepted tenant && textAccepted key
  | insert tenant user key value _ =>
      textAccepted tenant && user.all textAccepted && textAccepted key && jsonbAccepted value
  | update value _ tenant user key _ =>
      jsonbAccepted value && textAccepted tenant && user.all textAccepted && textAccepted key
  | delete tenant user key _ => textAccepted tenant && user.all textAccepted && textAccepted key
  | count tenant user key => textAccepted tenant && user.all textAccepted && textAccepted key
  | search tenant pattern user _ _ _ =>
      textAccepted tenant && textAccepted pattern && textAccepted user

/-- `ILIKE` with the default escape: `%` matches any text, `_` any one character, a backslash makes
the next character of the pattern literal, and letters match ignoring case. -/
def ilike : List Char → List Char → Bool
  | [], s => s.isEmpty
  | '%' :: p, s => s.tails.any (ilike p)
  | '_' :: p, s =>
      match s with
      | [] => false
      | _ :: s => ilike p s
  | '\\' :: c :: p, s =>
      match s with
      | [] => false
      | d :: s => c.toLower == d.toLower && ilike p s
  | c :: p, s =>
      match s with
      | [] => false
      | d :: s => c.toLower == d.toLower && ilike p s

/-- What the statements rely on beyond the table: how documents are stored and printed, and how
rows are ordered. -/
structure Postgres where
  /-- What a `JSONB` column gives back for a document. -/
  jsonb : Value → Value
  /-- `value::text`. -/
  jsonbText : Value → String
  /-- The collation of text, `≤`. -/
  collate : String → String → Bool
  /-- `ORDER BY key`; rows with equal keys come in any order. -/
  orderByKey : List SettingRecord → List SettingRecord
  /-- Ordering neither adds nor loses rows. -/
  orderByKey_perm : ∀ rs, (orderByKey rs).Perm rs

/-- A Postgres that compares text by code points and prints a document as `serde_json` does. -/
def Postgres.ofJsonb (jsonb : Value → Value) : Postgres where
  jsonb := jsonb
  jsonbText v := v.json.print
  collate u v := decide (u ≤ v)
  orderByKey rs := rs.insertionSort fun r r' => r.key ≤ r'.key
  orderByKey_perm rs := List.perm_insertionSort _ rs

/-- `WHERE tenant = … AND COALESCE("user", '') = COALESCE(…, '') AND key = …`. -/
def SettingRecord.addressed (tenant : String) (user : Option String) (key : String)
    (r : SettingRecord) : Bool :=
  r.tenant == tenant && r.user.getD "" == user.getD "" && r.key == key

theorem SettingRecord.addressed_iff {tenant : String} {user : Option String} {key : String}
    {r : SettingRecord} :
    r.addressed tenant user key = true ↔ r.identity = (tenant, user.getD "", key) := by
  simp [addressed, identity, and_assoc]

/-- The row an `UPDATE` leaves behind. -/
def SettingRecord.rewrite (r : SettingRecord) (value : Value) (updatedAt : ℤ) : SettingRecord :=
  { r with value := value, updatedAt := updatedAt, version := r.version + 1 }

@[simp] theorem SettingRecord.identity_rewrite (r : SettingRecord) (value : Value)
    (updatedAt : ℤ) : (r.rewrite value updatedAt).identity = r.identity := rfl

namespace Table

/-- `INSERT … ON CONFLICT DO NOTHING`: nothing happens if the identity is taken. -/
def insertRow (T : Table) (r : SettingRecord) (hr : r.version = 1) : Option SettingRecord × Table :=
  if h : T.row? r.identity = none then
    (some r, ⟨T.rows ++ [r], by
      rw [List.map_append, List.nodup_append]
      refine ⟨T.unique, by simp, ?_⟩
      simp only [List.map_cons, List.map_nil, List.mem_singleton, List.mem_map]
      rintro _ ⟨r', hr', rfl⟩ _ rfl
      exact row?_eq_none_iff.1 h r' hr', by
      intro r' hr'
      rcases List.mem_append.1 hr' with hr' | hr'
      · exact T.range r' hr'
      · rw [List.mem_singleton.1 hr', hr, i32Max]
        omega⟩)
  else (none, T)

/-- `UPDATE`: all rows that match are rewritten; a version past the range of the column is an
error. -/
def updateRows (T : Table) (p : SettingRecord → Bool) (version : ℤ) (value : Value)
    (updatedAt : ℤ) : Except PgError (Option SettingRecord) × Table :=
  match T.rows.find? fun r => p r && r.version == version with
  | none => (.ok none, T)
  | some r =>
      if h : version < i32Max then
        (.ok (some (r.rewrite value updatedAt)),
          ⟨T.rows.map fun r =>
              if p r && r.version == version then r.rewrite value updatedAt else r, by
            rw [List.map_map]
            convert T.unique using 2
            funext r
            rw [Function.comp_apply]
            split_ifs <;> rfl, by
            intro r' hr'
            obtain ⟨r, hr, rfl⟩ := List.mem_map.1 hr'
            have := T.range r hr
            split_ifs with hp
            · simp only [Bool.and_eq_true, beq_iff_eq] at hp
              simp only [SettingRecord.rewrite]
              omega
            · exact this⟩)
      else (.error .database, T)

/-- `DELETE`: all rows that match are removed. -/
def deleteRows (T : Table) (p : SettingRecord → Bool) : Option SettingRecord × Table :=
  (T.rows.find? p, ⟨T.rows.filter fun r => !p r,
    T.unique.sublist (List.Sublist.map _ List.filter_sublist),
    fun r hr => T.range r (List.mem_of_mem_filter hr)⟩)

end Table

namespace Postgres

variable (pg : Postgres)

/-- `ORDER BY "user" NULLS FIRST`. -/
def nullsFirst (r r' : SettingRecord) : Prop :=
  match r.user, r'.user with
  | none, _ => True
  | some _, none => False
  | some u, some u' => pg.collate u u' = true

instance : DecidableRel pg.nullsFirst := fun r r' => by
  unfold nullsFirst
  cases r.user with
  | none => exact .isTrue trivial
  | some u =>
      cases r'.user with
      | none => exact .isFalse id
      | some u' => exact inferInstanceAs (Decidable (_ = true))

/-- The `visible` rows of the search CTE. -/
def visible (tenant pattern user : String) (isAdmin : Bool) (rows : List SettingRecord) :
    List SettingRecord :=
  rows.filter fun r =>
    r.tenant == tenant &&
      (ilike pattern.toList r.key.toList || ilike pattern.toList (pg.jsonbText r.value).toList) &&
      (r.user == some user || isAdmin && r.user.isNone)

/-- `FROM total t LEFT JOIN page p ON TRUE ORDER BY p.key`: the page, or one row of `NULL`s, each
with the total. -/
def joinTotal (total : ℕ) : List SettingRecord → List SearchRow
  | [] => [⟨none, none, none, none, none, none, total⟩]
  | page => (pg.orderByKey page).map fun r =>
      ⟨some r.tenant, r.user, some r.key, some r.value, some r.version, some r.updatedAt, total⟩

/-- Running a statement whose parameters are accepted. -/
def execAccepted : (s : Stmt) → Table → s.Ret × Table
  | .find tenant key, T =>
      (.ok ((T.rows.filter fun r => r.tenant == tenant && r.key == key).insertionSort
        pg.nullsFirst), T)
  | .insert tenant user key value updatedAt, T =>
      let res := T.insertRow ⟨tenant, user, key, pg.jsonb value, 1, updatedAt⟩ rfl
      (.ok res.1, res.2)
  | .update value updatedAt tenant user key version, T =>
      T.updateRows (SettingRecord.addressed tenant user key) version (pg.jsonb value) updatedAt
  | .delete tenant user key version, T =>
      let res := T.deleteRows fun r => r.addressed tenant user key && r.version == version
      (.ok res.1, res.2)
  | .count tenant user key, T =>
      (.ok ((T.rows.filter (SettingRecord.addressed tenant user key)).length : ℤ), T)
  | .search tenant pattern user isAdmin limit offset, T =>
      let visible := pg.visible tenant pattern user isAdmin T.rows
      (.ok (pg.joinTotal visible.length (((pg.orderByKey visible).drop offset).take limit)), T)

/-- **Running one statement.** -/
def exec (s : Stmt) (T : Table) : s.Ret × Table :=
  if s.accepted then pg.execAccepted s T else (.error .database, T)

variable {pg}

theorem exec_of_accepted {s : Stmt} (h : s.accepted = true) (T : Table) :
    pg.exec s T = pg.execAccepted s T := if_pos h

theorem exec_of_not_accepted {s : Stmt} (h : ¬ s.accepted = true) (T : Table) :
    pg.exec s T = (.error .database, T) := if_neg h

/-! ### Values that come back -/

/-- `JSONB` gives back what the statement stores. -/
def Keeps (pg : Postgres) (s : Stmt) : Prop := ∀ v ∈ s.stores, pg.jsonb v = v

/-- A Postgres that gives back whatever is stored. -/
def keeping (pg : Postgres) : Postgres := { pg with jsonb := id }

theorem jsonb_keeping (pg : Postgres) (v : Value) : pg.keeping.jsonb v = v := rfl

/-- It does what the other one does, if that gives back what is stored. -/
theorem exec_keeping {s : Stmt} (h : pg.Keeps s) (T : Table) :
    pg.exec s T = pg.keeping.exec s T := by
  unfold exec
  refine if_congr Iff.rfl ?_ rfl
  cases s with
  | insert tenant user key value updatedAt =>
      have hvalue : pg.jsonb value = pg.keeping.jsonb value := h value rfl
      rw [execAccepted, execAccepted, hvalue]
  | update value updatedAt tenant user key version =>
      have hvalue : pg.jsonb value = pg.keeping.jsonb value := h value rfl
      rw [execAccepted, execAccepted, hvalue]
  | find tenant key => rfl
  | delete tenant user key version => rfl
  | count tenant user key => rfl
  | search tenant pattern user isAdmin limit offset => rfl

/-! ### When a write takes effect -/

/-- The row an `INSERT` would add. -/
def inserted (pg : Postgres) (tenant : String) (user : Option String) (key : String)
    (value : Value) (updatedAt : ℤ) : SettingRecord :=
  ⟨tenant, user, key, pg.jsonb value, 1, updatedAt⟩

section Insert

variable {T : Table} {tenant key : String} {user : Option String} {value : Value} {updatedAt : ℤ}

/-- **An `INSERT` takes effect exactly when the identity is free**, and returns the row it added. -/
theorem exec_insert_eq_some_iff {r : SettingRecord} :
    (pg.exec (.insert tenant user key value updatedAt) T).1 = .ok (some r) ↔
      (Stmt.insert tenant user key value updatedAt).accepted = true ∧
        T.row? (tenant, user.getD "", key) = none ∧
        r = pg.inserted tenant user key value updatedAt := by
  by_cases ha : (Stmt.insert tenant user key value updatedAt).accepted = true
  · rw [exec_of_accepted ha, execAccepted, Table.insertRow]
    by_cases h : T.row? (tenant, user.getD "", key) = none
    · simp [SettingRecord.identity, h, ha, inserted, eq_comm]
    · simp [SettingRecord.identity, h]
  · simp [exec_of_not_accepted ha, ha]

theorem rows_exec_insert
    (ha : (Stmt.insert tenant user key value updatedAt).accepted = true)
    (h : T.row? (tenant, user.getD "", key) = none) :
    (pg.exec (.insert tenant user key value updatedAt) T).2.rows =
      T.rows ++ [pg.inserted tenant user key value updatedAt] := by
  rw [exec_of_accepted ha, execAccepted, Table.insertRow]
  simp [SettingRecord.identity, h, inserted]

/-- An `INSERT` that returned no row changed nothing. -/
theorem exec_insert_of_ne
    (h : ∀ r, (pg.exec (.insert tenant user key value updatedAt) T).1 ≠ .ok (some r)) :
    (pg.exec (.insert tenant user key value updatedAt) T).2 = T := by
  by_cases ha : (Stmt.insert tenant user key value updatedAt).accepted = true
  · by_cases hr : T.row? (tenant, user.getD "", key) = none
    · exact absurd (exec_insert_eq_some_iff.2 ⟨ha, hr, rfl⟩) (h _)
    · rw [exec_of_accepted ha, execAccepted, Table.insertRow]
      simp [SettingRecord.identity, hr]
  · rw [exec_of_not_accepted ha]

end Insert

/-- The row a statement addresses at a version is the row of its identity, if that has the
version. -/
theorem find?_addressed (T : Table) (tenant : String) (user : Option String) (key : String)
    (version : ℤ) :
    (T.rows.find? fun r => r.addressed tenant user key && r.version == version) =
      (T.row? (tenant, user.getD "", key)).filter fun r => r.version == version := by
  cases hf : T.rows.find? fun r => r.addressed tenant user key && r.version == version with
  | none =>
      rw [List.find?_eq_none] at hf
      cases hr : T.row? (tenant, user.getD "", key) with
      | none => rfl
      | some r =>
          obtain ⟨hmem, hid⟩ := Table.row?_eq_some_iff.1 hr
          have := hf r hmem
          rw [SettingRecord.addressed_iff.2 hid, Bool.true_and] at this
          rw [Option.filter_some, if_neg this]
  | some r =>
      have hp := List.find?_some hf
      rw [Bool.and_eq_true, SettingRecord.addressed_iff] at hp
      rw [Table.row?_eq_some_iff.2 ⟨List.mem_of_find?_eq_some hf, hp.1⟩, Option.filter_some,
        if_pos hp.2]

section Update

variable {T : Table} {tenant key : String} {user : Option String} {value : Value}
  {updatedAt version : ℤ}

/-- **An `UPDATE` takes effect exactly when the row is there at the version presented** and the next
version fits the column; it returns the rewritten row. -/
theorem exec_update_eq_some_iff {r' : SettingRecord} :
    (pg.exec (.update value updatedAt tenant user key version) T).1 = .ok (some r') ↔
      (Stmt.update value updatedAt tenant user key version).accepted = true ∧
        version < i32Max ∧ ∃ r, T.row? (tenant, user.getD "", key) = some r ∧
          r.version = version ∧ r' = r.rewrite (pg.jsonb value) updatedAt := by
  by_cases ha : (Stmt.update value updatedAt tenant user key version).accepted = true
  · rw [exec_of_accepted ha, execAccepted, Table.updateRows, find?_addressed]
    cases hr : T.row? (tenant, user.getD "", key) with
    | none => simp
    | some r =>
        by_cases hv : r.version = version
        · rw [Option.filter_some, if_pos (by simpa using hv)]
          by_cases hlt : version < i32Max
          · simp only [dif_pos hlt, Except.ok.injEq, Option.some.injEq]
            constructor
            · rintro rfl
              exact ⟨ha, hlt, r, rfl, hv, rfl⟩
            · rintro ⟨-, -, r₁, rfl, -, rfl⟩
              rfl
          · simp [hlt]
        · rw [Option.filter_some, if_neg (by simpa using hv)]
          simp [hv]
  · simp [exec_of_not_accepted ha, ha]

theorem rows_exec_update {r' : SettingRecord}
    (h : (pg.exec (.update value updatedAt tenant user key version) T).1 = .ok (some r')) :
    (pg.exec (.update value updatedAt tenant user key version) T).2.rows =
      T.rows.map fun r => if r.addressed tenant user key && r.version == version
        then r.rewrite (pg.jsonb value) updatedAt else r := by
  obtain ⟨ha, hlt, r, hr, hv, -⟩ := exec_update_eq_some_iff.1 h
  rw [exec_of_accepted ha, execAccepted, Table.updateRows, find?_addressed, hr,
    Option.filter_some, if_pos (by simpa using hv)]
  simp [hlt]

/-- An `UPDATE` that returned no row changed nothing. -/
theorem exec_update_of_ne
    (h : ∀ r, (pg.exec (.update value updatedAt tenant user key version) T).1 ≠ .ok (some r)) :
    (pg.exec (.update value updatedAt tenant user key version) T).2 = T := by
  by_cases ha : (Stmt.update value updatedAt tenant user key version).accepted = true
  · rw [exec_of_accepted ha, execAccepted] at h ⊢
    rw [Table.updateRows] at h ⊢
    split at h
    · rfl
    · split_ifs at h ⊢ with hlt
      · exact absurd rfl (h _)
      · rfl
  · rw [exec_of_not_accepted ha]

end Update

section Delete

variable {T : Table} {tenant key : String} {user : Option String} {version : ℤ}

/-- **A `DELETE` takes effect exactly when the row is there at the version presented**, and returns
it. -/
theorem exec_delete_eq_some_iff {r : SettingRecord} :
    (pg.exec (.delete tenant user key version) T).1 = .ok (some r) ↔
      (Stmt.delete tenant user key version).accepted = true ∧
        T.row? (tenant, user.getD "", key) = some r ∧ r.version = version := by
  by_cases ha : (Stmt.delete tenant user key version).accepted = true
  · rw [exec_of_accepted ha, execAccepted, Table.deleteRows, find?_addressed]
    simp [ha, Option.filter_eq_some_iff]
  · simp [exec_of_not_accepted ha, ha]

theorem rows_exec_delete (ha : (Stmt.delete tenant user key version).accepted = true) :
    (pg.exec (.delete tenant user key version) T).2.rows =
      T.rows.filter fun r => !(r.addressed tenant user key && r.version == version) := by
  rw [exec_of_accepted ha, execAccepted, Table.deleteRows]

/-- A `DELETE` that returned no row changed nothing. -/
theorem exec_delete_of_ne
    (h : ∀ r, (pg.exec (.delete tenant user key version) T).1 ≠ .ok (some r)) :
    (pg.exec (.delete tenant user key version) T).2 = T := by
  by_cases ha : (Stmt.delete tenant user key version).accepted = true
  · have hf : (T.rows.find? fun r =>
        r.addressed tenant user key && r.version == version) = none := by
      cases hf : T.rows.find? fun r => r.addressed tenant user key && r.version == version with
      | none => rfl
      | some r =>
          refine absurd ?_ (h r)
          rw [exec_of_accepted ha, execAccepted, Table.deleteRows, hf]
    refine Table.ext ?_
    rw [rows_exec_delete ha, List.filter_eq_self]
    intro r hr
    rw [Bool.not_eq_true', Bool.eq_false_iff]
    exact List.find?_eq_none.1 hf r hr
  · rw [exec_of_not_accepted ha]

end Delete

/-- How often a row is counted: once if it is there. -/
theorem exec_count_eq {T : Table} {tenant key : String} {user : Option String}
    (ha : (Stmt.count tenant user key).accepted = true) :
    ∃ n : ℤ, (pg.exec (.count tenant user key) T).1 = .ok n ∧
      (0 < n ↔ (T.row? (tenant, user.getD "", key)).isSome = true) := by
  refine ⟨_, by rw [exec_of_accepted ha, execAccepted], ?_⟩
  rw [Int.natCast_pos, List.length_pos_iff_exists_mem, Option.isSome_iff_exists]
  refine exists_congr fun r => ?_
  rw [List.mem_filter, SettingRecord.addressed_iff, Table.row?_eq_some_iff]

end Postgres

/-! ### Statements as changes of a versioned store -/

namespace Table

/-- Adding a row. -/
theorem view_insert {T T' : Table} {r : SettingRecord} (h : T'.rows = T.rows ++ [r]) :
    T'.view = Function.update T.view r.identity (some (r.version, r)) := by
  funext id
  rcases eq_or_ne id r.identity with rfl | hne
  · rw [Function.update_self, view_eq_some_iff, row?_eq_some_iff, h]
    simp
  · rw [Function.update_of_ne hne, view, view, row?, row?, h, List.find?_append]
    simp [hne.symm]

/-- Rewriting the row of an identity. -/
theorem view_update {T T' : Table} {r : SettingRecord} {p : SettingRecord → Bool}
    {value : Value} {updatedAt : ℤ}
    (h : T'.rows = T.rows.map fun r => if p r then r.rewrite value updatedAt else r)
    (hr : r ∈ T.rows) (hp : ∀ r' ∈ T.rows, p r' = true ↔ r'.identity = r.identity) :
    T'.view = Function.update T.view r.identity
      (some (r.version + 1, r.rewrite value updatedAt)) := by
  funext id
  have hrow : T'.row? id =
      (T.row? id).map fun r => if p r then r.rewrite value updatedAt else r := by
    have hid : ((fun r' : SettingRecord => decide (r'.identity = id)) ∘ fun r =>
        if p r then r.rewrite value updatedAt else r) = fun r' => decide (r'.identity = id) := by
      funext r
      rw [Function.comp_apply]
      split_ifs <;> rfl
    rw [row?, h, List.find?_map, hid, row?]
  rw [view, hrow]
  rcases eq_or_ne id r.identity with rfl | hne
  · rw [row?_eq_some_iff.2 ⟨hr, rfl⟩, Function.update_self]
    simp [(hp r hr).2 rfl, SettingRecord.rewrite]
  · rw [Function.update_of_ne hne, view]
    cases hrid : T.row? id with
    | none => rfl
    | some r' =>
        obtain ⟨hr', rfl⟩ := row?_eq_some_iff.1 hrid
        have : p r' = false := Bool.eq_false_iff.2 fun hpr => hne ((hp r' hr').1 hpr)
        simp [this]

/-- Removing the row of an identity. -/
theorem view_delete {T T' : Table} {r : SettingRecord} {p : SettingRecord → Bool}
    (h : T'.rows = T.rows.filter fun r => !p r)
    (hp : ∀ r' ∈ T.rows, p r' = true ↔ r'.identity = r.identity) :
    T'.view = Function.update T.view r.identity none := by
  funext id
  rcases eq_or_ne id r.identity with rfl | hne
  · rw [Function.update_self, view_eq_none_iff, row?_eq_none_iff, h]
    intro r' hr'
    obtain ⟨hmem, hnp⟩ := List.mem_filter.1 hr'
    exact fun hid => by simp [(hp r' hmem).2 hid] at hnp
  · rw [Function.update_of_ne hne]
    have hrow : T'.row? id = T.row? id := by
      refine Option.ext fun r' => ?_
      rw [row?_eq_some_iff, row?_eq_some_iff, h, List.mem_filter]
      refine ⟨fun hr' => ⟨hr'.1.1, hr'.2⟩, fun hr' => ⟨⟨hr'.1, ?_⟩, hr'.2⟩⟩
      have : p r' = false := Bool.eq_false_iff.2 fun hpr => hne (hr'.2 ▸ (hp r' hr'.1).1 hpr)
      simp [this]
    rw [view, view, hrow]

end Table

/-- The change a statement made, read off its answer. -/
def Stmt.change : (s : Stmt) → s.Ret → Option (Change Identity SettingRecord)
  | .insert .., .ok (some r) => some (.create r.identity r)
  | .update _ _ _ _ _ version, .ok (some r) => some (.replace r.identity version r)
  | .delete _ _ _ version, .ok (some r) => some (.remove r.identity version)
  | _, _ => none

/-- A row addressed at a version is the row of its identity. -/
theorem addressed_at_iff {T : Table} {tenant key : String} {user : Option String} {version : ℤ}
    {r : SettingRecord} (hr : T.row? (tenant, user.getD "", key) = some r)
    (hv : r.version = version) : ∀ r' ∈ T.rows,
      (r'.addressed tenant user key && r'.version == version) = true ↔
        r'.identity = r.identity := by
  intro r' hr'
  have hid := (Table.row?_eq_some_iff.1 hr).2
  rw [Bool.and_eq_true, SettingRecord.addressed_iff, ← hid, beq_iff_eq]
  refine ⟨And.left, fun h => ⟨h, ?_⟩⟩
  have : T.row? (tenant, user.getD "", key) = some r' :=
    Table.row?_eq_some_iff.2 ⟨hr', h.trans hid⟩
  rw [hr, Option.some.injEq] at this
  rw [← this, hv]

section Change

variable {pg : Postgres} {T : Table} {tenant key : String} {user : Option String} {value : Value}
  {updatedAt version : ℤ} {c : Change Identity SettingRecord}

/-- The change an `INSERT` makes. -/
theorem change_insert_iff : (Stmt.insert tenant user key value updatedAt).change
    (pg.exec (.insert tenant user key value updatedAt) T).1 = some c ↔
      (Stmt.insert tenant user key value updatedAt).accepted = true ∧
        T.row? (tenant, user.getD "", key) = none ∧
        c = .create (tenant, user.getD "", key) (pg.inserted tenant user key value updatedAt) := by
  constructor
  · intro h
    rcases hret : (pg.exec (.insert tenant user key value updatedAt) T).1 with e | (_ | r)
    · simp [hret, Stmt.change] at h
    · simp [hret, Stmt.change] at h
    · obtain ⟨ha, hr, rfl⟩ := Postgres.exec_insert_eq_some_iff.1 hret
      rw [hret, Stmt.change, Option.some.injEq] at h
      exact ⟨ha, hr, h.symm⟩
  · rintro ⟨ha, hr, rfl⟩
    rw [Postgres.exec_insert_eq_some_iff.2 ⟨ha, hr, rfl⟩]
    rfl

/-- The change an `UPDATE` makes. -/
theorem change_update_iff : (Stmt.update value updatedAt tenant user key version).change
    (pg.exec (.update value updatedAt tenant user key version) T).1 = some c ↔
      (Stmt.update value updatedAt tenant user key version).accepted = true ∧
        version < i32Max ∧ ∃ r, T.row? (tenant, user.getD "", key) = some r ∧
          r.version = version ∧ c = .replace (tenant, user.getD "", key) version
            (r.rewrite (pg.jsonb value) updatedAt) := by
  constructor
  · intro h
    rcases hret : (pg.exec (.update value updatedAt tenant user key version) T).1 with e | (_ | r')
    · simp [hret, Stmt.change] at h
    · simp [hret, Stmt.change] at h
    · obtain ⟨ha, hlt, r, hr, hv, rfl⟩ := Postgres.exec_update_eq_some_iff.1 hret
      rw [hret, Stmt.change, Option.some.injEq, SettingRecord.identity_rewrite,
        (Table.row?_eq_some_iff.1 hr).2] at h
      exact ⟨ha, hlt, r, hr, hv, h.symm⟩
  · rintro ⟨ha, hlt, r, hr, hv, rfl⟩
    rw [Postgres.exec_update_eq_some_iff.2 ⟨ha, hlt, r, hr, hv, rfl⟩, Stmt.change,
      SettingRecord.identity_rewrite, (Table.row?_eq_some_iff.1 hr).2]

/-- The change a `DELETE` makes. -/
theorem change_delete_iff : (Stmt.delete tenant user key version).change
    (pg.exec (.delete tenant user key version) T).1 = some c ↔
      (Stmt.delete tenant user key version).accepted = true ∧
        ∃ r, T.row? (tenant, user.getD "", key) = some r ∧ r.version = version ∧
          c = .remove (tenant, user.getD "", key) version := by
  constructor
  · intro h
    rcases hret : (pg.exec (.delete tenant user key version) T).1 with e | (_ | r)
    · simp [hret, Stmt.change] at h
    · simp [hret, Stmt.change] at h
    · obtain ⟨ha, hr, hv⟩ := Postgres.exec_delete_eq_some_iff.1 hret
      rw [hret, Stmt.change, Option.some.injEq, (Table.row?_eq_some_iff.1 hr).2] at h
      exact ⟨ha, r, hr, hv, h.symm⟩
  · rintro ⟨ha, r, hr, hv, rfl⟩
    rw [Postgres.exec_delete_eq_some_iff.2 ⟨ha, hr, hv⟩, Stmt.change,
      (Table.row?_eq_some_iff.1 hr).2]

/-- What a statement puts under an identity is a row of the identity, with the version that the
change gives it. -/
theorem row_of_change {s : Stmt} {r : SettingRecord} (h : s.change (pg.exec s T).1 = some c)
    (hr : c.content = some r) : r.identity = c.key ∧ c.gives = some r.version := by
  cases s with
  | insert tenant user key value updatedAt =>
      obtain ⟨-, -, rfl⟩ := change_insert_iff.1 h
      cases hr
      exact ⟨rfl, rfl⟩
  | update value updatedAt tenant user key version =>
      obtain ⟨-, -, r', hr', hv, rfl⟩ := change_update_iff.1 h
      cases hr
      refine ⟨(Table.row?_eq_some_iff.1 hr').2, ?_⟩
      rw [Change.gives, SettingRecord.rewrite, hv]
  | delete tenant user key version =>
      obtain ⟨-, r', -, -, rfl⟩ := change_delete_iff.1 h
      cases hr
  | find tenant key => cases h
  | count tenant user key => cases h
  | search tenant pattern user isAdmin limit offset => cases h

end Change

/-- **A statement changes nothing, or it is one effective change of the versioned store.** -/
theorem Postgres.exec_change (pg : Postgres) (s : Stmt) (T : Table) :
    (s.change (pg.exec s T).1 = none ∧ (pg.exec s T).2 = T) ∨
      ∃ c, s.change (pg.exec s T).1 = some c ∧ Effective T.view c (pg.exec s T).2.view := by
  cases s with
  | insert tenant user key value updatedAt =>
      cases hc : (Stmt.insert tenant user key value updatedAt).change
        (pg.exec (.insert tenant user key value updatedAt) T).1 with
      | none =>
          exact .inl ⟨rfl, exec_insert_of_ne fun r hr => by simp [hr, Stmt.change] at hc⟩
      | some c =>
          obtain ⟨ha, hr, rfl⟩ := change_insert_iff.1 hc
          refine .inr ⟨_, rfl, ?_⟩
          rw [Table.view_insert (rows_exec_insert ha hr)]
          exact .create (Table.view_eq_none_iff.2 hr)
  | update value updatedAt tenant user key version =>
      cases hc : (Stmt.update value updatedAt tenant user key version).change
        (pg.exec (.update value updatedAt tenant user key version) T).1 with
      | none =>
          exact .inl ⟨rfl, exec_update_of_ne fun r hr => by simp [hr, Stmt.change] at hc⟩
      | some c =>
          obtain ⟨ha, hlt, r, hr, hv, rfl⟩ := change_update_iff.1 hc
          refine .inr ⟨_, rfl, ?_⟩
          rw [Table.view_update
            (rows_exec_update (exec_update_eq_some_iff.2 ⟨ha, hlt, r, hr, hv, rfl⟩))
            (Table.row?_eq_some_iff.1 hr).1 (addressed_at_iff hr hv), hv,
            (Table.row?_eq_some_iff.1 hr).2]
          exact .replace (Table.view_eq_some_iff.2 ⟨hr, hv⟩)
  | delete tenant user key version =>
      cases hc : (Stmt.delete tenant user key version).change
        (pg.exec (.delete tenant user key version) T).1 with
      | none =>
          exact .inl ⟨rfl, exec_delete_of_ne fun r hr => by simp [hr, Stmt.change] at hc⟩
      | some c =>
          obtain ⟨ha, r, hr, hv, rfl⟩ := change_delete_iff.1 hc
          refine .inr ⟨_, rfl, ?_⟩
          rw [Table.view_delete (rows_exec_delete ha) (addressed_at_iff hr hv),
            (Table.row?_eq_some_iff.1 hr).2]
          exact .remove (Table.view_eq_some_iff.2 ⟨hr, hv⟩)
  | find tenant key =>
      refine .inl ⟨rfl, ?_⟩
      rw [exec]
      split_ifs <;> rfl
  | count tenant user key =>
      refine .inl ⟨rfl, ?_⟩
      rw [exec]
      split_ifs <;> rfl
  | search tenant pattern user isAdmin limit offset =>
      refine .inl ⟨rfl, ?_⟩
      rw [exec]
      split_ifs <;> rfl

/-- A statement that made no change left the table as it was. -/
theorem Postgres.exec_of_no_change {pg : Postgres} {s : Stmt} {T : Table}
    (h : s.change (pg.exec s T).1 = none) : (pg.exec s T).2 = T := by
  obtain ⟨-, hT⟩ | ⟨c, hc, -⟩ := pg.exec_change s T
  · exact hT
  · exact absurd (h.symm.trans hc) (by simp)

/-- The change a statement made took effect. -/
theorem Postgres.effective_of_change {pg : Postgres} {s : Stmt} {T : Table}
    {c : Change Identity SettingRecord} (h : s.change (pg.exec s T).1 = some c) :
    Effective T.view c (pg.exec s T).2.view := by
  obtain ⟨hnone, -⟩ | ⟨d, hd, heff⟩ := pg.exec_change s T
  · exact absurd (hnone.symm.trans h) (by simp)
  · exact Option.some.inj (hd.symm.trans h) ▸ heff

end SettingsService
