import SettingsService.Interaction
import SettingsService.PgTable
import SettingsService.Pagination

/-!
# The Postgres adapter of the settings repository

`PgSettingsRepository` as programs over the statements of `SettingsService.PgTable`: each method
binds its parameters, runs one statement (two when a conditional write has to find out why it
matched no row) and decodes the rows it gets back.

Times are stored as unix milliseconds and read back as instants through an anchor, a pair of an
instant and the epoch milliseconds at that instant, captured once per process.

Main definitions:

* `Anchor`, `instantToMillis`, `millisToInstant` — the conversion of times;
* `SettingRecord.intoDomain` — decoding a row;
* `Db` — a program that may fail with a `SettingsError`;
* `collectPage` — the loop of the search over the rows it gets;
* `Repo.existsRow`, `Repo.find`, `Repo.insert`, `Repo.update`, `Repo.delete`, `Repo.search` — the
  methods of the adapter.

Main results:

* `SettingRecord.intoDomain_eq_ok_iff` — when a row decodes, and to what;
* `collectPage_joinTotal` — **the search never panics**: it decodes the page and counts what is
  visible.
-/

set_option relaxedAutoImplicit false
set_option autoImplicit false

namespace SettingsService

open Interaction (Prog)

/-! ### Times -/

/-- The anchor of a process: an instant, and the epoch milliseconds at that instant. -/
structure Anchor where
  /-- The instant. -/
  inst : Instant
  /-- Its epoch milliseconds. -/
  ms : ℕ

/-- `instant_to_millis`. -/
def instantToMillis (base : Anchor) (i : Instant) : ℤ := base.ms + ((i - base.inst) / 1000000 : ℕ)

/-- `millis_to_instant`. -/
def millisToInstant (base : Anchor) (m : ℤ) : Instant :=
  -- `saturating_sub` saturates only where the difference counts as zero
  base.inst + (max (m - base.ms) 0).toNat * 1000000

/-! ### Decoding rows -/

/-- `expected_version as i32`: the low 32 bits as a signed number. -/
def asI32 (n : ℕ) : ℤ := (n : ℤ).bmod (2 ^ 32)

theorem asI32_of_le {n : ℕ} (h : (n : ℤ) ≤ i32Max) : asI32 n = n := by
  rw [i32Max] at h
  exact Int.bmod_eq_of_le (by omega) (by omega)

/-- The ownership a row decodes to: no user, and an empty one, mean tenant-scoped. -/
def SettingRecord.ownership (r : SettingRecord) : Ownership :=
  match r.user with
  | some u => if u.isEmpty then .forTenant ⟨r.tenant⟩ else .forUser ⟨r.tenant⟩ ⟨u⟩
  | none => .forTenant ⟨r.tenant⟩

/-- `SettingRecord::into_domain`. -/
def SettingRecord.intoDomain (base : Anchor) (r : SettingRecord) :
    Except SettingsError Setting := do
  let key ← SettingKey.new r.key
  let value ← SettingValue.new r.value
  Setting.restore key value r.ownership (max r.version 1).toNat (millisToInstant base r.updatedAt)

/-- What a row decodes to. -/
theorem SettingRecord.intoDomain_eq_ok_iff {base : Anchor} {r : SettingRecord} {s : Setting} :
    r.intoDomain base = .ok s ↔ ∃ key value, SettingKey.new r.key = .ok key ∧
      SettingValue.new r.value = .ok value ∧
      s = ⟨key, value, r.ownership, (max r.version 1).toNat, millisToInstant base r.updatedAt⟩ := by
  rw [intoDomain]
  cases SettingKey.new r.key with
  | error e => simp [bind, Except.bind]
  | ok key =>
      cases SettingValue.new r.value with
      | error e => simp [bind, Except.bind]
      | ok value =>
          simp [bind, Except.bind, Setting.restore, eq_comm]

/-- A row that does not decode is refused by one of its value objects. -/
theorem SettingRecord.intoDomain_eq_error {base : Anchor} {r : SettingRecord} {e : SettingsError}
    (h : r.intoDomain base = .error e) : e = .invalidKey ∨ e = .invalidValue := by
  rw [intoDomain] at h
  cases hk : SettingKey.new r.key with
  | error e' =>
      simp only [hk, bind, Except.bind, Except.error.injEq] at h
      rw [SettingKey.new] at hk
      split_ifs at hk
      exact .inl (h.symm.trans (Except.error.inj hk).symm)
  | ok key =>
      cases hv : SettingValue.new r.value with
      | error e' =>
          simp only [hk, hv, bind, Except.bind, Except.error.injEq] at h
          exact .inr (h.symm.trans (SettingValue.new_eq_error hv))
      | ok value => simp [hk, hv, Setting.restore, bind, Except.bind] at h

/-- The version and the value a row is read back with. -/
theorem version_of_intoDomain {base : Anchor} {r : SettingRecord} {s : Setting}
    (h : r.intoDomain base = .ok s) : max r.version 1 = s.version ∧ s.value.value = r.value := by
  obtain ⟨key, value, -, hvalue, rfl⟩ := SettingRecord.intoDomain_eq_ok_iff.1 h
  exact ⟨by simp only; omega, SettingValue.new_eq_ok_iff.1 hvalue⟩

namespace Ownership

/-- The user of a stored entry is not empty: an empty one is read back as tenant-scoped. -/
def Stored (o : Ownership) : Prop := o.user ≠ some ⟨""⟩

instance (o : Ownership) : Decidable o.Stored := inferInstanceAs (Decidable (_ ≠ _))

end Ownership

/-- A row decodes to a stored ownership. -/
theorem SettingRecord.stored_ownership (r : SettingRecord) : r.ownership.Stored := by
  obtain ⟨tenant, user, key, value, version, updatedAt⟩ := r
  cases user with
  | none => simp [ownership, Ownership.Stored, Ownership.forTenant]
  | some u =>
      by_cases hu : u = ""
      · simp [ownership, Ownership.Stored, Ownership.forTenant, hu]
      · simp [ownership, Ownership.Stored, Ownership.forUser, hu]

/-- The tenant of the ownership of a row. -/
@[simp] theorem SettingRecord.tenant_ownership (r : SettingRecord) :
    r.ownership.tenant = ⟨r.tenant⟩ := by
  rw [ownership]
  split
  · split_ifs <;> rfl
  · rfl

/-- The user text of the ownership of a row is what the unique index compares. -/
@[simp] theorem SettingRecord.userText_ownership (r : SettingRecord) :
    r.ownership.userText = r.user.getD "" := by
  obtain ⟨tenant, user, key, value, version, updatedAt⟩ := r
  cases user with
  | none => rfl
  | some u =>
      by_cases hu : u = ""
      · simp [ownership, hu]
      · simp [ownership, hu]

/-- Stored ownerships are told apart by what the unique index compares. -/
theorem Ownership.Stored.ext {o o' : Ownership} (ho : o.Stored) (ho' : o'.Stored)
    (ht : o.tenant = o'.tenant) (hu : o.userText = o'.userText) : o = o' := by
  obtain ⟨tenant, user⟩ := o
  obtain ⟨tenant', user'⟩ := o'
  obtain rfl : tenant = tenant' := ht
  rcases user with _ | ⟨u⟩ <;> rcases user' with _ | ⟨u'⟩
  · rfl
  · exact absurd (congrArg (fun u => some (UserId.mk u)) hu.symm) ho'
  · exact absurd (congrArg (fun u => some (UserId.mk u)) hu) ho
  · exact congrArg (fun u => Ownership.mk tenant (some ⟨u⟩)) hu

/-- The identity of the row of an ownership and a key. -/
def Ownership.identity (o : Ownership) (key : String) : Identity :=
  (o.tenant.asStr, o.userText, key)

/-- **A row has a given ownership exactly when it has its identity**, if the ownership can be
stored at all. -/
theorem SettingRecord.ownership_eq_iff {r : SettingRecord} {o : Ownership} {key : String}
    (hkey : r.key = key) : r.ownership = o ↔ o.Stored ∧ r.identity = o.identity key := by
  constructor
  · rintro rfl
    exact ⟨r.stored_ownership, by simp [identity, Ownership.identity, hkey]⟩
  · rintro ⟨ho, hid⟩
    rw [identity, Ownership.identity, Prod.mk.injEq, Prod.mk.injEq] at hid
    refine r.stored_ownership.ext ho ?_ ?_
    · rw [tenant_ownership, hid.1]
    · rw [userText_ownership, hid.2.1]

/-- The identity of the row of a setting. -/
def Setting.identity (s : Setting) : Identity := s.ownership.identity s.key.asStr

/-- A row under a valid key decodes to a setting under that key. -/
theorem SettingRecord.key_of_intoDomain {base : Anchor} {r : SettingRecord} {key : SettingKey}
    (hkey : r.key = key.asStr) {s : Setting} (h : r.intoDomain base = .ok s) : s.key = key := by
  obtain ⟨key', value, hkey', -, rfl⟩ := intoDomain_eq_ok_iff.1 h
  rw [hkey, SettingKey.new_asStr, Except.ok.injEq] at hkey'
  exact hkey'.symm

/-- A row under a key decodes to a setting of its identity. -/
theorem SettingRecord.identity_eq {base : Anchor} {r : SettingRecord} {key : SettingKey}
    (hkey : r.key = key.asStr) {s : Setting} (h : r.intoDomain base = .ok s) :
    r.identity = s.identity := by
  have hs := key_of_intoDomain hkey h
  obtain ⟨key', value, -, -, rfl⟩ := intoDomain_eq_ok_iff.1 h
  exact ((ownership_eq_iff (hkey.trans (congrArg SettingKey.asStr hs.symm))).1 rfl).2

/-- One page of a search, and the number of all rows that are visible. -/
structure SearchPage where
  /-- The page. -/
  rows : List Setting
  /-- The total. -/
  total : ℕ

/-- The record of a row of the page whose key is there; a column that is `NULL` nevertheless is a
failed `expect`. -/
def SearchRow.record (row : SearchRow) (key : String) : Option SettingRecord := do
  let tenant ← row.tenant
  let value ← row.value
  let version ← row.version
  let updatedAt ← row.updatedAt
  return ⟨tenant, row.user, key, value, version, updatedAt⟩

/-- The loop of the search over its rows: the last total wins, a row without a key is the sentinel
of an empty page.  A failed `expect` gives no page. -/
def collectPage (base : Anchor) :
    List SearchRow → SearchPage → Except SettingsError (Option SearchPage)
  | [], acc => .ok (some acc)
  | row :: rows, acc =>
      let total := (max row.total 0).toNat
      match row.key with
      | none => collectPage base rows ⟨acc.rows, total⟩
      | some key =>
          match row.record key with
          | none => .ok none
          | some r => do
              let s ← r.intoDomain base
              collectPage base rows ⟨acc.rows ++ [s], total⟩

/-- The row of the search for a row of the table. -/
def SettingRecord.searchRow (total : ℕ) (r : SettingRecord) : SearchRow :=
  ⟨some r.tenant, r.user, some r.key, some r.value, some r.version, some r.updatedAt, total⟩

/-- The loop over a page that is not empty. -/
theorem collectPage_map (base : Anchor) (total : ℕ) (rs : List SettingRecord) (acc : SearchPage)
    (h : rs ≠ [] ∨ acc.total = total) :
    collectPage base (rs.map (SettingRecord.searchRow total)) acc =
      (rs.mapM (SettingRecord.intoDomain base)).map fun ss => some ⟨acc.rows ++ ss, total⟩ := by
  induction rs generalizing acc with
  | nil =>
      obtain ⟨rows, n⟩ := acc
      have hn : n = total := h.resolve_left fun hne => hne rfl
      simp [collectPage, Except.map, hn, pure, Except.pure]
  | cons r rs ih =>
      rw [List.map_cons, collectPage, List.mapM_cons]
      cases hr : r.intoDomain base with
      | error e => simp [SettingRecord.searchRow, SearchRow.record, hr, bind, Except.bind,
          Except.map]
      | ok s =>
          simp only [SettingRecord.searchRow, SearchRow.record, hr, Option.bind_some, bind,
            Except.bind, pure]
          have ht : (max (total : ℤ) 0).toNat = total := by omega
          rw [ht]
          refine (ih ⟨acc.rows ++ [s], total⟩ (.inr rfl)).trans ?_
          cases rs.mapM (SettingRecord.intoDomain base) with
          | error e => rfl
          | ok ss => simp [Except.map, Except.pure]

/-- **The search never panics**: it decodes the page and returns the number of visible rows. -/
theorem collectPage_joinTotal (pg : Postgres) (base : Anchor) (total : ℕ)
    (page : List SettingRecord) :
    collectPage base (pg.joinTotal total page) ⟨[], 0⟩ =
      ((pg.orderByKey page).mapM (SettingRecord.intoDomain base)).map fun ss =>
        some ⟨ss, total⟩ := by
  cases page with
  | nil =>
      have h : pg.orderByKey [] = [] := List.Perm.eq_nil (pg.orderByKey_perm [])
      simp [Postgres.joinTotal, collectPage, h, Except.map, pure, Except.pure]
  | cons r rs =>
      have h : pg.orderByKey (r :: rs) ≠ [] := fun h =>
        absurd ((pg.orderByKey_perm (r :: rs)).symm.trans (h ▸ .refl _)).eq_nil (by simp)
      exact collectPage_map base total _ _ (.inl h)

/-! ### Programs over statements -/

/-- A program over statements that may fail. -/
abbrev Db (α : Type) : Type := ExceptT SettingsError (Prog Stmt Stmt.Ret) α

/-- `map_pg_err`. -/
def mapPgErr : PgError → SettingsError
  | .poolTimedOut => .unavailable
  | .io => .unavailable
  | .database => .internal

/-- Run one statement. -/
def query (s : Stmt) : Db s.Rows :=
  ExceptT.mk ((fun r : s.Ret => r.mapError mapPgErr) <$> Prog.perform s)

/-- A computation without statements. -/
def lift {α : Type} (x : Except SettingsError α) : Db α := ExceptT.mk (.pure x)

section Run

variable {α β : Type}

@[simp] theorem lift_bind_ok (a : α) (f : α → Db β) : (lift (.ok a) >>= f) = f a := rfl

@[simp] theorem lift_bind_error (e : SettingsError) (f : α → Db β) :
    (lift (.error e) >>= f).run = .pure (.error e) := rfl

@[simp] theorem run_lift (x : Except SettingsError α) : (lift x).run = .pure x := rfl

end Run

/-- The pattern that a search binds. -/
def pattern (query : String) : String := "%" ++ query ++ "%"

namespace Repo

variable (base : Anchor)

/-- `exists`. -/
def existsRow (key : SettingKey) (ownership : Ownership) : Db Bool := do
  let row ← query (.count ownership.tenant.asStr ownership.userColumn key.asStr)
  return decide ((0 : ℤ) < row)

/-- `find`. -/
def find (key : SettingKey) (tenant : Tenant) : Db (List Setting) := do
  let rows ← query (.find tenant.asStr key.asStr)
  lift (List.mapM (SettingRecord.intoDomain base) rows)

/-- `insert`. -/
def insert (setting : Setting) : Db Setting := do
  let rec_ ← query (.insert setting.ownership.tenant.asStr setting.ownership.userColumn
    setting.key.asStr setting.value.value (instantToMillis base setting.updatedAt))
  match rec_ with
  | some r => lift (SettingRecord.intoDomain base r)
  | none => throw .conflict

/-- `update`. -/
def update (setting : Setting) (expectedVersion : ℕ) : Db Setting := do
  let updated ← query (.update setting.value.value (instantToMillis base setting.updatedAt)
    setting.ownership.tenant.asStr setting.ownership.userColumn setting.key.asStr
    (asI32 expectedVersion))
  match updated with
  | some r => lift (SettingRecord.intoDomain base r)
  -- no row matched: a second statement tells a stale version from an absent row
  | none =>
      if ← existsRow setting.key setting.ownership then throw .versionConflict
      else throw .notFound

/-- `delete`. -/
def delete (key : SettingKey) (ownership : Ownership) (expectedVersion : ℕ) : Db Unit := do
  let deleted ← query (.delete ownership.tenant.asStr ownership.userColumn key.asStr
    (asI32 expectedVersion))
  match deleted with
  | some _ => return ()
  | none =>
      if ← existsRow key ownership then throw .versionConflict
      else throw .notFound

/-- `search`; no page is a panic. -/
def search (query_ : String) (authority : Authority) (pagination : Pagination) :
    Db (Option SearchPage) := do
  let isAdmin := authority.role == .admin
  let rows ← query (.search authority.tenant.asStr (pattern query_) authority.user.asStr isAdmin
    pagination.limit pagination.offset)
  lift (collectPage base rows ⟨[], 0⟩)

/-! ### What `find` returns -/

/-- What `find` makes of the answer to its statement. -/
def decodeRows (tenant key : String) :
    (Stmt.find tenant key).Ret → Except SettingsError (List Setting)
  | .ok rows => List.mapM (SettingRecord.intoDomain base) rows
  | .error e => .error (mapPgErr e)

/-- `find` alone on a table. -/
def found (pg : Postgres) (T : Table) (key : SettingKey) (tenant : Tenant) :
    Except SettingsError (List Setting) :=
  decodeRows base tenant.asStr key.asStr (pg.exec (.find tenant.asStr key.asStr) T).1

/-- `find` and what comes after it. -/
theorem run_find_bind {α : Type} (key : SettingKey) (tenant : Tenant) (f : List Setting → Db α) :
    (find base key tenant >>= f).run = .call (.find tenant.asStr key.asStr) fun r =>
      match decodeRows base tenant.asStr key.asStr r with
        | .ok rows => (f rows).run
        | .error e => .pure (.error e) := by
  refine congrArg (Prog.call _) (funext fun r => ?_)
  rcases r with e | rows
  · rfl
  · change (lift (List.mapM (SettingRecord.intoDomain base) rows) >>= f).run = _
    rw [decodeRows]
    cases List.mapM (SettingRecord.intoDomain base) rows with
    | error e => rfl
    | ok ss => rfl

end Repo

/-! ### Loops that stop at the first error -/

section Loop

variable {ε α β : Type} {f : α → Except ε β}

theorem mapM_nil_eq_ok_iff {ys : List β} : ([] : List α).mapM f = .ok ys ↔ ys = [] := by
  simp [pure, Except.pure, eq_comm]

theorem mapM_cons_eq_ok_iff {x : α} {xs : List α} {ys : List β} :
    (x :: xs).mapM f = .ok ys ↔
      ∃ y ys', f x = .ok y ∧ xs.mapM f = .ok ys' ∧ ys = y :: ys' := by
  rw [List.mapM_cons]
  cases hx : f x with
  | error e => simp [bind, Except.bind]
  | ok y =>
      cases hxs : xs.mapM f with
      | error e => simp [bind, Except.bind]
      | ok ys' => simp [bind, Except.bind, pure, Except.pure, eq_comm]

/-- The results of a loop are the results of its steps. -/
theorem mem_mapM_ok {xs : List α} {ys : List β} (h : xs.mapM f = .ok ys) {y : β} :
    y ∈ ys ↔ ∃ x ∈ xs, f x = .ok y := by
  induction xs generalizing ys with
  | nil =>
      obtain rfl := mapM_nil_eq_ok_iff.1 h
      simp
  | cons x xs ih =>
      obtain ⟨y', ys', hx, hxs, rfl⟩ := mapM_cons_eq_ok_iff.1 h
      rw [List.mem_cons, ih hxs, List.exists_mem_cons_iff, hx, Except.ok.injEq]
      exact or_congr_left eq_comm

/-- A loop succeeds exactly when every step does. -/
theorem exists_mapM_ok_iff {xs : List α} :
    (∃ ys, xs.mapM f = .ok ys) ↔ ∀ x ∈ xs, ∃ y, f x = .ok y := by
  induction xs with
  | nil => simp [pure, Except.pure]
  | cons x xs ih =>
      rw [List.forall_mem_cons, ← ih]
      constructor
      · rintro ⟨ys, h⟩
        obtain ⟨y, ys', hx, hxs, -⟩ := mapM_cons_eq_ok_iff.1 h
        exact ⟨⟨y, hx⟩, ys', hxs⟩
      · rintro ⟨⟨y, hx⟩, ys', hxs⟩
        exact ⟨y :: ys', mapM_cons_eq_ok_iff.2 ⟨y, ys', hx, hxs, rfl⟩⟩

end Loop

namespace Repo

variable {base : Anchor} {pg : Postgres} {T : Table} {key : SettingKey} {tenant : Tenant}
  {settings : List Setting}

/-- A row is under a tenant and key. -/
def Under (tenant : Tenant) (key : SettingKey) (r : SettingRecord) : Prop :=
  r.tenant = tenant.asStr ∧ r.key = key.asStr

/-- The rows `find` selects, in its order. -/
def selected (pg : Postgres) (T : Table) (key : SettingKey) (tenant : Tenant) :
    List SettingRecord :=
  (T.rows.filter fun r => r.tenant == tenant.asStr && r.key == key.asStr).insertionSort
    pg.nullsFirst

theorem mem_selected {r : SettingRecord} :
    r ∈ selected pg T key tenant ↔ r ∈ T.rows ∧ Under tenant key r := by
  simp [selected, List.mem_insertionSort, Under]

theorem found_eq_ok_iff : found base pg T key tenant = .ok settings ↔
    (Stmt.find tenant.asStr key.asStr).accepted = true ∧
      (selected pg T key tenant).mapM (SettingRecord.intoDomain base) = .ok settings := by
  by_cases ha : (Stmt.find tenant.asStr key.asStr).accepted = true
  · rw [found, Postgres.exec_of_accepted ha]
    simp [Postgres.execAccepted, decodeRows, selected, ha]
  · rw [found, Postgres.exec_of_not_accepted ha]
    simp [decodeRows, ha]

/-- **The settings found are the decoded rows of the tenant and key.** -/
theorem mem_found (h : found base pg T key tenant = .ok settings) {s : Setting} :
    s ∈ settings ↔ ∃ r ∈ T.rows, Under tenant key r ∧ r.intoDomain base = .ok s := by
  rw [mem_mapM_ok (found_eq_ok_iff.1 h).2]
  refine exists_congr fun r => ?_
  rw [mem_selected, and_assoc]

/-- **`find` succeeds when its parameters are accepted and all rows of the tenant and key
decode.** -/
theorem exists_found_iff : (∃ settings, found base pg T key tenant = .ok settings) ↔
    (Stmt.find tenant.asStr key.asStr).accepted = true ∧
      ∀ r ∈ T.rows, Under tenant key r → ∃ s, r.intoDomain base = .ok s := by
  simp only [found_eq_ok_iff, exists_and_left, exists_mapM_ok_iff, mem_selected, and_imp]

/-- The row of an ownership and a key is under its tenant and key. -/
theorem under_of_identity {o : Ownership} {r : SettingRecord}
    (hid : r.identity = o.identity key.asStr) : Under o.tenant key r := by
  rw [SettingRecord.identity, Ownership.identity, Prod.mk.injEq, Prod.mk.injEq] at hid
  exact ⟨hid.1, hid.2.2⟩

/-- **The setting of an ownership among those found is the row of its identity**, decoded. -/
theorem find?_found {o : Ownership} (h : found base pg T key o.tenant = .ok settings)
    {s : Setting} : settings.find? (fun s => s.ownership == o) = some s ↔
      o.Stored ∧ ∃ r, T.row? (o.identity key.asStr) = some r ∧ r.intoDomain base = .ok s := by
  have hrow : ∀ {s : Setting}, s ∈ settings → s.ownership = o →
      o.Stored ∧ ∃ r, T.row? (o.identity key.asStr) = some r ∧ r.intoDomain base = .ok s := by
    rintro s hs rfl
    obtain ⟨r, hr, hu, hdec⟩ := (mem_found h).1 hs
    obtain ⟨_, _, _, _, rfl⟩ := SettingRecord.intoDomain_eq_ok_iff.1 hdec
    exact ⟨r.stored_ownership, r, Table.row?_eq_some_iff.2
      ⟨hr, ((SettingRecord.ownership_eq_iff hu.2).1 rfl).2⟩, hdec⟩
  constructor
  · intro hf
    exact hrow (List.mem_of_find?_eq_some hf) (by simpa using List.find?_some hf)
  · rintro ⟨ho, r, hr, hdec⟩
    obtain ⟨hmem, hid⟩ := Table.row?_eq_some_iff.1 hr
    have hs : s ∈ settings := (mem_found h).2 ⟨r, hmem, under_of_identity hid, hdec⟩
    have hso : s.ownership = o := by
      obtain ⟨_, _, _, _, rfl⟩ := SettingRecord.intoDomain_eq_ok_iff.1 hdec
      exact (SettingRecord.ownership_eq_iff (under_of_identity hid).2).2 ⟨ho, hid⟩
    cases hf : settings.find? fun s => s.ownership == o with
    | none => exact absurd (List.find?_eq_none.1 hf s hs) (by simp [hso])
    | some s' =>
        obtain ⟨-, r', hr', hdec'⟩ :=
          hrow (List.mem_of_find?_eq_some hf) (by simpa using List.find?_some hf)
        rw [hr, Option.some.injEq] at hr'
        rw [← hr', hdec, Except.ok.injEq] at hdec'
        rw [hdec']

end Repo

end SettingsService
