import SettingsService.Purge
import SettingsService.Runs

/-!
# Tenants are isolated

Every statement of the repository names a tenant, and every request runs statements of the tenant of
its authority only.  A statement sees and changes rows of the tenant it names alone; so what the
requests of other tenants do is not seen by a tenant.

Main definitions:

* `Stmt.tenant` — the tenant a statement names;
* `Table.rowsOf` — the rows of a tenant.

Main results:

* `Postgres.exec_consistent`, `Postgres.exec_silent` — a statement and the rows of a tenant;
* `Request.only_prog` — **a request runs statements of its own tenant only**;
* `tenants_isolated` — **deleting the calls of other tenants from a run changes nothing for a
  tenant**.
-/

set_option relaxedAutoImplicit false
set_option autoImplicit false

namespace SettingsService

open Interaction (Prog)
open Interaction.Prog (Only)

/-! ### Statements and tenants -/

/-- The tenant a statement names. -/
def Stmt.tenant : Stmt → String
  | find tenant _ => tenant
  | insert tenant .. => tenant
  | update _ _ tenant .. => tenant
  | delete tenant .. => tenant
  | count tenant .. => tenant
  | search tenant .. => tenant

/-- The rows of a tenant, in the order of the table. -/
def Table.rowsOf (tenant : String) (T : Table) : List SettingRecord :=
  T.rows.filter fun r => r.tenant == tenant

section Rows

variable {tenant : String} {T : Table} {p : SettingRecord → Bool}

/-- A condition that only rows of the tenant meet selects from them. -/
theorem Table.filter_rowsOf (hp : ∀ r, p r = true → r.tenant = tenant) (T : Table) :
    T.rows.filter p = (T.rowsOf tenant).filter p := by
  rw [rowsOf, List.filter_filter]
  refine List.filter_congr fun r _ => ?_
  cases h : p r with
  | false => rfl
  | true => simp [hp r h]

theorem Table.find?_rowsOf (hp : ∀ r, p r = true → r.tenant = tenant) (T : Table) :
    T.rows.find? p = (T.rowsOf tenant).find? p := by
  rw [← List.head?_filter, ← List.head?_filter, filter_rowsOf hp]

/-- A condition that only rows of the tenant meet is met by no row of another. -/
theorem Table.eq_false_of_mem_rowsOf (hp : ∀ r, p r = true → r.tenant = tenant) {tenant' : String}
    (hne : tenant ≠ tenant') {r : SettingRecord} (hr : r ∈ T.rowsOf tenant') : p r = false := by
  rw [rowsOf, List.mem_filter, beq_iff_eq] at hr
  exact Bool.eq_false_iff.2 fun h => hne ((hp r h).symm.trans hr.2)

/-- The rows of a tenant after the removal of some. -/
theorem Table.rowsOf_deleteRows (tenant : String) (T : Table) (p : SettingRecord → Bool) :
    (T.deleteRows p).2.rowsOf tenant = (T.rowsOf tenant).filter fun r => !p r := by
  rw [rowsOf, rowsOf, deleteRows, List.filter_filter, List.filter_filter]
  exact List.filter_congr fun r _ => Bool.and_comm _ _

end Rows

variable {pg : Postgres}

/-- The row of an identity is one of its tenant. -/
theorem Table.row?_eq_rowsOf (T : Table) (id : Identity) :
    T.row? id = (T.rowsOf id.1).find? fun r => decide (r.identity = id) :=
  find?_rowsOf (fun r hr => by rw [← of_decide_eq_true hr]; rfl) T

/-- An insertion and the rows of a tenant. -/
theorem Table.rowsOf_insertRow (tenant : String) (T : Table) (r : SettingRecord)
    (hr : r.version = 1) : (T.insertRow r hr).2.rowsOf tenant =
      if T.row? r.identity = none then (T.rowsOf tenant) ++ [r].filter (·.tenant == tenant)
      else T.rowsOf tenant := by
  rw [insertRow]
  split_ifs with h
  · rw [rowsOf, rowsOf, ← List.filter_append]
  · rfl

/-- What an insertion returns. -/
theorem Table.fst_insertRow (T : Table) (r : SettingRecord) (hr : r.version = 1) :
    (T.insertRow r hr).1 = if T.row? r.identity = none then some r else none := by
  rw [insertRow]
  split_ifs <;> rfl

/-- What an update returns. -/
theorem Table.fst_updateRows (T : Table) (p : SettingRecord → Bool) (version : ℤ) (value : Value)
    (updatedAt : ℤ) : (T.updateRows p version value updatedAt).1 =
      match T.rows.find? fun r => p r && r.version == version with
      | none => .ok none
      | some r => if version < i32Max then .ok (some (r.rewrite value updatedAt))
          else .error .database := by
  rw [updateRows]
  cases T.rows.find? fun r => p r && r.version == version with
  | none => rfl
  | some r => by_cases h : version < i32Max <;> simp [h]

/-- An update and the rows of a tenant. -/
theorem Table.rowsOf_updateRows (tenant : String) (T : Table) (p : SettingRecord → Bool)
    (version : ℤ) (value : Value) (updatedAt : ℤ) :
    (T.updateRows p version value updatedAt).2.rowsOf tenant =
      if (T.rows.find? fun r => p r && r.version == version).isSome ∧ version < i32Max then
        (T.rowsOf tenant).map fun r =>
          if p r && r.version == version then r.rewrite value updatedAt else r
      else T.rowsOf tenant := by
  rw [updateRows]
  cases T.rows.find? fun r => p r && r.version == version with
  | none => simp
  | some r₀ =>
      by_cases hlt : version < i32Max
      · simp only [hlt, dif_pos, Option.isSome_some, and_true, if_true, rowsOf]
        rw [List.filter_map]
        refine congrArg _ (List.filter_congr fun r _ => ?_)
        rw [Function.comp_apply]
        split_ifs <;> rfl
      · simp [hlt]

/-- A row that a statement addresses is one of its tenant. -/
theorem SettingRecord.tenant_of_addressed {tenant key : String} {user : Option String}
    {r : SettingRecord} (h : r.addressed tenant user key = true) : r.tenant = tenant := by
  rw [addressed_iff] at h
  exact congrArg Prod.fst h

/-- A row addressed at a version is one of the tenant. -/
theorem SettingRecord.tenant_of_addressed_at {tenant key : String} {user : Option String}
    {version : ℤ} (r : SettingRecord)
    (h : (r.addressed tenant user key && r.version == version) = true) : r.tenant = tenant :=
  tenant_of_addressed (Bool.and_eq_true_iff.1 h).1

/-- **A statement of a tenant sees and changes its rows alone.** -/
theorem Postgres.execAccepted_consistent (s : Stmt) {T T' : Table}
    (h : T.rowsOf s.tenant = T'.rowsOf s.tenant) :
    (pg.execAccepted s T).1 = (pg.execAccepted s T').1 ∧
      (pg.execAccepted s T).2.rowsOf s.tenant = (pg.execAccepted s T').2.rowsOf s.tenant := by
  cases s with
  | find tenant key =>
      change T.rowsOf tenant = T'.rowsOf tenant at h
      have hp : ∀ r : SettingRecord, (r.tenant == tenant && r.key == key) = true →
          r.tenant = tenant := by
        intro r hr
        exact beq_iff_eq.1 (Bool.and_eq_true_iff.1 hr).1
      refine ⟨?_, h⟩
      simp only [execAccepted, Table.filter_rowsOf hp, h]
  | insert tenant user key value updatedAt =>
      change T.rowsOf tenant = T'.rowsOf tenant at h
      -- whether the identity is taken is seen in the rows of the tenant
      have hrow : T.row? (tenant, user.getD "", key) = T'.row? (tenant, user.getD "", key) := by
        rw [Table.row?_eq_rowsOf, Table.row?_eq_rowsOf, h]
      constructor
      · simp only [execAccepted, Table.fst_insertRow]
        exact congrArg (fun o : Option SettingRecord => Except.ok (if o = none then _ else _)) hrow
      · change (T.insertRow _ rfl).2.rowsOf tenant = (T'.insertRow _ rfl).2.rowsOf tenant
        rw [Table.rowsOf_insertRow, Table.rowsOf_insertRow, h]
        change (if T.row? (tenant, user.getD "", key) = none then _ else _) =
          if T'.row? (tenant, user.getD "", key) = none then _ else _
        rw [hrow]
  | update value updatedAt tenant user key version =>
      change T.rowsOf tenant = T'.rowsOf tenant at h
      have hfind := congrArg (List.find? fun r =>
        r.addressed tenant user key && r.version == version) h
      rw [← Table.find?_rowsOf SettingRecord.tenant_of_addressed_at,
        ← Table.find?_rowsOf SettingRecord.tenant_of_addressed_at] at hfind
      constructor
      · simp only [execAccepted, Table.fst_updateRows, hfind]
      · change (T.updateRows _ _ _ _).2.rowsOf tenant = (T'.updateRows _ _ _ _).2.rowsOf tenant
        rw [Table.rowsOf_updateRows, Table.rowsOf_updateRows, hfind, h]
  | delete tenant user key version =>
      change T.rowsOf tenant = T'.rowsOf tenant at h
      constructor
      · simp only [execAccepted, Table.deleteRows,
          Table.find?_rowsOf SettingRecord.tenant_of_addressed_at, h]
      · change (T.deleteRows _).2.rowsOf tenant = (T'.deleteRows _).2.rowsOf tenant
        rw [Table.rowsOf_deleteRows, Table.rowsOf_deleteRows, h]
  | count tenant user key =>
      change T.rowsOf tenant = T'.rowsOf tenant at h
      refine ⟨?_, h⟩
      simp only [execAccepted, Table.filter_rowsOf fun _ => SettingRecord.tenant_of_addressed, h]
  | search tenant pattern user isAdmin limit offset =>
      change T.rowsOf tenant = T'.rowsOf tenant at h
      refine ⟨?_, h⟩
      have hvisible : pg.visible tenant pattern user isAdmin T.rows =
          pg.visible tenant pattern user isAdmin T'.rows := by
        have hp : ∀ r : SettingRecord, (r.tenant == tenant &&
            (ilike pattern.toList r.key.toList ||
              ilike pattern.toList (pg.jsonbText r.value).toList) &&
            (r.user == some user || isAdmin && r.user.isNone)) = true → r.tenant = tenant := by
          intro r hr
          exact beq_iff_eq.1 (Bool.and_eq_true_iff.1 (Bool.and_eq_true_iff.1 hr).1).1
        rw [visible, visible, Table.filter_rowsOf hp, Table.filter_rowsOf hp, h]
      simp only [execAccepted, hvisible]

theorem Postgres.exec_consistent (s : Stmt) {T T' : Table}
    (h : T.rowsOf s.tenant = T'.rowsOf s.tenant) : (pg.exec s T).1 = (pg.exec s T').1 ∧
      (pg.exec s T).2.rowsOf s.tenant = (pg.exec s T').2.rowsOf s.tenant := by
  rw [exec, exec]
  split_ifs
  · exact execAccepted_consistent s h
  · exact ⟨rfl, h⟩

/-- **A statement of another tenant does not change the rows of a tenant.** -/
theorem Postgres.exec_silent (s : Stmt) {tenant : String} (hs : s.tenant ≠ tenant) (T : Table) :
    (pg.exec s T).2.rowsOf tenant = T.rowsOf tenant := by
  rw [exec]
  split_ifs
  · cases s with
    | find | count | search => rfl
    | insert tenant' user key value updatedAt =>
        have hr : [(⟨tenant', user, key, pg.jsonb value, 1, updatedAt⟩ : SettingRecord)].filter
            (·.tenant == tenant) = [] := List.filter_cons_of_neg fun h => hs (beq_iff_eq.1 h)
        change (T.insertRow _ rfl).2.rowsOf tenant = _
        rw [Table.rowsOf_insertRow, hr, List.append_nil, ite_self]
    | update value updatedAt tenant' user key version =>
        change tenant' ≠ tenant at hs
        change (T.updateRows _ _ _ _).2.rowsOf tenant = _
        rw [Table.rowsOf_updateRows]
        split_ifs
        -- no row of the tenant is addressed, so each is left as it is
        · refine (List.map_congr_left fun r hr => ?_).trans (List.map_id _)
          rw [Table.eq_false_of_mem_rowsOf SettingRecord.tenant_of_addressed_at hs hr]
          rfl
        · rfl
    | delete tenant' user key version =>
        change tenant' ≠ tenant at hs
        change (T.deleteRows _).2.rowsOf tenant = _
        rw [Table.rowsOf_deleteRows, List.filter_eq_self]
        intro r hr
        rw [Table.eq_false_of_mem_rowsOf SettingRecord.tenant_of_addressed_at hs hr]
        rfl
  · rfl

/-! ### Requests and tenants -/

section Requests

variable {base : Anchor}

theorem Plan.only_prog {tenant : String} {plan : Plan} (h : (plan.stmt base).tenant = tenant) :
    Only (fun s => s.tenant = tenant) (plan.prog base) := by
  cases plan with
  | insert s => exact ⟨h, fun r => by rcases r with _ | _ | _ <;> exact trivial⟩
  | update next expected =>
      refine ⟨h, fun r => ?_⟩
      rcases r with _ | _ | _
      · exact trivial
      · exact ⟨h, fun _ => trivial⟩
      · exact trivial
  | delete key ownership expected =>
      refine ⟨h, fun r => ?_⟩
      rcases r with _ | _ | _
      · exact trivial
      · exact ⟨h, fun _ => trivial⟩
      · exact trivial

/-- The statement a write decides on is one of its tenant. -/
theorem Write.tenant_stmt {w : Write} {rows : List Setting} {plan : Plan}
    (h : w.Decides rows plan) : (plan.stmt base).tenant = w.authority.tenant.asStr := by
  have hown : ∀ cur, w.own rows = some cur → cur.ownership = w.target := by
    intro cur hcur
    simpa using List.find?_some hcur
  rw [← w.tenant_target]
  cases h with
  | insert _ hs => rw [Plan.stmt, Stmt.tenant, hs.eq.2]
  | update hcur _ hnext => rw [Plan.stmt, Stmt.tenant, hnext.eq.2, hown _ hcur]
  | delete hcur _ _ => rw [Plan.stmt, Stmt.tenant, hown _ hcur]

/-- **A request runs statements of its own tenant only.** -/
theorem Request.only_prog (base : Anchor) (q : Request) :
    Only (fun s => s.tenant = q.authority.tenant.asStr) (q.prog base) := by
  cases q with
  | get key authority =>
      rw [prog_get]
      exact ⟨rfl, fun _ => trivial⟩
  | search query authority pagination =>
      rw [prog_search]
      exact ⟨rfl, fun _ => trivial⟩
  | write w =>
      rw [prog, Write.prog_eq]
      refine ⟨rfl, fun r => w.after_read base (fun e _ => trivial) fun rows plan _ hplan => ?_⟩
      exact Plan.only_prog (Write.tenant_stmt hplan)

end Requests

/-! ### Runs -/

/-- The calls of a run, one at a time, each with its result and the rows of a tenant after it. -/
def observe (pg : Postgres) (base : Anchor) (tenant : Tenant) (T : Table) (reqs : List Request) :
    List (Request × Result × List SettingRecord) :=
  Purge.trace (Request.alone pg base) (Table.rowsOf tenant.asStr) T reqs

/-- **Tenants are isolated**: deleting every call of another tenant from a run changes neither the
results of the calls of a tenant nor its rows after each of them. -/
theorem tenants_isolated (pg : Postgres) (base : Anchor) (tenant : Tenant) (T : Table)
    (reqs : List Request) :
    ((observe pg base tenant T reqs).filter fun x => decide (x.1.authority.tenant = tenant)) =
      observe pg base tenant T
        (reqs.filter fun q => decide (q.authority.tenant = tenant)) := by
  have hunwinds : Purge.Unwinds (Request.alone pg base) (Table.rowsOf tenant.asStr)
      fun q => decide (q.authority.tenant = tenant) := by
    refine ⟨fun q T₁ T₂ hq h => ?_, fun q T₁ hq => ?_⟩
    · have hq : q.authority.tenant = tenant := of_decide_eq_true hq
      refine (q.only_prog base).run_consistent (fun s T₁ T₂ hs h => ?_) h
      rw [hq] at hs
      rw [← hs] at h ⊢
      exact Postgres.exec_consistent s h
    · have hq : q.authority.tenant ≠ tenant := of_decide_eq_false hq
      refine (q.only_prog base).run_silent (fun s T₁ hs => Postgres.exec_silent s ?_ T₁) T₁
      rw [hs]
      exact fun h => hq (Tenant.ext h)
  exact hunwinds.filter_trace rfl reqs

end SettingsService
