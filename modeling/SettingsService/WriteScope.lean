import SettingsService.Interleaving
import SettingsService.Traces
import SettingsService.Visibility

/-!
# The scope of writes

A write changes the row of its own scope and no other.  What a put inserts reads back under the
scope it was written in, unless the scope is that of a user whose id is empty: the column then reads
as tenant-scoped.

Main definitions:

* `TouchesOwnRow` — a statement left all rows alone but the one of its write;
* `KeepsOwner` — an inserted row reads back with the key and owner it was written under.

Main results:

* `Postgres.filter_exec` — a statement leaves other identities alone;
* `writes_touch_own_row` — **a write touches one row of the writer's own scope**, in every
  interleaving;
* `keepsOwner_iff` — **an inserted row keeps its owner exactly when that is no user with an empty
  id**;
* `not_keepsOwner` — a row that does not.
-/

set_option relaxedAutoImplicit false
set_option autoImplicit false

namespace SettingsService

open Interaction (Prog Proc Event Snapshot Reachable eventOf)
open OptimisticLock (Change)

/-! ### What a statement leaves alone -/

/-- The columns that say which row it is. -/
def SettingRecord.columns (r : SettingRecord) : String × Option String × String :=
  (r.tenant, r.user, r.key)

@[simp] theorem SettingRecord.columns_rewrite (r : SettingRecord) (value : Value)
    (updatedAt : ℤ) : (r.rewrite value updatedAt).columns = r.columns := rfl

section Frame

variable {pg : Postgres} {T : Table}

/-- Where the identity is another, the row is not addressed. -/
theorem SettingRecord.addressed_eq_false {tenant key : String} {user : Option String}
    {r : SettingRecord} (h : r.identity ≠ (tenant, user.getD "", key)) :
    r.addressed tenant user key = false :=
  Bool.eq_false_iff.2 fun ha => h (addressed_iff.1 ha)

/-- **A statement leaves the rows of other identities alone**, and neither adds nor removes any. -/
theorem Postgres.filter_exec {s : Stmt} {c : Change Identity SettingRecord}
    (hc : s.change (pg.exec s T).1 = some c) :
    ((pg.exec s T).2.rows.filter fun r => decide (r.identity ≠ c.key)) =
      T.rows.filter fun r => decide (r.identity ≠ c.key) := by
  cases s with
  | find | count | search => simp [Stmt.change] at hc
  | insert tenant user key value updatedAt =>
      obtain ⟨ha, hr, rfl⟩ := change_insert_iff.1 hc
      rw [rows_exec_insert ha hr, List.filter_append]
      simp [Change.key, inserted, SettingRecord.identity]
  | update value updatedAt tenant user key version =>
      obtain ⟨ha, hlt, r, hr, hv, rfl⟩ := change_update_iff.1 hc
      have hret : (pg.exec (.update value updatedAt tenant user key version) T).1 =
          .ok (some (r.rewrite (pg.jsonb value) updatedAt)) :=
        exec_update_eq_some_iff.2 ⟨ha, hlt, r, hr, hv, rfl⟩
      rw [rows_exec_update hret, List.filter_map]
      -- rewriting keeps the identity, and a row of another identity is not rewritten
      have hcomp : ((fun r => decide (r.identity ≠ (Change.replace (tenant, user.getD "", key)
          version (r.rewrite (pg.jsonb value) updatedAt)).key)) ∘ fun r : SettingRecord =>
            if r.addressed tenant user key && r.version == version
              then r.rewrite (pg.jsonb value) updatedAt else r) =
          fun r => decide (r.identity ≠ (tenant, user.getD "", key)) := by
        funext r'
        rw [Function.comp_apply]
        split_ifs <;> rfl
      have hsame : ∀ r' ∈ T.rows.filter fun r => decide (r.identity ≠ (tenant, user.getD "", key)),
          (if r'.addressed tenant user key && r'.version == version
            then r'.rewrite (pg.jsonb value) updatedAt else r') = r' := by
        intro r' hr'
        have hne := of_decide_eq_true (List.mem_filter.1 hr').2
        rw [SettingRecord.addressed_eq_false hne]
        rfl
      exact (congrArg _ (List.filter_congr fun r' _ => congrFun hcomp r')).trans
        ((List.map_congr_left hsame).trans (List.map_id _))
  | delete tenant user key version =>
      obtain ⟨ha, r, hr, hv, rfl⟩ := change_delete_iff.1 hc
      rw [rows_exec_delete ha, List.filter_filter]
      refine List.filter_congr fun r' _ => ?_
      by_cases hid : r'.identity = (tenant, user.getD "", key)
      · simp [Change.key, hid]
      · simp [Change.key, hid, SettingRecord.addressed_eq_false hid]

/-- An update keeps the columns that say which row it is, whether it takes effect or not. -/
theorem Postgres.columns_exec_update {value : Value} {updatedAt version : ℤ} {tenant key : String}
    {user : Option String} :
    (pg.exec (.update value updatedAt tenant user key version) T).2.rows.map
      SettingRecord.columns = T.rows.map SettingRecord.columns := by
  by_cases h : ∃ r, (pg.exec (.update value updatedAt tenant user key version) T).1 = .ok (some r)
  · obtain ⟨r, hr⟩ := h
    rw [rows_exec_update hr, List.map_map]
    refine List.map_congr_left fun r' _ => ?_
    rw [Function.comp_apply]
    split_ifs <;> rfl
  · rw [exec_update_of_ne fun r hr => h ⟨r, hr⟩]

end Frame

/-! ### A write and the rows of its scope -/

namespace Write

/-- The row is the one of the scope and the key of the write. -/
def Owns (w : Write) (r : SettingRecord) : Prop :=
  r.ownership = w.target ∧ r.key = w.key.asStr

instance (w : Write) (r : SettingRecord) : Decidable (w.Owns r) :=
  inferInstanceAs (Decidable (_ ∧ _))

/-- The row is another tenant's, another user's, or a tenant-scoped one while the role is `User`. -/
def Foreign (w : Write) (r : SettingRecord) : Prop :=
  r.ownership.tenant ≠ w.authority.tenant ∨
    (∃ u, r.ownership.user = some u ∧ u ≠ w.authority.user) ∨
    w.authority.role = .user ∧ r.ownership.user = none

theorem not_owns_of_foreign {w : Write} {r : SettingRecord} (h : w.Foreign r) : ¬ w.Owns r := by
  rintro ⟨ho, -⟩
  rw [Foreign, ho, tenant_target] at h
  rcases h with h | ⟨u, hu, hne⟩ | ⟨hrole, hu⟩
  · exact h rfl
  · rw [target, Authority.scopeOwnership] at hu
    cases hrole : w.authority.role with
    | admin => simp [hrole, Ownership.forTenant] at hu
    | user =>
        rw [hrole] at hu
        exact hne (Option.some.inj hu).symm
  · rw [target, Authority.scopeOwnership, hrole] at hu
    simp [Ownership.forUser] at hu

/-- The scope of an authority with a user id can be stored. -/
theorem stored_target_iff {w : Write} : w.target.Stored ↔
    ¬ (w.authority.role = .user ∧ w.authority.user = ⟨""⟩) := by
  rw [target, Authority.scopeOwnership]
  cases w.authority.role with
  | admin => simp [Ownership.Stored, Ownership.forTenant]
  | user => simp [Ownership.Stored, Ownership.forUser]

theorem owns_iff {w : Write} (hw : w.target.Stored) {r : SettingRecord} :
    w.Owns r ↔ r.identity = w.identity := by
  constructor
  · rintro ⟨ho, hkey⟩
    exact ((SettingRecord.ownership_eq_iff hkey).1 ho).2
  · intro hid
    have hkey := (Repo.under_of_identity hid).2
    exact ⟨(SettingRecord.ownership_eq_iff hkey).2 ⟨hw, hid⟩, hkey⟩

end Write

/-- **A statement touches the row of its write alone.** -/
structure TouchesOwnRow (w : Write) (s : Stmt) (T T' : Table) : Prop where
  /-- The other rows are left as they were, in place; none is added or removed. -/
  others : (T'.rows.filter fun r => decide (¬ w.Owns r)) =
    T.rows.filter fun r => decide (¬ w.Owns r)
  /-- It is at most one row. -/
  one : (T'.rows.filter fun r => decide (w.Owns r)).length ≤ 1
  /-- An update keeps the tenant, user and key of every row. -/
  columns : ∀ value updatedAt tenant user key version,
    s = .update value updatedAt tenant user key version →
      T'.rows.map SettingRecord.columns = T.rows.map SettingRecord.columns
  /-- Rows of other tenants and users, and tenant-scoped rows for a user, stay. -/
  foreign : ∀ r, w.Foreign r → (r ∈ T'.rows ↔ r ∈ T.rows)

variable {pg : Postgres} {base : Anchor}

/-- A statement that made no change, or a change of the identity of the write. -/
theorem touchesOwnRow_exec {w : Write} (hw : w.target.Stored) {s : Stmt} {T : Table}
    (hs : ∀ c, s.change (pg.exec s T).1 = some c → c.key = w.identity) :
    TouchesOwnRow w s T (pg.exec s T).2 := by
  have hothers : ((pg.exec s T).2.rows.filter fun r => decide (¬ w.Owns r)) =
      T.rows.filter fun r => decide (¬ w.Owns r) := by
    cases hc : s.change (pg.exec s T).1 with
    | none => rw [Postgres.exec_of_no_change hc]
    | some c =>
        have h := Postgres.filter_exec hc
        rw [hs c hc] at h
        simpa only [Write.owns_iff hw] using h
  refine ⟨hothers, ?_, ?_, fun r hr => ?_⟩
  · have h := (pg.exec s T).2.countP_identity_le w.identity
    rw [List.countP_eq_length_filter] at h
    simpa only [Write.owns_iff hw] using h
  · rintro value updatedAt tenant user key version rfl
    exact Postgres.columns_exec_update
  · have hmem := congrArg (fun rows => r ∈ rows) hothers
    simpa [Write.not_owns_of_foreign hr] using hmem

/-- **A write touches one row of the writer's own scope**, in every interleaving. -/
theorem writes_touch_own_row (pg : Postgres) (base : Anchor) {T₀ : Table} {reqs : List Write}
    (hreqs : ∀ w ∈ reqs, w.authority.user ≠ ⟨""⟩)
    {c : Snapshot Stmt Stmt.Ret Table Write Result}
    (hc : Reachable pg.exec (fun _ _ => True) (Snapshot.init T₀ (Write.prog base) reqs) c) :
    ∀ e ∈ c.hist, TouchesOwnRow e.req e.op e.before (pg.exec e.op e.before).2 := by
  intro e he
  obtain ⟨⟨-, hsound⟩, -⟩ := run_effects hc
  obtain ⟨n, hn⟩ := List.getElem?_of_mem he
  have hreply : e.reply = (pg.exec e.op e.before).1 := (hc.next hn).reply
  have huser := hreqs e.req (List.mem_of_getElem? (hc.req_of_event hn))
  have hstored : e.req.target.Stored := Write.stored_target_iff.2 fun h => huser h.2
  refine touchesOwnRow_exec hstored fun d hd => ?_
  rw [← hreply] at hd
  exact (hsound e he d hd).key_eq

open Sample in
/-- A put of a user and one of an admin, interleaved, in a table with a row of another user. -/
theorem writes_touch_own_row_two_puts :
    let c := (Snapshot.init (themes [some "bob"] (by decide)) (Write.prog ⟨0, 0⟩)
      [.put theme dark alice none 0, .put theme light root none 0]).schedule
        (Postgres.ofJsonb id).exec [0, 1, 1, 0]
    ∀ e ∈ c.hist,
      TouchesOwnRow e.req e.op e.before ((Postgres.ofJsonb id).exec e.op e.before).2 :=
  writes_touch_own_row _ _ (by decide) (Reachable.refl.schedule _ _)

/-! ### What an inserted row reads back as -/

/-- **An inserted row reads back as it was written**: under its key, at version one, and with the
owner its writer has in scope, who can read it. -/
structure KeepsOwner (pg : Postgres) (w : Write) (r : SettingRecord) (res : Result) : Prop where
  /-- The key is a key, the same one. -/
  key : SettingKey.new r.key = .ok w.key
  /-- The owner is the scope of the writer. -/
  ownership : r.ownership = w.target
  /-- What a user inserts is not tenant-scoped. -/
  notTenantScoped : w.authority.role = .user → r.ownership.isTenantScoped = false
  /-- The writer can read it. -/
  readable : w.authority.canRead r.ownership = true
  /-- The response says so. -/
  response : ∀ s, res = .ok (.setting s) →
    s.key = w.key ∧ s.version = 1 ∧ s.ownership = w.target
  /-- Every `find` that sees the row says so, in this process and in others. -/
  found : ∀ (base : Anchor) (T : Table) (settings : List Setting), r ∈ T.rows →
    Repo.found base pg T w.key w.authority.tenant = .ok settings →
      ∃ s ∈ settings, r.intoDomain base = .ok s ∧ s.key = w.key ∧ s.version = 1 ∧
        s.ownership = w.target

/-- The row of a creation has the identity of the change, and version one. -/
theorem of_change_create {s : Stmt} {T : Table} {id : Identity} {r : SettingRecord}
    (h : s.change (pg.exec s T).1 = some (.create id r)) : r.identity = id ∧ r.version = 1 := by
  obtain ⟨hid, hgives⟩ := row_of_change h rfl
  exact ⟨hid, (Option.some.inj hgives).symm⟩

/-- A row of the identity of a write that decodes does so to its key and, if it can be stored, its
target. -/
theorem SettingRecord.of_identity_eq {w : Write} {r : SettingRecord} (hid : r.identity = w.identity)
    (hw : w.target.Stored) {s : Setting} (hs : r.intoDomain base = .ok s) :
    s.key = w.key ∧ s.version = (max r.version 1).toNat ∧ s.ownership = w.target := by
  obtain ⟨hown, hkey⟩ := (Write.owns_iff hw).2 hid
  have hsame := key_of_intoDomain hkey hs
  obtain ⟨key, value, -, -, rfl⟩ := intoDomain_eq_ok_iff.1 hs
  exact ⟨hsame, rfl, hown⟩

/-- **An inserted row keeps its owner exactly when that is no user with an empty id**, in every
interleaving of writes; its put returns it. -/
theorem keepsOwner_iff (pg : Postgres) (base : Anchor) {T₀ : Table} {reqs : List Write}
    {c : Snapshot Stmt Stmt.Ret Table Write Result}
    (hc : Reachable pg.exec (fun _ _ => True) (Snapshot.init T₀ (Write.prog base) reqs) c)
    {e : Event Stmt Stmt.Ret Table Write} (he : e ∈ c.hist) {id : Identity} {r : SettingRecord}
    (hcreate : effect e = some (.create id r)) :
    ∃ p, c.procs[e.who]? = some p ∧ p.req = e.req ∧ ∃ res, p.prog = .pure res ∧
      (KeepsOwner pg e.req r res ↔
        ¬ (e.req.authority.role = .user ∧ e.req.authority.user = ⟨""⟩)) := by
  obtain ⟨p, hp, hreq, hdone⟩ := result_of_effect hc e he _ hcreate
  refine ⟨p, hp, hreq, _, hdone, ?_⟩
  rw [← Write.stored_target_iff]
  obtain ⟨n, hn⟩ := List.getElem?_of_mem he
  have hreply : e.reply = (pg.exec e.op e.before).1 := (hc.next hn).reply
  have hkey : id = e.req.identity := ((run_effects hc).1.2 e he _ hcreate).key_eq
  rw [effect, hreply] at hcreate
  obtain ⟨hid, hversion⟩ := of_change_create hcreate
  rw [hkey] at hid
  have hunder := Repo.under_of_identity hid
  constructor
  · intro h
    rw [← h.ownership]
    exact r.stored_ownership
  · intro hstored
    have hown : r.ownership = e.req.target := ((Write.owns_iff hstored).2 hid).1
    have hdecode : ∀ (base : Anchor) (s : Setting), r.intoDomain base = .ok s →
        s.key = e.req.key ∧ s.version = 1 ∧ s.ownership = e.req.target := by
      intro base s hs
      have h := SettingRecord.of_identity_eq hid hstored hs
      rw [hversion] at h
      exact h
    refine ⟨?_, hown, fun hrole => ?_, ?_, fun s hs => ?_, fun base T settings hr hfound => ?_⟩
    · rw [hunder.2, SettingKey.new_asStr]
    · rw [hown, Write.target, Authority.scopeOwnership, hrole]
      rfl
    · rw [hown]
      exact e.req.authority.canWrite_scopeOwnership
    · obtain ⟨r', hr', hs'⟩ := content_of_resultOf hs
      obtain rfl : r = r' := Option.some.inj hr'
      exact hdecode base s hs'
    · rw [Write.tenant_target] at hunder
      obtain ⟨s, hs⟩ := (Repo.exists_found_iff.1 ⟨settings, hfound⟩).2 r hr hunder
      exact ⟨s, (Repo.mem_found hfound).2 ⟨r, hr, hunder, hs⟩, hs, hdecode base s hs⟩

namespace Sample

/-- A user whose id is empty. -/
def nobody : Authority := ⟨⟨"acme"⟩, ⟨""⟩, .user⟩

end Sample

open Sample in
/-- Alice puts a key that is not there. -/
theorem keepsOwner_iff_alice :
    let c := (Snapshot.init Table.empty (Write.prog ⟨0, 0⟩) [.put theme dark alice none 0]).schedule
      (Postgres.ofJsonb id).exec [0, 0]
    ∃ p, c.procs[0]? = some p ∧ p.req = .put theme dark alice none 0 ∧ ∃ res, p.prog = .pure res ∧
      (KeepsOwner (Postgres.ofJsonb id) (.put theme dark alice none 0) (themeOf (some "alice"))
          res ↔
        ¬ (alice.role = .user ∧ alice.user = ⟨""⟩)) := by
  intro c
  have hmem : c.hist[1]? = some ⟨0, .put theme dark alice none 0,
      .insert "acme" (some "alice") theme.asStr dark.value 0, .ok (some (themeOf (some "alice"))),
      Table.empty, 1⟩ := rfl
  exact keepsOwner_iff _ _ (Reachable.refl.schedule _ _) (List.mem_of_getElem? hmem) rfl

open Sample in
/-- **A user with an empty id inserts a row that reads back as tenant-scoped.** -/
theorem not_keepsOwner :
    ¬ ∀ (pg : Postgres) (base : Anchor), (∀ v, pg.jsonb v = v) → ∀ (T₀ : Table) (reqs : List Write)
      (c : Snapshot Stmt Stmt.Ret Table Write Result),
      Reachable pg.exec (fun _ _ => True) (Snapshot.init T₀ (Write.prog base) reqs) c →
      ∀ e ∈ c.hist, ∀ id r, effect e = some (.create id r) → ∀ p, c.procs[e.who]? = some p →
        ∀ res, p.prog = .pure res → KeepsOwner pg e.req r res := by
  intro h
  have hkeeps := h (Postgres.ofJsonb id) ⟨0, 0⟩ (fun _ => rfl) Table.empty
    [.put theme dark nobody none 0] _ (Reachable.refl.schedule _ [0, 0])
    ⟨0, .put theme dark nobody none 0, .insert "acme" (some "") theme.asStr dark.value 0,
      .ok (some (themeOf (some ""))), Table.empty, 1⟩
    (List.mem_of_getElem? (show _[1]? = _ from rfl)) _ _ rfl _ rfl _ rfl
  exact absurd hkeeps.ownership (by decide)

end SettingsService
