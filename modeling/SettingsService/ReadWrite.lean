import SettingsService.WriteScope

/-!
# The row read and the row written

A write looks for the one row of the scope of its authority, a `get` for the first row that may be
read.  For a user that is the same row.  An admin without a tenant-scoped row under the key reads
the row it has as a user, but writes tenant-scoped: a put inserts a second row, a patch or delete is
`Forbidden`.

Main definitions:

* `Table.Sane`, `Table.WrittenBy` — what holds of every table the service reaches;
* `Table.Updates`, `Table.Removes` — a table differs from another in one row;
* `WritesWhatItReads` — writes that present the version read change the row read.

Main results:

* `sane_of_reachable`, `writtenBy_of_reachable` — **every reachable table is sane**, and its rows
  are of the scopes and keys of writes;
* `writesWhatItReads_iff` — **the row read is the row written exactly when the role is `User` or
  there is a tenant-scoped row**, of the documents Postgres takes;
* `not_writesWhatItReads` — an admin that reads one row and writes another.
-/

set_option relaxedAutoImplicit false
set_option autoImplicit false

namespace SettingsService

open Interaction (Prog Proc Event Snapshot Reachable eventOf)
open Interaction.Prog (Only)
open OptimisticLock (Change Effective)

/-! ### Reachable tables -/

/-- **What holds of every table the service reaches**: its texts are texts of Postgres, the user
column is `NULL` or not empty, and versions count from one. -/
structure Table.Sane (T : Table) : Prop where
  texts : ∀ r ∈ T.rows,
    textAccepted r.tenant = true ∧ r.user.all textAccepted = true ∧ textAccepted r.key = true
  users : T.UsersNonempty
  versions : ∀ r ∈ T.rows, 1 ≤ r.version

/-- A statement inserts no row with an empty user. -/
def Stmt.NamesUser : Stmt → Prop
  | insert _ user _ _ _ => user ≠ some ""
  | _ => True

variable {pg : Postgres} {base : Anchor}

/-- In a sane table the version of a row is the one of the setting it decodes to. -/
theorem Table.Sane.version_eq {T : Table} (hT : T.Sane) {r : SettingRecord} (hr : r ∈ T.rows)
    {s : Setting} (hs : r.intoDomain base = .ok s) : r.version = s.version := by
  have := (version_of_intoDomain hs).1
  have := hT.versions r hr
  omega

theorem Table.sane_empty : Table.empty.Sane := ⟨by simp [empty], by simp [UsersNonempty, empty],
  by simp [empty]⟩

/-- **Where the rows come from**: a row was there, was rewritten, or was inserted. -/
theorem Postgres.row_of_exec {s : Stmt} {T : Table} {r : SettingRecord}
    (hr : r ∈ (pg.exec s T).2.rows) : r ∈ T.rows ∨
      (∃ r₀ ∈ T.rows, ∃ value updatedAt tenant user key version,
        s = .update value updatedAt tenant user key version ∧
          r = r₀.rewrite (pg.jsonb value) updatedAt) ∨
      ∃ tenant user key value updatedAt, s = .insert tenant user key value updatedAt ∧
        s.accepted = true ∧ r = pg.inserted tenant user key value updatedAt := by
  cases hc : s.change (pg.exec s T).1 with
  | none =>
      rw [exec_of_no_change hc] at hr
      exact .inl hr
  | some c =>
      cases s with
      | find | count | search => simp [Stmt.change] at hc
      | insert tenant user key value updatedAt =>
          obtain ⟨ha, hrow, -⟩ := change_insert_iff.1 hc
          rw [rows_exec_insert ha hrow, List.mem_append, List.mem_singleton] at hr
          exact hr.imp_right fun hr => .inr ⟨tenant, user, key, value, updatedAt, rfl, ha, hr⟩
      | update value updatedAt tenant user key version =>
          obtain ⟨ha, hlt, r₁, hr₁, hv, rfl⟩ := change_update_iff.1 hc
          have hret : (pg.exec (.update value updatedAt tenant user key version) T).1 =
              .ok (some (r₁.rewrite (pg.jsonb value) updatedAt)) :=
            exec_update_eq_some_iff.2 ⟨ha, hlt, r₁, hr₁, hv, rfl⟩
          rw [rows_exec_update hret, List.mem_map] at hr
          obtain ⟨r₀, hr₀, rfl⟩ := hr
          split_ifs
          · exact .inr (.inl ⟨r₀, hr₀, value, updatedAt, tenant, user, key, version, rfl, rfl⟩)
          · exact .inl hr₀
      | delete tenant user key version =>
          obtain ⟨ha, -⟩ := change_delete_iff.1 hc
          rw [rows_exec_delete ha] at hr
          exact .inl (List.mem_of_mem_filter hr)

/-- **A statement keeps a table sane.** -/
theorem Table.Sane.exec {T : Table} (hT : T.Sane) {s : Stmt} (hs : s.NamesUser) :
    (pg.exec s T).2.Sane := by
  constructor
  case texts =>
    intro r hr
    rcases Postgres.row_of_exec hr with hr | ⟨r₀, hr₀, _, _, _, _, _, _, -, rfl⟩ |
      ⟨_, _, _, _, _, rfl, ha, rfl⟩
    · exact hT.texts r hr
    · exact hT.texts r₀ hr₀
    · simp only [Stmt.accepted, Bool.and_eq_true] at ha
      exact ⟨ha.1.1.1, ha.1.1.2, ha.1.2⟩
  case users =>
    intro r hr
    rcases Postgres.row_of_exec hr with hr | ⟨r₀, hr₀, _, _, _, _, _, _, -, rfl⟩ |
      ⟨_, _, _, _, _, rfl, -, rfl⟩
    · exact hT.users r hr
    · exact hT.users r₀ hr₀
    · exact hs
  case versions =>
    intro r hr
    rcases Postgres.row_of_exec hr with hr | ⟨r₀, hr₀, _, _, _, _, _, _, -, rfl⟩ |
      ⟨_, _, _, _, _, -, -, rfl⟩
    · exact hT.versions r hr
    · have := hT.versions r₀ hr₀
      simp only [SettingRecord.rewrite]
      omega
    · exact le_refl 1

/-- **What a request performs**: reads, and the statement it decides on. -/
theorem Request.only_of_decides (base : Anchor) {S : Stmt → Prop}
    (hfind : ∀ tenant key, S (.find tenant key))
    (hcount : ∀ tenant user key, S (.count tenant user key))
    (hsearch : ∀ tenant pattern user isAdmin limit offset,
      S (.search tenant pattern user isAdmin limit offset)) {q : Request}
    (hplan : ∀ w rows plan, q = .write w → w.Decides rows plan → S (plan.stmt base)) :
    Only S (q.prog base) := by
  have hrest : ∀ {o : Option Result} {p : Prog Stmt Stmt.Ret Result}, Plan.Rest o p → Only S p := by
    intro o p h
    cases h with
    | effective x => exact trivial
    | failed e => exact trivial
    | check key ownership => exact ⟨hcount _ _ _, fun _ => trivial⟩
  cases q with
  | get key authority =>
      rw [prog_get]
      exact ⟨hfind _ _, fun _ => trivial⟩
  | search query authority pagination =>
      rw [prog_search]
      exact ⟨hsearch _ _ _ _ _ _, fun _ => trivial⟩
  | write w =>
      rw [prog, Write.prog_eq]
      refine ⟨hfind _ _, fun r => w.after_read base (fun e _ => trivial) fun rows plan _ hd => ?_⟩
      obtain ⟨k, hk, hk'⟩ := plan.exists_prog_eq base
      rw [hk]
      exact ⟨hplan w rows plan rfl hd, fun r => hrest (hk' r)⟩

/-- A request of a principal with a user id inserts no row with an empty user. -/
theorem Request.only_namesUser (base : Anchor) {q : Request} (hq : q.authority.user ≠ ⟨""⟩) :
    Only Stmt.NamesUser (q.prog base) := by
  refine only_of_decides base (fun _ _ => trivial) (fun _ _ _ => trivial)
    (fun _ _ _ _ _ _ => trivial) fun w rows plan hw hplan => ?_
  cases hplan with
  | update => exact trivial
  | delete => exact trivial
  | insert _ hs =>
      have hstored : w.target.Stored := Write.stored_target_iff.2 fun h => by
        subst hw
        exact hq h.2
      rw [hs.stmt_eq]
      intro huser
      obtain ⟨u, hu, hempty⟩ := Option.map_eq_some_iff.1 huser
      exact hstored (hu.trans (congrArg some (UserId.ext hempty)))

/-- **Every table the service reaches is sane**, in every interleaving of requests of principals
with a user id. -/
theorem sane_of_reachable {reqs : List Request}
    (hreqs : ∀ q ∈ reqs, q.authority.user ≠ ⟨""⟩)
    {c : Snapshot Stmt Stmt.Ret Table Request Result}
    (hc : Reachable pg.exec (fun _ _ => True)
      (Snapshot.init Table.empty (Request.prog base) reqs) c) : c.state.Sane :=
  hc.state_invariant Table.sane_empty (fun q hq => Request.only_namesUser base (hreqs q hq))
    fun _ _ hs hT => hT.exec hs

/-- The row an `INSERT` adds is of the scope and the key of a write among requests. -/
def Stmt.InsertsFor (reqs : List Request) : Stmt → Prop
  | insert tenant user key _ _ => ∃ w, Request.write w ∈ reqs ∧ tenant = w.target.tenant.asStr ∧
      user = w.target.userColumn ∧ key = w.key.asStr
  | _ => True

/-- Every row is of the scope and the key of a write among requests. -/
def Table.WrittenBy (reqs : List Request) (T : Table) : Prop :=
  ∀ r ∈ T.rows, ∃ w, Request.write w ∈ reqs ∧ r.tenant = w.target.tenant.asStr ∧
    r.user = w.target.userColumn ∧ r.key = w.key.asStr

/-- A request inserts a row of its scope and key only. -/
theorem Request.only_insertsFor (base : Anchor) {reqs : List Request} {q : Request}
    (hq : q ∈ reqs) : Only (Stmt.InsertsFor reqs) (q.prog base) := by
  refine only_of_decides base (fun _ _ => trivial) (fun _ _ _ => trivial)
    (fun _ _ _ _ _ _ => trivial) fun w rows plan hw hplan => ?_
  cases hplan with
  | update => exact trivial
  | delete => exact trivial
  | insert _ hs =>
      rw [hs.stmt_eq]
      exact ⟨w, hw ▸ hq, rfl, rfl, rfl⟩

/-- **Every row the service reaches was inserted for a write**, of its scope and key. -/
theorem writtenBy_of_reachable {reqs : List Request}
    {c : Snapshot Stmt Stmt.Ret Table Request Result}
    (hc : Reachable pg.exec (fun _ _ => True)
      (Snapshot.init Table.empty (Request.prog base) reqs) c) : c.state.WrittenBy reqs := by
  refine hc.state_invariant (I := Table.WrittenBy reqs) (by simp [Table.WrittenBy, Table.empty])
    (fun q hq => Request.only_insertsFor base hq) fun s T hs hT r hr => ?_
  rcases Postgres.row_of_exec hr with hr | ⟨r₀, hr₀, _, _, _, _, _, _, -, rfl⟩ |
    ⟨_, _, _, _, _, rfl, -, rfl⟩
  · exact hT r hr
  · exact hT r₀ hr₀
  · exact hs

/-- Rows written under valid keys are told apart by the settings they decode to. -/
theorem Table.WrittenBy.eq_of_intoDomain {reqs : List Request} {T : Table} (hT : T.WrittenBy reqs)
    {r r' : SettingRecord} (hr : r ∈ T.rows) (hr' : r' ∈ T.rows) {s : Setting}
    (h : r.intoDomain base = .ok s) (h' : r'.intoDomain base = .ok s) : r = r' := by
  obtain ⟨w, -, -, -, hkey⟩ := hT r hr
  obtain ⟨w', -, -, -, hkey'⟩ := hT r' hr'
  refine List.inj_on_of_nodup_map T.unique hr hr' ?_
  rw [SettingRecord.identity_eq hkey h, SettingRecord.identity_eq hkey' h']

/-! ### One write, and one row -/

/-- `T'` is `T` with the row `r` at another version. -/
structure Table.Updates (T T' : Table) (r : SettingRecord) (version : ℤ) : Prop where
  row : ∃ r', T'.row? r.identity = some r' ∧ r'.columns = r.columns ∧ r'.version = version
  others : ∀ id, id ≠ r.identity → T'.row? id = T.row? id

/-- `T'` is `T` without the row `r`. -/
structure Table.Removes (T T' : Table) (r : SettingRecord) : Prop where
  row : T'.row? r.identity = none
  others : ∀ id, id ≠ r.identity → T'.row? id = T.row? id

/-- A table differs from itself in no version. -/
theorem Table.Sane.not_updates_self {T : Table} (hT : T.Sane) {r : SettingRecord} (hr : r ∈ T.rows)
    {s : Setting} (hs : r.intoDomain base = .ok s) : ¬ T.Updates T r (s.version + 1) := by
  intro h
  obtain ⟨r', hr', -, hv⟩ := h.row
  rw [Table.row?_eq_some_iff.2 ⟨hr, rfl⟩, Option.some.injEq] at hr'
  subst hr'
  have := hT.version_eq hr hs
  omega

theorem Table.row?_eq_of_view {T T' : Table} {id : Identity} (h : T'.view id = T.view id) :
    T'.row? id = T.row? id := by
  refine Option.map_injective (fun r r' hr => congrArg Prod.snd hr) (show _ = _ from h)

/-- A change leaves the rows of other identities alone. -/
theorem row?_exec_of_ne {s : Stmt} {T : Table} {c : Change Identity SettingRecord}
    (hc : s.change (pg.exec s T).1 = some c) {id : Identity} (hid : id ≠ c.key) :
    (pg.exec s T).2.row? id = T.row? id :=
  Table.row?_eq_of_view ((Postgres.effective_of_change hc).of_ne hid.symm)

namespace Write

variable {w : Write} {T : Table} {settings : List Setting} {r : SettingRecord} {s next : Setting}

/-- A write alone leaves the rows of other identities alone. -/
theorem row?_alone_of_ne {id : Identity} (hid : id ≠ w.identity) :
    (w.alone pg base T).2.row? id = T.row? id := by
  obtain ⟨settings, plan, c, hfound, hplan, hc, -, halone⟩ | ⟨-, e, halone⟩ :=
    w.alone_cases pg base T
  · rw [halone]
    exact row?_exec_of_ne hc ((hplan.makes hfound hc).key_eq ▸ hid)
  · rw [halone]

/-- The row of the scope of a write is the one it is about. -/
theorem own_of_owns (hfound : Repo.found base pg T w.key w.authority.tenant = .ok settings)
    (hr : r ∈ T.rows) (howns : w.Owns r) (hs : r.intoDomain base = .ok s) :
    w.own settings = some s := by
  obtain ⟨hown, hkey⟩ := howns
  obtain ⟨hstored, hid⟩ := (SettingRecord.ownership_eq_iff hkey).1 hown
  obtain ⟨key, value, hkey', hvalue, rfl⟩ := SettingRecord.intoDomain_eq_ok_iff.1 hs
  rw [hkey, SettingKey.new_asStr, Except.ok.injEq] at hkey'
  refine (own_eq_some_iff hfound).2 ⟨hstored, r, value, ?_, hvalue, by rw [hkey', hown]⟩
  exact Table.row?_eq_some_iff.2 ⟨hr, hid⟩

/-- The texts of the row of its scope are the texts a write binds. -/
theorem accepted_of_owns (hT : T.Sane) (hr : r ∈ T.rows) (howns : w.Owns r) :
    textAccepted w.target.tenant.asStr = true ∧ w.target.userColumn.all textAccepted = true ∧
      textAccepted w.key.asStr = true := by
  obtain ⟨htenant, huser, hkey⟩ := hT.texts r hr
  obtain ⟨hown, hkey'⟩ := howns
  rw [← hown, ← hkey', SettingRecord.tenant_ownership]
  refine ⟨htenant, ?_, hkey⟩
  have hne := hT.users r hr
  rw [SettingRecord.ownership]
  cases hu : r.user with
  | none => rfl
  | some u =>
      rw [hu] at huser hne
      have hempty : u.isEmpty = false := by
        rw [Bool.eq_false_iff]
        intro h
        exact hne (congrArg some (String.isEmpty_iff.1 h))
      simpa [hempty, Ownership.userColumn, Ownership.forUser] using huser

end Write

/-- A row that does not decode is no question of permission. -/
theorem SettingRecord.intoDomain_ne_forbidden (r : SettingRecord) :
    r.intoDomain base ≠ .error .forbidden := by
  intro h
  rcases intoDomain_eq_error h with h | h <;> exact absurd h (by simp)

theorem resultOf_ne_forbidden (base : Anchor) (c : Change Identity SettingRecord) :
    resultOf base c ≠ .error .forbidden := by
  have hmap : ∀ r : SettingRecord, (r.intoDomain base).map Reply.setting ≠ .error .forbidden := by
    intro r h
    cases hr : r.intoDomain base with
    | ok s => simp [hr, Except.map] at h
    | error e =>
        simp only [hr, Except.map, Except.error.injEq] at h
        exact r.intoDomain_ne_forbidden (hr.trans (congrArg Except.error h))
  cases c with
  | create id r => exact hmap r
  | replace id n r => exact hmap r
  | remove id n => simp [resultOf]

namespace Write

variable {w : Write} {T : Table} {settings : List Setting} {r : SettingRecord} {s next : Setting}
  (hfound : Repo.found base pg T w.key w.authority.tenant = .ok settings) (hr : r ∈ T.rows)
  (howns : w.Owns r) (hs : r.intoDomain base = .ok s)
  (he : w.expected = some s.version)

include hfound hr howns hs he

omit he in
/-- **The statement of a write that presents the version of the row of its scope** replaces that
row, if the column has room and Postgres takes the document. -/
theorem change_of_revises (hT : T.Sane) (hnext : w.Revises s next) (hmax : r.version < i32Max)
    (hjsonb : jsonbAccepted next.value.value = true) :
    ((Plan.update next s.version).stmt base).change
      (pg.exec ((Plan.update next s.version).stmt base) T).1 =
        some (.replace w.identity s.version
          (r.rewrite (pg.jsonb next.value.value) (instantToMillis base next.updatedAt))) := by
  have hown := own_of_owns hfound hr howns hs
  have hid : r.identity = w.identity := ((SettingRecord.ownership_eq_iff howns.2).1 howns.1).2
  have hversion := hT.version_eq hr hs
  obtain ⟨htenant, huser, hkey⟩ := accepted_of_owns hT hr howns
  rw [hnext.stmt_eq hfound hown]
  refine change_update_iff.2 ⟨?_, hversion ▸ hmax, r, ?_, hversion, rfl⟩
  · simp only [Stmt.accepted, hjsonb, htenant, huser, hkey, Bool.and_self]
  · exact Table.row?_eq_some_iff.2 ⟨hr, hid⟩

/-- **A write that presents the version of the row of its scope updates it**, if Postgres takes the
document. -/
theorem updates_of_revises (hT : T.Sane) (hnext : w.Revises s next) (hmax : r.version < i32Max)
    (hjsonb : jsonbAccepted next.value.value = true) :
    T.Updates (w.alone pg base T).2 r (s.version + 1) ∧
      (w.alone pg base T).1 ≠ .error .forbidden := by
  have hown := own_of_owns hfound hr howns hs
  have hid : r.identity = w.identity := ((SettingRecord.ownership_eq_iff howns.2).1 howns.1).2
  have hdecides : w.Decides settings (.update next s.version) := .update hown he hnext
  have hc := change_of_revises hfound hr howns hs hT hnext hmax hjsonb
  rw [alone_of_decides hfound hdecides hc]
  dsimp only
  refine ⟨⟨⟨r.rewrite (pg.jsonb next.value.value) (instantToMillis base next.updatedAt), ?_, rfl,
    ?_⟩, fun id hne => row?_exec_of_ne hc (hid ▸ hne)⟩, resultOf_ne_forbidden base _⟩
  · obtain ⟨n, hn⟩ := (Postgres.effective_of_change hc).of_content rfl
    rw [hid]
    exact (Table.view_eq_some_iff.1 hn).1
  · simp only [SettingRecord.rewrite, hT.version_eq hr hs]

/-- A write whose document Postgres refuses changes nothing. -/
theorem alone_of_not_jsonbAccepted (hnext : w.Revises s next)
    (hjsonb : ¬ jsonbAccepted next.value.value = true) : (w.alone pg base T).2 = T := by
  have hown := own_of_owns hfound hr howns hs
  have hdecides : w.Decides settings (.update next s.version) := .update hown he hnext
  have hplan : w.decide settings = .ok (.update next s.version) := decide_eq_ok_iff.2 hdecides
  have hrefused : ((Plan.update next s.version).stmt base).change
      (pg.exec ((Plan.update next s.version).stmt base) T).1 = none := by
    rw [Postgres.exec_of_not_accepted fun ha => hjsonb ?_]
    · rfl
    · simp only [Plan.stmt, Stmt.accepted, Bool.and_eq_true] at ha
      exact ha.1.1.1
  rw [alone_eq, hfound]
  change (Prog.run pg.exec (Plan.progOf base (w.decide settings)) T).2 = T
  rw [hplan]
  rcases (Plan.update next s.version).run_prog T with ⟨c, hc, -⟩ | ⟨-, e, hrun⟩
  · rw [hrefused] at hc
    exact absurd hc (by simp)
  · exact congrArg Prod.snd hrun

/-- **A removal that presents the version of the row of its scope removes it.** -/
theorem removes_of_deletes (hT : T.Sane) (hw : w.Deletes) :
    T.Removes (w.alone pg base T).2 r ∧ (w.alone pg base T).1 ≠ .error .forbidden := by
  have hown := own_of_owns hfound hr howns hs
  have hid : r.identity = w.identity := ((SettingRecord.ownership_eq_iff howns.2).1 howns.1).2
  have hversion := hT.version_eq hr hs
  obtain ⟨htenant, huser, hkey⟩ := accepted_of_owns hT hr howns
  have hdecides : w.Decides settings (.delete w.key s.ownership s.version) := .delete hown he hw
  have hc : ((Plan.delete w.key s.ownership s.version).stmt base).change
      (pg.exec ((Plan.delete w.key s.ownership s.version).stmt base) T).1 =
        some (.remove w.identity s.version) := by
    rw [delete_stmt_eq hfound hown]
    refine change_delete_iff.2 ⟨?_, r, ?_, hversion, rfl⟩
    · simp only [Stmt.accepted, htenant, huser, hkey, Bool.and_self]
    · exact Table.row?_eq_some_iff.2 ⟨hr, hid⟩
  rw [alone_of_decides hfound hdecides hc]
  dsimp only
  refine ⟨⟨?_, fun id hne => row?_exec_of_ne hc (hid ▸ hne)⟩,
    resultOf_ne_forbidden base _⟩
  have heff := Postgres.effective_of_change hc
  cases hrow : (pg.exec ((Plan.delete w.key s.ownership s.version).stmt base) T).2.row?
      r.identity with
  | none => rfl
  | some r' =>
      have hcontent := heff.content_eq (hid ▸ Table.view_eq_some_iff.2 ⟨hrow, rfl⟩)
      simp [Change.content] at hcontent

end Write

/-! ### The row read and the row written -/

/-- **Writes change the row that was read**: presenting the version of the setting `s` that was read
from the row `r`, a put and a patch update that row, a delete removes it, and none of them touches
another row or is `Forbidden`. -/
structure WritesWhatItReads (pg : Postgres) (base : Anchor) (a : Authority) (T : Table)
    (r : SettingRecord) (s : Setting) (value patch : SettingValue) (now : Instant) : Prop where
  put : T.Updates ((Write.put s.key value a (some s.version) now).alone pg base T).2 r
      (s.version + 1) ∧
    ((Write.put s.key value a (some s.version) now).alone pg base T).1 ≠ .error .forbidden
  patch : ∀ merged, s.value.merge patch = .ok merged →
    T.Updates ((Write.patch s.key patch a s.version now).alone pg base T).2 r (s.version + 1) ∧
      ((Write.patch s.key patch a s.version now).alone pg base T).1 ≠ .error .forbidden
  delete : T.Removes ((Write.delete s.key a s.version).alone pg base T).2 r ∧
    ((Write.delete s.key a s.version).alone pg base T).1 ≠ .error .forbidden

/-- The row that writes change is of their scope: a row of another scope is not removed. -/
theorem WritesWhatItReads.ownership_eq {a : Authority} (ha : a.user ≠ ⟨""⟩) {T : Table}
    {r : SettingRecord} {s : Setting} {value patch : SettingValue} {now : Instant}
    (h : WritesWhatItReads pg base a T r s value patch now) (hr : r ∈ T.rows)
    (hkey : r.key = s.key.asStr) : r.ownership = a.scopeOwnership := by
  by_contra hne
  have hid : r.identity ≠ (Write.delete s.key a s.version).identity := by
    intro hid
    have hstored : (Write.delete s.key a s.version).target.Stored :=
      Write.stored_target_iff.2 fun h => ha h.2
    exact hne ((SettingRecord.ownership_eq_iff hkey).2 ⟨hstored, hid⟩)
  have hrow : ((Write.delete s.key a s.version).alone pg base T).2.row? r.identity =
      T.row? r.identity := Write.row?_alone_of_ne hid
  rw [h.delete.1.row, Table.row?_eq_some_iff.2 ⟨hr, rfl⟩] at hrow
  exact absurd hrow (by simp)

/-- The row shown is one of the scope of writes exactly when the role is `User` or there is a
tenant-scoped row. -/
theorem Authority.ownership_shown_iff {a : Authority} (ha : a.user ≠ ⟨""⟩) {T : Table}
    {key : SettingKey} {r : SettingRecord} (hr : a.shown T key = some r) :
    r.ownership = a.scopeOwnership ↔ a.role = .user ∨
      (T.row? ((Ownership.forTenant a.tenant).identity key.asStr)).isSome = true := by
  have hrow : ∀ {o : Ownership}, o.Stored → T.row? (o.identity key.asStr) = some r →
      r.ownership = o := by
    intro o ho hr
    have hid := (Table.row?_eq_some_iff.1 hr).2
    exact (SettingRecord.ownership_eq_iff (Repo.under_of_identity hid).2).2 ⟨ho, hid⟩
  rw [shown] at hr
  rw [scopeOwnership]
  cases hrole : a.role with
  | user =>
      rw [hrole] at hr
      exact ⟨fun _ => .inl rfl, fun _ => hrow (stored_forUser ha) hr⟩
  | admin =>
      rw [hrole] at hr
      cases htenant : T.row? ((Ownership.forTenant a.tenant).identity key.asStr) with
      | some r₀ =>
          rw [htenant, Option.some_or, Option.some.injEq] at hr
          subst hr
          exact ⟨fun _ => .inr rfl, fun _ => hrow a.stored_forTenant htenant⟩
      | none =>
          rw [htenant, Option.none_or] at hr
          rw [hrow (stored_forUser ha) hr]
          simp [Ownership.forUser, Ownership.forTenant]

/-- **The row read is the row written exactly when** the role is `User` or there is a tenant-scoped
row under the key, of the documents Postgres takes. -/
theorem writesWhatItReads_iff (pg : Postgres) (base : Anchor) {reqs : List Request}
    (hreqs : ∀ q ∈ reqs, q.authority.user ≠ ⟨""⟩)
    {c : Snapshot Stmt Stmt.Ret Table Request Result}
    (hc : Reachable pg.exec (fun _ _ => True)
      (Snapshot.init Table.empty (Request.prog base) reqs) c)
    (hmax : ∀ r ∈ c.state.rows, r.version < i32Max) {a : Authority} (ha : a.user ≠ ⟨""⟩)
    {key : SettingKey} {s : Setting}
    (hget : ((Request.get key a).alone pg base c.state).1 = .ok (.setting s))
    (value patch : SettingValue) (now : Instant) :
    ∃ r ∈ c.state.rows, r.key = key.asStr ∧ r.intoDomain base = .ok s ∧
      (WritesWhatItReads pg base a c.state r s value patch now ↔
        (a.role = .user ∨
            (c.state.row? ((Ownership.forTenant a.tenant).identity key.asStr)).isSome = true) ∧
          jsonbAccepted value.value = true ∧
          ∀ merged, s.value.merge patch = .ok merged → jsonbAccepted merged.value = true) := by
  have hT := sane_of_reachable hreqs hc
  generalize c.state = T at hT hmax hget
  obtain ⟨settings, r, s', hfound, hshown, hdec, hs'⟩ := shown_of_alone_get ha hT.users hget
  obtain rfl : s = s' := by simpa using hs'
  obtain ⟨hmem, hkey⟩ := Authority.mem_of_shown ha hshown
  obtain ⟨hr, hread⟩ := Authority.mem_readableRows.1 hmem
  obtain rfl : s.key = key := SettingRecord.key_of_intoDomain hkey hdec
  refine ⟨r, hr, hkey, hdec, ?_⟩
  rw [← Authority.ownership_shown_iff ha hshown]
  have hown : ∀ w : Write, w.authority = a → w.key = s.key → r.ownership = a.scopeOwnership →
      w.Owns r := by
    rintro w rfl hw ho
    exact ⟨ho, hw ▸ hkey⟩
  have hsame : ∀ {T' : Table}, T' = T → ¬ T.Updates T' r (s.version + 1) := by
    rintro T' rfl
    exact hT.not_updates_self hr hdec
  constructor
  · intro h
    have ho : r.ownership = a.scopeOwnership := h.ownership_eq ha hr hkey
    refine ⟨ho, ?_, fun merged hmerged => ?_⟩
    · by_contra hjsonb
      refine hsame ?_ h.put.1
      exact Write.alone_of_not_jsonbAccepted hfound hr (hown _ rfl rfl ho) hdec rfl rfl hjsonb
    · by_contra hjsonb
      refine hsame ?_ (h.patch merged hmerged).1
      exact Write.alone_of_not_jsonbAccepted hfound hr (hown _ rfl rfl ho) hdec rfl
        (Setting.applyPartial_eq_ok_iff.2 ⟨merged, hmerged, rfl⟩) hjsonb
  · rintro ⟨ho, hvalue, hpatch⟩
    refine ⟨?_, fun merged hmerged => ?_, ?_⟩
    · exact Write.updates_of_revises hfound hr (hown _ rfl rfl ho) hdec rfl hT rfl (hmax r hr)
        hvalue
    · exact Write.updates_of_revises hfound hr (hown _ rfl rfl ho) hdec rfl hT
        (Setting.applyPartial_eq_ok_iff.2 ⟨merged, hmerged, rfl⟩) (hmax r hr)
        (hpatch merged hmerged)
    · exact Write.removes_of_deletes hfound hr (hown _ rfl rfl ho) hdec rfl hT trivial

open Sample in
/-- Alice reads and writes the setting she put. -/
theorem writesWhatItReads_alice :
    let c := (Snapshot.init Table.empty (Request.prog ⟨0, 0⟩)
      [.write (.put theme dark alice none 0)]).schedule (Postgres.ofJsonb id).exec [0, 0]
    let s : Setting := ⟨theme, dark, alice.scopeOwnership, 1, 0⟩
    ∃ r ∈ c.state.rows, r.key = theme.asStr ∧ r.intoDomain ⟨0, 0⟩ = .ok s ∧
      (WritesWhatItReads (Postgres.ofJsonb id) ⟨0, 0⟩ alice c.state r s light big 0 ↔
        (alice.role = .user ∨ (c.state.row?
            ((Ownership.forTenant alice.tenant).identity theme.asStr)).isSome = true) ∧
          jsonbAccepted light.value = true ∧
          ∀ merged, dark.merge big = .ok merged → jsonbAccepted merged.value = true) :=
  writesWhatItReads_iff (Postgres.ofJsonb id) ⟨0, 0⟩ (by decide) (Reachable.refl.schedule _ _)
    (by decide) (by decide) rfl light big 0

open Sample in
/-- **An admin can read one row and write another**: Alice puts a setting as a user and becomes an
admin; then she still reads her setting, but is `Forbidden` to delete it. -/
theorem not_writesWhatItReads :
    ¬ ∀ (pg : Postgres) (base : Anchor), (∀ v, pg.jsonb v = v) → ∀ reqs : List Request,
      (∀ q ∈ reqs, q.authority.user ≠ ⟨""⟩) → ∀ c : Snapshot Stmt Stmt.Ret Table Request Result,
      Reachable pg.exec (fun _ _ => True) (Snapshot.init Table.empty (Request.prog base) reqs) c →
      (∀ r ∈ c.state.rows, r.version < i32Max) → ∀ a : Authority, a.user ≠ ⟨""⟩ →
      ∀ (key : SettingKey) (s : Setting),
      ((Request.get key a).alone pg base c.state).1 = .ok (.setting s) →
      ∀ (value patch : SettingValue) (now : Instant),
        ∃ r ∈ c.state.rows, WritesWhatItReads pg base a c.state r s value patch now := by
  intro h
  obtain ⟨r, -, hr⟩ := h (Postgres.ofJsonb id) ⟨0, 0⟩ (fun _ => rfl)
    [.write (.put theme dark alice none 0)] (by decide) _ (Reachable.refl.schedule _ [0, 0])
    (by decide) { alice with role := .admin } (by decide) theme
    ⟨theme, dark, alice.scopeOwnership, 1, 0⟩ rfl light light 0
  exact hr.delete.2 rfl

end SettingsService
