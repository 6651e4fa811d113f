import SettingsService.InternalErrors
import SettingsService.Linearizable
import SettingsService.Races

/-!
# The settings map

What the service is for: it keeps, for each key and each owner, at most one value together with its
version.  A `PUT` creates an entry at version `1` or replaces one, a `PATCH` merges into one, a
`DELETE` removes one, and each of them finds the entry at the version it presents.  A `GET` shows
the entry of the owner that its authority reads first.

The rows of the table stand for such a map, and a request running alone does to the map what it is
for.  Since reads and successful writes are linearizable, so do requests in flight.

Main definitions:

* `SettingsMap` — the map, with `Request.apply`, what a request does to it and answers;
* `Table.settings` — the map that a table stands for;
* `Table.Kept` — what holds of the tables the service keeps;
* `mapAt`, `answerAt` — the maps and the answers of requests one at a time.

Main results:

* `Request.alone_apply` — **a request alone does to the map what it is for**;
* `Table.Kept.of_reachable` — the tables that requests in flight leave are such ones;
* `exists_order_as_specified` — **so do requests in flight, in some order that respects time**.
-/

set_option relaxedAutoImplicit false
set_option autoImplicit false

namespace SettingsService

open Interaction (Prog Snapshot Reachable)
open OptimisticLock (Change)

/-! ### What requests are for -/

/-- The version and the value of each owner under each key. -/
abbrev SettingsMap : Type := SettingKey → Ownership → Option (ℕ × SettingValue)

/-- What a request answers: an entry and its owner, or nothing, or an error. -/
abbrev Answer : Type := Except SettingsError (Option (Ownership × ℕ × SettingValue))

namespace SettingsMap

variable (S : SettingsMap)

/-- The map with another entry of one owner under one key. -/
def set (key : SettingKey) (o : Ownership) (x : Option (ℕ × SettingValue)) : SettingsMap :=
  Function.update S key (Function.update (S key) o x)

/-- Some owner in the tenant has an entry under the key. -/
def Knows (tenant : Tenant) (key : SettingKey) : Prop :=
  ∃ o : Ownership, o.tenant = tenant ∧ (S key o).isSome = true

open Classical in
/-- Why a caller without an entry is refused. -/
noncomputable def missing (tenant : Tenant) (key : SettingKey) : SettingsError :=
  if S.Knows tenant key then .forbidden else .notFound

/-- Storing an entry, and answering with it. -/
def store (key : SettingKey) (o : Ownership) (version : ℕ) (value : SettingValue) :
    Answer × SettingsMap :=
  (.ok (some (o, version, value)), S.set key o (some (version, value)))

/-- The entry an authority sees under a key: an admin sees the tenant-scoped one before its own. -/
def seenBy (a : Authority) (key : SettingKey) : Option (Ownership × ℕ × SettingValue) :=
  let entry (o : Ownership) := (S key o).map fun x => (o, x)
  match a.role with
  | .user => entry (.forUser a.tenant a.user)
  | .admin => (entry (.forTenant a.tenant)).or (entry (.forUser a.tenant a.user))

end SettingsMap

/-- **What a write does to the map**, and what it answers. -/
noncomputable def Write.apply (w : Write) (S : SettingsMap) : Answer × SettingsMap :=
  match w, S w.key w.target with
  | .put key value _ _ _, none => S.store key w.target 1 value
  | .put key value _ expected _, some (version, _) =>
      if expected = some version then S.store key w.target (version + 1) value
      else (.error .versionConflict, S)
  | .patch key _ authority _ _, none => (.error (S.missing authority.tenant key), S)
  | .patch key p _ expected _, some (version, value) =>
      if expected = version then
        match value.merge p with
        | .ok value => S.store key w.target (version + 1) value
        | .error e => (.error e, S)
      else (.error .versionConflict, S)
  | .delete key authority _, none => (.error (S.missing authority.tenant key), S)
  | .delete key _ expected, some (version, _) =>
      if expected = version then (.ok none, S.set key w.target none)
      else (.error .versionConflict, S)

/-- **What a request does to the map**, and what it answers; of a search it says only that it
changes nothing. -/
noncomputable def Request.apply : Request → SettingsMap → Option Answer × SettingsMap
  | .get key authority, S =>
      (some (match S.seenBy authority key with
        | some x => .ok (some x)
        | none => .error (S.missing authority.tenant key)), S)
  | .search .., S => (none, S)
  | .write w, S => ((some (w.apply S).1), (w.apply S).2)

/-! ### The map of a table -/

/-- The entry that a row stands for. -/
def SettingRecord.entry (r : SettingRecord) : Option (ℕ × SettingValue) :=
  (SettingValue.new r.value).toOption.map fun value => (r.version.toNat, value)

/-- **The map that a table stands for.** -/
def Table.settings (T : Table) : SettingsMap := fun key o =>
  if o.Stored then (T.row? (o.identity key.asStr)).bind SettingRecord.entry else none

/-- What an answer shows of a reply: owner, version and value. -/
def Reply.entry : Reply → Option (Ownership × ℕ × SettingValue)
  | .setting s => some (s.ownership, s.version, s.value)
  | .page _ => none
  | .deleted => none

/-- What a result shows. -/
def shownOf (x : Result) : Answer := x.map Reply.entry

/-- **What holds of the tables the service keeps**: rows are sane, without U+0000, and can be read
back. -/
structure Table.Kept (base : Anchor) (T : Table) : Prop where
  sane : T.Sane
  nulFree : T.NulFree
  decodable : T.Decodable base

theorem Table.kept_empty (base : Anchor) : Table.empty.Kept base :=
  ⟨sane_empty, nulFree_empty, by simp [Decodable, empty]⟩

/-- A request binds no U+0000 and comes from a principal with a user id. -/
structure Request.Proper (q : Request) : Prop where
  storable : q.Storable
  user : q.authority.user ≠ ⟨""⟩

variable {pg : Postgres} {base : Anchor} {T T' : Table} {w : Write} {settings : List Setting}

/-- A row of a table the service keeps stands for an entry. -/
theorem Table.Kept.entry_eq (hT : T.Kept base) {r : SettingRecord} (hr : r ∈ T.rows) {s : Setting}
    (hs : r.intoDomain base = .ok s) : r.entry = some (s.version, s.value) := by
  have hversion := hT.sane.version_eq hr hs
  obtain ⟨_, value, -, hvalue, rfl⟩ := SettingRecord.intoDomain_eq_ok_iff.1 hs
  simp only at hversion
  rw [SettingRecord.entry, hvalue]
  simp only [Except.toOption, Option.map_some, Option.some.injEq, Prod.mk.injEq, and_true]
  omega

/-- **The setting a write takes for its own is the entry of its owner.** -/
theorem Table.Kept.settings_eq (hT : T.Kept base) (hw : w.target.Stored)
    (hfound : Repo.found base pg T w.key w.authority.tenant = .ok settings) :
    T.settings w.key w.target = (w.own settings).map fun s => (s.version, s.value) := by
  rw [Table.settings, if_pos hw]
  change (T.row? w.identity).bind SettingRecord.entry = _
  cases hrow : T.row? w.identity with
  | none =>
      have hown : w.own settings = none := Option.eq_none_iff_forall_ne_some.2 fun s hs => by
        obtain ⟨-, r, -, hr, -⟩ := (Write.own_eq_some_iff hfound).1 hs
        exact absurd (hrow.symm.trans hr) (by simp)
      rw [hown]
      rfl
  | some r =>
      have hr := (Table.row?_eq_some_iff.1 hrow).1
      obtain ⟨s, hs⟩ := hT.decodable r hr
      have hentry := hT.entry_eq hr hs
      obtain ⟨_, value, -, hvalue, rfl⟩ := SettingRecord.intoDomain_eq_ok_iff.1 hs
      rw [Option.bind_some, hentry,
        (Write.own_eq_some_iff hfound).2 ⟨hw, r, value, hrow, hvalue, rfl⟩]
      rfl

/-- No row is found exactly when nobody in the tenant has an entry under the key. -/
theorem Table.Kept.isEmpty_iff (hT : T.Kept base) {key : SettingKey} {tenant : Tenant} :
    (Repo.selected pg T key tenant).isEmpty = true ↔ ¬ T.settings.Knows tenant key := by
  rw [List.isEmpty_iff, List.eq_nil_iff_forall_not_mem]
  constructor
  · rintro h ⟨o, rfl, ho⟩
    rw [Table.settings] at ho
    split_ifs at ho with hstored
    · cases hrow : T.row? (o.identity key.asStr) with
      | none => simp [hrow] at ho
      | some r =>
          obtain ⟨hr, hid⟩ := Table.row?_eq_some_iff.1 hrow
          exact h r (Repo.mem_selected.2 ⟨hr, Repo.under_of_identity hid⟩)
    · simp at ho
  · intro h r hr
    obtain ⟨hr, htenant, hkey⟩ := Repo.mem_selected.1 hr
    refine h ⟨r.ownership, ?_, ?_⟩
    · rw [SettingRecord.tenant_ownership, htenant]
    · obtain ⟨s, hs⟩ := hT.decodable r hr
      have hid := ((SettingRecord.ownership_eq_iff hkey).1 rfl).2
      rw [Table.settings, if_pos r.stored_ownership, Table.row?_eq_some_iff.2 ⟨hr, hid⟩,
        Option.bind_some, hT.entry_eq hr hs]
      rfl

/-! ### One request -/

/-- Changing the row of a write changes the entry of its owner. -/
theorem Table.settings_eq_set (hw : w.target.Stored)
    (hothers : ∀ id, id ≠ w.identity → T'.row? id = T.row? id) {x : Option (ℕ × SettingValue)}
    (hrow : (T'.row? w.identity).bind SettingRecord.entry = x) :
    T'.settings = T.settings.set w.key w.target x := by
  funext key o
  rw [SettingsMap.set]
  by_cases hkey : key = w.key
  · subst hkey
    rw [Function.update_self]
    by_cases ho : o = w.target
    · subst ho
      rw [Function.update_self, Table.settings, if_pos hw]
      exact hrow
    · rw [Function.update_of_ne ho, Table.settings, Table.settings]
      split_ifs with hstored
      · rw [hothers]
        intro hid
        rw [Ownership.identity, Write.identity, Ownership.identity, Prod.mk.injEq,
          Prod.mk.injEq] at hid
        exact ho (hstored.ext hw (Tenant.ext hid.1) hid.2.1)
      · rfl
  · rw [Function.update_of_ne hkey, Table.settings, Table.settings]
    split_ifs with hstored
    · rw [hothers]
      intro hid
      rw [Ownership.identity, Write.identity, Ownership.identity, Prod.mk.injEq,
        Prod.mk.injEq] at hid
      exact hkey (SettingKey.ext hid.2.2)
    · rfl

variable (base) in
/-- What a write shows and stores, whose statement put a row. -/
theorem Table.Kept.shownOf_resultOf (hw : w.target.Stored) {d : Change Identity SettingRecord}
    {r : SettingRecord} (hd : d.content = some r) (hid : r.identity = w.identity)
    {value : SettingValue} (hvalue : r.value = value.value) {version : ℕ} (hpos : 1 ≤ version)
    (hversion : r.version = version) :
    shownOf (resultOf base d) = .ok (some (w.target, version, value)) ∧
      r.entry = some (version, value) := by
  have hkey : r.key = w.key.asStr := (Repo.under_of_identity hid).2
  have hdec : r.intoDomain base = .ok ⟨w.key, value, w.target, version,
      millisToInstant base r.updatedAt⟩ := by
    refine SettingRecord.intoDomain_eq_ok_iff.2 ⟨w.key, value, ?_, ?_, ?_⟩
    · rw [hkey, SettingKey.new_asStr]
    · rw [hvalue, SettingValue.new_value]
    · rw [(SettingRecord.ownership_eq_iff hkey).2 ⟨hw, hid⟩, hversion]
      congr 1
      omega
  constructor
  · rw [resultOf_of_content hd, hdec]
    rfl
  · rw [SettingRecord.entry, hvalue, SettingValue.new_value, hversion]
    rfl

/-- A write whose statement put a row stores an entry, and answers with it. -/
theorem Table.Kept.alone_of_content (hw : w.target.Stored)
    (hfound : Repo.found base pg T w.key w.authority.tenant = .ok settings) {plan : Plan}
    (hplan : w.Decides settings plan) {d : Change Identity SettingRecord}
    (hd : (plan.stmt base).change (pg.exec (plan.stmt base) T).1 = some d) {r : SettingRecord}
    (hr : d.content = some r) {value : SettingValue} (hvalue : r.value = value.value) {version : ℕ}
    (hpos : 1 ≤ version) (hversion : r.version = version) :
    shownOf (w.alone pg base T).1 = .ok (some (w.target, version, value)) ∧
      (w.alone pg base T).2.settings = T.settings.set w.key w.target (some (version, value)) := by
  have hkey := (hplan.makes hfound hd).key_eq
  have hid : r.identity = w.identity := (row_of_change hd hr).1.trans hkey
  obtain ⟨hshown, hentry⟩ := Kept.shownOf_resultOf base hw hr hid hvalue hpos hversion
  obtain ⟨v, hv⟩ := (Postgres.effective_of_change hd).of_content hr
  have hafter := (Table.view_eq_some_iff.1 (hkey ▸ hv)).1
  rw [Write.alone_of_decides hfound hplan hd]
  refine ⟨hshown, settings_eq_set hw (fun id hne => ?_) ?_⟩
  · exact row?_exec_of_ne hd (hkey ▸ hne)
  · rw [hafter, Option.bind_some, hentry]

/-- A write that is refused after its read leaves the table. -/
theorem Write.alone_of_refused
    (hfound : Repo.found base pg T w.key w.authority.tenant = .ok settings) {e : SettingsError}
    (h : w.decide settings = .error e) : w.alone pg base T = (.error e, T) := by
  rw [Write.alone_eq, hfound]
  change Prog.run pg.exec (Plan.progOf base (w.decide settings)) T = _
  rw [h]
  rfl

/-- A write that needs a setting of its own and has none. -/
theorem Write.decide_of_missing (hown : w.own settings = none) (hw : ¬ ∃ s, w.Creates s) :
    w.decide settings = .error (if settings.isEmpty then .notFound else .forbidden) := by
  rw [Write.own] at hown
  cases w with
  | put key value authority expected now => exact absurd ⟨_, rfl⟩ hw
  | patch key p authority expected now =>
      change (settings.find? fun s => s.ownership == authority.scopeOwnership) = none at hown
      rw [Write.decide, hown]
      split_ifs <;> rfl
  | delete key authority expected =>
      change (settings.find? fun s => s.ownership == authority.scopeOwnership) = none at hown
      rw [Write.decide, hown]
      split_ifs <;> rfl

/-- A `PATCH` that cannot be merged into its setting. -/
theorem Write.decide_of_unmergeable {key : SettingKey} {p : SettingValue} {authority : Authority}
    {now : Instant} {cur : Setting}
    (hown : (Write.patch key p authority cur.version now).own settings = some cur)
    {e : SettingsError} (h : cur.value.merge p = .error e) :
    (Write.patch key p authority cur.version now).decide settings = .error e := by
  have hrows := Write.isEmpty_eq_false_of_own hown
  change (settings.find? fun s => s.ownership == authority.scopeOwnership) = some cur at hown
  simp [Write.decide, hrows, hown, okOr, Setting.applyPartial, h, bind, Except.bind]

variable (pg) in
/-- Why a caller without a setting of its own is refused. -/
theorem Table.Kept.missing_eq (hT : T.Kept base) {key : SettingKey} {tenant : Tenant} :
    T.settings.missing tenant key =
      if (Repo.selected pg T key tenant).isEmpty then .notFound else .forbidden := by
  rw [SettingsMap.missing]
  by_cases h : T.settings.Knows tenant key
  · rw [if_pos h, if_neg fun he => hT.isEmpty_iff.1 he h]
  · rw [if_neg h, if_pos (hT.isEmpty_iff.2 h)]

section Alone

variable (hjsonb : ∀ v, pg.jsonb v = v) (hT : T.Kept base) (hroom : T.HasRoom)

include hT hroom in
/-- Postgres takes the statement that a write decides on. -/
theorem Table.Kept.accepted (hw : w.Storable)
    (hfound : Repo.found base pg T w.key w.authority.tenant = .ok settings) {plan : Plan}
    (hplan : w.Decides settings plan) : (plan.stmt base).accepted = true := by
  obtain ⟨ha, hdec⟩ := Repo.found_eq_ok_iff.1 hfound
  have hrows : Stmt.Answers _ (pg.exec _ T).1 := hT.nulFree.answers hroom ha
  rw [Postgres.exec_of_accepted ha] at hrows
  exact hw.accepted hrows hdec hplan

include hT in
/-- An owner without an entry has no row. -/
theorem Table.Kept.row?_eq_none (hw : w.target.Stored) (h : T.settings w.key w.target = none) :
    T.row? w.identity = none := by
  rw [Table.settings, if_pos hw] at h
  refine Option.eq_none_iff_forall_ne_some.2 fun r hr => ?_
  obtain ⟨s, hs⟩ := hT.decodable r (Table.row?_eq_some_iff.1 hr).1
  change (T.row? w.identity).bind SettingRecord.entry = none at h
  rw [hr, Option.bind_some, hT.entry_eq (Table.row?_eq_some_iff.1 hr).1 hs] at h
  cases h

include hT in
/-- The row of the setting a write takes for its own. -/
theorem Table.Kept.row_of_own
    (hfound : Repo.found base pg T w.key w.authority.tenant = .ok settings) {cur : Setting}
    (hown : w.own settings = some cur) :
    ∃ r, T.row? w.identity = some r ∧ r.version = cur.version := by
  obtain ⟨-, r, value, hr, -, rfl⟩ := (Write.own_eq_some_iff hfound).1 hown
  have := hT.sane.versions r (Table.row?_eq_some_iff.1 hr).1
  refine ⟨r, hr, ?_⟩
  simp only
  omega

variable (hw : w.Storable) (hstored : w.target.Stored)
  (hfound : Repo.found base pg T w.key w.authority.tenant = .ok settings)

include hjsonb hT hroom hw hstored hfound

/-- A write that creates its setting. -/
theorem Table.Kept.alone_of_creates (hown : w.own settings = none) {s : Setting}
    (hs : w.Creates s) (hversion : s.version = 1) :
    shownOf (w.alone pg base T).1 = .ok (some (w.target, s.version, s.value)) ∧
      (w.alone pg base T).2.settings =
        T.settings.set w.key w.target (some (s.version, s.value)) := by
  have hplan : w.Decides settings (.insert s) := .insert hown hs
  have ha := hT.accepted hroom hw hfound hplan
  have hsettings := hT.settings_eq hstored hfound
  rw [hown, Option.map_none] at hsettings
  have hd : ((Plan.insert s).stmt base).change (pg.exec ((Plan.insert s).stmt base) T).1 =
      some (.create w.identity (pg.inserted w.target.tenant.asStr w.target.userColumn w.key.asStr
        s.value.value (instantToMillis base s.updatedAt))) := by
    rw [hs.stmt_eq] at ha ⊢
    exact change_insert_iff.2 ⟨ha, hT.row?_eq_none hstored hsettings, rfl⟩
  exact alone_of_content hstored hfound hplan hd rfl (hjsonb _) (by omega)
    (by rw [hversion]; rfl)

/-- A write that revises its setting. -/
theorem Table.Kept.alone_of_revises {cur next : Setting} (hown : w.own settings = some cur)
    (he : w.expected = some cur.version) (hnext : w.Revises cur next) :
    shownOf (w.alone pg base T).1 = .ok (some (w.target, cur.version + 1, next.value)) ∧
      (w.alone pg base T).2.settings =
        T.settings.set w.key w.target (some (cur.version + 1, next.value)) := by
  have hplan : w.Decides settings (.update next cur.version) := .update hown he hnext
  have ha := hT.accepted hroom hw hfound hplan
  obtain ⟨r, hr, hversion⟩ := hT.row_of_own hfound hown
  have hlt := hroom r (Table.row?_eq_some_iff.1 hr).1
  have hd : ((Plan.update next cur.version).stmt base).change
      (pg.exec ((Plan.update next cur.version).stmt base) T).1 =
        some (.replace w.identity cur.version
          (r.rewrite (pg.jsonb next.value.value) (instantToMillis base next.updatedAt))) := by
    rw [hnext.stmt_eq hfound hown] at ha ⊢
    exact change_update_iff.2 ⟨ha, hversion ▸ hlt, r, hr, hversion, rfl⟩
  refine alone_of_content hstored hfound hplan hd rfl (hjsonb _) (by omega) ?_
  rw [SettingRecord.rewrite, hversion]
  rfl

omit hjsonb in
/-- A write that deletes its setting. -/
theorem Table.Kept.alone_of_deletes {cur : Setting} (hown : w.own settings = some cur)
    (he : w.expected = some cur.version) (hdel : w.Deletes) :
    shownOf (w.alone pg base T).1 = .ok none ∧
      (w.alone pg base T).2.settings = T.settings.set w.key w.target none := by
  have hplan : w.Decides settings (.delete w.key cur.ownership cur.version) := .delete hown he hdel
  have ha := hT.accepted hroom hw hfound hplan
  obtain ⟨r, hr, hversion⟩ := hT.row_of_own hfound hown
  have hd : ((Plan.delete w.key cur.ownership cur.version).stmt base).change
      (pg.exec ((Plan.delete w.key cur.ownership cur.version).stmt base) T).1 =
        some (.remove w.identity cur.version) := by
    rw [Write.delete_stmt_eq hfound hown] at ha ⊢
    exact change_delete_iff.2 ⟨ha, r, hr, hversion, rfl⟩
  rw [Write.alone_of_decides hfound hplan hd]
  refine ⟨rfl, settings_eq_set hstored (fun id hne => row?_exec_of_ne hd hne) ?_⟩
  have hnone : (pg.exec ((Plan.delete w.key cur.ownership cur.version).stmt base) T).2.row?
      w.identity = none := by
    refine Option.eq_none_iff_forall_ne_some.2 fun r' hr' => ?_
    have hcontent := (Postgres.effective_of_change hd).content_eq
      (Table.view_eq_some_iff.2 ⟨hr', rfl⟩)
    simp [Change.content] at hcontent
  rw [hnone]
  rfl

omit hw hstored hfound

/-- **A write alone does to the map what it is for.** -/
theorem Write.alone_apply (hw : (Request.write w).Proper) :
    shownOf (w.alone pg base T).1 = (w.apply T.settings).1 ∧
      (w.alone pg base T).2.settings = (w.apply T.settings).2 := by
  have hstored : w.target.Stored := Write.stored_target_iff.2 fun h => hw.user h.2
  obtain ⟨settings, hfound⟩ : ∃ settings, Repo.found base pg T w.key w.authority.tenant =
      .ok settings := Repo.exists_found_iff.2
    ⟨by simp [Stmt.accepted, Write.Storable.texts hw.storable], fun r hr _ => hT.decodable r hr⟩
  have hsettings := hT.settings_eq hstored hfound
  have hmissing : T.settings.missing w.authority.tenant w.key =
      if settings.isEmpty then .notFound else .forbidden := by
    rw [isEmpty_mapM (Repo.found_eq_ok_iff.1 hfound).2]
    exact hT.missing_eq pg
  have hws : w.Storable := hw.storable
  cases hown : w.own settings with
  | none =>
      rw [hown, Option.map_none] at hsettings
      cases w with
      | put key value authority expected now =>
          simp only [Write.apply, hsettings]
          exact hT.alone_of_creates hjsonb hroom hws hstored hfound hown (s := ⟨_, _, _, _, _⟩)
            rfl rfl
      | patch | delete =>
          rw [Write.alone_of_refused hfound
            (Write.decide_of_missing hown (by simp [Write.Creates]))]
          simp only [Write.apply, hsettings, ← hmissing]
          exact ⟨rfl, trivial⟩
  | some cur =>
      rw [hown, Option.map_some] at hsettings
      by_cases he : w.expected = some cur.version
      · cases w with
        | put key value authority expected now =>
            obtain rfl : expected = some cur.version := he
            simp only [Write.apply, hsettings, if_true]
            let next : Setting :=
              { cur with value := value, version := cur.version + 1, updatedAt := now }
            have hnext : Write.Revises (.put key value authority (some cur.version) now) cur next :=
              rfl
            exact hT.alone_of_revises hjsonb hroom hws hstored hfound hown rfl hnext
        | patch key p authority expected now =>
            obtain rfl : expected = cur.version := Option.some.inj he
            simp only [Write.apply, hsettings, if_true]
            cases hmerge : cur.value.merge p with
            | error e =>
                rw [Write.alone_of_refused hfound (Write.decide_of_unmergeable hown hmerge)]
                exact ⟨rfl, rfl⟩
            | ok value =>
                exact hT.alone_of_revises hjsonb hroom hws hstored hfound hown rfl
                  (Setting.applyPartial_eq_ok_iff.2 ⟨value, hmerge, rfl⟩)
        | delete key authority expected =>
            obtain rfl : expected = cur.version := Option.some.inj he
            simp only [Write.apply, hsettings, if_true]
            exact hT.alone_of_deletes hroom hws hstored hfound hown rfl trivial
      · rw [Write.alone_of_refused hfound (Write.decide_of_stale hown he)]
        cases w with
        | put key value authority expected now =>
            simp only [Write.apply, hsettings, if_neg (show expected ≠ some cur.version from he)]
            exact ⟨rfl, trivial⟩
        | patch | delete =>
            simp only [Write.apply, hsettings, if_neg fun h => he (congrArg some h)]
            exact ⟨rfl, trivial⟩

end Alone

/-- **The entry an authority sees is the one of the row shown to it.** -/
theorem Table.Kept.seenBy_eq (hT : T.Kept base) {a : Authority} (ha : a.user ≠ ⟨""⟩)
    (key : SettingKey) : T.settings.seenBy a key =
      (a.shown T key).bind fun r => r.entry.map fun x => (r.ownership, x) := by
  have hentry : ∀ {o : Ownership}, o.Stored → ((T.settings key o).map fun x => (o, x)) =
      (T.row? (o.identity key.asStr)).bind fun r => r.entry.map fun x => (r.ownership, x) := by
    intro o ho
    rw [Table.settings, if_pos ho]
    cases hrow : T.row? (o.identity key.asStr) with
    | none => rfl
    | some r =>
        have hid := (Table.row?_eq_some_iff.1 hrow).2
        rw [Option.bind_some, Option.bind_some,
          (SettingRecord.ownership_eq_iff (Repo.under_of_identity hid).2).2 ⟨ho, hid⟩]
  have hsome : ∀ {id : Identity} {r : SettingRecord}, T.row? id = some r →
      ∃ x, r.entry = some x := fun hrow => by
    obtain ⟨s, hs⟩ := hT.decodable _ (Table.row?_eq_some_iff.1 hrow).1
    exact ⟨_, hT.entry_eq (Table.row?_eq_some_iff.1 hrow).1 hs⟩
  rw [SettingsMap.seenBy, Authority.shown]
  cases a.role with
  | user => exact hentry (Authority.stored_forUser ha)
  | admin =>
      simp only [hentry (Authority.stored_forUser ha), hentry a.stored_forTenant]
      cases hrow : T.row? ((Ownership.forTenant a.tenant).identity key.asStr) with
      | none => rfl
      | some r =>
          obtain ⟨x, hx⟩ := hsome hrow
          simp [hx]

/-- A read alone leaves the table. -/
theorem Request.alone_of_read {q : Request} (hq : q.write? = none) : (q.alone pg base T).2 = T := by
  rcases q.read_cases base with ⟨w, rfl⟩ | ⟨s, f, hprog, hs⟩
  · cases hq
  · rw [Request.alone, hprog, Prog.run_call, Prog.run_pure]
    exact Postgres.exec_of_no_change (hs _)

/-- **A request alone does to the map what it is for.** -/
theorem Request.alone_apply (hjsonb : ∀ v, pg.jsonb v = v) (hT : T.Kept base) (hroom : T.HasRoom)
    {q : Request} (hq : q.Proper) :
    (∀ a, (q.apply T.settings).1 = some a → shownOf (q.alone pg base T).1 = a) ∧
      (q.alone pg base T).2.settings = (q.apply T.settings).2 := by
  cases q with
  | write w =>
      have h := Write.alone_apply hjsonb hT hroom hq
      refine ⟨fun a ha => ?_, h.2⟩
      exact h.1.trans (Option.some.inj ha)
  | search query authority pagination =>
      refine ⟨fun a ha => ?_, ?_⟩
      · cases ha
      · rw [Request.alone_of_read rfl]
        rfl
  | get key authority =>
      refine ⟨fun a ha => ?_, ?_⟩
      · obtain rfl := Option.some.inj ha
        obtain ⟨htenant, hkey⟩ : textAccepted authority.tenant.asStr = true ∧
          textAccepted key.asStr = true := hq.storable
        have huser : authority.user ≠ ⟨""⟩ := hq.user
        rw [alone_get_eq huser hT.sane.users hT.decodable (by simp [Stmt.accepted, htenant, hkey]),
          hT.seenBy_eq huser]
        cases hshown : authority.shown T key with
        | none => exact congrArg Except.error (hT.missing_eq pg).symm
        | some r =>
            obtain ⟨hr, -⟩ := Authority.mem_readableRows.1 (Authority.mem_of_shown huser hshown).1
            obtain ⟨s, hs⟩ := hT.decodable r hr
            rw [Option.bind_some, hT.entry_eq hr hs]
            simp only [hs]
            obtain ⟨_, value, -, -, rfl⟩ := SettingRecord.intoDomain_eq_ok_iff.1 hs
            rfl
      · rw [Request.alone_of_read rfl]
        rfl

/-! ### Requests in flight -/

/-- The map before the request at position `m`, starting empty. -/
noncomputable def mapAt (rs : List Request) (m : ℕ) : SettingsMap :=
  (rs.take m).foldl (fun S q => (q.apply S).2) fun _ _ => none

/-- The answer of the map to the request at position `m`; a search has none. -/
noncomputable def answerAt (rs : List Request) (m : ℕ) : Option Answer :=
  rs[m]?.bind fun q => (q.apply (mapAt rs m)).1

theorem mapAt_succ {rs : List Request} {m : ℕ} {q : Request} (hq : rs[m]? = some q) :
    mapAt rs (m + 1) = (q.apply (mapAt rs m)).2 := by
  rw [mapAt, List.take_add_one, hq, List.foldl_append]
  rfl

/-- **The service keeps the tables it is for.** -/
theorem Table.Kept.of_reachable (hT : T.Kept base) (hjsonb : ∀ v, pg.jsonb v = v)
    {reqs : List Request} (hreqs : ∀ q ∈ reqs, q.authority.user ≠ ⟨""⟩) {c : ServiceConfig}
    (hc : Reachable pg.exec (fun _ _ => True) (Snapshot.init T (Request.prog base) reqs) c) :
    c.state.Kept base := by
  have hprog : ∀ q ∈ reqs, (q.prog base).Only Stmt.NamesUser := fun q hq =>
    Request.only_namesUser base (hreqs q hq)
  refine ⟨?_, ?_, ?_⟩
  · exact hc.state_invariant hT.sane hprog fun _ _ hs hT => hT.exec hs
  · exact hc.state_invariant hT.nulFree hprog fun s T _ hT =>
      hT.exec (fun v hv => by rwa [hjsonb]) s
  · rw [hc.state_eq, ← List.take_length (l := c.hist)]
    exact decodable_tableBefore hc (fun _ _ v _ => hjsonb v) hT.decodable (Nat.le_refl _)

/-- So does a request alone. -/
theorem Table.Kept.alone (hT : T.Kept base) (hjsonb : ∀ v, pg.jsonb v = v) {q : Request}
    (hq : q.authority.user ≠ ⟨""⟩) : (q.alone pg base T).2.Kept base := by
  obtain ⟨c, hc, hstate, -⟩ := exists_reachable_tableAt pg base T [q] 1
  have hkept := hT.of_reachable hjsonb (by simpa using hq) hc
  rwa [hstate] at hkept

/-- A request alone advances a version by at most one. -/
theorem Request.version_alone_le {q : Request} {n : ℕ} (hT : ∀ r ∈ T.rows, r.version ≤ n) :
    ∀ r ∈ (q.alone pg base T).2.rows, r.version ≤ (n + 1 : ℕ) := by
  have hstep : ∀ s : Stmt, ∀ r ∈ (pg.exec s T).2.rows, r.version ≤ (n + 1 : ℕ) := by
    intro s r hr
    rcases Postgres.row_of_exec hr with hr | ⟨r₀, hr₀, _, _, _, _, _, _, -, rfl⟩ |
      ⟨_, _, _, _, _, -, -, rfl⟩
    · have := hT r hr
      push_cast
      omega
    · have := hT r₀ hr₀
      simp only [SettingRecord.rewrite]
      push_cast
      omega
    · simp only [Postgres.inserted]
      push_cast
      omega
  cases hwrite : q.write? with
  | none =>
      rw [Request.alone_of_read hwrite]
      intro r hr
      have := hT r hr
      push_cast
      omega
  | some w =>
      obtain rfl := Request.write?_eq_some_iff.1 hwrite
      change ∀ r ∈ (w.alone pg base T).2.rows, _
      rcases w.alone_cases pg base T with ⟨_, plan, _, -, -, -, -, halone⟩ | ⟨-, e, halone⟩
      · rw [halone]
        exact hstep _
      · rw [halone]
        intro r hr
        have := hT r hr
        push_cast
        omega

/-- What a request does at its turn, in a run with room for the versions. -/
theorem apply_tableAt (hjsonb : ∀ v, pg.jsonb v = v) {rs : List Request}
    (hrs : ∀ q ∈ rs, q.Proper) (hlen : (rs.length : ℤ) ≤ i32Max) {m : ℕ} (hm : m < rs.length)
    (hversions : ∀ r ∈ (tableAt pg base Table.empty rs m).rows, r.version ≤ m) :
    let T := tableAt pg base Table.empty rs m
    (∀ a, (rs[m].apply T.settings).1 = some a → shownOf (rs[m].alone pg base T).1 = a) ∧
      (rs[m].alone pg base T).2.settings = (rs[m].apply T.settings).2 := by
  obtain ⟨c, hc, hstate, -⟩ := exists_reachable_tableAt pg base Table.empty rs m
  have hkept := (Table.kept_empty base).of_reachable hjsonb (fun q hq => (hrs q hq).user) hc
  rw [hstate] at hkept
  refine Request.alone_apply hjsonb hkept (fun r hr => ?_) (hrs _ (List.getElem_mem hm))
  have := hversions r hr
  omega

variable (base) in
/-- **One request after the other does to the map what each is for.** -/
theorem settings_tableAt (hjsonb : ∀ v, pg.jsonb v = v) {rs : List Request}
    (hrs : ∀ q ∈ rs, q.Proper) (hlen : (rs.length : ℤ) ≤ i32Max) {m : ℕ} (hm : m ≤ rs.length) :
    (tableAt pg base Table.empty rs m).settings = mapAt rs m ∧
      ∀ r ∈ (tableAt pg base Table.empty rs m).rows, r.version ≤ m := by
  induction m with
  | zero =>
      refine ⟨?_, fun r hr => absurd hr (by simp [tableAt, Table.empty])⟩
      funext key o
      simp [tableAt, mapAt, Table.settings]
  | succ m ih =>
      obtain ⟨hmap, hversions⟩ := ih (Nat.le_of_succ_le hm)
      have hq : rs[m]? = some rs[m] := List.getElem?_eq_getElem hm
      have happly := (apply_tableAt hjsonb hrs hlen hm hversions).2
      rw [tableAt_succ hq, mapAt_succ hq, ← hmap]
      exact ⟨happly, Request.version_alone_le hversions⟩

/-- **Requests in the order `is`** do to the map what they are for: they are the requests that are
served, none of them comes before one that had returned before it began, each answers what the map
does, and the table stands for the map that the last one leaves. -/
structure AsSpecified (c : ServiceConfig) (is : List ℕ) : Prop where
  nodup : is.Nodup
  served : ∀ i p, c.procs[i]? = some p → (i ∈ is ↔ Served p)
  realTime : is.Pairwise fun i j => ¬ Interaction.Precedes c.hist j i
  answers : ∃ rs : List Request, rs.length = is.length ∧
    (∀ m i, is[m]? = some i → ∃ p x, c.procs[i]? = some p ∧ rs[m]? = some p.req ∧
      p.prog = .pure x ∧ ∀ a, answerAt rs m = some a → shownOf x = a) ∧
    c.state.settings = mapAt rs is.length

/-- The order of the points. -/
theorem asSpecified_points {qs : List Request} (hqs : ∀ q ∈ qs, q.Proper)
    (hlen : (qs.length : ℤ) ≤ i32Max) {c : ServiceConfig}
    (hc : Reachable pg.exec ReadsPresent (Snapshot.init Table.empty (Request.prog base) qs) c)
    (hkeeps : ∀ e ∈ c.hist, pg.Keeps e.op) :
    AsSpecified c ((points c.hist).map fun e => e.who) := by
  -- the run is also one over a Postgres that gives back whatever is stored
  obtain ⟨pg', hjsonb, hc⟩ : ∃ pg' : Postgres, (∀ v, pg'.jsonb v = v) ∧
      Reachable pg'.exec ReadsPresent (Snapshot.init Table.empty (Request.prog base) qs) c :=
    ⟨pg.keeping, pg.jsonb_keeping, hc.congr fun e he => Postgres.exec_keeping (hkeeps e he)⟩
  have hlin := linearizes_points hc fun _ _ v _ => hjsonb v
  refine ⟨hlin.nodup, hlin.served, hlin.realTime, ?_⟩
  obtain ⟨rs, hrslen, halone, hstate⟩ := hlin.alone
  generalize (points c.hist).map (fun e => e.who) = is at hlin hrslen halone hstate
  have hrs : ∀ q ∈ rs, q.Proper := fun q hq => by
    obtain ⟨m, hm⟩ := List.getElem?_of_mem hq
    have hlt : m < is.length := hrslen ▸ (List.getElem?_eq_some_iff.1 hm).1
    obtain ⟨p, hp, hreq, -⟩ := halone m is[m] (List.getElem?_eq_getElem hlt)
    rw [hm, Option.some.injEq] at hreq
    exact hqs q (hreq ▸ List.mem_of_getElem? (hc.req_of_proc hp))
  have hle : is.length ≤ qs.length := by
    rw [← hc.procs_req, List.length_map, ← List.length_range (n := c.procs.length)]
    refine (hlin.nodup.subperm fun i hi => ?_).length_le
    obtain ⟨m, hm⟩ := List.getElem?_of_mem hi
    obtain ⟨p, hp, -⟩ := halone m i hm
    exact List.mem_range.2 (List.getElem?_eq_some_iff.1 hp).1
  have hrslen' : (rs.length : ℤ) ≤ i32Max := by omega
  refine ⟨rs, hrslen, fun m i hm => ?_, ?_⟩
  · obtain ⟨p, hp, hreq, hresponse⟩ := halone m i hm
    have hlt : m < rs.length := (List.getElem?_eq_some_iff.1 hreq).1
    obtain ⟨hmap, hversions⟩ := settings_tableAt base hjsonb hrs hrslen' (Nat.le_of_lt hlt)
    rw [responseAt, List.getElem?_eq_getElem hlt, Option.map_some] at hresponse
    refine ⟨p, _, hp, hreq, Interaction.Prog.result?_eq_some_iff.1 hresponse.symm, fun a ha => ?_⟩
    rw [answerAt, List.getElem?_eq_getElem hlt, Option.bind_some, ← hmap] at ha
    exact (apply_tableAt hjsonb hrs hrslen' hlt hversions).1 a ha
  · rw [← hstate, ← hrslen]
    exact (settings_tableAt base hjsonb hrs hrslen' (Nat.le_refl _)).1

/-- **Requests in flight do to the map what they are for**, in some order that respects time: those
that read and those that succeed, as long as no version can reach the largest `INTEGER`. -/
theorem exists_order_as_specified {qs : List Request} (hqs : ∀ q ∈ qs, q.Proper)
    (hlen : (qs.length : ℤ) ≤ i32Max) {c : ServiceConfig}
    (hc : Reachable pg.exec ReadsPresent (Snapshot.init Table.empty (Request.prog base) qs) c)
    (hkeeps : ∀ e ∈ c.hist, pg.Keeps e.op) : ∃ is, AsSpecified c is :=
  ⟨_, asSpecified_points hqs hlen hc hkeeps⟩

open Sample in
/-- A `PUT`, then a `PATCH` of what it created, with a read between the statements of the
`PATCH`. -/
theorem exists_order_as_specified_of_read_between :
    let c := (Snapshot.init Table.empty (Request.prog ⟨0, 0⟩)
      [.write (.put theme dark alice none 0), .write (.patch theme light alice 1 0),
        .get theme alice]).schedule (Postgres.ofJsonb id).exec [0, 0, 1, 2, 1]
    ∃ is, AsSpecified c is := by
  refine exists_order_as_specified ?_ (by decide)
    ((Reachable.refl.schedule _ _).of_hist (by decide +kernel)) fun _ _ _ _ => rfl
  have hnul : light.value.AddsNoNul := by
    rintro m hm -
    obtain rfl := List.mem_singleton.1 hm
    exact ⟨by decide, by decide⟩
  have halice : alice.user ≠ ⟨""⟩ := by decide
  rintro q hq
  simp only [List.mem_cons, List.not_mem_nil, or_false] at hq
  rcases hq with rfl | rfl | rfl
  · exact ⟨⟨by decide, by decide, by decide, by decide⟩, halice⟩
  · exact ⟨⟨by decide, by decide, fun _ => hnul⟩, halice⟩
  · exact ⟨⟨by decide, by decide⟩, halice⟩

end SettingsService
