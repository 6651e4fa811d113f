import SettingsService.PgSettings

/-!
# The settings service

`SettingsService` over the Postgres adapter: the methods `get`, `search`, `put`, `patch` and
`delete` as programs, and the requests and replies they make up.

A write reads all rows of its tenant and key, decides on at most one statement, and runs it.  The
decision is a pure function of the rows read, `Write.decide`; `Write.prog_eq` says that this is all
the service does.

Main definitions:

* `Service.get`, `Service.search`, `Service.put`, `Service.patch`, `Service.delete` — the methods;
* `Write`, `Request`, `Reply` — the write requests, all requests, and what they return;
* `Plan`, `Write.decide` — the statement a write decides on after its read;
* `resultOf` — the result of a write whose statement took effect;
* `Write.alone`, `Request.alone` — a request running alone on a table.

Main results:

* `Write.prog_eq` — **a write is one read, one decision and at most one statement**;
* `Write.decide_eq_ok_iff`, `Write.after_read` — what a write decides, and when;
* `Plan.run_prog` — what the statement decided on does when it runs at once.
-/

set_option relaxedAutoImplicit false
set_option autoImplicit false

namespace SettingsService

open Interaction (Prog)
open OptimisticLock (Change)

/-! ### The methods -/

/-- `Option::ok_or`. -/
def okOr {α : Type} (o : Option α) (e : SettingsError) : Except SettingsError α :=
  match o with
  | some a => .ok a
  | none => .error e

namespace Service

variable (base : Anchor)

/-- `get`. -/
def get (key : SettingKey) (authority : Authority) : Db Setting := do
  let rows ← Repo.find base key authority.tenant
  if rows.isEmpty then throw .notFound
  else lift (okOr (rows.find? fun s => authority.canRead s.ownership) .forbidden)

/-- `search`. -/
def search (query : String) (authority : Authority) (pagination : Pagination) :
    Db (Option SearchPage) :=
  Repo.search base query authority pagination

/-- `put`. -/
def put (key : SettingKey) (value : SettingValue) (authority : Authority) (expected : Option ℕ)
    (now : Instant) : Db Setting := do
  let target := authority.scopeOwnership
  let rows ← Repo.find base key authority.tenant
  -- a caller who has a row must present its version; without a row the precondition is ignored
  match rows.find? fun s => s.ownership == target with
  | some cur => do
      let expected ← lift (okOr expected .versionConflict)
      if expected ≠ cur.version then throw .versionConflict
      else do
        let next ← lift (cur.setValue value now)
        Repo.update base next expected
  | none => do
      let setting ← lift (Setting.new key value target now)
      Repo.insert base setting

/-- `patch`. -/
def patch (key : SettingKey) (patch : SettingValue) (authority : Authority) (expected : ℕ)
    (now : Instant) : Db Setting := do
  let target := authority.scopeOwnership
  let rows ← Repo.find base key authority.tenant
  if rows.isEmpty then throw .notFound
  else do
    -- the key exists, but not for the caller
    let cur ← lift (okOr (rows.find? fun s => s.ownership == target) .forbidden)
    if expected ≠ cur.version then throw .versionConflict
    else do
      let next ← lift (cur.applyPartial patch now)
      Repo.update base next expected

/-- `delete`. -/
def delete (key : SettingKey) (authority : Authority) (expected : ℕ) : Db Unit := do
  let target := authority.scopeOwnership
  let rows ← Repo.find base key authority.tenant
  if rows.isEmpty then throw .notFound
  else do
    let cur ← lift (okOr (rows.find? fun s => s.ownership == target) .forbidden)
    if expected ≠ cur.version then throw .versionConflict
    else Repo.delete key cur.ownership expected

end Service

/-! ### Requests -/

/-- What a request returns when it succeeds. -/
inductive Reply
  | setting (s : Setting)
  /-- No page is a panic of the search. -/
  | page (p : Option SearchPage)
  | deleted

/-- What a request returns. -/
abbrev Result : Type := Except SettingsError Reply

/-- A write request. -/
inductive Write
  | put (key : SettingKey) (value : SettingValue) (authority : Authority) (expected : Option ℕ)
      (now : Instant)
  | patch (key : SettingKey) (patch : SettingValue) (authority : Authority) (expected : ℕ)
      (now : Instant)
  | delete (key : SettingKey) (authority : Authority) (expected : ℕ)

namespace Write

/-- The key a write is about. -/
def key : Write → SettingKey
  | put key .. => key
  | patch key .. => key
  | delete key .. => key

/-- The authority a write runs under. -/
def authority : Write → Authority
  | put _ _ authority .. => authority
  | patch _ _ authority .. => authority
  | delete _ authority _ => authority

/-- The version a write presents in its precondition. -/
def expected : Write → Option ℕ
  | put _ _ _ expected _ => expected
  | patch _ _ _ expected _ => some expected
  | delete _ _ expected => some expected

/-- The ownership a write is about. -/
def target (w : Write) : Ownership := w.authority.scopeOwnership

/-- The identity of the row a write is about. -/
def identity (w : Write) : Identity := w.target.identity w.key.asStr

@[simp] theorem tenant_target (w : Write) : w.target.tenant = w.authority.tenant :=
  w.authority.tenant_scopeOwnership

/-- The program of a write. -/
def prog (base : Anchor) : Write → Prog Stmt Stmt.Ret Result
  | put key value authority expected now =>
      (Reply.setting <$> Service.put base key value authority expected now).run
  | .patch key value authority expected now =>
      (Reply.setting <$> Service.patch base key value authority expected now).run
  | delete key authority expected =>
      ((fun _ => Reply.deleted) <$> Service.delete base key authority expected).run

end Write

/-- A request. -/
inductive Request
  | get (key : SettingKey) (authority : Authority)
  | search (query : String) (authority : Authority) (pagination : Pagination)
  | write (w : Write)

namespace Request

/-- The authority a request runs under. -/
def authority : Request → Authority
  | get _ authority => authority
  | search _ authority _ => authority
  | write w => w.authority

/-- The program of a request. -/
def prog (base : Anchor) : Request → Prog Stmt Stmt.Ret Result
  | get key authority => (Reply.setting <$> Service.get base key authority).run
  | search query authority pagination =>
      (Reply.page <$> Service.search base query authority pagination).run
  | write w => w.prog base

end Request

/-! ### What a write does after its read -/

/-- The statement a write decides on after its read. -/
inductive Plan
  | insert (s : Setting)
  | update (next : Setting) (expected : ℕ)
  | delete (key : SettingKey) (ownership : Ownership) (expected : ℕ)

namespace Plan

/-- A statement that matched no row: the row is looked for once more, without its version. -/
def check (key : SettingKey) (ownership : Ownership) : Prog Stmt Stmt.Ret Result :=
  .call (.count ownership.tenant.asStr ownership.userColumn key.asStr) fun r =>
    .pure (.error (match r with
      | .ok row => if (0 : ℤ) < row then .versionConflict else .notFound
      | .error e => mapPgErr e))

/-- The statement of a plan. -/
def stmt (base : Anchor) : Plan → Stmt
  | insert s => .insert s.ownership.tenant.asStr s.ownership.userColumn s.key.asStr s.value.value
      (instantToMillis base s.updatedAt)
  | update next expected => .update next.value.value (instantToMillis base next.updatedAt)
      next.ownership.tenant.asStr next.ownership.userColumn next.key.asStr (asI32 expected)
  | delete key ownership expected => .delete ownership.tenant.asStr ownership.userColumn key.asStr
      (asI32 expected)

/-- The rest of a write after its decision. -/
def prog (base : Anchor) : Plan → Prog Stmt Stmt.Ret Result
  | insert s =>
      .call (.insert s.ownership.tenant.asStr s.ownership.userColumn s.key.asStr s.value.value
        (instantToMillis base s.updatedAt)) fun r => match r with
      | .ok (some r) => .pure ((r.intoDomain base).map .setting)
      | .ok none => .pure (.error .conflict)
      | .error e => .pure (.error (mapPgErr e))
  | update next expected =>
      .call (.update next.value.value (instantToMillis base next.updatedAt)
        next.ownership.tenant.asStr next.ownership.userColumn next.key.asStr
        (asI32 expected)) fun r => match r with
      | .ok (some r) => .pure ((r.intoDomain base).map .setting)
      | .ok none => check next.key next.ownership
      | .error e => .pure (.error (mapPgErr e))
  | delete key ownership expected =>
      .call (.delete ownership.tenant.asStr ownership.userColumn key.asStr
        (asI32 expected)) fun r => match r with
      | .ok (some _) => .pure (.ok .deleted)
      | .ok none => check key ownership
      | .error e => .pure (.error (mapPgErr e))

/-- The rest of a write whose decision may be a refusal. -/
def progOf (base : Anchor) : Except SettingsError Plan → Prog Stmt Stmt.Ret Result
  | .ok plan => plan.prog base
  | .error e => .pure (.error e)

end Plan

/-- **The decision of a write**, from the settings read. -/
def Write.decide : Write → List Setting → Except SettingsError Plan
  | .put key value authority expected now, rows =>
      match rows.find? fun s => s.ownership == authority.scopeOwnership with
      | some cur => do
          let expected ← okOr expected .versionConflict
          if expected ≠ cur.version then .error .versionConflict
          else do
            let next ← cur.setValue value now
            return .update next expected
      | none => do
          let setting ← Setting.new key value authority.scopeOwnership now
          return .insert setting
  | .patch _ value authority expected now, rows =>
      if rows.isEmpty then .error .notFound
      else do
        let cur ← okOr (rows.find? fun s => s.ownership == authority.scopeOwnership) .forbidden
        if expected ≠ cur.version then .error .versionConflict
        else do
          let next ← cur.applyPartial value now
          return .update next expected
  | .delete key authority expected, rows =>
      if rows.isEmpty then .error .notFound
      else do
        let cur ← okOr (rows.find? fun s => s.ownership == authority.scopeOwnership) .forbidden
        if expected ≠ cur.version then .error .versionConflict
        else return .delete key cur.ownership expected

/-! ### A write as one read, one decision and one statement -/

/-- A computation whose reply is made by `g` is what a decision says: refuse, or run one
statement. -/
def Realises {α : Type} (base : Anchor) (g : α → Reply) (x : Db α)
    (d : Except SettingsError Plan) : Prop := (g <$> x).run = Plan.progOf base d

namespace Realises

variable {α β : Type} {base : Anchor} {g : α → Reply}

theorem throw (e : SettingsError) : Realises base g (throw e) (.error e) := rfl

theorem lift_bind {x : Except SettingsError β} {f : β → Db α} {d : β → Except SettingsError Plan}
    (h : ∀ b, Realises base g (f b) (d b)) : Realises base g (lift x >>= f) (x >>= d) := by
  cases x with
  | error e => rfl
  | ok b => exact h b

theorem ite {p : Prop} [Decidable p] {x y : Db α} {d e : Except SettingsError Plan}
    (hx : p → Realises base g x d) (hy : ¬ p → Realises base g y e) :
    Realises base g (if p then x else y) (if p then d else e) := by
  by_cases hp : p
  · rw [if_pos hp, if_pos hp]
    exact hx hp
  · rw [if_neg hp, if_neg hp]
    exact hy hp

theorem run_map_lift (g : α → β) (x : Except SettingsError α) :
    (g <$> lift x).run = .pure (x.map g) := by
  cases x <;> rfl

theorem run_check (g : α → Reply) (key : SettingKey) (ownership : Ownership) :
    (g <$> (do
      if ← Repo.existsRow key ownership then MonadExcept.throw .versionConflict
      else MonadExcept.throw .notFound : Db α)).run = Plan.check key ownership := by
  refine congrArg (Prog.call _) (funext fun r => ?_)
  rcases r with e | row
  · rfl
  · change (g <$> (if decide ((0 : ℤ) < row) = true then MonadExcept.throw .versionConflict
      else MonadExcept.throw .notFound : Db α)).run = _
    simp only [decide_eq_true_eq]
    split_ifs <;> rfl

theorem insert (s : Setting) :
    Realises base Reply.setting (Repo.insert base s) (.ok (.insert s)) := by
  refine congrArg (Prog.call _) (funext fun r => ?_)
  rcases r with e | (_ | r)
  · rfl
  · rfl
  · simp only [ExceptT.bindCont, Function.comp_apply, Except.mapError, Prog.bind]
    -- the row is decoded to anything: unfolding the decoding here would take long
    generalize r.intoDomain base = x
    exact run_map_lift Reply.setting x

theorem update (next : Setting) (expected : ℕ) :
    Realises base Reply.setting (Repo.update base next expected) (.ok (.update next expected)) := by
  refine congrArg (Prog.call _) (funext fun r => ?_)
  rcases r with e | (_ | r)
  · rfl
  · exact run_check _ _ _
  · simp only [ExceptT.bindCont, Function.comp_apply, Except.mapError, Prog.bind]
    -- the row is decoded to anything: unfolding the decoding here would take long
    generalize r.intoDomain base = x
    exact run_map_lift Reply.setting x

theorem delete (key : SettingKey) (ownership : Ownership) (expected : ℕ) :
    Realises base (fun _ => Reply.deleted) (Repo.delete key ownership expected)
      (.ok (.delete key ownership expected)) := by
  refine congrArg (Prog.call _) (funext fun r => ?_)
  rcases r with e | (_ | r)
  · rfl
  · exact run_check _ _ _
  · rfl

/-- `find`, and a computation that is a decision on what it returns. -/
theorem run_find_bind {key : SettingKey} {tenant : Tenant} {f : List Setting → Db α}
    {d : List Setting → Except SettingsError Plan} (h : ∀ rows, Realises base g (f rows) (d rows)) :
    (g <$> (Repo.find base key tenant >>= f)).run =
      .call (.find tenant.asStr key.asStr) fun r =>
        Plan.progOf base (Repo.decodeRows base tenant.asStr key.asStr r >>= d) := by
  refine congrArg (Prog.call _) (funext fun r => ?_)
  rcases r with e | rows
  · rfl
  · exact lift_bind h

end Realises

/-- **A write is one read, one decision and at most one statement.** -/
theorem Write.prog_eq (base : Anchor) (w : Write) :
    w.prog base = .call (.find w.authority.tenant.asStr w.key.asStr) fun r => Plan.progOf base
      (Repo.decodeRows base w.authority.tenant.asStr w.key.asStr r >>= w.decide) := by
  cases w with
  | put key value authority expected now =>
      refine Realises.run_find_bind fun rows => ?_
      rw [decide]
      cases rows.find? fun s => s.ownership == authority.scopeOwnership with
      | none => exact .lift_bind fun _ => .insert _
      | some cur =>
          exact .lift_bind fun e => .ite (fun _ => .throw _) fun _ => .lift_bind fun _ =>
            .update _ _
  | patch key value authority expected now =>
      refine Realises.run_find_bind fun rows => ?_
      exact .ite (fun _ => .throw _) fun _ => .lift_bind fun _ =>
        .ite (fun _ => .throw _) fun _ => .lift_bind fun _ => .update _ _
  | delete key authority expected =>
      refine Realises.run_find_bind fun rows => ?_
      exact .ite (fun _ => .throw _) fun _ => .lift_bind fun _ =>
        .ite (fun _ => .throw _) fun _ => .delete _ _ _

/-! ### What a decision says about the rows read -/

namespace Write

/-- The setting among the rows read that a write is about. -/
def own (w : Write) (rows : List Setting) : Option Setting :=
  rows.find? fun s => s.ownership == w.target

/-- The setting a write creates. -/
def Creates : Write → Setting → Prop
  | .put key value authority _ now, s => Setting.new key value authority.scopeOwnership now = .ok s
  | .patch .., _ => False
  | .delete .., _ => False

/-- The setting a write makes of the current one. -/
def Revises : Write → Setting → Setting → Prop
  | .put _ value _ _ now, cur, next => cur.setValue value now = .ok next
  | .patch _ value _ _ now, cur, next => cur.applyPartial value now = .ok next
  | .delete .., _, _ => False

/-- Is the write a `DELETE`? -/
def Deletes : Write → Prop
  | .put .. => False
  | .patch .. => False
  | .delete .. => True

/-- The decisions of a write. -/
inductive Decides (w : Write) (rows : List Setting) : Plan → Prop
  | insert {s : Setting} (hown : w.own rows = none) (hs : w.Creates s) : Decides w rows (.insert s)
  | update {cur next : Setting} (hown : w.own rows = some cur)
      (he : w.expected = some cur.version) (hnext : w.Revises cur next) :
      Decides w rows (.update next cur.version)
  | delete {cur : Setting} (hown : w.own rows = some cur) (he : w.expected = some cur.version)
      (hw : w.Deletes) : Decides w rows (.delete w.key cur.ownership cur.version)

theorem isEmpty_eq_false_of_own {w : Write} {rows : List Setting} {cur : Setting}
    (h : w.own rows = some cur) : rows.isEmpty = false := by
  cases rows with
  | nil => simp [own] at h
  | cons s rows => rfl

/-- Without a current setting a write can only create one. -/
theorem decide_of_own_eq_none {w : Write} {rows : List Setting} {plan : Plan}
    (hown : w.own rows = none) :
    w.decide rows = .ok plan ↔ ∃ s, w.Creates s ∧ plan = .insert s := by
  rw [own] at hown
  cases w with
  | put key value authority expected now =>
      change (rows.find? fun s => s.ownership == authority.scopeOwnership) = none at hown
      simp only [decide, hown, Creates, Setting.new, bind, Except.bind, pure, Except.pure,
        Except.ok.injEq]
      constructor
      · rintro rfl
        exact ⟨_, rfl, rfl⟩
      · rintro ⟨s, rfl, rfl⟩
        rfl
  | patch key value authority e now =>
      change (rows.find? fun s => s.ownership == authority.scopeOwnership) = none at hown
      simp only [decide, hown, okOr, Creates, bind, Except.bind, false_and, exists_false, iff_false]
      split_ifs <;> simp
  | delete key authority e =>
      change (rows.find? fun s => s.ownership == authority.scopeOwnership) = none at hown
      simp only [decide, hown, okOr, Creates, bind, Except.bind, false_and, exists_false, iff_false]
      split_ifs <;> simp

/-- A write revises or deletes the current setting, if it presents its version. -/
theorem decide_of_own_eq_some {w : Write} {rows : List Setting} {plan : Plan} {cur : Setting}
    (hown : w.own rows = some cur) : w.decide rows = .ok plan ↔ w.expected = some cur.version ∧
      ((∃ next, w.Revises cur next ∧ plan = .update next cur.version) ∨
        w.Deletes ∧ plan = .delete w.key cur.ownership cur.version) := by
  have hrows := isEmpty_eq_false_of_own hown
  rw [own] at hown
  cases w with
  | put key value authority expected now =>
      change (rows.find? fun s => s.ownership == authority.scopeOwnership) = some cur at hown
      rcases expected with _ | e
      · simp [decide, hown, okOr, Write.expected, bind, Except.bind]
      · by_cases he : e = cur.version
        · subst he
          simp [decide, hown, okOr, Write.expected, Revises, Deletes, Setting.setValue, bind,
            Except.bind, pure, Except.pure, eq_comm]
        · simp [decide, hown, okOr, he, Write.expected, bind, Except.bind]
  | patch key value authority e now =>
      change (rows.find? fun s => s.ownership == authority.scopeOwnership) = some cur at hown
      by_cases he : e = cur.version
      · subst he
        cases hnext : cur.applyPartial value now with
        | error e => simp [decide, hrows, hown, okOr, hnext, Revises, Deletes, bind, Except.bind]
        | ok next =>
            simp [decide, hrows, hown, okOr, hnext, Write.expected, Revises, Deletes, bind,
              Except.bind, pure, Except.pure, eq_comm]
      · simp [decide, hrows, hown, okOr, he, Write.expected, bind, Except.bind]
  | delete key authority e =>
      change (rows.find? fun s => s.ownership == authority.scopeOwnership) = some cur at hown
      by_cases he : e = cur.version
      · subst he
        simp [decide, hrows, hown, okOr, Write.key, Write.expected, Revises, Deletes, bind,
          Except.bind, pure, Except.pure, eq_comm]
      · simp [decide, hrows, hown, okOr, he, Write.expected, bind, Except.bind]

/-- **What a write decides, and when.** -/
theorem decide_eq_ok_iff {w : Write} {rows : List Setting} {plan : Plan} :
    w.decide rows = .ok plan ↔ w.Decides rows plan := by
  cases hown : w.own rows with
  | none =>
      rw [decide_of_own_eq_none hown]
      constructor
      · rintro ⟨s, hs, rfl⟩
        exact .insert hown hs
      · intro h
        cases h with
        | insert _ hs => exact ⟨_, hs, rfl⟩
        | update hcur _ _ => exact absurd (hown.symm.trans hcur) (by simp)
        | delete hcur _ _ => exact absurd (hown.symm.trans hcur) (by simp)
  | some cur =>
      rw [decide_of_own_eq_some hown]
      constructor
      · rintro ⟨he, ⟨next, hnext, rfl⟩ | ⟨hw, rfl⟩⟩
        · exact .update hown he hnext
        · exact .delete hown he hw
      · intro h
        cases h with
        | insert hnone _ => exact absurd (hown.symm.trans hnone) (by simp)
        | update hcur he hnext =>
            obtain rfl := Option.some.inj (hown.symm.trans hcur)
            exact ⟨he, .inl ⟨_, hnext, rfl⟩⟩
        | delete hcur he hw =>
            obtain rfl := Option.some.inj (hown.symm.trans hcur)
            exact ⟨he, .inr ⟨hw, rfl⟩⟩

/-- **After its read** a write is refused, or it has decided on a plan. -/
theorem after_read (base : Anchor) (w : Write) {motive : Prog Stmt Stmt.Ret Result → Prop}
    {found : Except SettingsError (List Setting)}
    (hrefused : ∀ e, found >>= w.decide = .error e → motive (.pure (.error e)))
    (hplanned : ∀ rows plan, found = .ok rows → w.Decides rows plan → motive (plan.prog base)) :
    motive (Plan.progOf base (found >>= w.decide)) := by
  cases found with
  | error e => exact hrefused e rfl
  | ok rows =>
      have hbind : (Except.ok rows >>= w.decide) = w.decide rows := rfl
      rw [hbind] at hrefused ⊢
      cases hdecide : w.decide rows with
      | error e => exact hrefused e hdecide
      | ok plan => exact hplanned rows plan rfl (decide_eq_ok_iff.1 hdecide)

/-- The setting a write decides to insert. -/
theorem Creates.eq {w : Write} {s : Setting} (h : w.Creates s) :
    s.key = w.key ∧ s.ownership = w.target := by
  cases w with
  | put key value authority expected now =>
      obtain rfl := Except.ok.inj h
      exact ⟨rfl, rfl⟩
  | patch key value authority e now => exact h.elim
  | delete key authority e => exact h.elim

/-- The setting a write decides to store in place of the current one. -/
theorem Revises.eq {w : Write} {cur next : Setting} (h : w.Revises cur next) :
    next.key = cur.key ∧ next.ownership = cur.ownership := by
  cases w with
  | put key value authority expected now =>
      obtain rfl := Except.ok.inj h
      exact ⟨rfl, rfl⟩
  | patch key value authority e now =>
      obtain ⟨v, -, rfl⟩ := Setting.applyPartial_eq_ok_iff.1 h
      exact ⟨rfl, rfl⟩
  | delete key authority e => exact h.elim

end Write

namespace Write

variable {pg : Postgres} {base : Anchor} {T : Table} {w : Write} {settings : List Setting}

/-- **The setting a write is about is the row of its identity**, decoded. -/
theorem own_eq_some_iff (h : Repo.found base pg T w.key w.authority.tenant = .ok settings)
    {s : Setting} : w.own settings = some s ↔ w.target.Stored ∧ ∃ r value,
      T.row? w.identity = some r ∧ SettingValue.new r.value = .ok value ∧
        s = ⟨w.key, value, w.target, (max r.version 1).toNat,
          millisToInstant base r.updatedAt⟩ := by
  rw [← tenant_target] at h
  rw [own, Repo.find?_found h]
  refine and_congr_right fun ho => exists_congr fun r => ?_
  rw [exists_and_left]
  refine and_congr_right fun hr => ?_
  obtain ⟨hmem, hid⟩ := Table.row?_eq_some_iff.1 hr
  have hkey : r.key = w.key.asStr := (Repo.under_of_identity hid).2
  rw [SettingRecord.intoDomain_eq_ok_iff,
    (SettingRecord.ownership_eq_iff hkey).2 ⟨ho, hid⟩, hkey, SettingKey.new_asStr]
  simp

/-- The version of the setting a write is about is positive and fits the column. -/
theorem version_own (h : Repo.found base pg T w.key w.authority.tenant = .ok settings)
    {s : Setting} (hs : w.own settings = some s) :
    1 ≤ s.version ∧ asI32 s.version = s.version := by
  obtain ⟨-, r, value, hr, -, rfl⟩ := (own_eq_some_iff h).1 hs
  have := T.range r (Table.row?_eq_some_iff.1 hr).1
  rw [i32Max] at this
  refine ⟨by simp only; omega, asI32_of_le ?_⟩
  simp only [i32Max]
  omega

/-- The statement of an insertion addresses the row of the write. -/
theorem Creates.stmt_eq {s : Setting} (hs : w.Creates s) : (Plan.insert s).stmt base =
    .insert w.target.tenant.asStr w.target.userColumn w.key.asStr s.value.value
      (instantToMillis base s.updatedAt) := by
  rw [Plan.stmt, hs.eq.1, hs.eq.2]

/-- The statement of an update addresses the row of the write, at the version that was read. -/
theorem Revises.stmt_eq (hfound : Repo.found base pg T w.key w.authority.tenant = .ok settings)
    {cur next : Setting} (hown : w.own settings = some cur) (hnext : w.Revises cur next) :
    (Plan.update next cur.version).stmt base =
      .update next.value.value (instantToMillis base next.updatedAt) w.target.tenant.asStr
        w.target.userColumn w.key.asStr cur.version := by
  obtain ⟨-, r, value, -, -, hcur⟩ := (own_eq_some_iff hfound).1 hown
  rw [Plan.stmt, hnext.eq.1, hnext.eq.2, (version_own hfound hown).2, hcur]

/-- The statement of a removal addresses the row of the write, at the version that was read. -/
theorem delete_stmt_eq (hfound : Repo.found base pg T w.key w.authority.tenant = .ok settings)
    {cur : Setting} (hown : w.own settings = some cur) :
    (Plan.delete w.key cur.ownership cur.version).stmt base =
      .delete w.target.tenant.asStr w.target.userColumn w.key.asStr cur.version := by
  obtain ⟨-, r, value, -, -, hcur⟩ := (own_eq_some_iff hfound).1 hown
  rw [Plan.stmt, (version_own hfound hown).2, hcur]

end Write

/-! ### Statements that take effect -/

/-- A change is one the write may make of a table: it is about the identity of the write; a
replacement or removal finds the row at the version the caller presents; a creation is that of a
`PUT` and finds no row. -/
structure Write.Makes (w : Write) (T : Table) (c : Change Identity SettingRecord) : Prop where
  key_eq : c.key = w.identity
  found : ∀ n, c.presents = some n → ∃ (m : ℕ) (r : SettingRecord), w.expected = some m ∧ n = m ∧
    1 ≤ m ∧ T.row? w.identity = some r ∧ r.version = m
  created : c.presents = none → T.row? w.identity = none ∧ ∃ s, w.Creates s

/-- **The statement of a decision makes such a change**, whenever it runs. -/
theorem Write.Decides.makes {pg : Postgres} {base : Anchor} {w : Write} {T₁ T : Table}
    {settings : List Setting} {plan : Plan}
    (hfound : Repo.found base pg T₁ w.key w.authority.tenant = .ok settings)
    (hplan : w.Decides settings plan) {c : Change Identity SettingRecord}
    (hc : (plan.stmt base).change (pg.exec (plan.stmt base) T).1 = some c) : w.Makes T c := by
  cases hplan with
  | @insert s hown hs =>
      rw [hs.stmt_eq] at hc
      obtain ⟨-, hr, rfl⟩ := change_insert_iff.1 hc
      exact ⟨rfl, by simp [Change.presents], fun _ => ⟨hr, s, hs⟩⟩
  | @update cur next hown he hnext =>
      rw [hnext.stmt_eq hfound hown] at hc
      obtain ⟨-, -, r, hr, hv, rfl⟩ := change_update_iff.1 hc
      refine ⟨rfl, fun n hn => ⟨cur.version, r, he, (Option.some.inj hn).symm, ?_, hr, hv⟩,
        by simp [Change.presents]⟩
      exact (Write.version_own hfound hown).1
  | @delete cur hown he hw =>
      rw [Write.delete_stmt_eq hfound hown] at hc
      obtain ⟨-, r, hr, hv, rfl⟩ := change_delete_iff.1 hc
      refine ⟨rfl, fun n hn => ⟨cur.version, r, he, (Option.some.inj hn).symm, ?_, hr, hv⟩,
        by simp [Change.presents]⟩
      exact (Write.version_own hfound hown).1

/-- The result of the write whose statement made this change. -/
def resultOf (base : Anchor) : Change Identity SettingRecord → Result
  | .create _ r => (r.intoDomain base).map .setting
  | .replace _ _ r => (r.intoDomain base).map .setting
  | .remove _ _ => .ok .deleted

/-- The row a change writes decodes. -/
def Readable (base : Anchor) (c : Change Identity SettingRecord) : Prop :=
  ∀ r, c.content = some r → ∃ s, r.intoDomain base = .ok s

/-- The write whose statement made a readable change succeeds. -/
theorem Readable.resultOf {base : Anchor} {c : Change Identity SettingRecord}
    (h : Readable base c) : ∃ a, resultOf base c = .ok a := by
  cases c with
  | create id r =>
      obtain ⟨s, hs⟩ := h r rfl
      exact ⟨.setting s, by rw [SettingsService.resultOf, hs]; rfl⟩
  | replace id n r =>
      obtain ⟨s, hs⟩ := h r rfl
      exact ⟨.setting s, by rw [SettingsService.resultOf, hs]; rfl⟩
  | remove id n => exact ⟨.deleted, rfl⟩

/-- The setting a write returns is the row its change wrote. -/
theorem content_of_resultOf {base : Anchor} {c : Change Identity SettingRecord} {s : Setting}
    (h : resultOf base c = .ok (.setting s)) :
    ∃ r, c.content = some r ∧ r.intoDomain base = .ok s := by
  have hdec : ∀ r : SettingRecord, (r.intoDomain base).map Reply.setting = .ok (.setting s) →
      r.intoDomain base = .ok s := by
    intro r hr
    cases hs : r.intoDomain base with
    | error e => simp [hs, Except.map] at hr
    | ok s' => simpa [hs, Except.map] using hr
  cases c with
  | create id r => exact ⟨r, rfl, hdec r h⟩
  | replace id n r => exact ⟨r, rfl, hdec r h⟩
  | remove id n => simp [resultOf] at h

namespace Plan

variable (base : Anchor)

/-- What is left of a write once its statement has been answered, by the result of the change that
made. -/
inductive Rest : Option Result → Prog Stmt Stmt.Ret Result → Prop
  | effective (x : Result) : Rest (some x) (.pure x)
  | failed (e : SettingsError) : Rest none (.pure (.error e))
  | check (key : SettingKey) (ownership : Ownership) : Rest none (check key ownership)

/-- After a change, the write is done with its result. -/
theorem Rest.of_some {x : Result} {p : Prog Stmt Stmt.Ret Result} (h : Rest (some x) p) :
    p = .pure x := by
  cases h with
  | effective x => rfl

/-- With no change, the write has failed or looks for the row once more. -/
theorem Rest.of_none {p : Prog Stmt Stmt.Ret Result} (h : Rest none p) :
    (∃ e, p = .pure (.error e)) ∨ ∃ key ownership, p = Plan.check key ownership := by
  cases h with
  | failed e => exact .inl ⟨e, rfl⟩
  | check key ownership => exact .inr ⟨key, ownership, rfl⟩

/-- **A plan runs its statement**; if that took effect the write is done. -/
theorem exists_prog_eq (plan : Plan) : ∃ k, plan.prog base = .call (plan.stmt base) k ∧
    ∀ r, Rest (((plan.stmt base).change r).map (resultOf base)) (k r) := by
  cases plan with
  | insert s =>
      refine ⟨_, rfl, fun r => ?_⟩
      rcases r with e | (_ | r)
      · exact .failed _
      · exact .failed _
      · exact .effective _
  | update next expected =>
      refine ⟨_, rfl, fun r => ?_⟩
      rcases r with e | (_ | r)
      · exact .failed _
      · exact .check _ _
      · exact .effective _
  | delete key ownership expected =>
      refine ⟨_, rfl, fun r => ?_⟩
      rcases r with e | (_ | r)
      · exact .failed _
      · exact .check _ _
      · exact .effective _

end Plan

/-! ### Requests running alone -/

/-- A write running alone on a table. -/
def Write.alone (pg : Postgres) (base : Anchor) (w : Write) (T : Table) : Result × Table :=
  Prog.run pg.exec (w.prog base) T

/-- A request running alone on a table. -/
def Request.alone (pg : Postgres) (base : Anchor) (q : Request) (T : Table) : Result × Table :=
  Prog.run pg.exec (q.prog base) T

section Alone

variable {pg : Postgres} {base : Anchor}

/-- Reading changes nothing. -/
theorem Postgres.exec_find_snd (tenant key : String) (T : Table) :
    (pg.exec (.find tenant key) T).2 = T := exec_of_no_change rfl

theorem Postgres.exec_count_snd (tenant key : String) (user : Option String) (T : Table) :
    (pg.exec (.count tenant user key) T).2 = T := exec_of_no_change rfl

/-- A write alone: what it decides on the settings found, then its statement. -/
theorem Write.alone_eq (w : Write) (T : Table) :
    w.alone pg base T = Prog.run pg.exec (Plan.progOf base
      (Repo.found base pg T w.key w.authority.tenant >>= w.decide)) T := by
  rw [alone, prog_eq, Prog.run_call, Postgres.exec_find_snd]
  rfl

/-- **A plan alone**: either its statement takes effect and the write is done, or the result is an
error and nothing changes. -/
theorem Plan.run_prog (plan : Plan) (T : Table) :
    (∃ c, (plan.stmt base).change (pg.exec (plan.stmt base) T).1 = some c ∧
      Prog.run pg.exec (plan.prog base) T = (resultOf base c, (pg.exec (plan.stmt base) T).2)) ∨
    ((plan.stmt base).change (pg.exec (plan.stmt base) T).1 = none ∧
      ∃ e, Prog.run pg.exec (plan.prog base) T = (.error e, T)) := by
  obtain ⟨k, hk, hrest⟩ := plan.exists_prog_eq base
  rw [hk, Prog.run_call]
  have h := hrest (pg.exec (plan.stmt base) T).1
  cases hc : (plan.stmt base).change (pg.exec (plan.stmt base) T).1 with
  | none =>
      rw [hc] at h
      refine .inr ⟨rfl, ?_⟩
      rw [Postgres.exec_of_no_change hc]
      obtain ⟨e, he⟩ | ⟨key, ownership, hcheck⟩ := h.of_none
      · exact ⟨e, by rw [he]; rfl⟩
      · rw [hcheck, check, Prog.run_call, Postgres.exec_count_snd]
        exact ⟨_, rfl⟩
  | some c =>
      rw [hc] at h
      exact .inl ⟨c, rfl, by rw [h.of_some]; rfl⟩

/-- A write alone on a table on which it decides on a statement that takes effect. -/
theorem Write.alone_of_decides {w : Write} {T : Table} {settings : List Setting} {plan : Plan}
    (hfound : Repo.found base pg T w.key w.authority.tenant = .ok settings)
    (hplan : w.Decides settings plan) {c : Change Identity SettingRecord}
    (hc : (plan.stmt base).change (pg.exec (plan.stmt base) T).1 = some c) :
    w.alone pg base T = (resultOf base c, (pg.exec (plan.stmt base) T).2) := by
  rw [alone_eq, hfound]
  change Prog.run pg.exec (Plan.progOf base (w.decide settings)) T = _
  rw [decide_eq_ok_iff.2 hplan]
  rcases plan.run_prog T with ⟨c', hc', hrun⟩ | ⟨hc', -⟩
  · rw [hc, Option.some.injEq] at hc'
    rw [hc']
    exact hrun
  · rw [hc] at hc'
    exact absurd hc' (by simp)

end Alone

end SettingsService
