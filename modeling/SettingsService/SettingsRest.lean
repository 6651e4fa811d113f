import SettingsService.Http
import SettingsService.Runs

/-!
# The handlers of the settings slice

`get_setting`, `put_setting`, `patch_setting` and `delete_setting` over the service: the key of the
path and the value of the body are validated, the version of the `If-Match` header is parsed, the
service is called, and a setting is returned with its version as `ETag`.  The text of a time is a
parameter.

Main definitions:

* `ifMatch`, `etagResponse` — the version of the `If-Match` header, and the response of a setting;
* `Handler` — a program that may fail with an `ApiError`;
* `getSetting`, `putSetting`, `patchSetting`, `deleteSetting` — the handlers;
* `HonoursIfMatch` — what a `PUT` that carries an `If-Match` header is to do.

Main results:

* `putResponse_eq` — a `PUT` with a valid key and value is a write of the service;
* `honoursIfMatch_iff` — **a `PUT` honours its precondition exactly when its `INSERT` does not take
  effect**;
* `not_honoursIfMatch` — an absent row, created under a precondition.
-/

set_option relaxedAutoImplicit false
set_option autoImplicit false

namespace SettingsService

open Interaction (Prog)
open OptimisticLock (Change)

/-! ### Requests and responses -/

/-- `OwnerResponse`. -/
structure OwnerResponse where
  tenant : String
  user : Option String
  scope : String

/-- `SettingResponse`. -/
structure SettingResponse where
  key : String
  value : Value
  owner : OwnerResponse
  version : ℕ
  updatedAt : String

/-- `if_match`. -/
def ifMatch (headers : HeaderMap) : Option ℕ := do
  let v ← headers.get "if-match"
  let s ← toStr v
  parseU64 (trimMatches '"' (trim s))

section Handlers

variable (base : Anchor) (rfc3339 : ℤ → String)

/-- `instant_updated_at`. -/
def instantUpdatedAt (i : Instant) : String := rfc3339 (instantToMillis base i)

/-- `From<SettingSnapshot>`. -/
def SettingResponse.ofSetting (s : Setting) : SettingResponse where
  key := s.key.asStr
  value := s.value.value
  owner := ⟨s.ownership.tenant.asStr, s.ownership.userColumn,
    if s.ownership.isTenantScoped then "tenant" else "user"⟩
  version := s.version
  updatedAt := instantUpdatedAt base rfc3339 s.updatedAt

/-- A setting as it is serialized. -/
def SettingResponse.json (r : SettingResponse) : Json :=
  .object [("key", .string r.key), ("value", r.value.json),
    ("owner", .object [("tenant", .string r.owner.tenant),
      ("user", match r.owner.user with
        | some u => .string u
        | none => .null),
      ("scope", .string r.owner.scope)]),
    ("version", .number (.posInt (UInt64.ofNat r.version))), ("updated_at", .string r.updatedAt)]

/-- `etag_response`. -/
def etagResponse (s : Setting) : Response where
  status := 200
  headers := [("etag", "\"" ++ s.version.repr ++ "\""), ("content-type", "application/json")]
  body := (SettingResponse.ofSetting base rfc3339 s).json.print

/-! ### Handlers -/

/-- A program that may fail with an `ApiError`. -/
abbrev Handler (α : Type) : Type := ExceptT ApiError (Prog Stmt Stmt.Ret) α

/-- `map_err(ApiError::from)?` on a value. -/
def check {α : Type} (x : Except SettingsError α) : Handler α :=
  ExceptT.mk (.pure (x.mapError ApiError.ofSettings))

/-- `map_err(ApiError::from)?` on a call of the service. -/
def service {α : Type} (x : Db α) : Handler α :=
  ExceptT.mk ((fun r => r.mapError ApiError.ofSettings) <$> x.run)

/-- The version a `PATCH` or `DELETE` requires. -/
def requireIfMatch (headers : HeaderMap) : Handler ℕ :=
  match ifMatch headers with
  | some expected => return expected
  | none => throw (.act "settings:version_conflict" 409 "If-Match required")

/-- `get_setting`. -/
def getSetting (key : String) (auth : Authority) : Handler Response := do
  let key ← check (SettingKey.new key)
  let setting ← service (Service.get base key auth)
  return etagResponse base rfc3339 setting

/-- `put_setting`. -/
def putSetting (key : String) (headers : HeaderMap) (body : Value) (auth : Authority)
    (now : Instant) : Handler Response := do
  let key ← check (SettingKey.new key)
  let value ← check (SettingValue.new body)
  let expected := ifMatch headers
  let setting ← service (Service.put base key value auth expected now)
  return etagResponse base rfc3339 setting

/-- `patch_setting`. -/
def patchSetting (key : String) (headers : HeaderMap) (body : Value) (auth : Authority)
    (now : Instant) : Handler Response := do
  let key ← check (SettingKey.new key)
  let value ← check (SettingValue.new body)
  let expected ← requireIfMatch headers
  let setting ← service (Service.patch base key value auth expected now)
  return etagResponse base rfc3339 setting

/-- `delete_setting`. -/
def deleteSetting (key : String) (headers : HeaderMap) (auth : Authority) : Handler Response := do
  let key ← check (SettingKey.new key)
  let expected ← requireIfMatch headers
  service (Service.delete base key auth expected)
  return ⟨204, [], ""⟩

end Handlers

/-! ### Handlers as requests of the service -/

variable {pg : Postgres} {base : Anchor} {rfc3339 : ℤ → String}

/-- A call of the service and a response made of what it returns. -/
theorem run_service_bind {α β : Type} (x : Db α) (f : α → β) (T : Table) :
    Prog.run pg.exec (service x >>= fun a => (pure (f a) : Handler β)).run T =
      (((Prog.run pg.exec x.run T).1.mapError ApiError.ofSettings).map f,
        (Prog.run pg.exec x.run T).2) := by
  have h : (service x >>= fun a => (pure (f a) : Handler β)).run =
      (x.run >>= fun r => Prog.pure (r.mapError ApiError.ofSettings)) >>=
        ExceptT.bindCont fun a => (pure (f a) : Handler β) := rfl
  rw [h, Prog.run_bind, Prog.run_bind, Prog.run_pure]
  cases (Prog.run pg.exec x.run T).1 <;> rfl

/-- The result of a program whose reply is made of what another returns. -/
theorem run_map {α : Type} (f : α → Reply) (x : Db α) (T : Table) :
    Prog.run pg.exec (f <$> x).run T =
      ((Prog.run pg.exec x.run T).1.map f, (Prog.run pg.exec x.run T).2) := by
  have h : (f <$> x).run = x.run >>= fun r => match r with
      | .ok a => Prog.pure (.ok (f a))
      | .error e => Prog.pure (.error e) := by
    change x.run >>= _ = _
    refine congrArg (x.run >>= ·) (funext fun r => ?_)
    cases r <;> rfl
  rw [h, Prog.run_bind]
  cases (Prog.run pg.exec x.run T).1 <;> rfl

/-- The response of a result whose reply is a setting. -/
def settingResponse (base : Anchor) (rfc3339 : ℤ → String) : Result → Response
  | .ok (.setting s) => etagResponse base rfc3339 s
  | .ok _ => (ApiError.bug "").intoResponse
  | .error e => (ApiError.ofSettings e).intoResponse

/-- `put_setting` alone: the response, and the table it leaves. -/
def putResponse (pg : Postgres) (base : Anchor) (rfc3339 : ℤ → String) (T : Table) (key : String)
    (headers : HeaderMap) (body : Value) (auth : Authority) (now : Instant) : Response × Table :=
  let res := Prog.run pg.exec (putSetting base rfc3339 key headers body auth now).run T
  (respond res.1, res.2)

section Put

variable {T : Table} {keyText : String} {headers : HeaderMap} {body : Value} {auth : Authority}
  {now : Instant}

/-- **A `PUT` with a valid key and value is a write of the service.** -/
theorem putResponse_eq {key : SettingKey} {value : SettingValue}
    (hkey : SettingKey.new keyText = .ok key) (hvalue : SettingValue.new body = .ok value) :
    putResponse pg base rfc3339 T keyText headers body auth now =
      (settingResponse base rfc3339
        ((Write.put key value auth (ifMatch headers) now).alone pg base T).1,
        ((Write.put key value auth (ifMatch headers) now).alone pg base T).2) := by
  have h : (putSetting base rfc3339 keyText headers body auth now).run =
      (service (Service.put base key value auth (ifMatch headers) now) >>= fun s =>
        (pure (etagResponse base rfc3339 s) : Handler Response)).run := by
    rw [putSetting, hkey, hvalue]
    rfl
  rw [putResponse, h, run_service_bind, Write.alone, Write.prog, run_map]
  cases (Prog.run pg.exec (Service.put base key value auth (ifMatch headers) now).run T).1 <;> rfl

/-- A `PUT` with an invalid key or value is refused. -/
theorem putResponse_of_invalid (h : (∃ e, SettingKey.new keyText = .error e) ∨
      ∃ e, SettingValue.new body = .error e) :
    ∃ e, putResponse pg base rfc3339 T keyText headers body auth now =
      ((ApiError.ofSettings e).intoResponse, T) := by
  rw [putResponse, putSetting]
  cases hkey : SettingKey.new keyText with
  | error e => exact ⟨e, rfl⟩
  | ok key =>
      obtain ⟨e, he⟩ | ⟨e, he⟩ := h
      · rw [hkey] at he
        exact absurd he (by simp)
      · rw [he]
        exact ⟨e, rfl⟩

/-! ### Preconditions of a `PUT` -/

/-- The row a precondition names: the caller's row under the key, at the version the header
denotes. -/
def NamesRow (T : Table) (keyText : String) (headers : HeaderMap) (auth : Authority) (n : ℕ)
    (r : SettingRecord) : Prop :=
  ∃ key, SettingKey.new keyText = .ok key ∧ r ∈ T.rows ∧ r.key = key.asStr ∧
    r.ownership = auth.scopeOwnership ∧ ifMatch headers = some n ∧ r.version = n

/-- **What a `PUT` that carries an `If-Match` header is to do**: it succeeds only on the row the
header names, and returns the version after that; where the header names no row it is refused and
changes nothing. -/
def HonoursIfMatch (pg : Postgres) (base : Anchor) (rfc3339 : ℤ → String) (T : Table)
    (keyText : String) (headers : HeaderMap) (body : Value) (auth : Authority) (now : Instant) :
    Prop :=
  let res := putResponse pg base rfc3339 T keyText headers body auth now
  (headers.get "if-match").isSome = true →
    (res.1.status = 200 → ∃ n r s, NamesRow T keyText headers auth n r ∧
      res.1 = etagResponse base rfc3339 s ∧ s.version = n + 1) ∧
    ((¬ ∃ n r, NamesRow T keyText headers auth n r) → 400 ≤ res.1.status ∧ res.2 = T)

/-- The `INSERT` of a `PUT` is reached and takes effect: the key and the value are valid, the
settings under the key can be read, the caller has no row there, and Postgres accepts the
parameters. -/
def Creates (pg : Postgres) (base : Anchor) (T : Table) (keyText : String) (body : Value)
    (auth : Authority) (now : Instant) : Prop :=
  ∃ key value, SettingKey.new keyText = .ok key ∧ SettingValue.new body = .ok value ∧
    (∃ settings, Repo.found base pg T key auth.tenant = .ok settings) ∧
    T.row? (auth.scopeOwnership.identity key.asStr) = none ∧
    (Stmt.insert auth.tenant.asStr auth.scopeOwnership.userColumn key.asStr value.value
      (instantToMillis base now)).accepted = true

/-- The status of the response of an error. -/
theorem le_status_settingResponse (e : SettingsError) :
    400 ≤ (settingResponse base rfc3339 (.error e)).status := ApiError.status_ofSettings e

/-- An `INSERT` of a `PUT` that takes effect creates a row although the header names none. -/
theorem Creates.not_honours (h : Creates pg base T keyText body auth now)
    (hh : (headers.get "if-match").isSome = true) :
    ¬ HonoursIfMatch pg base rfc3339 T keyText headers body auth now := by
  obtain ⟨key, value, hkey, hvalue, ⟨settings, hfound⟩, hrow, hacc⟩ := h
  intro hhon
  obtain ⟨-, hrefused⟩ := hhon hh
  have hnone : ¬ ∃ n r, NamesRow T keyText headers auth n r := by
    rintro ⟨n, r, key', hkey', hr, hrk, ho, -⟩
    obtain rfl : key = key' := Except.ok.inj (hkey.symm.trans hkey')
    have := Table.row?_eq_some_iff.2 ⟨hr, ((SettingRecord.ownership_eq_iff hrk).1 ho).2⟩
    rw [hrow] at this
    exact absurd this (by simp)
  have hT := (hrefused hnone).2
  let w : Write := .put key value auth (ifMatch headers) now
  have hdec : w.Decides settings (.insert ⟨key, value, auth.scopeOwnership, 1, now⟩) := by
    refine .insert (Option.eq_none_iff_forall_ne_some.2 fun cur hcur => ?_) rfl
    obtain ⟨-, r, -, hr, -⟩ := (Write.own_eq_some_iff hfound).1 hcur
    exact absurd (hrow.symm.trans hr) (by simp)
  have hacc' : (Stmt.insert auth.scopeOwnership.tenant.asStr auth.scopeOwnership.userColumn
      key.asStr value.value (instantToMillis base now)).accepted = true := by
    rw [auth.tenant_scopeOwnership]
    exact hacc
  have hch := (@change_insert_iff pg _ _ _ _ _ _ _).2 ⟨hacc', hrow, rfl⟩
  rw [putResponse_eq hkey hvalue, Write.alone_of_decides (w := w) hfound hdec hch] at hT
  have hlen := congrArg (fun T : Table => T.rows.length) hT
  simp only [Plan.stmt, Postgres.rows_exec_insert hacc' hrow, List.length_append,
    List.length_singleton] at hlen
  omega

/-- A refusal that changes nothing honours every precondition. -/
theorem honours_of_refused {res : Response × Table} {p q : Prop} (hs : 400 ≤ res.1.status)
    (hT : res.2 = T) :
    (res.1.status = 200 → p) ∧ (q → 400 ≤ res.1.status ∧ res.2 = T) := by
  constructor
  · intro h200
    omega
  · intro _
    exact ⟨hs, hT⟩

/-- An `UPDATE` that takes effect rewrites the row the header names, to the version after that. -/
theorem namesRow_of_update {key : SettingKey} {value : SettingValue} {settings : List Setting}
    {cur : Setting} {v : Value} {t : ℤ} {c : Change Identity SettingRecord}
    (hkey : SettingKey.new keyText = .ok key)
    (hfound : Repo.found base pg T key auth.tenant = .ok settings)
    (hown : (Write.put key value auth (ifMatch headers) now).own settings = some cur)
    (he : ifMatch headers = some cur.version)
    (hc : (Stmt.update v t auth.scopeOwnership.tenant.asStr auth.scopeOwnership.userColumn
        key.asStr cur.version).change
      (pg.exec (.update v t auth.scopeOwnership.tenant.asStr auth.scopeOwnership.userColumn
        key.asStr cur.version) T).1 = some c) :
    ∃ r, NamesRow T keyText headers auth cur.version r ∧
      ((settingResponse base rfc3339 (resultOf base c)).status = 200 →
        ∃ s, settingResponse base rfc3339 (resultOf base c) = etagResponse base rfc3339 s ∧
          s.version = cur.version + 1) := by
  obtain ⟨-, -, r, hr, hv, rfl⟩ := change_update_iff.1 hc
  obtain ⟨hmem, hid⟩ := Table.row?_eq_some_iff.1 hr
  have hrk : r.key = key.asStr := (Repo.under_of_identity hid).2
  have ho : r.ownership = auth.scopeOwnership := (SettingRecord.ownership_eq_iff hrk).2
    ⟨((Write.own_eq_some_iff hfound).1 hown).1, hid⟩
  refine ⟨r, ⟨key, hkey, hmem, hrk, ho, he, hv⟩, fun h200 => ?_⟩
  cases hres : (r.rewrite (pg.jsonb v) t).intoDomain base with
  | error e =>
      simp only [resultOf, hres, Except.map] at h200
      have := @le_status_settingResponse base rfc3339 e
      omega
  | ok s =>
      refine ⟨s, by simp only [resultOf, hres, Except.map]; rfl, ?_⟩
      have hs := (version_of_intoDomain hres).1
      have hpos := (Write.version_own hfound hown).1
      rw [SettingRecord.rewrite, hv] at hs
      simp only at hs
      omega

/-- **A `PUT` honours its precondition exactly when its `INSERT` does not take effect.** -/
theorem honoursIfMatch_iff (pg : Postgres) (base : Anchor) (rfc3339 : ℤ → String) (T : Table)
    (keyText : String) (headers : HeaderMap) (body : Value) (auth : Authority) (now : Instant)
    (hh : (headers.get "if-match").isSome = true) :
    HonoursIfMatch pg base rfc3339 T keyText headers body auth now ↔
      ¬ Creates pg base T keyText body auth now := by
  constructor
  · intro hhon hcr
    exact hcr.not_honours hh hhon
  · intro hcr _
    by_cases hinvalid : (∃ e, SettingKey.new keyText = .error e) ∨
        ∃ e, SettingValue.new body = .error e
    · obtain ⟨e, he⟩ := @putResponse_of_invalid pg base rfc3339 T keyText headers body auth now
        hinvalid
      rw [he]
      exact honours_of_refused (ApiError.status_ofSettings e) rfl
    obtain ⟨key, hkey⟩ : ∃ key, SettingKey.new keyText = .ok key := by
      cases h : SettingKey.new keyText with
      | error e => exact absurd (.inl ⟨e, h⟩) hinvalid
      | ok key => exact ⟨key, rfl⟩
    obtain ⟨value, hvalue⟩ : ∃ value, SettingValue.new body = .ok value := by
      cases h : SettingValue.new body with
      | error e => exact absurd (.inr ⟨e, h⟩) hinvalid
      | ok value => exact ⟨value, rfl⟩
    rw [putResponse_eq hkey hvalue]
    obtain ⟨settings, plan, c, hfound, hplan, hc, -, halone⟩ | ⟨-, e, halone⟩ :=
      (Write.put key value auth (ifMatch headers) now).alone_cases pg base T
    · rw [halone]
      cases hplan with
      | @delete cur hown he hw => exact hw.elim
      | @insert s hown hs =>
          rw [hs.stmt_eq] at hc
          obtain ⟨hacc, hrow, -⟩ := change_insert_iff.1 hc
          obtain rfl := Except.ok.inj hs
          rw [Write.tenant_target] at hacc
          exact absurd ⟨key, value, hkey, hvalue, ⟨settings, hfound⟩, hrow, hacc⟩ hcr
      | @update cur next hown he hnext =>
          rw [hnext.stmt_eq hfound hown] at hc
          obtain ⟨r, hname, hok⟩ := namesRow_of_update hkey hfound hown he hc
          refine ⟨fun h200 => ?_, fun hno => absurd ⟨_, r, hname⟩ hno⟩
          obtain ⟨s, hs, hv⟩ := hok h200
          exact ⟨cur.version, r, s, hname, hs, hv⟩
    · rw [halone]
      exact honours_of_refused (ApiError.status_ofSettings e) rfl

end Put

open Sample in
/-- A `PUT` of version one, on a row that is there. -/
theorem honoursIfMatch_of_row :
    let T := (Write.alone (Postgres.ofJsonb id) ⟨0, 0⟩ (.put theme dark alice none 0) .empty).2
    HonoursIfMatch (Postgres.ofJsonb id) ⟨0, 0⟩ (fun _ => "") T "theme"
      [("if-match", "\"1\"".toList.map fun c => UInt8.ofNat c.toNat)] light.value alice 0 :=
  (honoursIfMatch_iff _ _ _ _ _ _ _ _ _ rfl).2 fun ⟨_, _, hkey, _, _, hrow, _⟩ => by
    obtain rfl := Except.ok.inj ((SettingKey.new_asStr theme).symm.trans hkey)
    exact absurd hrow (by decide +kernel)

open Sample in
/-- **A precondition is not always honoured**: the row is absent, the header denotes no version, or
denotes version seven, and the `PUT` creates the row. -/
theorem not_honoursIfMatch :
    (¬ HonoursIfMatch (Postgres.ofJsonb id) ⟨0, 0⟩ (fun _ => "") .empty "theme"
      [("if-match", "W/abc".toList.map fun c => UInt8.ofNat c.toNat)] dark.value alice 0) ∧
    ¬ HonoursIfMatch (Postgres.ofJsonb id) ⟨0, 0⟩ (fun _ => "") .empty "theme"
      [("if-match", "\"7\"".toList.map fun c => UInt8.ofNat c.toNat)] dark.value alice 0 := by
  have h : Creates (Postgres.ofJsonb id) ⟨0, 0⟩ .empty "theme" dark.value alice 0 :=
    ⟨theme, dark, SettingKey.new_asStr theme, SettingValue.new_value dark,
      Repo.exists_found_iff.2 ⟨by decide +kernel, by simp [Table.empty]⟩, rfl, by decide +kernel⟩
  exact ⟨h.not_honours rfl, h.not_honours rfl⟩

end SettingsService
