import SettingsService.Erasure
import SettingsService.Mediation
import SettingsService.Topics

/-!
# The service as it is deployed

`main` puts the notifying service behind the router: the handlers are generic in the settings
service, and call it through its port.  A handler over the notifying service, without the
notifications, is the handler over the plain one; so whatever requests are in flight, without the
notifications the deployed router is the router over the plain service.

Main definitions:

* `SettingsServicePort` — the port, with the handlers over it;
* `Service.port`, `NotifyingService.port` — its two implementations;
* `DeployedOp`, `Deployed.exec` — the calls of the deployed router and their meaning;
* `Deployed.handle` — the handling of a request.

Main results:

* `SettingsServicePort.putSetting_port` and its like — over the plain service the handlers are those
  of the router;
* `NotifyingService.erases_port` — the notifying service, without notifications, is the plain one;
* `Deployed.erases_handle` — so is the deployed router;
* `Deployed.exists_app_run` — **the deployed router does what the router does, and notifies**.
-/

set_option relaxedAutoImplicit false
set_option autoImplicit false

namespace SettingsService

open Interaction (Prog Proc Snapshot Event Reachable Answered calls keptBy)
open Interaction.Prog (Erases)

/-! ### The port of the settings service -/

/-- The primary port. -/
structure SettingsServicePort (Op : Type) (Ret : Op → Type) where
  get : SettingKey → Authority → ExceptT SettingsError (Prog Op Ret) Setting
  search : String → Authority → Pagination →
    ExceptT SettingsError (Prog Op Ret) (Option SearchPage)
  put : SettingKey → SettingValue → Authority → Option ℕ → Instant →
    ExceptT SettingsError (Prog Op Ret) Setting
  patch : SettingKey → SettingValue → Authority → ℕ → Instant →
    ExceptT SettingsError (Prog Op Ret) Setting
  delete : SettingKey → Authority → ℕ → ExceptT SettingsError (Prog Op Ret) Unit

/-- The service over the repository. -/
def Service.port (base : Anchor) : SettingsServicePort Stmt Stmt.Ret where
  get := Service.get base
  search := Service.search base
  put := Service.put base
  patch := Service.patch base
  delete := Service.delete base

/-- The decorator over that service. -/
def NotifyingService.port (service : String) (base : Anchor) :
    SettingsServicePort Call Call.Ret where
  get := NotifyingService.get base
  search := NotifyingService.search base
  put := NotifyingService.put service base
  patch := NotifyingService.patch service base
  delete := NotifyingService.delete service base

/-- A program over a port that may fail with an `ApiError`. -/
abbrev PortHandler (Op : Type) (Ret : Op → Type) (α : Type) : Type :=
  ExceptT ApiError (Prog Op Ret) α

namespace SettingsServicePort

variable {Op : Type} {Ret : Op → Type}

/-- `map_err(ApiError::from)?` on a value. -/
def check {α : Type} (x : Except SettingsError α) : PortHandler Op Ret α :=
  ExceptT.mk (.pure (x.mapError ApiError.ofSettings))

/-- `map_err(ApiError::from)?` on a call of the service. -/
def served {α : Type} (x : ExceptT SettingsError (Prog Op Ret) α) : PortHandler Op Ret α :=
  ExceptT.mk ((fun r => r.mapError ApiError.ofSettings) <$> x.run)

/-- The version a `PATCH` or `DELETE` requires. -/
def requireIfMatch (headers : HeaderMap) : PortHandler Op Ret ℕ :=
  match ifMatch headers with
  | some expected => return expected
  | none => throw (.act "settings:version_conflict" 409 "If-Match required")

variable (port : SettingsServicePort Op Ret) (base : Anchor) (rfc3339 : ℤ → String)

/-- `get_setting`. -/
def getSetting (key : String) (auth : Authority) : PortHandler Op Ret Response := do
  let key ← check (SettingKey.new key)
  let setting ← served (port.get key auth)
  return etagResponse base rfc3339 setting

/-- `put_setting`. -/
def putSetting (key : String) (headers : HeaderMap) (body : Value) (auth : Authority)
    (now : Instant) : PortHandler Op Ret Response := do
  let key ← check (SettingKey.new key)
  let value ← check (SettingValue.new body)
  let expected := ifMatch headers
  let setting ← served (port.put key value auth expected now)
  return etagResponse base rfc3339 setting

/-- `patch_setting`. -/
def patchSetting (key : String) (headers : HeaderMap) (body : Value) (auth : Authority)
    (now : Instant) : PortHandler Op Ret Response := do
  let key ← check (SettingKey.new key)
  let value ← check (SettingValue.new body)
  let expected ← requireIfMatch headers
  let setting ← served (port.patch key value auth expected now)
  return etagResponse base rfc3339 setting

/-- `delete_setting`. -/
def deleteSetting (key : String) (headers : HeaderMap) (auth : Authority) :
    PortHandler Op Ret Response := do
  let key ← check (SettingKey.new key)
  let expected ← requireIfMatch headers
  served (port.delete key auth expected)
  return ⟨204, [], ""⟩

/-- `list_settings`; no response is a panic. -/
def listSettings (headers : HeaderMap) (q : ListQuery) (auth : Authority) :
    PortHandler Op Ret (Option Response) := do
  match Pagination.new (q.page.getD 1) (q.size.getD 20) with
  | .error e => throw (ApiError.ofPagination e)
  | .ok pagination => do
      let page ← served (port.search (q.query.getD "") auth pagination)
      return page.bind (pageResponse base rfc3339 headers pagination q.query)

/-! ### Over the plain service -/

variable {base rfc3339} {key : String} {headers : HeaderMap} {body : Value} {auth : Authority}
  {now : Instant}

theorem getSetting_port : (Service.port base).getSetting base rfc3339 key auth =
    SettingsService.getSetting base rfc3339 key auth := rfl

theorem putSetting_port : (Service.port base).putSetting base rfc3339 key headers body auth now =
    SettingsService.putSetting base rfc3339 key headers body auth now := rfl

theorem patchSetting_port :
    (Service.port base).patchSetting base rfc3339 key headers body auth now =
      SettingsService.patchSetting base rfc3339 key headers body auth now := rfl

theorem deleteSetting_port : (Service.port base).deleteSetting key headers auth =
    SettingsService.deleteSetting base key headers auth := rfl

theorem listSettings_port {q : ListQuery} :
    (Service.port base).listSettings base rfc3339 headers q auth =
      SettingsService.listSettings base rfc3339 headers q auth := rfl

end SettingsServicePort

/-! ### Without the notifications -/

/-- The methods of a port, without their silent calls, are those of another one. -/
structure SettingsServicePort.Erases {Op Op' : Type} {Ret : Op → Type} {Ret' : Op' → Type}
    (kept : Answered Op' Ret' → Option (Answered Op Ret)) (port' : SettingsServicePort Op' Ret')
    (port : SettingsServicePort Op Ret) : Prop where
  get : ∀ key auth, Prog.Erases kept (port'.get key auth).run (port.get key auth).run
  search : ∀ query auth pagination, Prog.Erases kept (port'.search query auth pagination).run
    (port.search query auth pagination).run
  put : ∀ key value auth expected now, Prog.Erases kept
    (port'.put key value auth expected now).run (port.put key value auth expected now).run
  patch : ∀ key value auth expected now, Prog.Erases kept
    (port'.patch key value auth expected now).run (port.patch key value auth expected now).run
  delete : ∀ key auth expected, Prog.Erases kept (port'.delete key auth expected).run
    (port.delete key auth expected).run

namespace NotifyingService

variable {α : Type} {service : String} {base : Anchor}

theorem erases_inner (p : Prog Stmt Stmt.Ret α) : Erases Call.stmt? (inner p) p := by
  induction p with
  | pure a => exact .pure a
  | call s k ih => exact .call (fun r => r) (fun _ => rfl) ih

/-- A mutation that notifies a success, without that. -/
theorem erases_notify (change : Setting → ConfigChange) (p : Db Setting) :
    Erases Call.stmt? (inner p.run >>= fun result => do
      if let .ok setting := result then
        Prog.perform (Call.notify (change setting))
      return result) p.run := by
  refine (erases_inner p.run).bind_silent fun result => ?_
  cases result with
  | ok setting => exact .silent (fun _ => rfl) fun _ => .pure _
  | error e => exact .pure _

/-- **The notifying service, without notifications, is the plain one.** -/
theorem erases_port :
    SettingsServicePort.Erases Call.stmt? (port service base) (Service.port base) where
  get _ _ := erases_inner _
  search _ _ _ := erases_inner _
  put _ _ _ _ _ := erases_notify (upsertChange service) _
  patch _ _ _ _ _ := erases_notify (upsertChange service) _
  delete key auth expected := by
    refine (erases_inner _).bind_silent fun result => ?_
    cases result with
    | ok _ => exact .silent (fun _ => rfl) fun _ => .pure _
    | error e => exact .pure _

end NotifyingService

namespace SettingsServicePort

variable {Op Op' : Type} {Ret : Op → Type} {Ret' : Op' → Type} {α : Type}
  {kept : Answered Op' Ret' → Option (Answered Op Ret)} {port' : SettingsServicePort Op' Ret'}
  {port : SettingsServicePort Op Ret} {base : Anchor} {rfc3339 : ℤ → String}

theorem erases_check (x : Except SettingsError α) :
    Prog.Erases kept (check x : PortHandler Op' Ret' α).run (check x : PortHandler Op Ret α).run :=
  .pure _

theorem erases_served {x : ExceptT SettingsError (Prog Op' Ret') α}
    {y : ExceptT SettingsError (Prog Op Ret) α} (h : Prog.Erases kept x.run y.run) :
    Prog.Erases kept (served x).run (served y).run := h.bind fun _ => .pure _

theorem erases_requireIfMatch (headers : HeaderMap) :
    Prog.Erases kept (requireIfMatch headers : PortHandler Op' Ret' ℕ).run
      (requireIfMatch headers : PortHandler Op Ret ℕ).run := by
  rw [requireIfMatch, requireIfMatch]
  cases ifMatch headers with
  | some n => exact .pure _
  | none => exact .pure _

section Handlers

variable (h : port'.Erases kept port) (key : String) (headers : HeaderMap) (body : Value)
  (auth : Authority) (now : Instant)

include h

theorem Erases.getSetting : Prog.Erases kept (port'.getSetting base rfc3339 key auth).run
    (port.getSetting base rfc3339 key auth).run :=
  (erases_check _).except_bind fun _ => (erases_served (h.get _ _)).except_bind fun _ => .pure _

theorem Erases.putSetting :
    Prog.Erases kept (port'.putSetting base rfc3339 key headers body auth now).run
      (port.putSetting base rfc3339 key headers body auth now).run :=
  (erases_check _).except_bind fun _ => (erases_check _).except_bind fun _ =>
    (erases_served (h.put _ _ _ _ _)).except_bind fun _ => .pure _

theorem Erases.patchSetting :
    Prog.Erases kept (port'.patchSetting base rfc3339 key headers body auth now).run
      (port.patchSetting base rfc3339 key headers body auth now).run :=
  (erases_check _).except_bind fun _ => (erases_check _).except_bind fun _ =>
    (erases_requireIfMatch headers).except_bind fun _ =>
      (erases_served (h.patch _ _ _ _ _)).except_bind fun _ => .pure _

theorem Erases.deleteSetting : Prog.Erases kept (port'.deleteSetting key headers auth).run
    (port.deleteSetting key headers auth).run :=
  (erases_check _).except_bind fun _ => (erases_requireIfMatch headers).except_bind fun _ =>
    (erases_served (h.delete _ _ _)).except_bind fun _ => .pure _

theorem Erases.listSettings (q : ListQuery) :
    Prog.Erases kept (port'.listSettings base rfc3339 headers q auth).run
      (port.listSettings base rfc3339 headers q auth).run := by
  rw [SettingsServicePort.listSettings, SettingsServicePort.listSettings]
  cases Pagination.new (q.page.getD 1) (q.size.getD 20) with
  | error e => exact .pure _
  | ok pagination => exact (erases_served (h.search _ _ _)).except_bind fun _ => .pure _

end Handlers

end SettingsServicePort

/-! ### The deployed router -/

/-- A call of the deployed router. -/
inductive DeployedOp (Jwk : Type)
  /-- A call of the application. -/
  | app (o : AppOp Jwk)
  /-- `SettingsNotifier::notify`. -/
  | notify (change : ConfigChange)

/-- The answer to a call. -/
@[reducible] def DeployedOp.Ret {Jwk : Type} : DeployedOp Jwk → Type
  | app o => o.Ret
  | notify _ => Unit

/-- The state of the application, and the messages published so far. -/
structure DeployedWorld (Jwk : Type) where
  app : AppWorld Jwk
  published : List Publish

variable {Jwk Key α β : Type}

namespace DeployedOp

/-- The call of the application, if it is one. -/
def app? : Answered (DeployedOp Jwk) Ret → Option (Answered (AppOp Jwk) AppOp.Ret)
  | ⟨.app o, r⟩ => some ⟨o, r⟩
  | ⟨.notify _, _⟩ => none

/-- A call of the notifying service. -/
def ofCall : Call → DeployedOp Jwk
  | .stmt s => .app (.settings s)
  | .notify change => .notify change

/-- Its answer. -/
def toRet : (o : Call) → (ofCall o : DeployedOp Jwk).Ret → o.Ret
  | .stmt _, r => r
  | .notify _, r => r

end DeployedOp

/-- A program of the deployed router that may be refused with a response. -/
abbrev DeployedM (Jwk α : Type) : Type := ExceptT Response (Prog (DeployedOp Jwk) DeployedOp.Ret) α

namespace Deployed

/-- A program that does not call the settings service. -/
def lift (x : AppM Jwk α) : DeployedM Jwk α :=
  ExceptT.mk (x.run.translate DeployedOp.app fun _ r => r)

/-- A program over the notifying service. -/
def callHandler (x : PortHandler Call Call.Ret α) : DeployedM Jwk α :=
  ExceptT.mk (x.run.translate DeployedOp.ofCall DeployedOp.toRet >>= fun r =>
    .pure (r.mapError ApiError.intoResponse))

/-- A handler that always answers. -/
def answer (x : DeployedM Jwk Response) : DeployedM Jwk (Option Response) := do
  let resp ← x
  return some resp

variable (app : App Jwk Key)

/-- **The meaning of a call**; a notification goes to the MQTT client. -/
def exec (env : AppEnv Jwk) :
    (o : DeployedOp Jwk) → DeployedWorld Jwk → o.Ret × DeployedWorld Jwk
  | .app o, W => let r := app.exec env o W.app; (r.1, { W with app := r.2 })
  | .notify change, W => ((), { W with published := MqttNotifier.notify change W.published })

/-- The settings service that `main` puts behind the router. -/
def port : SettingsServicePort Call Call.Ret :=
  NotifyingService.port app.config.serviceName app.base

/-- The handlers of `/settings`, for an authority. -/
def settingsCollection (method : Method) (query : String) (headers : HeaderMap)
    (auth : Authority) : DeployedM Jwk (Option Response) :=
  match method with
  | .get | .head => do
      let q ← lift (App.extract (app.extractors.query query))
      callHandler ((port app).listSettings app.base app.rfc3339 headers q auth)
  | _ => return some App.methodNotAllowed

/-- The handlers of `/settings/:key`, for an authority. -/
def settingsEntry (method : Method) (key : String) (headers : HeaderMap) (body : List UInt8)
    (auth : Authority) : DeployedM Jwk (Option Response) :=
  match method with
  | .get | .head => do
      let key ← lift (App.extract (app.extractors.path key))
      answer <| callHandler ((port app).getSetting app.base app.rfc3339 key auth)
  | .put => do
      let key ← lift (App.extract (app.extractors.path key))
      let body ← lift (App.extract (app.extractors.upsert headers body))
      let now ← lift (App.call (.auth .instant))
      answer <| callHandler ((port app).putSetting app.base app.rfc3339 key headers body auth now)
  | .patch => do
      let key ← lift (App.extract (app.extractors.path key))
      let body ← lift (App.extract (app.extractors.upsert headers body))
      let now ← lift (App.call (.auth .instant))
      answer <| callHandler ((port app).patchSetting app.base app.rfc3339 key headers body auth now)
  | .delete => do
      let key ← lift (App.extract (app.extractors.path key))
      answer <| callHandler ((port app).deleteSetting key headers auth)
  | _ => return some App.methodNotAllowed

/-- `demo_config`, with the configured token. -/
def demoConfig (token key : String) (headers : HeaderMap) (body : List UInt8) :
    DeployedM Jwk Response := do
  let key ← lift (App.extract (app.extractors.path key))
  let body ← lift (App.extract (app.extractors.upsert headers body))
  let provided := ((headers.get "x-demo-token").bind toStr).getD ""
  if provided ≠ token then throw ApiError.unauthorized.intoResponse
  else do
    let key ← callHandler (SettingsServicePort.check (SettingKey.new key))
    let value ← callHandler (SettingsServicePort.check (SettingValue.new body))
    let current ← ExceptT.mk (((port app).get key App.demoAuthority).run.translate DeployedOp.ofCall
      DeployedOp.toRet >>= fun r => .pure (.ok r))
    let expected := current.toOption.map Setting.version
    let now ← lift (App.call (.auth .instant))
    let setting ← callHandler (SettingsServicePort.served
      ((port app).put key value App.demoAuthority expected now))
    return ⟨200, [("content-type", "application/json")],
      (SettingResponse.ofSetting app.base app.rfc3339 setting).json.print⟩

/-- The routes of `build_router`; the others know nothing of the settings service. -/
def route (req : HttpRequest) : DeployedM Jwk (Option Response) :=
  match req.route with
  | .settings query => do
      let auth ← lift (app.requireAuth req.headers)
      settingsCollection app req.method query req.headers auth
  | .setting key => do
      let auth ← lift (app.requireAuth req.headers)
      settingsEntry app req.method key req.headers req.body auth
  | .demoConfig key =>
      match app.config.demoTriggerToken with
      | none => return some ⟨404, [], ""⟩
      | some token => if req.method = .post then
            answer <| demoConfig app token key req.headers req.body
          else return some App.methodNotAllowed
  | .logout | .healthz | .readyz | .metrics | .telemetry => lift (app.route req)

/-- **The handling of a request.** -/
def handle (req : HttpRequest) : Prog (DeployedOp Jwk) DeployedOp.Ret (Option Response) :=
  if req.method = .options then .pure (some (App.securityHeaders ⟨200, [], ""⟩))
  else (route app req).run >>= fun r => .pure (App.finish req r)

/-! ### The deployed router without notifications -/

variable {app}

theorem erases_lift (x : AppM Jwk α) : Erases DeployedOp.app? (lift x).run x.run := by
  have hprog : ∀ p : Prog (AppOp Jwk) AppOp.Ret (Except Response α),
      Erases DeployedOp.app? (p.translate DeployedOp.app fun _ r => r) p := by
    intro p
    induction p with
    | pure a => exact .pure a
    | call o k ih => exact .call (fun r => r) (fun _ => rfl) ih
  exact hprog x.run

/-- What is kept of a program over the notifying service. -/
theorem erases_translate {d : Prog Call Call.Ret α} {p : Prog Stmt Stmt.Ret α}
    (h : Erases Call.stmt? d p) :
    Erases (DeployedOp.app? : Answered (DeployedOp Jwk) DeployedOp.Ret → _)
      (d.translate DeployedOp.ofCall DeployedOp.toRet)
      (p.translate AppOp.settings fun _ r => r) := by
  induction h with
  | pure a => exact .pure a
  | @call o' o k' k g hkept _ ih =>
      cases o' with
      | notify change => cases hkept ()
      | stmt s =>
          have hop : ∀ r, (⟨s, r⟩ : Answered Stmt Stmt.Ret) = ⟨o, g r⟩ := fun r =>
            Option.some.inj (hkept r)
          obtain rfl : s = o := congrArg Sigma.fst (hop (.error .database))
          exact .call g (fun r => congrArg some (Sigma.ext rfl (Sigma.ext_iff.1 (hop r)).2)) ih
  | @silent o' k' p hsilent _ ih =>
      cases o' with
      | notify change => exact .silent (fun _ => rfl) ih
      | stmt s => cases hsilent (.error .database)

theorem erases_callHandler {x : PortHandler Call Call.Ret α} {y : Handler α}
    (h : Erases Call.stmt? x.run y.run) :
    Erases DeployedOp.app? (callHandler x : DeployedM Jwk α).run (App.callHandler y).run :=
  (erases_translate h).bind fun _ => .pure _

theorem erases_answer {x : DeployedM Jwk Response} {y : AppM Jwk Response}
    (h : Erases DeployedOp.app? x.run y.run) :
    Erases DeployedOp.app? (answer x).run (App.answer y).run := h.except_bind fun _ => .pure _

theorem erases_settingsCollection (method : Method) (query : String) (headers : HeaderMap)
    (auth : Authority) :
    Erases DeployedOp.app? (settingsCollection app method query headers auth).run
      (app.settingsCollection method query headers auth).run := by
  cases method with
  | get | head =>
      refine (erases_lift _).except_bind fun q => erases_callHandler ?_
      rw [← SettingsServicePort.listSettings_port]
      exact NotifyingService.erases_port.listSettings headers auth q
  | post | put | patch | delete | options | other => exact .pure _

theorem erases_settingsEntry (method : Method) (key : String) (headers : HeaderMap)
    (body : List UInt8) (auth : Authority) :
    Erases DeployedOp.app? (settingsEntry app method key headers body auth).run
      (app.settingsEntry method key headers body auth).run := by
  -- the handlers of the plain router are those over the port of the plain service
  cases method with
  | get | head =>
      refine (erases_lift _).except_bind fun text => erases_answer (erases_callHandler ?_)
      rw [← SettingsServicePort.getSetting_port]
      exact NotifyingService.erases_port.getSetting text auth
  | put =>
      refine (erases_lift _).except_bind fun text => (erases_lift _).except_bind fun v =>
        (erases_lift _).except_bind fun now => erases_answer (erases_callHandler ?_)
      rw [← SettingsServicePort.putSetting_port]
      exact NotifyingService.erases_port.putSetting text headers v auth now
  | patch =>
      refine (erases_lift _).except_bind fun text => (erases_lift _).except_bind fun v =>
        (erases_lift _).except_bind fun now => erases_answer (erases_callHandler ?_)
      rw [← SettingsServicePort.patchSetting_port]
      exact NotifyingService.erases_port.patchSetting text headers v auth now
  | delete =>
      refine (erases_lift _).except_bind fun text => erases_answer (erases_callHandler ?_)
      rw [← SettingsServicePort.deleteSetting_port]
      exact NotifyingService.erases_port.deleteSetting text headers auth
  | post | options | other => exact .pure _

theorem erases_demoConfig (token key : String) (headers : HeaderMap) (body : List UInt8) :
    Erases DeployedOp.app? (demoConfig app token key headers body).run
      (app.demoConfig token key headers body).run := by
  refine (erases_lift _).except_bind fun text => (erases_lift _).except_bind fun v => ?_
  by_cases htoken : ((headers.get "x-demo-token").bind toStr).getD "" ≠ token
  · rw [if_pos htoken, if_pos htoken]
    exact .pure _
  · rw [if_neg htoken, if_neg htoken]
    exact (erases_callHandler (.pure _)).except_bind fun k =>
      (erases_callHandler (.pure _)).except_bind fun value =>
      Erases.except_bind ((erases_translate (NotifyingService.erases_port.get _ _)).bind
        fun _ => .pure _) fun current => (erases_lift _).except_bind fun now =>
      (erases_callHandler (SettingsServicePort.erases_served
        (NotifyingService.erases_port.put _ _ _ _ _))).except_bind fun _ => .pure _

/-- **The deployed router, without notifications, is the router over the plain service.** -/
theorem erases_handle (req : HttpRequest) :
    Erases DeployedOp.app? (handle app req) (app.handle req) := by
  have hroute : Erases DeployedOp.app? (route app req).run (app.route req).run := by
    rw [route]
    cases hr : req.route with
    | settings query =>
        rw [App.route, hr]
        exact (erases_lift _).except_bind fun _ => erases_settingsCollection ..
    | setting key =>
        rw [App.route, hr]
        exact (erases_lift _).except_bind fun _ => erases_settingsEntry ..
    | demoConfig key =>
        rw [App.route, hr]
        cases app.config.demoTriggerToken with
        | none => exact .pure _
        | some token =>
            dsimp only
            split_ifs
            · exact erases_answer (erases_demoConfig ..)
            · exact .pure _
    | logout | healthz | readyz | metrics | telemetry => exact erases_lift _
  rw [handle, App.handle]
  by_cases hoptions : req.method = .options
  · rw [if_pos hoptions, if_pos hoptions]
    exact .pure _
  · rw [if_neg hoptions, if_neg hoptions]
    exact hroute.bind fun r => by cases r <;> exact .pure _

/-! ### Runs -/

end Deployed

/-- Requests of the deployed router in flight. -/
abbrev DeployedConfig (Jwk : Type) : Type :=
  Snapshot (DeployedOp Jwk) DeployedOp.Ret (DeployedWorld Jwk) HttpRequest (Option Response)

/-- A call of a request of the deployed router. -/
abbrev DeployedEvent (Jwk : Type) : Type :=
  Event (DeployedOp Jwk) DeployedOp.Ret (DeployedWorld Jwk) HttpRequest

namespace Deployed

/-- **A run of the router over the plain service that does what the deployed one does**: it performs
the same calls, leaves the same state and gives the same responses. -/
structure AppRun (app : App Jwk Key) (env : AppEnv Jwk) (w : AppWorld Jwk) (reqs : List HttpRequest)
    (c : DeployedConfig Jwk) (c' : AppConfig Jwk) : Prop where
  reachable : Reachable (app.exec env) (fun _ _ => True) (Snapshot.init w app.handle reqs) c'
  state : c'.state = c.state.app
  calls_eq : calls c'.hist = c.hist.filterMap (keptBy DeployedOp.app?)
  responses : ∀ (i : ℕ) (p : Proc (DeployedOp Jwk) DeployedOp.Ret HttpRequest (Option Response))
    (resp : Option Response), c.procs[i]? = some p → p.prog = .pure resp →
      ∃ p', c'.procs[i]? = some p' ∧ p'.req = p.req ∧ p'.prog = .pure resp

/-- **The deployed router does what the router does**, whatever requests are in flight. -/
theorem exists_app_run {app : App Jwk Key} {env : AppEnv Jwk} {W : DeployedWorld Jwk}
    {reqs : List HttpRequest}
    {c : DeployedConfig Jwk} {G : List (DeployedEvent Jwk) → DeployedEvent Jwk → Prop}
    (hc : Reachable (exec app env) G (Snapshot.init W (handle app) reqs) c) :
    ∃ c', AppRun app env W.app reqs c c' := by
  have hcall : ∀ (o : DeployedOp Jwk) (W : DeployedWorld Jwk) (x : Answered (AppOp Jwk) AppOp.Ret),
      DeployedOp.app? ⟨o, (exec app env o W).1⟩ = some x →
        app.exec env x.1 W.app = (x.2, (exec app env o W).2.app) := by
    intro o W x hx
    cases o with
    | app o =>
        obtain rfl := Option.some.inj hx
        rfl
    | notify change => cases hx
  have hsilent : ∀ (o : DeployedOp Jwk) (W : DeployedWorld Jwk),
      DeployedOp.app? ⟨o, (exec app env o W).1⟩ = none → (exec app env o W).2.app = W.app := by
    intro o W hnone
    cases o with
    | app o => cases hnone
    | notify change => rfl
  obtain ⟨c', hc', hcalls, hstate, hprocs⟩ := hc.erase erases_handle
    DeployedWorld.app hcall hsilent
  refine ⟨c', hc', hstate, hcalls, fun i p resp hp hresp => ?_⟩
  obtain ⟨p', hp', hreq, herase⟩ := hprocs i p hp
  rw [hresp] at herase
  exact ⟨p', hp', hreq, herase.eq_pure⟩

end Deployed

open Sample in
/-- Two `PUT`s, the calls of one between those of the other. -/
theorem Deployed.exists_app_run_two_puts :
    let c := (Snapshot.init (⟨fresh, []⟩ : DeployedWorld String) (handle server)
      [putTheme, putTheme]).schedule (exec server around)
        (List.replicate 13 0 ++ List.replicate 14 1 ++ [0, 1])
    ∃ c', AppRun server around fresh [putTheme, putTheme] c c' :=
  exists_app_run (W := ⟨fresh, []⟩) (Reachable.refl.schedule _ _)

end SettingsService
