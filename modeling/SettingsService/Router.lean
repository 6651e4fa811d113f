import SettingsService.AuthService
import SettingsService.Config
import SettingsService.ListSettings
import SettingsService.RateLimiter

/-!
# The router

`build_router` over the adapters that `main` wires together: the settings slice behind
`require_auth`, logout, the probes, the telemetry proxy, and the demo trigger when it is configured.
The extractors of axum are a parameter; headers that its layers add by themselves are left out.

Main definitions:

* `AppOp`, `AppWorld`, `App.exec` — the calls of the application and their meaning;
* `bearerToken`, `App.requireAuth`, `App.logout`, `App.telemetryProxy`, `App.demoConfig` — where
  credentials are looked at;
* `App.handle` — the handling of a request;
* `App.DefaultDeny` — settings, sessions and the collector are reached with a credential only;
* `App.Guarded` — the two gaps are closed for a request;
* `App.Forwards`, `App.Triggers` — the requests that get past a check without an accepted token.

Main results:

* `App.performs_cases` — what a request comes with that reads, changes, revokes or forwards;
* `App.defaultDeny_iff` — **the router is default-deny exactly where the telemetry proxy gets an
  accepted token and the demo trigger has a token that is not empty**.
-/

set_option relaxedAutoImplicit false
set_option autoImplicit false

namespace SettingsService

open Interaction (Prog)
open Interaction.Prog (Only Performs)

/-! ### Requests -/

/-- The methods. -/
inductive Method
  | get
  | head
  | post
  | put
  | patch
  | delete
  | options
  | other
  deriving DecidableEq

/-- The registered routes, with the parts of the path and the query as they were sent. -/
inductive Route
  | settings (query : String)
  | setting (key : String)
  | logout
  | healthz
  | readyz
  | metrics
  | telemetry
  | demoConfig (key : String)
  deriving DecidableEq

/-- A request. -/
structure HttpRequest where
  method : Method
  route : Route
  headers : HeaderMap
  body : List UInt8
  deriving DecidableEq

/-- What axum makes of the parts of a request before a handler runs, or the response it refuses
them with. -/
structure Extractors where
  /-- `Path<String>`. -/
  path : String → Except Response String
  /-- `Query<ListQuery>`. -/
  query : String → Except Response ListQuery
  /-- `Json<SettingUpsert>`, and `Json<DemoUpsert>`. -/
  upsert : HeaderMap → List UInt8 → Except Response Value
  /-- `Bytes`. -/
  bytes : List UInt8 → Except Response (List UInt8)

/-- `bearer_token`. -/
def bearerToken (headers : HeaderMap) : Option String := do
  let v ← headers.get "authorization"
  let s ← toStr v
  let (scheme, token) ← splitOnce ' ' s
  if eqIgnoreAsciiCase scheme "bearer" && !token.isEmpty then some token else none

/-! ### Calls and their meaning -/

/-- The calls of the application. -/
inductive AppOp (Jwk : Type)
  /-- A statement on the settings table. -/
  | settings (s : Stmt)
  /-- A call of the auth slice. -/
  | auth (o : AuthOp Jwk)
  /-- `RateLimiter::allow`. -/
  | allow (key : String)
  /-- Is Postgres reachable? -/
  | ready
  /-- The text of the metrics. -/
  | gather
  /-- Send a body to the collector. -/
  | forward (url : String) (body : List UInt8)

/-- The answers. -/
abbrev AppOp.Ret {Jwk : Type} : AppOp Jwk → Type
  | settings s => s.Ret
  | auth o => o.Ret
  | allow _ => Bool
  | ready => Bool
  | gather => Option String
  | forward _ _ => Bool

/-- Does a call read or change settings, revoke a session, or forward a body? -/
def AppOp.IsEffect {Jwk : Type} : AppOp Jwk → Prop
  | settings _ => True
  | auth o => o.revokes.isSome
  | forward _ _ => True
  | _ => False

/-- The state of the application. -/
structure AppWorld (Jwk : Type) where
  /-- The auth slice. -/
  auth : AuthWorld Jwk
  /-- The settings table. -/
  table : Table
  /-- The rate limiter. -/
  buckets : Buckets
  /-- What was sent to the collector. -/
  forwarded : List (String × List UInt8)

/-- What the application finds around it. -/
structure AppEnv (Jwk : Type) where
  /-- Around the auth slice. -/
  auth : AuthEnv Jwk
  /-- The database server. -/
  pg : Postgres
  /-- Whether it is reachable. -/
  ready : Bool
  /-- The text of the metrics. -/
  metrics : Option String
  /-- Whether the collector takes what is sent to it. -/
  collector : Bool

/-- What `main` wires together. -/
structure App (Jwk Key : Type) where
  /-- The configuration. -/
  config : Config
  /-- The token library. -/
  lib : JsonWebToken Jwk Key
  /-- The extractors. -/
  extractors : Extractors
  /-- The anchor of the process. -/
  base : Anchor
  /-- The text of a time. -/
  rfc3339 : ℤ → String

/-- A program of the application that may be refused with a response. -/
abbrev AppM (Jwk α : Type) : Type := ExceptT Response (Prog (AppOp Jwk) AppOp.Ret) α

namespace App

variable {Jwk Key : Type} (app : App Jwk Key)

/-- The token adapter. -/
def adapter : JwtAuthAdapter := ⟨app.config.authIssuer, app.config.authAudience⟩

/-- The limiter: its window is a second. -/
def limiter : RateLimiter := ⟨app.config.rateLimitRequests, second⟩

/-- **The meaning of a call.** -/
def exec (env : AppEnv Jwk) : (o : AppOp Jwk) → AppWorld Jwk → o.Ret × AppWorld Jwk
  | .settings s, w => let r := env.pg.exec s w.table; (r.1, { w with table := r.2 })
  | .auth o, w => let r := o.exec env.auth w.auth; (r.1, { w with auth := r.2 })
  | .allow key, w =>
      let r := app.limiter.allow key (env.auth.clock w.auth.steps) w.buckets
      (r.1, { w with auth := w.auth.tick, buckets := r.2 })
  | .ready, w => (env.ready, w)
  | .gather, w => (env.metrics, w)
  | .forward url body, w => (env.collector, { w with forwarded := w.forwarded ++ [(url, body)] })

/-! ### Handlers -/

/-- One call. -/
def call (o : AppOp Jwk) : AppM Jwk o.Ret := ExceptT.lift (Prog.perform o)

/-- Something that is found, or the response it is refused with. -/
def extract {α : Type} (x : Except Response α) : AppM Jwk α := ExceptT.mk (.pure x)

/-- `ok_or_else(ApiError::unauthorized)?`. -/
def orUnauthorized {α : Type} (x : Option α) : AppM Jwk α :=
  match x with
  | some a => pure a
  | none => throw ApiError.unauthorized.intoResponse

/-- A call of the auth service. -/
def callAuth {α : Type} (x : Auth Jwk α) : AppM Jwk α :=
  ExceptT.mk (Prog.translate AppOp.auth (fun _ r => r) x.run >>= fun r =>
    .pure (r.mapError fun e => (ApiError.ofAuth e).intoResponse))

/-- A handler of the settings slice. -/
def callHandler {α : Type} (x : Handler α) : AppM Jwk α :=
  ExceptT.mk (Prog.translate AppOp.settings (fun _ r => r) x.run >>= fun r =>
    .pure (r.mapError ApiError.intoResponse))

/-- A handler that always answers. -/
def answer (x : AppM Jwk Response) : AppM Jwk (Option Response) := do
  let resp ← x
  return some resp

/-- `require_auth`, up to the handler it guards. -/
def requireAuth (headers : HeaderMap) : AppM Jwk Authority := do
  let token ← orUnauthorized (bearerToken headers)
  let authority ← callAuth (AuthService.validateToken app.lib app.adapter token)
  if ← call (.allow ("tenant:" ++ authority.tenant.asStr)) then return authority
  else throw (ApiError.retry "settings:rate_limited" 429 1).intoResponse

/-- `logout`. -/
def logout (headers : HeaderMap) : AppM Jwk Response := do
  let token ← orUnauthorized (bearerToken headers)
  let authority ← callAuth (AuthService.validateToken app.lib app.adapter token)
  if ← call (.allow ("auth:" ++ authority.tenant.asStr)) then do
    let _ ← callAuth (AuthService.logout app.lib app.adapter token)
    return ⟨204, [], ""⟩
  else throw (ApiError.retry "auth:rate_limited" 429 1).intoResponse

/-- `telemetry_proxy`. -/
def telemetryProxy (headers : HeaderMap) (body : List UInt8) : AppM Jwk Response := do
  let body ← extract (app.extractors.bytes body)
  -- any value will do: the token in it is not looked at
  let _ ← orUnauthorized (headers.get "authorization")
  let endpoint := String.ofList (app.config.otelHttpEndpoint.toList.rdropWhile (· == '/'))
  if ← call (.forward (endpoint ++ "/v1/traces") body) then return ⟨204, [], ""⟩
  else return ⟨502, [], ""⟩

/-- `demo_config`, with the configured token. -/
def demoConfig (token key : String) (headers : HeaderMap) (body : List UInt8) :
    AppM Jwk Response := do
  let key ← extract (app.extractors.path key)
  let body ← extract (app.extractors.upsert headers body)
  -- a missing header and a header that is not text count as the empty token
  let provided := ((headers.get "x-demo-token").bind toStr).getD ""
  if provided ≠ token then throw ApiError.unauthorized.intoResponse
  else do
    let key ← callHandler (check (SettingKey.new key))
    let value ← callHandler (check (SettingValue.new body))
    let authority : Authority := ⟨⟨"acme"⟩, ⟨"demo-curl"⟩, .admin⟩
    let current ← ExceptT.mk (Prog.translate AppOp.settings (fun _ r => r)
      (Service.get app.base key authority).run >>= fun r => .pure (.ok r))
    -- `.ok().map(…)`: when the read fails the write goes on without a precondition
    let expected := current.toOption.map Setting.version
    let now ← call (.auth .instant)
    let setting ← callHandler (service (Service.put app.base key value authority expected now))
    return ⟨200, [("content-type", "application/json")],
      (SettingResponse.ofSetting app.base app.rfc3339 setting).json.print⟩

/-- `readyz`. -/
def readyz : AppM Jwk Response := do
  if ← call .ready then return ⟨200, [], ""⟩ else return ⟨503, [], ""⟩

/-- `metrics_handler`. -/
def metricsHandler : AppM Jwk Response := do
  match ← call .gather with
  | some text => return ⟨200, [("content-type", "text/plain; version=0.0.4")], text⟩
  | none => return ⟨500, [], ""⟩

/-- The answer to a method that a route does not have. -/
def methodNotAllowed : Response := ⟨405, [], ""⟩

/-- The handlers of `/settings`, for an authority. -/
def settingsCollection (method : Method) (query : String) (headers : HeaderMap)
    (auth : Authority) : AppM Jwk (Option Response) :=
  match method with
  | .get | .head => do
      let q ← extract (app.extractors.query query)
      callHandler (listSettings app.base app.rfc3339 headers q auth)
  | _ => return some methodNotAllowed

/-- The handlers of `/settings/:key`, for an authority. -/
def settingsEntry (method : Method) (key : String) (headers : HeaderMap) (body : List UInt8)
    (auth : Authority) : AppM Jwk (Option Response) :=
  match method with
  | .get | .head => do
      let key ← extract (app.extractors.path key)
      answer <| callHandler (getSetting app.base app.rfc3339 key auth)
  | .put => do
      let key ← extract (app.extractors.path key)
      let body ← extract (app.extractors.upsert headers body)
      let now ← call (.auth .instant)
      answer <| callHandler (putSetting app.base app.rfc3339 key headers body auth now)
  | .patch => do
      let key ← extract (app.extractors.path key)
      let body ← extract (app.extractors.upsert headers body)
      let now ← call (.auth .instant)
      answer <| callHandler (patchSetting app.base app.rfc3339 key headers body auth now)
  | .delete => do
      let key ← extract (app.extractors.path key)
      answer <| callHandler (deleteSetting app.base key headers auth)
  | _ => return some methodNotAllowed

/-- The routes of `build_router`; no response is a panic. -/
def route (req : HttpRequest) : AppM Jwk (Option Response) :=
  match req.route with
  | .settings query => do
      let auth ← app.requireAuth req.headers
      app.settingsCollection req.method query req.headers auth
  | .setting key => do
      let auth ← app.requireAuth req.headers
      app.settingsEntry req.method key req.headers req.body auth
  | .logout => if req.method = .post then answer <| app.logout req.headers
      else return some methodNotAllowed
  | .healthz => if req.method = .get ∨ req.method = .head then return some ⟨200, [], ""⟩
      else return some methodNotAllowed
  | .readyz => if req.method = .get ∨ req.method = .head then answer readyz
      else return some methodNotAllowed
  | .metrics => if req.method = .get ∨ req.method = .head then answer metricsHandler
      else return some methodNotAllowed
  | .telemetry => if req.method = .post then answer <| app.telemetryProxy req.headers req.body
      else return some methodNotAllowed
  -- the route is there only when the token is configured
  | .demoConfig key =>
      match app.config.demoTriggerToken with
      | none => return some ⟨404, [], ""⟩
      | some token => if req.method = .post then
            answer <| app.demoConfig token key req.headers req.body
          else return some methodNotAllowed

/-- `security_headers`; a header that is there already is replaced. -/
def securityHeaders (resp : Response) : Response :=
  let entries := [("strict-transport-security", "max-age=31536000; includeSubDomains"),
    ("x-content-type-options", "nosniff"), ("x-frame-options", "DENY"),
    ("referrer-policy", "no-referrer"),
    ("content-security-policy", "default-src 'self'; frame-ancestors 'none'"),
    ("permissions-policy", "geolocation=(), camera=(), microphone=()")]
  entries.foldl (fun resp e =>
    { resp with headers := resp.headers.filter (fun h => h.1 != e.1) ++ [e] }) resp

/-- **The handling of a request.**  The cross-origin layer answers `OPTIONS` by itself; `HEAD` is
`GET` without the body. -/
def handle (req : HttpRequest) : Prog (AppOp Jwk) AppOp.Ret (Option Response) :=
  if req.method = .options then .pure (some (securityHeaders ⟨200, [], ""⟩))
  else (app.route req).run >>= fun r => .pure (match r with
    | .ok resp => resp.map fun resp =>
        securityHeaders (if req.method = .head then { resp with body := "" } else resp)
    | .error resp => some (securityHeaders resp))

/-! ### Default deny -/

variable (env : AppEnv Jwk) (w : AppWorld Jwk)

/-- The request carries a bearer token that `validate_token` accepts. -/
def BearerAccepted (headers : HeaderMap) : Prop :=
  ∃ token authority, bearerToken headers = some token ∧
    ((AuthService.validateToken app.lib app.adapter token).run.run (AuthOp.exec env.auth)
      w.auth).1 = .ok authority

/-- The request is for the demo trigger and carries its token, which is not empty. -/
def DemoAccepted (req : HttpRequest) : Prop :=
  ∃ key token, req.route = .demoConfig key ∧ app.config.demoTriggerToken = some token ∧ token ≠ "" ∧
    (req.headers.get "x-demo-token").bind toStr = some token

/-- **Default deny**: handling the request reads or changes settings, revokes a session or forwards
a body only with a credential. -/
def DefaultDeny (req : HttpRequest) : Prop :=
  Performs (app.exec env) AppOp.IsEffect (app.handle req) w →
    app.BearerAccepted env w req.headers ∨ app.DemoAccepted req

/-- The two gaps are closed: a body that the telemetry proxy forwards comes with a token that is
accepted, and where the token of the demo trigger is empty, so does a setting that a request without
that header would change. -/
def Guarded (req : HttpRequest) : Prop :=
  (req.route = .telemetry → req.method = .post → (req.headers.get "authorization").isSome →
    (∃ body, app.extractors.bytes req.body = .ok body) → app.BearerAccepted env w req.headers) ∧
  ∀ key, req.route = .demoConfig key → req.method = .post → app.config.demoTriggerToken = some "" →
    ((req.headers.get "x-demo-token").bind toStr).getD "" = "" →
    (∃ text k, app.extractors.path key = .ok text ∧ SettingKey.new text = .ok k) →
    (∃ body v, app.extractors.upsert req.headers req.body = .ok body ∧
      SettingValue.new body = .ok v) →
    app.BearerAccepted env w req.headers

section Effects

variable {app : App Jwk Key} {env : AppEnv Jwk} {w : AppWorld Jwk} {α β : Type}

/-- Programs of the auth slice run on its part of the state. -/
theorem run_callAuth (x : Auth Jwk α) (w : AppWorld Jwk) : (callAuth x).run.run (app.exec env) w =
    ((x.run.run (AuthOp.exec env.auth) w.auth).1.mapError fun e => (ApiError.ofAuth e).intoResponse,
      { w with auth := (x.run.run (AuthOp.exec env.auth) w.auth).2 }) := by
  rw [callAuth, ExceptT.run_mk, Interaction.Prog.run_bind, Interaction.Prog.run_pure,
    Interaction.Prog.run_translate AppWorld.auth (fun a w => { w with auth := a })
      (fun _ _ => rfl) (fun _ _ => rfl) (fun _ _ => rfl) (fun _ => rfl) (fun _ _ _ => rfl)]

theorem only_callAuth {x : Auth Jwk α} (hx : Only (fun o => o.revokes = none) x.run) :
    Only (fun o => ¬ AppOp.IsEffect o) (callAuth x).run :=
  (hx.translate fun o ho => by simp [AppOp.IsEffect, ho]).bind fun _ => trivial

@[simp] theorem extract_bind_ok (a : α) (f : α → AppM Jwk β) : (extract (.ok a) >>= f) = f a := rfl

@[simp] theorem callHandler_check_ok (a : α) (f : α → AppM Jwk β) :
    (callHandler (check (.ok a)) >>= f) = f a := rfl

theorem only_orUnauthorized (x : Option α) :
    Only (fun o : AppOp Jwk => ¬ o.IsEffect) (orUnauthorized x : AppM Jwk α).run := by
  cases x <;> exact trivial

theorem only_call {o : AppOp Jwk} (ho : ¬ o.IsEffect) :
    Only (fun o : AppOp Jwk => ¬ o.IsEffect) (call o).run := ⟨ho, fun _ => trivial⟩

theorem run_orUnauthorized_eq_ok_iff {x : Option α} {a : α} :
    ((orUnauthorized x : AppM Jwk α).run.run (app.exec env) w).1 = .ok a ↔ x = some a := by
  cases x with
  | none =>
      constructor
      · intro h
        cases h
      · intro h
        cases h
  | some b =>
      constructor
      · intro h
        exact congrArg some (Except.ok.inj h)
      · intro h
        cases h
        rfl

/-- The service accepts a token. -/
theorem run_callAuth_eq_ok {x : Auth Jwk α} {a : α}
    (h : ((callAuth x).run.run (app.exec env) w).1 = .ok a) :
    (x.run.run (AuthOp.exec env.auth) w.auth).1 = .ok a := by
  rw [run_callAuth] at h
  cases hx : (x.run.run (AuthOp.exec env.auth) w.auth).1 with
  | error e =>
      rw [hx] at h
      cases h
  | ok b =>
      rw [hx] at h
      exact congrArg Except.ok (Except.ok.inj h)

theorem run_orUnauthorized_snd (x : Option α) (w : AppWorld Jwk) :
    ((orUnauthorized x : AppM Jwk α).run.run (app.exec env) w).2 = w := by
  cases x <;> rfl

/-- A program that begins with validating the bearer token gets on only if it is accepted. -/
theorem bearerAccepted_of_run {headers : HeaderMap} {f : String → Authority → AppM Jwk α} {a : α}
    (h : ((ExceptT.run (do
      let token ← orUnauthorized (bearerToken headers)
      let authority ← callAuth (AuthService.validateToken app.lib app.adapter token)
      f token authority)).run (app.exec env) w).1 = .ok a) : app.BearerAccepted env w headers := by
  obtain ⟨token, htoken, h⟩ := Interaction.Prog.run_except_bind_eq_ok h
  obtain ⟨authority, hauthority, -⟩ := Interaction.Prog.run_except_bind_eq_ok h
  rw [run_orUnauthorized_snd] at hauthority
  exact ⟨token, authority, run_orUnauthorized_eq_ok_iff.1 htoken, run_callAuth_eq_ok hauthority⟩

/-- Such a program reads, changes, revokes or forwards only if the token is accepted. -/
theorem bearerAccepted_of_performs {headers : HeaderMap} {f : String → Authority → AppM Jwk α}
    (h : Performs (app.exec env) AppOp.IsEffect (ExceptT.run (do
      let token ← orUnauthorized (bearerToken headers)
      let authority ← callAuth (AuthService.validateToken app.lib app.adapter token)
      f token authority)) w) : app.BearerAccepted env w headers := by
  -- neither of the two checks has an effect itself
  rw [Interaction.Prog.performs_except_bind] at h
  rcases h with h | ⟨token, htoken, h⟩
  · exact absurd h (only_orUnauthorized _).not_performs
  rw [Interaction.Prog.performs_except_bind] at h
  rcases h with h | ⟨authority, hauthority, -⟩
  · exact absurd h (only_callAuth (only_validateToken token)).not_performs
  · rw [run_orUnauthorized_snd] at hauthority
    exact ⟨token, authority, run_orUnauthorized_eq_ok_iff.1 htoken, run_callAuth_eq_ok hauthority⟩

theorem bearerAccepted_of_requireAuth {headers : HeaderMap} {f : Authority → AppM Jwk α}
    (h : Performs (app.exec env) AppOp.IsEffect (app.requireAuth headers >>= f).run w) :
    app.BearerAccepted env w headers := by
  rw [Interaction.Prog.performs_except_bind] at h
  rcases h with h | ⟨authority, hauthority, -⟩
  · exact bearerAccepted_of_performs h
  · exact bearerAccepted_of_run hauthority

theorem performs_answer (x : AppM Jwk Response) :
    Performs (app.exec env) AppOp.IsEffect (answer x).run w ↔
      Performs (app.exec env) AppOp.IsEffect x.run w := by
  rw [answer, Interaction.Prog.performs_except_bind, or_iff_left_iff_imp]
  rintro ⟨resp, -, h⟩
  exact h.elim

/-- When the telemetry proxy forwards. -/
theorem performs_telemetryProxy {headers : HeaderMap} {body : List UInt8} :
    Performs (app.exec env) AppOp.IsEffect (app.telemetryProxy headers body).run w ↔
      (∃ b, app.extractors.bytes body = .ok b) ∧ (headers.get "authorization").isSome := by
  rw [telemetryProxy]
  cases hb : app.extractors.bytes body with
  | error e => exact ⟨False.elim, fun ⟨⟨b, h⟩, _⟩ => (by cases h)⟩
  | ok b =>
      cases hh : headers.get "authorization" with
      | none => exact ⟨False.elim, fun ⟨_, h⟩ => (by cases h)⟩
      | some v => exact ⟨fun _ => ⟨⟨b, rfl⟩, rfl⟩, fun _ => .inl trivial⟩

/-- When the demo trigger comes to the settings. -/
theorem performs_demoConfig {token key : String} {headers : HeaderMap} {body : List UInt8} :
    Performs (app.exec env) AppOp.IsEffect (app.demoConfig token key headers body).run w ↔
      ((headers.get "x-demo-token").bind toStr).getD "" = token ∧
      (∃ text k, app.extractors.path key = .ok text ∧ SettingKey.new text = .ok k) ∧
      ∃ b v, app.extractors.upsert headers body = .ok b ∧ SettingValue.new b = .ok v := by
  rw [demoConfig]
  cases hpath : app.extractors.path key with
  | error e => exact ⟨False.elim, fun ⟨_, ⟨_, _, h, _⟩, _⟩ => (by cases h)⟩
  | ok text =>
      cases hbody : app.extractors.upsert headers body with
      | error e => exact ⟨False.elim, fun ⟨_, _, _, _, h, _⟩ => (by cases h)⟩
      | ok b =>
          by_cases htoken : ((headers.get "x-demo-token").bind toStr).getD "" = token
          · simp only [extract_bind_ok, htoken, ne_eq, not_true, if_false, true_and]
            -- the first call on the settings is the read of the current version
            cases hk : SettingKey.new text with
            | error e =>
                exact ⟨False.elim, fun ⟨⟨_, _, h, h'⟩, _⟩ => by cases h; rw [hk] at h'; cases h'⟩
            | ok k =>
                cases hv : SettingValue.new b with
                | error e =>
                    exact ⟨False.elim, fun ⟨_, _, _, h, h'⟩ => by cases h; rw [hv] at h'; cases h'⟩
                | ok v =>
                    refine ⟨fun _ => ⟨⟨text, k, rfl, hk⟩, b, v, rfl, hv⟩, fun _ => ?_⟩
                    simp only [callHandler_check_ok]
                    rw [Interaction.Prog.performs_except_bind, ExceptT.run_mk,
                      Interaction.Prog.performs_bind, Service.get, Repo.run_find_bind]
                    exact .inl (.inl (.inl trivial))
          · simp only [extract_bind_ok, htoken, ne_eq, not_false_eq_true, if_true, false_and,
              iff_false]
            exact False.elim

theorem only_readyz : Only (fun o : AppOp Jwk => ¬ o.IsEffect) (@readyz Jwk).run :=
  (only_call id).except_bind fun r => by cases r <;> exact trivial

theorem only_metricsHandler :
    Only (fun o : AppOp Jwk => ¬ o.IsEffect) (@metricsHandler Jwk).run :=
  (only_call id).except_bind fun r => by cases r <;> exact trivial

/-- Handling a request is running its route. -/
theorem performs_handle {req : HttpRequest} :
    Performs (app.exec env) AppOp.IsEffect (app.handle req) w ↔
      req.method ≠ .options ∧ Performs (app.exec env) AppOp.IsEffect (app.route req).run w := by
  rw [handle]
  by_cases ho : req.method = .options
  · simp only [ho, if_true, ne_eq, not_true, false_and, iff_false]
    exact id
  · simp only [ho, if_false, ne_eq, not_false_eq_true, true_and, Interaction.Prog.performs_bind]
    exact or_iff_left id

/-- The telemetry proxy forwards the body of the request. -/
structure Forwards (app : App Jwk Key) (req : HttpRequest) : Prop where
  route : req.route = .telemetry
  method : req.method = .post
  authorization : (req.headers.get "authorization").isSome
  body : ∃ body, app.extractors.bytes req.body = .ok body

/-- The demo trigger, whose token is `token`, comes to the settings. -/
structure Triggers (app : App Jwk Key) (req : HttpRequest) (key token : String) : Prop where
  route : req.route = .demoConfig key
  method : req.method = .post
  configured : app.config.demoTriggerToken = some token
  provided : ((req.headers.get "x-demo-token").bind toStr).getD "" = token
  key : ∃ text k, app.extractors.path key = .ok text ∧ SettingKey.new text = .ok k
  value : ∃ body v, app.extractors.upsert req.headers req.body = .ok body ∧
    SettingValue.new body = .ok v

theorem Forwards.performs {req : HttpRequest} (h : app.Forwards req) :
    Performs (app.exec env) AppOp.IsEffect (app.handle req) w := by
  refine performs_handle.2 ⟨by rw [h.method]; exact Method.noConfusion, ?_⟩
  rw [App.route, h.route]
  simp only [h.method, if_true]
  exact (performs_answer _).2 (performs_telemetryProxy.2 ⟨h.body, h.authorization⟩)

theorem Triggers.performs {req : HttpRequest} {key token : String}
    (h : app.Triggers req key token) :
    Performs (app.exec env) AppOp.IsEffect (app.handle req) w := by
  refine performs_handle.2 ⟨by rw [h.method]; exact Method.noConfusion, ?_⟩
  rw [App.route, h.route]
  simp only [h.configured, h.method, if_true]
  exact (performs_answer _).2 (performs_demoConfig.2 ⟨h.provided, h.key, h.value⟩)

/-- **What a request comes with that reads, changes, revokes or forwards.** -/
theorem performs_cases {req : HttpRequest}
    (h : Performs (app.exec env) AppOp.IsEffect (app.handle req) w) :
    app.BearerAccepted env w req.headers ∨ app.Forwards req ∨
      ∃ key token, app.Triggers req key token := by
  obtain ⟨-, h⟩ := performs_handle.1 h
  rw [App.route] at h
  cases hroute : req.route with
  | settings query =>
      simp only [hroute] at h
      exact .inl (bearerAccepted_of_requireAuth h)
  | setting key =>
      simp only [hroute] at h
      exact .inl (bearerAccepted_of_requireAuth h)
  | logout =>
      simp only [hroute] at h
      split_ifs at h
      · exact .inl (bearerAccepted_of_performs ((performs_answer _).1 h))
      · exact h.elim
  | healthz =>
      simp only [hroute] at h
      split_ifs at h <;> exact h.elim
  | readyz =>
      simp only [hroute] at h
      split_ifs at h
      · exact absurd ((performs_answer _).1 h) (only_readyz).not_performs
      · exact h.elim
  | metrics =>
      simp only [hroute] at h
      split_ifs at h
      · exact absurd ((performs_answer _).1 h) (only_metricsHandler).not_performs
      · exact h.elim
  | telemetry =>
      simp only [hroute] at h
      split_ifs at h with hpost
      · obtain ⟨hbody, hheader⟩ := performs_telemetryProxy.1 ((performs_answer _).1 h)
        exact .inr (.inl ⟨hroute, hpost, hheader, hbody⟩)
      · exact h.elim
  | demoConfig key =>
      simp only [hroute] at h
      cases htoken : app.config.demoTriggerToken with
      | none =>
          simp only [htoken] at h
          exact h.elim
      | some token =>
          simp only [htoken] at h
          split_ifs at h with hpost
          · obtain ⟨hprovided, hkey, hvalue⟩ := performs_demoConfig.1 ((performs_answer _).1 h)
            exact .inr (.inr ⟨key, token, hroute, hpost, htoken, hprovided, hkey, hvalue⟩)
          · exact h.elim

/-- The demo trigger with a token that is not empty was given it. -/
theorem Triggers.demoAccepted {req : HttpRequest} {key token : String}
    (h : app.Triggers req key token) (hne : token ≠ "") : app.DemoAccepted req := by
  refine ⟨key, token, h.route, h.configured, hne, ?_⟩
  have hprovided := h.provided
  cases hheader : (req.headers.get "x-demo-token").bind toStr with
  | none =>
      rw [hheader] at hprovided
      exact absurd hprovided.symm hne
  | some provided =>
      rw [hheader] at hprovided
      exact congrArg some hprovided

/-- **The router is default-deny exactly where the two gaps are closed.** -/
theorem defaultDeny_iff (app : App Jwk Key) (env : AppEnv Jwk) (w : AppWorld Jwk)
    (req : HttpRequest) : app.DefaultDeny env w req ↔ app.Guarded env w req := by
  constructor
  · intro hdeny
    constructor
    · intro hroute hpost hheader hbody
      have hforwards : app.Forwards req := ⟨hroute, hpost, hheader, hbody⟩
      rcases hdeny hforwards.performs with h | ⟨key, token, hroute', -⟩
      · exact h
      · rw [hroute] at hroute'
        cases hroute'
    · intro key hroute hpost htoken hprovided hkey hvalue
      have htriggers : app.Triggers req key "" := ⟨hroute, hpost, htoken, hprovided, hkey, hvalue⟩
      rcases hdeny htriggers.performs with h | ⟨key', token, -, htoken', hne, -⟩
      · exact h
      · rw [htoken] at htoken'
        exact absurd (Option.some.inj htoken').symm hne
  · intro hguarded hperforms
    rcases performs_cases hperforms with h | hforwards | ⟨key, token, htriggers⟩
    · exact .inl h
    · exact .inl (hguarded.1 hforwards.route hforwards.method hforwards.authorization
        hforwards.body)
    · by_cases hempty : token = ""
      -- the empty token is the one a request without the header presents
      · subst hempty
        exact .inl (hguarded.2 key htriggers.route htriggers.method htriggers.configured
          htriggers.provided htriggers.key htriggers.value)
      · exact .inr (htriggers.demoAccepted hempty)

end Effects

end App

/-! ### A body without an accepted token -/

namespace Sample

/-- The variables that are required. -/
def vars : String → Option String
  | "DATABASE_URL" => some "postgres://db"
  | "AUTH_ISSUER" => some "idp"
  | "AUTH_AUDIENCE" => some "settings"
  | _ => none

/-- The application configured by them, with extractors that accept every body. -/
def app (config : Config) : App String String where
  config := config
  lib := lib token
  extractors := ⟨.ok, fun _ => .ok ⟨none, none, none⟩, fun _ _ => .ok (member "color" "dark"), .ok⟩
  base := ⟨0, 0⟩
  rfc3339 := toString

/-- Everything around it answers. -/
def around : AppEnv String := ⟨ticking 0, Postgres.ofJsonb id, true, some "", true⟩

/-- Nothing has happened yet. -/
def fresh : AppWorld String := ⟨.new 0, Table.empty, ∅, []⟩

/-- A body for the collector, with the single letter `x` for a credential. -/
def telemetry : HttpRequest := ⟨.post, .telemetry, [("authorization", [120])], [1, 2, 3]⟩

end Sample

/-- The proxy forwards a body that comes with any `Authorization` header. -/
theorem App.not_defaultDeny : ¬ ∀ (var : String → Option String) (config : Config),
    Config.fromEnv var = .ok config → ∀ (app : App String String), app.config = config →
      ∀ env w req, app.DefaultDeny env w req := by
  intro h
  obtain ⟨config, hconfig⟩ : ∃ config, Config.fromEnv Sample.vars = .ok config := ⟨_, rfl⟩
  have hdeny := h _ _ hconfig (Sample.app config) rfl Sample.around Sample.fresh Sample.telemetry
  have hforwards : (Sample.app config).Forwards Sample.telemetry := ⟨rfl, rfl, rfl, _, rfl⟩
  rcases hdeny hforwards.performs with ⟨token, -, htoken, -⟩ | ⟨key, token, hroute, -⟩
  · have hnone : bearerToken Sample.telemetry.headers = none := by decide
    rw [hnone] at htoken
    cases htoken
  · cases hroute

end SettingsService
