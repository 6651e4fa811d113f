import SettingsService.RouterRuns

/-!
# What a request over HTTP asks the service

A request to the settings that was let through makes one request of the service: its key, its value
and its precondition are those of the path, the body and the `If-Match` header, and its authority is
that of the bearer token.  The response is made of what the service returns.

Main definitions:

* `entryResult` — what a handler makes of the result;
* `App.Makes` — the request of the service that a request over HTTP makes under an authority;
* `App.Came` — a request has come to the settings.

Main results:

* `service_bind_eq` — a handler is a request of the service and what is made of its result;
* `App.came_settingsEntry` — the handlers of `/settings/:key`;
* `App.came_of_follows` — **a request that came to the settings made a request of the service**, and
  its response is made of the result.
-/

set_option relaxedAutoImplicit false
set_option autoImplicit false

namespace SettingsService

open Interaction (Prog Snapshot Event Reachable Answered own)
open Interaction.Prog (Follows follows_pure_iff follows_call_iff follows_of_except_bind_pure)

variable {Jwk Key α : Type} {base : Anchor} {rfc3339 : ℤ → String} {auth : Authority}

/-! ### Handlers as requests of the service -/

/-- What a handler of `/settings/:key` makes of the result of its request, which is never a page. -/
def entryResult (base : Anchor) (rfc3339 : ℤ → String) : Result → Except ApiError Response
  | .ok (.setting s) => .ok (etagResponse base rfc3339 s)
  | .ok .deleted => .ok ⟨204, [], ""⟩
  | .ok (.page _) => .error (.bug "")
  | .error e => .error (.ofSettings e)

/-- **A handler is a request of the service and what is made of its result.** -/
theorem service_bind_eq {x : Db α} {f : α → Response} {g : α → Reply}
    (h : ∀ a, entryResult base rfc3339 (.ok (g a)) = .ok (f a)) :
    (service x >>= fun a => (pure (f a) : Handler Response)).run =
      ((g <$> x).run >>= fun r => .pure (entryResult base rfc3339 r)) := by
  have hprog : ∀ p : Prog Stmt Stmt.Ret (Except SettingsError α),
      (service (ExceptT.mk p) >>= fun a => (pure (f a) : Handler Response)).run =
        ((g <$> ExceptT.mk p).run >>= fun r => .pure (entryResult base rfc3339 r)) := by
    intro p
    induction p with
    | pure a =>
        cases a with
        | error e => rfl
        | ok a => exact congrArg Prog.pure (h a).symm
    | call o k ih => exact congrArg (Prog.call _) (funext fun r => ih r)
  exact hprog x.run

/-- A handler refuses before it comes to the service, or makes a request that satisfies `Q`. -/
def HandlerMakes (base : Anchor) (rfc3339 : ℤ → String) (Q : Request → Prop)
    (x : Handler Response) : Prop :=
  (∃ e, x.run = .pure (.error e)) ∨
    ∃ q, Q q ∧ x.run = (q.prog base >>= fun r => .pure (entryResult base rfc3339 r))

section Handlers

variable {Q : Request → Prop}

theorem handlerMakes_check {x : Except SettingsError α} {f : α → Handler Response}
    (hf : ∀ a, x = .ok a → HandlerMakes base rfc3339 Q (f a)) :
    HandlerMakes base rfc3339 Q (check x >>= f) := by
  cases x with
  | error e => exact .inl ⟨_, rfl⟩
  | ok a => exact hf a rfl

theorem handlerMakes_requireIfMatch {headers : HeaderMap} {f : ℕ → Handler Response}
    (hf : ∀ n, ifMatch headers = some n → HandlerMakes base rfc3339 Q (f n)) :
    HandlerMakes base rfc3339 Q (requireIfMatch headers >>= f) := by
  rw [requireIfMatch]
  cases hm : ifMatch headers with
  | none => exact .inl ⟨_, rfl⟩
  | some n => exact hf n hm

theorem handlerMakes_getSetting {key : String}
    (hQ : ∀ k, SettingKey.new key = .ok k → Q (.get k auth)) :
    HandlerMakes base rfc3339 Q (getSetting base rfc3339 key auth) :=
  handlerMakes_check fun k hk => .inr ⟨.get k auth, hQ k hk, service_bind_eq fun _ => rfl⟩

theorem handlerMakes_putSetting {key : String} {headers : HeaderMap} {body : Value} {now : Instant}
    (hQ : ∀ k v, SettingKey.new key = .ok k → SettingValue.new body = .ok v →
      Q (.write (.put k v auth (ifMatch headers) now))) :
    HandlerMakes base rfc3339 Q (putSetting base rfc3339 key headers body auth now) :=
  handlerMakes_check fun k hk => handlerMakes_check fun v hv =>
    .inr ⟨.write (.put k v auth (ifMatch headers) now), hQ k v hk hv, service_bind_eq fun _ => rfl⟩

theorem handlerMakes_patchSetting {key : String} {headers : HeaderMap} {body : Value}
    {now : Instant} (hQ : ∀ k v n, SettingKey.new key = .ok k → SettingValue.new body = .ok v →
      ifMatch headers = some n → Q (.write (.patch k v auth n now))) :
    HandlerMakes base rfc3339 Q (patchSetting base rfc3339 key headers body auth now) :=
  handlerMakes_check fun k hk => handlerMakes_check fun v hv =>
    handlerMakes_requireIfMatch fun n hn =>
      .inr ⟨.write (.patch k v auth n now), hQ k v n hk hv hn, service_bind_eq fun _ => rfl⟩

theorem handlerMakes_deleteSetting {key : String} {headers : HeaderMap}
    (hQ : ∀ k n, SettingKey.new key = .ok k → ifMatch headers = some n →
      Q (.write (.delete k auth n))) :
    HandlerMakes base rfc3339 Q (deleteSetting base key headers auth) :=
  handlerMakes_check fun k hk => handlerMakes_requireIfMatch fun n hn =>
    .inr ⟨.write (.delete k auth n), hQ k n hk hn, service_bind_eq fun _ => rfl⟩

end Handlers

/-! ### Requests over HTTP -/

namespace App

/-- **The request of the service that a request over HTTP makes** under an authority. -/
inductive Makes (app : App Jwk Key) (req : HttpRequest) (auth : Authority) : Request → Prop
  | search {query : String} {q : ListQuery} (pagination : Pagination)
      (hroute : req.route = .settings query) (hmethod : req.method = .get ∨ req.method = .head)
      (hquery : app.extractors.query query = .ok q) :
      Makes app req auth (.search (q.query.getD "") auth pagination)
  | get {key text : String} {k : SettingKey} (hroute : req.route = .setting key)
      (hmethod : req.method = .get ∨ req.method = .head)
      (hpath : app.extractors.path key = .ok text) (hkey : SettingKey.new text = .ok k) :
      Makes app req auth (.get k auth)
  | put {key text : String} {k : SettingKey} {body : Value} {v : SettingValue} (now : Instant)
      (hroute : req.route = .setting key) (hmethod : req.method = .put)
      (hpath : app.extractors.path key = .ok text) (hkey : SettingKey.new text = .ok k)
      (hbody : app.extractors.upsert req.headers req.body = .ok body)
      (hvalue : SettingValue.new body = .ok v) :
      Makes app req auth (.write (.put k v auth (ifMatch req.headers) now))
  | patch {key text : String} {k : SettingKey} {body : Value} {v : SettingValue} {n : ℕ}
      (now : Instant) (hroute : req.route = .setting key) (hmethod : req.method = .patch)
      (hpath : app.extractors.path key = .ok text) (hkey : SettingKey.new text = .ok k)
      (hbody : app.extractors.upsert req.headers req.body = .ok body)
      (hvalue : SettingValue.new body = .ok v) (hn : ifMatch req.headers = some n) :
      Makes app req auth (.write (.patch k v auth n now))
  | delete {key text : String} {k : SettingKey} {n : ℕ} (hroute : req.route = .setting key)
      (hmethod : req.method = .delete) (hpath : app.extractors.path key = .ok text)
      (hkey : SettingKey.new text = .ok k) (hn : ifMatch req.headers = some n) :
      Makes app req auth (.write (.delete k auth n))

/-- The calls of a handler of the settings have come to the settings, with a request that it makes
under the authority; and where the handler is one of `/settings/:key`, what it returns is made of
the result. -/
structure Came (app : App Jwk Key) (req : HttpRequest) (auth : Authority) (tr : AppTrace Jwk)
    (p : Prog (AppOp Jwk) AppOp.Ret (Except Response (Option Response))) (q : Request)
    (y : Prog Stmt Stmt.Ret Result) : Prop where
  makes : app.Makes req auth q
  follows : (q.prog app.base).Follows (statements tr) y
  returns : ∀ key, req.route = .setting key → ∀ r, p = .pure r → ∃ x, y = .pure x ∧
    r = ((entryResult app.base app.rfc3339 x).mapError ApiError.intoResponse).map some

variable {app : App Jwk Key} {req : HttpRequest} {tr : AppTrace Jwk}
  {p : Prog (AppOp Jwk) AppOp.Ret (Except Response (Option Response))}

/-- A handler of the settings that has run a statement has come to the settings. -/
theorem came_of_handlerMakes {x : Handler Response}
    (hx : HandlerMakes app.base app.rfc3339 (app.Makes req auth) x)
    (h : Follows (answer (callHandler x)).run tr p) :
    statements tr = [] ∨ ∃ q y, app.Came req auth tr p q y := by
  obtain ⟨z, hz, rfl⟩ := follows_of_except_bind_pure (fun _ => ⟨_, rfl⟩) h
  obtain ⟨ts, y, rfl, hy, hreturns⟩ := follows_callHandler hz
  rw [statements_map_stmtCall]
  rcases hx with ⟨e, he⟩ | ⟨q, hq, hprog⟩
  · rw [he] at hy
    exact .inl (follows_pure_iff.1 hy).1
  · rw [hprog] at hy
    obtain ⟨y', hy', rfl⟩ := Interaction.Prog.follows_of_bind_pure (fun _ => ⟨_, rfl⟩) hy
    refine .inr ⟨q, y', hq, by rwa [statements_map_stmtCall], fun _ _ r hr => ?_⟩
    cases z with
    | call o k => cases hr
    | pure r₁ =>
        obtain ⟨r₂, hr₂, rfl⟩ := hreturns r₁ rfl
        cases y' with
        | call o k => cases hr₂
        | pure x =>
            cases hr₂
            refine ⟨x, rfl, ?_⟩
            cases hres : entryResult app.base app.rfc3339 x with
            | error e =>
                rw [hres] at hr
                exact (Prog.pure.inj hr).symm
            | ok resp =>
                rw [hres] at hr
                exact (Prog.pure.inj hr).symm

theorem came_extract {x : Except Response α} {f : α → AppM Jwk (Option Response)}
    (hf : ∀ a, x = .ok a → Follows (f a).run tr p →
      statements tr = [] ∨ ∃ q y, app.Came req auth tr p q y)
    (h : Follows (extract x >>= f).run tr p) :
    statements tr = [] ∨ ∃ q y, app.Came req auth tr p q y := by
  cases x with
  | error e =>
      obtain ⟨rfl, -⟩ := follows_pure_iff.1 h
      exact .inl rfl
  | ok a => exact hf a rfl h

/-- A handler that reads the clock before it goes on. -/
theorem came_instant {x : Instant → Handler Response}
    (hx : ∀ now, HandlerMakes app.base app.rfc3339 (app.Makes req auth) (x now))
    (h : Follows (call (.auth .instant) >>= fun now => answer (callHandler (x now))).run tr p) :
    statements tr = [] ∨ ∃ q y, app.Came req auth tr p q y := by
  rcases follows_call_iff.1 h with ⟨rfl, -⟩ | ⟨now, tr, rfl, hk⟩
  · exact .inl rfl
  · rcases came_of_handlerMakes (hx now) hk with hnil | ⟨q, y, hcame⟩
    · exact .inl hnil
    · exact .inr ⟨q, y, hcame.makes, hcame.follows, hcame.returns⟩

/-- **The handlers of `/settings/:key`.** -/
theorem came_settingsEntry {key : String} (hroute : req.route = .setting key)
    (h : Follows (app.settingsEntry req.method key req.headers req.body auth).run tr p) :
    statements tr = [] ∨ ∃ q y, app.Came req auth tr p q y := by
  cases hm : req.method with
  | get | head =>
      rw [hm] at h
      exact came_extract (fun text ht h => came_of_handlerMakes
        (handlerMakes_getSetting fun k hk => .get hroute (by rw [hm]; simp) ht hk) h) h
  | put =>
      rw [hm] at h
      exact came_extract (fun text ht h => came_extract (fun body hb h => came_instant
        (fun now => handlerMakes_putSetting fun k v hk hv => .put now hroute hm ht hk hb hv) h) h) h
  | patch =>
      rw [hm] at h
      exact came_extract (fun text ht h => came_extract (fun body hb h => came_instant
        (fun now => handlerMakes_patchSetting fun k v n hk hv hn =>
          .patch now hroute hm ht hk hb hv hn) h) h) h
  | delete =>
      rw [hm] at h
      exact came_extract (fun text ht h => came_of_handlerMakes
        (handlerMakes_deleteSetting fun k n hk hn => .delete hroute hm ht hk hn) h) h
  | post | options | other =>
      rw [hm] at h
      obtain ⟨rfl, -⟩ := follows_pure_iff.1 h
      exact .inl rfl

/-- **The handlers of `/settings`.** -/
theorem came_settingsCollection {query : String} (hroute : req.route = .settings query)
    (h : Follows (app.settingsCollection req.method query req.headers auth).run tr p) :
    statements tr = [] ∨ ∃ q y, app.Came req auth tr p q y := by
  have hserves : Serves app.base (app.Makes req auth) tr := by
    cases hm : req.method with
    | get | head =>
        rw [hm] at h
        exact serves_extract (fun q p hq h => serves_callHandler (fun _ _ =>
          runsOne_listSettings fun pagination =>
            .search pagination hroute (by rw [hm]; simp) hq) h) h
    | post | put | patch | delete | options | other =>
        rw [hm] at h
        obtain ⟨rfl, -⟩ := follows_pure_iff.1 h
        exact .nil
  rcases hserves.runsOne with hnil | ⟨q, y, hq, hy⟩
  · exact .inl hnil
  · refine .inr ⟨q, y, hq, hy, fun key hkey => ?_⟩
    rw [hroute] at hkey
    cases hkey

/-- **A request that came to the settings made a request of the service** under the authority of a
token that was let through, where the demo trigger is off. -/
theorem came_of_follows (hdemo : app.config.demoTriggerToken = none)
    {p : Prog (AppOp Jwk) AppOp.Ret (Option Response)} (h : (app.handle req).Follows tr p) :
    statements tr = [] ∨ ∃ token auth t₁ t₂ z q y, tr = t₁ ++ t₂ ∧
      app.Admitted "tenant:" req.headers token auth t₁ ∧ app.Came req auth t₂ z q y ∧
      p = (z >>= fun r => .pure (finish req r)) := by
  -- what stands behind `require_auth`
  have hguarded : ∀ {f : Authority → AppM Jwk (Option Response)} {y},
      (∀ auth t z, Follows (f auth).run t z →
        statements t = [] ∨ ∃ q y, app.Came req auth t z q y) →
      Follows (app.requireAuth req.headers >>= f).run tr y →
      p = (y >>= fun r => .pure (finish req r)) → statements tr = [] ∨
        ∃ token auth t₁ t₂ z q y, tr = t₁ ++ t₂ ∧ app.Admitted "tenant:" req.headers token auth t₁ ∧
          app.Came req auth t₂ z q y ∧ p = (z >>= fun r => .pure (finish req r)) := by
    intro f y hf hy hp
    rcases follows_requireAuth hy with ⟨⟨tv, rfl, -⟩, -⟩ | ⟨token, auth, ⟨tv, -, -, rfl⟩ |
      ⟨t₁, t₂, rfl, ha, h₂⟩⟩
    · exact .inl (statements_map_authCall tv)
    · left
      rw [statements_append, statements_map_authCall]
      rfl
    · rcases hf auth t₂ y h₂ with hnil | ⟨q, y', hcame⟩
      · left
        rw [statements_append, ha.statements, hnil, List.append_nil]
      · exact .inr ⟨token, auth, t₁, t₂, y, q, y', rfl, ha, hcame, hp⟩
  by_cases hoptions : req.method = .options
  · rw [handle, if_pos hoptions] at h
    obtain ⟨rfl, -⟩ := follows_pure_iff.1 h
    exact .inl rfl
  by_cases hsettings : req.route.IsSettings
  · rw [handle, if_neg hoptions] at h
    obtain ⟨y, hy, hp⟩ := Interaction.Prog.follows_of_bind_pure (fun _ => ⟨_, rfl⟩) h
    rw [route] at hy
    cases hroute : req.route with
    | settings query =>
        rw [hroute] at hy
        exact hguarded (fun _ _ _ => came_settingsCollection hroute) hy hp
    | setting key =>
        rw [hroute] at hy
        exact hguarded (fun _ _ _ => came_settingsEntry hroute) hy hp
    | logout | healthz | readyz | metrics | telemetry | demoConfig =>
        rw [hroute] at hsettings
        exact hsettings.elim
  · -- the other routes come to no settings
    rcases (handles_of_follows h).statements_cases with hnil |
      ⟨hroute, -⟩ | ⟨⟨key, token, htriggers⟩, -⟩
    · exact .inl hnil
    · exact absurd hroute hsettings
    · have hconfigured := htriggers.configured
      rw [hdemo] at hconfigured
      cases hconfigured

end App

end SettingsService
