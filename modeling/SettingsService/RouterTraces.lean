import SettingsService.Router
import SettingsService.Subruns
import SettingsService.TenantIsolation

/-!
# The calls of a request

What a request to the router performs, up to any point of its handling: `require_auth` validates
its bearer token and asks the limiter, and only then the handlers of the settings slice run the
statements of one request of the service, under the authority of the token.  The demo trigger reads
and writes without either.

Main definitions:

* `authCall`, `stmtCall` — the calls of the auth slice and of the service, as calls of the
  application;
* `App.Admitted` — the calls by which `require_auth` lets an authority through;
* `RunsOne`, `RunsTwo` — the statements of at most one request, and those of the demo trigger;
* `Serves` — the calls of a handler that runs at most the statements of one request;
* `App.Handles` — what a request has performed and has left to do.

Main results:

* `App.serves_settingsCollection`, `App.serves_settingsEntry` — the handlers of the settings slice
  run at most one request of the service each;
* `App.follows_requireAuth` — `require_auth` and what comes after it;
* `App.handles_of_follows` — **what a request has performed, up to any point of its handling**;
* `App.Handles.statements_cases` — the statements of a request.
-/

set_option relaxedAutoImplicit false
set_option autoImplicit false

namespace SettingsService

open Interaction (Prog Answered)
open Interaction.Prog (Follows Only follows_pure_iff follows_call_iff follows_except_bind)

variable {Jwk Key : Type} {α β : Type}

/-! ### Parts of a trace -/

/-- Calls of the application with their answers. -/
abbrev AppTrace (Jwk : Type) : Type := List (Answered (AppOp Jwk) AppOp.Ret)

/-- Calls of the auth slice with their answers. -/
abbrev AuthTrace (Jwk : Type) : Type := List (Answered (AuthOp Jwk) AuthOp.Ret)

/-- Statements with their answers. -/
abbrev StmtTrace : Type := List (Answered Stmt Stmt.Ret)

/-- A call of the auth slice with its answer, as one of the application. -/
def authCall (x : Answered (AuthOp Jwk) AuthOp.Ret) : Answered (AppOp Jwk) AppOp.Ret :=
  ⟨.auth x.1, x.2⟩

/-- A statement with its answer, as a call of the application. -/
def stmtCall (x : Answered Stmt Stmt.Ret) : Answered (AppOp Jwk) AppOp.Ret := ⟨.settings x.1, x.2⟩

/-- The statement of a call. -/
def AppOp.stmt? : Answered (AppOp Jwk) AppOp.Ret → Option (Answered Stmt Stmt.Ret)
  | ⟨.settings s, r⟩ => some ⟨s, r⟩
  | _ => none

/-- The statements of a trace. -/
def statements (tr : AppTrace Jwk) : StmtTrace := tr.filterMap AppOp.stmt?

@[simp] theorem statements_nil : statements ([] : AppTrace Jwk) = [] := rfl

@[simp] theorem statements_append (tr tr' : AppTrace Jwk) :
    statements (tr ++ tr') = statements tr ++ statements tr' := List.filterMap_append

@[simp] theorem statements_map_authCall (tv : AuthTrace Jwk) :
    statements (tv.map authCall) = [] := by
  rw [statements, List.filterMap_map, List.filterMap_eq_nil_iff]
  exact fun x _ => rfl

@[simp] theorem statements_map_stmtCall (ts : StmtTrace) :
    statements (ts.map stmtCall : AppTrace Jwk) = ts := by
  rw [statements, List.filterMap_map]
  exact (List.filterMap_congr fun x _ => rfl).trans List.filterMap_some

/-- A program of the auth slice makes calls of the auth slice. -/
theorem follows_translate_auth {x : Prog (AuthOp Jwk) AuthOp.Ret α} {tr : AppTrace Jwk}
    {p : Prog (AppOp Jwk) AppOp.Ret α} (h : Follows (x.translate AppOp.auth fun _ r => r) tr p) :
    ∃ tv y, tr = tv.map authCall ∧ x.Follows tv y ∧ p = y.translate AppOp.auth fun _ r => r := by
  obtain ⟨tv, y, hx, hp, hall⟩ := Interaction.Prog.follows_translate h
  refine ⟨tv, y, ?_, hx, hp⟩
  clear h hx
  induction hall with
  | nil => rfl
  | cons hxy _ ih =>
      obtain ⟨r, rfl, rfl⟩ := hxy
      rw [List.map_cons, ← ih]
      rfl

/-- A program of the settings slice runs statements. -/
theorem follows_translate_settings {x : Prog Stmt Stmt.Ret α} {tr : AppTrace Jwk}
    {p : Prog (AppOp Jwk) AppOp.Ret α}
    (h : Follows (x.translate AppOp.settings fun _ r => r) tr p) :
    ∃ ts y, tr = ts.map stmtCall ∧ x.Follows ts y ∧
      p = y.translate AppOp.settings fun _ r => r := by
  obtain ⟨ts, y, hx, hp, hall⟩ := Interaction.Prog.follows_translate h
  refine ⟨ts, y, ?_, hx, hp⟩
  clear h hx
  induction hall with
  | nil => rfl
  | cons hxy _ ih =>
      obtain ⟨r, rfl, rfl⟩ := hxy
      rw [List.map_cons, ← ih]
      rfl

/-! ### Handlers of the settings slice -/

/-- The statements of a handler are those of one request of the service, if there are any. -/
def RunsOne (base : Anchor) (Q : Request → Prop) (ts : StmtTrace) : Prop :=
  ts = [] ∨ ∃ (q : Request) (y : Prog Stmt Stmt.Ret Result), Q q ∧ (q.prog base).Follows ts y

section Handlers

variable {base : Anchor} {rfc3339 : ℤ → String} {auth : Authority} {Q : Request → Prop}
  {ts : StmtTrace}

theorem RunsOne.nil : RunsOne base Q [] := .inl rfl

theorem RunsOne.imp {Q' : Request → Prop} (h : RunsOne base Q ts) (hQ : ∀ q, Q q → Q' q) :
    RunsOne base Q' ts :=
  Or.imp_right (fun ⟨q, y, hq, hy⟩ => ⟨q, y, hQ q hq, hy⟩) h

/-- The request, or any one where there is no statement. -/
theorem RunsOne.exists_request (h : RunsOne base Q ts) :
    ∃ q y, (ts ≠ [] → Q q) ∧ (q.prog base).Follows ts y := by
  rcases h with rfl | ⟨q, y, hq, hy⟩
  · exact ⟨.search "" ⟨⟨""⟩, ⟨""⟩, .user⟩ ⟨1, 1, by decide, by decide, by decide⟩, _, by simp,
      .refl _⟩
  · exact ⟨q, y, fun _ => hq, hy⟩

/-- A request of the service whose reply is made of what a method returns. -/
theorem RunsOne.of_method {x : Db α} {g : α → Reply} {q : Request}
    {y : Prog Stmt Stmt.Ret (Except SettingsError α)} (hq : q.prog base = (g <$> x).run) (hQ : Q q)
    (h : x.run.Follows ts y) : RunsOne base Q ts := by
  obtain ⟨z, hz⟩ : ∃ z, Follows (g <$> x).run ts z := ⟨_, h.bind⟩
  exact .inr ⟨q, z, hQ, hq ▸ hz⟩

/-- The statements of a handler name the tenant of its authority. -/
theorem RunsOne.tenant (h : RunsOne base Q ts) (hQ : ∀ q, Q q → q.authority = auth)
    {x : Answered Stmt Stmt.Ret} (hx : x ∈ ts) : x.1.tenant = auth.tenant.asStr := by
  rcases h with rfl | ⟨q, y, hq, hy⟩
  · cases hx
  · rw [← hQ q hq]
    exact (q.only_prog base).of_mem hy hx

/-- A value is checked before the handler goes on. -/
theorem runsOne_check {x : Except SettingsError α} {f : α → Handler β}
    {p : Prog Stmt Stmt.Ret (Except ApiError β)}
    (hf : ∀ a p, x = .ok a → Follows (f a).run ts p → RunsOne base Q ts)
    (h : Follows (check x >>= f).run ts p) : RunsOne base Q ts := by
  cases x with
  | error e =>
      obtain ⟨rfl, -⟩ := follows_pure_iff.1 h
      exact .nil
  | ok a => exact hf a p rfl h

/-- The handler goes on with the version of the `If-Match` header. -/
theorem runsOne_requireIfMatch {headers : HeaderMap} {f : ℕ → Handler β}
    {p : Prog Stmt Stmt.Ret (Except ApiError β)}
    (hf : ∀ n p, ifMatch headers = some n → Follows (f n).run ts p → RunsOne base Q ts)
    (h : Follows (requireIfMatch headers >>= f).run ts p) : RunsOne base Q ts := by
  rw [requireIfMatch] at h
  cases hm : ifMatch headers with
  | none =>
      rw [hm] at h
      obtain ⟨rfl, -⟩ := follows_pure_iff.1 h
      exact .nil
  | some n =>
      rw [hm] at h
      exact hf n p hm h

/-- A call of the service, and a response. -/
theorem follows_service {x : Db α} {f : α → Handler β} {p : Prog Stmt Stmt.Ret (Except ApiError β)}
    (hf : ∀ a, ∃ b, (f a).run = .pure b) (h : Follows (service x >>= f).run ts p) :
    ∃ y, x.run.Follows ts y := by
  obtain ⟨y, h, -⟩ := Interaction.Prog.follows_of_except_bind_pure hf h
  obtain ⟨z, h, -⟩ := Interaction.Prog.follows_of_bind_pure (fun r => ⟨_, rfl⟩) h
  exact ⟨z, h⟩

theorem runsOne_getSetting {key : String} {p : Prog Stmt Stmt.Ret (Except ApiError Response)}
    (hQ : ∀ k, Q (.get k auth)) (h : Follows (getSetting base rfc3339 key auth).run ts p) :
    RunsOne base Q ts := by
  refine runsOne_check (fun k p _ h => ?_) h
  obtain ⟨y, hy⟩ := follows_service (fun _ => ⟨_, rfl⟩) h
  exact .of_method (q := .get k auth) rfl (hQ k) hy

theorem runsOne_putSetting {key : String} {headers : HeaderMap} {body : Value} {now : Instant}
    {p : Prog Stmt Stmt.Ret (Except ApiError Response)}
    (hQ : ∀ k v, SettingKey.new key = .ok k → Q (.write (.put k v auth (ifMatch headers) now)))
    (h : Follows (putSetting base rfc3339 key headers body auth now).run ts p) :
    RunsOne base Q ts := by
  refine runsOne_check (fun k p hk h => runsOne_check (fun v p _ h => ?_) h) h
  obtain ⟨y, hy⟩ := follows_service (fun _ => ⟨_, rfl⟩) h
  exact .of_method (q := .write (.put k v auth (ifMatch headers) now)) rfl (hQ k v hk) hy

theorem runsOne_patchSetting {key : String} {headers : HeaderMap} {body : Value} {now : Instant}
    {p : Prog Stmt Stmt.Ret (Except ApiError Response)}
    (hQ : ∀ k v n, SettingKey.new key = .ok k → ifMatch headers = some n →
      Q (.write (.patch k v auth n now)))
    (h : Follows (patchSetting base rfc3339 key headers body auth now).run ts p) :
    RunsOne base Q ts := by
  refine runsOne_check (fun k p hk h => runsOne_check (fun v p _ h =>
    runsOne_requireIfMatch (fun n p hn h => ?_) h) h) h
  obtain ⟨y, hy⟩ := follows_service (fun _ => ⟨_, rfl⟩) h
  exact .of_method (q := .write (.patch k v auth n now)) rfl (hQ k v n hk hn) hy

theorem runsOne_deleteSetting {key : String} {headers : HeaderMap}
    {p : Prog Stmt Stmt.Ret (Except ApiError Response)}
    (hQ : ∀ k n, SettingKey.new key = .ok k → ifMatch headers = some n →
      Q (.write (.delete k auth n)))
    (h : Follows (deleteSetting base key headers auth).run ts p) : RunsOne base Q ts := by
  refine runsOne_check (fun k p hk h => runsOne_requireIfMatch (fun n p hn h => ?_) h) h
  obtain ⟨y, hy⟩ := follows_service (fun _ => ⟨_, rfl⟩) h
  exact .of_method (q := .write (.delete k auth n)) rfl (hQ k n hk hn) hy

theorem runsOne_listSettings {headers : HeaderMap} {q : ListQuery}
    {p : Prog Stmt Stmt.Ret (Except ApiError (Option Response))}
    (hQ : ∀ pagination, Q (.search (q.query.getD "") auth pagination))
    (h : Follows (listSettings base rfc3339 headers q auth).run ts p) : RunsOne base Q ts := by
  rw [listSettings] at h
  cases hp : Pagination.new (q.page.getD 1) (q.size.getD 20) with
  | error e =>
      rw [hp] at h
      obtain ⟨rfl, -⟩ := follows_pure_iff.1 h
      exact .nil
  | ok pagination =>
      rw [hp] at h
      obtain ⟨y, hy⟩ := follows_service (fun _ => ⟨_, rfl⟩) h
      exact .of_method (q := .search (q.query.getD "") auth pagination) rfl (hQ pagination) hy

end Handlers

/-! ### Handlers of the application -/

/-- The routes of the settings slice. -/
def Route.IsSettings : Route → Prop
  | settings _ => True
  | setting _ => True
  | _ => False

/-- A request behind a bearer token: any one to the settings slice but a preflight, and a logout. -/
def HttpRequest.IsGuarded (req : HttpRequest) : Prop :=
  req.method ≠ .options ∧ (req.route.IsSettings ∨ req.route = .logout ∧ req.method = .post)

/-- A call that has nothing to do with tokens, limits or settings. -/
def AppOp.IsProbe : AppOp Jwk → Prop
  | .ready => True
  | .gather => True
  | .forward _ _ => True
  | _ => False


/-- The calls of a handler behind `require_auth`: readings of the clock, and the statements of one
request of the service. -/
def Serves (base : Anchor) (Q : Request → Prop) (tr : AppTrace Jwk) : Prop :=
  ∃ (clock : AuthTrace Jwk) (ts : StmtTrace), tr = clock.map authCall ++ ts.map stmtCall ∧
    (∀ x ∈ clock, x.1 = .instant) ∧ RunsOne base Q ts

theorem Serves.nil {base : Anchor} {Q : Request → Prop} : Serves base Q ([] : AppTrace Jwk) :=
  ⟨[], [], rfl, by simp, .nil⟩

theorem Serves.of_statements {base : Anchor} {Q : Request → Prop} {ts : StmtTrace}
    (h : RunsOne base Q ts) : Serves base Q (ts.map stmtCall : AppTrace Jwk) :=
  ⟨[], ts, rfl, by simp, h⟩

/-- The statements of such a handler. -/
theorem Serves.runsOne {base : Anchor} {Q : Request → Prop} {tr : AppTrace Jwk}
    (h : Serves base Q tr) : RunsOne base Q (statements tr) := by
  obtain ⟨clock, ts, rfl, -, hts⟩ := h
  rw [statements_append, statements_map_authCall, statements_map_stmtCall]
  exact hts

/-- The method of a write. -/
def Write.method : Write → Method
  | put .. => .put
  | patch .. => .patch
  | delete .. => .delete

namespace App

/-- A write that a request asks for: its method is that of the request, its key is the one of the
path, and its precondition is that of the `If-Match` header. -/
structure AsksWrite (app : App Jwk Key) (req : HttpRequest) (w : Write) : Prop where
  method : req.method = w.method
  key : ∃ key text, req.route = .setting key ∧ app.extractors.path key = .ok text ∧
    SettingKey.new text = .ok w.key
  expected : w.expected = ifMatch req.headers

/-- What a request asks of the service under an authority. -/
structure Asks (app : App Jwk Key) (req : HttpRequest) (auth : Authority) (q : Request) :
    Prop where
  authority : q.authority = auth
  write : ∀ w, q = .write w → app.AsksWrite req w

/-- A handler of the settings slice runs its statements, and returns when they are run. -/
theorem follows_callHandler {x : Handler α} {tr : AppTrace Jwk}
    {p : Prog (AppOp Jwk) AppOp.Ret (Except Response α)} (h : Follows (callHandler x).run tr p) :
    ∃ ts y, tr = ts.map stmtCall ∧ x.run.Follows ts y ∧ ∀ r, p = .pure r →
      ∃ r', y = .pure r' ∧ r = r'.mapError ApiError.intoResponse := by
  obtain ⟨y, hy, rfl⟩ := Interaction.Prog.follows_of_bind_pure (fun _ => ⟨_, rfl⟩) h
  obtain ⟨ts, z, rfl, hx, rfl⟩ := follows_translate_settings hy
  refine ⟨ts, z, rfl, hx, fun r hr => ?_⟩
  cases z with
  | call o k => cases hr
  | pure r' =>
      cases hr
      exact ⟨r', rfl, rfl⟩

/-- A method of the auth slice makes its calls, and returns when they are made. -/
theorem follows_callAuth {x : Auth Jwk α} {tr : AppTrace Jwk}
    {p : Prog (AppOp Jwk) AppOp.Ret (Except Response α)} (h : Follows (callAuth x).run tr p) :
    ∃ tv y, tr = tv.map authCall ∧ x.run.Follows tv y ∧ ∀ r, p = .pure r →
      ∃ r', y = .pure r' ∧ r = r'.mapError fun e => (ApiError.ofAuth e).intoResponse := by
  obtain ⟨y, hy, rfl⟩ := Interaction.Prog.follows_of_bind_pure (fun _ => ⟨_, rfl⟩) h
  obtain ⟨tv, z, rfl, hx, rfl⟩ := follows_translate_auth hy
  refine ⟨tv, z, rfl, hx, fun r hr => ?_⟩
  cases z with
  | call o k => cases hr
  | pure r' =>
      cases hr
      exact ⟨r', rfl, rfl⟩

variable {app : App Jwk Key} {auth : Authority} {Q : Request → Prop} {tr : AppTrace Jwk}

theorem serves_extract {x : Except Response α} {f : α → AppM Jwk β}
    {p : Prog (AppOp Jwk) AppOp.Ret (Except Response β)}
    (hf : ∀ a p, x = .ok a → Follows (f a).run tr p → Serves app.base Q tr)
    (h : Follows (extract x >>= f).run tr p) : Serves app.base Q tr := by
  cases x with
  | error e =>
      obtain ⟨rfl, -⟩ := follows_pure_iff.1 h
      exact .nil
  | ok a => exact hf a p rfl h

theorem serves_callHandler {x : Handler α} (hx : ∀ ts y, x.run.Follows ts y → RunsOne app.base Q ts)
    {p : Prog (AppOp Jwk) AppOp.Ret (Except Response α)} (h : Follows (callHandler x).run tr p) :
    Serves app.base Q tr := by
  obtain ⟨ts, y, rfl, hy, -⟩ := follows_callHandler h
  exact .of_statements (hx ts y hy)

theorem serves_answer {x : AppM Jwk Response} (hx : ∀ p, Follows x.run tr p → Serves app.base Q tr)
    {p : Prog (AppOp Jwk) AppOp.Ret (Except Response (Option Response))}
    (h : Follows (answer x).run tr p) : Serves app.base Q tr := by
  obtain ⟨y, h, -⟩ := Interaction.Prog.follows_of_except_bind_pure (fun _ => ⟨_, rfl⟩) h
  exact hx y h

/-- A handler that reads the clock before it goes on. -/
theorem serves_instant {x : Instant → Handler Response}
    (hx : ∀ now ts y, (x now).run.Follows ts y → RunsOne app.base Q ts)
    {p : Prog (AppOp Jwk) AppOp.Ret (Except Response (Option Response))}
    (h : Follows (call (.auth .instant) >>= fun now => answer (callHandler (x now))).run tr p) :
    Serves app.base Q tr := by
  rcases follows_call_iff.1 h with ⟨rfl, -⟩ | ⟨now, tr, rfl, hk⟩
  · exact .nil
  · obtain ⟨y, hy, -⟩ := Interaction.Prog.follows_of_except_bind_pure (fun _ => ⟨_, rfl⟩) hk
    obtain ⟨ts, z, rfl, hz, -⟩ := follows_callHandler hy
    exact ⟨[⟨.instant, now⟩], ts, rfl, by simp, hx now ts z hz⟩

/-- The handlers of `/settings` run one search each. -/
theorem serves_settingsCollection {req : HttpRequest} {query : String}
    {p : Prog (AppOp Jwk) AppOp.Ret (Except Response (Option Response))}
    (h : Follows (app.settingsCollection req.method query req.headers auth).run tr p) :
    Serves app.base (app.Asks req auth) tr := by
  cases hm : req.method with
  | get | head =>
      rw [hm] at h
      exact serves_extract (fun q p _ h => serves_callHandler (fun _ _ =>
        runsOne_listSettings fun _ => ⟨rfl, by simp⟩) h) h
  | post | put | patch | delete | options | other =>
      rw [hm] at h
      obtain ⟨rfl, -⟩ := follows_pure_iff.1 h
      exact .nil

/-- **The handlers of `/settings/:key`** run one request of the service each, the one that was
asked for. -/
theorem serves_settingsEntry {req : HttpRequest} {key : String} (hroute : req.route = .setting key)
    {p : Prog (AppOp Jwk) AppOp.Ret (Except Response (Option Response))}
    (h : Follows (app.settingsEntry req.method key req.headers req.body auth).run tr p) :
    Serves app.base (app.Asks req auth) tr := by
  have hasks : ∀ (w : Write) text, app.extractors.path key = .ok text → req.method = w.method →
      SettingKey.new text = .ok w.key → w.expected = ifMatch req.headers → w.authority = auth →
        app.Asks req auth (.write w) := by
    intro w text hpath hmethod hkey hexpected hauth
    refine ⟨hauth, fun w' hw => ?_⟩
    cases hw
    exact ⟨hmethod, ⟨key, text, hroute, hpath, hkey⟩, hexpected⟩
  cases hm : req.method with
  | get | head =>
      rw [hm] at h
      exact serves_extract (fun text p _ h => serves_answer (fun p h =>
        serves_callHandler (fun _ _ => runsOne_getSetting fun _ => ⟨rfl, by simp⟩) h) h) h
  | put =>
      rw [hm] at h
      exact serves_extract (fun text p ht h => serves_extract (fun body p _ h =>
        serves_instant (fun now _ _ => runsOne_putSetting fun k v hk =>
          hasks _ text ht hm hk rfl rfl) h) h) h
  | patch =>
      rw [hm] at h
      exact serves_extract (fun text p ht h => serves_extract (fun body p _ h =>
        serves_instant (fun now _ _ => runsOne_patchSetting fun k v n hk hn =>
          hasks _ text ht hm hk hn.symm rfl) h) h) h
  | delete =>
      rw [hm] at h
      exact serves_extract (fun text p ht h => serves_answer (fun p h =>
        serves_callHandler (fun _ _ => runsOne_deleteSetting fun k n hk hn =>
          hasks _ text ht hm hk hn.symm rfl) h) h) h
  | post | options | other =>
      rw [hm] at h
      obtain ⟨rfl, -⟩ := follows_pure_iff.1 h
      exact .nil

/-! ### Bearer tokens -/

/-- The calls that validate the bearer token of a request for an authority. -/
def Validated (app : App Jwk Key) (headers : HeaderMap) (token : String) (auth : Authority)
    (tv : AuthTrace Jwk) : Prop :=
  bearerToken headers = some token ∧
    (AuthService.validateToken app.lib app.adapter token).run.Follows tv (.pure (.ok auth))

/-- The calls that let a request through: its bearer token is validated, and the limiter has room
under a key of the tenant. -/
def Admitted (app : App Jwk Key) (pre : String) (headers : HeaderMap) (token : String)
    (auth : Authority) (tr : AppTrace Jwk) : Prop :=
  ∃ tv : AuthTrace Jwk, app.Validated headers token auth tv ∧
    tr = tv.map authCall ++ [⟨.allow (pre ++ auth.tenant.asStr), true⟩]

/-- The checks run no statement. -/
theorem Admitted.statements {pre : String} {headers : HeaderMap} {token : String}
    (h : app.Admitted pre headers token auth tr) : statements tr = [] := by
  obtain ⟨tv, -, rfl⟩ := h
  rw [statements_append, statements_map_authCall]
  rfl

/-- A program that has failed, if it is done, with the response of an error. -/
def Fails (p : Prog (AppOp Jwk) AppOp.Ret (Except Response α)) : Prop :=
  ∀ r, p = .pure r → ∃ e, r = .error e ∧ 400 ≤ e.status

theorem Fails.of_error {e : Response} (he : 400 ≤ e.status) :
    Fails (.pure (.error e) : Prog (AppOp Jwk) AppOp.Ret (Except Response α)) := by
  rintro r hr
  cases hr
  exact ⟨e, rfl, he⟩

theorem le_status_ofAuth (e : AuthError) : 400 ≤ (ApiError.ofAuth e).intoResponse.status := by
  cases e <;> decide

/-- **A program behind a bearer token and the limiter**: it validates the token, is refused by the
limiter, or is let through. -/
theorem follows_bearer {pre : String} {headers : HeaderMap} {e : Response}
    {f : String → Authority → AppM Jwk α} {p : Prog (AppOp Jwk) AppOp.Ret (Except Response α)}
    (h : Follows (ExceptT.run (do
      let token ← orUnauthorized (bearerToken headers)
      let authority ← callAuth (AuthService.validateToken app.lib app.adapter token)
      if ← call (.allow (pre ++ authority.tenant.asStr)) then f token authority
      else throw e)) tr p) :
    ((∃ tv : AuthTrace Jwk, tr = tv.map authCall ∧ ∀ x ∈ tv, x.1.revokes = none) ∧ Fails p) ∨
    ∃ token auth,
      (∃ tv : AuthTrace Jwk, app.Validated headers token auth tv ∧ p = .pure (.error e) ∧
        tr = tv.map authCall ++ [⟨.allow (pre ++ auth.tenant.asStr), false⟩]) ∨
      ∃ t₁ t₂, tr = t₁ ++ t₂ ∧ app.Admitted pre headers token auth t₁ ∧
        Follows (f token auth).run t₂ p := by
  cases htoken : bearerToken headers with
  | none =>
      rw [htoken] at h
      obtain ⟨rfl, rfl⟩ := follows_pure_iff.1 h
      exact .inl ⟨⟨[], rfl, by simp⟩, .of_error (by decide)⟩
  | some token =>
      rw [htoken] at h
      rcases follows_except_bind (x := callAuth _) h with ⟨o, k, hx, hp⟩ | ⟨e', hx, rfl⟩ |
        ⟨auth, t₁, t₂, rfl, h₁, h₂⟩
      · obtain ⟨tv, y, rfl, hv, -⟩ := follows_callAuth hx
        exact .inl ⟨⟨tv, rfl, fun x hx => (only_validateToken token).of_mem hv hx⟩,
          fun r hr => absurd hr (hp r)⟩
      · obtain ⟨tv, y, rfl, hv, hy⟩ := follows_callAuth hx
        obtain ⟨r, -, hr⟩ := hy _ rfl
        refine .inl ⟨⟨tv, rfl, fun x hx => (only_validateToken token).of_mem hv hx⟩, .of_error ?_⟩
        cases r with
        | error e =>
            cases hr
            exact le_status_ofAuth e
        | ok a => cases hr
      · obtain ⟨tv, y, rfl, hv, hy⟩ := follows_callAuth h₁
        obtain ⟨r, rfl, hr⟩ := hy _ rfl
        obtain rfl : r = .ok auth := by
          cases r with
          | error e => cases hr
          | ok a =>
              cases hr
              rfl
        rcases follows_call_iff.1 h₂ with ⟨rfl, rfl⟩ | ⟨r, t, rfl, hk⟩
        · exact .inl ⟨⟨tv, List.append_nil _, fun x hx => (only_validateToken token).of_mem hv hx⟩,
            fun r hr => by cases hr⟩
        · refine .inr ⟨token, auth, ?_⟩
          cases r with
          | false =>
              obtain ⟨rfl, hp⟩ := follows_pure_iff.1 hk
              exact .inl ⟨tv, ⟨htoken, hv⟩, hp, rfl⟩
          | true =>
              refine .inr ⟨_, t, ?_, ⟨tv, ⟨htoken, hv⟩, rfl⟩, hk⟩
              rw [List.append_assoc]
              rfl

/-- The refusal of the limiter. -/
def rateLimited : Response := (ApiError.retry "settings:rate_limited" 429 1).intoResponse

/-- **`require_auth`, and what comes after it.** -/
theorem follows_requireAuth {headers : HeaderMap} {f : Authority → AppM Jwk α}
    {p : Prog (AppOp Jwk) AppOp.Ret (Except Response α)}
    (h : Follows (app.requireAuth headers >>= f).run tr p) :
    ((∃ tv : AuthTrace Jwk, tr = tv.map authCall ∧ ∀ x ∈ tv, x.1.revokes = none) ∧ Fails p) ∨
    ∃ token auth,
      (∃ tv : AuthTrace Jwk, app.Validated headers token auth tv ∧ p = .pure (.error rateLimited) ∧
        tr = tv.map authCall ++ [⟨.allow ("tenant:" ++ auth.tenant.asStr), false⟩]) ∨
      ∃ t₁ t₂, tr = t₁ ++ t₂ ∧ app.Admitted "tenant:" headers token auth t₁ ∧
        Follows (f auth).run t₂ p := by
  rcases follows_except_bind h with ⟨o, k, hx, hp⟩ | ⟨e, hx, rfl⟩ | ⟨auth, t₁, t₂, rfl, h₁, h₂⟩
  · rcases follows_bearer hx with ⟨htv, -⟩ | ⟨token, auth, ⟨tv, -, hq, -⟩ | ⟨t₁, t₂, -, -, hq⟩⟩
    · exact .inl ⟨htv, fun r hr => absurd hr (hp r)⟩
    · cases hq
    · cases (follows_pure_iff.1 hq).2
  · rcases follows_bearer hx with ⟨htv, he⟩ | ⟨token, auth, ⟨tv, hv, hq, rfl⟩ | ⟨t₁, t₂, -, -, hq⟩⟩
    · obtain ⟨e', he', hstatus⟩ := he _ rfl
      cases he'
      exact .inl ⟨htv, .of_error hstatus⟩
    · cases hq
      exact .inr ⟨token, auth, .inl ⟨tv, hv, rfl, rfl⟩⟩
    · cases (follows_pure_iff.1 hq).2
  · rcases follows_bearer h₁ with ⟨-, hq⟩ | ⟨token, auth', ⟨tv, -, hq, -⟩ | ⟨t, t', rfl, ha, hq⟩⟩
    · obtain ⟨e, he, -⟩ := hq _ rfl
      cases he
    · cases hq
    · obtain ⟨rfl, hq⟩ := follows_pure_iff.1 hq
      cases hq
      rw [List.append_nil]
      exact .inr ⟨token, auth, .inr ⟨t, t₂, rfl, ha, h₂⟩⟩

/-- The calls of a logout that was let through, up to where `y` is left of it. -/
def LogsOut (app : App Jwk Key) (token : String) (tl : AuthTrace Jwk)
    (y : Prog (AuthOp Jwk) AuthOp.Ret (Except AuthError Unit)) : Prop :=
  (AuthService.logout app.lib app.adapter token).run.Follows tl y

/-- **`logout`**: once it is let through, it makes the calls of the service, and does not fail only
when they are made. -/
theorem follows_logout {headers : HeaderMap}
    {p : Prog (AppOp Jwk) AppOp.Ret (Except Response Response)}
    (h : Follows (app.logout headers).run tr p) :
    ((∃ tv : AuthTrace Jwk, tr = tv.map authCall ∧ ∀ x ∈ tv, x.1.revokes = none) ∧ Fails p) ∨
    ∃ token auth,
      (∃ tv : AuthTrace Jwk, app.Validated headers token auth tv ∧ Fails p ∧
        tr = tv.map authCall ++ [⟨.allow ("auth:" ++ auth.tenant.asStr), false⟩]) ∨
      ∃ t₁ tl y, tr = t₁ ++ tl.map authCall ∧ app.Admitted "auth:" headers token auth t₁ ∧
        app.LogsOut token tl y ∧ (y = .pure (.ok ()) ∨ Fails p) := by
  rcases follows_bearer h with hnot | ⟨token, auth, ⟨tv, hv, rfl, rfl⟩ | ⟨t₁, t₂, rfl, ha, h₂⟩⟩
  · exact .inl hnot
  · exact .inr ⟨token, auth, .inl ⟨tv, hv, .of_error (by decide), rfl⟩⟩
  · refine .inr ⟨token, auth, .inr ?_⟩
    rcases follows_except_bind (x := callAuth _) h₂ with ⟨o, k, hx, hp⟩ | ⟨e, hx, rfl⟩ |
      ⟨u, t, t', rfl, hx, hp⟩
    · obtain ⟨tl, y, rfl, hl, -⟩ := follows_callAuth hx
      exact ⟨t₁, tl, y, rfl, ha, hl, .inr fun r hr => absurd hr (hp r)⟩
    · obtain ⟨tl, y, rfl, hl, hy⟩ := follows_callAuth hx
      refine ⟨t₁, tl, y, rfl, ha, hl, .inr (.of_error ?_)⟩
      obtain ⟨r, -, hr⟩ := hy _ rfl
      cases r with
      | error e =>
          cases hr
          exact le_status_ofAuth e
      | ok a => cases hr
    · obtain ⟨tl, y, rfl, hl, hy⟩ := follows_callAuth hx
      obtain ⟨r, rfl, hr⟩ := hy _ rfl
      obtain ⟨rfl, -⟩ := follows_pure_iff.1 hp
      refine ⟨t₁, tl, _, by rw [List.append_nil], ha, hl, .inl ?_⟩
      cases r with
      | error e => cases hr
      | ok a => rfl

/-! ### The demo trigger -/

/-- The authority the demo trigger acts under. -/
def demoAuthority : Authority := ⟨⟨"acme"⟩, ⟨"demo-curl"⟩, .admin⟩

/-- The calls of the demo trigger: the statements of a read, then a reading of the clock, then the
statements of a `PUT`, all under its authority. -/
def RunsTwo (base : Anchor) (tr : AppTrace Jwk) : Prop :=
  ∃ (ts ts' : StmtTrace) (clock : AuthTrace Jwk),
    tr = ts.map stmtCall ++ (clock.map authCall ++ ts'.map stmtCall) ∧
      (∀ x ∈ clock, x.1 = .instant) ∧ RunsOne base (fun q => q.authority = demoAuthority) ts ∧
      RunsOne base (fun q => q.authority = demoAuthority) ts'

/-- The statements of the demo trigger. -/
theorem RunsTwo.runsOne {base : Anchor} (h : RunsTwo base tr) :
    ∃ ts ts', statements tr = ts ++ ts' ∧
      RunsOne base (fun q => q.authority = demoAuthority) ts ∧
      RunsOne base (fun q => q.authority = demoAuthority) ts' := by
  obtain ⟨ts, ts', clock, rfl, -, hts, hts'⟩ := h
  exact ⟨ts, ts', by simp, hts, hts'⟩

/-- The read, the reading of the clock and the `PUT` of the demo trigger. -/
theorem runsTwo_of_follows {base : Anchor} {key : SettingKey} {value : SettingValue}
    {f : Setting → Response} {p : Prog (AppOp Jwk) AppOp.Ret (Except Response Response)}
    (h : Follows (ExceptT.run (do
      let current ← ExceptT.mk (Prog.translate AppOp.settings (fun _ r => r)
        (Service.get base key demoAuthority).run >>= fun r => .pure (.ok r))
      let now ← call (.auth .instant)
      let setting ← callHandler
        (service (Service.put base key value demoAuthority
          (current.toOption.map Setting.version) now))
      return f setting)) tr p) : RunsTwo base tr := by
  -- the read, whether it has returned or not
  have hread : ∀ {t q}, Follows (Prog.translate AppOp.settings (fun _ r => r)
      (Service.get base key demoAuthority).run >>= fun r => .pure (.ok r) :
        Prog (AppOp Jwk) AppOp.Ret (Except Response (Except SettingsError Setting))) t q →
      ∃ ts : StmtTrace, t = ts.map stmtCall ∧
        RunsOne base (fun q => q.authority = demoAuthority) ts := by
    intro t q hx
    obtain ⟨y, hy, -⟩ := Interaction.Prog.follows_of_bind_pure (fun _ => ⟨_, rfl⟩) hx
    obtain ⟨ts, z, rfl, hz, -⟩ := follows_translate_settings hy
    exact ⟨ts, rfl, .of_method (q := .get key demoAuthority) rfl rfl hz⟩
  have honly : ∀ {t q}, Follows (Prog.translate AppOp.settings (fun _ r => r)
      (Service.get base key demoAuthority).run >>= fun r => .pure (.ok r) :
        Prog (AppOp Jwk) AppOp.Ret (Except Response (Except SettingsError Setting))) t q →
      RunsTwo base t := by
    intro t q hx
    obtain ⟨ts, rfl, hts⟩ := hread hx
    exact ⟨ts, [], [], by simp, by simp, hts, .nil⟩
  rcases follows_except_bind h with ⟨o, k, hx, -⟩ | ⟨e, hx, -⟩ | ⟨r, t₁, t₂, rfl, hx, h₂⟩
  · exact honly hx
  · exact honly hx
  · rcases follows_call_iff.1 h₂ with ⟨rfl, -⟩ | ⟨now, t, rfl, hk⟩
    · rw [List.append_nil]
      exact honly hx
    · obtain ⟨ts, rfl, hts⟩ := hread hx
      obtain ⟨y, hy, -⟩ := Interaction.Prog.follows_of_except_bind_pure (fun _ => ⟨_, rfl⟩) hk
      obtain ⟨ts', u, rfl, hu, -⟩ := follows_callHandler hy
      obtain ⟨z, hz, -⟩ := Interaction.Prog.follows_of_bind_pure (fun _ => ⟨_, rfl⟩) hu
      exact ⟨ts, ts', [⟨.instant, now⟩], rfl, by simp, hts, .of_method
        (q := .write (.put key value demoAuthority (r.toOption.map Setting.version) now)) rfl rfl
        hz⟩

/-- **The demo trigger**, with the configured token. -/
theorem follows_demoConfig {token key : String} {headers : HeaderMap} {body : List UInt8}
    {p : Prog (AppOp Jwk) AppOp.Ret (Except Response Response)}
    (h : Follows (app.demoConfig token key headers body).run tr p) : tr = [] ∨
      (((headers.get "x-demo-token").bind toStr).getD "" = token ∧
        (∃ text k, app.extractors.path key = .ok text ∧ SettingKey.new text = .ok k) ∧
        ∃ b v, app.extractors.upsert headers body = .ok b ∧ SettingValue.new b = .ok v) ∧
      RunsTwo app.base tr := by
  rw [demoConfig] at h
  cases hpath : app.extractors.path key with
  | error e =>
      rw [hpath] at h
      exact .inl (follows_pure_iff.1 h).1
  | ok text =>
      cases hbody : app.extractors.upsert headers body with
      | error e =>
          rw [hpath, hbody] at h
          exact .inl (follows_pure_iff.1 h).1
      | ok b =>
          rw [hpath, hbody] at h
          simp only [extract_bind_ok] at h
          by_cases htoken : ((headers.get "x-demo-token").bind toStr).getD "" = token
          · simp only [htoken, ne_eq, not_true, if_false] at h
            cases hk : SettingKey.new text with
            | error e =>
                rw [hk] at h
                exact .inl (follows_pure_iff.1 h).1
            | ok k =>
                cases hv : SettingValue.new b with
                | error e =>
                    rw [hk, hv] at h
                    exact .inl (follows_pure_iff.1 h).1
                | ok v =>
                    rw [hk, hv] at h
                    simp only [callHandler_check_ok] at h
                    exact .inr ⟨⟨htoken, ⟨text, k, rfl, hk⟩, b, v, rfl, hv⟩, runsTwo_of_follows h⟩
          · simp only [htoken, ne_eq, not_false_eq_true, if_true] at h
            exact .inl (follows_pure_iff.1 h).1

/-! ### Requests -/

/-- **What a request has performed and has left to do.** -/
inductive Handles (app : App Jwk Key) (req : HttpRequest) :
    AppTrace Jwk → Prog (AppOp Jwk) AppOp.Ret (Option Response) → Prop
  /-- Nothing that has to do with tokens, limits or settings. -/
  | probe {tr : AppTrace Jwk} {p} (hreq : ¬ req.IsGuarded) (h : ∀ x ∈ tr, x.1.IsProbe) :
      Handles app req tr p
  /-- It has not come to the limiter, or has been refused before. -/
  | validating {tv : AuthTrace Jwk} {p} (hrevokes : ∀ x ∈ tv, x.1.revokes = none)
      (hp : ∀ resp, p = .pure (some resp) → 400 ≤ resp.status) :
      Handles app req (tv.map authCall) p
  /-- The limiter has refused its tenant. -/
  | refused {token auth} {tv : AuthTrace Jwk} (hroute : req.route.IsSettings)
      (hv : app.Validated req.headers token auth tv) :
      Handles app req (tv.map authCall ++ [⟨.allow ("tenant:" ++ auth.tenant.asStr), false⟩])
        (.pure (some (securityHeaders rateLimited)))
  /-- It has been let through to the settings slice. -/
  | admitted {token auth t₁ t₂ p} (hroute : req.route.IsSettings)
      (ha : app.Admitted "tenant:" req.headers token auth t₁)
      (hserves : Serves app.base (app.Asks req auth) t₂) : Handles app req (t₁ ++ t₂) p
  /-- The limiter has refused its logout. -/
  | turnedAway {token auth} {tv : AuthTrace Jwk} {p} (hroute : req.route = .logout)
      (hv : app.Validated req.headers token auth tv)
      (hp : ∀ resp, p = .pure (some resp) → 400 ≤ resp.status) :
      Handles app req (tv.map authCall ++ [⟨.allow ("auth:" ++ auth.tenant.asStr), false⟩]) p
  /-- Its logout has been let through. -/
  | loggingOut {token auth t₁} {tl : AuthTrace Jwk} {y p} (hroute : req.route = .logout)
      (ha : app.Admitted "auth:" req.headers token auth t₁) (hl : app.LogsOut token tl y)
      (hp : ∀ resp, p = .pure (some resp) → resp.status < 400 → y = .pure (.ok ())) :
      Handles app req (t₁ ++ tl.map authCall) p
  /-- It is one to the demo trigger, which was given its token. -/
  | demo {tr p} (htriggers : ∃ key token, app.Triggers req key token) (htwo : RunsTwo app.base tr) :
      Handles app req tr p

/-- The response that leaves the router. -/
def finish (req : HttpRequest) : Except Response (Option Response) → Option Response
  | .ok resp => resp.map fun resp =>
      securityHeaders (if req.method = .head then { resp with body := "" } else resp)
  | .error resp => some (securityHeaders resp)

theorem status_securityHeaders (resp : Response) :
    (securityHeaders resp).status = resp.status := rfl

/-- What has failed leaves the router as an error. -/
theorem Fails.finish {req : HttpRequest} {y : Prog (AppOp Jwk) AppOp.Ret (Except Response _)}
    (h : Fails y) {resp : Response}
    (hresp : (y >>= fun r => .pure (finish req r)) = Prog.pure (some resp)) :
    400 ≤ resp.status := by
  cases y with
  | call o k => cases hresp
  | pure r =>
      obtain ⟨e, rfl, he⟩ := h r rfl
      cases hresp
      exact he

/-- A request behind `require_auth`. -/
theorem handles_requireAuth {req : HttpRequest} {f : Authority → AppM Jwk (Option Response)}
    (hroute : req.route.IsSettings)
    (hf : ∀ auth t p, Follows (f auth).run t p → Serves app.base (app.Asks req auth) t)
    {y : Prog (AppOp Jwk) AppOp.Ret (Except Response (Option Response))}
    (h : Follows (app.requireAuth req.headers >>= f).run tr y) :
    app.Handles req tr (y >>= fun r => .pure (finish req r)) := by
  rcases follows_requireAuth h with ⟨⟨tv, rfl, hrevokes⟩, hy⟩ | ⟨token, auth, ⟨tv, hv, rfl, rfl⟩ |
    ⟨t₁, t₂, rfl, ha, h₂⟩⟩
  · exact .validating hrevokes fun resp hresp => hy.finish hresp
  · exact .refused hroute hv
  · exact .admitted hroute ha (hf auth t₂ y h₂)

/-- A failure stays one. -/
theorem Fails.answer {y : Prog (AppOp Jwk) AppOp.Ret (Except Response Response)} (h : Fails y) :
    Fails (y >>= ExceptT.bindCont fun resp => (pure (some resp) : AppM Jwk (Option Response))) := by
  rintro r hr
  cases y with
  | call o k => cases hr
  | pure r' =>
      obtain ⟨e, rfl, he⟩ := h r' rfl
      cases hr
      exact ⟨e, rfl, he⟩

/-- A logout. -/
theorem handles_logout {req : HttpRequest} (hroute : req.route = .logout)
    {y : Prog (AppOp Jwk) AppOp.Ret (Except Response (Option Response))}
    (h : Follows (answer (app.logout req.headers)).run tr y) :
    app.Handles req tr (y >>= fun r => .pure (finish req r)) := by
  obtain ⟨z, hz, rfl⟩ := Interaction.Prog.follows_of_except_bind_pure (fun _ => ⟨_, rfl⟩) h
  rcases follows_logout hz with ⟨⟨tv, rfl, hrevokes⟩, hfails⟩ | ⟨token, auth,
    ⟨tv, hv, hfails, rfl⟩ | ⟨t₁, tl, l, rfl, ha, hl, hdone⟩⟩
  · exact .validating hrevokes fun resp hresp => hfails.answer.finish hresp
  · exact .turnedAway hroute hv fun resp hresp => hfails.answer.finish hresp
  · refine .loggingOut hroute ha hl fun resp hresp hlt => hdone.resolve_right fun hfails => ?_
    exact absurd (hfails.answer.finish hresp) (Nat.not_le.2 hlt)

/-- A program that makes probes only. -/
theorem handles_probe {req : HttpRequest} (hreq : ¬ req.IsGuarded)
    {x : Prog (AppOp Jwk) AppOp.Ret α} {y : Prog (AppOp Jwk) AppOp.Ret α} (h : x.Follows tr y)
    (hx : x.Only AppOp.IsProbe) {p : Prog (AppOp Jwk) AppOp.Ret (Option Response)} :
    app.Handles req tr p :=
  .probe hreq fun _ hmem => hx.of_mem h hmem

/-- The telemetry proxy sends a body to the collector at most. -/
theorem only_telemetryProxy (headers : HeaderMap) (body : List UInt8) :
    Only AppOp.IsProbe (app.telemetryProxy headers body).run := by
  refine Only.except_bind ?_ fun b => Only.except_bind ?_ fun _ =>
    Only.except_bind (S := AppOp.IsProbe) ⟨trivial, fun _ => trivial⟩ fun r => ?_
  · cases app.extractors.bytes body <;> exact trivial
  · cases headers.get "authorization" <;> exact trivial
  · cases r <;> exact trivial

theorem only_probe_readyz : Only AppOp.IsProbe (@readyz Jwk).run :=
  Only.except_bind (S := AppOp.IsProbe) ⟨trivial, fun _ => trivial⟩ fun r => by
    cases r <;> exact trivial

theorem only_probe_metricsHandler : Only AppOp.IsProbe (@metricsHandler Jwk).run :=
  Only.except_bind (S := AppOp.IsProbe) ⟨trivial, fun _ => trivial⟩ fun r => by
    cases r <;> exact trivial

/-- The other routes ask for no bearer token. -/
theorem not_isGuarded {req : HttpRequest} (hsettings : ¬ req.route.IsSettings)
    (hlogout : req.route ≠ .logout) : ¬ req.IsGuarded :=
  fun hreq => hreq.2.elim hsettings fun h => hlogout h.1

/-- **What a request has performed and has left to do**, at any point of its handling. -/
theorem handles_of_follows {req : HttpRequest}
    {p : Prog (AppOp Jwk) AppOp.Ret (Option Response)} (h : (app.handle req).Follows tr p) :
    app.Handles req tr p := by
  rw [handle] at h
  by_cases hoptions : req.method = .options
  · rw [if_pos hoptions] at h
    exact handles_probe (fun hreq => hreq.1 hoptions) h trivial
  rw [if_neg hoptions] at h
  obtain ⟨y, hy, rfl⟩ := Interaction.Prog.follows_of_bind_pure (fun _ => ⟨_, rfl⟩) h
  clear h
  rw [route] at hy
  cases hroute : req.route with
  | settings query =>
      rw [hroute] at hy
      exact handles_requireAuth (by rw [hroute]; trivial)
        (fun _ _ _ => serves_settingsCollection) hy
  | setting key =>
      rw [hroute] at hy
      exact handles_requireAuth (by rw [hroute]; trivial)
        (fun _ _ _ => serves_settingsEntry hroute) hy
  | logout =>
      simp only [hroute] at hy
      split_ifs at hy with hpost
      · exact handles_logout hroute hy
      · refine handles_probe (fun hreq => ?_) hy trivial
        rcases hreq.2 with hsettings | ⟨-, hpost'⟩
        · rw [hroute] at hsettings
          exact hsettings
        · exact hpost hpost'
  | healthz =>
      have hreq := not_isGuarded (by rw [hroute]; exact id) (by rw [hroute]; simp)
      simp only [hroute] at hy
      split_ifs at hy <;> exact handles_probe hreq hy trivial
  | readyz =>
      have hreq := not_isGuarded (by rw [hroute]; exact id) (by rw [hroute]; simp)
      simp only [hroute] at hy
      split_ifs at hy
      · exact handles_probe hreq hy (only_probe_readyz.except_bind fun _ => trivial)
      · exact handles_probe hreq hy trivial
  | metrics =>
      have hreq := not_isGuarded (by rw [hroute]; exact id) (by rw [hroute]; simp)
      simp only [hroute] at hy
      split_ifs at hy
      · exact handles_probe hreq hy (only_probe_metricsHandler.except_bind fun _ => trivial)
      · exact handles_probe hreq hy trivial
  | telemetry =>
      have hreq := not_isGuarded (by rw [hroute]; exact id) (by rw [hroute]; simp)
      simp only [hroute] at hy
      split_ifs at hy
      · exact handles_probe hreq hy ((only_telemetryProxy _ _).except_bind fun _ => trivial)
      · exact handles_probe hreq hy trivial
  | demoConfig key =>
      have hreq := not_isGuarded (by rw [hroute]; exact id) (by rw [hroute]; simp)
      simp only [hroute] at hy
      cases htoken : app.config.demoTriggerToken with
      | none =>
          simp only [htoken] at hy
          exact handles_probe hreq hy trivial
      | some token =>
          simp only [htoken] at hy
          split_ifs at hy with hpost
          · obtain ⟨z, hz, -⟩ :=
              Interaction.Prog.follows_of_except_bind_pure (fun _ => ⟨_, rfl⟩) hy
            rcases follows_demoConfig hz with rfl | ⟨⟨hprovided, hkey, hvalue⟩, htwo⟩
            · exact .probe hreq (by simp)
            · exact .demo ⟨key, token, hroute, hpost, htoken, hprovided, hkey, hvalue⟩ htwo
          · exact handles_probe hreq hy trivial

/-- **The statements of a request**: none, those of one request of the service under an authority
whose token was let through, or those of the demo trigger. -/
theorem Handles.statements_cases {req : HttpRequest}
    {p : Prog (AppOp Jwk) AppOp.Ret (Option Response)} (h : app.Handles req tr p) :
    statements tr = [] ∨ (req.route.IsSettings ∧ ∃ token auth t₁ t₂, tr = t₁ ++ t₂ ∧
        app.Admitted "tenant:" req.headers token auth t₁ ∧
          Serves app.base (app.Asks req auth) t₂) ∨
      (∃ key token, app.Triggers req key token) ∧ RunsTwo app.base tr := by
  cases h with
  | probe _ h =>
      left
      rw [statements, List.filterMap_eq_nil_iff]
      rintro ⟨o, r⟩ hor
      have ho := h _ hor
      cases o with
      | settings s => exact ho.elim
      | auth | allow | ready | gather | forward => rfl
  | @validating tv => exact .inl (statements_map_authCall tv)
  | @refused token auth tv | @turnedAway token auth tv =>
      left
      rw [statements_append, statements_map_authCall]
      rfl
  | admitted hroute ha hserves => exact .inr (.inl ⟨hroute, _, _, _, _, rfl, ha, hserves⟩)
  | loggingOut _ ha hl =>
      left
      rw [statements_append, ha.statements, statements_map_authCall]
      rfl
  | demo htriggers htwo => exact .inr (.inr ⟨htriggers, htwo⟩)

end App

end SettingsService
