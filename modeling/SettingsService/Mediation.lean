import SettingsService.RouterTraces

/-!
# No statement without a token

Requests in flight over the router, their calls interleaved in any order.  Every statement that a
request runs on the settings table comes after the checks of `require_auth` in the same run: a key
that was looked up verifies the bearer token, the token had not expired by the clock that was read
then, it was not among the revocations, and the limiter let its tenant on.  The statement is one of
the tenant that the token names.  Only the demo trigger does without.

Main definitions:

* `AppConfig`, `AppEvent` — requests in flight, and the calls they perform;
* `CallAt` — a call stands in a history;
* `App.Cleared` — the checks that a request has passed.

Main results:

* `App.cleared_of_admitted` — a request that has been let through has passed the checks;
* `App.admitted_of_statement` — a statement comes after the checks of its request;
* `App.mediated` — **every statement was mediated**.
-/

set_option relaxedAutoImplicit false
set_option autoImplicit false

namespace SettingsService

open Interaction (Prog Snapshot Event Reachable Answered own)
open Interaction.Prog (Follows)

/-- Requests in flight. -/
abbrev AppConfig (Jwk : Type) : Type :=
  Snapshot (AppOp Jwk) AppOp.Ret (AppWorld Jwk) HttpRequest (Option Response)

/-- A call of a request. -/
abbrev AppEvent (Jwk : Type) : Type := Event (AppOp Jwk) AppOp.Ret (AppWorld Jwk) HttpRequest

variable {Jwk Key : Type}

/-- The process at `i` performed the call `x` at position `n` of the history. -/
def CallAt (hist : List (AppEvent Jwk)) (n i : ℕ) (x : Answered (AppOp Jwk) AppOp.Ret) : Prop :=
  ∃ e : AppEvent Jwk, hist[n]? = some e ∧ e.who = i ∧ x = ⟨e.op, e.reply⟩

/-- A call that a process had performed stands in the history before. -/
theorem CallAt.of_own {hist : List (AppEvent Jwk)} {n i : ℕ} {pre post : AppTrace Jwk}
    {x : Answered (AppOp Jwk) AppOp.Ret} (h : own i (hist.take n) = pre ++ x :: post) :
    ∃ m < n, CallAt hist m i x ∧ own i (hist.take m) = pre := by
  obtain ⟨m, e, hm, he, hwho, hpre, hx⟩ := Interaction.exists_lt_of_own_eq h
  exact ⟨m, hm, ⟨e, he, hwho, hx⟩, hpre⟩

namespace App

/-- **The checks that the request of the process at `i` has passed** for an authority: at `n₁` a key
was looked up, at `n₂` the clock was read, at `n₃` the revocations were asked, and at `n₄` the
limiter, under a key with the prefix `pre`. -/
structure Cleared (app : App Jwk Key) (pre : String) (hist : List (AppEvent Jwk)) (i : ℕ)
    (headers : HeaderMap) (auth : Authority) (n₁ n₂ n₃ n₄ : ℕ) : Prop where
  order : n₁ < n₂ ∧ n₂ < n₃ ∧ n₃ < n₄
  /-- The bearer token is verified under a key that is filed under the id it names, names the
  authority, has not expired, and is not revoked. -/
  token : ∃ token kid jwk key claims now later ttl, bearerToken headers = some token ∧
    app.lib.decodeHeader token = some (some kid) ∧ app.lib.fromJwk jwk = some key ∧
    (CallAt hist n₁ i ⟨.auth (.keys kid), some jwk⟩ ∨
      CallAt hist n₁ i ⟨.auth (.previous kid), some jwk⟩) ∧
    app.lib.verifies token key = true ∧ app.lib.claims token = some claims ∧
    JwtAuthAdapter.Names claims later ⟨auth, claims.jti.getD "", ttl⟩ ∧
    CallAt hist n₂ i ⟨.auth .timestamp, now⟩ ∧
    (∃ exp, claims.exp = some exp ∧ asSecs now ≤ exp + 60) ∧
    CallAt hist n₃ i ⟨.auth (.isRevoked (claims.jti.getD "")), false⟩
  /-- The limiter let the tenant on. -/
  allowed : CallAt hist n₄ i ⟨.allow (pre ++ auth.tenant.asStr), true⟩

variable {app : App Jwk Key} {env : AppEnv Jwk} {w : AppWorld Jwk} {reqs : List HttpRequest}
  {c : AppConfig Jwk}

/-- What validating a token for an authority has performed. -/
theorem exists_of_validated {token : String} {auth : Authority} {tv : AuthTrace Jwk}
    (h : (AuthService.validateToken app.lib app.adapter token).run.Follows tv (.pure (.ok auth))) :
    ∃ t principal, (app.adapter.validate app.lib token).run.Follows t (.pure (.ok principal)) ∧
      tv = t ++ [⟨.isRevoked principal.jti, false⟩] ∧ auth = principal.authority := by
  have hreturns : ((AuthRequest.validateToken token).prog app.lib app.adapter).Follows tv
      (.pure (.ok (.authority auth))) := h.bind
  obtain ⟨t, principal, ht, rfl, hauth⟩ := returns_validateToken_iff.1 hreturns
  cases hauth
  exact ⟨t, principal, ht, rfl, rfl⟩

/-- **A request that has been let through has passed the checks.** -/
theorem cleared_of_admitted (hlib : app.lib.Documented) {hist : List (AppEvent Jwk)} {i n : ℕ}
    {pre : String} {headers : HeaderMap} {token : String} {auth : Authority} {t t' : AppTrace Jwk}
    (hown : own i (hist.take n) = t ++ t') (ht : app.Admitted pre headers token auth t) :
    ∃ n₁ n₂ n₃ n₄, app.Cleared pre hist i headers auth n₁ n₂ n₃ n₄ ∧ n₄ < n := by
  obtain ⟨tv, ⟨hbearer, hv⟩, rfl⟩ := ht
  obtain ⟨u, principal, hu, rfl, rfl⟩ := exists_of_validated hv
  obtain ⟨kid, key, tk, now, later, claims, hkid, hkey, rfl, hd, hnames⟩ :=
    (JwtAuthAdapter.follows_validate hlib).1 hu
  obtain ⟨hclaims, hexp⟩ := JwtAuthAdapter.claims_of_decode hlib hd
  obtain ⟨jwk, hjwk, hmem⟩ := Jwks.answered_keyFor hkey
  -- from the last check to the first one
  obtain ⟨n₄, hn₄, hallowed, hown⟩ := CallAt.of_own (x := ⟨.allow _, true⟩)
    (hown.trans (List.append_assoc _ _ _))
  rw [List.map_append] at hown
  obtain ⟨n₃, hn₃, hrevoked, hown⟩ := CallAt.of_own (x := ⟨.auth (.isRevoked _), false⟩) hown
  rw [List.map_append] at hown
  obtain ⟨n₂, hn₂, hnow, hown⟩ := CallAt.of_own (x := ⟨.auth .timestamp, now⟩) hown
  have hfound : ∃ n₁ < n₂, CallAt hist n₁ i ⟨.auth (.keys kid), some jwk⟩ ∨
      CallAt hist n₁ i ⟨.auth (.previous kid), some jwk⟩ := by
    rcases hmem with hmem | hmem <;> obtain ⟨pre, post, rfl⟩ := List.append_of_mem hmem <;>
      rw [List.map_append, List.map_cons] at hown
    · obtain ⟨n₁, hn₁, hcall, -⟩ := CallAt.of_own hown
      exact ⟨n₁, hn₁, .inl hcall⟩
    · obtain ⟨n₁, hn₁, hcall, -⟩ := CallAt.of_own hown
      exact ⟨n₁, hn₁, .inr hcall⟩
  obtain ⟨n₁, hn₁, hcall⟩ := hfound
  rw [hnames.jti] at hrevoked
  refine ⟨n₁, n₂, n₃, n₄, ⟨⟨hn₁, hn₂, hn₃⟩, ?_, hallowed⟩, hn₄⟩
  refine ⟨token, kid, jwk, key, claims, now, later, principal.remainingTtl, hbearer, hkid, hjwk,
    hcall, ((hlib.decode_eq_ok_iff _ _ _ _ _).1 hd).1, hclaims, ?_, hnow, hexp, hrevoked⟩
  exact ⟨hnames.tenant, hnames.user, hnames.role, rfl, hnames.remainingTtl⟩

/-- **A statement comes after the checks of its request**: it is one of the tenant that the token
names, or the demo trigger was given its token and the tenant is that of the demo. -/
theorem admitted_of_statement
    (hc : Reachable (app.exec env) (fun _ _ => True) (Snapshot.init w app.handle reqs) c) {n : ℕ}
    {e : AppEvent Jwk} (he : c.hist[n]? = some e) {s : Stmt} (hs : e.op = .settings s) :
    (∃ token auth t₁ t₂, own e.who (c.hist.take n) = t₁ ++ t₂ ∧
      app.Admitted "tenant:" e.req.headers token auth t₁ ∧ s.tenant = auth.tenant.asStr) ∨
    (∃ key token, app.Triggers e.req key token) ∧ s.tenant = "acme" := by
  obtain ⟨-, -, k, hk⟩ := hc.next he
  obtain ⟨i, req, o, r, w', mark⟩ := e
  obtain rfl : o = .settings s := hs
  have hsnoc := hk.snoc r
  have hmem : (⟨s, r⟩ : Answered Stmt Stmt.Ret) ∈
      statements (own i (c.hist.take n) ++ [⟨.settings s, r⟩]) := by
    rw [statements_append]
    exact List.mem_append_right _ (List.mem_singleton.2 rfl)
  rcases (handles_of_follows hsnoc).statements_cases with hnone |
    ⟨-, token, auth, t₁, t₂, htr, ha, hserves⟩ | ⟨htriggers, htwo⟩
  · rw [hnone] at hmem
    cases hmem
  · have htenant : s.tenant = auth.tenant.asStr := by
      rw [htr, statements_append, ha.statements, List.nil_append] at hmem
      exact hserves.runsOne.tenant (fun q hq => hq.authority) hmem
    -- the last of the checks is the call to the limiter, so the statement comes after them
    rcases List.eq_nil_or_concat t₂ with rfl | ⟨t₂, x, rfl⟩
    · obtain ⟨tv, -, rfl⟩ := ha
      rw [List.append_nil] at htr
      cases (List.append_inj' htr rfl).2
    · rw [List.concat_eq_append, ← List.append_assoc] at htr
      exact .inl ⟨token, auth, t₁, t₂, (List.append_inj' htr rfl).1, ha, htenant⟩
  · refine .inr ⟨htriggers, ?_⟩
    obtain ⟨ts, ts', hts, hone, hone'⟩ := htwo.runsOne
    rw [hts, List.mem_append] at hmem
    exact hmem.elim (hone.tenant fun _ hq => hq) (hone'.tenant fun _ hq => hq)

/-- **Every statement was mediated**: it comes after the checks of its request in the same run, and
is one of the tenant that the token names, or the demo trigger was given its token and the tenant is
that of the demo. -/
theorem mediated (hlib : app.lib.Documented)
    (hc : Reachable (app.exec env) (fun _ _ => True) (Snapshot.init w app.handle reqs) c) {n : ℕ}
    {e : AppEvent Jwk} (he : c.hist[n]? = some e) {s : Stmt} (hs : e.op = .settings s) :
    (∃ auth n₁ n₂ n₃ n₄,
      app.Cleared "tenant:" c.hist e.who e.req.headers auth n₁ n₂ n₃ n₄ ∧ n₄ < n ∧
      s.tenant = auth.tenant.asStr) ∨
    (∃ key token, app.Triggers e.req key token) ∧ s.tenant = "acme" := by
  refine (admitted_of_statement hc he hs).imp_left ?_
  rintro ⟨token, auth, t₁, t₂, hown, ha, htenant⟩
  obtain ⟨n₁, n₂, n₃, n₄, hcleared, hn₄⟩ := cleared_of_admitted hlib hown ha
  exact ⟨auth, n₁, n₂, n₃, n₄, hcleared, hn₄, htenant⟩

end App

/-! ### A `PUT` behind a token -/

namespace Sample

/-- A configuration. -/
def config : Config where
  databaseUrl := "postgres://db"
  serviceHost := "0.0.0.0"
  servicePort := 8080
  allowedOrigins := ["http://localhost:3000"]
  authIssuer := "idp"
  authAudience := "settings"
  serviceName := "settings-service"
  otlpEndpoint := "http://localhost:4317"
  otelHttpEndpoint := "http://localhost:4318"
  rateLimitRequests := 20
  rateLimitBurst := 40
  mqttHost := "localhost"
  mqttPort := 1883
  mqttClientId := "settings-service"
  demoIntervalSecs := 0
  demoTriggerToken := none

/-- The application with this configuration. -/
def server : App String String := app config

/-- A `PUT` with the token of Alice. -/
def putTheme : HttpRequest :=
  ⟨.put, .setting "theme", [("authorization", [98, 101, 97, 114, 101, 114, 32, 116])], []⟩

/-- Requests in flight, which perform their calls in the order of a schedule. -/
def inFlight (reqs : List HttpRequest) (is : List ℕ) : AppConfig String :=
  (Snapshot.init fresh server.handle reqs).schedule (server.exec around) is

theorem reachable_inFlight (reqs : List HttpRequest) (is : List ℕ) :
    Reachable (server.exec around) (fun _ _ => True) (Snapshot.init fresh server.handle reqs)
      (inFlight reqs is) := Reachable.refl.schedule _ _

end Sample

open Sample in
/-- The `INSERT` of the `PUT` is its fourteenth call. -/
theorem App.mediated_put : ∃ e s, (inFlight [putTheme] (List.replicate 14 0)).hist[13]? = some e ∧
    e.op = .settings s ∧
    ((∃ auth n₁ n₂ n₃ n₄, server.Cleared "tenant:" (inFlight [putTheme] (List.replicate 14 0)).hist
        e.who e.req.headers auth n₁ n₂ n₃ n₄ ∧ n₄ < 13 ∧ s.tenant = auth.tenant.asStr) ∨
      (∃ key token, server.Triggers e.req key token) ∧ s.tenant = "acme") :=
  ⟨_, _, rfl, rfl, mediated (documented_lib _) (reachable_inFlight _ _) (n := 13) rfl rfl⟩

end SettingsService
