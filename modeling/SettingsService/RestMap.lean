import SettingsService.RestRequests
import SettingsService.RouterUpdates
import SettingsService.SettingsMap

/-!
# The settings map over HTTP

What clients of the router observe.  Each request to the settings that came to the service does to
the settings map what it is for and answers with what the map then shows: the version is in the
`ETag` header, the entry in the body, and a refusal is the error of the map.  This holds of requests
in flight, in some order that respects time, where the demo trigger is off.

Main definitions:

* `App.Asked` — what a request over HTTP asks the service;
* `App.Shows` — a response shows an answer of the map;
* `App.RestRun` — a run of the service behind a run of the router;
* `RestReadsPresent` — the guard: no creation of its row since the read of a `PATCH`;
* `App.RestAsSpecified` — requests in this order do to the map what they are for.

Main results:

* `App.shows_of_came` — the response of a request shows the result of the service;
* `App.exists_plain_rest_run` — the requests that came to the service are a run of it;
* `App.exists_rest_order` — **HTTP clients observe a settings map**.
-/

set_option relaxedAutoImplicit false
set_option autoImplicit false

namespace SettingsService

open Interaction (Prog Proc Snapshot Event Reachable Answered own calls callsOf subcalls Precedes)
open Interaction.Prog (Follows)
open OptimisticLock (Change)

variable {Jwk Key : Type}

/-! ### One request -/

/-- The key of a request. -/
def Request.key? : Request → Option SettingKey
  | get key _ => some key
  | search .. => none
  | write w => some w.key

/-- A request runs a statement before it returns. -/
theorem Request.prog_ne_pure {base : Anchor} {q : Request} {x : Result} :
    q.prog base ≠ .pure x := by
  rcases q.read_cases base with ⟨v, rfl⟩ | ⟨s, f, hprog, -⟩
  · rw [show (Request.write v).prog base = v.prog base from rfl, v.prog_eq]
    nofun
  · rw [hprog]
    nofun

namespace App

/-- **What a request over HTTP asks the service**, under the authority that its bearer token
names. -/
def Asked (app : App Jwk Key) (req : HttpRequest) (q : Request) : Prop :=
  ∃ token claims later ttl, bearerToken req.headers = some token ∧
    app.lib.claims token = some claims ∧
    JwtAuthAdapter.Names claims later ⟨q.authority, claims.jti.getD "", ttl⟩ ∧
    app.Makes req q.authority q

/-- **The response to a request shows an answer of the map**: the version in the `ETag` header, the
entry or the error in the body, if there is one. -/
def Shows (app : App Jwk Key) (req : HttpRequest) (q : Request) (a : Answer) (resp : Response) :
    Prop :=
  match a with
  | .ok (some (o, version, value)) => resp.status = 200 ∧
      ("etag", "\"" ++ version.repr ++ "\"") ∈ resp.headers ∧
      (req.method ≠ .head → ∃ s : Setting, q.key? = some s.key ∧ s.ownership = o ∧
        s.version = version ∧ s.value = value ∧
        resp.body = (SettingResponse.ofSetting app.base app.rfc3339 s).json.print)
  | .ok none => resp.status = 204
  | .error e => resp.status = (ApiError.ofSettings e).intoResponse.status ∧
      (req.method ≠ .head → resp.body = (ApiError.ofSettings e).intoResponse.body)

variable {app : App Jwk Key} {env : AppEnv Jwk} {w : AppWorld Jwk} {req : HttpRequest}
  {auth : Authority} {q : Request}

theorem Makes.authority_eq (h : app.Makes req auth q) : q.authority = auth := by cases h <;> rfl

/-- What makes a `PATCH` is one. -/
theorem Makes.method_of_patch {v : Write} (h : app.Makes req auth (.write v))
    (hpatch : v.isPatch = true) : req.method = .patch := by
  cases h with
  | put => cases hpatch
  | patch _ _ hmethod => exact hmethod
  | delete => cases hpatch

/-- What reads makes no write. -/
theorem Makes.write?_eq_none (h : app.Makes req auth q)
    (hmethod : req.method = .get ∨ req.method = .head) : q.write? = none := by
  cases h with
  | search => rfl
  | get => rfl
  | put _ _ hput => simp [hput] at hmethod
  | patch _ _ hpatch => simp [hpatch] at hmethod
  | delete _ hdelete => simp [hdelete] at hmethod

/-- A request to `/settings/:key` that succeeds is answered with a setting that has its key, or it
deletes one. -/
theorem Makes.reply (h : app.Makes req auth q) {key : String} (hroute : req.route = .setting key)
    {tr : StmtTrace} {reply : Reply} (hq : (q.prog app.base).Follows tr (.pure (.ok reply)))
    (hans : ∀ x ∈ tr, ∃ T, x.2 = (env.pg.exec x.1 T).1) :
    reply = .deleted ∨ ∃ s, reply = .setting s ∧ q.key? = some s.key := by
  have hwrite : ∀ v : Write, q = .write v →
      reply = .deleted ∨ ∃ s, reply = .setting s ∧ q.key? = some s.key := by
    rintro v rfl
    exact (Write.reply_of_follows hq hans).imp_right fun ⟨s, hs, hkey⟩ =>
      ⟨s, hs, congrArg some hkey.symm⟩
  cases h with
  | search _ hsettings => rw [hroute] at hsettings; cases hsettings
  | get =>
      obtain ⟨s, hs, hkey⟩ := Request.reply_of_get hq hans
      exact .inr ⟨s, hs, congrArg some hkey.symm⟩
  | put | patch | delete => exact hwrite _ rfl

/-- Replacing headers of other names leaves a header. -/
theorem mem_of_replaced {entries : List (String × String)} {x : String × String}
    (hne : ∀ e ∈ entries, x.1 ≠ e.1) {resp : Response} (hx : x ∈ resp.headers) :
    x ∈ (entries.foldl (fun resp e =>
      { resp with headers := resp.headers.filter (fun h => h.1 != e.1) ++ [e] }) resp).headers := by
  induction entries generalizing resp with
  | nil => exact hx
  | cons e entries ih =>
      refine ih (fun d hd => hne d (List.mem_cons_of_mem _ hd)) ?_
      refine List.mem_append_left _ (List.mem_filter.2 ⟨hx, ?_⟩)
      simpa using hne e List.mem_cons_self

/-- The security headers leave the version in its header. -/
theorem etag_securityHeaders {resp : Response} {value : String}
    (h : ("etag", value) ∈ resp.headers) : ("etag", value) ∈ (securityHeaders resp).headers :=
  mem_of_replaced (by simp) h

theorem body_securityHeaders (resp : Response) : (securityHeaders resp).body = resp.body := rfl

variable (env) in
/-- **The response of a request shows the result of the service.** -/
theorem shows_of_came {tr : AppTrace Jwk}
    {z : Prog (AppOp Jwk) AppOp.Ret (Except Response (Option Response))}
    {y : Prog Stmt Stmt.Ret Result} (h : app.Came req auth tr z q y) {key : String}
    (hroute : req.route = .setting key)
    (hans : ∀ x ∈ statements tr, ∃ T, x.2 = (env.pg.exec x.1 T).1) {resp : Response}
    (hresp : (z >>= fun r => .pure (finish req r)) = Prog.pure (some resp)) :
    ∃ x, y = .pure x ∧ app.Shows req q (shownOf x) resp ∧ (resp.status < 400 → ∃ a, x = .ok a) := by
  cases z with
  | call o k => cases hresp
  | pure r =>
      obtain ⟨x, rfl, rfl⟩ := h.returns key hroute r rfl
      have hfinish := Prog.pure.inj hresp
      refine ⟨x, rfl, ?_⟩
      cases x with
      | error e =>
          obtain rfl := Option.some.inj hfinish
          refine ⟨⟨rfl, fun _ => rfl⟩, fun hlt => ?_⟩
          have hle := ApiError.status_ofSettings e
          exact absurd hlt (Nat.not_lt.2 hle)
      | ok reply =>
          refine ⟨?_, fun _ => ⟨reply, rfl⟩⟩
          rcases h.makes.reply hroute h.follows hans with rfl | ⟨s, rfl, hkey⟩
          · obtain rfl := Option.some.inj hfinish
            change (securityHeaders _).status = 204
            rw [status_securityHeaders]
            split_ifs <;> rfl
          · obtain rfl := Option.some.inj hfinish
            refine ⟨?_, ?_, fun hhead => ⟨s, hkey, rfl, rfl, rfl, ?_⟩⟩
            · rw [status_securityHeaders]
              split_ifs <;> rfl
            · refine etag_securityHeaders ?_
              split_ifs <;> exact List.mem_cons_self
            · rw [body_securityHeaders, if_neg hhead]
              rfl

end App

/-! ### Requests in flight -/

/-- The statement of a call, with the process that ran it. -/
def stmtBy (e : AppEvent Jwk) : Option (ℕ × Answered Stmt Stmt.Ret) :=
  (AppOp.stmt? ⟨e.op, e.reply⟩).map (e.who, ·)

theorem who_of_stmtBy {e : AppEvent Jwk} {x : ℕ × Answered Stmt Stmt.Ret} (h : stmtBy e = some x) :
    x.1 = e.who := by
  obtain ⟨y, -, rfl⟩ := Option.map_eq_some_iff.1 h
  rfl

/-- The calls since the last statement of a process. -/
def since (i : ℕ) (hist : List (AppEvent Jwk)) : List (AppEvent Jwk) :=
  hist.rtakeWhile fun e => (stmtBy e).all fun x => !decide (x.1 = i)

/-- **The guard**: when the `UPDATE` of a `PATCH` takes effect, no row with its identity was created
since it read. -/
def RestReadsPresent (hist : List (AppEvent Jwk)) (e : AppEvent Jwk) : Prop :=
  match changeOf e with
  | some d₀ => e.req.method = .patch →
      ∀ d ∈ changesMade (since e.who hist), d.creates d₀.key = false
  | none => True

instance (hist : List (AppEvent Jwk)) (e : AppEvent Jwk) : Decidable (RestReadsPresent hist e) := by
  unfold RestReadsPresent
  cases changeOf e <;> infer_instance

theorem callsOf_filterMap_stmtBy (i : ℕ) (hist : List (AppEvent Jwk)) :
    callsOf i (hist.filterMap stmtBy) = statements (own i hist) := by
  induction hist using List.reverseRecOn with
  | nil => rfl
  | append_singleton hist e ih =>
      rw [List.filterMap_append, Interaction.callsOf_append, ih, statements_own_snoc,
        List.filterMap_cons, List.filterMap_nil, stmtBy]
      congr 1
      cases AppOp.stmt? (⟨e.op, e.reply⟩ : Answered (AppOp Jwk) AppOp.Ret) with
      | none => split_ifs <;> rfl
      | some x => exact Interaction.callsOf_singleton i (e.who, x)

/-- The changes of the calls are those of their statements. -/
theorem changesMade_eq (hist : List (AppEvent Jwk)) :
    changesMade hist = (hist.filterMap stmtBy).filterMap fun x => x.2.1.change x.2.2 := by
  rw [List.filterMap_filterMap, changesMade]
  refine List.filterMap_congr fun e _ => ?_
  rw [changeOf, stmtBy, Option.bind_map]
  rfl

theorem changes_eq (hist : List ServiceEvent) :
    changes hist = (calls hist).filterMap fun x => x.2.1.change x.2.2 := by
  rw [calls, List.filterMap_map]
  rfl

namespace App

variable {app : App Jwk Key} {env : AppEnv Jwk} {w : AppWorld Jwk} {reqs : List HttpRequest}
  {c : AppConfig Jwk} {c' : ServiceConfig} {G : List (AppEvent Jwk) → AppEvent Jwk → Prop}

/-- **The request of the service that stands for a process**, and what is left of it: if the process
has come to the settings, the one that was asked for. -/
structure Stands (app : App Jwk Key) (c : AppConfig Jwk) (i : ℕ) (q : Request)
    (y : Prog Stmt Stmt.Ret Result) : Prop where
  proper : q.Proper
  follows : (q.prog app.base).Follows (statements (own i c.hist)) y
  came : statements (own i c.hist) ≠ [] → ∃ p auth t z, c.procs[i]? = some p ∧ app.Asked p.req q ∧
    app.Came p.req auth t z q y ∧ statements t = statements (own i c.hist) ∧
    p.prog = (z >>= fun r => .pure (finish p.req r))

/-- A search, which stands for a process that has not come to the settings. -/
def idle : Request :=
  .search "" ⟨⟨""⟩, ⟨"u"⟩, .user⟩ ⟨1, 1, Nat.zero_lt_one, Nat.zero_lt_one, Nat.le_add_left 1 99⟩

theorem stands_idle {i : ℕ} (h : statements (own i c.hist) = []) :
    ∃ q y, app.Stands c i q y := by
  refine ⟨idle, idle.prog app.base, ⟨⟨by decide, by decide, by decide⟩, by decide⟩, ?_,
    fun hne => absurd h hne⟩
  rw [h]
  exact .refl _

theorem exists_stands (hlib : app.lib.Documented) (hdemo : app.config.demoTriggerToken = none)
    (hproper : ∀ req ∈ reqs, ∀ q, app.Asked req q → q.Proper)
    (hc : Reachable (app.exec env) G (Snapshot.init w app.handle reqs) c) (i : ℕ) :
    ∃ q y, app.Stands c i q y := by
  cases hi : reqs[i]? with
  | none => exact stands_idle (by rw [hc.own_eq_nil hi]; rfl)
  | some req =>
      obtain ⟨p, hp, rfl⟩ := hc.exists_proc hi
      rcases came_of_follows hdemo (hc.follows hp) with hnil |
        ⟨token, auth, t₁, t₂, z, q, y, hown, ha, hcame, hprog⟩
      · exact stands_idle hnil
      · have hst : statements t₂ = statements (own i c.hist) := by
          rw [hown, statements_append, ha.statements, List.nil_append]
        obtain ⟨claims, later, ttl, hbearer, hclaims, hnames⟩ := ha.names hlib
        have hauth := hcame.makes.authority_eq
        have hasked : app.Asked p.req q :=
          ⟨token, claims, later, ttl, hbearer, hclaims, hauth ▸ hnames, hauth ▸ hcame.makes⟩
        exact ⟨q, y, hproper _ (List.mem_of_getElem? hi) _ hasked, hst ▸ hcame.follows,
          fun _ => ⟨p, auth, t₂, z, hp, hasked, hcame, hst, hprog⟩⟩

/-- A run of the service behind a run of the router: the requests of the service that stand for its
processes run the same statements and leave the same table. -/
structure RestRun (app : App Jwk Key) (c : AppConfig Jwk) (qs : List Request) (c' : ServiceConfig) :
    Prop where
  table : c'.state = c.state.table
  calls_eq : calls c'.hist = c.hist.filterMap stmtBy
  proper : ∀ q ∈ qs, q.Proper
  stands : ∀ i p', c'.procs[i]? = some p' → app.Stands c i p'.req p'.prog

/-- The requests that came to the service are a run of it. -/
theorem exists_plain_rest_run (hlib : app.lib.Documented)
    (hdemo : app.config.demoTriggerToken = none)
    (hproper : ∀ req ∈ reqs, ∀ q, app.Asked req q → q.Proper)
    (hc : Reachable (app.exec env) G (Snapshot.init w app.handle reqs) c) :
    ∃ (qs : List Request) (c' : ServiceConfig), qs.length = reqs.length ∧
      Reachable env.pg.exec (fun _ _ => True)
        (Snapshot.init w.table (Request.prog app.base) qs) c' ∧ app.RestRun c qs c' := by
  choose q y hstands using exists_stands (c := c) hlib hdemo hproper hc
  let qs : List Request := (List.range reqs.length).map q
  have hqs : ∀ i, i < reqs.length → qs[i]? = some (q i) := by
    intro i hi
    rw [List.getElem?_map, List.getElem?_range hi, Option.map_some]
  have hskip : ∀ (n : ℕ) (e : AppEvent Jwk), c.hist[n]? = some e → stmtBy e = none →
      (app.exec env e.op e.before).2.table = e.before.table := by
    intro n e he hnone
    rw [stmtBy, Option.map_eq_none_iff] at hnone
    exact table_of_stmt?_eq_none hnone e.before
  have hcall : ∀ (n : ℕ) (e : AppEvent Jwk) (j : ℕ) (x : Answered Stmt Stmt.Ret),
      c.hist[n]? = some e → stmtBy e = some (j, x) →
        env.pg.exec x.1 e.before.table = (x.2, (app.exec env e.op e.before).2.table) ∧
        ∃ q₁ k, qs[j]? = some q₁ ∧ (Request.prog app.base q₁).Follows
          (callsOf j (subcalls (fun _ e => stmtBy e) (c.hist.take n))) (.call x.1 k) := by
    intro n e j x he hx
    rw [stmtBy, Option.map_eq_some_iff] at hx
    obtain ⟨x', hx, hjx⟩ := hx
    obtain ⟨rfl, rfl⟩ := Prod.mk.inj hjx
    refine ⟨exec_of_stmt? hx (hc.next he).reply, ?_⟩
    have hlt : e.who < reqs.length := (List.getElem?_eq_some_iff.1 (hc.req_of_event he)).1
    have hsplit : statements (own e.who c.hist) = statements (own e.who (c.hist.take n)) ++
        x' :: statements (own e.who (c.hist.drop (n + 1))) := by
      rw [Interaction.own_eq_of_getElem? he, statements_append]
      exact congrArg _ (List.filterMap_cons_some hx)
    obtain ⟨k, hk⟩ := Follows.reaches (hsplit ▸ (hstands e.who).follows)
    refine ⟨q e.who, k, hqs _ hlt, ?_⟩
    rwa [Interaction.subcalls_eq_filterMap, callsOf_filterMap_stmtBy]
  obtain ⟨c', hc', hcalls, hstate⟩ := hc.subrun (fun _ e => stmtBy e) AppWorld.table
    env.pg.exec (Request.prog app.base) qs hskip hcall
  rw [Interaction.subcalls_eq_filterMap] at hcalls
  refine ⟨qs, c', by simp [qs], hc', hstate, hcalls, fun q' hq' => ?_, fun i p' hp' => ?_⟩
  · obtain ⟨i, -, rfl⟩ := List.mem_map.1 hq'
    exact (hstands i).proper
  · have hreq := hc'.req_of_proc hp'
    have hlt : i < reqs.length := by
      have := (List.getElem?_eq_some_iff.1 hreq).1
      simpa [qs] using this
    rw [hqs i hlt, Option.some.injEq] at hreq
    have hfollows := hc'.follows hp'
    rw [← Interaction.callsOf_calls, hcalls, callsOf_filterMap_stmtBy, ← hreq] at hfollows
    rw [← hreq, hfollows.unique (hstands i).follows]
    exact hstands i

/-- **The guard of the router is that of the service.** -/
theorem RestRun.readsPresent {qs : List Request}
    (hc : Reachable (app.exec env) RestReadsPresent (Snapshot.init w app.handle reqs) c)
    (hc' : Reachable env.pg.exec (fun _ _ => True)
      (Snapshot.init w.table (Request.prog app.base) qs) c') (h : app.RestRun c qs c') :
    Reachable env.pg.exec ReadsPresent (Snapshot.init w.table (Request.prog app.base) qs) c' := by
  refine hc'.of_hist fun n hn => ?_
  have he' : c'.hist[n]? = some c'.hist[n] := List.getElem?_eq_getElem hn
  generalize c'.hist[n] = e' at he'
  cases hreq : e'.req with
  | get | search => simp [ReadsPresent, hreq]
  | write v =>
      rw [ReadsPresent, hreq]
      intro hpatch hsome
      obtain ⟨d₀, hd₀⟩ := Option.isSome_iff_exists.1 hsome
      -- the change is one of the row of the write
      obtain ⟨v', hcommit⟩ := committed_of_changed hc' he' hd₀
      have hkey := hcommit.key_eq hc' he' hd₀
      obtain rfl : v = v' := by
        have := hcommit.req
        rw [hreq, Request.write.injEq] at this
        exact this
      -- the write has read before
      have hown : own e'.who (c'.hist.take n) ≠ [] := by
        obtain ⟨k, hk⟩ := (hc'.next he').follows
        rw [hreq] at hk
        obtain ⟨r₁, settings, plan, hown, -⟩ := (Write.performed_of_follows hk).of_change hd₀
        rw [hown]
        exact List.cons_ne_nil _ _
      obtain ⟨m, e, he, hstmt, htake⟩ := Interaction.exists_source h.calls_eq he'
      have hwho : e.who = e'.who := by
        rw [stmtBy, Option.map_eq_some_iff] at hstmt
        obtain ⟨x, -, hx⟩ := hstmt
        exact (Prod.mk.inj hx).1
      have hchange : changeOf e = some d₀ := by
        rw [stmtBy, Option.map_eq_some_iff] at hstmt
        obtain ⟨x, hx, hpair⟩ := hstmt
        obtain rfl := (Prod.mk.inj hpair).2
        rw [changeOf, hx]
        exact hd₀
      have hsince : changes ((c'.hist.take n).drop e'.mark) =
          changesMade (since e.who (c.hist.take m)) := by
        rw [changes_eq, hc'.calls_since he' hown, htake, changesMade_eq, since,
          Interaction.filterMap_rtakeWhile (fun _ => rfl), hwho]
      -- so the request is a `PATCH`, and the guard of the router says it
      have hmethod : e.req.method = .patch := by
        obtain ⟨p', hp', hpreq⟩ := hc'.exists_proc (hc'.req_of_event he')
        have hcame : statements (own e'.who c.hist) ≠ [] := by
          rw [← callsOf_filterMap_stmtBy, ← h.calls_eq, Interaction.callsOf_calls,
            Interaction.own_eq_of_getElem? he']
          simp
        obtain ⟨p, auth, t, z, hp, -, hmade, -⟩ := (h.stands _ p' hp').came hcame
        have heq := hc.req_of_event he
        rw [hwho, hc.req_of_proc hp, Option.some.injEq] at heq
        rw [← heq]
        have hmakes := hmade.makes
        rw [hpreq, hreq] at hmakes
        exact hmakes.method_of_patch hpatch
      have hguard := hc.admitted he
      rw [RestReadsPresent, hchange] at hguard
      rw [hsince, ← hkey]
      exact hguard hmethod

/-- The statements of a process are answered by Postgres. -/
theorem answered_statements (hc : Reachable (app.exec env) G (Snapshot.init w app.handle reqs) c)
    (i : ℕ) : ∀ x ∈ statements (own i c.hist), ∃ T, x.2 = (env.pg.exec x.1 T).1 := by
  intro x hx
  obtain ⟨y, hy, hx⟩ := List.mem_filterMap.1 hx
  obtain ⟨n, e, he, -, rfl⟩ := Interaction.mem_own_iff.1 hy
  exact ⟨_, (congrArg Prod.fst (exec_of_stmt? hx (hc.next he).reply)).symm⟩

/-- **What a process that came to the settings answers** shows what the service returned. -/
theorem Stands.shows (hc : Reachable (app.exec env) G (Snapshot.init w app.handle reqs) c) {i : ℕ}
    {q : Request} {y : Prog Stmt Stmt.Ret Result} (h : app.Stands c i q y)
    (hcame : statements (own i c.hist) ≠ []) :
    ∃ p, c.procs[i]? = some p ∧ app.Asked p.req q ∧
      ∀ key resp, p.req.route = .setting key → p.prog = .pure (some resp) →
        ∃ x, y = .pure x ∧ app.Shows p.req q (shownOf x) resp ∧
          (resp.status < 400 ∨ p.req.method = .get ∨ p.req.method = .head →
            (∃ v, q = .write v) → ∃ a, x = .ok a) := by
  obtain ⟨p, auth, t, z, hp, hasked, hmade, hst, hprog⟩ := h.came hcame
  refine ⟨p, hp, hasked, fun key resp hroute hresp => ?_⟩
  obtain ⟨x, hx, hshows, hok⟩ := shows_of_came env hmade hroute
    (hst ▸ answered_statements hc i) (hprog ▸ hresp)
  refine ⟨x, hx, hshows, fun hgood hv => ?_⟩
  rcases hgood with hlt | hread
  · exact hok hlt
  · obtain ⟨v, rfl⟩ := hv
    cases hmade.makes.write?_eq_none hread

/-- **The processes `is` in this order** do to the map what they are for.  Each one asked the
service for something and answers what the map then shows, and the table stands for the map that the
last one leaves; none comes before one that had returned before it began.  They include the requests
to `/settings/:key` that came to the settings and were answered, if they read or succeeded. -/
structure RestAsSpecified (app : App Jwk Key) (c : AppConfig Jwk) (is : List ℕ) : Prop where
  nodup : is.Nodup
  served : ∀ (i : ℕ) (p : Proc (AppOp Jwk) AppOp.Ret HttpRequest (Option Response))
    (key : String) (resp : Response), c.procs[i]? = some p → p.req.route = .setting key →
      p.prog = .pure (some resp) → statements (own i c.hist) ≠ [] →
        resp.status < 400 ∨ p.req.method = .get ∨ p.req.method = .head → i ∈ is
  realTime : is.Pairwise fun i j => ¬ Precedes c.hist j i
  answers : ∃ rs : List Request, rs.length = is.length ∧
    (∀ m i, is[m]? = some i → ∃ p q, c.procs[i]? = some p ∧ rs[m]? = some q ∧ app.Asked p.req q ∧
      ∀ key resp, p.req.route = .setting key → p.prog = .pure (some resp) →
        ∀ a, answerAt rs m = some a → app.Shows p.req q a resp) ∧
    c.state.table.settings = mapAt rs is.length

/-- The statements of the run of the service are those of the router. -/
theorem RestRun.keeps {qs : List Request} {c' : ServiceConfig} (h : app.RestRun c qs c')
    (hkeeps : ∀ e ∈ c.hist, ∀ s, e.op = .settings s → env.pg.Keeps s) :
    ∀ e ∈ c'.hist, env.pg.Keeps e.op := by
  intro e' he'
  obtain ⟨n, hn⟩ := List.getElem?_of_mem he'
  obtain ⟨m, ⟨i, q, o, r, W, mark⟩, he, hstmt, -⟩ := Interaction.exists_source h.calls_eq hn
  obtain ⟨x, hx, hpair⟩ := Option.map_eq_some_iff.1 hstmt
  obtain rfl := (Prod.mk.inj hpair).2
  cases o with
  | settings s =>
      have hop : s = e'.op := congrArg Sigma.fst (Option.some.inj hx)
      exact hop ▸ hkeeps _ (List.mem_of_getElem? he) s rfl
  | auth | allow | ready | gather | forward => cases hx

/-- **HTTP clients observe a settings map**, whatever requests are in flight: those that read and
those that succeed, where the demo trigger is off and no version can reach the largest `INTEGER`. -/
theorem exists_rest_order (hlib : app.lib.Documented)
    (hdemo : app.config.demoTriggerToken = none)
    (hproper : ∀ req ∈ reqs, ∀ q, app.Asked req q → q.Proper)
    (hlen : (reqs.length : ℤ) ≤ i32Max) (hw : w.table = Table.empty)
    (hc : Reachable (app.exec env) RestReadsPresent (Snapshot.init w app.handle reqs) c)
    (hkeeps : ∀ e ∈ c.hist, ∀ s, e.op = .settings s → env.pg.Keeps s) :
    ∃ is, app.RestAsSpecified c is := by
  obtain ⟨qs, c', hqslen, hc', hrun⟩ := exists_plain_rest_run hlib hdemo hproper hc
  have hguarded := hrun.readsPresent hc hc'
  rw [hw] at hguarded
  have hspec := asSpecified_points hrun.proper (by omega) hguarded (hrun.keeps hkeeps)
  generalize (points c'.hist).map (fun e => e.who) = is at hspec
  obtain ⟨rs, hrslen, halone, hstate⟩ := hspec.answers
  refine ⟨is, hspec.nodup, fun i p key resp hp hroute hresp hcame hgood => ?_,
    hspec.realTime.imp fun h hij => h (hij.of_calls hrun.calls_eq fun _ _ => who_of_stmtBy),
    rs, hrslen, fun m i hm => ?_, by rw [← hrun.table]; exact hstate⟩
  · -- the service has served the request that stands for it
    have hi : i < qs.length := hqslen ▸ (List.getElem?_eq_some_iff.1 (hc.req_of_proc hp)).1
    obtain ⟨p', hp', -⟩ := hc'.exists_proc (List.getElem?_eq_getElem hi)
    obtain ⟨p₁, hp₁, -, hshows⟩ := (hrun.stands i p' hp').shows hc hcame
    rw [hp, Option.some.injEq] at hp₁
    subst hp₁
    obtain ⟨x, hx, -, hok⟩ := hshows key resp hroute hresp
    exact (hspec.served i p' hp').2 ⟨x, hx, hok hgood⟩
  · obtain ⟨p', x, hp', hreq, hx, hshown⟩ := halone m i hm
    have hstands := hrun.stands i p' hp'
    -- what has returned has run a statement
    have hcame : statements (own i c.hist) ≠ [] := fun hnil => by
      have hfollows := hstands.follows
      rw [hnil, hx] at hfollows
      exact Request.prog_ne_pure (hfollows.unique (.refl _)).symm
    obtain ⟨p, hp, hasked, hshows⟩ := hstands.shows hc hcame
    refine ⟨p, p'.req, hp, hreq, hasked, fun key resp hroute hresp a ha => ?_⟩
    obtain ⟨y, hy, hshow, -⟩ := hshows key resp hroute hresp
    obtain rfl := Prog.pure.inj (hx.symm.trans hy)
    exact hshown a ha ▸ hshow

end App

/-! ### Requests of Alice -/

namespace Sample

/-- A `GET` with the token of Alice. -/
def getTheme : HttpRequest := { putTheme with method := .get }

/-- A `PATCH` at version `1`, with the token of Alice. -/
def patchTheme : HttpRequest where
  method := .patch
  route := .setting "theme"
  headers := ("if-match", [34, 49, 34]) :: putTheme.headers
  body := []

/-- What Alice asks for is proper. -/
theorem proper_of_asked {req : HttpRequest} (hbearer : bearerToken req.headers = some "t")
    (hroute : req.route = .setting "theme") {q : Request} (h : server.Asked req q) : q.Proper := by
  obtain ⟨token, claims, later, ttl, htoken, hclaims, hnames, hmakes⟩ := h
  obtain rfl := Option.some.inj (hbearer.symm.trans htoken)
  obtain rfl := Option.some.inj hclaims
  have hauth : q.authority = alice := by
    generalize q.authority = auth at hnames
    obtain ⟨⟨tenant⟩, ⟨user⟩, role⟩ := auth
    obtain rfl : "acme" = tenant := Option.some.inj hnames.tenant
    obtain rfl : "alice" = user := Option.some.inj hnames.user
    obtain rfl : role = .user := hnames.role
    rfl
  have hnul : dark.value.AddsNoNul := by
    rintro m hm -
    obtain rfl := List.mem_singleton.1 hm
    exact ⟨by decide, by decide⟩
  have hkeys : ∀ {key text : String} {k : SettingKey}, req.route = .setting key →
      server.extractors.path key = .ok text → SettingKey.new text = .ok k →
        textAccepted k.asStr = true := by
    intro key text k hkey hpath hk
    rw [hroute] at hkey
    cases hkey
    cases hpath
    cases hk
    decide
  refine ⟨?_, by rw [hauth]; decide⟩
  rw [hauth] at hmakes
  cases hmakes with
  | search _ hsettings =>
      rw [hroute] at hsettings
      cases hsettings
  | get hr _ hp hk => exact ⟨by decide, hkeys hr hp hk⟩
  | put _ hr _ hp hk hb hv =>
      cases hb
      cases hv
      exact ⟨by decide, hkeys hr hp hk, by decide, by decide⟩
  | patch _ hr _ hp hk hb hv =>
      cases hb
      cases hv
      exact ⟨by decide, hkeys hr hp hk, fun _ => hnul⟩
  | delete hr _ hp hk => exact ⟨by decide, hkeys hr hp hk⟩

end Sample

open Sample in
/-- A `PUT`, then a `PATCH` of what it created, with a `GET` between the statements of the
`PATCH`. -/
theorem App.exists_rest_order_of_get_between : ∃ is, server.RestAsSpecified
    (inFlight [putTheme, patchTheme, getTheme]
      (List.replicate 14 0 ++ List.replicate 7 1 ++ List.replicate 6 2 ++ [1])) is := by
  refine exists_rest_order (documented_lib _) rfl ?_ (by decide) rfl
    ((reachable_inFlight _ _).of_hist (by decide +kernel)) fun _ _ _ _ _ _ => rfl
  intro req hreq q
  simp only [List.mem_cons, List.not_mem_nil, or_false] at hreq
  rcases hreq with rfl | rfl | rfl
  all_goals exact proper_of_asked (by decide) rfl

end SettingsService
