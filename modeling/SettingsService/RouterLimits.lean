import SettingsService.Mediation
import SettingsService.RateLimiterRuns

/-!
# The limiter over HTTP

Requests in flight ask the limiter at most once each: those to the settings slice under the key of
their tenant, logouts under another key of it.  So what the limiter guarantees of its calls it
guarantees of the requests: in any stretch of whole seconds only so many requests of a tenant are
let through to the settings, and one is refused only when as many were let through in the second
before, whatever other tenants and logouts do.

Main definitions:

* `AppOp.allow?`, `allowances` — the calls to the limiter in a trace;
* `timeOf`, `allowLog` — the time of a call, and the calls to the limiter in a history;
* `LetThrough` — a call lets a request on to the settings slice;
* `App.FullFor` — the limiter was full for a tenant.

Main results:

* `App.Handles.allowances_cases` — a request asks the limiter at most once;
* `App.logged_of_reachable` — the calls to the limiter are a run of the limiter;
* `App.rate_limited` — **no burst of a tenant gets through to the settings**;
* `App.limited_by_own_tenant` — **no request is refused because of other tenants or logouts**.
-/

set_option relaxedAutoImplicit false
set_option autoImplicit false

namespace SettingsService

open Interaction (Prog Snapshot Reachable Answered own)

variable {Jwk Key : Type}

/-! ### Calls to the limiter -/

/-- The key and the answer of a call to the limiter. -/
def AppOp.allow? : Answered (AppOp Jwk) AppOp.Ret → Option (String × Bool)
  | ⟨.allow key, b⟩ => some (key, b)
  | _ => none

/-- The calls to the limiter. -/
def allowances (tr : AppTrace Jwk) : List (String × Bool) := tr.filterMap AppOp.allow?

@[simp] theorem allowances_append (tr tr' : AppTrace Jwk) :
    allowances (tr ++ tr') = allowances tr ++ allowances tr' := List.filterMap_append

@[simp] theorem allowances_map_authCall (tv : AuthTrace Jwk) :
    allowances (tv.map authCall) = [] := by
  rw [allowances, List.filterMap_map, List.filterMap_eq_nil_iff]
  exact fun x _ => rfl

@[simp] theorem allowances_map_stmtCall (ts : StmtTrace) :
    allowances (ts.map stmtCall : AppTrace Jwk) = [] := by
  rw [allowances, List.filterMap_map, List.filterMap_eq_nil_iff]
  exact fun x _ => rfl

@[simp] theorem allowances_allow (key : String) (b : Bool) :
    allowances ([⟨.allow key, b⟩] : AppTrace Jwk) = [(key, b)] := rfl

namespace App

variable {app : App Jwk Key} {env : AppEnv Jwk} {w : AppWorld Jwk} {reqs : List HttpRequest}
  {c : AppConfig Jwk} {req : HttpRequest} {tr : AppTrace Jwk}

theorem Admitted.allowances {pre : String} {headers : HeaderMap} {token : String} {auth : Authority}
    (h : app.Admitted pre headers token auth tr) :
    allowances tr = [(pre ++ auth.tenant.asStr, true)] := by
  obtain ⟨tv, -, rfl⟩ := h
  simp

/-- **A request asks the limiter at most once**: one to the settings slice under the key of the
tenant of its token, a logout under another key.  One to the settings slice that is refused runs no
statement and is answered. -/
theorem Handles.allowances_cases {p : Prog (AppOp Jwk) AppOp.Ret (Option Response)}
    (h : app.Handles req tr p) : allowances tr = [] ∨
      (∃ token auth tv b, req.route.IsSettings ∧ app.Validated req.headers token auth tv ∧
        allowances tr = [("tenant:" ++ auth.tenant.asStr, b)] ∧
        (b = false → statements tr = [] ∧ p = .pure (some (securityHeaders rateLimited)))) ∨
      ∃ tenant b, req.route = .logout ∧ allowances tr = [("auth:" ++ tenant, b)] := by
  cases h with
  | probe _ h =>
      left
      rw [allowances, List.filterMap_eq_nil_iff]
      rintro ⟨o, r⟩ hor
      have ho := h _ hor
      cases o with
      | allow key => exact ho.elim
      | auth | settings | ready | gather | forward => rfl
  | @validating tv => exact .inl (allowances_map_authCall tv)
  | @refused token auth tv hroute hv =>
      refine .inr (.inl ⟨token, auth, tv, false, hroute, hv, by simp, fun _ => ⟨?_, rfl⟩⟩)
      rw [statements_append, statements_map_authCall]
      rfl
  | @admitted token auth t₁ t₂ _ hroute ha hserves =>
      obtain ⟨clock, ts, rfl, -⟩ := hserves
      have hallow := ha.allowances
      obtain ⟨tv, hv, -⟩ := ha
      exact .inr (.inl ⟨token, auth, tv, true, hroute, hv, by simp [hallow], fun hb => by cases hb⟩)
  | @turnedAway token auth tv _ hroute =>
      exact .inr (.inr ⟨auth.tenant.asStr, false, hroute, by simp⟩)
  | @loggingOut token auth t₁ tl y _ hroute ha =>
      exact .inr (.inr ⟨auth.tenant.asStr, true, hroute, by simp [ha.allowances]⟩)
  | demo _ htwo =>
      obtain ⟨ts, ts', clock, rfl, -⟩ := htwo
      exact .inl (by simp)

end App

/-! ### The log of the limiter -/

/-- When a call was made. -/
def timeOf (env : AppEnv Jwk) (e : AppEvent Jwk) : Instant := env.auth.clock e.before.auth.steps

/-- The call of an event to the limiter. -/
def allowCall (env : AppEnv Jwk) (e : AppEvent Jwk) : Option AllowCall :=
  (AppOp.allow? ⟨e.op, e.reply⟩).map fun x => ⟨x.1, timeOf env e, x.2⟩

/-- The calls of a history to the limiter. -/
def allowLog (env : AppEnv Jwk) (hist : List (AppEvent Jwk)) : List AllowCall :=
  hist.filterMap (allowCall env)

/-- Time goes on with the calls. -/
theorem clock_exec (app : App Jwk Key) (env : AppEnv Jwk) (o : AppOp Jwk) (w : AppWorld Jwk) :
    env.auth.clock w.auth.steps ≤ env.auth.clock (app.exec env o w).2.auth.steps := by
  refine env.auth.clock_mono ?_
  cases o with
  | auth o => exact (Nat.le_succ _).trans_eq (AuthOp.exec_steps env.auth o w.auth).symm
  | allow key => exact Nat.le_succ _
  | settings | ready | gather | forward => exact Nat.le_refl _

namespace App

variable {app : App Jwk Key} {env : AppEnv Jwk} {w : AppWorld Jwk} {reqs : List HttpRequest}
  {c : AppConfig Jwk}

/-- What the log says about the limiter: its calls, at times that do not go back, are a run that
leaves these buckets. -/
structure Logged (app : App Jwk Key) (env : AppEnv Jwk) (w : AppWorld Jwk)
    (hist : List (AppEvent Jwk)) : Prop where
  run : app.limiter.run ((allowLog env hist).map fun call => (call.key, call.time)) =
    (w.buckets, allowLog env hist)
  sorted : (allowLog env hist).Pairwise fun x y => x.time ≤ y.time
  past : ∀ call ∈ allowLog env hist, call.time ≤ env.auth.clock w.auth.steps

/-- **The calls to the limiter are a run of the limiter.** -/
theorem logged_of_reachable (hw : w.buckets = ∅)
    (hc : Reachable (app.exec env) (fun _ _ => True) (Snapshot.init w app.handle reqs) c) :
    app.Logged env c.state c.hist := by
  refine (Reachable.invariant (I := fun s hist => app.Logged env s hist)
    (P := fun _ _ _ _ => True) ⟨by rw [hw]; rfl, .nil, by simp [allowLog]⟩
    (fun _ _ _ => trivial) ?_ hc).1
  intro s hist i p o k ⟨hrun, hsorted, hpast⟩ _ _ _
  refine ⟨?_, trivial, fun _ _ _ _ => trivial⟩
  have hclock := clock_exec app env o s
  cases ho : AppOp.allow? (⟨o, (app.exec env o s).1⟩ : Answered (AppOp Jwk) AppOp.Ret) with
  | none =>
      have hlog : allowLog env (hist ++ [Interaction.eventOf (app.exec env) s i p o]) =
          allowLog env hist := by
        rw [allowLog, List.filterMap_append]
        simp [Interaction.eventOf, allowCall, ho, allowLog]
      have hbuckets : (app.exec env o s).2.buckets = s.buckets := by
        cases o with
        | allow key => cases ho
        | auth | settings | ready | gather | forward => rfl
      refine ⟨by rw [hlog, hrun, hbuckets], by rwa [hlog], fun call hcall => ?_⟩
      rw [hlog] at hcall
      exact (hpast call hcall).trans hclock
  | some x =>
      cases o with
      | allow key =>
          have hevent :
              allowLog env (hist ++ [Interaction.eventOf (app.exec env) s i p (.allow key)]) =
                allowLog env hist ++ [⟨key, env.auth.clock s.auth.steps,
                  (app.limiter.allow key (env.auth.clock s.auth.steps) s.buckets).1⟩] := by
            rw [allowLog, List.filterMap_append]
            rfl
          refine ⟨?_, ?_, fun call hcall => ?_⟩
          · rw [hevent, List.map_append, List.map_singleton, RateLimiter.run_snoc, hrun]
            rfl
          · rw [hevent, List.pairwise_append]
            refine ⟨hsorted, List.pairwise_singleton _ _, fun call hcall call' hcall' => ?_⟩
            rw [List.mem_singleton.1 hcall']
            exact hpast call hcall
          · rw [hevent, List.mem_append, List.mem_singleton] at hcall
            rcases hcall with hcall | rfl
            · exact (hpast call hcall).trans hclock
            · exact hclock
      | auth | settings | ready | gather | forward => cases ho

end App

/-! ### Requests that are let through -/

/-- The limiter lets a request of the tenant on to the settings slice. -/
def LetThrough (tenant : String) (e : AppEvent Jwk) : Prop :=
  AppOp.allow? ⟨e.op, e.reply⟩ = some ("tenant:" ++ tenant, true)

instance (tenant : String) (e : AppEvent Jwk) : Decidable (LetThrough tenant e) :=
  inferInstanceAs (Decidable (_ = _))

/-- What the limiter let through for a tenant are the calls of the history that let a request on. -/
theorem admitted_allowLog (env : AppEnv Jwk) (tenant : String) (p : Instant → Prop)
    [DecidablePred p] (hist : List (AppEvent Jwk)) :
    admitted ("tenant:" ++ tenant) p (allowLog env hist) =
      (hist.filter fun e => LetThrough tenant e ∧ p (timeOf env e)).length := by
  rw [admitted, allowLog, List.countP_filterMap, ← List.countP_eq_length_filter]
  refine List.countP_congr fun e _ => ?_
  obtain ⟨i, req, o, r, w, mark⟩ := e
  cases o with
  | allow key =>
      cases r <;> simp [allowCall, AppOp.allow?, LetThrough, timeOf]
  | auth | settings | ready | gather | forward => simp [allowCall, AppOp.allow?, LetThrough]

namespace App

variable {app : App Jwk Key} {env : AppEnv Jwk} {w : AppWorld Jwk} {reqs : List HttpRequest}
  {c : AppConfig Jwk}

/-- What a process has performed, and what it has left to do. -/
theorem handles_of_event
    (hc : Reachable (app.exec env) (fun _ _ => True) (Snapshot.init w app.handle reqs) c) {n : ℕ}
    {e : AppEvent Jwk} (he : c.hist[n]? = some e) :
    ∃ p, c.procs[e.who]? = some p ∧ app.Handles e.req (own e.who c.hist) p.prog := by
  obtain ⟨p, hp, hreq⟩ := hc.exists_proc (hc.req_of_event he)
  exact ⟨p, hp, hreq ▸ handles_of_follows (hc.follows hp)⟩

/-- A call to the limiter is one of its process. -/
theorem mem_allowances_own {hist : List (AppEvent Jwk)} {e : AppEvent Jwk} (he : e ∈ hist)
    {x : String × Bool} (hx : AppOp.allow? ⟨e.op, e.reply⟩ = some x) :
    x ∈ allowances (own e.who hist) :=
  List.mem_filterMap.2
    ⟨_, List.mem_map.2 ⟨e, List.mem_filter.2 ⟨he, decide_eq_true rfl⟩, rfl⟩, hx⟩

/-- **A process asks the limiter at most once.** -/
theorem allowances_own_le_one
    (hc : Reachable (app.exec env) (fun _ _ => True) (Snapshot.init w app.handle reqs) c) (i : ℕ) :
    (allowances (own i c.hist)).length ≤ 1 := by
  cases hi : reqs[i]? with
  | none =>
      rw [hc.own_eq_nil hi]
      exact Nat.zero_le _
  | some req =>
      obtain ⟨p, hp, -⟩ := hc.exists_proc hi
      rcases (handles_of_follows (hc.follows hp)).allowances_cases with hnone |
        ⟨token, auth, tv, b, -, -, hone, -⟩ | ⟨tenant, b, -, hone⟩
      · rw [hnone]
        exact Nat.zero_le _
      · rw [hone]
        exact Nat.le_refl _
      · rw [hone]
        exact Nat.le_refl _

/-- A request that was let through is one to the settings slice. -/
theorem isSettings_of_letThrough
    (hc : Reachable (app.exec env) (fun _ _ => True) (Snapshot.init w app.handle reqs) c) {n : ℕ}
    {e : AppEvent Jwk} (he : c.hist[n]? = some e) {tenant : String} (hlet : LetThrough tenant e) :
    e.req.route.IsSettings := by
  obtain ⟨p, -, hhandles⟩ := handles_of_event hc he
  have hmem := mem_allowances_own (List.mem_of_getElem? he) hlet
  rcases hhandles.allowances_cases with hnone | ⟨token, auth, tv, b, hroute, -⟩ |
    ⟨tenant', b, -, hone⟩
  · rw [hnone] at hmem
    cases hmem
  · exact hroute
  · rw [hone, List.mem_singleton, Prod.mk.injEq] at hmem
    have hhead := congrArg (fun s : String => s.toList.head?) hmem.1
    simp at hhead

/-- So no process is let through twice. -/
theorem nodup_letThrough
    (hc : Reachable (app.exec env) (fun _ _ => True) (Snapshot.init w app.handle reqs) c)
    (tenant : String) (p : Instant → Prop) [DecidablePred p] :
    ((c.hist.filter fun e => LetThrough tenant e ∧ p (timeOf env e)).map fun e => e.who).Nodup := by
  rw [List.nodup_iff_count_le_one]
  intro i
  refine Nat.le_trans ?_ (allowances_own_le_one hc i)
  rw [List.count_eq_countP, List.countP_map, List.countP_filter, allowances, own,
    List.filterMap_map, List.filterMap_filter, List.length_filterMap_eq_countP]
  refine List.countP_mono_left fun e _ he => ?_
  rw [Bool.and_eq_true, decide_eq_true_eq, Function.comp_apply, beq_iff_eq] at he
  obtain ⟨hwho, hlet, -⟩ := he
  rw [if_pos (decide_eq_true hwho), Function.comp_apply, hlet]
  rfl

/-- **No burst of a tenant gets through to the settings**: wherever `k` seconds lie, at most `k + 1`
times as many requests of a tenant as the configuration says are let through in them, and a request
that runs a statement was let through before, unless it is one of the demo trigger. -/
theorem rate_limited (hw : w.buckets = ∅)
    (hc : Reachable (app.exec env) (fun _ _ => True) (Snapshot.init w app.handle reqs) c) :
    (∀ tenant a k (is : List ℕ), is.Nodup →
      (∀ i ∈ is, ∃ e ∈ c.hist, e.who = i ∧ LetThrough tenant e ∧
        a ≤ timeOf env e ∧ timeOf env e < a + k * second) →
      is.length ≤ (k + 1) * app.config.rateLimitRequests) ∧
    ∀ (n : ℕ) (e : AppEvent Jwk) (s : Stmt), c.hist[n]? = some e → e.op = .settings s →
      (∃ m < n, ∃ e', c.hist[m]? = some e' ∧ e'.who = e.who ∧ LetThrough s.tenant e') ∨
      ∃ key token, app.Triggers e.req key token := by
  constructor
  · intro tenant a k is hnodup his
    obtain ⟨hrun, hsorted, -⟩ := logged_of_reachable hw hc
    have hlog : (app.limiter.run _).2 = allowLog env c.hist := congrArg Prod.snd hrun
    calc is.length
        ≤ ((c.hist.filter fun e => LetThrough tenant e ∧
            (a ≤ timeOf env e ∧ timeOf env e < a + k * second)).map fun e => e.who).length := by
          refine (List.subperm_of_subset hnodup fun i hi => ?_).length_le
          obtain ⟨e, he, hwho, hlet, htime⟩ := his i hi
          exact List.mem_map.2 ⟨e, List.mem_filter.2 ⟨he, by simp [hlet, htime]⟩, hwho⟩
      _ = admitted ("tenant:" ++ tenant) (fun t => a ≤ t ∧ t < a + k * second)
            (allowLog env c.hist) := by
          rw [List.length_map, admitted_allowLog]
      _ ≤ (k + 1) * app.config.rateLimitRequests := by
          rw [← hlog, app.limiter.admitted_run]
          refine FixedWindow.between_le (RateLimiter.timesOf_sorted ?_ _) a k
          exact hsorted.map _ fun _ _ h => h
  · intro n e s he hs
    refine (admitted_of_statement hc he hs).imp ?_ And.left
    rintro ⟨token, auth, t₁, t₂, hown, ⟨tv, -, rfl⟩, htenant⟩
    obtain ⟨m, hm, ⟨e', he', hwho, hcall⟩, -⟩ := CallAt.of_own (x := ⟨.allow _, true⟩)
      (hown.trans (List.append_assoc _ _ _))
    refine ⟨m, hm, e', he', hwho, ?_⟩
    rw [LetThrough, ← hcall, htenant]
    rfl

/-- The limiter was full for the tenant of a request: this many others to the settings slice were
let through in the second that ends with the call at position `n`. -/
def FullFor (app : App Jwk Key) (env : AppEnv Jwk) (c : AppConfig Jwk) (n : ℕ) (e : AppEvent Jwk)
    (tenant : String) : Prop :=
  ∃ is : List ℕ, is.Nodup ∧ is.length = app.config.rateLimitRequests ∧
    ∀ i ∈ is, i ≠ e.who ∧ ∃ m < n, ∃ e', c.hist[m]? = some e' ∧ e'.who = i ∧
      e'.req.route.IsSettings ∧ LetThrough tenant e' ∧
      timeOf env e' ≤ timeOf env e ∧ timeOf env e < timeOf env e' + second

/-- A call that the limiter refuses finds it full. -/
theorem fullFor_of_refused (hw : w.buckets = ∅)
    (hc : Reachable (app.exec env) (fun _ _ => True) (Snapshot.init w app.handle reqs) c) {n : ℕ}
    {e : AppEvent Jwk} (he : c.hist[n]? = some e) {tenant : String}
    (hx : AppOp.allow? ⟨e.op, e.reply⟩ = some ("tenant:" ++ tenant, false)) :
    app.FullFor env c n e tenant := by
  obtain ⟨hrun, hsorted, -⟩ := logged_of_reachable hw hc
  have hsplit : allowLog env c.hist = allowLog env (c.hist.take n) ++
      ⟨"tenant:" ++ tenant, timeOf env e, false⟩ :: allowLog env (c.hist.drop (n + 1)) := by
    have hhist : c.hist = c.hist.take n ++ e :: c.hist.drop (n + 1) := by
      obtain ⟨hn, rfl⟩ := List.getElem?_eq_some_iff.1 he
      rw [List.getElem_cons_drop, List.take_append_drop]
    conv_lhs => rw [hhist]
    rw [allowLog, List.filterMap_append, List.filterMap_cons_some]
    · rfl
    · rw [allowCall, hx]
      rfl
  have hfull := app.limiter.le_admitted_of_refused (hsorted.map _ fun _ _ h => h)
    ((congrArg Prod.snd hrun).trans hsplit) rfl
  rw [admitted_allowLog] at hfull
  have hnodup := nodup_letThrough hc tenant
    fun t => timeOf env e < t + second ∧ t ≤ timeOf env e
  have hsub := (((List.take_sublist n c.hist).filter fun e' => LetThrough tenant e' ∧
    (timeOf env e < timeOf env e' + second ∧ timeOf env e' ≤ timeOf env e)).map fun e' => e'.who)
  refine ⟨_, (hnodup.sublist hsub).sublist (List.take_sublist app.config.rateLimitRequests _), ?_,
    fun i hi => ?_⟩
  · rw [List.length_take, List.length_map]
    exact Nat.min_eq_left hfull
  · obtain ⟨e', he', rfl⟩ := List.mem_map.1 (List.mem_of_mem_take hi)
    rw [List.mem_filter, decide_eq_true_eq] at he'
    obtain ⟨hmem, hlet, hlt, hle⟩ := he'
    obtain ⟨m, hm⟩ := List.getElem?_of_mem hmem
    rw [List.getElem?_take] at hm
    split_ifs at hm with hmn
    refine ⟨fun hwho => ?_, m, hmn, e', hm, rfl, isSettings_of_letThrough hc hm hlet, hlet, hle,
      hlt⟩
    -- the process was refused, and asks only once
    have hone := allowances_own_le_one hc e.who
    have hrefused := mem_allowances_own (List.mem_of_getElem? he) hx
    have hallowed := mem_allowances_own (List.mem_of_getElem? hm) hlet
    rw [hwho] at hallowed
    cases hall : allowances (own e.who c.hist) with
    | nil =>
        rw [hall] at hrefused
        cases hrefused
    | cons x xs =>
        rw [hall] at hone hrefused hallowed
        obtain rfl : xs = [] := List.eq_nil_of_length_eq_zero (by simpa using hone)
        rw [← List.mem_singleton.1 hrefused, List.mem_singleton] at hallowed
        cases hallowed

/-- **No request is refused because of other tenants, or of logouts**: when the limiter refuses a
request to the settings slice, as many others of its tenant as the configuration says were let
through in the second before.  The request runs no statement, and is answered. -/
theorem limited_by_own_tenant (hw : w.buckets = ∅)
    (hc : Reachable (app.exec env) (fun _ _ => True) (Snapshot.init w app.handle reqs) c) {n : ℕ}
    {e : AppEvent Jwk} (he : c.hist[n]? = some e) {key : String}
    (hx : AppOp.allow? ⟨e.op, e.reply⟩ = some (key, false)) (hroute : e.req.route.IsSettings) :
    ∃ token auth tv p, app.Validated e.req.headers token auth tv ∧
      app.FullFor env c n e auth.tenant.asStr ∧ statements (own e.who c.hist) = [] ∧
      c.procs[e.who]? = some p ∧ p.prog = .pure (some (securityHeaders rateLimited)) := by
  obtain ⟨p, hp, hhandles⟩ := handles_of_event hc he
  have hmem := mem_allowances_own (List.mem_of_getElem? he) hx
  rcases hhandles.allowances_cases with hnone | ⟨token, auth, tv, b, -, hv, hone, hrefused⟩ |
    ⟨tenant, b, hlogout, -⟩
  · rw [hnone] at hmem
    cases hmem
  · rw [hone, List.mem_singleton] at hmem
    cases hmem
    obtain ⟨hstatements, hprog⟩ := hrefused rfl
    exact ⟨token, auth, tv, p, hv, fullFor_of_refused hw hc he hx, hstatements, hp, hprog⟩
  · rw [hlogout] at hroute
    exact hroute.elim

end App

/-! ### Two requests of a tenant in one second -/

namespace Sample

/-- An application that lets one request of a tenant through. -/
def narrow : App String String := app { config with rateLimitRequests := 1 }

/-- Everything around it answers at once. -/
def quick : AppEnv String := { around with auth := ⟨id, monotone_id, fun _ => some ["k1"]⟩ }

/-- Two `PUT`s of a tenant, one after the other. -/
def crowded : AppConfig String :=
  (Snapshot.init fresh narrow.handle [putTheme, putTheme]).schedule (narrow.exec quick)
    (List.replicate 14 0 ++ List.replicate 14 1)

theorem reachable_crowded : Reachable (narrow.exec quick) (fun _ _ => True)
    (Snapshot.init fresh narrow.handle [putTheme, putTheme]) crowded := Reachable.refl.schedule _ _

end Sample

open Sample in
/-- The first of two `PUT`s is let through. -/
theorem App.rate_limited_two_puts :
    (∀ tenant a k (is : List ℕ), is.Nodup →
      (∀ i ∈ is, ∃ e ∈ crowded.hist, e.who = i ∧ LetThrough tenant e ∧
        a ≤ timeOf quick e ∧ timeOf quick e < a + k * second) → is.length ≤ (k + 1) * 1) ∧
    ∀ (n : ℕ) (e : AppEvent String) (s : Stmt), crowded.hist[n]? = some e → e.op = .settings s →
      (∃ m < n, ∃ e', crowded.hist[m]? = some e' ∧ e'.who = e.who ∧ LetThrough s.tenant e') ∨
      ∃ key token, narrow.Triggers e.req key token :=
  rate_limited rfl reachable_crowded

open Sample in
/-- The second of two `PUT`s is refused. -/
theorem App.limited_by_own_tenant_two_puts :
    ∃ (n : ℕ) (e : AppEvent String) (key : String), crowded.hist[n]? = some e ∧
      AppOp.allow? ⟨e.op, e.reply⟩ = some (key, false) ∧
      ∃ token auth tv p, narrow.Validated e.req.headers token auth tv ∧
        narrow.FullFor quick crowded n e auth.tenant.asStr ∧
        statements (own e.who crowded.hist) = [] ∧ crowded.procs[e.who]? = some p ∧
        p.prog = .pure (some (securityHeaders rateLimited)) :=
  ⟨18, _, _, rfl, rfl, limited_by_own_tenant rfl reachable_crowded (n := 18) rfl rfl trivial⟩

end SettingsService
