import SettingsService.DemoPublisher
import SettingsService.NotifyingRuns
import SettingsService.RouterRuns
import SettingsService.Settling

/-!
# Every change of the deployed service is announced once

Whatever the deployed service has in flight, requests over HTTP and the demo loop, every change of
the settings is announced by whoever made it, after it and once, with the row as it left it, and
nothing else is announced.  What the MQTT client takes of that has been published.

Main definitions:

* `Call.due`, `DeployedOp.due` — the announcement that a call owes;
* `Job` — what runs in the deployed service;
* `Deployed.AnnouncedOnce` — what is to hold of the announcements of a run.

Main results:

* `Request.pays` — a request of the notifying service announces its change;
* `Deployed.announces_handle`, `Deployed.announces_demoPublisher` — so do the handling of a request
  over HTTP and the demo loop;
* `Deployed.announced_once` — **every change is announced once**.
-/

set_option relaxedAutoImplicit false
set_option autoImplicit false

namespace SettingsService

open Interaction (Prog Proc Snapshot Event Reachable Answered own eventOf)
open Interaction.Prog (Only pays_pure)
open OptimisticLock (Change Run)

/-! ### The notifying service -/

/-- The announcement that a call owes: the description of the change it made. -/
def Call.due (service : String) (x : Answered Call Call.Ret) : Option ConfigChange :=
  (Call.stmt? x).bind fun y => (y.1.change y.2).map (describe service)

/-- A statement is answered by Postgres. -/
def Call.FromPostgres (pg : Postgres) (x : Answered Call Call.Ret) : Prop :=
  ∀ y, Call.stmt? x = some y → ∃ T, y.2 = (pg.exec y.1 T).1

section Service

variable {pg : Postgres} {service : String} {base : Anchor}

theorem filterMap_due (tr : List (Answered Call Call.Ret)) :
    tr.filterMap (Call.due service) = (changesIn (stmts tr)).map (describe service) := by
  rw [changesIn, stmts, List.filterMap_filterMap, List.map_filterMap]
  refine List.filterMap_congr fun x _ => ?_
  rw [Call.due]
  cases Call.stmt? x <;> rfl

/-- **A request announces the change it made**, once it has returned. -/
theorem Request.pays (hjsonb : ∀ v, pg.jsonb v = v) (q : Request) :
    Prog.Pays (Call.FromPostgres pg) (Call.due service) Call.notify?
      (q.notifyingProg service base) := by
  intro tr p h hok
  have hans : ∀ x ∈ stmts tr, ∃ T, x.2 = (pg.exec x.1 T).1 := by
    intro x hx
    obtain ⟨y, hy, hyx⟩ := List.mem_filterMap.1 hx
    exact hok y hy x hyx
  -- what is announced of a result are the changes behind it
  have hresult : ∀ res, (q.prog base).Follows (stmts tr) (.pure res) →
      (notification service q res).toList = (changesIn (stmts tr)).map (describe service) := by
    intro res hres
    rcases Request.follows_changes service hres hans with
      ⟨hnil, hnone⟩ | ⟨w, d, rfl, hmade, hdone⟩
    · rw [hnil, hnone res rfl]
      rfl
    · obtain rfl := Prog.pure.inj hdone
      have hd : d ∈ changesIn (stmts tr) := by
        rw [hmade.changes]
        exact List.mem_singleton_self d
      obtain ⟨x, hx, hxd⟩ := List.mem_filterMap.1 hd
      have hdecided := hmade.decided x hx hxd
      rw [hdecided.notification_eq (hdecided.readable fun v _ => hjsonb v), hmade.changes]
      rfl
  rw [filterMap_due]
  change notified tr <+: _ ∧ ∀ a, p = .pure a → notified tr = _
  rcases Request.follows_notifying h with
    ⟨o, k, k', -, hnil, rfl⟩ | ⟨res, hinner, ⟨rfl, hnil⟩ | ⟨rfl, hall⟩⟩
  · rw [hnil]
    exact ⟨List.nil_prefix, fun a ha => by cases ha⟩
  · rw [hnil]
    refine ⟨List.nil_prefix, fun a ha => ?_⟩
    rw [← hresult res hinner]
    rcases after_cases service q res with hpure | ⟨change, -, hcall⟩
    · rw [after] at hpure
      cases hn : notification service q res with
      | none => rfl
      | some change =>
          rw [hn] at hpure
          cases hpure
    · cases hcall.symm.trans ha
  · rw [hall, hresult res hinner]
    exact ⟨List.prefix_rfl, fun _ _ => rfl⟩

end Service

/-! ### Over any port that pays -/

/-- The methods of a port pay what they owe. -/
structure SettingsServicePort.Pays {Op γ : Type} {Ret : Op → Type} (ok : Answered Op Ret → Prop)
    (due paid : Answered Op Ret → Option γ) (port : SettingsServicePort Op Ret) : Prop where
  get : ∀ key auth, Prog.Pays ok due paid (port.get key auth).run
  search : ∀ query auth pagination, Prog.Pays ok due paid (port.search query auth pagination).run
  put : ∀ key value auth expected now,
    Prog.Pays ok due paid (port.put key value auth expected now).run
  patch : ∀ key value auth expected now,
    Prog.Pays ok due paid (port.patch key value auth expected now).run
  delete : ∀ key auth expected, Prog.Pays ok due paid (port.delete key auth expected).run

/-- **The notifying service announces its changes.** -/
theorem NotifyingService.pays_port {pg : Postgres} {service : String} {base : Anchor}
    (hjsonb : ∀ v, pg.jsonb v = v) : (NotifyingService.port service base).Pays
      (Call.FromPostgres pg) (Call.due service) Call.notify? where
  get key auth := Prog.Pays.of_except_map (Request.pays hjsonb (.get key auth))
  search query auth pagination :=
    Prog.Pays.of_except_map (Request.pays hjsonb (.search query auth pagination))
  put key value auth expected now :=
    Prog.Pays.of_except_map (Request.pays hjsonb (.write (.put key value auth expected now)))
  patch key value auth expected now :=
    Prog.Pays.of_except_map (Request.pays hjsonb (.write (.patch key value auth expected now)))
  delete key auth expected :=
    Prog.Pays.of_except_map (Request.pays hjsonb (.write (.delete key auth expected)))

namespace SettingsServicePort

variable {Op γ : Type} {Ret : Op → Type} {ok : Answered Op Ret → Prop}
  {due paid : Answered Op Ret → Option γ} {port : SettingsServicePort Op Ret} {α : Type}
  {base : Anchor} {rfc3339 : ℤ → String}

theorem pays_served {x : ExceptT SettingsError (Prog Op Ret) α} (h : Prog.Pays ok due paid x.run) :
    Prog.Pays ok due paid (served x).run := h.bind fun _ => pays_pure _

theorem pays_requireIfMatch (headers : HeaderMap) :
    Prog.Pays ok due paid (requireIfMatch headers : PortHandler Op Ret ℕ).run := by
  rw [requireIfMatch]
  cases ifMatch headers with
  | some n => exact pays_pure _
  | none => exact pays_pure _

section Handlers

variable (h : port.Pays ok due paid) (key : String) (headers : HeaderMap) (body : Value)
  (auth : Authority) (now : Instant)

include h

theorem Pays.getSetting : Prog.Pays ok due paid (port.getSetting base rfc3339 key auth).run :=
  Prog.Pays.except_bind (pays_pure _) fun _ =>
    (pays_served (h.get _ _)).except_bind fun _ => pays_pure _

theorem Pays.putSetting :
    Prog.Pays ok due paid (port.putSetting base rfc3339 key headers body auth now).run :=
  Prog.Pays.except_bind (pays_pure _) fun _ => Prog.Pays.except_bind (pays_pure _) fun _ =>
    (pays_served (h.put _ _ _ _ _)).except_bind fun _ => pays_pure _

theorem Pays.patchSetting :
    Prog.Pays ok due paid (port.patchSetting base rfc3339 key headers body auth now).run :=
  Prog.Pays.except_bind (pays_pure _) fun _ => Prog.Pays.except_bind (pays_pure _) fun _ =>
    (pays_requireIfMatch headers).except_bind fun _ =>
      (pays_served (h.patch _ _ _ _ _)).except_bind fun _ => pays_pure _

theorem Pays.deleteSetting : Prog.Pays ok due paid (port.deleteSetting key headers auth).run :=
  Prog.Pays.except_bind (pays_pure _) fun _ => (pays_requireIfMatch headers).except_bind fun _ =>
    (pays_served (h.delete _ _ _)).except_bind fun _ => pays_pure _

theorem Pays.listSettings (q : ListQuery) :
    Prog.Pays ok due paid (port.listSettings base rfc3339 headers q auth).run := by
  rw [SettingsServicePort.listSettings]
  cases Pagination.new (q.page.getD 1) (q.size.getD 20) with
  | error e => exact pays_pure _
  | ok pagination => exact (pays_served (h.search _ _ _)).except_bind fun _ => pays_pure _

/-- The demo loop announces its changes, if reading its clock is no matter of these. -/
theorem Pays.demoPublisher {clock : Prog Op Ret Instant} (hclock : Prog.Pays ok due paid clock)
    (tenant service : String) (rounds : ℕ) (counter : UInt64) :
    Prog.Pays ok due paid (port.demoPublisher clock tenant key service rounds counter) := by
  have hround : ∀ counter,
      Prog.Pays ok due paid (port.demoRound clock tenant key service counter) := by
    intro counter
    rw [demoRound]
    cases SettingKey.new key with
    | error e => exact pays_pure _
    | ok key =>
        cases SettingValue.new (demoValue counter service) with
        | error e => exact pays_pure _
        | ok value => exact (h.get _ _).bind fun _ => hclock.bind fun _ =>
            (h.put _ _ _ _ _).bind fun _ => pays_pure _
  induction rounds generalizing counter with
  | zero => exact pays_pure _
  | succ rounds ih => exact (hround _).bind fun _ => ih _

end Handlers

/-- A translated port pays what the port pays. -/
theorem Pays.translate {Op' : Type} {Ret' : Op' → Type} {ok' : Answered Op' Ret' → Prop}
    {due' paid' : Answered Op' Ret' → Option γ} {f : Op → Op'}
    {back : (o : Op) → Ret' (f o) → Ret o}
    (h : port.Pays ok due paid) (hok : ∀ o r, ok' ⟨f o, r⟩ → ok ⟨o, back o r⟩)
    (hdue : ∀ o r, due' ⟨f o, r⟩ = due ⟨o, back o r⟩)
    (hpaid : ∀ o r, paid' ⟨f o, r⟩ = paid ⟨o, back o r⟩) :
    (port.translate f back).Pays ok' due' paid' where
  get _ _ := (h.get _ _).translate hok hdue hpaid
  search _ _ _ := (h.search _ _ _).translate hok hdue hpaid
  put _ _ _ _ _ := (h.put _ _ _ _ _).translate hok hdue hpaid
  patch _ _ _ _ _ := (h.patch _ _ _ _ _).translate hok hdue hpaid
  delete _ _ _ := (h.delete _ _ _).translate hok hdue hpaid

end SettingsServicePort

/-! ### The deployed service -/

variable {Jwk Key α : Type}

namespace DeployedOp

/-- The statement of a call. -/
def stmt? (x : Answered (DeployedOp Jwk) Ret) : Option (Answered Stmt Stmt.Ret) :=
  (app? x).bind AppOp.stmt?

/-- The change a call made, if it is a statement that took effect. -/
def change? (x : Answered (DeployedOp Jwk) Ret) : Option (Change Identity SettingRecord) :=
  (stmt? x).bind fun y => y.1.change y.2

/-- The announcement that a call owes. -/
def due (service : String) (x : Answered (DeployedOp Jwk) Ret) : Option ConfigChange :=
  (change? x).map (describe service)

/-- The change that a call announces. -/
def notify? : Answered (DeployedOp Jwk) Ret → Option ConfigChange
  | ⟨.app _, _⟩ => none
  | ⟨.notify change, _⟩ => some change

/-- A statement is answered by Postgres. -/
def FromPostgres (pg : Postgres) (x : Answered (DeployedOp Jwk) Ret) : Prop :=
  ∀ y, stmt? x = some y → ∃ T, y.2 = (pg.exec y.1 T).1

end DeployedOp

/-- A call that is no statement. -/
def AppOp.IsApart (o : AppOp Jwk) : Prop := ∀ r, AppOp.stmt? ⟨o, r⟩ = none

namespace App

variable {app : App Jwk Key}

theorem only_apart_extract (x : Except Response α) :
    Only AppOp.IsApart (extract x : AppM Jwk α).run := trivial

theorem only_apart_orUnauthorized (x : Option α) :
    Only AppOp.IsApart (orUnauthorized x : AppM Jwk α).run := by
  cases x <;> exact trivial

theorem only_apart_callAuth (x : Auth Jwk α) : Only AppOp.IsApart (callAuth x).run :=
  (Prog.only_translate (fun _ _ => rfl) _).bind fun _ => trivial

theorem only_apart_call {o : AppOp Jwk} (ho : o.IsApart) :
    Only AppOp.IsApart (call o).run := ⟨ho, fun _ => trivial⟩

theorem only_apart_instant : Only AppOp.IsApart (call (.auth .instant) : AppM Jwk Instant).run :=
  only_apart_call fun _ => rfl

theorem only_apart_requireAuth (headers : HeaderMap) :
    Only AppOp.IsApart (app.requireAuth headers).run :=
  (only_apart_orUnauthorized _).except_bind fun _ => (only_apart_callAuth _).except_bind fun _ =>
    (only_apart_call fun _ => rfl).except_bind fun r => by cases r <;> exact trivial

theorem only_apart_logout (headers : HeaderMap) : Only AppOp.IsApart (app.logout headers).run :=
  (only_apart_orUnauthorized _).except_bind fun _ => (only_apart_callAuth _).except_bind fun _ =>
    (only_apart_call fun _ => rfl).except_bind fun r => by
      cases r with
      | true => exact (only_apart_callAuth _).except_bind fun _ => trivial
      | false => exact trivial

theorem apart_of_probe {o : AppOp Jwk} (h : o.IsProbe) : o.IsApart := by
  cases o with
  | settings s => cases h
  | auth | allow | ready | gather | forward => exact fun _ => rfl

/-- Only the routes of the settings and of the demo trigger know of the settings. -/
theorem only_apart_route {req : HttpRequest} (hsettings : ¬ req.route.IsSettings)
    (hdemo : ∀ key, req.route ≠ .demoConfig key) : Only AppOp.IsApart (app.route req).run := by
  have hanswer : ∀ {x : AppM Jwk Response}, Only AppOp.IsApart x.run →
      Only AppOp.IsApart (answer x).run := fun h => h.except_bind fun _ => trivial
  rw [route]
  cases hr : req.route with
  | settings query | setting key => exact absurd (hr ▸ trivial) hsettings
  | demoConfig key => exact absurd hr (hdemo key)
  | logout =>
      dsimp only
      split_ifs
      · exact hanswer (only_apart_logout _)
      · exact trivial
  | healthz =>
      dsimp only
      split_ifs <;> exact trivial
  | readyz =>
      dsimp only
      split_ifs
      · exact hanswer (only_probe_readyz.imp fun _ => apart_of_probe)
      · exact trivial
  | metrics =>
      dsimp only
      split_ifs
      · exact hanswer (only_probe_metricsHandler.imp fun _ => apart_of_probe)
      · exact trivial
  | telemetry =>
      dsimp only
      split_ifs
      · exact hanswer ((only_telemetryProxy _ _).imp fun _ => apart_of_probe)
      · exact trivial

end App

namespace Deployed

variable {app : App Jwk Key} {pg : Postgres} {service : String}

theorem pays_lift {x : AppM Jwk α} (h : Only AppOp.IsApart x.run) :
    Prog.Pays (DeployedOp.FromPostgres pg) (DeployedOp.due service) DeployedOp.notify?
      (lift x).run := by
  refine Prog.Pays.of_only (Only.translate h fun o ho r => ⟨?_, rfl⟩)
  have hnone : DeployedOp.stmt? (⟨.app o, r⟩ : Answered (DeployedOp Jwk) DeployedOp.Ret) = none :=
    ho r
  rw [DeployedOp.due, DeployedOp.change?, hnone]
  rfl

section OfCall

variable (o : Call) (r : (DeployedOp.ofCall o : DeployedOp Jwk).Ret)

theorem fromPostgres_ofCall (h : DeployedOp.FromPostgres pg ⟨DeployedOp.ofCall o, r⟩) :
    Call.FromPostgres pg ⟨o, DeployedOp.toRet o r⟩ := by
  cases o with
  | stmt s => exact h
  | notify change => exact fun y hy => by cases hy

theorem due_ofCall : DeployedOp.due service ⟨DeployedOp.ofCall o, r⟩ =
    Call.due service ⟨o, DeployedOp.toRet o r⟩ := by
  cases o <;> rfl

theorem notify?_ofCall : DeployedOp.notify? ⟨DeployedOp.ofCall o, r⟩ =
    Call.notify? ⟨o, DeployedOp.toRet o r⟩ := by
  cases o <;> rfl

end OfCall

theorem pays_translate {x : Prog Call Call.Ret α}
    (h : Prog.Pays (Call.FromPostgres pg) (Call.due service) Call.notify? x) :
    Prog.Pays (DeployedOp.FromPostgres pg) (DeployedOp.due service) DeployedOp.notify?
      (x.translate DeployedOp.ofCall DeployedOp.toRet : Prog (DeployedOp Jwk) DeployedOp.Ret α) :=
  h.translate fromPostgres_ofCall due_ofCall notify?_ofCall

theorem pays_callHandler {x : PortHandler Call Call.Ret α}
    (h : Prog.Pays (Call.FromPostgres pg) (Call.due service) Call.notify? x.run) :
    Prog.Pays (DeployedOp.FromPostgres pg) (DeployedOp.due service) DeployedOp.notify?
      (callHandler x : DeployedM Jwk α).run := (pays_translate h).bind fun _ => pays_pure _

theorem pays_answer {x : DeployedM Jwk Response}
    (h : Prog.Pays (DeployedOp.FromPostgres pg) (DeployedOp.due service) DeployedOp.notify?
      x.run) :
    Prog.Pays (DeployedOp.FromPostgres pg) (DeployedOp.due service) DeployedOp.notify?
      (answer x).run := h.except_bind fun _ => pays_pure _

section Handling

variable (hjsonb : ∀ v, pg.jsonb v = v)

/-- What a program of the deployed service is to announce. -/
def Announces (app : App Jwk Key) (pg : Postgres) (x : Prog (DeployedOp Jwk) DeployedOp.Ret α) :
    Prop :=
  Prog.Pays (DeployedOp.FromPostgres pg) (DeployedOp.due app.config.serviceName)
    DeployedOp.notify? x

include hjsonb

theorem announces_port : (port app).Pays (Call.FromPostgres pg)
    (Call.due app.config.serviceName) Call.notify? := NotifyingService.pays_port hjsonb

theorem announces_settingsCollection (method : Method) (query : String) (headers : HeaderMap)
    (auth : Authority) :
    Announces app pg (settingsCollection app method query headers auth).run := by
  cases method with
  | get | head => exact (pays_lift (App.only_apart_extract _)).except_bind fun q =>
      pays_callHandler ((announces_port hjsonb).listSettings headers auth q)
  | post | put | patch | delete | options | other => exact pays_pure _

theorem announces_settingsEntry (method : Method) (key : String) (headers : HeaderMap)
    (body : List UInt8) (auth : Authority) :
    Announces app pg (settingsEntry app method key headers body auth).run := by
  have hport : (port app).Pays _ _ _ := announces_port hjsonb
  cases method with
  | get | head =>
      refine (pays_lift (App.only_apart_extract _)).except_bind fun text => ?_
      exact pays_answer (pays_callHandler (hport.getSetting text auth))
  | put =>
      refine (pays_lift (App.only_apart_extract _)).except_bind fun text => ?_
      refine (pays_lift (App.only_apart_extract _)).except_bind fun v => ?_
      refine (pays_lift App.only_apart_instant).except_bind fun now => ?_
      exact pays_answer (pays_callHandler (hport.putSetting text headers v auth now))
  | patch =>
      refine (pays_lift (App.only_apart_extract _)).except_bind fun text => ?_
      refine (pays_lift (App.only_apart_extract _)).except_bind fun v => ?_
      refine (pays_lift App.only_apart_instant).except_bind fun now => ?_
      exact pays_answer (pays_callHandler (hport.patchSetting text headers v auth now))
  | delete =>
      refine (pays_lift (App.only_apart_extract _)).except_bind fun text => ?_
      exact pays_answer (pays_callHandler (hport.deleteSetting text headers auth))
  | post | options | other => exact pays_pure _

theorem announces_demoConfig (token key : String) (headers : HeaderMap) (body : List UInt8) :
    Announces app pg (demoConfig app token key headers body).run := by
  refine (pays_lift (App.only_apart_extract _)).except_bind fun text =>
    (pays_lift (App.only_apart_extract _)).except_bind fun v => ?_
  by_cases htoken : ((headers.get "x-demo-token").bind toStr).getD "" ≠ token
  · rw [if_pos htoken]
    exact pays_pure _
  · rw [if_neg htoken]
    have hport : (port app).Pays _ _ _ := announces_port hjsonb
    refine (pays_callHandler (pays_pure _)).except_bind fun k => ?_
    refine (pays_callHandler (pays_pure _)).except_bind fun value => ?_
    refine Prog.Pays.except_bind ((pays_translate (hport.get _ _)).bind fun _ => pays_pure _)
      fun current => ?_
    refine (pays_lift App.only_apart_instant).except_bind fun now => ?_
    exact (pays_callHandler (SettingsServicePort.pays_served
      (hport.put _ _ _ _ _))).except_bind fun _ => pays_pure _

/-- **Handling a request over HTTP announces the changes made for it.** -/
theorem announces_handle (req : HttpRequest) : Announces app pg (handle app req) := by
  have hroute : Announces app pg (route app req).run := by
    rw [route]
    cases hr : req.route with
    | settings query => exact (pays_lift (App.only_apart_requireAuth _)).except_bind fun _ =>
        announces_settingsCollection hjsonb _ _ _ _
    | setting key => exact (pays_lift (App.only_apart_requireAuth _)).except_bind fun _ =>
        announces_settingsEntry hjsonb _ _ _ _ _
    | demoConfig key =>
        cases app.config.demoTriggerToken with
        | none => exact pays_pure _
        | some token =>
            dsimp only
            split_ifs
            · exact pays_answer (announces_demoConfig hjsonb _ _ _ _)
            · exact pays_pure _
    | logout | healthz | readyz | metrics | telemetry =>
        refine pays_lift (App.only_apart_route (by rw [hr]; exact fun h => h) fun key hkey => ?_)
        cases hr.symm.trans hkey
  rw [handle]
  by_cases hoptions : req.method = .options
  · rw [if_pos hoptions]
    exact pays_pure _
  · rw [if_neg hoptions]
    exact Prog.Pays.bind hroute fun _ => pays_pure _

/-- **The demo loop announces the changes it makes.** -/
theorem announces_demoPublisher (rounds : ℕ) : Announces app pg (demoPublisher app rounds) := by
  have hport : (settings app).Pays (DeployedOp.FromPostgres pg)
      (DeployedOp.due app.config.serviceName) DeployedOp.notify? :=
    SettingsServicePort.Pays.translate (announces_port hjsonb) fromPostgres_ofCall due_ofCall
      notify?_ofCall
  have hclock : Announces app pg (clock : Prog (DeployedOp Jwk) DeployedOp.Ret Instant) :=
    Prog.Pays.of_only ⟨fun _ => ⟨rfl, rfl⟩, fun _ => trivial⟩
  exact hport.demoPublisher _ hclock _ _ _ _

end Handling

end Deployed

/-! ### Runs -/

/-- What runs in the deployed service: requests over HTTP, and the demo loop for so many rounds. -/
inductive Job
  | request (req : HttpRequest)
  | demoPublisher (rounds : ℕ)

/-- The program of a job; a request ends in its response. -/
def Job.prog (app : App Jwk Key) : Job → Prog (DeployedOp Jwk) DeployedOp.Ret (Option Response)
  | request req => Deployed.handle app req
  | demoPublisher rounds => Deployed.demoPublisher app rounds >>= fun _ => .pure none

/-- Jobs in flight. -/
abbrev JobsConfig (Jwk : Type) : Type :=
  Snapshot (DeployedOp Jwk) DeployedOp.Ret (DeployedWorld Jwk) Job (Option Response)

/-- A call of a job. -/
abbrev JobsEvent (Jwk : Type) : Type :=
  Event (DeployedOp Jwk) DeployedOp.Ret (DeployedWorld Jwk) Job

namespace Deployed

/-- The changes that calls made, oldest first. -/
def changes (hist : List (JobsEvent Jwk)) : List (Change Identity SettingRecord) :=
  hist.filterMap fun e => DeployedOp.change? ⟨e.op, e.reply⟩

/-- What calls announced, oldest first. -/
def announced (hist : List (JobsEvent Jwk)) : List ConfigChange :=
  hist.filterMap fun e => DeployedOp.notify? ⟨e.op, e.reply⟩

/-- **Every change is announced once**: what is to hold of a run that started with `W`. -/
structure AnnouncedOnce (app : App Jwk Key) (W : DeployedWorld Jwk) (c : JobsConfig Jwk) :
    Prop where
  /-- The changes lead from the table at the start to the present one. -/
  run : Run W.app.table.view (changes c.hist) c.state.app.table.view
  /-- A job has announced a first part of the changes it has made, in their order, and all of them
  once it is done. -/
  each : ∀ (i : ℕ) (p : Proc (DeployedOp Jwk) DeployedOp.Ret Job (Option Response)),
    c.procs[i]? = some p →
      (own i c.hist).filterMap DeployedOp.notify? <+:
        (own i c.hist).filterMap (DeployedOp.due app.config.serviceName) ∧
      ∀ resp, p.prog = .pure resp → (own i c.hist).filterMap DeployedOp.notify? =
        (own i c.hist).filterMap (DeployedOp.due app.config.serviceName)
  /-- Nothing but changes is announced, and none of them twice. -/
  once : (announced c.hist).Subperm ((changes c.hist).map (describe app.config.serviceName))
  /-- Once all jobs are done, all changes have been announced. -/
  all : c.Quiet →
    (announced c.hist).Perm ((changes c.hist).map (describe app.config.serviceName))
  /-- What is announced has been published, unless the client refuses the topic. -/
  published : c.state.published = W.published ++
    ((announced c.hist).filter fun change => !refused change.topic).map ConfigChange.publish

variable {app : App Jwk Key} {env : AppEnv Jwk} {W : DeployedWorld Jwk} {jobs : List Job}
  {c : JobsConfig Jwk} {G : List (JobsEvent Jwk) → JobsEvent Jwk → Prop}

theorem announces_prog (hjsonb : ∀ v, env.pg.jsonb v = v) (job : Job) :
    Announces app env.pg (job.prog app) := by
  cases job with
  | request req => exact announces_handle hjsonb req
  | demoPublisher rounds =>
      exact Prog.Pays.bind (announces_demoPublisher hjsonb rounds) fun _ => pays_pure _

/-- Postgres answers the statements. -/
theorem fromPostgres_exec (o : DeployedOp Jwk) (V : DeployedWorld Jwk) :
    DeployedOp.FromPostgres env.pg ⟨o, (exec app env o V).1⟩ := by
  intro y hy
  cases o with
  | notify change => cases hy
  | app o =>
      have hexec : env.pg.exec y.1 V.app.table = (y.2, (app.exec env o V.app).2.table) :=
        exec_of_stmt? hy rfl
      exact ⟨V.app.table, (congrArg Prod.fst hexec).symm⟩

/-- A call does the same where `JSONB` gives back whatever is stored. -/
theorem exec_keeping {o : DeployedOp Jwk} (h : ∀ s, o = .app (.settings s) → env.pg.Keeps s)
    (V : DeployedWorld Jwk) :
    exec app env o V = exec app { env with pg := env.pg.keeping } o V := by
  cases o with
  | notify change => rfl
  | app o =>
      cases o with
      | settings s =>
          simp only [exec, App.exec]
          rw [Postgres.exec_keeping (h s rfl)]
      | auth | allow | ready | gather | forward => rfl

/-- A call makes one more change, or none. -/
theorem run_snoc {V : DeployedWorld Jwk} {S : OptimisticLock.Store Identity SettingRecord}
    {ds : List (Change Identity SettingRecord)} (h : Run S ds V.app.table.view)
    (o : DeployedOp Jwk) :
    Run S (ds ++ (DeployedOp.change? ⟨o, (exec app env o V).1⟩).toList)
      (exec app env o V).2.app.table.view := by
  cases hx : DeployedOp.stmt? (⟨o, (exec app env o V).1⟩ : Answered (DeployedOp Jwk) _) with
  | none =>
      have htable : (exec app env o V).2.app.table = V.app.table := by
        cases o with
        | app o => exact table_of_stmt?_eq_none hx V.app
        | notify change => rfl
      rw [DeployedOp.change?, hx, htable]
      exact (List.append_nil ds).symm ▸ h
  | some x =>
      cases o with
      | notify change => cases hx
      | app o =>
          have hexec : env.pg.exec x.1 V.app.table = (x.2, (app.exec env o V.app).2.table) :=
            exec_of_stmt? hx rfl
          rw [DeployedOp.change?, hx, Option.bind_some]
          rcases env.pg.exec_change x.1 V.app.table with ⟨hnone, hsame⟩ | ⟨d, hd, heff⟩
          · rw [hexec] at hnone hsame
            rw [hnone]
            exact (List.append_nil ds).symm ▸ (congrArg Table.view hsame).symm ▸ h
          · rw [hexec] at hd heff
            rw [hd]
            exact h.snoc heff

/-- What is announced goes to the client. -/
theorem published_snoc (o : DeployedOp Jwk) (V : DeployedWorld Jwk) :
    (exec app env o V).2.published = V.published ++
      ((DeployedOp.notify? ⟨o, (exec app env o V).1⟩).toList.filter
        fun change => !refused change.topic).map ConfigChange.publish := by
  cases o with
  | app o => exact (List.append_nil _).symm
  | notify change =>
      change MqttNotifier.notify change V.published = _
      rw [MqttNotifier.notify]
      cases hr : refused change.topic with
      | true => simp [DeployedOp.notify?, hr]
      | false => simp [DeployedOp.notify?, hr, ConfigChange.publish]

/-- **Every change of the deployed service is announced once**, whatever is in flight. -/
theorem announced_once (hc : Reachable (exec app env) G (Snapshot.init W (Job.prog app) jobs) c)
    (hkeeps : ∀ e ∈ c.hist, ∀ s, e.op = .app (.settings s) → env.pg.Keeps s) :
    AnnouncedOnce app W c := by
  -- the run is also one over a Postgres that gives back whatever is stored
  obtain ⟨env, hjsonb, hc⟩ : ∃ env' : AppEnv Jwk, (∀ v, env'.pg.jsonb v = v) ∧
      Reachable (exec app env') G (Snapshot.init W (Job.prog app) jobs) c :=
    ⟨{ env with pg := env.pg.keeping }, env.pg.jsonb_keeping,
      hc.congr fun e he => exec_keeping (hkeeps e he)⟩
  have hprog : ∀ job, Announces app env.pg (Job.prog app job) := announces_prog hjsonb
  have hdue : (c.hist.filterMap fun e => DeployedOp.due app.config.serviceName ⟨e.op, e.reply⟩) =
      (changes c.hist).map (describe app.config.serviceName) := by
    rw [changes, List.map_filterMap]
    rfl
  have hstate : Run W.app.table.view (changes c.hist) c.state.app.table.view ∧
      c.state.published = W.published ++
        ((announced c.hist).filter fun change => !refused change.topic).map
          ConfigChange.publish := by
    refine (Reachable.invariant (P := fun _ _ _ _ => True)
      (I := fun V hist => Run W.app.table.view (changes hist) V.app.table.view ∧
        V.published = W.published ++
          ((announced hist).filter fun change => !refused change.topic).map ConfigChange.publish)
      ⟨.nil, (List.append_nil _).symm⟩ (fun _ _ _ => trivial) ?_ hc).1
    intro V hist i p o k hV _ _ _
    refine ⟨⟨?_, ?_⟩, trivial, fun _ _ _ _ => trivial⟩
    · rw [changes, List.filterMap_append]
      exact run_snoc hV.1 o
    · rw [announced, List.filterMap_append, List.filter_append, List.map_append,
        ← List.append_assoc]
      exact (published_snoc o V).trans (congrArg (· ++ _) hV.2)
  obtain ⟨hrun, hpublished⟩ := hstate
  refine ⟨hrun, fun i p hp => hc.pays hprog fromPostgres_exec hp, ?_, fun hquiet => ?_, hpublished⟩
  · rw [← hdue]
    exact hc.subperm_of_pays hprog fromPostgres_exec
  · rw [← hdue]
    exact hc.perm_of_pays hprog fromPostgres_exec hquiet

end Deployed

open Sample in
/-- A `PUT` over HTTP, whose announcement waits for a call of the second round of the demo loop. -/
theorem Deployed.announced_once_put_and_loop :
    let c := (Snapshot.init (⟨fresh, []⟩ : DeployedWorld String) (Job.prog server)
      [.request putTheme, .demoPublisher 2]).schedule (exec server around)
        (List.replicate 14 0 ++ List.replicate 7 1 ++ 0 :: List.replicate 3 1)
    AnnouncedOnce server ⟨fresh, []⟩ c ∧ c.Quiet ∧ c.state.published.length = 3 :=
  ⟨announced_once (Reachable.refl.schedule _ _) fun _ _ _ _ _ _ => rfl, by decide +kernel,
    by decide +kernel⟩

end SettingsService
