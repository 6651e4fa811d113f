import SettingsService.RouterRuns
import SettingsService.ServiceRuns

/-!
# Updates over HTTP

The changes that requests over the router make of the settings table are a run of the versioned
store.  Each is the change that its request asked for: of the row that the authority of its token
owns under the key of its path, at the version that its `If-Match` header denotes.

Main definitions:

* `changeOf`, `changesMade` — the change a call made, and the changes of a history;
* `App.AskedFor` — a change is what a request asked for.

Main results:

* `App.run_changesMade` — the changes of a run are a run of the versioned store;
* `App.askedFor_of_change` — a change was asked for;
* `App.no_update_lost` — **no update is lost over HTTP**.
-/

set_option relaxedAutoImplicit false
set_option autoImplicit false

namespace SettingsService

open Interaction (Prog Snapshot Reachable Answered own calls)
open OptimisticLock (Change Run)

variable {Jwk Key : Type}

/-- The change a call made, if it is a statement that took effect. -/
def changeOf (e : AppEvent Jwk) : Option (Change Identity SettingRecord) :=
  (AppOp.stmt? ⟨e.op, e.reply⟩).bind fun x => x.1.change x.2

/-- The changes of a history, oldest first. -/
def changesMade (hist : List (AppEvent Jwk)) : List (Change Identity SettingRecord) :=
  hist.filterMap changeOf

namespace App

variable {app : App Jwk Key} {env : AppEnv Jwk} {w : AppWorld Jwk} {reqs : List HttpRequest}
  {c : AppConfig Jwk}

/-- A change is what the request asked for, by the calls it has performed: with a token that was let
through, of its own row under the key of the path, at the version of the `If-Match` header; or it is
one of the demo trigger. -/
def AskedFor (app : App Jwk Key) (req : HttpRequest) (tr : AppTrace Jwk)
    (d : Change Identity SettingRecord) : Prop :=
  (∃ token auth t₁ t₂ v, tr = t₁ ++ t₂ ∧ app.Admitted "tenant:" req.headers token auth t₁ ∧
    app.AsksWrite req v ∧ v.authority = auth ∧ d.key = v.identity ∧
    (∀ n, d.presents = some n → ∃ m : ℕ, ifMatch req.headers = some m ∧ n = m) ∧
    (d.presents = none → req.method = .put)) ∨
  (∃ key token, app.Triggers req key token) ∧ d.key.1 = demoAuthority.tenant.asStr

/-- **The changes of a run are a run of the versioned store.** -/
theorem run_changesMade
    (hc : Reachable (app.exec env) (fun _ _ => True) (Snapshot.init w app.handle reqs) c) :
    Run w.table.view (changesMade c.hist) c.state.table.view := by
  refine (Reachable.invariant (I := fun s hist => Run w.table.view (changesMade hist) s.table.view)
    (P := fun _ _ _ _ => True) .nil (fun _ _ _ => trivial) ?_ hc).1
  intro s hist i p o k hrun _ _ _
  refine ⟨?_, trivial, fun _ _ _ _ => trivial⟩
  rw [changesMade, List.filterMap_append, List.filterMap_cons, List.filterMap_nil, changeOf]
  cases hx : AppOp.stmt? (⟨o, (app.exec env o s).1⟩ : Answered (AppOp Jwk) AppOp.Ret) with
  | none =>
      rw [table_of_stmt?_eq_none hx]
      simpa [Interaction.eventOf, hx, changesMade] using hrun
  | some x =>
      obtain ⟨o', r⟩ := x
      have hexec := exec_of_stmt? hx rfl
      rcases env.pg.exec_change o' s.table with ⟨hnone, hsame⟩ | ⟨d, hd, heff⟩
      · rw [hexec] at hnone hsame
        simp only at hnone hsame
        rw [hsame]
        simpa [Interaction.eventOf, hx, hnone, changesMade] using hrun
      · rw [hexec] at hd heff
        simpa [Interaction.eventOf, hx, hd, changesMade] using hrun.snoc heff

/-- A statement of the router that made a change is the statement of a write that was asked for, and
made a change of that write. -/
theorem exists_write_of_change
    (hc : Reachable (app.exec env) (fun _ _ => True) (Snapshot.init w app.handle reqs) c)
    {e : AppEvent Jwk} (he : e ∈ c.hist) {d : Change Identity SettingRecord}
    (hd : changeOf e = some d) :
    ∃ v T, app.Serving e.req (own e.who c.hist) (.write v) ∧ v.Makes T d := by
  obtain ⟨n, hn⟩ := List.getElem?_of_mem he
  obtain ⟨x, hx, hxd⟩ := Option.bind_eq_some_iff.1 hd
  -- the statement in the run of the service
  obtain ⟨qs, c', hc', -, hcalls, hserving⟩ := exists_service_run hc
  have hmem : (e.who, x) ∈ (calls c'.hist).map fun x => (x.1 / 2, x.2) := by
    rw [hcalls]
    exact List.mem_filterMap.2 ⟨e, he, by rw [hx]; rfl⟩
  obtain ⟨⟨j, y⟩, hy, hjy⟩ := List.mem_map.1 hmem
  obtain ⟨hj, rfl⟩ := Prod.mk.inj hjy
  obtain ⟨e', he', hcall⟩ := List.mem_map.1 hy
  obtain ⟨rfl, rfl⟩ := Prod.mk.inj hcall
  obtain ⟨n', hn'⟩ := List.getElem?_of_mem he'
  have hreq' := hc'.req_of_event hn'
  have hown : own e'.who c'.hist ≠ [] := by
    rw [Interaction.own_eq_of_getElem? hn']
    simp
  obtain ⟨req, hreq, hasked⟩ := hserving _ _ hreq' hown
  rw [hj, hc.req_of_event hn, Option.some.injEq] at hreq
  rw [hj, ← hreq] at hasked
  cases hwrite : e'.req.write? with
  | none =>
      -- a read changes nothing
      obtain ⟨k, hk⟩ := (hc'.next hn').follows
      rw [Request.change_of_read hwrite hk] at hxd
      cases hxd
  | some v =>
      rw [Request.write?_eq_some_iff.1 hwrite] at hreq' hasked
      -- the statement in the run of the writes
      obtain ⟨ws, c'', hc'', -, hwrites, hws⟩ := exists_write_run hc'
      have hmem' : (e'.who, ⟨e'.op, e'.reply⟩) ∈ calls c''.hist := by
        rw [hwrites]
        exact List.mem_filterMap.2 ⟨e', he', by rw [writeCall, hwrite]; rfl⟩
      obtain ⟨e'', he'', hcall''⟩ := List.mem_map.1 hmem'
      obtain ⟨hwho, hop⟩ := Prod.mk.inj hcall''
      obtain ⟨n'', hn''⟩ := List.getElem?_of_mem he''
      have hreq'' := hc''.req_of_event hn''
      rw [hwho, hws _ _ hreq', Option.some.injEq] at hreq''
      refine ⟨v, e''.before, hasked, ?_⟩
      rw [hreq'']
      refine (run_effects hc'').1.2 e'' he'' d ?_
      have heffect : ∀ x : Answered Stmt Stmt.Ret, x = ⟨e'.op, e'.reply⟩ →
          x.1.change x.2 = some d := by
        rintro x rfl
        exact hxd
      exact heffect ⟨e''.op, e''.reply⟩ hop

/-- **A change was asked for.** -/
theorem askedFor_of_change
    (hc : Reachable (app.exec env) (fun _ _ => True) (Snapshot.init w app.handle reqs) c)
    {e : AppEvent Jwk} (he : e ∈ c.hist) {d : Change Identity SettingRecord}
    (hd : changeOf e = some d) : app.AskedFor e.req (own e.who c.hist) d := by
  obtain ⟨v, T, hserving, hmakes⟩ := exists_write_of_change hc he hd
  rcases hserving with ⟨token, auth, t₁, t₂, htr, ha, hasks⟩ | ⟨htriggers, hauth⟩
  · have hv := hasks.write v rfl
    refine .inl ⟨token, auth, t₁, t₂, v, htr, ha, hv, hasks.authority, hmakes.key_eq,
      fun n hn => ?_, fun hnone => ?_⟩
    · obtain ⟨m, r, hm, rfl, -⟩ := hmakes.found n hn
      exact ⟨m, by rw [← hv.expected, hm], rfl⟩
    · obtain ⟨-, s, hs⟩ := hmakes.created hnone
      cases v with
      | put => exact hv.method
      | patch | delete => exact hs.elim
  · refine .inr ⟨htriggers, ?_⟩
    rw [hmakes.key_eq, ← hauth]
    exact congrArg Tenant.asStr v.tenant_target

/-- No update is lost over HTTP: what the changes since the table was empty say about it, and about
the requests that made them. -/
structure NoUpdateLost (app : App Jwk Key) (c : AppConfig Jwk) : Prop where
  /-- A row was created, and its version counts the updates since. -/
  version_eq : ∀ r ∈ c.state.table.rows, ∃ pre r₁ post,
    changesMade c.hist = pre ++ .create r.identity r₁ :: post ∧
    (∀ d ∈ post, d.key = r.identity → d.replaces r.identity = true) ∧
    r.version = 1 + post.countP (Change.replaces r.identity)
  /-- Between two changes that present the same version of the same row, it was created anew. -/
  once : ∀ pre d mid d' post, changesMade c.hist = pre ++ d :: (mid ++ d' :: post) →
    d.key = d'.key → ∀ n, d.presents = some n → d'.presents = some n →
      ∃ a ∈ mid, a.creates d.key = true
  /-- A change is what its request asked for. -/
  asked : ∀ e ∈ c.hist, ∀ d, changeOf e = some d → app.AskedFor e.req (own e.who c.hist) d

/-- **No update is lost over HTTP**, whatever requests are in flight. -/
theorem no_update_lost (hw : w.table = Table.empty)
    (hc : Reachable (app.exec env) (fun _ _ => True) (Snapshot.init w app.handle reqs) c) :
    app.NoUpdateLost c := by
  have hrun := run_changesMade hc
  refine ⟨fun r hr => ?_, fun pre d mid d' post hsplit hkey n hd hd' => ?_,
    fun e he d hd => askedFor_of_change hc he hd⟩
  · have hv : c.state.table.view r.identity = some (r.version, r) :=
      Table.view_eq_some_iff.2 ⟨Table.row?_eq_some_iff.2 ⟨hr, rfl⟩, rfl⟩
    refine hrun.version_eq ?_ hv
    rw [hw]
    rfl
  · exact (hsplit ▸ hrun).exists_create_between hkey hd hd'

end App

open Sample in
/-- Two `PUT`s that both read the empty table: one of them creates the row. -/
theorem App.no_update_lost_two_puts :
    let c := inFlight [putTheme, putTheme] (List.replicate 13 0 ++ List.replicate 14 1 ++ [0])
    server.NoUpdateLost c ∧ (changesMade c.hist).length = 1 ∧ c.state.table.rows.length = 1 :=
  ⟨no_update_lost rfl (reachable_inFlight _ _), by decide +kernel, by decide +kernel⟩

end SettingsService
