import SettingsService.RouterRuns
import SettingsService.ServiceRuns
import SettingsService.TenantIsolation

/-!
# Tenants are isolated in flight

However the statements of requests interleave, those of a tenant are answered, and change its rows,
as if the requests of other tenants were not there; and as if the rows of other tenants were not
there either.  This is so for the service, and for what requests over HTTP do to the table.

Main results:

* `Request.only_consistent`, `Request.only_silent` — the statements of a request and the rows of a
  tenant;
* `tenants_isolated_in_flight` — **a tenant has the service to itself**;
* `App.isolates_tenants` — **so has a tenant over HTTP**.
-/

set_option relaxedAutoImplicit false
set_option autoImplicit false

namespace SettingsService

open Interaction (Prog Proc Snapshot Reachable Answered own calls mineOnly)
open Interaction.Prog (Only)

variable {pg : Postgres} {base : Anchor} {tenant : Tenant}

/-! ### Requests of a tenant, and of others -/

/-- Is a request one of the tenant? -/
def Request.isOf (tenant : Tenant) (q : Request) : Bool := decide (q.authority.tenant = tenant)

/-- The statements of a request of the tenant see and change its rows alone. -/
theorem Request.only_consistent {q : Request} (hq : q.isOf tenant = true) :
    Only (fun s => ∀ T T' : Table, T.rowsOf tenant.asStr = T'.rowsOf tenant.asStr →
      (pg.exec s T).1 = (pg.exec s T').1 ∧
        (pg.exec s T).2.rowsOf tenant.asStr = (pg.exec s T').2.rowsOf tenant.asStr)
      (q.prog base) := by
  refine (q.only_prog base).imp fun s hs T T' h => ?_
  rw [of_decide_eq_true hq] at hs
  rw [← hs] at h ⊢
  exact pg.exec_consistent s h

/-- The statements of a request of another tenant do not change them. -/
theorem Request.only_silent {q : Request} (hq : q.isOf tenant = false) :
    Only (fun s => ∀ T : Table, (pg.exec s T).2.rowsOf tenant.asStr = T.rowsOf tenant.asStr)
      (q.prog base) := by
  refine (q.only_prog base).imp fun s hs T => pg.exec_silent s (fun h => ?_) T
  exact of_decide_eq_false hq (Tenant.ext (hs.symm.trans h))

/-- A call in a run is one of the tenant exactly when its statement names it. -/
theorem mineOnly_isOf {T₀ : Table} {qs : List Request} {c : ServiceConfig}
    {G : List ServiceEvent → ServiceEvent → Prop}
    (hc : Reachable pg.exec G (Snapshot.init T₀ (Request.prog base) qs) c) :
    c.hist.filterMap (mineOnly (Request.isOf tenant)) =
      (calls c.hist).filter fun x => decide (x.2.1.tenant = tenant.asStr) := by
  rw [calls, List.filter_map, ← List.filterMap_eq_map, List.filterMap_filter]
  refine List.filterMap_congr fun e he => ?_
  obtain ⟨n, hn⟩ := List.getElem?_of_mem he
  obtain ⟨k, hk⟩ := (hc.next hn).follows
  have htenant := ((e.req.only_prog base).of_follows hk).1
  have hiff : e.op.tenant = tenant.asStr ↔ e.req.authority.tenant = tenant := by
    rw [htenant]
    exact ⟨Tenant.ext, congrArg _⟩
  simp only [mineOnly, Request.isOf, Function.comp_apply, decide_eq_true_eq, hiff]

/-! ### The service -/

/-- **A tenant has the service to itself**: for every run and every table with the same rows of the
tenant, its requests alone, none of another tenant doing anything, perform the same statements with
the same answers and leave the same rows of the tenant; each of them is where it was, with the same
result if it has returned. -/
theorem tenants_isolated_in_flight {T₀ T₁ : Table} {qs : List Request} {c : ServiceConfig}
    {G : List ServiceEvent → ServiceEvent → Prop} (tenant : Tenant)
    (hc : Reachable pg.exec G (Snapshot.init T₀ (Request.prog base) qs) c)
    (hrows : T₀.rowsOf tenant.asStr = T₁.rowsOf tenant.asStr) :
    ∃ c', Reachable pg.exec (fun _ _ => True) (Snapshot.init T₁ (Request.prog base) qs) c' ∧
      calls c'.hist = (calls c.hist).filter (fun x => decide (x.2.1.tenant = tenant.asStr)) ∧
      c.state.rowsOf tenant.asStr = c'.state.rowsOf tenant.asStr ∧
      ∀ (i : ℕ) (p : Proc Stmt Stmt.Ret Request Result), c.procs[i]? = some p →
        p.req.authority.tenant = tenant →
          ∃ p', c'.procs[i]? = some p' ∧ p'.req = p.req ∧ p'.prog = p.prog := by
  obtain ⟨c', hc', hcalls, hobs, hprocs⟩ := hc.purge (Request.isOf tenant)
    (Table.rowsOf tenant.asStr) (fun _ => Request.only_consistent) (fun _ => Request.only_silent)
    hrows
  rw [mineOnly_isOf hc] at hcalls
  exact ⟨c', hc', hcalls, hobs, fun i p hp hp' => hprocs i p hp (decide_eq_true hp')⟩

open Sample in
/-- A `PUT` of Alice's between the statements of a `PUT` of Bob's, of another tenant. -/
theorem tenants_isolated_in_flight_two_tenants :
    let qs : List Request := [.write (.put theme dark alice none 0),
      .write (.put theme light ⟨⟨"globex"⟩, ⟨"bob"⟩, .user⟩ none 0)]
    let c := (Snapshot.init Table.empty (Request.prog ⟨0, 0⟩) qs).schedule
      (Postgres.ofJsonb id).exec [1, 0, 0, 1]
    ∃ c', Reachable (Postgres.ofJsonb id).exec (fun _ _ => True)
        (Snapshot.init Table.empty (Request.prog ⟨0, 0⟩) qs) c' ∧
      calls c'.hist = (calls c.hist).filter (fun x => decide (x.2.1.tenant = "acme")) ∧
      c.state.rowsOf "acme" = c'.state.rowsOf "acme" ∧
      ∀ (i : ℕ) (p : Proc Stmt Stmt.Ret Request Result), c.procs[i]? = some p →
        p.req.authority.tenant = ⟨"acme"⟩ →
          ∃ p', c'.procs[i]? = some p' ∧ p'.req = p.req ∧ p'.prog = p.prog :=
  tenants_isolated_in_flight ⟨"acme"⟩ (Reachable.refl.schedule _ _) rfl

/-! ### Over HTTP -/

namespace App

variable {Jwk Key : Type} {app : App Jwk Key} {env : AppEnv Jwk} {w : AppWorld Jwk}
  {reqs : List HttpRequest} {c : AppConfig Jwk}

/-- **A tenant has the settings to itself over HTTP**: for every run of the router and every table
with the same rows of the tenant, there are requests of the service by the tenant's own authorities,
each one that an HTTP request is entitled to, whose run alone performs the statements on the
tenant's rows, with the same answers in the same order, and leaves the same rows. -/
theorem isolates_tenants (hlib : app.lib.Documented) (tenant : Tenant)
    (hc : Reachable (app.exec env) (fun _ _ => True) (Snapshot.init w app.handle reqs) c)
    {T₁ : Table} (hrows : w.table.rowsOf tenant.asStr = T₁.rowsOf tenant.asStr) :
    ∃ (qs : List Request) (c' : ServiceConfig),
      Reachable env.pg.exec (fun _ _ => True) (Snapshot.init T₁ (Request.prog app.base) qs) c' ∧
      (calls c'.hist).map (fun x => (x.1 / 2, x.2)) =
        (statementsBy c.hist).filter (fun x => decide (x.2.1.tenant = tenant.asStr)) ∧
      c.state.table.rowsOf tenant.asStr = c'.state.rowsOf tenant.asStr ∧
      ∀ j q, qs[j]? = some q → own j c'.hist ≠ [] → q.authority.tenant = tenant ∧
        ∃ req, reqs[j / 2]? = some req ∧ app.Entitled req q := by
  obtain ⟨qs, c₁, hc₁, hstate, hcalls, hserving⟩ := exists_service_run hc
  obtain ⟨c', hc', hcalls', hobs, -⟩ := hc₁.purge (Request.isOf tenant)
    (Table.rowsOf tenant.asStr) (fun _ => Request.only_consistent) (fun _ => Request.only_silent)
    hrows
  have hfilter := hcalls'
  rw [mineOnly_isOf hc₁] at hfilter
  refine ⟨qs, c', hc', ?_, hstate ▸ hobs, fun j q hq hown => ?_⟩
  · rw [hfilter, ← hcalls, List.filter_map]
    rfl
  · -- what it has performed, it has performed in the run of all
    obtain ⟨x, hx⟩ := List.exists_mem_of_ne_nil _ hown
    obtain ⟨n, e', he', rfl, rfl⟩ := Interaction.mem_own_iff.1 hx
    obtain ⟨m, e, he, hmine, -⟩ := Interaction.exists_source hcalls' he'
    obtain ⟨hisOf, hwho⟩ : e.req.isOf tenant = true ∧ e.who = e'.who := by
      rw [mineOnly] at hmine
      split_ifs at hmine with his
      exact ⟨his, (Prod.mk.inj (Option.some.inj hmine)).1⟩
    have hreq := hc₁.req_of_event he
    rw [hwho, hq, Option.some.injEq] at hreq
    refine ⟨of_decide_eq_true (hreq ▸ hisOf), ?_⟩
    have hown₁ : own e'.who c₁.hist ≠ [] := by
      rw [← hwho, Interaction.own_eq_of_getElem? he]
      simp
    obtain ⟨req, hreq', hasked⟩ := hserving _ _ hq hown₁
    exact ⟨req, hreq', hasked.entitled hlib⟩

end App

namespace Sample

/-- The token of Alice, and one of Bob, of another tenant. -/
def bothTokens : String → Option Json
  | "b" => some (.object [("iss", .string "idp"), ("aud", .string "settings"),
      ("sub", .string "bob"), ("tenant", .string "globex"), ("exp", .number (.posInt 100))])
  | t => token t

/-- The application that both come to. -/
def serverOfBoth : App String String := { server with lib := lib bothTokens }

/-- A `PUT` with the token of Bob. -/
def putByBob : HttpRequest :=
  ⟨.put, .setting "theme", [("authorization", [98, 101, 97, 114, 101, 114, 32, 98])], []⟩

/-- A table where Bob's tenant has a row. -/
def tableOfBob : Table :=
  ⟨[⟨"globex", some "bob", "theme", light.value, 7, 0⟩], by decide, by decide⟩

end Sample

open Sample in
/-- A `PUT` of Bob's between the statements of Alice's, seen from her tenant: she might as well be
alone, on a table where Bob's has been all along. -/
theorem App.isolates_tenants_two_puts :
    let reqs := [putTheme, putByBob]
    let c := (Snapshot.init fresh serverOfBoth.handle reqs).schedule (serverOfBoth.exec around)
      (List.replicate 13 0 ++ List.replicate 15 1 ++ [0, 0])
    (statementsBy c.hist).map (fun x => x.2.1.tenant) = ["acme", "globex", "globex", "acme"] ∧
    ∃ (qs : List Request) (c' : ServiceConfig),
      Reachable around.pg.exec (fun _ _ => True)
        (Snapshot.init tableOfBob (Request.prog serverOfBoth.base) qs) c' ∧
      (calls c'.hist).map (fun x => (x.1 / 2, x.2)) =
        (statementsBy c.hist).filter (fun x => decide (x.2.1.tenant = "acme")) ∧
      c.state.table.rowsOf "acme" = c'.state.rowsOf "acme" ∧
      ∀ j q, qs[j]? = some q → own j c'.hist ≠ [] → q.authority.tenant = ⟨"acme"⟩ ∧
        ∃ req, reqs[j / 2]? = some req ∧ serverOfBoth.Entitled req q :=
  ⟨by rfl, isolates_tenants (documented_lib _) ⟨"acme"⟩ (Reachable.refl.schedule _ _) rfl⟩

end SettingsService
