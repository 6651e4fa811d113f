import SettingsService.Mediation

/-!
# Requests over HTTP are requests of the service

Requests in flight over the router, seen from the settings table: every process runs the statements
of one request of the service, and the demo trigger those of two.  So whatever the requests in
flight do, what happens to the table is a run of the settings service.

Main definitions:

* `App.Serving` — what a request asks of the service, once it has been let through;
* `statementsBy` — the statements of a history, each with the process that ran it.

Main results:

* `App.exists_parts` — the statements of a request are those of at most two requests of the service;
* `App.exists_service_run` — the statements of a run are performed in a run of the service;
* `App.refines_service` — **the router refines the service**.
-/

set_option relaxedAutoImplicit false
set_option autoImplicit false

namespace SettingsService

open Interaction (Prog Snapshot Event Reachable Answered own calls callsOf subcalls)
open Interaction.Prog (Follows)

variable {Jwk Key : Type}

/-! ### The statements of a request -/

namespace App

/-- What a request with these calls asks of the service: what it says under the authority of its
bearer token, which has been let through, or anything under the authority of the demo. -/
def Serving (app : App Jwk Key) (req : HttpRequest) (tr : AppTrace Jwk) (q : Request) : Prop :=
  (∃ token auth t₁ t₂, tr = t₁ ++ t₂ ∧ app.Admitted "tenant:" req.headers token auth t₁ ∧
    app.Asks req auth q) ∨
  (∃ key token, app.Triggers req key token) ∧ q.authority = demoAuthority

variable {app : App Jwk Key} {req : HttpRequest} {tr : AppTrace Jwk}

/-- **The statements of a request** are those of at most two requests of the service. -/
theorem exists_parts {p : Prog (AppOp Jwk) AppOp.Ret (Option Response)}
    (h : (app.handle req).Follows tr p) : ∃ ts ts', statements tr = ts ++ ts' ∧
      RunsOne app.base (app.Serving req tr) ts ∧ RunsOne app.base (app.Serving req tr) ts' := by
  rcases (handles_of_follows h).statements_cases with hnone |
    ⟨-, token, auth, t₁, t₂, rfl, ha, hserves⟩ | ⟨htriggers, htwo⟩
  · exact ⟨[], [], hnone, .nil, .nil⟩
  · refine ⟨statements t₂, [], by simp [ha.statements], ?_, .nil⟩
    exact hserves.runsOne.imp fun q hq => .inl ⟨token, auth, t₁, t₂, rfl, ha, hq⟩
  · obtain ⟨ts, ts', hts, hone, hone'⟩ := htwo.runsOne
    exact ⟨ts, ts', hts, hone.imp fun q hq => .inr ⟨htriggers, hq⟩,
      hone'.imp fun q hq => .inr ⟨htriggers, hq⟩⟩

end App

/-! ### The statements of a history -/

/-- The statements of a history, each with the process that ran it. -/
def statementsBy (hist : List (AppEvent Jwk)) : List (ℕ × Answered Stmt Stmt.Ret) :=
  hist.filterMap fun e => (AppOp.stmt? ⟨e.op, e.reply⟩).map (e.who, ·)

/-- The two requests of the process at `i` are at `2 * i` and `2 * i + 1`, where the first one has
`len i` statements. -/
def slot (len : ℕ → ℕ) (hist : List (AppEvent Jwk)) (e : AppEvent Jwk) :
    Option (ℕ × Answered Stmt Stmt.Ret) :=
  (AppOp.stmt? ⟨e.op, e.reply⟩).map fun x =>
    (2 * e.who + if (statements (own e.who hist)).length < len e.who then 0 else 1, x)

variable {len : ℕ → ℕ} {hist : List (AppEvent Jwk)} {e : AppEvent Jwk}

theorem slot_eq_some_iff {j : ℕ} {x : Answered Stmt Stmt.Ret} : slot len hist e = some (j, x) ↔
    AppOp.stmt? ⟨e.op, e.reply⟩ = some x ∧
      j = 2 * e.who + if (statements (own e.who hist)).length < len e.who then 0 else 1 := by
  rw [slot, Option.map_eq_some_iff]
  constructor
  · rintro ⟨y, hy, hj⟩
    obtain ⟨rfl, rfl⟩ := Prod.mk.inj hj
    exact ⟨hy, rfl⟩
  · rintro ⟨hx, rfl⟩
    exact ⟨x, hx, rfl⟩

/-- The statements of a process after one more call. -/
theorem statements_own_snoc (i : ℕ) (hist : List (AppEvent Jwk)) (e : AppEvent Jwk) :
    statements (own i (hist ++ [e])) = statements (own i hist) ++
      if e.who = i then (AppOp.stmt? ⟨e.op, e.reply⟩).toList else [] := by
  rw [Interaction.own_append, statements_append, Interaction.own_singleton]
  split_ifs
  · rw [statements, statements, List.filterMap_cons, List.filterMap_nil]
    cases AppOp.stmt? (⟨e.op, e.reply⟩ : Answered (AppOp Jwk) AppOp.Ret) <;> rfl
  · rfl

/-- **The statements in the slots of a process** are its first ones and its other ones. -/
theorem callsOf_subcalls_slot (len : ℕ → ℕ) (hist : List (AppEvent Jwk)) (i : ℕ) :
    callsOf (2 * i) (subcalls (slot len) hist) = (statements (own i hist)).take (len i) ∧
      callsOf (2 * i + 1) (subcalls (slot len) hist) = (statements (own i hist)).drop (len i) := by
  induction hist using List.reverseRecOn with
  | nil => simp [subcalls, Interaction.own]
  | append_singleton hist e ih =>
      obtain ⟨hfirst, hsecond⟩ := ih
      rw [Interaction.subcalls_snoc, Interaction.callsOf_append, Interaction.callsOf_append, hfirst,
        hsecond, statements_own_snoc]
      cases hx : AppOp.stmt? (⟨e.op, e.reply⟩ : Answered (AppOp Jwk) AppOp.Ret) with
      | none =>
          have hslot : slot len hist e = none := by rw [slot, hx, Option.map_none]
          rw [hslot]
          simp
      | some x =>
          have hslot : slot len hist e = some (2 * e.who +
              if (statements (own e.who hist)).length < len e.who then 0 else 1, x) :=
            slot_eq_some_iff.2 ⟨hx, rfl⟩
          rw [hslot, Option.toList_some, Option.toList_some, Interaction.callsOf_singleton,
            Interaction.callsOf_singleton]
          rcases eq_or_ne e.who i with rfl | hne
          · rw [if_pos rfl, List.take_append, List.drop_append]
            rcases Nat.lt_or_ge (statements (own e.who hist)).length (len e.who) with hlt | hge
            · have hroom : [x].length ≤ len e.who - (statements (own e.who hist)).length := by
                simp
                omega
              rw [List.take_of_length_le hroom, List.drop_of_length_le hroom]
              simp [hlt]
            · rw [Nat.sub_eq_zero_of_le hge]
              simp [Nat.not_lt.2 hge]
          · rw [if_neg hne, if_neg (by simp only; split_ifs <;> omega),
              if_neg (by simp only; split_ifs <;> omega)]
            simp

/-- The statements in the slots are those of the history, in their order. -/
theorem map_subcalls_slot (len : ℕ → ℕ) (hist : List (AppEvent Jwk)) :
    (subcalls (slot len) hist).map (fun x => (x.1 / 2, x.2)) = statementsBy hist := by
  induction hist using List.reverseRecOn with
  | nil => rfl
  | append_singleton hist e ih =>
      rw [Interaction.subcalls_snoc, List.map_append, ih, statementsBy, statementsBy,
        List.filterMap_append, List.filterMap_cons, List.filterMap_nil, slot]
      congr 1
      cases AppOp.stmt? (⟨e.op, e.reply⟩ : Answered (AppOp Jwk) AppOp.Ret) with
      | none => rfl
      | some x =>
          simp only [Option.map_some, Option.toList_some, List.map_cons, List.map_nil]
          congr 2
          split_ifs <;> omega

/-- A call that is no statement leaves the table alone. -/
theorem table_of_stmt?_eq_none {app : App Jwk Key} {env : AppEnv Jwk} {o : AppOp Jwk} {r : o.Ret}
    (h : AppOp.stmt? ⟨o, r⟩ = none) (w : AppWorld Jwk) : (app.exec env o w).2.table = w.table := by
  cases o with
  | settings s => cases h
  | auth | allow | ready | gather | forward => rfl

/-- A statement is one of the database. -/
theorem exec_of_stmt? {app : App Jwk Key} {env : AppEnv Jwk} {o : AppOp Jwk} {r : o.Ret}
    {x : Answered Stmt Stmt.Ret} (h : AppOp.stmt? ⟨o, r⟩ = some x) {w : AppWorld Jwk}
    (hr : r = (app.exec env o w).1) :
    env.pg.exec x.1 w.table = (x.2, (app.exec env o w).2.table) := by
  cases o with
  | settings s =>
      obtain rfl := Option.some.inj h
      rw [hr]
      rfl
  | auth | allow | ready | gather | forward => cases h

/-- A part of a list that is put together from two others stands in the first one or in the second
one. -/
theorem next_of_append {α : Type} {l l' m m' : List α} {x : α} (h : l ++ x :: l' = m ++ m') :
    (l.length < m.length → ∃ r, m = l.take m.length ++ x :: r) ∧
      (m.length ≤ l.length → ∃ r, m' = l.drop m.length ++ x :: r) := by
  rcases List.append_eq_append_iff.1 h with ⟨a, rfl, ha⟩ | ⟨a, rfl, rfl⟩
  · cases a with
    | nil =>
        refine ⟨fun hlt => ?_, fun _ => ⟨l', ?_⟩⟩
        · simp at hlt
        · simpa using ha.symm
    | cons y a =>
        obtain ⟨rfl, -⟩ := List.cons.inj ha
        refine ⟨fun _ => ⟨a, ?_⟩, fun hle => ?_⟩
        · rw [List.take_of_length_le (by simp)]
        · simp at hle
  · refine ⟨fun hlt => ?_, fun _ => ⟨l', by simp⟩⟩
    rw [List.length_append] at hlt
    omega

namespace App

variable {app : App Jwk Key} {env : AppEnv Jwk} {w : AppWorld Jwk} {reqs : List HttpRequest}
  {c : AppConfig Jwk}

/-- **The statements of a run are performed in a run of the service.** -/
theorem exists_service_run
    (hc : Reachable (app.exec env) (fun _ _ => True) (Snapshot.init w app.handle reqs) c) :
    ∃ (qs : List Request) (c' : Snapshot Stmt Stmt.Ret Table Request Result),
      Reachable env.pg.exec (fun _ _ => True)
        (Snapshot.init w.table (Request.prog app.base) qs) c' ∧
      c'.state = c.state.table ∧
      (calls c'.hist).map (fun x => (x.1 / 2, x.2)) = statementsBy c.hist ∧
      ∀ j q, qs[j]? = some q → own j c'.hist ≠ [] → ∃ req, reqs[j / 2]? = some req ∧
        app.Serving req (own (j / 2) c.hist) q := by
  -- each process has two requests, and its statements are theirs
  have hparts : ∀ i, ∃ ts ts' q q' y y', statements (own i c.hist) = ts ++ ts' ∧
      (Request.prog app.base q).Follows ts y ∧ (Request.prog app.base q').Follows ts' y' ∧
      (ts ≠ [] → ∃ req, reqs[i]? = some req ∧ app.Serving req (own i c.hist) q) ∧
      (ts' ≠ [] → ∃ req, reqs[i]? = some req ∧ app.Serving req (own i c.hist) q') := by
    intro i
    cases hi : reqs[i]? with
    | none =>
        have hnil : RunsOne app.base (fun _ => True) [] := .nil
        obtain ⟨q, y, -, hy⟩ := hnil.exists_request
        exact ⟨[], [], q, q, y, y, by rw [hc.own_eq_nil hi]; rfl, hy, hy, by simp, by simp⟩
    | some req =>
        obtain ⟨p, hp, hreq⟩ := hc.exists_proc hi
        have hfollows := hc.follows hp
        rw [hreq] at hfollows
        obtain ⟨ts, ts', hts, hone, hone'⟩ := exists_parts hfollows
        obtain ⟨q, y, hq, hy⟩ := hone.exists_request
        obtain ⟨q', y', hq', hy'⟩ := hone'.exists_request
        exact ⟨ts, ts', q, q', y, y', hts, hy, hy', fun h => ⟨req, rfl, hq h⟩,
          fun h => ⟨req, rfl, hq' h⟩⟩
  choose ts ts' q q' y y' hts hy hy' hq hq' using hparts
  let qs : List Request := (List.range (2 * reqs.length)).map fun j =>
    if j % 2 = 0 then q (j / 2) else q' (j / 2)
  let len : ℕ → ℕ := fun i => (ts i).length
  have hqs : ∀ j, j < 2 * reqs.length →
      qs[j]? = some (if j % 2 = 0 then q (j / 2) else q' (j / 2)) := by
    intro j hj
    rw [List.getElem?_map, List.getElem?_range hj, Option.map_some]
  have hskip : ∀ (n : ℕ) (e : AppEvent Jwk), c.hist[n]? = some e →
      slot len (c.hist.take n) e = none →
        (app.exec env e.op e.before).2.table = e.before.table := by
    intro n e he hnone
    rw [slot, Option.map_eq_none_iff] at hnone
    exact table_of_stmt?_eq_none hnone e.before
  have hcall : ∀ (n : ℕ) (e : AppEvent Jwk) (j : ℕ) (x : Answered Stmt Stmt.Ret),
      c.hist[n]? = some e → slot len (c.hist.take n) e = some (j, x) →
        env.pg.exec x.1 e.before.table = (x.2, (app.exec env e.op e.before).2.table) ∧
        ∃ q₁ k, qs[j]? = some q₁ ∧ (Request.prog app.base q₁).Follows
          (callsOf j (subcalls (slot len) (c.hist.take n))) (.call x.1 k) := by
    intro n e j x he hslot
    obtain ⟨hx, rfl⟩ := slot_eq_some_iff.1 hslot
    refine ⟨exec_of_stmt? hx (hc.next he).reply, ?_⟩
    have hlt : e.who < reqs.length := (List.getElem?_eq_some_iff.1 (hc.req_of_event he)).1
    obtain ⟨hfirst, hsecond⟩ := callsOf_subcalls_slot len (c.hist.take n) e.who
    have hsplit : statements (own e.who (c.hist.take n)) ++
        x :: statements (own e.who (c.hist.drop (n + 1))) = ts e.who ++ ts' e.who := by
      rw [← hts e.who, Interaction.own_eq_of_getElem? he, statements_append]
      exact congrArg _ (List.filterMap_cons_some hx).symm
    obtain ⟨htake, hdrop⟩ := next_of_append hsplit
    split_ifs with hless
    · obtain ⟨rest, hrest⟩ := htake hless
      obtain ⟨k, hk⟩ := Follows.reaches (hrest ▸ hy e.who)
      refine ⟨q e.who, k, ?_, by rwa [Nat.add_zero, hfirst]⟩
      rw [hqs _ (by omega), if_pos (by omega), Nat.add_zero, Nat.mul_div_cancel_left _ (by omega)]
    · obtain ⟨rest, hrest⟩ := hdrop (Nat.not_lt.1 hless)
      obtain ⟨k, hk⟩ := Follows.reaches (hrest ▸ hy' e.who)
      refine ⟨q' e.who, k, ?_, by rwa [hsecond]⟩
      rw [hqs _ (by omega), if_neg (by omega)]
      congr 2
      omega
  obtain ⟨c', hc', hcalls, hstate⟩ := hc.subrun (slot len) AppWorld.table env.pg.exec
    (Request.prog app.base) qs hskip hcall
  refine ⟨qs, c', hc', hstate, by rw [hcalls, map_subcalls_slot], fun j q₁ hj hown => ?_⟩
  have hlt : j < 2 * reqs.length := by
    have := (List.getElem?_eq_some_iff.1 hj).1
    simpa [qs] using this
  obtain ⟨hfirst, hsecond⟩ := callsOf_subcalls_slot len c.hist (j / 2)
  rw [hts] at hfirst hsecond
  rw [hqs j hlt, Option.some.injEq] at hj
  rw [← Interaction.callsOf_calls, hcalls] at hown
  split_ifs at hj with heven
  · have hj2 : 2 * (j / 2) = j := by omega
    rw [hj2, List.take_left] at hfirst
    exact hj ▸ hq (j / 2) (hfirst ▸ hown)
  · have hj2 : 2 * (j / 2) + 1 = j := by omega
    rw [hj2, List.drop_left] at hsecond
    exact hj ▸ hq' (j / 2) (hsecond ▸ hown)

/-- Under whose authority a request may ask the service for something: that of the user its bearer
token names, or that of the demo. -/
def Entitled (app : App Jwk Key) (req : HttpRequest) (q : Request) : Prop :=
  (∃ token claims later ttl, bearerToken req.headers = some token ∧
    app.lib.claims token = some claims ∧
    JwtAuthAdapter.Names claims later ⟨q.authority, claims.jti.getD "", ttl⟩ ∧
    ∀ v, q = .write v → app.AsksWrite req v) ∨
  (∃ key token, app.Triggers req key token) ∧ q.authority = demoAuthority

/-- The bearer token of a request that was let through names its authority. -/
theorem Admitted.names (hlib : app.lib.Documented) {pre : String} {headers : HeaderMap}
    {token : String} {auth : Authority} {tr : AppTrace Jwk}
    (h : app.Admitted pre headers token auth tr) :
    ∃ claims later ttl, bearerToken headers = some token ∧ app.lib.claims token = some claims ∧
      JwtAuthAdapter.Names claims later ⟨auth, claims.jti.getD "", ttl⟩ := by
  obtain ⟨tv, ⟨hbearer, hv⟩, -⟩ := h
  obtain ⟨u, principal, hu, -, rfl⟩ := exists_of_validated hv
  obtain ⟨kid, key, tk, now, later, claims, -, -, -, hd, hnames⟩ :=
    (JwtAuthAdapter.follows_validate hlib).1 hu
  obtain ⟨hclaims, -⟩ := JwtAuthAdapter.claims_of_decode hlib hd
  exact ⟨claims, later, principal.remainingTtl, hbearer, hclaims,
    hnames.tenant, hnames.user, hnames.role, rfl, hnames.remainingTtl⟩

/-- What a request asks for once its token was let through, it is entitled to ask for. -/
theorem Serving.entitled (hlib : app.lib.Documented) {req : HttpRequest} {tr : AppTrace Jwk}
    {q : Request} (h : app.Serving req tr q) : app.Entitled req q := by
  refine h.imp_left ?_
  rintro ⟨token, auth, t₁, t₂, -, hadmitted, hasks⟩
  obtain ⟨claims, later, ttl, hbearer, hclaims, hnames⟩ := hadmitted.names hlib
  refine ⟨token, claims, later, ttl, hbearer, hclaims, ?_, hasks.write⟩
  rwa [hasks.authority]

/-- **The router refines the service**: whatever requests are in flight, there are requests of the
service, two for each request, whose run performs the same statements with the same answers in the
same order and leaves the same table; and each that performs a statement is one its request is
entitled to. -/
theorem refines_service (hlib : app.lib.Documented)
    (hc : Reachable (app.exec env) (fun _ _ => True) (Snapshot.init w app.handle reqs) c) :
    ∃ (qs : List Request) (c' : Snapshot Stmt Stmt.Ret Table Request Result),
      Reachable env.pg.exec (fun _ _ => True)
        (Snapshot.init w.table (Request.prog app.base) qs) c' ∧
      c'.state = c.state.table ∧
      (calls c'.hist).map (fun x => (x.1 / 2, x.2)) = statementsBy c.hist ∧
      ∀ j q, qs[j]? = some q → own j c'.hist ≠ [] →
        ∃ req, reqs[j / 2]? = some req ∧ app.Entitled req q := by
  obtain ⟨qs, c', hc', hstate, hcalls, hserving⟩ := exists_service_run hc
  refine ⟨qs, c', hc', hstate, hcalls, fun j q hq hown => ?_⟩
  obtain ⟨req, hreq, hasked⟩ := hserving j q hq hown
  exact ⟨req, hreq, hasked.entitled hlib⟩

end App

open Sample in
/-- Two `PUT`s, the calls of one between those of the other. -/
theorem App.refines_service_two_puts :
    let c := inFlight [putTheme, putTheme] (List.replicate 13 0 ++ List.replicate 14 1 ++ [0])
    ∃ (qs : List Request) (c' : Snapshot Stmt Stmt.Ret Table Request Result),
      Reachable around.pg.exec (fun _ _ => True)
        (Snapshot.init Table.empty (Request.prog server.base) qs) c' ∧
      c'.state = c.state.table ∧
      (calls c'.hist).map (fun x => (x.1 / 2, x.2)) = statementsBy c.hist ∧
      ∀ j q, qs[j]? = some q → own j c'.hist ≠ [] →
        ∃ req, [putTheme, putTheme][j / 2]? = some req ∧ server.Entitled req q :=
  refines_service (documented_lib _) (reachable_inFlight _ _)

end SettingsService
