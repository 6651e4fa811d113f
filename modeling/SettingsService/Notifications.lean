import SettingsService.Notify

/-!
# Every change is notified once

Any number of requests run through the decorated service, their calls interleaved in any order.
Once all of them have returned, the change each statement made has been notified exactly once, by
the request the statement belongs to and with the content of the change; so the notifications of
the requests that wrote the present incarnation of a row count its versions up from one.

Main definitions:

* `callEffect` — the change a call made;
* `notifiedBy` — what a request has notified;
* `NotifiedOnce` — what is to hold of the notifications of a run.

Main results:

* `run_callEffects` — the changes that took effect are a run of the versioned store;
* `exists_write_of_callEffect` — the write of a call that made a change, and what it has notified;
* `notified_once` — **every change is notified once and with its own content**.
-/

set_option relaxedAutoImplicit false
set_option autoImplicit false

namespace SettingsService

open Interaction (Prog Proc Answered Event Snapshot Reachable eventOf own replay mem_own_iff)
open OptimisticLock (Change Effective Run incarnation mem_of_mem_incarnation)

/-! ### Changes of calls -/

/-- The change a call made, if it is a statement that took effect. -/
def callEffect (e : Event Call Call.Ret World Request) : Option (Change Identity SettingRecord) :=
  (Call.stmt? ⟨e.op, e.reply⟩).bind fun x => x.1.change x.2

/-- The value a call stored, if it is a statement that stores one. -/
def callStores (e : Event Call Call.Ret World Request) : Option Value :=
  (Call.stmt? ⟨e.op, e.reply⟩).bind fun x => x.1.stores

/-- What the request at position `i` has notified. -/
def notifiedBy (hist : List (Event Call Call.Ret World Request)) (i : ℕ) : List ConfigChange :=
  notified (own i hist)

/-- What the decorated service starts with. -/
def World.empty : World := ⟨Table.empty, []⟩

variable {pg : Postgres} {service : String} {base : Anchor} {reqs : List Request}
  {G : List (Event Call Call.Ret World Request) → Event Call Call.Ret World Request → Prop}
  {c : Snapshot Call Call.Ret World Request Result} {W₀ : World}

/-- The statement of a call that made a change. -/
theorem callEffect_eq_some_iff {e : Event Call Call.Ret World Request}
    {d : Change Identity SettingRecord} : callEffect e = some d ↔
      ∃ x, Call.stmt? ⟨e.op, e.reply⟩ = some x ∧ x.1.change x.2 = some d := by
  rw [callEffect, Option.bind_eq_some_iff]

/-- One more call is one more change, or none. -/
theorem run_callEffects_snoc {V : OptimisticLock.Store Identity SettingRecord}
    {hist : List (Event Call Call.Ret World Request)} {W : World}
    (h : Run V (hist.filterMap callEffect) W.table.view) (i : ℕ)
    (p : Proc Call Call.Ret Request Result) (o : Call) :
    Run V ((hist ++ [eventOf (World.exec pg) W i p o]).filterMap callEffect)
      (World.exec pg o W).2.table.view := by
  rw [List.filterMap_append]
  cases o with
  | stmt s =>
      have he : callEffect (eventOf (World.exec pg) W i p (.stmt s)) =
          s.change (pg.exec s W.table).1 := rfl
      rcases pg.exec_change s W.table with ⟨hc, hT⟩ | ⟨d, hd, heff⟩
      · have hnil : [eventOf (World.exec pg) W i p (.stmt s)].filterMap callEffect = [] := by
          simp [he, hc]
        have htable : (World.exec pg (.stmt s) W).2.table = W.table := hT
        rw [hnil, List.append_nil, htable]
        exact h
      · have hone : [eventOf (World.exec pg) W i p (.stmt s)].filterMap callEffect = [d] := by
          simp [he, hd]
        rw [hone]
        exact h.snoc heff
  | notify change =>
      have hnil : [eventOf (World.exec pg) W i p (.notify change)].filterMap callEffect = [] := rfl
      rw [hnil, List.append_nil]
      exact h

/-- **The changes that took effect are a run of the versioned store.** -/
theorem run_callEffects (hc : Reachable (World.exec pg) G
    (Snapshot.init W₀ (Request.notifyingProg service base) reqs) c) :
    Run W₀.table.view (c.hist.filterMap callEffect) c.state.table.view := by
  refine (Reachable.invariant
    (I := fun W hist => Run W₀.table.view (hist.filterMap callEffect) W.table.view)
    (P := fun _ _ _ _ => True) .nil (fun _ _ _ => trivial) ?_ hc).1
  intro W hist i p o k hrun _ _ _
  exact ⟨run_callEffects_snoc hrun i p o, trivial, fun _ _ _ _ => trivial⟩

/-! ### What one request has notified -/

/-- A decorated request that has returned: so has the inner one, with the same result, and the
notification of that result has been published. -/
theorem Request.returns_notifying {q : Request} {tr : List (Answered Call Call.Ret)} {res : Result}
    (h : (q.notifyingProg service base).Follows tr (.pure res)) :
    (q.prog base).Follows (stmts tr) (.pure res) ∧
      notified tr = (notification service q res).toList := by
  rcases follows_notifying h with ⟨o, k, k', -, -, hp⟩ | ⟨res', hinner, ⟨hp, hn⟩ | ⟨hp, hn⟩⟩
  · cases hp
  · -- nothing is left to do only if there is nothing to notify
    rw [after] at hp
    cases hnot : notification service q res' with
    | none =>
        rw [hnot] at hp
        cases hp
        exact ⟨hinner, by rw [hn, hnot]; rfl⟩
    | some change =>
        rw [hnot] at hp
        cases hp
  · cases hp
    exact ⟨hinner, hn⟩

/-- The statements of a request were answered by Postgres. -/
theorem answered_stmts (hc : Reachable (World.exec pg) G
    (Snapshot.init W₀ (Request.notifyingProg service base) reqs) c) (i n : ℕ) :
    ∀ x ∈ stmts (own i (c.hist.take n)), ∃ T, x.2 = (pg.exec x.1 T).1 := by
  intro x hx
  obtain ⟨y, hy, hyx⟩ := List.mem_filterMap.1 hx
  obtain ⟨m, e, hm, -, rfl⟩ := mem_own_iff.1 hy
  have hm' : c.hist[m]? = some e := by
    rw [List.getElem?_take] at hm
    split_ifs at hm
    exact hm
  have hnext := hc.next hm'
  obtain ⟨who, req, op, reply, before, mark⟩ := e
  cases op with
  | stmt s =>
      obtain rfl := Option.some.inj hyx
      exact ⟨before.table, hnext.reply⟩
  | notify change => cases hyx

/-- The statement of a call that made a change is one of the statements of its request. -/
theorem mem_stmts_of_callEffect {hist : List (Event Call Call.Ret World Request)}
    {e : Event Call Call.Ret World Request} (he : e ∈ hist) {d : Change Identity SettingRecord}
    (hd : callEffect e = some d) : ∃ x ∈ stmts (own e.who hist), x.1.change x.2 = some d ∧
      callStores e = x.1.stores := by
  obtain ⟨x, hx, hxd⟩ := callEffect_eq_some_iff.1 hd
  obtain ⟨n, hn⟩ := List.getElem?_of_mem he
  refine ⟨x, ?_, hxd, by rw [callStores, hx, Option.bind_some]⟩
  exact List.mem_filterMap.2 ⟨⟨e.op, e.reply⟩, mem_own_iff.2 ⟨n, e, hn, rfl, rfl⟩, hx⟩

/-- The process of a call. -/
theorem exists_proc_of_event (hc : Reachable (World.exec pg) G
    (Snapshot.init W₀ (Request.notifyingProg service base) reqs) c)
    {e : Event Call Call.Ret World Request} (he : e ∈ c.hist) :
    ∃ p, c.procs[e.who]? = some p ∧ p.req = e.req := by
  obtain ⟨n, hn⟩ := List.getElem?_of_mem he
  exact hc.exists_proc (hc.req_of_event hn)

/-- **The write of a call that made a change**: it decided on the statement of the call, and it has
the notification of its result still to send, or has sent it. -/
theorem exists_write_of_callEffect (hc : Reachable (World.exec pg) G
    (Snapshot.init W₀ (Request.notifyingProg service base) reqs) c)
    {e : Event Call Call.Ret World Request} (he : e ∈ c.hist)
    {p : Proc Call Call.Ret Request Result} (hp : c.procs[e.who]? = some p)
    {d : Change Identity SettingRecord} (hd : callEffect e = some d) :
    ∃ w o, p.req = .write w ∧ w.Decided pg base o d ∧ callStores e = o.stores ∧
      (p.prog = after service (.write w) (resultOf base d) ∧ notifiedBy c.hist e.who = [] ∨
        p.prog = .pure (resultOf base d) ∧ notifiedBy c.hist e.who =
          (notification service (.write w) (resultOf base d)).toList) := by
  obtain ⟨x, hx, hxd, hstores⟩ := mem_stmts_of_callEffect he hd
  have hin : d ∈ changesIn (stmts (own e.who c.hist)) := List.mem_filterMap.2 ⟨x, hx, hxd⟩
  have hans := answered_stmts hc e.who c.hist.length
  rw [List.take_length] at hans
  -- the change is the one the request made, and so it is done but for the notification
  have hmade : ∀ p', (p.req.prog base).Follows (stmts (own e.who c.hist)) p' →
      ∃ w, p.req = .write w ∧ w.Decided pg base x.1 d ∧ p' = .pure (resultOf base d) := by
    intro p' hfollows
    rcases Request.follows_changes service hfollows hans with
      ⟨hnil, -⟩ | ⟨w, d', hw, hmade, hdone⟩
    · rw [hnil] at hin
      exact absurd hin (by simp)
    · rw [hmade.changes, List.mem_singleton] at hin
      subst hin
      exact ⟨w, hw, hmade.decided x hx hxd, hdone⟩
  rcases Request.follows_notifying (hc.follows hp) with
    ⟨o, k, k', hinner, -, -⟩ | ⟨res, hinner, hrest⟩
  · obtain ⟨w, -, -, hcall⟩ := hmade _ hinner
    cases hcall
  · obtain ⟨w, hw, hdecided, hdone⟩ := hmade _ hinner
    cases hdone
    exact ⟨w, x.1, hw, hdecided, hstores, hw ▸ hrest⟩

/-- **A request that has returned notified the change it made**, once. -/
theorem notifiedBy_of_returned (hc : Reachable (World.exec pg) G
    (Snapshot.init W₀ (Request.notifyingProg service base) reqs) c)
    {e : Event Call Call.Ret World Request} (he : e ∈ c.hist)
    {p : Proc Call Call.Ret Request Result} (hp : c.procs[e.who]? = some p) {res : Result}
    (hres : p.prog = .pure res) {d : Change Identity SettingRecord} (hd : callEffect e = some d) :
    ∃ w o, p.req = .write w ∧ w.Decided pg base o d ∧ callStores e = o.stores ∧
      notifiedBy c.hist e.who = (notification service (.write w) (resultOf base d)).toList := by
  obtain ⟨w, o, hw, hdecided, hstores, ⟨hp', hnil⟩ | ⟨-, hone⟩⟩ :=
    exists_write_of_callEffect hc he hp hd
  · refine ⟨w, o, hw, hdecided, hstores, ?_⟩
    rw [hres, after] at hp'
    cases hn : notification service (.write w) (resultOf base d) with
    | none => exact hnil
    | some change =>
        rw [hn] at hp'
        cases hp'
  · exact ⟨w, o, hw, hdecided, hstores, hone⟩

/-! ### Counting up -/

/-- Where the `n`-th element of a list gives just `n + 1`, the list gives the numbers from one
on. -/
theorem flatMap_eq_range' {α : Type} {xs : List α} {f : α → List ℕ}
    (h : ∀ n x, xs[n]? = some x → f x = [n + 1]) : xs.flatMap f = List.range' 1 xs.length := by
  induction xs using List.reverseRecOn with
  | nil => rfl
  | append_singleton xs x ih =>
      have hx : f x = [xs.length + 1] := h xs.length x (by simp)
      have hxs : xs.flatMap f = List.range' 1 xs.length := by
        refine ih fun n y hy => h n y ?_
        have hlt : n < xs.length := (List.getElem?_eq_some_iff.1 hy).1
        rw [List.getElem?_append_left hlt, hy]
      rw [List.flatMap_append, hxs, List.flatMap_singleton, hx, List.length_append,
        List.length_singleton, List.range'_concat, Nat.one_mul, Nat.add_comm 1]

/-! ### The content of a change -/

/-- What a statement put under an identity is a row of the identity with the version the change
gives it, and that is what its notification says. -/
theorem content_of_change {o : Stmt} {T : Table} {d : Change Identity SettingRecord}
    (hd : o.change (pg.exec o T).1 = some d) {r : SettingRecord} (hr : d.content = some r) :
    r.identity = d.key ∧ d.gives = some r.version ∧ describe service d =
      ⟨service, .upsert, d.key.1, d.key.2.2, some r.value, r.version.toNat⟩ := by
  obtain ⟨hid, hgives⟩ := row_of_change hd hr
  exact ⟨hid, hgives, describe_of_content hr⟩

/-! ### What holds of every run -/

/-- What the decorated service notified once every request has returned. -/
structure NotifiedOnce (service : String) (base : Anchor)
    (c : Snapshot Call Call.Ret World Request Result) : Prop where
  /-- The present incarnation of a row was written by as many statements as its version says, and
  the request of the `n`-th one has notified just the row as this statement left it. -/
  rows : ∀ r ∈ c.state.table.rows,
    ((incarnation callEffect r.identity c.hist).length : ℤ) = r.version ∧
    ∀ n e, (incarnation callEffect r.identity c.hist)[n]? = some e →
      ∃ v, callStores e = some v ∧ notifiedBy c.hist e.who =
        [⟨service, .upsert, r.tenant, r.key, some v, n + 1⟩]
  /-- So the requests that wrote the incarnation have notified the versions from one on. -/
  versions : ∀ r ∈ c.state.table.rows,
    ((incarnation callEffect r.identity c.hist).flatMap fun e =>
      (notifiedBy c.hist e.who).map ConfigChange.version) = List.range' 1 r.version.toNat
  /-- The request of a delete that took effect has notified just the delete. -/
  deletes : ∀ e ∈ c.hist, ∀ id n, callEffect e = some (.remove id n) →
    ∃ w : Write, e.req = .write w ∧ w.Deletes ∧
      notifiedBy c.hist e.who = [NotifyingService.deleteChange service w.key w.authority]
  /-- A read has notified nothing. -/
  reads : ∀ (i : ℕ) (p : Proc Call Call.Ret Request Result), c.procs[i]? = some p →
    (∀ w, p.req ≠ .write w) → notifiedBy c.hist i = []
  /-- Neither has a request that failed. -/
  errors : ∀ (i : ℕ) (p : Proc Call Call.Ret Request Result), c.procs[i]? = some p →
    ∀ e, p.prog = .pure (.error e) → notifiedBy c.hist i = []
  /-- Every request returned what the inner service returned. -/
  results : ∀ (i : ℕ) (p : Proc Call Call.Ret Request Result), c.procs[i]? = some p →
    ∀ res, p.prog = .pure res → (p.req.prog base).Follows (stmts (own i c.hist)) (.pure res)

/-- The effects of a row's incarnation are as many as its version says, and each published exactly
the value it stored. -/
theorem stored_notified (pg : Postgres) (service : String) (base : Anchor)
    (hjsonb : ∀ v, pg.jsonb v = v) {reqs : List Request}
    {c : Snapshot Call Call.Ret World Request Result}
    (hc : Reachable (World.exec pg) (fun _ _ => True)
      (Snapshot.init World.empty (Request.notifyingProg service base) reqs) c)
    (hquiet : c.Quiet) {r : SettingRecord} (hr : r ∈ c.state.table.rows) :
    ((incarnation callEffect r.identity c.hist).length : ℤ) = r.version ∧
      ∀ n e, (incarnation callEffect r.identity c.hist)[n]? = some e →
        ∃ v, callStores e = some v ∧ notifiedBy c.hist e.who =
          [⟨service, .upsert, r.tenant, r.key, some v, n + 1⟩] := by
  have hview : c.state.table.view r.identity = some (r.version, r) :=
    Table.view_eq_some_iff.2 ⟨Table.row?_eq_some_iff.2 ⟨hr, rfl⟩, rfl⟩
  obtain ⟨hgives, hlast⟩ := (run_callEffects hc).incarnation_spec callEffect
    (Table.view_empty r.identity)
  refine ⟨?_, fun n e hn => ?_⟩
  · rw [hview, eq_comm, Option.bind_eq_some_iff] at hlast
    obtain ⟨e, -, he⟩ := hlast
    obtain ⟨v, -, hv⟩ := Option.map_eq_some_iff.1 he
    exact (Prod.mk.inj hv).1
  · obtain ⟨he, d, hd, hkey, r', hr'⟩ := mem_of_mem_incarnation callEffect
      (List.mem_of_getElem? hn)
    obtain ⟨p, hp, -⟩ := exists_proc_of_event hc he
    obtain ⟨res, hres⟩ := hquiet p (List.mem_of_getElem? hp)
    obtain ⟨w, o, -, hdecided, hstores, hnotified⟩ := notifiedBy_of_returned hc he hp hres hd
    obtain ⟨T, hchange⟩ := hdecided.exists_change
    obtain ⟨-, hversion, hdescribe⟩ := @content_of_change pg service _ _ _ hchange _ hr'
    have hg := hgives n e hn
    rw [hd, Option.bind_some, hversion, Option.some.injEq] at hg
    have hnat : r'.version.toNat = n + 1 := by omega
    refine ⟨r'.value, ?_, ?_⟩
    · rw [hstores, stores_of_change (fun v _ => hjsonb v) hchange, hr', Option.map_some]
    · rw [hnotified, hdecided.notification_eq (hdecided.readable fun v _ => hjsonb v), hdescribe,
        hkey, hnat]
      rfl

/-- **Every change is notified once and with its own content**, however the calls of the requests
interleave. -/
theorem notified_once (pg : Postgres) (service : String) (base : Anchor)
    (hjsonb : ∀ v, pg.jsonb v = v) {reqs : List Request}
    {c : Snapshot Call Call.Ret World Request Result}
    (hc : Reachable (World.exec pg) (fun _ _ => True)
      (Snapshot.init World.empty (Request.notifyingProg service base) reqs) c)
    (hquiet : c.Quiet) : NotifiedOnce service base c := by
  refine ⟨fun r hr => stored_notified pg service base hjsonb hc hquiet hr, fun r hr => ?_,
    fun e he id n hd => ?_, fun i p hp hread => ?_, fun i p hp e he => ?_,
    fun i p hp res hres => ?_⟩
  · obtain ⟨hlen, hone⟩ := stored_notified pg service base hjsonb hc hquiet hr
    rw [← hlen, Int.toNat_natCast]
    exact flatMap_eq_range' fun n e hn => by
      obtain ⟨v, -, hv⟩ := hone n e hn
      rw [hv]
      rfl
  · obtain ⟨p, hp, hreq⟩ := exists_proc_of_event hc he
    obtain ⟨res, hres⟩ := hquiet p (List.mem_of_getElem? hp)
    obtain ⟨w, o, hw, hdecided, -, hnotified⟩ := notifiedBy_of_returned hc he hp hres hd
    exact ⟨w, hreq.symm.trans hw, hdecided.deletes, hnotified⟩
  · obtain ⟨res, hres⟩ := hquiet p (List.mem_of_getElem? hp)
    have hfollows := hc.follows hp
    rw [hres] at hfollows
    rw [notifiedBy, (Request.returns_notifying hfollows).2]
    cases hq : p.req with
    | get key authority => rfl
    | search query authority pagination => rfl
    | write w => exact absurd hq (hread w)
  · have hfollows := hc.follows hp
    rw [he] at hfollows
    rw [notifiedBy, (Request.returns_notifying hfollows).2]
    cases p.req <;> rfl
  · have hfollows := hc.follows hp
    rw [hres] at hfollows
    exact (Request.returns_notifying hfollows).1

open Sample in
/-- Two puts in flight at once, of which one fails, then a read, a delete and a new creation. -/
theorem notified_once_two_puts :
    let c := (Snapshot.init World.empty (Request.notifyingProg "settings" ⟨0, 0⟩)
      [.write (.put theme dark alice none 0), .write (.put theme light alice none 0),
        .get theme alice, .write (.delete theme alice 1),
        .write (.put theme light alice none 0)]).schedule (World.exec (Postgres.ofJsonb id))
          [0, 1, 1, 0, 1, 2, 3, 3, 3, 4, 4, 4]
    NotifiedOnce "settings" ⟨0, 0⟩ c ∧ c.state.published.length = 3 :=
  ⟨notified_once _ _ _ (fun _ => rfl) (Reachable.refl.schedule _ _) (by decide), by decide⟩

end SettingsService
