import SettingsService.Notifications
import SettingsService.SettingsMap

/-!
# The service behind its decorator

Whatever the decorated service does, the plain one behind it does too: each statement is a step of
the plain service, and a notification is none.  So the decorator changes neither the table nor a
result, the decorated service does to the map of settings what the plain one does, and what it has
published are the notifications of the requests it has answered.

Main definitions:

* `Decorates` — a decorated request and the plain one behind it;
* `Behind` — the plain service behind the decorated one;
* `PlainRun` — a run of the plain service that does what the decorated one does;
* `CallReadsPresent` — the guard: no creation of its row since the read of a `PATCH`;
* `PublishedAsSpecified` — requests in this order do to the map, and publish, what they are for.

Main results:

* `Behind.step` — a statement is a step of the plain service, a notification is none;
* `exists_behind` — the decorated service simulates the plain one;
* `exists_plain_run` — **the decorator is transparent**;
* `notifiedBy_eq` — what a request has published at any moment;
* `exists_order_published` — **the decorated service does to the map what it is for, and publishes
  it**.
-/

set_option relaxedAutoImplicit false
set_option autoImplicit false

namespace SettingsService

open Interaction (Prog Proc Snapshot Step Event Reachable Answered own calls eventOf Precedes)
open OptimisticLock (Change)

/-- Requests of the decorated service in flight. -/
abbrev NotifyingConfig : Type := Snapshot Call Call.Ret World Request Result

/-- A call of a request of the decorated service. -/
abbrev NotifyingEvent : Type := Event Call Call.Ret World Request

variable {pg : Postgres} {base : Anchor} {service : String} {W₀ : World} {reqs : List Request}
  {c : NotifyingConfig} {c' : ServiceConfig}

/-! ### What stands behind a request -/

/-- Once its result is there, a decorated request returns it, or notifies it first. -/
theorem after_cases (service : String) (q : Request) (res : Result) :
    after service q res = .pure res ∨ ∃ change, notification service q res = some change ∧
      after service q res = .call (.notify change) fun _ => .pure res := by
  rw [after]
  cases notification service q res with
  | none => exact .inl rfl
  | some change => exact .inr ⟨change, rfl, rfl⟩

theorem after_inj {q : Request} {x y : Result} (h : after service q x = after service q y) :
    x = y := by
  rcases after_cases service q x with hx | ⟨change, -, hx⟩ <;>
    rcases after_cases service q y with hy | ⟨change', -, hy⟩ <;> rw [hx, hy] at h
  · exact Prog.pure.inj h
  · cases h
  · cases h
  · exact Prog.pure.inj (congrFun (eq_of_heq (Prog.call.inj h).2) ())

/-- The statement of a call, with the process that performed it. -/
def innerCall (e : NotifyingEvent) : Option (ℕ × Answered Stmt Stmt.Ret) :=
  (Call.stmt? ⟨e.op, e.reply⟩).map fun x => (e.who, x)

/-- **A decorated request and the plain one behind it**, after these calls: it has to do what is
left of the plain one, and then its notification. -/
inductive Decorates (service : String) (hist : List NotifyingEvent) (hist' : List ServiceEvent) :
    Proc Call Call.Ret Request Result → Proc Stmt Stmt.Ret Request Result → Prop
  /-- Since their last calls the same changes have been made. -/
  | inner {q : Request} {prog : Prog Stmt Stmt.Ret Result} {m m' : ℕ} (hm : m ≤ hist.length)
      (hm' : m' ≤ hist'.length)
      (hmark : changes (hist'.drop m') = (hist.drop m).filterMap callEffect) :
      Decorates service hist hist' ⟨q, NotifyingService.inner prog >>= after service q, m⟩
        ⟨q, prog, m'⟩
  /-- It has notified its result. -/
  | notified (q : Request) (res : Result) (m m' : ℕ) :
      Decorates service hist hist' ⟨q, .pure res, m⟩ ⟨q, .pure res, m'⟩

section Decorates

variable {hist : List NotifyingEvent} {hist' : List ServiceEvent}
  {p : Proc Call Call.Ret Request Result} {p' : Proc Stmt Stmt.Ret Request Result}

theorem Decorates.req_eq (h : Decorates service hist hist' p p') : p'.req = p.req := by
  cases h <;> rfl

/-- A request is behind its decorator while others run. -/
theorem Decorates.frame (h : Decorates service hist hist' p p') (l : List NotifyingEvent)
    (l' : List ServiceEvent) (hl : changes l' = l.filterMap callEffect) :
    Decorates service (hist ++ l) (hist' ++ l') p p' := by
  cases h with
  | inner hm hm' hmark =>
      rw [changes] at hl hmark
      refine .inner (by rw [List.length_append]; omega) (by rw [List.length_append]; omega) ?_
      rw [List.drop_append_of_le_length hm, List.drop_append_of_le_length hm', changes,
        List.filterMap_append, List.filterMap_append, hmark, hl]
  | notified q res m m' => exact .notified q res m m'

/-- A decorated request that has returned returns what the plain one has returned. -/
theorem Decorates.of_pure (h : Decorates service hist hist' p p') {res : Result}
    (hres : p.prog = .pure res) : p'.prog = .pure res := by
  cases h with
  | @inner q prog m m' hm hm' hmark =>
      cases prog with
      | call s k => cases hres
      | pure a =>
          change after service q a = .pure res at hres
          rcases after_cases service q a with ha | ⟨change, -, ha⟩
          · exact congrArg Prog.pure (Prog.pure.inj (ha.symm.trans hres))
          · rw [ha] at hres
            cases hres
  | notified q res' m m' =>
      cases hres
      rfl

/-- If the plain request has returned, the decorated one has returned too, or has its notification
left to send. -/
theorem Decorates.of_returned (h : Decorates service hist hist' p p') {res : Result}
    (hres : p'.prog = .pure res) : p.prog = .pure res ∨ p.prog = after service p.req res := by
  cases h with
  | inner hm hm' hmark =>
      obtain rfl := hres
      exact .inr rfl
  | notified q res' m m' =>
      cases hres
      exact .inl rfl

end Decorates

/-! ### The simulation -/

/-- **The plain service behind the decorated one**: it has the same table, has performed the same
statements, and each of its requests is behind the decorated one. -/
structure Behind (service : String) (c : NotifyingConfig) (c' : ServiceConfig) : Prop where
  table : c'.state = c.state.table
  calls_eq : calls c'.hist = c.hist.filterMap innerCall
  procs : ∀ (i : ℕ) (p : Proc Call Call.Ret Request Result), c.procs[i]? = some p →
    ∃ p', c'.procs[i]? = some p' ∧ Decorates service c.hist c'.hist p p'

theorem behind_init : Behind service (Snapshot.init W₀ (Request.notifyingProg service base) reqs)
    (Snapshot.init W₀.table (Request.prog base) reqs) := by
  refine ⟨rfl, rfl, fun i p hp => ?_⟩
  simp only [Snapshot.init, List.getElem?_map, Option.map_eq_some_iff] at hp ⊢
  obtain ⟨q, hq, rfl⟩ := hp
  refine ⟨_, ⟨q, hq, rfl⟩, ?_⟩
  rw [Request.notifyingProg_eq]
  exact .inner (Nat.zero_le _) (Nat.zero_le _) rfl

section Step

variable {W : World} {procs : List (Proc Call Call.Ret Request Result)}
  {procs' : List (Proc Stmt Stmt.Ret Request Result)} {hist : List NotifyingEvent}
  {hist' : List ServiceEvent} {i : ℕ} {q : Request} {m m' : ℕ}

/-- A statement of both. -/
theorem Behind.stmt (h : Behind service ⟨W, procs, hist⟩ ⟨W.table, procs', hist'⟩) {s : Stmt}
    {k : s.Ret → Prog Stmt Stmt.Ret Result}
    {p : Proc Call Call.Ret Request Result} {p' : Proc Stmt Stmt.Ret Request Result}
    (hp : procs[i]? = some p) (hp' : procs'[i]? = some p') (hreq : p'.req = p.req) :
    Behind service
      ⟨(World.exec pg (.stmt s) W).2, procs.set i (p.next (World.exec pg) W hist.length (.stmt s)
        fun r => NotifyingService.inner (k r) >>= after service p.req),
        hist ++ [eventOf (World.exec pg) W i p (.stmt s)]⟩
      ⟨(pg.exec s W.table).2, procs'.set i (p'.next pg.exec W.table hist'.length s k),
        hist' ++ [eventOf pg.exec W.table i p' s]⟩ := by
  have hi : i < procs.length := (List.getElem?_eq_some_iff.1 hp).1
  have hi' : i < procs'.length := (List.getElem?_eq_some_iff.1 hp').1
  refine ⟨rfl, ?_, fun j r hr => ?_⟩
  · have hcalls := h.calls_eq
    simp only at hcalls ⊢
    rw [calls, List.map_append, ← calls, hcalls, List.filterMap_append]
    rfl
  · simp only at hr ⊢
    rcases eq_or_ne i j with rfl | hj
    · rw [List.getElem?_set_self hi, Option.some.injEq] at hr
      subst hr
      refine ⟨_, List.getElem?_set_self hi', ?_⟩
      rw [Proc.next, Proc.next, hreq]
      refine .inner ?_ ?_ ?_
      · rw [List.length_append, List.length_singleton]
      · rw [List.length_append, List.length_singleton]
      · rw [List.drop_of_length_le (by simp), List.drop_of_length_le (by simp)]
        rfl
    · rw [List.getElem?_set_ne hj] at hr ⊢
      obtain ⟨r', hr', hd⟩ := h.procs j r hr
      exact ⟨r', hr', hd.frame [_] [_] rfl⟩

/-- A notification, which the plain service knows nothing of. -/
theorem Behind.notify (h : Behind service ⟨W, procs, hist⟩ ⟨W.table, procs', hist'⟩)
    {change : ConfigChange} {res : Result} {p : Proc Call Call.Ret Request Result}
    (hp : procs[i]? = some p) (hp' : procs'[i]? = some ⟨p.req, .pure res, m'⟩) :
    Behind service
      ⟨(World.exec pg (.notify change) W).2, procs.set i (p.next (World.exec pg) W hist.length
        (.notify change) fun _ => .pure res),
        hist ++ [eventOf (World.exec pg) W i p (.notify change)]⟩
      ⟨W.table, procs', hist'⟩ := by
  have hi : i < procs.length := (List.getElem?_eq_some_iff.1 hp).1
  refine ⟨rfl, ?_, fun j r hr => ?_⟩
  · have hcalls := h.calls_eq
    simp only at hcalls ⊢
    rw [hcalls, List.filterMap_append]
    exact (List.append_nil _).symm
  · simp only at hr ⊢
    rcases eq_or_ne i j with rfl | hj
    · rw [List.getElem?_set_self hi, Option.some.injEq] at hr
      subst hr
      exact ⟨_, hp', .notified p.req res _ _⟩
    · rw [List.getElem?_set_ne hj] at hr
      obtain ⟨r', hr', hd⟩ := h.procs j r hr
      refine ⟨r', hr', ?_⟩
      rw [← List.append_nil hist']
      exact hd.frame [_] [] rfl

end Step

section Simulation

variable {G : List NotifyingEvent → NotifyingEvent → Prop}
  {G' : List ServiceEvent → ServiceEvent → Prop}
  (hG : ∀ hist e hist' e', G hist e → e'.req = e.req → changed e' = callEffect e →
    changes (hist'.drop e'.mark) = (hist.drop e.mark).filterMap callEffect → G' hist' e')

include hG

/-- **A statement is a step of the plain service, and a notification is none.** -/
theorem Behind.step {c₂ : NotifyingConfig} (h : Behind service c c')
    (hs : Step (World.exec pg) G c c₂) :
    ∃ c₂', Behind service c₂ c₂' ∧ (Step pg.exec G' c' c₂' ∨ c₂' = c') := by
  cases hs with
  | @call W procs hist i p o k hp hk hadmit =>
      obtain ⟨T, procs', hist'⟩ := c'
      obtain rfl : T = W.table := h.table
      obtain ⟨p', hp', hdec⟩ := h.procs i p hp
      cases hdec with
      | notified q res m m' => cases hk
      | @inner q prog m m' hm hm' hmark =>
          cases prog with
          | call s k' =>
              cases hk
              exact ⟨_, h.stmt hp hp' rfl, .inl (.call hp' rfl (hG _ _ _ _ hadmit rfl rfl hmark))⟩
          | pure res =>
              change after service q res = _ at hk
              rcases after_cases service q res with hres | ⟨change, -, hres⟩
              · rw [hres] at hk
                cases hk
              · rw [hres] at hk
                cases hk
                exact ⟨_, h.notify hp hp', .inr rfl⟩

/-- **The decorated service simulates the plain one.** -/
theorem exists_behind
    (hc : Reachable (World.exec pg) G
      (Snapshot.init W₀ (Request.notifyingProg service base) reqs) c) :
    ∃ c', Reachable pg.exec G' (Snapshot.init W₀.table (Request.prog base) reqs) c' ∧
      Behind service c c' := by
  induction hc with
  | refl => exact ⟨_, .refl, behind_init⟩
  | step _ hs ih =>
      obtain ⟨c', hc', hbehind⟩ := ih
      obtain ⟨c₂', hbehind', hstep | rfl⟩ := hbehind.step hG hs
      · exact ⟨c₂', hc'.step hstep, hbehind'⟩
      · exact ⟨_, hc', hbehind'⟩

end Simulation

/-- A run of the plain service that does what the decorated one does: it performs the same
statements, leaves the same table and returns the same results. -/
structure PlainRun (pg : Postgres) (base : Anchor) (T₀ : Table) (reqs : List Request)
    (c : NotifyingConfig) (c' : ServiceConfig) : Prop where
  reachable : Reachable pg.exec (fun _ _ => True) (Snapshot.init T₀ (Request.prog base) reqs) c'
  table : c'.state = c.state.table
  calls_eq : calls c'.hist = c.hist.filterMap innerCall
  results : ∀ (i : ℕ) (p : Proc Call Call.Ret Request Result) (x : Result),
    c.procs[i]? = some p → p.prog = .pure x →
      ∃ p', c'.procs[i]? = some p' ∧ p'.req = p.req ∧ p'.prog = .pure x

/-- **The decorator is transparent.** -/
theorem exists_plain_run
    (hc : Reachable (World.exec pg) (fun _ _ => True)
      (Snapshot.init W₀ (Request.notifyingProg service base) reqs) c) :
    ∃ c', PlainRun pg base W₀.table reqs c c' := by
  obtain ⟨c', hc', hbehind⟩ := exists_behind (fun _ _ _ _ _ _ _ _ => trivial) hc
  refine ⟨c', hc', hbehind.table, hbehind.calls_eq, fun i p x hp hx => ?_⟩
  obtain ⟨p', hp', hdec⟩ := hbehind.procs i p hp
  exact ⟨p', hp', hdec.req_eq, hdec.of_pure hx⟩

open Sample in
/-- Two `PUT`s of which one fails, the notification of the other one after it. -/
theorem exists_plain_run_two_puts :
    let reqs : List Request :=
      [.write (.put theme dark alice none 0), .write (.put theme light alice none 0)]
    let c := (Snapshot.init World.empty (Request.notifyingProg "settings" ⟨0, 0⟩) reqs).schedule
      (World.exec (Postgres.ofJsonb id)) [0, 1, 0, 1, 0]
    ∃ c', PlainRun (Postgres.ofJsonb id) ⟨0, 0⟩ World.empty.table reqs c c' :=
  exists_plain_run (Reachable.refl.schedule _ _)

/-! ### What is published -/

/-- The message of a notification. -/
def ConfigChange.publish (change : ConfigChange) : Publish := ⟨change.topic, change⟩

/-- What is to be told of a request that is answered so. -/
def Request.told (service : String) : Request → Answer → Option ConfigChange
  | .write w, .ok (some (o, version, value)) =>
      some ⟨service, .upsert, o.tenant.asStr, w.key.asStr, some value.value, version⟩
  | .write w, .ok none =>
      some ⟨service, .delete, w.authority.tenant.asStr, w.key.asStr, none, 0⟩
  | _, _ => none

section Published

variable {G : List NotifyingEvent → NotifyingEvent → Prop}
  (hc : Reachable (World.exec pg) G (Snapshot.init W₀ (Request.notifyingProg service base) reqs) c)

include hc

/-- What has been published are the notifications, in their order. -/
theorem published_eq : c.state.published = W₀.published ++
    (c.hist.filterMap fun e => Call.notify? ⟨e.op, e.reply⟩).map ConfigChange.publish := by
  refine (Reachable.invariant (P := fun _ _ _ _ => True)
    (I := fun W hist => W.published = W₀.published ++
      (hist.filterMap fun e => Call.notify? ⟨e.op, e.reply⟩).map ConfigChange.publish)
    (List.append_nil _).symm (fun _ _ _ => trivial) ?_ hc).1
  intro W hist i p o k hW _ _ _
  refine ⟨?_, trivial, fun _ _ _ _ => trivial⟩
  rw [List.filterMap_append, List.map_append, ← List.append_assoc, ← hW]
  cases o with
  | stmt s => exact (List.append_nil _).symm
  | notify change => rfl

/-- **What a request has published** at any moment: the notification of its result, once it has
returned. -/
theorem notifiedBy_eq {i : ℕ} {p : Proc Call Call.Ret Request Result} (hp : c.procs[i]? = some p) :
    notifiedBy c.hist i = (p.prog.result?.bind (notification service p.req)).toList := by
  rw [notifiedBy]
  rcases Request.follows_notifying (hc.follows hp) with
    ⟨o, k, k', -, hnil, hprog⟩ | ⟨res, -, ⟨hprog, hnil⟩ | ⟨hprog, hone⟩⟩
  · rw [hnil, hprog]
    rfl
  · rw [hnil, hprog]
    cases hn : notification service p.req res with
    | none => simp [after, Prog.result?, hn]
    | some change => simp [after, Prog.result?, hn]
  · rw [hone, hprog]
    rfl

/-- **A request notifies what is to be told of its answer.** -/
theorem notification_eq_told {i : ℕ} {p : Proc Call Call.Ret Request Result}
    (hp : c.procs[i]? = some p) {x : Result} (hx : p.prog = .pure x) :
    notification service p.req x = p.req.told service (shownOf x) := by
  have hfollows := hc.follows hp
  rw [hx] at hfollows
  have hinner := (Request.returns_notifying hfollows).1
  cases hreq : p.req with
  | get key authority => rfl
  | search query authority pagination => rfl
  | write w =>
      cases x with
      | error e => rfl
      | ok reply =>
          rw [hreq] at hinner
          have hans := answered_stmts hc i c.hist.length
          rw [List.take_length] at hans
          rcases Write.reply_of_follows hinner hans with rfl | ⟨s, rfl, hkey⟩
          · rfl
          · exact congrArg some (by rw [NotifyingService.upsertChange, hkey])

end Published

/-! ### The decorated service and the map -/

/-- **The guard**: when the `UPDATE` of a `PATCH` takes effect, no row with its identity was created
since it read. -/
def CallReadsPresent (hist : List NotifyingEvent) (e : NotifyingEvent) : Prop :=
  match e.req with
  | .write w => w.isPatch = true → (callEffect e).isSome = true →
      ∀ d ∈ (hist.drop e.mark).filterMap callEffect, d.creates w.identity = false
  | _ => True

instance (hist : List NotifyingEvent) (e : NotifyingEvent) :
    Decidable (CallReadsPresent hist e) := by
  unfold CallReadsPresent
  cases e.req <;> infer_instance

/-- What keeps the guard of the decorated service keeps that of the plain one. -/
theorem readsPresent_of_call {hist : List NotifyingEvent} {e : NotifyingEvent}
    {hist' : List ServiceEvent} {e' : ServiceEvent} (h : CallReadsPresent hist e)
    (hreq : e'.req = e.req) (hchange : changed e' = callEffect e)
    (hmark : changes (hist'.drop e'.mark) = (hist.drop e.mark).filterMap callEffect) :
    ReadsPresent hist' e' := by
  rw [CallReadsPresent] at h
  rwa [ReadsPresent, hreq, hchange, hmark]

/-- A decorated request is done when it has returned or has only its notification to send, unless it
is a write that has failed. -/
def Done (service : String) (p : Proc Call Call.Ret Request Result) : Prop :=
  ∃ x, (p.prog = .pure x ∨ p.prog = after service p.req x) ∧
    ((∃ w, p.req = .write w) → ∃ a, x = .ok a)

/-- A decorated request is done when the plain one is served. -/
theorem Decorates.done_iff {hist : List NotifyingEvent} {hist' : List ServiceEvent}
    {p : Proc Call Call.Ret Request Result} {p' : Proc Stmt Stmt.Ret Request Result}
    (h : Decorates service hist hist' p p') : Done service p ↔ Served p' := by
  have hprog : ∀ x, (p.prog = .pure x ∨ p.prog = after service p.req x) ↔ p'.prog = .pure x := by
    refine fun x => ⟨?_, h.of_returned⟩
    rintro (hx | hx)
    · exact h.of_pure hx
    · cases h with
      | notified q res m m' =>
          rcases after_cases service q x with ha | ⟨change, -, ha⟩
          · exact congrArg Prog.pure (Prog.pure.inj (hx.trans ha))
          · cases hx.trans ha
      | @inner q prog m m' hm hm' hmark =>
          cases prog with
          | pure a => exact congrArg Prog.pure (after_inj hx)
          | call s k =>
              rcases after_cases service q x with ha | ⟨change, -, ha⟩
              · cases hx.trans ha
              · cases hx.trans ha
  rw [Done, Served, h.req_eq]
  exact exists_congr fun x => and_congr_left' (hprog x)

/-- The message that the request at position `m` is to publish. -/
noncomputable def messageAt (service : String) (rs : List Request) (m : ℕ) : Option Publish :=
  (rs[m]?.bind fun q => (answerAt rs m).bind (q.told service)).map ConfigChange.publish

/-- **Requests in the order `is`** do to the map, and publish, what they are for: they are the
requests that are done, none of them comes before one that had returned before it began, each
answers what the map does, the table stands for the map that the last one leaves, and once all have
returned the messages are those of the requests. -/
structure PublishedAsSpecified (service : String) (c : NotifyingConfig) (is : List ℕ) : Prop where
  nodup : is.Nodup
  done : ∀ (i : ℕ) (p : Proc Call Call.Ret Request Result), c.procs[i]? = some p →
    (i ∈ is ↔ Done service p)
  realTime : is.Pairwise fun i j => ¬ Precedes c.hist j i
  answers : ∃ rs : List Request, rs.length = is.length ∧
    (∀ m i, is[m]? = some i → ∃ p, c.procs[i]? = some p ∧ rs[m]? = some p.req ∧
      ∀ x, p.prog = .pure x → ∀ a, answerAt rs m = some a → shownOf x = a) ∧
    c.state.table.settings = mapAt rs is.length ∧
    (c.Quiet → c.state.published.Perm ((List.range is.length).filterMap (messageAt service rs)))

/-- A list made of at most one element for each element of another one. -/
theorem flatMap_eq_filterMap_range {α β : Type} {xs : List α} {f : α → List β} {g : ℕ → Option β}
    (h : ∀ n x, xs[n]? = some x → f x = (g n).toList) :
    xs.flatMap f = (List.range xs.length).filterMap g := by
  induction xs using List.reverseRecOn with
  | nil => rfl
  | append_singleton xs x ih =>
      have hx : f x = (g xs.length).toList := h xs.length x (by simp)
      have hxs : xs.flatMap f = (List.range xs.length).filterMap g := by
        refine ih fun n y hy => h n y ?_
        have hlt : n < xs.length := (List.getElem?_eq_some_iff.1 hy).1
        rw [List.getElem?_append_left hlt, hy]
      rw [List.flatMap_append, hxs, List.flatMap_singleton, hx, List.length_append,
        List.length_singleton, List.range_succ, List.filterMap_append, List.filterMap_cons,
        List.filterMap_nil]
      cases g xs.length <;> rfl

/-- The order of the points of the plain service is one of the decorated one. -/
theorem Behind.precedes (h : Behind service c c') {i j : ℕ} (hij : Precedes c.hist i j) :
    Precedes c'.hist i j := by
  refine hij.of_calls h.calls_eq fun e x he => ?_
  obtain ⟨y, -, rfl⟩ := Option.map_eq_some_iff.1 he
  rfl

section Quiet

variable {is : List ℕ} {rs : List Request} (hc : Reachable (World.exec pg) CallReadsPresent
  (Snapshot.init World.empty (Request.notifyingProg service base) reqs) c)

include hc

/-- **Once all requests have returned, the messages are those of the requests that are done.** -/
theorem perm_published (hquiet : c.Quiet) (his : is.Nodup)
    (hdone : ∀ (i : ℕ) (p : Proc Call Call.Ret Request Result), c.procs[i]? = some p →
      Done service p → i ∈ is)
    (hanswers : ∀ m i, is[m]? = some i → ∃ p, c.procs[i]? = some p ∧ rs[m]? = some p.req ∧
      ∀ x, p.prog = .pure x → ∀ a, answerAt rs m = some a → shownOf x = a) :
    c.state.published.Perm ((List.range is.length).filterMap (messageAt service rs)) := by
  have hwho : ∀ e ∈ c.hist, (Call.notify? ⟨e.op, e.reply⟩).isSome = true → e.who ∈ is := by
    intro e he hnote
    obtain ⟨p, hp, -⟩ := exists_proc_of_event hc he
    obtain ⟨x, hx⟩ := hquiet p (List.mem_of_getElem? hp)
    refine hdone _ p hp ⟨x, .inl hx, ?_⟩
    rintro ⟨w, hw⟩
    -- a write that has failed has notified nothing
    cases x with
    | ok a => exact ⟨a, rfl⟩
    | error err =>
        obtain ⟨change, hchange⟩ := Option.isSome_iff_exists.1 hnote
        obtain ⟨n, hn⟩ := List.getElem?_of_mem he
        have hmem : change ∈ notifiedBy c.hist e.who :=
          List.mem_filterMap.2 ⟨_, Interaction.mem_own_iff.2 ⟨n, e, hn, rfl, rfl⟩, hchange⟩
        rw [notifiedBy_eq hc hp, hx, hw] at hmem
        cases hmem
  have hperm := Interaction.perm_own Call.notify? his hwho
  rw [published_eq hc]
  refine ((hperm.map ConfigChange.publish).symm).trans (List.Perm.of_eq ?_)
  have hlist : (is.flatMap fun i => (own i c.hist).filterMap Call.notify?) =
      (List.range is.length).filterMap fun m =>
        rs[m]?.bind fun q => (answerAt rs m).bind (q.told service) := by
    refine flatMap_eq_filterMap_range fun m i hm => ?_
    obtain ⟨p, hp, hreq, hanswer⟩ := hanswers m i hm
    obtain ⟨x, hx⟩ := hquiet p (List.mem_of_getElem? hp)
    change notifiedBy c.hist i = _
    rw [notifiedBy_eq hc hp, hx, hreq, Option.bind_some]
    change (notification service p.req x).toList = _
    rw [notification_eq_told hc hp hx]
    cases hq : p.req with
    | get key authority => cases answerAt rs m <;> rfl
    | search query authority pagination => cases answerAt rs m <;> rfl
    | write w =>
        have ha : answerAt rs m = some (w.apply (mapAt rs m)).1 := by
          rw [answerAt, hreq, hq]
          rfl
        rw [ha, Option.bind_some, hanswer x hx _ ha]
  rw [hlist, List.map_filterMap]
  rfl

end Quiet

/-- The statements of the plain run are those of the decorated one. -/
theorem Behind.keeps {c' : ServiceConfig} (h : Behind service c c')
    (hkeeps : ∀ e ∈ c.hist, ∀ s, e.op = .stmt s → pg.Keeps s) : ∀ e ∈ c'.hist, pg.Keeps e.op := by
  intro e' he'
  obtain ⟨n, hn⟩ := List.getElem?_of_mem he'
  obtain ⟨m, ⟨i, q, o, r, W, mark⟩, he, hinner, -⟩ := Interaction.exists_source h.calls_eq hn
  obtain ⟨x, hx, hpair⟩ := Option.map_eq_some_iff.1 hinner
  obtain rfl := (Prod.mk.inj hpair).2
  cases o with
  | stmt s =>
      have hop : s = e'.op := congrArg Sigma.fst (Option.some.inj hx)
      exact hop ▸ hkeeps _ (List.mem_of_getElem? he) s rfl
  | notify change => cases hx

/-- **The decorated service does to the map what it is for, and publishes it**, in some order that
respects time, as long as no version can reach the largest `INTEGER`. -/
theorem exists_order_published (hreqs : ∀ q ∈ reqs, q.Proper) (hlen : (reqs.length : ℤ) ≤ i32Max)
    (hc : Reachable (World.exec pg) CallReadsPresent
      (Snapshot.init World.empty (Request.notifyingProg service base) reqs) c)
    (hkeeps : ∀ e ∈ c.hist, ∀ s, e.op = .stmt s → pg.Keeps s) :
    ∃ is, PublishedAsSpecified service c is := by
  obtain ⟨c', hc', hbehind⟩ := exists_behind (fun _ _ _ _ => readsPresent_of_call) hc
  have hspec := asSpecified_points hreqs hlen hc' (hbehind.keeps hkeeps)
  generalize (points c'.hist).map (fun e => e.who) = is at hspec
  have hdone : ∀ (i : ℕ) (p : Proc Call Call.Ret Request Result), c.procs[i]? = some p →
      (i ∈ is ↔ Done service p) := by
    intro i p hp
    obtain ⟨p', hp', hdec⟩ := hbehind.procs i p hp
    rw [hspec.served i p' hp', hdec.done_iff]
  obtain ⟨rs, hrslen, halone, hstate⟩ := hspec.answers
  have hanswers : ∀ m i, is[m]? = some i → ∃ p, c.procs[i]? = some p ∧ rs[m]? = some p.req ∧
      ∀ x, p.prog = .pure x → ∀ a, answerAt rs m = some a → shownOf x = a := by
    intro m i hm
    obtain ⟨p', x', hp', hreq, hx', hanswer⟩ := halone m i hm
    obtain ⟨p, hp, hreq'⟩ := hc.exists_proc (hc'.req_of_proc hp')
    obtain ⟨p'', hp'', hdec⟩ := hbehind.procs i p hp
    obtain rfl := Option.some.inj (hp'.symm.trans hp'')
    refine ⟨p, hp, hreq'.symm ▸ hreq, fun x hx a ha => ?_⟩
    obtain rfl := Prog.pure.inj (hx'.symm.trans (hdec.of_pure hx))
    exact hanswer a ha
  refine ⟨is, hspec.nodup, hdone, hspec.realTime.imp fun h hij => h (hbehind.precedes hij), rs,
    hrslen, hanswers, hbehind.table ▸ hstate, fun hquiet => ?_⟩
  exact perm_published hc hquiet hspec.nodup (fun i p hp => (hdone i p hp).2) hanswers

open Sample in
/-- A `PUT`, then a `PATCH` of what it created, whose statements stand around the notification of
the `PUT` and a read. -/
theorem exists_order_published_of_read_between :
    let c := (Snapshot.init World.empty (Request.notifyingProg "settings" ⟨0, 0⟩)
      [.write (.put theme dark alice none 0), .write (.patch theme light alice 1 0),
        .get theme alice]).schedule (World.exec (Postgres.ofJsonb id)) [0, 0, 1, 0, 2, 1, 1]
    (∃ is, PublishedAsSpecified "settings" c is) ∧ c.Quiet := by
  refine ⟨exists_order_published ?_ (by decide)
    ((Reachable.refl.schedule _ _).of_hist (by decide +kernel)) fun _ _ _ _ _ _ => rfl,
    by decide +kernel⟩
  have hnul : light.value.AddsNoNul := by
    rintro m hm -
    obtain rfl := List.mem_singleton.1 hm
    exact ⟨by decide, by decide⟩
  have halice : alice.user ≠ ⟨""⟩ := by decide
  rintro q hq
  simp only [List.mem_cons, List.not_mem_nil, or_false] at hq
  rcases hq with rfl | rfl | rfl
  · exact ⟨⟨by decide, by decide, by decide, by decide⟩, halice⟩
  · exact ⟨⟨by decide, by decide, fun _ => hnul⟩, halice⟩
  · exact ⟨⟨by decide, by decide⟩, halice⟩

end SettingsService
