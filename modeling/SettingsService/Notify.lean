import SettingsService.Readable
import SettingsService.Runs
import SettingsService.Serializable
import SettingsService.Traces

/-!
# Notifications of changes

The decorator that attaches notifications to the settings service at its boundary: a put, patch or
delete that succeeds calls the notifier once before it returns, everything else passes through.  The
calls of the notifier and the statements of the repository are calls on one world, so that requests
in flight interleave between a statement and the notification of its change.

Main definitions:

* `ConfigChange`, `Publish` — the notification of a change, and what the broker gets of it;
* `Call`, `World` — the calls of the decorated service, and what they run on;
* `NotifyingService.put`, `NotifyingService.patch`, `NotifyingService.delete` — the methods of the
  decorator;
* `notification` — the notification of a request with a given result.

Main results:

* `Request.notifyingProg_eq` — **a decorated request is the request and then its notification**;
* `Request.follows_notifying` — what a decorated request in flight has done;
* `Request.follows_changes` — **the change a request made**, and that its result is that of the
  change;
* `Write.Decided.notification_eq` — **the notification of a write is that of its change**.
-/

set_option relaxedAutoImplicit false
set_option autoImplicit false

namespace SettingsService

open Interaction (Prog Answered)
open OptimisticLock (Change)

/-! ### Notifications -/

/-- The `op` of a notification. -/
inductive ChangeOp
  /-- A put or a patch. -/
  | upsert
  | delete
  deriving DecidableEq

/-- One observed change of a key. -/
structure ConfigChange where
  /-- The publishing instance. -/
  service : String
  /-- What happened. -/
  op : ChangeOp
  /-- The tenant. -/
  tenant : String
  /-- The key. -/
  key : String
  /-- The new value; none for a delete. -/
  value : Option Value
  /-- The version after the change; zero for a delete. -/
  version : ℕ

/-- The topic a change is published to. -/
def ConfigChange.topic (change : ConfigChange) : String :=
  "settings/" ++ change.tenant ++ "/" ++ change.key

/-- A message of the notifier: the topic, and the change its payload spells out. -/
structure Publish where
  topic : String
  payload : ConfigChange

/-! ### Calls -/

/-- A call of the decorated service. -/
inductive Call
  /-- A statement of the repository. -/
  | stmt (s : Stmt)
  /-- `SettingsNotifier::notify`. -/
  | notify (change : ConfigChange)

/-- The answer to a call. -/
@[reducible] def Call.Ret : Call → Type
  | stmt s => s.Ret
  | notify _ => Unit

/-- What calls run on: the table, and the messages published so far. -/
structure World where
  table : Table
  published : List Publish

/-- Running one call; a notification that fails is logged and no more. -/
def World.exec (pg : Postgres) : (o : Call) → World → o.Ret × World
  | .stmt s, W => ((pg.exec s W.table).1, ⟨(pg.exec s W.table).2, W.published⟩)
  | .notify change, W => ((), ⟨W.table, W.published ++ [⟨change.topic, change⟩]⟩)

/-! ### The decorator -/

/-- A program of the decorated service that may fail. -/
abbrev NotifyDb (α : Type) : Type := ExceptT SettingsError (Prog Call Call.Ret) α

namespace NotifyingService

/-- A program of the inner service. -/
def inner {α : Type} (p : Prog Stmt Stmt.Ret α) : Prog Call Call.Ret α :=
  p.translate Call.stmt fun _ r => r

variable (service : String) (base : Anchor)

/-- `upsert_change`. -/
def upsertChange (setting : Setting) : ConfigChange where
  service := service
  op := .upsert
  tenant := setting.ownership.tenant.asStr
  key := setting.key.asStr
  value := some setting.value.value
  version := setting.version

/-- The notification of a delete. -/
def deleteChange (key : SettingKey) (authority : Authority) : ConfigChange where
  service := service
  op := .delete
  tenant := authority.tenant.asStr
  key := key.asStr
  value := none
  version := 0

/-- `get`. -/
def get (key : SettingKey) (authority : Authority) : NotifyDb Setting :=
  ExceptT.mk (inner (Service.get base key authority).run)

/-- `search`. -/
def search (query : String) (authority : Authority) (pagination : Pagination) :
    NotifyDb (Option SearchPage) :=
  ExceptT.mk (inner (Service.search base query authority pagination).run)

/-- `put`. -/
def put (key : SettingKey) (value : SettingValue) (authority : Authority) (expected : Option ℕ)
    (now : Instant) : NotifyDb Setting := ExceptT.mk do
  let result ← inner (Service.put base key value authority expected now).run
  if let .ok setting := result then
    Prog.perform (Call.notify (upsertChange service setting))
  return result

/-- `patch`. -/
def patch (key : SettingKey) (patch : SettingValue) (authority : Authority) (expected : ℕ)
    (now : Instant) : NotifyDb Setting := ExceptT.mk do
  let result ← inner (Service.patch base key patch authority expected now).run
  if let .ok setting := result then
    Prog.perform (Call.notify (upsertChange service setting))
  return result

/-- `delete`. -/
def delete (key : SettingKey) (authority : Authority) (expected : ℕ) : NotifyDb Unit := do
  ExceptT.mk (inner (Service.delete base key authority expected).run)
  ExceptT.lift (Prog.perform (Call.notify (deleteChange service key authority)))
  return ()

end NotifyingService

/-- The program of a decorated request. -/
def Request.notifyingProg (service : String) (base : Anchor) :
    Request → Prog Call Call.Ret Result
  | get key authority => (Reply.setting <$> NotifyingService.get base key authority).run
  | search query authority pagination =>
      (Reply.page <$> NotifyingService.search base query authority pagination).run
  | write (.put key value authority expected now) =>
      (Reply.setting <$> NotifyingService.put service base key value authority expected now).run
  | write (.patch key patch authority expected now) =>
      (Reply.setting <$> NotifyingService.patch service base key patch authority expected now).run
  | write (.delete key authority expected) =>
      ((fun _ => Reply.deleted) <$>
        NotifyingService.delete service base key authority expected).run

/-! ### A decorated request as a request and a notification -/

/-- The notification of a request with a given result. -/
def notification (service : String) : Request → Result → Option ConfigChange
  | .write _, .ok (.setting s) => some (NotifyingService.upsertChange service s)
  | .write w, .ok .deleted => some (NotifyingService.deleteChange service w.key w.authority)
  | _, _ => none

/-- What a decorated request does once the inner one has returned. -/
def after (service : String) (q : Request) (res : Result) : Prog Call Call.Ret Result :=
  match notification service q res with
  | some change => .call (.notify change) fun _ => .pure res
  | none => .pure res

section Decorated

variable {α β : Type} {service : String} {base : Anchor}

namespace NotifyingService

/-- A decorated computation: the inner program runs, then what the decorator adds to it. -/
theorem run_bind_inner {q : Request} (x : Db α)
    (f : Except SettingsError α → Prog Call Call.Ret (Except SettingsError β)) (g : β → Reply)
    (g' : α → Reply)
    (h : ∀ a, (g <$> ExceptT.mk (f a)).run = after service q (Except.map g' a)) :
    (g <$> ExceptT.mk (inner x.run >>= f)).run = inner (g' <$> x).run >>= after service q := by
  have hprog : ∀ p : Prog Stmt Stmt.Ret (Except SettingsError α),
      (g <$> ExceptT.mk (inner p >>= f)).run =
        inner (g' <$> ExceptT.mk p).run >>= after service q := by
    intro p
    induction p with
    | pure a =>
        rw [inner, Prog.translate, Prog.bind_pure, h]
        cases a with
        | error e => rfl
        | ok a => rfl
    | call o k ih => exact congrArg (Prog.call _) (funext fun r => ih r)
  exact hprog x.run

/-- A decorated read: the decorator adds nothing. -/
theorem run_inner {q : Request} (x : Db α) (g : α → Reply)
    (h : ∀ res, after service q res = .pure res) :
    (g <$> ExceptT.mk (inner x.run)).run = inner (g <$> x).run >>= after service q := by
  have hprog : ∀ p : Prog Stmt Stmt.Ret (Except SettingsError α),
      (g <$> ExceptT.mk (inner p)).run = inner (g <$> ExceptT.mk p).run >>= after service q := by
    intro p
    induction p with
    | pure a =>
        cases a with
        | error e => exact (h _).symm
        | ok a => exact (h _).symm
    | call o k ih => exact congrArg (Prog.call _) (funext fun r => ih r)
  exact hprog x.run

end NotifyingService

/-- **A decorated request is the request and then its notification.** -/
theorem Request.notifyingProg_eq (service : String) (base : Anchor) (q : Request) :
    q.notifyingProg service base =
      NotifyingService.inner (q.prog base) >>= after service q := by
  cases q with
  | get key authority => exact NotifyingService.run_inner _ _ fun res => rfl
  | search query authority pagination => exact NotifyingService.run_inner _ _ fun res => rfl
  | write w =>
      cases w with
      | put key value authority expected now =>
          refine NotifyingService.run_bind_inner _ _ _ _ fun a => ?_
          cases a with
          | error e => rfl
          | ok s => rfl
      | patch key patch authority expected now =>
          refine NotifyingService.run_bind_inner _ _ _ _ fun a => ?_
          cases a with
          | error e => rfl
          | ok s => rfl
      | delete key authority expected =>
          refine NotifyingService.run_bind_inner _ _ _ _ fun a => ?_
          cases a with
          | error e => rfl
          | ok s => rfl

end Decorated

/-! ### What a decorated request has done -/

/-- An answered statement of the repository. -/
def Call.stmt? : Answered Call Call.Ret → Option (Answered Stmt Stmt.Ret)
  | ⟨.stmt s, r⟩ => some ⟨s, r⟩
  | ⟨.notify _, _⟩ => none

/-- The change a notification is about. -/
def Call.notify? : Answered Call Call.Ret → Option ConfigChange
  | ⟨.stmt _, _⟩ => none
  | ⟨.notify change, _⟩ => some change

/-- The statements among the calls of a request. -/
def stmts (tr : List (Answered Call Call.Ret)) : List (Answered Stmt Stmt.Ret) :=
  tr.filterMap Call.stmt?

/-- The notifications among the calls of a request. -/
def notified (tr : List (Answered Call Call.Ret)) : List ConfigChange :=
  tr.filterMap Call.notify?

@[simp] theorem stmts_nil : stmts [] = [] := rfl

@[simp] theorem notified_nil : notified [] = [] := rfl

theorem stmts_append (tr tr' : List (Answered Call Call.Ret)) :
    stmts (tr ++ tr') = stmts tr ++ stmts tr' := List.filterMap_append

theorem notified_append (tr tr' : List (Answered Call Call.Ret)) :
    notified (tr ++ tr') = notified tr ++ notified tr' := List.filterMap_append

section Traces

variable {α : Type} {service : String} {base : Anchor} {tr : List (Answered Call Call.Ret)}

/-- An inner program has performed statements only. -/
theorem NotifyingService.follows_inner {p : Prog Stmt Stmt.Ret α} {q : Prog Call Call.Ret α}
    (h : (inner p).Follows tr q) :
    ∃ q', p.Follows (stmts tr) q' ∧ q = inner q' ∧ notified tr = [] := by
  obtain ⟨tr', q', hp, hq, hall⟩ := Prog.follows_translate h
  have htr : stmts tr = tr' ∧ notified tr = [] := by
    clear hp h
    induction hall with
    | nil => exact ⟨rfl, rfl⟩
    | @cons x x' tr₁ tr₂ hx _ ih =>
        obtain ⟨r, rfl, hr⟩ := hx
        obtain ⟨ihs, ihn⟩ := ih
        constructor
        · rw [← ihs]
          exact congrArg (· :: stmts tr₁) (Sigma.ext rfl (heq_of_eq hr.symm))
        · exact ihn
  exact ⟨q', htr.1 ▸ hp, hq, htr.2⟩

/-- **What a decorated request in flight has done**: the inner request has a call left and nothing
was notified, or it has returned and the notification is all that may be left. -/
theorem Request.follows_notifying {q : Request} {p : Prog Call Call.Ret Result}
    (h : (q.notifyingProg service base).Follows tr p) :
    (∃ o k k', (q.prog base).Follows (stmts tr) (.call o k) ∧ notified tr = [] ∧
      p = .call (.stmt o) k') ∨
    ∃ res, (q.prog base).Follows (stmts tr) (.pure res) ∧
      (p = after service q res ∧ notified tr = [] ∨
        p = .pure res ∧ notified tr = (notification service q res).toList) := by
  rw [notifyingProg_eq] at h
  rcases Prog.follows_bind h with ⟨o, k, h₁, rfl⟩ | ⟨res, t₁, t₂, rfl, h₁, h₂⟩
  · obtain ⟨q', hq', hcall, hn⟩ := NotifyingService.follows_inner h₁
    cases q' with
    | pure a => cases hcall
    | call s k' =>
        cases hcall
        exact .inl ⟨s, k', _, hq', hn, rfl⟩
  · right
    obtain ⟨q', hq', hpure, hn⟩ := NotifyingService.follows_inner h₁
    cases q' with
    | call s k' => cases hpure
    | pure a =>
        cases hpure
        refine ⟨res, ?_⟩
        rw [stmts_append, notified_append, hn]
        rw [after] at h₂ ⊢
        cases hc : notification service q res with
        | none =>
            rw [hc] at h₂
            obtain ⟨rfl, rfl⟩ := Prog.follows_pure_iff.1 h₂
            exact ⟨by simpa using hq', .inr ⟨rfl, rfl⟩⟩
        | some change =>
            rw [hc] at h₂
            rcases Prog.follows_call_iff.1 h₂ with ⟨rfl, rfl⟩ | ⟨r, t₃, rfl, h₃⟩
            · exact ⟨by simpa using hq', .inl ⟨rfl, rfl⟩⟩
            · obtain ⟨rfl, rfl⟩ := Prog.follows_pure_iff.1 h₃
              have hs : stmts ([⟨.notify change, r⟩] : List (Answered Call Call.Ret)) = [] := rfl
              rw [hs, List.append_nil]
              exact ⟨hq', .inr ⟨rfl, rfl⟩⟩

end Traces

/-! ### The change a request made -/

/-- The changes of answered statements. -/
def changesIn (tr : List (Answered Stmt Stmt.Ret)) : List (Change Identity SettingRecord) :=
  tr.filterMap fun x => x.1.change x.2

section Changes

variable {pg : Postgres} {base : Anchor} {tr : List (Answered Stmt Stmt.Ret)} {w : Write}
  {p : Prog Stmt Stmt.Ret Result}

/-- The statement `o` made the change `c`, and the write `w` had decided on it after a read. -/
def Write.Decided (pg : Postgres) (base : Anchor) (w : Write) (o : Stmt)
    (c : Change Identity SettingRecord) : Prop :=
  ∃ T₁ settings plan T, Repo.found base pg T₁ w.key w.authority.tenant = .ok settings ∧
    w.Decides settings plan ∧ plan.stmt base = o ∧ o.change (pg.exec o T).1 = some c

/-- One of the statements `tr` of a write made a change. -/
structure Write.Made (pg : Postgres) (base : Anchor) (w : Write)
    (tr : List (Answered Stmt Stmt.Ret)) (c : Change Identity SettingRecord) : Prop where
  /-- It is the only change. -/
  changes : changesIn tr = [c]
  /-- It was made by the statement the write decided on. -/
  decided : ∀ x ∈ tr, x.1.change x.2 = some c → w.Decided pg base x.1 c

/-- A trace that begins with a statement that changes nothing. -/
theorem changesIn_cons_of_none {x : Answered Stmt Stmt.Ret} (hx : x.1.change x.2 = none) :
    changesIn (x :: tr) = changesIn tr := List.filterMap_cons_none hx

/-- The change a plan made: none, and then it has not succeeded; or that of its statement, and it is
done with the result of it. -/
theorem Plan.follows_changes {plan : Plan} (h : (plan.prog base).Follows tr p) :
    (changesIn tr = [] ∧ ∀ a, p ≠ .pure (.ok a)) ∨
      ∃ c x, tr = [x] ∧ x.1 = plan.stmt base ∧ x.1.change x.2 = some c ∧
        p = .pure (resultOf base c) := by
  obtain ⟨k, hk, hrest⟩ := plan.exists_prog_eq base
  rw [hk] at h
  rcases Prog.follows_call_iff.1 h with ⟨rfl, rfl⟩ | ⟨r, tr₁, rfl, hkr⟩
  · exact .inl ⟨rfl, fun a ha => by cases ha⟩
  have hr := hrest r
  cases hc : (plan.stmt base).change r with
  | some c =>
      rw [hc] at hr
      rw [hr.of_some] at hkr
      obtain ⟨rfl, rfl⟩ := Prog.follows_pure_iff.1 hkr
      exact .inr ⟨c, _, rfl, rfl, hc, rfl⟩
  | none =>
      rw [hc] at hr
      rw [changesIn_cons_of_none hc]
      left
      rcases hr.of_none with ⟨e, he⟩ | ⟨key, ownership, hcheck⟩
      · rw [he] at hkr
        obtain ⟨rfl, rfl⟩ := Prog.follows_pure_iff.1 hkr
        exact ⟨rfl, fun a ha => by cases ha⟩
      · rw [hcheck] at hkr
        rcases Prog.follows_call_iff.1 hkr with ⟨rfl, rfl⟩ | ⟨n, tr₂, rfl, hn⟩
        · exact ⟨rfl, fun a ha => by cases ha⟩
        · obtain ⟨rfl, rfl⟩ := Prog.follows_pure_iff.1 hn
          exact ⟨rfl, fun a ha => by simp at ha⟩

/-- **The change a write made**: none, and then it has not succeeded; or one, and it is done with
the result of it. -/
theorem Write.follows_changes (h : (w.prog base).Follows tr p)
    (hans : ∀ x ∈ tr, ∃ T, x.2 = (pg.exec x.1 T).1) :
    (changesIn tr = [] ∧ ∀ a, p ≠ .pure (.ok a)) ∨
      ∃ c, w.Made pg base tr c ∧ p = .pure (resultOf base c) := by
  rw [w.prog_eq] at h
  rcases Prog.follows_call_iff.1 h with ⟨rfl, rfl⟩ | ⟨r, tr₁, rfl, hk⟩
  · exact .inl ⟨rfl, fun a ha => by cases ha⟩
  obtain ⟨T, hT⟩ := hans ⟨.find w.authority.tenant.asStr w.key.asStr, r⟩ List.mem_cons_self
  have hfind : (Stmt.find w.authority.tenant.asStr w.key.asStr).change r = none := rfl
  have hfound : Repo.decodeRows base w.authority.tenant.asStr w.key.asStr r =
      Repo.found base pg T w.key w.authority.tenant := by
    rw [Repo.found, ← hT]
  rw [hfound] at hk
  cases hf : Repo.found base pg T w.key w.authority.tenant with
  | error e =>
      rw [hf] at hk
      obtain ⟨rfl, rfl⟩ := Prog.follows_pure_iff.1 hk
      exact .inl ⟨rfl, fun a ha => by cases ha⟩
  | ok settings =>
      rw [hf] at hk
      change (Plan.progOf base (w.decide settings)).Follows tr₁ p at hk
      cases hd : w.decide settings with
      | error e =>
          rw [hd] at hk
          obtain ⟨rfl, rfl⟩ := Prog.follows_pure_iff.1 hk
          exact .inl ⟨rfl, fun a ha => by cases ha⟩
      | ok plan =>
          rw [hd] at hk
          change (plan.prog base).Follows tr₁ p at hk
          rcases plan.follows_changes hk with ⟨hnone, hne⟩ | ⟨c, x, rfl, hx, hc, rfl⟩
          · exact .inl ⟨(changesIn_cons_of_none hfind).trans hnone, hne⟩
          · refine .inr ⟨c, ⟨?_, fun y hy hyc => ?_⟩, rfl⟩
            · rw [changesIn_cons_of_none hfind]
              exact List.filterMap_cons_some hc
            · obtain ⟨T', hT'⟩ := hans y hy
              rw [hT'] at hyc
              rcases List.mem_cons.1 hy with rfl | hy
              · cases hyc
              · rw [List.mem_singleton] at hy
                subst hy
                exact ⟨T, settings, plan, T', hf, decide_eq_ok_iff.1 hd, hx.symm, hyc⟩

/-- **The change a request made**: none, and then there is nothing to notify; or one, of a write
that is done with the result of it. -/
theorem Request.follows_changes {q : Request} (service : String)
    (h : (q.prog base).Follows tr p) (hans : ∀ x ∈ tr, ∃ T, x.2 = (pg.exec x.1 T).1) :
    (changesIn tr = [] ∧ ∀ res, p = .pure res → notification service q res = none) ∨
      ∃ w c, q = .write w ∧ w.Made pg base tr c ∧ p = .pure (resultOf base c) := by
  cases q with
  | get key authority =>
      left
      refine ⟨?_, fun res _ => rfl⟩
      rw [prog_get] at h
      rcases Prog.follows_call_iff.1 h with ⟨rfl, -⟩ | ⟨r, tr₁, rfl, hr⟩
      · rfl
      · obtain ⟨rfl, -⟩ := Prog.follows_pure_iff.1 hr
        rfl
  | search query authority pagination =>
      left
      refine ⟨?_, fun res _ => rfl⟩
      rw [prog_search] at h
      rcases Prog.follows_call_iff.1 h with ⟨rfl, -⟩ | ⟨r, tr₁, rfl, hr⟩
      · rfl
      · obtain ⟨rfl, -⟩ := Prog.follows_pure_iff.1 hr
        rfl
  | write w =>
      rcases Write.follows_changes h hans with ⟨hnone, hne⟩ | ⟨c, hmade, hp⟩
      · refine .inl ⟨hnone, fun res hres => ?_⟩
        cases res with
        | error e => rfl
        | ok a => exact absurd hres (hne a)
      · exact .inr ⟨w, c, rfl, hmade, hp⟩

end Changes

/-! ### The notification of a change -/

/-- The notification of a change: its row after it, or that there is none. -/
def describe (service : String) : Change Identity SettingRecord → ConfigChange
  | .create id r => ⟨service, .upsert, id.1, id.2.2, some r.value, r.version.toNat⟩
  | .replace id _ r => ⟨service, .upsert, id.1, id.2.2, some r.value, r.version.toNat⟩
  | .remove id _ => ⟨service, .delete, id.1, id.2.2, none, 0⟩

/-- A change that leaves a row is described by it. -/
theorem describe_of_content {service : String} {c : Change Identity SettingRecord}
    {r : SettingRecord} (hr : c.content = some r) : describe service c =
      ⟨service, .upsert, c.key.1, c.key.2.2, some r.value, r.version.toNat⟩ := by
  cases c with
  | create id r' =>
      cases hr
      rfl
  | replace id n r' =>
      cases hr
      rfl
  | remove id n => cases hr

/-- A change that leaves none is a delete. -/
theorem describe_of_content_eq_none {service : String} {c : Change Identity SettingRecord}
    (hc : c.content = none) :
    c.gives = none ∧ describe service c = ⟨service, .delete, c.key.1, c.key.2.2, none, 0⟩ := by
  cases c with
  | create id r => cases hc
  | replace id n r => cases hc
  | remove id n => exact ⟨rfl, rfl⟩

section Describe

variable {pg : Postgres} {base : Anchor} {T T₁ : Table} {w : Write} {settings : List Setting}
  {plan : Plan} {c : Change Identity SettingRecord}

/-- The notification of a row that decodes. -/
theorem upsertChange_of_intoDomain {service : String} {key : SettingKey} {r : SettingRecord}
    (hkey : r.key = key.asStr) (hv : 1 ≤ r.version) {s : Setting}
    (hs : r.intoDomain base = .ok s) : NotifyingService.upsertChange service s =
      ⟨service, .upsert, r.tenant, r.key, some r.value, r.version.toNat⟩ := by
  obtain ⟨key', value, hkey', hvalue, rfl⟩ := SettingRecord.intoDomain_eq_ok_iff.1 hs
  rw [hkey, SettingKey.new_asStr, Except.ok.injEq] at hkey'
  have hmax : max r.version 1 = r.version := by omega
  rw [NotifyingService.upsertChange]
  simp only [SettingRecord.tenant_ownership, ← hkey', hkey, SettingValue.new_eq_ok_iff.1 hvalue,
    hmax]

/-- What a change stores is what its statement stores, if `JSONB` gives that back. -/
theorem stores_of_change {o : Stmt} (hkeeps : pg.Keeps o)
    (hc : o.change (pg.exec o T).1 = some c) :
    o.stores = c.content.map SettingRecord.value := by
  cases o with
  | insert tenant user key value updatedAt =>
      obtain ⟨-, -, rfl⟩ := change_insert_iff.1 hc
      exact congrArg some (hkeeps value rfl).symm
  | update value updatedAt tenant user key version =>
      obtain ⟨-, -, r, -, -, rfl⟩ := change_update_iff.1 hc
      exact congrArg some (hkeeps value rfl).symm
  | delete tenant user key version =>
      obtain ⟨-, r, -, -, rfl⟩ := change_delete_iff.1 hc
      rfl
  | find tenant key => simp [Stmt.change] at hc
  | count tenant user key => simp [Stmt.change] at hc
  | search tenant pattern user isAdmin limit offset => simp [Stmt.change] at hc

variable {o : Stmt}

/-- The statement made the change on some table. -/
theorem Write.Decided.exists_change (h : w.Decided pg base o c) :
    ∃ T, o.change (pg.exec o T).1 = some c := by
  obtain ⟨T₁, settings, plan, T, -, -, rfl, hc⟩ := h
  exact ⟨T, hc⟩

/-- A change is about the identity of its write. -/
theorem Write.Decided.key_eq (h : w.Decided pg base o c) : c.key = w.identity := by
  obtain ⟨T₁, settings, plan, T, hfound, hplan, rfl, hc⟩ := h
  exact (hplan.makes hfound hc).key_eq

/-- If `JSONB` gives back what a write stores, that decodes. -/
theorem Write.Decided.readable (hkeeps : pg.Keeps o) (h : w.Decided pg base o c) :
    Readable base c := by
  obtain ⟨T₁, settings, plan, T, hfound, hplan, rfl, hc⟩ := h
  exact hplan.readable hkeeps hfound hc

/-- A removal is the change of a `DELETE`. -/
theorem Write.Decided.deletes {id : Identity} {n : ℤ} (h : w.Decided pg base o (.remove id n)) :
    w.Deletes := by
  obtain ⟨T₁, settings, plan, T, hfound, hplan, rfl, hc⟩ := h
  cases hplan with
  | @insert s hown hs =>
      rw [hs.stmt_eq] at hc
      obtain ⟨-, -, hne⟩ := change_insert_iff.1 hc
      cases hne
  | @update cur next hown he hnext =>
      rw [hnext.stmt_eq hfound hown] at hc
      obtain ⟨-, -, r, -, -, hne⟩ := change_update_iff.1 hc
      cases hne
  | @delete cur hown he hw => exact hw

/-- **The notification of a write is that of its change**, if the row it wrote decodes. -/
theorem Write.Decided.notification_eq (h : w.Decided pg base o c) (hread : Readable base c)
    (service : String) :
    notification service (.write w) (resultOf base c) = some (describe service c) := by
  obtain ⟨T₁, settings, plan, T, hfound, hplan, rfl, hc⟩ := h
  cases hplan with
  | @insert s hown hs =>
      rw [hs.stmt_eq] at hc
      obtain ⟨-, -, rfl⟩ := change_insert_iff.1 hc
      obtain ⟨s', hs'⟩ := hread _ rfl
      rw [resultOf, hs']
      exact congrArg some (upsertChange_of_intoDomain rfl le_rfl hs')
  | @update cur next hown he hnext =>
      have hpos := (version_own hfound hown).1
      rw [hnext.stmt_eq hfound hown] at hc
      obtain ⟨-, -, r, hr, hv, rfl⟩ := change_update_iff.1 hc
      obtain ⟨s', hs'⟩ := hread _ rfl
      have hid := (Table.row?_eq_some_iff.1 hr).2
      rw [SettingRecord.identity, Prod.mk.injEq, Prod.mk.injEq] at hid
      rw [resultOf, hs']
      have hver : 1 ≤ (r.rewrite (pg.jsonb next.value.value)
          (instantToMillis base next.updatedAt)).version := by
        rw [SettingRecord.rewrite, hv]
        dsimp only
        omega
      have hkey : (r.rewrite (pg.jsonb next.value.value)
          (instantToMillis base next.updatedAt)).key = w.key.asStr := hid.2.2
      refine congrArg some ((upsertChange_of_intoDomain hkey hver hs').trans ?_)
      rw [describe, ← hid.1, ← hid.2.2]
      rfl
  | @delete cur hown he hw =>
      rw [delete_stmt_eq hfound hown] at hc
      obtain ⟨-, r, -, -, rfl⟩ := change_delete_iff.1 hc
      rw [resultOf, describe, target, Authority.tenant_scopeOwnership]
      rfl

/-- A change whose result is notified wrote a row that decodes. -/
theorem readable_of_notification {service : String} {change : ConfigChange}
    (h : notification service (.write w) (resultOf base c) = some change) : Readable base c := by
  have hdec : ∀ r : SettingRecord,
      notification service (.write w) ((r.intoDomain base).map .setting) = some change →
        ∃ s, r.intoDomain base = .ok s := by
    intro r hr
    cases hs : r.intoDomain base with
    | error e =>
        rw [hs] at hr
        cases hr
    | ok s => exact ⟨s, rfl⟩
  cases c with
  | create id r =>
      intro r' hr'
      cases hr'
      exact hdec r h
  | replace id n r =>
      intro r' hr'
      cases hr'
      exact hdec r h
  | remove id n => exact fun r hr => by cases hr

end Describe

end SettingsService
