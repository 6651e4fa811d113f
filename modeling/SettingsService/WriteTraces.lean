import SettingsService.ServiceRuns

/-!
# Writes, statement by statement

What a write in flight has performed says where it is: it has not read yet, it was refused after its
read, it has decided on a statement, or this statement has been answered.  So a write whose
statement took effect decided on it when it read, and what came in between is a run of the versioned
store.

Main definitions:

* `Write.Performed` — what a write has performed and has left to do;
* `changed`, `changes` — the change a call made, and the changes of a history;
* `Committed` — the statement of a write took effect.

Main results:

* `Write.performed_of_follows` — **a write in flight is at one of these points**;
* `Write.reply_of_follows` — what a write replies when it succeeds;
* `run_changes` — the changes between two moments of a run are a run of the versioned store;
* `committed_of_changed` — a statement that made a change was decided on when its write read.
-/

set_option relaxedAutoImplicit false
set_option autoImplicit false

namespace SettingsService

open Interaction (Prog Snapshot Reachable Answered own)
open Interaction.Prog (Follows follows_call_iff follows_pure_iff)
open OptimisticLock (Change Run)

variable {pg : Postgres} {base : Anchor}

/-! ### One write -/

/-- A write that presents another version than its setting has is refused. -/
theorem Write.decide_of_stale {w : Write} {settings : List Setting} {cur : Setting}
    (hown : w.own settings = some cur) (h : w.expected ≠ some cur.version) :
    w.decide settings = .error .versionConflict := by
  have hrows := Write.isEmpty_eq_false_of_own hown
  rw [Write.own] at hown
  cases w with
  | put key value authority expected now =>
      change (settings.find? fun s => s.ownership == authority.scopeOwnership) = some cur at hown
      rcases expected with _ | e
      · simp [Write.decide, hown, okOr, bind, Except.bind]
      · have he : e ≠ cur.version := fun he => h (congrArg some he)
        simp [Write.decide, hown, okOr, he, bind, Except.bind]
  | patch key value authority e now =>
      change (settings.find? fun s => s.ownership == authority.scopeOwnership) = some cur at hown
      have he : e ≠ cur.version := fun he => h (congrArg some he)
      simp [Write.decide, hrows, hown, okOr, he, bind, Except.bind]
  | delete key authority e =>
      change (settings.find? fun s => s.ownership == authority.scopeOwnership) = some cur at hown
      have he : e ≠ cur.version := fun he => h (congrArg some he)
      simp [Write.decide, hrows, hown, okOr, he, bind, Except.bind]

/-- **What a write has performed and has left to do.** -/
inductive Write.Performed (base : Anchor) (w : Write) :
    List (Answered Stmt Stmt.Ret) → Prog Stmt Stmt.Ret Result → Prop
  /-- It has not read yet. -/
  | start : Performed base w [] (w.prog base)
  /-- It was refused by what it read. -/
  | refused {r : (Stmt.find w.authority.tenant.asStr w.key.asStr).Ret} (e : SettingsError)
      (he : Repo.decodeRows base w.authority.tenant.asStr w.key.asStr r >>= w.decide = .error e) :
      Performed base w [⟨_, r⟩] (.pure (.error e))
  /-- It has decided on a statement. -/
  | planned {r : (Stmt.find w.authority.tenant.asStr w.key.asStr).Ret} {settings : List Setting}
      {plan : Plan}
      (hfound : Repo.decodeRows base w.authority.tenant.asStr w.key.asStr r = .ok settings)
      (hplan : w.Decides settings plan) : Performed base w [⟨_, r⟩] (plan.prog base)
  /-- Its statement was answered. -/
  | answered {r : (Stmt.find w.authority.tenant.asStr w.key.asStr).Ret} {settings : List Setting}
      {plan : Plan} {k : (plan.stmt base).Ret → Prog Stmt Stmt.Ret Result}
      (hfound : Repo.decodeRows base w.authority.tenant.asStr w.key.asStr r = .ok settings)
      (hplan : w.Decides settings plan) (hk : plan.prog base = .call (plan.stmt base) k)
      (r' : (plan.stmt base).Ret) : Performed base w [⟨_, r⟩, ⟨plan.stmt base, r'⟩] (k r')
  /-- Its statement matched no row, and the row has been looked for once more. -/
  | checked {r : (Stmt.find w.authority.tenant.asStr w.key.asStr).Ret} {settings : List Setting}
      {plan : Plan} {k : (plan.stmt base).Ret → Prog Stmt Stmt.Ret Result}
      {r' : (plan.stmt base).Ret} {key : SettingKey} {ownership : Ownership}
      (hfound : Repo.decodeRows base w.authority.tenant.asStr w.key.asStr r = .ok settings)
      (hplan : w.Decides settings plan) (hk : plan.prog base = .call (plan.stmt base) k)
      (hcheck : k r' = Plan.check key ownership)
      (r'' : (Stmt.count ownership.tenant.asStr ownership.userColumn key.asStr).Ret) :
      Performed base w [⟨_, r⟩, ⟨plan.stmt base, r'⟩, ⟨_, r''⟩] (.pure (.error (match r'' with
        | .ok row => if (0 : ℤ) < row then .versionConflict else .notFound
        | .error e => mapPgErr e)))

/-- A plan runs its statement; what is left is nothing or a check. -/
theorem Plan.rest_cases {plan : Plan} {k : (plan.stmt base).Ret → Prog Stmt Stmt.Ret Result}
    (hk : plan.prog base = .call (plan.stmt base) k) (r : (plan.stmt base).Ret) :
    Plan.Rest (((plan.stmt base).change r).map (resultOf base)) (k r) := by
  obtain ⟨k', hk', hrest⟩ := plan.exists_prog_eq base
  rw [hk] at hk'
  obtain rfl := eq_of_heq (Prog.call.inj hk').2
  exact hrest r

/-- **A write in flight is at one of these points.** -/
theorem Write.performed_of_follows {w : Write} {tr : List (Answered Stmt Stmt.Ret)}
    {p : Prog Stmt Stmt.Ret Result} (h : (w.prog base).Follows tr p) : w.Performed base tr p := by
  have hstart := h
  rw [w.prog_eq, follows_call_iff] at h
  rcases h with ⟨rfl, rfl⟩ | ⟨r, tr, rfl, h⟩
  · rw [← w.prog_eq]
    exact .start
  · clear hstart
    revert h
    refine w.after_read base (motive := fun q => q.Follows tr p → _) (fun e he h => ?_)
      fun settings plan hfound hplan h => ?_
    · obtain ⟨rfl, rfl⟩ := follows_pure_iff.1 h
      exact .refused e he
    · obtain ⟨k, hk, -⟩ := plan.exists_prog_eq base
      have hprog := hk
      rw [hk, follows_call_iff] at h
      rcases h with ⟨rfl, rfl⟩ | ⟨r', tr', rfl, h⟩
      · rw [← hprog]
        exact .planned hfound hplan
      · have hdone : ∀ x, k r' = .pure x → w.Performed base (⟨_, r⟩ :: ⟨_, r'⟩ :: tr') p := by
          intro x hx
          rw [hx] at h
          obtain ⟨rfl, rfl⟩ := follows_pure_iff.1 h
          exact hx ▸ .answered hfound hplan hk r'
        have hchecks : ∀ key ownership, k r' = Plan.check key ownership →
            w.Performed base (⟨_, r⟩ :: ⟨_, r'⟩ :: tr') p := by
          intro key ownership hcheck
          have hstay := hcheck
          rw [hcheck, Plan.check, follows_call_iff] at h
          rcases h with ⟨rfl, rfl⟩ | ⟨r'', tr'', rfl, h⟩
          · rw [← Plan.check, ← hstay]
            exact .answered hfound hplan hk r'
          · obtain ⟨rfl, rfl⟩ := follows_pure_iff.1 h
            exact .checked hfound hplan hk hcheck r''
        cases hch : (plan.stmt base).change r' with
        | some d =>
            have hrest := Plan.rest_cases hk r'
            rw [hch] at hrest
            exact hdone _ hrest.of_some
        | none =>
            have hrest := Plan.rest_cases hk r'
            rw [hch] at hrest
            rcases hrest.of_none with ⟨e, he⟩ | ⟨key, ownership, hcheck⟩
            · exact hdone _ he
            · exact hchecks key ownership hcheck

/-- A write that has succeeded has made a change. -/
theorem Write.Performed.of_ok {w : Write} {tr : List (Answered Stmt Stmt.Ret)} {a : Reply}
    (h : w.Performed base tr (.pure (.ok a))) :
    ∃ x ∈ tr, (x.1.change x.2).isSome = true := by
  generalize hp : Prog.pure (Except.ok a) = p at h
  cases h with
  | start =>
      rw [w.prog_eq] at hp
      cases hp
  | refused e => cases hp
  | @planned r settings plan hfound hplan =>
      obtain ⟨k, hk, -⟩ := plan.exists_prog_eq base
      rw [hk] at hp
      cases hp
  | @answered r settings plan k hfound hplan hk r' =>
      refine ⟨⟨_, r'⟩, by simp, ?_⟩
      have hrest := Plan.rest_cases hk r'
      rw [← hp] at hrest
      cases hch : (plan.stmt base).change r' with
      | some d => rfl
      | none =>
          rw [hch] at hrest
          rcases hrest.of_none with ⟨e, he⟩ | ⟨key, ownership, hcheck⟩
          · cases he
          · cases hcheck
  | checked => cases hp

/-- **A write that comes to a statement that makes a change** has read, and decided on it. -/
theorem Write.Performed.of_change {w : Write} {tr : List (Answered Stmt Stmt.Ret)} {o : Stmt}
    {k : o.Ret → Prog Stmt Stmt.Ret Result} (h : w.Performed base tr (.call o k)) {r : o.Ret}
    {d : Change Identity SettingRecord} (hd : o.change r = some d) :
    ∃ (r₁ : (Stmt.find w.authority.tenant.asStr w.key.asStr).Ret) (settings : List Setting)
      (plan : Plan), tr = [⟨_, r₁⟩] ∧
      Repo.decodeRows base w.authority.tenant.asStr w.key.asStr r₁ = .ok settings ∧
      w.Decides settings plan ∧ plan.stmt base = o ∧ k r = .pure (resultOf base d) := by
  generalize hp : Prog.call o k = p at h
  cases h with
  | start =>
      rw [w.prog_eq] at hp
      obtain ⟨rfl, -⟩ := Prog.call.inj hp
      cases hd
  | refused e => cases hp
  | @planned r₁ settings plan hfound hplan =>
      obtain ⟨k', hk, -⟩ := plan.exists_prog_eq base
      have hrest := Plan.rest_cases hk
      rw [hk] at hp
      obtain ⟨rfl, hkk⟩ := Prog.call.inj hp
      obtain rfl := eq_of_heq hkk
      have hr := hrest r
      rw [hd] at hr
      exact ⟨r₁, settings, plan, rfl, hfound, hplan, rfl, hr.of_some⟩
  | @answered r₁ settings plan k' hfound hplan hk r' =>
      have hrest := Plan.rest_cases hk r'
      rw [← hp] at hrest
      -- what calls once more is the check, which changes nothing
      generalize hq : Prog.call o k = q at hrest
      generalize ((plan.stmt base).change r').map (resultOf base) = x at hrest
      cases hrest with
      | effective | failed => cases hq
      | check key ownership =>
          obtain ⟨rfl, -⟩ := Prog.call.inj hq
          cases hd
  | checked => cases hp

/-- The result of a write that stored a row. -/
theorem resultOf_of_content {d : Change Identity SettingRecord} {r : SettingRecord}
    (hr : d.content = some r) : resultOf base d = (r.intoDomain base).map .setting := by
  cases d with
  | create | replace => obtain rfl := Option.some.inj hr; rfl
  | remove => cases hr

/-- **What a write that succeeds replies**: a removal says so, and any other write replies with a
setting that has its key. -/
theorem Write.reply_of_follows {w : Write} {tr : List (Answered Stmt Stmt.Ret)} {reply : Reply}
    (h : (w.prog base).Follows tr (.pure (.ok reply)))
    (hans : ∀ x ∈ tr, ∃ T, x.2 = (pg.exec x.1 T).1) :
    reply = .deleted ∨ ∃ s, reply = .setting s ∧ s.key = w.key := by
  have hperf := Write.performed_of_follows h
  generalize hp : (.pure (.ok reply) : Prog Stmt Stmt.Ret Result) = p at hperf
  cases hperf with
  | start =>
      rw [w.prog_eq] at hp
      cases hp
  | refused e he => cases hp
  | @planned r settings plan hfound hplan =>
      obtain ⟨k, hk, -⟩ := plan.exists_prog_eq base
      rw [hk] at hp
      cases hp
  | checked => cases hp
  | @answered r settings plan k hfound hplan hk r' =>
      obtain ⟨T₁, hr⟩ := hans _ List.mem_cons_self
      obtain ⟨T, hr'⟩ := hans _ (List.mem_cons_of_mem _ List.mem_cons_self)
      simp only at hr hr'
      subst hr hr'
      have hrest := Plan.rest_cases hk (pg.exec (plan.stmt base) T).1
      rw [← hp] at hrest
      generalize hd : (plan.stmt base).change (pg.exec (plan.stmt base) T).1 = od at hrest
      cases od with
      | none =>
          rcases hrest.of_none with ⟨e, he⟩ | ⟨key, ownership, hcheck⟩
          · cases he
          · cases hcheck
      | some d =>
          have hdone := hrest.of_some
          cases hcontent : d.content with
          | none =>
              have hdeleted : resultOf base d = .ok .deleted := by
                cases d with
                | create | replace => cases hcontent
                | remove => rfl
              rw [hdeleted] at hdone
              cases hdone
              exact .inl rfl
          | some row =>
              -- the row that was stored is one of the identity of the write
              have hkey : row.key = w.key.asStr := (Repo.under_of_identity
                ((row_of_change hd hcontent).1.trans (hplan.makes hfound hd).key_eq)).2
              rw [resultOf_of_content hcontent] at hdone
              cases hs : row.intoDomain base with
              | error e =>
                  rw [hs] at hdone
                  cases hdone
              | ok s =>
                  rw [hs] at hdone
                  cases hdone
                  obtain ⟨key, value, hkey', -, rfl⟩ := SettingRecord.intoDomain_eq_ok_iff.1 hs
                  rw [hkey, SettingKey.new_asStr, Except.ok.injEq] at hkey'
                  exact .inr ⟨_, rfl, hkey'.symm⟩

/-- The setting that a `get` replies with has its key. -/
theorem Request.reply_of_get {key : SettingKey} {authority : Authority}
    {tr : List (Answered Stmt Stmt.Ret)} {reply : Reply}
    (h : ((Request.get key authority).prog base).Follows tr (.pure (.ok reply)))
    (hans : ∀ x ∈ tr, ∃ T, x.2 = (pg.exec x.1 T).1) : ∃ s, reply = .setting s ∧ s.key = key := by
  rw [Request.prog_get] at h
  rcases follows_call_iff.1 h with ⟨-, hcall⟩ | ⟨r, tr', rfl, hk⟩
  · cases hcall
  obtain ⟨T, hr⟩ := hans _ List.mem_cons_self
  simp only at hr
  subst hr
  have hx := Prog.pure.inj (follows_pure_iff.1 hk).2
  change _ = (Repo.found base pg T key authority.tenant >>= Service.readable authority).map _ at hx
  cases hfound : Repo.found base pg T key authority.tenant with
  | error e =>
      rw [hfound] at hx
      cases hx
  | ok settings =>
      rw [hfound] at hx
      change _ = (Service.readable authority settings).map _ at hx
      rw [Service.readable] at hx
      split_ifs at hx
      · cases hx
      · cases hs : settings.find? fun s => authority.canRead s.ownership with
        | none =>
            rw [hs] at hx
            cases hx
        | some s =>
            rw [hs] at hx
            cases hx
            obtain ⟨row, -, hunder, hdec⟩ :=
              (Repo.mem_found hfound).1 (List.mem_of_find?_eq_some hs)
            obtain ⟨key', value, hkey', -, rfl⟩ := SettingRecord.intoDomain_eq_ok_iff.1 hdec
            rw [hunder.2, SettingKey.new_asStr, Except.ok.injEq] at hkey'
            exact ⟨_, rfl, hkey'.symm⟩

/-! ### A history of requests -/

/-- The change a call made, if it took effect. -/
def changed (e : ServiceEvent) : Option (Change Identity SettingRecord) := e.op.change e.reply

/-- The changes of a history, oldest first. -/
def changes (hist : List ServiceEvent) : List (Change Identity SettingRecord) :=
  hist.filterMap changed

section Runs

variable {G : List ServiceEvent → ServiceEvent → Prop} {T₀ : Table} {qs : List Request}
  {c : ServiceConfig}

/-- The table before the call at position `n` of a history. -/
def tableBefore (pg : Postgres) (T₀ : Table) (hist : List ServiceEvent) (n : ℕ) : Table :=
  Interaction.replay pg.exec T₀ (hist.take n)

theorem tableBefore_succ {hist : List ServiceEvent} {n : ℕ} {e : ServiceEvent}
    (he : hist[n]? = some e) :
    tableBefore pg T₀ hist (n + 1) = (pg.exec e.op (tableBefore pg T₀ hist n)).2 := by
  rw [tableBefore, List.take_add_one, he, Option.toList_some, Interaction.replay_snoc,
    ← tableBefore]

/-- A call is answered by the table it finds. -/
theorem reply_eq_exec (hc : Reachable pg.exec G (Snapshot.init T₀ (Request.prog base) qs) c)
    {n : ℕ} {e : ServiceEvent} (he : c.hist[n]? = some e) :
    e.before = tableBefore pg T₀ c.hist n ∧
      e.reply = (pg.exec e.op (tableBefore pg T₀ c.hist n)).1 := by
  obtain ⟨hbefore, hreply, -⟩ := hc.next he
  have hbefore' : e.before = tableBefore pg T₀ c.hist n := hbefore
  exact ⟨hbefore', hbefore' ▸ hreply⟩

/-- **The changes between two moments of a run** are a run of the versioned store. -/
theorem run_changes (hc : Reachable pg.exec G (Snapshot.init T₀ (Request.prog base) qs) c)
    {m n : ℕ} (hmn : m ≤ n) (hn : n ≤ c.hist.length) : Run (tableBefore pg T₀ c.hist m).view
      (changes ((c.hist.take n).drop m)) (tableBefore pg T₀ c.hist n).view := by
  induction n, hmn using Nat.le_induction with
  | base =>
      rw [List.drop_of_length_le (by simp)]
      exact .nil
  | succ n hmn ih =>
      have he : c.hist[n]? = some c.hist[n] := List.getElem?_eq_getElem hn
      have hreply := (reply_eq_exec hc he).2
      rw [tableBefore_succ he, List.take_add_one, he, Option.toList_some,
        List.drop_append_of_le_length (by simp; omega), changes, List.filterMap_append]
      rcases pg.exec_change c.hist[n].op (tableBefore pg T₀ c.hist n) with ⟨hd, hT⟩ | ⟨d, hd, heff⟩
      · rw [hT, List.filterMap_cons_none (by rw [changed, hreply, hd]), List.filterMap_nil,
          List.append_nil]
        exact ih (Nat.le_of_succ_le hn)
      · rw [List.filterMap_cons_some (by rw [changed, hreply, hd]), List.filterMap_nil]
        exact (ih (Nat.le_of_succ_le hn)).snoc heff

/-- The statement of the write `w` at position `n` makes the change `d`: the write decided on it
when it read, at position `m`. -/
structure Committed (pg : Postgres) (base : Anchor) (T₀ : Table) (hist : List ServiceEvent)
    (n : ℕ) (e : ServiceEvent) (w : Write) (d : Change Identity SettingRecord) : Prop where
  req : e.req = .write w
  decided : ∃ m settings plan, e.mark = m + 1 ∧ m < n ∧
    Repo.found base pg (tableBefore pg T₀ hist m) w.key w.authority.tenant = .ok settings ∧
    w.Decides settings plan ∧ plan.stmt base = e.op ∧
    tableBefore pg T₀ hist (m + 1) = tableBefore pg T₀ hist m
  done : ((Request.write w).prog base).Follows (own e.who (hist.take (n + 1)))
    (.pure (resultOf base d))

/-- **A statement that makes a change** is one of a write, which decided on it when it read. -/
theorem committed_of_changed
    (hc : Reachable pg.exec G (Snapshot.init T₀ (Request.prog base) qs) c) {n : ℕ}
    {e : ServiceEvent} (he : c.hist[n]? = some e) {d : Change Identity SettingRecord}
    (hd : changed e = some d) : ∃ w, Committed pg base T₀ c.hist n e w d := by
  obtain ⟨k, hk⟩ := (hc.next he).follows
  cases hwrite : e.req.write? with
  | none =>
      rw [changed, Request.change_of_read hwrite hk] at hd
      cases hd
  | some w =>
      have hreq := Request.write?_eq_some_iff.1 hwrite
      rw [hreq] at hk
      obtain ⟨r₁, settings, plan, hown, hfound, hplan, hstmt, hdone⟩ :=
        (Write.performed_of_follows hk).of_change hd
      obtain ⟨m, e₁, hmark, he₁, -, hx, -⟩ := hc.marks he [] _ hown
      rw [List.getElem?_take] at he₁
      split_ifs at he₁ with hmn
      obtain ⟨i, q, o, r, T, mark⟩ := e₁
      cases hx
      have hreply := (reply_eq_exec hc he₁).2
      refine ⟨w, hreq, ⟨m, settings, plan, hmark, hmn, ?_, hplan, hstmt, ?_⟩, ?_⟩
      · rw [← hfound]
        exact congrArg _ hreply.symm
      · rw [tableBefore_succ he₁]
        exact Postgres.exec_find_snd _ _ _
      · have hsnoc := hk.snoc e.reply
        rw [List.take_add_one, he, Option.toList_some, Interaction.own_append,
          Interaction.own_singleton, if_pos rfl, ← hdone]
        exact hsnoc

/-- The statement of a write that took effect, in the table it found. -/
theorem change_eq_of_changed
    (hc : Reachable pg.exec G (Snapshot.init T₀ (Request.prog base) qs) c) {n : ℕ}
    {e : ServiceEvent} (he : c.hist[n]? = some e) {d : Change Identity SettingRecord}
    (hd : changed e = some d) {o : Stmt} (ho : o = e.op) :
    o.change (pg.exec o (tableBefore pg T₀ c.hist n)).1 = some d := by
  subst ho
  rw [← (reply_eq_exec hc he).2]
  exact hd

/-- **What was stored can be read back**, and only versions that exist are presented. -/
theorem readable_of_changes (hc : Reachable pg.exec G (Snapshot.init T₀ (Request.prog base) qs) c)
    (hkeeps : ∀ e ∈ c.hist, pg.Keeps e.op)
    {d : Change Identity SettingRecord} (hd : d ∈ changes c.hist) :
    Readable base d ∧ ∀ v, d.presents = some v → 1 ≤ v := by
  obtain ⟨e, he, hed⟩ := List.mem_filterMap.1 hd
  obtain ⟨n, hn⟩ := List.getElem?_of_mem he
  obtain ⟨w, -, ⟨m, settings, plan, -, -, hfound, hplan, hstmt, -⟩, -⟩ :=
    committed_of_changed hc hn hed
  have hchange := change_eq_of_changed hc hn hed hstmt
  refine ⟨hplan.readable (hstmt ▸ hkeeps e he) hfound hchange, fun v hv => ?_⟩
  obtain ⟨v', r, -, rfl, hle, -⟩ := (hplan.makes hfound hchange).found v hv
  omega

end Runs

end SettingsService
