import SettingsService.Service

/-!
# Writes in flight

Any number of writes run against one table, their statements interleaved in any order.  The
changes that took effect, in order, are a run of the optimistic-locking library; each write in
flight is at one of four stages, and a write that has read remembers the table it read from.

Main definitions:

* `effect`, `effects` — the change a statement made, and the changes of a history;
* `Stage` — the stages of a write in flight.

Main results:

* `Stage.step`, `Stage.frame` — one statement takes its own write to the next stage and leaves the
  others where they are;
* `run_effects` — **the changes that took effect are a run of the versioned store**;
* `optimistic_locking` — **no update is lost and none is duplicated**.
-/

set_option relaxedAutoImplicit false
set_option autoImplicit false

namespace SettingsService

open Interaction (Prog Proc Event Snapshot Reachable eventOf)
open OptimisticLock (Change Effective Run)

/-! ### Changes that took effect -/

/-- The change a statement made, if it took effect. -/
def effect (e : Event Stmt Stmt.Ret Table Write) : Option (Change Identity SettingRecord) :=
  e.op.change e.reply

/-- The changes of a history that took effect, oldest first. -/
def effects (hist : List (Event Stmt Stmt.Ret Table Write)) :
    List (Change Identity SettingRecord) :=
  hist.filterMap effect

@[simp] theorem effects_nil : effects [] = [] := rfl

theorem effects_append (hist hist' : List (Event Stmt Stmt.Ret Table Write)) :
    effects (hist ++ hist') = effects hist ++ effects hist' := List.filterMap_append

variable {pg : Postgres} {base : Anchor}

/-- One more statement is one more change, or none. -/
theorem run_effects_snoc {V : OptimisticLock.Store Identity SettingRecord}
    {hist : List (Event Stmt Stmt.Ret Table Write)} {T : Table} (h : Run V (effects hist) T.view)
    (i : ℕ) (p : Proc Stmt Stmt.Ret Write Result) (o : Stmt) :
    Run V (effects (hist ++ [eventOf pg.exec T i p o])) (pg.exec o T).2.view := by
  rw [effects_append]
  rcases pg.exec_change o T with ⟨hc, hT⟩ | ⟨c, hc, heff⟩
  · rw [hT]
    simpa [effects, effect, eventOf, hc] using h
  · have : effects [eventOf pg.exec T i p o] = [c] := by simp [effects, effect, eventOf, hc]
    rw [this]
    exact h.snoc heff

/-! ### Stages -/

/-- **The stages of a write in flight**: it has not read yet; it has read from the table `T`, from
which the changes since its last call lead to the present one; its statement matched no row; it is
done. -/
inductive Stage (pg : Postgres) (base : Anchor) (w : Write) (now : Table)
    (hist : List (Event Stmt Stmt.Ret Table Write)) (mark : ℕ) : Prog Stmt Stmt.Ret Result → Prop
  | start : Stage pg base w now hist mark (w.prog base)
  | planned {T : Table} {settings : List Setting} {plan : Plan}
      (hfound : Repo.found base pg T w.key w.authority.tenant = .ok settings)
      (hplan : w.Decides settings plan) (hmark : mark ≤ hist.length)
      (hrun : Run T.view (effects (hist.drop mark)) now.view) :
      Stage pg base w now hist mark (plan.prog base)
  | check (key : SettingKey) (ownership : Ownership) :
      Stage pg base w now hist mark (Plan.check key ownership)
  | done (x : Result) : Stage pg base w now hist mark (.pure x)

/-- What is left once the statement has been answered is a stage. -/
theorem Plan.Rest.stage {w : Write} {now : Table} {hist : List (Event Stmt Stmt.Ret Table Write)}
    {mark : ℕ} {o : Option Result} {p : Prog Stmt Stmt.Ret Result} (h : Plan.Rest o p) :
    Stage pg base w now hist mark p := by
  cases h with
  | effective x => exact .done x
  | failed e => exact .done _
  | check key ownership => exact .check key ownership

/-- **The next stage**: where a write goes by its own statement. -/
theorem Stage.step {w : Write} {T : Table} {hist : List (Event Stmt Stmt.Ret Table Write)}
    {i mark : ℕ} {p : Proc Stmt Stmt.Ret Write Result} {o : Stmt}
    {k : o.Ret → Prog Stmt Stmt.Ret Result} (h : Stage pg base w T hist mark (.call o k)) :
    Stage pg base w (pg.exec o T).2 (hist ++ [eventOf pg.exec T i p o]) (hist.length + 1)
      (k (pg.exec o T).1) := by
  -- the call is named, so that each stage says which statement it is
  generalize hq : Prog.call o k = q at h
  cases h with
  | start =>
      rw [w.prog_eq] at hq
      obtain ⟨rfl, hk⟩ := Prog.call.inj hq
      rw [eq_of_heq hk, Postgres.exec_find_snd]
      change Stage pg base w T _ _ (Plan.progOf base
        (Repo.found base pg T w.key w.authority.tenant >>= w.decide))
      -- the read just made is the one the plan rests on, and nothing has happened since
      refine w.after_read base (fun e _ => .done _) fun settings plan hfound hplan => ?_
      refine .planned hfound hplan (by simp) ?_
      rw [List.drop_of_length_le (by simp)]
      exact .nil
  | @planned T₁ settings plan hfound hplan hmark hrun =>
      obtain ⟨k', hk', hrest⟩ := plan.exists_prog_eq base
      rw [hk'] at hq
      obtain ⟨rfl, hk⟩ := Prog.call.inj hq
      rw [eq_of_heq hk]
      exact (hrest _).stage
  | check key ownership =>
      obtain ⟨rfl, hk⟩ := Prog.call.inj hq
      rw [eq_of_heq hk]
      exact .done _
  | done x => exact absurd hq (by simp)

/-- A write stays at its stage while others run. -/
theorem Stage.frame {w : Write} {T : Table} {hist : List (Event Stmt Stmt.Ret Table Write)}
    {i mark : ℕ} {p : Proc Stmt Stmt.Ret Write Result} {o : Stmt} {q : Prog Stmt Stmt.Ret Result}
    (h : Stage pg base w T hist mark q) :
    Stage pg base w (pg.exec o T).2 (hist ++ [eventOf pg.exec T i p o]) mark q := by
  cases h with
  | start => exact .start
  | planned hfound hplan hmark hrun =>
      refine .planned hfound hplan (by simp; omega) ?_
      rw [List.drop_append_of_le_length hmark]
      exact run_effects_snoc hrun i p o
  | check key ownership => exact .check key ownership
  | done x => exact .done x

/-! ### The change a write makes -/

/-- The statement of a write in flight takes effect: the write was planned, and it is done with the
result of the change. -/
theorem Stage.of_change {w : Write} {T : Table} {hist : List (Event Stmt Stmt.Ret Table Write)}
    {mark : ℕ} {o : Stmt} {k : o.Ret → Prog Stmt Stmt.Ret Result}
    (h : Stage pg base w T hist mark (.call o k)) {c : Change Identity SettingRecord}
    (hc : o.change (pg.exec o T).1 = some c) : k (pg.exec o T).1 = .pure (resultOf base c) ∧
      ∃ T₁ settings plan, Repo.found base pg T₁ w.key w.authority.tenant = .ok settings ∧
        w.Decides settings plan ∧ Run T₁.view (effects (hist.drop mark)) T.view ∧
        plan.stmt base = o := by
  generalize hq : Prog.call o k = q at h
  cases h with
  | start =>
      rw [w.prog_eq] at hq
      obtain ⟨rfl, -⟩ := Prog.call.inj hq
      simp [Stmt.change] at hc
  | check key ownership =>
      obtain ⟨rfl, -⟩ := Prog.call.inj hq
      simp [Stmt.change] at hc
  | done x => exact absurd hq (by simp)
  | @planned T₁ settings plan hfound hplan hmark hrun =>
      obtain ⟨k', hk', hrest⟩ := plan.exists_prog_eq base
      rw [hk'] at hq
      obtain ⟨rfl, hk⟩ := Prog.call.inj hq
      refine ⟨?_, T₁, settings, plan, hfound, hplan, hrun, rfl⟩
      rw [eq_of_heq hk]
      have h := hrest (pg.exec (plan.stmt base) T).1
      rw [hc] at h
      exact h.of_some

/-- A statement of a write in flight makes a change of that write. -/
theorem Stage.makes {w : Write} {T : Table} {hist : List (Event Stmt Stmt.Ret Table Write)}
    {mark : ℕ} {o : Stmt} {k : o.Ret → Prog Stmt Stmt.Ret Result}
    (h : Stage pg base w T hist mark (.call o k)) {c : Change Identity SettingRecord}
    (hc : o.change (pg.exec o T).1 = some c) : w.Makes T c := by
  obtain ⟨-, T₁, settings, plan, hfound, hplan, -, rfl⟩ := h.of_change hc
  exact hplan.makes hfound hc

/-! ### What holds of every interleaving -/

/-- A statement that took effect made a change of the write it serves. -/
def Sound (e : Event Stmt Stmt.Ret Table Write) : Prop :=
  ∀ c, effect e = some c → e.req.Makes e.before c

/-- **The changes that took effect are a run of the versioned store**, each of them is sound, and
every write is at one of the stages. -/
theorem run_effects {T₀ : Table} {reqs : List Write} {c : Snapshot Stmt Stmt.Ret Table Write Result}
    {G : List (Event Stmt Stmt.Ret Table Write) → Event Stmt Stmt.Ret Table Write → Prop}
    (hc : Reachable pg.exec G (Snapshot.init T₀ (Write.prog base) reqs) c) :
    (Run T₀.view (effects c.hist) c.state.view ∧ ∀ e ∈ c.hist, Sound e) ∧
      ∀ (i : ℕ) (p : Proc Stmt Stmt.Ret Write Result), c.procs[i]? = some p →
        Stage pg base p.req c.state c.hist p.mark p.prog := by
  refine Reachable.invariant
    (I := fun T hist => Run T₀.view (effects hist) T.view ∧ ∀ e ∈ hist, Sound e)
    (P := fun T hist _ p => Stage pg base p.req T hist p.mark p.prog)
    ⟨.nil, by simp⟩ (fun _ _ _ => .start) ?_ hc
  intro T hist i p o k ⟨hrun, hsound⟩ hp hk _
  rw [hk] at hp
  refine ⟨⟨run_effects_snoc hrun i p o, fun e he => ?_⟩, hp.step, fun j q _ hq => hq.frame⟩
  rcases List.mem_append.1 he with he | he
  · exact hsound e he
  · rw [List.mem_singleton.1 he]
    exact fun c hc => hp.makes hc

/-- **A write whose statement took effect is done**, with the result of its change. -/
theorem result_of_effect {T₀ : Table} {reqs : List Write}
    {c : Snapshot Stmt Stmt.Ret Table Write Result}
    {G : List (Event Stmt Stmt.Ret Table Write) → Event Stmt Stmt.Ret Table Write → Prop}
    (hc : Reachable pg.exec G (Snapshot.init T₀ (Write.prog base) reqs) c) :
    ∀ e ∈ c.hist, ∀ d, effect e = some d → ∃ p, c.procs[e.who]? = some p ∧ p.req = e.req ∧
      p.prog = .pure (resultOf base d) := by
  induction hc with
  | refl => exact fun e he => absurd he (by simp [Snapshot.init])
  | step hc hs ih =>
      have hstage := (run_effects hc).2
      cases hs with
      | @call T procs hist i p o k hp hk hG =>
          have hlt : i < procs.length := (List.getElem?_eq_some_iff.1 hp).1
          intro e he d hd
          rcases List.mem_append.1 he with he | he
          · -- a write that is done is not the one that made this call
            obtain ⟨q, hq, hreq, hdone⟩ := ih e he d hd
            have hne : i ≠ e.who := by
              rintro rfl
              rw [hp] at hq
              rw [Option.some.inj hq, hdone] at hk
              exact absurd hk (by simp)
            exact ⟨q, by rwa [List.getElem?_set_ne hne], hreq, hdone⟩
          · rw [List.mem_singleton.1 he] at hd ⊢
            have hst := hstage i p hp
            rw [hk] at hst
            exact ⟨_, List.getElem?_set_self hlt, rfl, (hst.of_change hd).1⟩

/-- No update is lost and none is duplicated: what the changes `cs` that took effect since the table
was empty, and the history they come from, say about the table `T`. -/
structure NoUpdateLost (T : Table) (hist : List (Event Stmt Stmt.Ret Table Write)) : Prop where
  /-- At most one row exists for an identity. -/
  unique : ∀ id : Identity, T.rows.countP (fun r => r.identity = id) ≤ 1
  /-- A row was created by an insert, and its version counts the updates since. -/
  version_eq : ∀ r ∈ T.rows, ∃ pre r₁ post, effects hist = pre ++ .create r.identity r₁ :: post ∧
    (∀ c ∈ post, c.key = r.identity → c.replaces r.identity = true) ∧
    r.version = 1 + post.countP (Change.replaces r.identity)
  /-- Between two changes that present the same version of the same row, it was created anew. -/
  once : ∀ pre c mid d post, effects hist = pre ++ c :: (mid ++ d :: post) → c.key = d.key →
    ∀ n, c.presents = some n → d.presents = some n → ∃ a ∈ mid, a.creates c.key = true
  /-- An update or delete found the row at the version its caller presented. -/
  found : ∀ e ∈ hist, ∀ c n, effect e = some c → c.presents = some n →
    ∃ (m : ℕ) (r : SettingRecord), e.req.expected = some m ∧ n = m ∧ 1 ≤ m ∧
      e.before.row? e.req.identity = some r ∧ r.version = m
  /-- Any other change is the insert of a put, which found no row. -/
  created : ∀ e ∈ hist, ∀ c, effect e = some c → c.presents = none →
    e.before.row? e.req.identity = none ∧ ∃ s, e.req.Creates s

/-- **Optimistic locking loses and duplicates no update**, however the statements of the writes in
flight interleave. -/
theorem optimistic_locking (pg : Postgres) (base : Anchor) {reqs : List Write}
    {c : Snapshot Stmt Stmt.Ret Table Write Result}
    (hc : Reachable pg.exec (fun _ _ => True)
      (Snapshot.init Table.empty (Write.prog base) reqs) c) :
    NoUpdateLost c.state c.hist := by
  obtain ⟨⟨hrun, hsound⟩, -⟩ := run_effects hc
  refine ⟨c.state.countP_identity_le, fun r hr => ?_, fun pre c₁ mid d post h hkey n hn hn' => ?_,
    fun e he d n hd hn => (hsound e he d hd).found n hn,
    fun e he d hd hn => (hsound e he d hd).created hn⟩
  · have hv : c.state.view r.identity = some (r.version, r) :=
      Table.view_eq_some_iff.2 ⟨Table.row?_eq_some_iff.2 ⟨hr, rfl⟩, rfl⟩
    exact hrun.version_eq rfl hv
  · exact (h ▸ hrun).exists_create_between hkey hn hn'

open Sample in
/-- Two puts that both read the empty table, then a delete. -/
theorem optimistic_locking_two_puts :
    let c := (Snapshot.init Table.empty (Write.prog ⟨0, 0⟩)
      [.put theme dark alice none 0, .put theme light alice none 0,
        .delete theme alice 1]).schedule (Postgres.ofJsonb id).exec [0, 1, 0, 1, 2, 2]
    NoUpdateLost c.state c.hist ∧ (effects c.hist).length = 2 :=
  ⟨optimistic_locking _ _ (Reachable.refl.schedule _ _), by decide⟩

end SettingsService
