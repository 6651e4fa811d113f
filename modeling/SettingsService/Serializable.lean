import SettingsService.Interleaving

/-!
# Successful writes, one at a time

The writes of an interleaving that succeeded, replayed one at a time in the order in which their
statements took effect.  A write decides on rows it read earlier; when its statement takes effect,
the row it is about has the version that was read, so the write would decide the same on the
present table, provided the row it read is still the one that has that version.  A `PATCH`, whose
statement carries a value computed from the row that was read, needs this; it fails when the row
was deleted and created anew in between, since the new row starts over at version one.

Main definitions:

* `commits` — the statements of a history that took effect;
* `replay` — writes running one after the other, each alone;
* `Serializable` — what the replay of the successful writes is to give;
* `ReadsLastCreation` — the guard: no creation of its row since the read of a `PATCH`.

Main results:

* `Write.Decides.again` — **a write whose statement takes effect would decide the same on the
  present table**;
* `serializable_of_readsLastCreation` — every run whose statements meet the guard is serializable;
* `not_serializable` — a run that is not.
-/

set_option relaxedAutoImplicit false
set_option autoImplicit false

namespace SettingsService

open Interaction (Prog Proc Event Snapshot Reachable eventOf)
open OptimisticLock (Change Run)

variable {pg : Postgres} {base : Anchor}

/-! ### Rows that decode -/

/-- A row under a key, with a value a setting holds, decodes. -/
theorem exists_intoDomain {r : SettingRecord} {key : SettingKey} {value : SettingValue}
    (hkey : r.key = key.asStr) (hvalue : r.value = value.value) :
    ∃ s, r.intoDomain base = .ok s := by
  refine ⟨_, SettingRecord.intoDomain_eq_ok_iff.2 ⟨key, value, ?_, ?_, rfl⟩⟩
  · rw [hkey, SettingKey.new_asStr]
  · rw [hvalue, SettingValue.new_value]

/-- If `JSONB` gives back what a write stores, that decodes. -/
theorem Write.Decides.readable {w : Write} {T₁ T : Table} {settings : List Setting} {plan : Plan}
    (hkeeps : pg.Keeps (plan.stmt base))
    (hfound : Repo.found base pg T₁ w.key w.authority.tenant = .ok settings)
    (hplan : w.Decides settings plan) {c : Change Identity SettingRecord}
    (hc : (plan.stmt base).change (pg.exec (plan.stmt base) T).1 = some c) : Readable base c := by
  cases hplan with
  | @insert s hown hs =>
      rw [hs.stmt_eq] at hc hkeeps
      obtain ⟨-, -, rfl⟩ := change_insert_iff.1 hc
      intro r hr
      obtain rfl := Option.some.inj hr
      exact exists_intoDomain rfl (hkeeps s.value.value rfl)
  | @update cur next hown he hnext =>
      rw [hnext.stmt_eq hfound hown] at hc hkeeps
      obtain ⟨-, -, r, hr, -, rfl⟩ := change_update_iff.1 hc
      intro r' hr'
      obtain rfl := Option.some.inj hr'
      exact exists_intoDomain (Repo.under_of_identity (Table.row?_eq_some_iff.1 hr).2).2
        (hkeeps next.value.value rfl)
  | @delete cur hown he hw =>
      rw [Write.delete_stmt_eq hfound hown] at hc
      obtain ⟨-, -, -, -, rfl⟩ := change_delete_iff.1 hc
      exact fun r hr => absurd hr (by simp [Change.content])

/-- After readable changes, `find` still succeeds. -/
theorem exists_found_of_run {T T' : Table} {key : SettingKey} {tenant : Tenant}
    {settings : List Setting} (hfound : Repo.found base pg T key tenant = .ok settings)
    {cs : List (Change Identity SettingRecord)} (hrun : Run T.view cs T'.view)
    (hcs : ∀ c ∈ cs, Readable base c) :
    ∃ settings', Repo.found base pg T' key tenant = .ok settings' := by
  obtain ⟨ha, hdec⟩ := Repo.exists_found_iff.1 ⟨settings, hfound⟩
  refine Repo.exists_found_iff.2 ⟨ha, fun r hr hu => ?_⟩
  have hv : T'.view r.identity = some (r.version, r) :=
    Table.view_eq_some_iff.2 ⟨Table.row?_eq_some_iff.2 ⟨hr, rfl⟩, rfl⟩
  rcases hrun.content_mem hv with hv | ⟨c, hc, hcr⟩
  · exact hdec r (Table.row?_eq_some_iff.1 (Table.view_eq_some_iff.1 hv).1).1 hu
  · exact hcs c hc r hcr

/-! ### Deciding again -/

/-- Is the write a `PATCH`? -/
def Write.isPatch : Write → Bool
  | .patch .. => true
  | _ => false

/-- What a write makes of a setting depends on its value only if the write is a `PATCH`. -/
theorem Write.Revises.of_value {w : Write} {cur cur' next : Setting} (h : w.Revises cur next)
    (hkey : cur'.key = cur.key) (ho : cur'.ownership = cur.ownership)
    (hv : cur'.version = cur.version) (hvalue : w.isPatch = true → cur'.value = cur.value) :
    w.Revises cur' next := by
  cases w with
  | put key value authority expected now =>
      obtain rfl := Except.ok.inj h
      rw [Revises, Setting.setValue, hkey, ho, hv]
  | patch key value authority e now =>
      obtain ⟨v, hmerge, rfl⟩ := Setting.applyPartial_eq_ok_iff.1 h
      refine Setting.applyPartial_eq_ok_iff.2 ⟨v, ?_, ?_⟩
      · rw [hvalue rfl, hmerge]
      · rw [hkey, ho, hv]
  | delete key authority e => exact h.elim

/-- The setting read and the present one, where a statement finds the row at the version read: they
differ in no more than the value, and not in that for a `PATCH`. -/
theorem Write.own_again {w : Write} {T₁ T : Table} {settings settings' : List Setting}
    (hfound : Repo.found base pg T₁ w.key w.authority.tenant = .ok settings)
    (hfound' : Repo.found base pg T w.key w.authority.tenant = .ok settings')
    {cs : List (Change Identity SettingRecord)} (hrun : Run T₁.view cs T.view)
    (hpos : ∀ c ∈ cs, ∀ e, c.presents = some e → 1 ≤ e)
    (hpatch : w.isPatch = true → ∀ c ∈ cs, c.creates w.identity = false)
    {cur : Setting} (hown : w.own settings = some cur) {r' : SettingRecord}
    (hr' : T.row? w.identity = some r') (hv' : r'.version = cur.version) :
    ∃ cur', w.own settings' = some cur' ∧ cur'.key = cur.key ∧ cur'.ownership = cur.ownership ∧
      cur'.version = cur.version ∧ (w.isPatch = true → cur'.value = cur.value) := by
  obtain ⟨hstored, r, value, hr, hvalue, rfl⟩ := (Write.own_eq_some_iff hfound).1 hown
  have hunder : r'.tenant = w.authority.tenant.asStr ∧ r'.key = w.key.asStr := by
    rw [← w.tenant_target]
    exact Repo.under_of_identity (Table.row?_eq_some_iff.1 hr').2
  obtain ⟨_, hs⟩ := (Repo.exists_found_iff.1 ⟨settings', hfound'⟩).2 r'
    (Table.row?_eq_some_iff.1 hr').1 hunder
  obtain ⟨_, value', -, hvalue', -⟩ := SettingRecord.intoDomain_eq_ok_iff.1 hs
  refine ⟨_, (Write.own_eq_some_iff hfound').2 ⟨hstored, r', value', hr', hvalue', rfl⟩, rfl, rfl,
    by simp only at hv' ⊢; omega, fun hp => ?_⟩
  -- no creation came between, so the row found at the version is the row read
  have heq : r = r' := (hrun.content_eq (hpatch hp) hpos
    (Table.view_eq_some_iff.2 ⟨hr, rfl⟩) (Table.view_eq_some_iff.2 ⟨hr', rfl⟩)
    (by simp only at hv'; omega)).1
  rw [heq, hvalue', Except.ok.injEq] at hvalue
  exact hvalue

/-- **A write whose statement takes effect would decide the same on the present table.**  It read
the table `T₁`, and the changes `cs` lead from there to `T`. -/
theorem Write.Decides.again {w : Write} {T₁ T : Table} {settings : List Setting} {plan : Plan}
    (hfound : Repo.found base pg T₁ w.key w.authority.tenant = .ok settings)
    (hplan : w.Decides settings plan) {cs : List (Change Identity SettingRecord)}
    (hrun : Run T₁.view cs T.view) (hcs : ∀ c ∈ cs, Readable base c)
    (hpos : ∀ c ∈ cs, ∀ e, c.presents = some e → 1 ≤ e)
    (hpatch : w.isPatch = true → ∀ c ∈ cs, c.creates w.identity = false)
    {c : Change Identity SettingRecord}
    (hc : (plan.stmt base).change (pg.exec (plan.stmt base) T).1 = some c) :
    ∃ settings', Repo.found base pg T w.key w.authority.tenant = .ok settings' ∧
      w.Decides settings' plan := by
  obtain ⟨settings', hfound'⟩ := exists_found_of_run hfound hrun hcs
  refine ⟨settings', hfound', ?_⟩
  cases hplan with
  | @insert s hown hs =>
      rw [hs.stmt_eq] at hc
      obtain ⟨-, hr, -⟩ := change_insert_iff.1 hc
      refine .insert (Option.eq_none_iff_forall_ne_some.2 fun cur hcur => ?_) hs
      obtain ⟨-, r, -, hr', -⟩ := (Write.own_eq_some_iff hfound').1 hcur
      exact absurd (hr.symm.trans hr') (by simp)
  | @update cur next hown he hnext =>
      rw [hnext.stmt_eq hfound hown] at hc
      obtain ⟨-, -, r', hr', hv', -⟩ := change_update_iff.1 hc
      obtain ⟨cur', hown', hkey, ho, hv, hval⟩ :=
        Write.own_again hfound hfound' hrun hpos hpatch hown hr' hv'
      rw [← hv] at he ⊢
      exact .update hown' he (hnext.of_value hkey ho hv hval)
  | @delete cur hown he hw =>
      rw [Write.delete_stmt_eq hfound hown] at hc
      obtain ⟨-, r', hr', hv', -⟩ := change_delete_iff.1 hc
      obtain ⟨cur', hown', -, ho, hv, -⟩ :=
        Write.own_again hfound hfound' hrun hpos hpatch hown hr' hv'
      rw [← hv] at he ⊢
      rw [← ho]
      exact .delete hown' he hw

/-- A `PATCH` that decides on a statement and at once runs it stores its patch merged into the value
it replaces. -/
theorem Write.Decides.patched (hjsonb : ∀ v, pg.jsonb v = v) {w : Write} {T : Table}
    {settings : List Setting} {plan : Plan}
    (hfound : Repo.found base pg T w.key w.authority.tenant = .ok settings)
    (hplan : w.Decides settings plan) {c : Change Identity SettingRecord}
    (hc : (plan.stmt base).change (pg.exec (plan.stmt base) T).1 = some c) {key : SettingKey}
    {patch : SettingValue} {authority : Authority} {expected : ℕ} {now : Instant}
    (hw : w = .patch key patch authority expected now) {r' : SettingRecord}
    (hr' : c.content = some r') :
    ∃ r, T.row? w.identity = some r ∧ r'.value = r.value.mergePatch patch.value := by
  subst hw
  cases hplan with
  | @insert s hown hs => exact hs.elim
  | @delete cur hown he hw => exact hw.elim
  | @update cur next hown he hnext =>
      rw [hnext.stmt_eq hfound hown] at hc
      obtain ⟨-, -, r, hr, -, rfl⟩ := change_update_iff.1 hc
      obtain rfl := Option.some.inj hr'
      obtain ⟨-, r₁, v₁, hr₁, hv₁, rfl⟩ := (Write.own_eq_some_iff hfound).1 hown
      obtain rfl : r = r₁ := Option.some.inj (hr.symm.trans hr₁)
      obtain ⟨v, hmerge, rfl⟩ := Setting.applyPartial_eq_ok_iff.1 hnext
      refine ⟨r, hr, ?_⟩
      rw [SettingRecord.rewrite, hjsonb, ← SettingValue.new_eq_ok_iff.1 hv₁]
      exact SettingValue.new_eq_ok_iff.1 hmerge

/-! ### Replays -/

/-- The statements of a history that took effect. -/
def commits (hist : List (Event Stmt Stmt.Ret Table Write)) :
    List (Event Stmt Stmt.Ret Table Write) :=
  hist.filter fun e => (effect e).isSome

/-- Writes running one after the other, each alone: their results, and the table they leave. -/
def replay (pg : Postgres) (base : Anchor) : List Write → Table → List Result × Table
  | [], T => ([], T)
  | w :: ws, T =>
      let one := w.alone pg base T
      let rest := replay pg base ws one.2
      (one.1 :: rest.1, rest.2)

theorem replay_append (ws : List Write) (w : Write) (T : Table) :
    replay pg base (ws ++ [w]) T =
      ((replay pg base ws T).1 ++ [(w.alone pg base (replay pg base ws T).2).1],
        (w.alone pg base (replay pg base ws T).2).2) := by
  induction ws generalizing T with
  | nil => rfl
  | cons v ws ih => simp only [List.cons_append, replay, ih]

/-- The result of the write at position `i`, once it is done. -/
def resultAt (c : Snapshot Stmt Stmt.Ret Table Write Result) (i : ℕ) : Option Result :=
  c.procs[i]?.bind fun p => match p.prog with
    | .pure x => some x
    | .call _ _ => none

/-- What a result shows: the key, value, owner and version of a setting. -/
def shown (x : Result) :
    Except SettingsError (Option (SettingKey × SettingValue × Ownership × ℕ)) :=
  x.map fun a => match a with
    | .setting s => some (s.key, s.value, s.ownership, s.version)
    | .page _ => none
    | .deleted => none

/-- The statement of a `PATCH` that took effect stored the patch merged into the value it
replaced. -/
def MergesPresent (e : Event Stmt Stmt.Ret Table Write) : Prop :=
  ∀ key patch authority expected now, e.req = .patch key patch authority expected now →
    ∀ c r', effect e = some c → c.content = some r' →
      ∃ r, e.before.row? e.req.identity = some r ∧ r'.value = r.value.mergePatch patch.value

/-- **Serializability**: the writes that succeeded are those whose statement took effect; replayed
in that order from the initial table they give the same results and the same table; and a `PATCH`
stored its patch merged into the value it replaced. -/
structure Serializable (pg : Postgres) (base : Anchor) (T₀ : Table)
    (c : Snapshot Stmt Stmt.Ret Table Write Result) : Prop where
  /-- A write takes effect at most once. -/
  nodup : ((commits c.hist).map Event.who).Nodup
  /-- The writes that took effect are those that succeeded. -/
  succeeded : ∀ i, (∃ a, resultAt c i = some (.ok a)) ↔ i ∈ (commits c.hist).map Event.who
  /-- The replay gives the same results. -/
  results : (replay pg base ((commits c.hist).map Event.req) T₀).1.map (fun x => some (shown x)) =
    (commits c.hist).map fun e => (resultAt c e.who).map shown
  /-- The replay gives the same table. -/
  final : (replay pg base ((commits c.hist).map Event.req) T₀).2 = c.state
  /-- A `PATCH` merges into the value it replaces. -/
  patched : ∀ e ∈ c.hist, MergesPresent e

/-- **The guard**: when the `UPDATE` of a `PATCH` takes effect, no row with its identity was created
since it read. -/
def ReadsLastCreation (hist : List (Event Stmt Stmt.Ret Table Write))
    (e : Event Stmt Stmt.Ret Table Write) : Prop :=
  e.req.isPatch = true → (effect e).isSome = true →
    ∀ d ∈ effects (hist.drop e.mark), d.creates e.req.identity = false

instance (hist : List (Event Stmt Stmt.Ret Table Write)) (e : Event Stmt Stmt.Ret Table Write) :
    Decidable (ReadsLastCreation hist e) := inferInstanceAs (Decidable (_ → _ → _))

/-! ### The invariant -/

/-- A write has not succeeded by its decision. -/
theorem Plan.progOf_ne_ok (d : Except SettingsError Plan) (a : Reply) :
    Plan.progOf base d ≠ .pure (.ok a) := by
  cases d with
  | error e => simp [progOf]
  | ok plan =>
      obtain ⟨k, hk, -⟩ := plan.exists_prog_eq base
      simp [progOf, hk]

/-- The statement of a write in flight takes no effect: the write does not succeed by it. -/
theorem Stage.of_no_change {w : Write} {T : Table}
    {hist : List (Event Stmt Stmt.Ret Table Write)} {mark : ℕ} {o : Stmt}
    {k : o.Ret → Prog Stmt Stmt.Ret Result} (h : Stage pg base w T hist mark (.call o k))
    (hc : o.change (pg.exec o T).1 = none) (a : Reply) : k (pg.exec o T).1 ≠ .pure (.ok a) := by
  generalize hq : Prog.call o k = q at h
  cases h with
  | start =>
      rw [w.prog_eq] at hq
      obtain ⟨rfl, hk⟩ := Prog.call.inj hq
      rw [eq_of_heq hk]
      exact Plan.progOf_ne_ok _ a
  | check key ownership =>
      obtain ⟨rfl, hk⟩ := Prog.call.inj hq
      rw [eq_of_heq hk]
      simp
  | done x => exact absurd hq (by simp)
  | @planned T₁ settings plan hfound hplan hmark hrun =>
      obtain ⟨k', hk', hrest⟩ := plan.exists_prog_eq base
      rw [hk'] at hq
      obtain ⟨rfl, hk⟩ := Prog.call.inj hq
      rw [eq_of_heq hk]
      have h := hrest (pg.exec (plan.stmt base) T).1
      rw [hc] at h
      obtain ⟨e, he⟩ | ⟨key, ownership, hcheck⟩ := h.of_none
      · simp [he]
      · simp [hcheck, Plan.check]

/-- What the history says about the table: the changes are a run and can be read back, and the
replay of the commits follows them. -/
structure Replayed (pg : Postgres) (base : Anchor) (T₀ : Table) (reqs : List Write) (T : Table)
    (hist : List (Event Stmt Stmt.Ret Table Write)) : Prop where
  run : Run T₀.view (effects hist) T.view
  sound : ∀ e ∈ hist, Sound e
  readable : ∀ c ∈ effects hist, Readable base c
  nodup : ((commits hist).map Event.who).Nodup
  req : ∀ e ∈ commits hist, reqs[e.who]? = some e.req
  replay : replay pg base ((commits hist).map Event.req) T₀ =
    ((effects hist).map (resultOf base), T)
  patched : ∀ e ∈ hist, MergesPresent e

/-- What the history says about the write at position `i`: no statement of it took effect and it
has not succeeded, or one did and it is done with the result of the change. -/
def Settled (pg : Postgres) (base : Anchor) (reqs : List Write) (T : Table)
    (hist : List (Event Stmt Stmt.Ret Table Write)) (i : ℕ) (p : Proc Stmt Stmt.Ret Write Result) :
    Prop :=
  reqs[i]? = some p.req ∧
    ((Stage pg base p.req T hist p.mark p.prog ∧ (∀ a, p.prog ≠ .pure (.ok a)) ∧
        ∀ e ∈ commits hist, e.who ≠ i) ∨
      ((∃ a, p.prog = .pure (.ok a)) ∧ (∃ e ∈ commits hist, e.who = i) ∧
        ∀ e ∈ commits hist, e.who = i → ∀ c, effect e = some c → p.prog = .pure (resultOf base c)))

section Step

variable {T : Table} {hist : List (Event Stmt Stmt.Ret Table Write)} {i : ℕ}
  {p : Proc Stmt Stmt.Ret Write Result} {o : Stmt} {c : Change Identity SettingRecord}

theorem commits_snoc_of_none (hc : o.change (pg.exec o T).1 = none) :
    commits (hist ++ [eventOf pg.exec T i p o]) = commits hist := by
  have : effect (eventOf pg.exec T i p o) = none := hc
  simp [commits, this]

theorem commits_snoc_of_some (hc : o.change (pg.exec o T).1 = some c) :
    commits (hist ++ [eventOf pg.exec T i p o]) = commits hist ++ [eventOf pg.exec T i p o] := by
  have : effect (eventOf pg.exec T i p o) = some c := hc
  simp [commits, this]

theorem effects_snoc_of_none (hc : o.change (pg.exec o T).1 = none) :
    effects (hist ++ [eventOf pg.exec T i p o]) = effects hist := by
  have : effect (eventOf pg.exec T i p o) = none := hc
  simp [effects, this]

theorem effects_snoc_of_some (hc : o.change (pg.exec o T).1 = some c) :
    effects (hist ++ [eventOf pg.exec T i p o]) = effects hist ++ [c] := by
  have : effect (eventOf pg.exec T i p o) = some c := hc
  simp [effects, this]

end Step

/-- The replay follows a statement that takes effect. -/
theorem Replayed.snoc (hjsonb : ∀ v, pg.jsonb v = v) {T₀ T : Table} {reqs : List Write}
    {hist : List (Event Stmt Stmt.Ret Table Write)} (hI : Replayed pg base T₀ reqs T hist) {i : ℕ}
    {p : Proc Stmt Stmt.Ret Write Result} {o : Stmt} {k : o.Ret → Prog Stmt Stmt.Ret Result}
    (hreq : reqs[i]? = some p.req) (hstage : Stage pg base p.req T hist p.mark (.call o k))
    (hnew : ∀ e ∈ commits hist, e.who ≠ i) (hG : ReadsLastCreation hist (eventOf pg.exec T i p o))
    {c : Change Identity SettingRecord} (hc : o.change (pg.exec o T).1 = some c) :
    Replayed pg base T₀ reqs (pg.exec o T).2 (hist ++ [eventOf pg.exec T i p o]) := by
  have hsound := hstage.makes hc
  obtain ⟨-, T₁, settings, plan, hfound, hplan, hrun, rfl⟩ := hstage.of_change hc
  have heff : ∀ d ∈ effects (hist.drop p.mark), d ∈ effects hist := by
    intro d hd
    exact ((List.drop_sublist p.mark hist).filterMap effect).subset hd
  have hreadable : ∀ d ∈ effects (hist.drop p.mark), Readable base d := by
    intro d hd
    exact hI.readable d (heff d hd)
  have hpos : ∀ d ∈ effects (hist.drop p.mark), ∀ n, d.presents = some n → 1 ≤ n := by
    intro d hd n hn
    obtain ⟨e, he, hed⟩ := List.mem_filterMap.1 (heff d hd)
    obtain ⟨m, r, -, rfl, hm, -⟩ := (hI.sound e he d hed).found n hn
    omega
  have hpatch : p.req.isPatch = true →
      ∀ d ∈ effects (hist.drop p.mark), d.creates p.req.identity = false := by
    intro hp
    exact hG hp (by simp [effect, eventOf, hc])
  -- at the time of its statement the write would decide as it did when it read
  obtain ⟨settings', hfound', hplan'⟩ := hplan.again hfound hrun hreadable hpos hpatch hc
  -- so running it alone, right now, makes the same change
  have halone := Write.alone_of_decides hfound' hplan' hc
  refine ⟨run_effects_snoc hI.run i p _, ?_, ?_, ?_, ?_, ?_, ?_⟩
  · refine List.forall_mem_append.2 ⟨hI.sound, List.forall_mem_singleton.2 fun d hd => ?_⟩
    obtain rfl : c = d := Option.some.inj (hc.symm.trans hd)
    exact hsound
  · rw [effects_snoc_of_some hc]
    exact List.forall_mem_append.2
      ⟨hI.readable, List.forall_mem_singleton.2 (hplan.readable (fun v _ => hjsonb v) hfound hc)⟩
  · rw [commits_snoc_of_some hc, List.map_append, List.nodup_append]
    refine ⟨hI.nodup, by simp, fun a ha b hb => ?_⟩
    obtain ⟨e, he, rfl⟩ := List.mem_map.1 ha
    rw [List.map_singleton, List.mem_singleton] at hb
    exact hb ▸ hnew e he
  · rw [commits_snoc_of_some hc]
    exact List.forall_mem_append.2 ⟨hI.req, List.forall_mem_singleton.2 hreq⟩
  · rw [commits_snoc_of_some hc, effects_snoc_of_some hc, List.map_append, List.map_singleton,
      replay_append, hI.replay, List.map_append, List.map_singleton]
    change (_ ++ [(p.req.alone pg base T).1], (p.req.alone pg base T).2) = _
    rw [halone]
  · refine List.forall_mem_append.2 ⟨hI.patched, List.forall_mem_singleton.2 ?_⟩
    intro key patch authority expected now hw d r' hd hr'
    obtain rfl : c = d := Option.some.inj (hc.symm.trans hd)
    exact hplan'.patched hjsonb hfound' hc hw hr'

/-- Nothing changes for the replay when a statement takes no effect. -/
theorem Replayed.snoc_of_none {T₀ T : Table} {reqs : List Write}
    {hist : List (Event Stmt Stmt.Ret Table Write)} (hI : Replayed pg base T₀ reqs T hist) {i : ℕ}
    {p : Proc Stmt Stmt.Ret Write Result} {o : Stmt} (hc : o.change (pg.exec o T).1 = none) :
    Replayed pg base T₀ reqs (pg.exec o T).2 (hist ++ [eventOf pg.exec T i p o]) := by
  have hnone : effect (eventOf pg.exec T i p o) = none := hc
  have hT : (pg.exec o T).2 = T := Postgres.exec_of_no_change hc
  refine ⟨run_effects_snoc hI.run i p o, ?_, ?_, ?_, ?_, ?_, ?_⟩
  · exact List.forall_mem_append.2 ⟨hI.sound, List.forall_mem_singleton.2 fun c hd =>
      absurd (hnone.symm.trans hd) (by simp)⟩
  · rw [effects_snoc_of_none hc]
    exact hI.readable
  · rw [commits_snoc_of_none hc]
    exact hI.nodup
  · rw [commits_snoc_of_none hc]
    exact hI.req
  · rw [commits_snoc_of_none hc, effects_snoc_of_none hc, hT]
    exact hI.replay
  · refine List.forall_mem_append.2 ⟨hI.patched, List.forall_mem_singleton.2 ?_⟩
    exact fun _ _ _ _ _ _ c _ hd _ => absurd (hnone.symm.trans hd) (by simp)

/-- A write whose own statement is answered stays settled. -/
theorem Settled.step (hjsonb : ∀ v, pg.jsonb v = v) {T : Table} {reqs : List Write}
    {hist : List (Event Stmt Stmt.Ret Table Write)} {i : ℕ} {p : Proc Stmt Stmt.Ret Write Result}
    {o : Stmt} {k : o.Ret → Prog Stmt Stmt.Ret Result} (h : Settled pg base reqs T hist i p)
    (hk : p.prog = .call o k) : Settled pg base reqs (pg.exec o T).2
      (hist ++ [eventOf pg.exec T i p o]) i (p.next pg.exec T hist.length o k) := by
  obtain ⟨hreq, ⟨hstage, -, hnew⟩ | ⟨⟨a, ha⟩, -, -⟩⟩ := h
  · refine ⟨hreq, ?_⟩
    rw [hk] at hstage
    cases hc : o.change (pg.exec o T).1 with
    | none =>
        refine .inl ⟨hstage.step, hstage.of_no_change hc, ?_⟩
        rw [commits_snoc_of_none hc]
        exact hnew
    | some c =>
        obtain ⟨hdone, T₁, settings, plan, hfound, hplan, -, rfl⟩ := hstage.of_change hc
        obtain ⟨a, ha⟩ := (hplan.readable (fun v _ => hjsonb v) hfound hc).resultOf
        rw [commits_snoc_of_some hc]
        refine .inr ⟨⟨a, by rw [← ha]; exact hdone⟩, ⟨_, List.mem_append_right _
          (List.mem_singleton_self _), rfl⟩, ?_⟩
        refine List.forall_mem_append.2 ⟨fun e he hwho => absurd hwho (hnew e he),
          List.forall_mem_singleton.2 fun _ d hd => ?_⟩
        obtain rfl : c = d := Option.some.inj (hc.symm.trans hd)
        exact hdone
  · rw [hk] at ha
    exact absurd ha (by simp)

/-- A write stays settled while others run. -/
theorem Settled.frame {T : Table} {reqs : List Write}
    {hist : List (Event Stmt Stmt.Ret Table Write)} {i j : ℕ}
    {p q : Proc Stmt Stmt.Ret Write Result} {o : Stmt} (h : Settled pg base reqs T hist j q)
    (hj : j ≠ i) :
    Settled pg base reqs (pg.exec o T).2 (hist ++ [eventOf pg.exec T i p o]) j q := by
  have hcommits : ∀ e ∈ commits (hist ++ [eventOf pg.exec T i p o]), e.who = j →
      e ∈ commits hist := by
    intro e he hwho
    rw [commits, List.filter_append, List.mem_append] at he
    refine he.resolve_right fun h => hj ?_
    rw [← hwho, List.mem_singleton.1 (List.mem_of_mem_filter h)]
    rfl
  obtain ⟨hreq, ⟨hstage, hne, hnew⟩ | ⟨ha, ⟨e, he, hwho⟩, hall⟩⟩ := h
  · exact ⟨hreq, .inl ⟨hstage.frame, hne, fun e he hwho => hnew e (hcommits e he hwho) hwho⟩⟩
  · refine ⟨hreq, .inr ⟨ha, ⟨e, ?_, hwho⟩, fun e he hwho => hall e (hcommits e he hwho) hwho⟩⟩
    rw [commits, List.filter_append]
    exact List.mem_append_left _ he

/-! ### The main result -/

/-- The changes of a history are those of its commits. -/
theorem map_effects {β : Type} {f : Change Identity SettingRecord → β}
    {g : Event Stmt Stmt.Ret Table Write → β} {hist : List (Event Stmt Stmt.Ret Table Write)}
    (h : ∀ e ∈ commits hist, ∀ c, effect e = some c → f c = g e) :
    (effects hist).map f = (commits hist).map g := by
  induction hist with
  | nil => rfl
  | cons e hist ih =>
      rw [effects, commits, List.filterMap_cons, List.filter_cons]
      cases he : effect e with
      | none =>
          rw [if_neg (by simp)]
          refine ih fun d hd => h d ?_
          rw [commits, List.filter_cons, he, if_neg (by simp)]
          exact hd
      | some c =>
          rw [if_pos (by simp), List.map_cons]
          have hmem : ∀ d, d = e ∨ d ∈ commits hist → d ∈ commits (e :: hist) := by
            intro d hd
            rw [commits, List.filter_cons, he, if_pos (by simp), List.mem_cons]
            exact hd
          exact congrArg₂ List.cons (h e (hmem e (.inl rfl)) c he)
            (ih fun d hd => h d (hmem d (.inr hd)))

/-- The invariant of the runs in which no `PATCH` takes effect after its row was created anew: the
commits so far replay to the table, and every write is on its way or has returned. -/
theorem replayed_of_readsLastCreation (hjsonb : ∀ v, pg.jsonb v = v) {T₀ : Table}
    {reqs : List Write} {c : Snapshot Stmt Stmt.Ret Table Write Result}
    (hc : Reachable pg.exec ReadsLastCreation (Snapshot.init T₀ (Write.prog base) reqs) c) :
    Replayed pg base T₀ reqs c.state c.hist ∧
      ∀ i p, c.procs[i]? = some p → Settled pg base reqs c.state c.hist i p := by
  have hinit : Replayed pg base T₀ reqs T₀ [] :=
    ⟨.nil, by simp, by simp, by simp [commits], by simp [commits], rfl, by simp⟩
  have hstart : ∀ i w, reqs[i]? = some w →
      Settled pg base reqs T₀ [] i ⟨w, w.prog base, 0⟩ := by
    intro i w hw
    exact ⟨hw, .inl ⟨.start, fun a => by simp [w.prog_eq], by simp [commits]⟩⟩
  refine Reachable.invariant hinit hstart ?_ hc
  intro T hist i p o k hI hP hk hG
  refine ⟨?_, hP.step hjsonb hk, fun j q hj hq => hq.frame hj⟩
  obtain ⟨hreq, ⟨hstage, -, hnew⟩ | ⟨⟨a, ha⟩, -, -⟩⟩ := hP
  · rw [hk] at hstage
    cases hch : o.change (pg.exec o T).1 with
    | none => exact hI.snoc_of_none hch
    | some d => exact hI.snoc hjsonb hreq hstage hnew hG hch
  · rw [hk] at ha
    exact absurd ha (by simp)

/-- **Every run in which no `PATCH` takes effect after its row was created anew is
serializable.** -/
theorem serializable_of_readsLastCreation (pg : Postgres) (base : Anchor)
    (hjsonb : ∀ v, pg.jsonb v = v) {T₀ : Table} {reqs : List Write}
    {c : Snapshot Stmt Stmt.Ret Table Write Result}
    (hc : Reachable pg.exec ReadsLastCreation (Snapshot.init T₀ (Write.prog base) reqs) c) :
    Serializable pg base T₀ c := by
  obtain ⟨hI, hP⟩ := replayed_of_readsLastCreation hjsonb hc
  -- a write with a commit has succeeded with the result of its change, and no other has
  have hproc : ∀ e ∈ commits c.hist, ∃ p, c.procs[e.who]? = some p ∧
      (∃ a, p.prog = .pure (.ok a)) ∧
        ∀ d, effect e = some d → p.prog = .pure (resultOf base d) := by
    intro e he
    have hlt : e.who < c.procs.length := by
      have hlen := congrArg List.length hc.procs_req
      rw [List.length_map] at hlen
      rw [hlen]
      exact (List.getElem?_eq_some_iff.1 (hI.req e he)).1
    have hp : c.procs[e.who]? = some c.procs[e.who] := List.getElem?_eq_getElem hlt
    refine ⟨_, hp, ?_⟩
    obtain ⟨-, ⟨-, -, hnew⟩ | ⟨ha, -, hall⟩⟩ := hP e.who _ hp
    · exact absurd rfl (hnew e he)
    · exact ⟨ha, hall e he rfl⟩
  refine ⟨hI.nodup, fun i => ?_, ?_, by rw [hI.replay], hI.patched⟩
  · rw [List.mem_map]
    constructor
    · rintro ⟨a, ha⟩
      rw [resultAt, Option.bind_eq_some_iff] at ha
      obtain ⟨p, hp, hpa⟩ := ha
      cases hprog : p.prog with
      | call o k => simp [hprog] at hpa
      | pure x =>
          obtain rfl : x = .ok a := by simpa [hprog] using hpa
          obtain ⟨-, ⟨-, hne, -⟩ | ⟨-, he, -⟩⟩ := hP i p hp
          · exact absurd hprog (hne a)
          · exact he
    · rintro ⟨e, he, rfl⟩
      obtain ⟨p, hp, ⟨a, ha⟩, -⟩ := hproc e he
      exact ⟨a, by rw [resultAt, hp, Option.bind_some, ha]⟩
  · rw [hI.replay, List.map_map]
    refine map_effects fun e he d hd => ?_
    obtain ⟨p, hp, -, hall⟩ := hproc e he
    rw [resultAt, hp, Option.bind_some, hall d hd]
    rfl

open Sample in
/-- A put, then a patch and a put of the same version in flight at once. -/
theorem serializable_of_patch_and_put :
    Serializable (Postgres.ofJsonb id) ⟨0, 0⟩ Table.empty
      ((Snapshot.init Table.empty (Write.prog ⟨0, 0⟩)
        [.put theme dark alice none 0, .patch theme big alice 1 0,
          .put theme light alice (some 1) 0]).schedule (Postgres.ofJsonb id).exec
            [0, 0, 1, 2, 1, 2, 2]) :=
  serializable_of_readsLastCreation _ _ (fun _ => rfl)
    ((Reachable.refl.schedule _ _).of_hist (by decide +kernel))

open Sample in
/-- **Not every run is serializable.**  A `PATCH` reads a row at version one; the row is deleted and
created anew, at version one with another value; the `UPDATE` of the `PATCH` matches it. -/
theorem not_serializable :
    ¬ ∀ (pg : Postgres) (base : Anchor), (∀ v, pg.jsonb v = v) → ∀ (T₀ : Table) (reqs : List Write)
      (c : Snapshot Stmt Stmt.Ret Table Write Result),
      Reachable pg.exec (fun _ _ => True) (Snapshot.init T₀ (Write.prog base) reqs) c →
        Serializable pg base T₀ c := by
  intro h
  have hfinal := (h (Postgres.ofJsonb id) ⟨0, 0⟩ (fun _ => rfl) Table.empty
    [.put theme dark alice none 0, .patch theme big alice 1 0, .delete theme alice 1,
      .put theme light alice none 0] _
    (Reachable.refl.schedule _ [0, 0, 1, 2, 2, 3, 3, 1])).final
  have hvalues := congrArg (fun T => T.rows.map fun r => r.value.json.print) hfinal
  exact absurd hvalues (by decide +kernel)

end SettingsService
