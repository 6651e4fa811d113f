import SettingsService.TextSearch
import SettingsService.ReadWrite
import SettingsService.Serializable

/-!
# Requests that end in an internal error

The value objects check the length of a key and the shape and size of a value.  Postgres takes
neither a text nor a document with a U+0000 in it, and the adapter reports what Postgres refuses as
the opaque internal error.  This module says which requests can end in it, over all interleavings.

Main definitions:

* `SettingRecord.NulFree`, `Table.NulFree` — the rows that Postgres can hold;
* `NotInternal`, `Safe` — a computation that does not end in the internal error, and a program that
  does not as long as Postgres takes its statements;
* `Request.Storable` — what a request binds is without U+0000;
* `NeverInternal` — in no run does the request end in the internal error.

Main results:

* `Request.Storable.safe` — a request Postgres can store is safe;
* `neverInternal_iff` — **requests never end in the internal error exactly when** what they bind is
  without U+0000;
* `not_neverInternal` — a valid key with a U+0000.
-/

set_option relaxedAutoImplicit false
set_option autoImplicit false

namespace SettingsService

open Interaction (Prog Proc Snapshot Reachable Event Alone)

variable {pg : Postgres} {base : Anchor}

/-! ### Rows that Postgres can hold -/

/-- A row without U+0000. -/
structure SettingRecord.NulFree (r : SettingRecord) : Prop where
  tenant : textAccepted r.tenant = true
  user : r.user.all textAccepted = true
  key : textAccepted r.key = true
  value : jsonbAccepted r.value = true

/-- No row has a U+0000. -/
def Table.NulFree (T : Table) : Prop := ∀ r ∈ T.rows, r.NulFree

/-- No version has reached the largest `INTEGER`. -/
def Table.HasRoom (T : Table) : Prop := ∀ r ∈ T.rows, r.version < i32Max

theorem Table.nulFree_empty : Table.empty.NulFree := by
  intro r hr
  exact absurd hr List.not_mem_nil

theorem Table.hasRoom_empty : Table.empty.HasRoom := by
  intro r hr
  exact absurd hr List.not_mem_nil

/-- The user column of the ownership of such a row. -/
theorem SettingRecord.NulFree.userColumn {r : SettingRecord} (hr : r.NulFree) :
    r.ownership.userColumn.all textAccepted = true := by
  have huser := hr.user
  rw [ownership]
  cases hu : r.user with
  | none => rfl
  | some u =>
      rw [hu] at huser
      dsimp only
      split_ifs
      · rfl
      · exact huser

/-- **A statement brings no U+0000 into a table.** -/
theorem Table.NulFree.exec (hpg : ∀ v, jsonbAccepted v = true → jsonbAccepted (pg.jsonb v) = true)
    {T : Table} (hT : T.NulFree) (s : Stmt) : (pg.exec s T).2.NulFree := by
  by_cases ha : s.accepted = true
  · intro r hr
    rcases Postgres.row_of_exec hr with hr | ⟨r₀, hr₀, value, _, _, _, _, _, rfl, rfl⟩ |
      ⟨_, _, _, value, _, rfl, -, rfl⟩
    · exact hT r hr
    · simp only [Stmt.accepted, Bool.and_eq_true] at ha
      have hr₀ := hT r₀ hr₀
      exact ⟨hr₀.tenant, hr₀.user, hr₀.key, hpg value ha.1.1.1⟩
    · simp only [Stmt.accepted, Bool.and_eq_true] at ha
      exact ⟨ha.1.1.1, ha.1.1.2, ha.1.2, hpg value ha.2⟩
  · rw [Postgres.exec_of_not_accepted ha]
    exact hT

/-- What Postgres answers to a statement that it takes, on a table of such rows with room. -/
def Stmt.Answers : (s : Stmt) → s.Ret → Prop
  | .find _ key, .ok rows => ∀ r ∈ rows, r.NulFree ∧ r.version < i32Max ∧ r.key = key
  | _, .ok _ => True
  | _, .error _ => False

/-- **A statement that Postgres takes is answered.** -/
theorem Table.NulFree.answers {T : Table} (hT : T.NulFree) (hroom : T.HasRoom) {s : Stmt}
    (ha : s.accepted = true) : s.Answers (pg.exec s T).1 := by
  rw [Postgres.exec_of_accepted ha]
  cases s with
  | find tenant key =>
      intro r hr
      rw [List.mem_insertionSort, List.mem_filter, Bool.and_eq_true, beq_iff_eq, beq_iff_eq] at hr
      exact ⟨hT r hr.1, hroom r hr.1, hr.2.2⟩
  | insert tenant user key value updatedAt => exact trivial
  | update value updatedAt tenant user key version =>
      rw [Postgres.execAccepted, Table.updateRows]
      split
      · exact trivial
      · rename_i r hr
        have hversion : r.version = version := by
          have := List.find?_some hr
          simp only [Bool.and_eq_true, beq_iff_eq] at this
          exact this.2
        rw [dif_pos (hversion ▸ hroom r (List.mem_of_find?_eq_some hr))]
        exact trivial
  | delete tenant user key version => exact trivial
  | count tenant user key => exact trivial
  | search tenant pattern user isAdmin limit offset => exact trivial

/-! ### Computations that do not end in the internal error -/

/-- The computation does not end in the internal error. -/
def NotInternal {α : Type} (x : Except SettingsError α) : Prop := x ≠ .error .internal

namespace NotInternal

variable {α β : Type}

theorem ok (a : α) : NotInternal (.ok a) := by
  intro h
  cases h

theorem error {e : SettingsError} (he : e ≠ .internal) :
    NotInternal (.error e : Except SettingsError α) := by
  intro h
  exact he (Except.error.inj h)

theorem bind {x : Except SettingsError α} {f : α → Except SettingsError β} (hx : NotInternal x)
    (hf : ∀ a, NotInternal (f a)) : NotInternal (x >>= f) := by
  cases x with
  | error e => exact error fun he => hx (congrArg Except.error he)
  | ok a => exact hf a

theorem map {x : Except SettingsError α} (hx : NotInternal x) (f : α → β) :
    NotInternal (x.map f) := by
  cases x with
  | error e => exact error fun he => hx (congrArg Except.error he)
  | ok a => exact ok (f a)

theorem ite {p : Prop} [Decidable p] {x y : Except SettingsError α} (hx : NotInternal x)
    (hy : NotInternal y) : NotInternal (if p then x else y) := by
  split_ifs
  · exact hx
  · exact hy

theorem mapM {f : α → Except SettingsError β} (hf : ∀ a, NotInternal (f a)) (xs : List α) :
    NotInternal (xs.mapM f) := by
  induction xs with
  | nil => exact ok []
  | cons x xs ih =>
      rw [List.mapM_cons]
      exact (hf x).bind fun y => ih.bind fun ys => ok (y :: ys)

theorem okOr (o : Option α) {e : SettingsError} (he : e ≠ .internal) :
    NotInternal (okOr o e) := by
  cases o with
  | none => exact error he
  | some a => exact ok a

/-- The error of a computation, as the result of another one. -/
theorem retype {e : SettingsError} (he : NotInternal (.error e : Except SettingsError α)) :
    NotInternal (.error e : Except SettingsError β) :=
  error fun h => he (congrArg Except.error h)

/-- A row that does not decode is refused by a value object. -/
theorem intoDomain (base : Anchor) (r : SettingRecord) : NotInternal (r.intoDomain base) := by
  intro h
  rcases r.intoDomain_eq_error h with he | he
  · cases he
  · cases he

theorem collectPage (base : Anchor) (rows : List SearchRow) (acc : SearchPage) :
    NotInternal (collectPage base rows acc) := by
  induction rows generalizing acc with
  | nil => exact ok _
  | cons row rows ih =>
      rw [SettingsService.collectPage]
      split
      · exact ih _
      · split
        · exact ok none
        · exact (intoDomain base _).bind fun s => ih _

theorem readable (authority : Authority) (rows : List Setting) :
    NotInternal (Service.readable authority rows) :=
  .ite (.error (by simp)) (.okOr _ (by simp))

/-- A write does not decide on the internal error. -/
theorem decide (w : Write) (rows : List Setting) : NotInternal (w.decide rows) := by
  cases w with
  | put key value authority expected now =>
      rw [Write.decide]
      split
      · refine (okOr expected (by simp)).bind fun e => .ite (.error (by simp)) ?_
        exact (ok _).bind fun next => ok _
      · exact (ok _).bind fun s => ok _
  | patch key patch authority e now =>
      refine .ite (.error (by simp)) ((okOr _ (by simp)).bind fun cur => ?_)
      refine .ite (.error (by simp)) (.bind ?_ fun next => ok _)
      refine .bind ?_ fun value => ok _
      intro h
      cases SettingValue.new_eq_error h
  | delete key authority e =>
      refine .ite (.error (by simp)) ((okOr _ (by simp)).bind fun cur => ?_)
      exact .ite (.error (by simp)) (ok _)

end NotInternal

/-! ### Safe programs -/

/-- **A program is safe**: as long as Postgres answers what it takes, it takes all the program asks,
and the program does not return the internal error. -/
def Safe (p : Prog Stmt Stmt.Ret Result) : Prop :=
  p.Ensures (fun s => s.accepted = true) Stmt.Answers NotInternal

theorem safe_pure {x : Result} (hx : NotInternal x) : Safe (.pure x) := hx

/-- A plan is safe if Postgres takes its statement. -/
theorem Plan.safe {plan : Plan} (ha : (plan.stmt base).accepted = true) :
    Safe (plan.prog base) := by
  have hcheck : ∀ (key : SettingKey) (o : Ownership),
      (Stmt.count o.tenant.asStr o.userColumn key.asStr).accepted = true →
        Safe (Plan.check key o) := by
    intro key o ho
    refine ⟨ho, fun r hr => ?_⟩
    rcases r with e | row
    · exact hr.elim
    · refine safe_pure (.error ?_)
      dsimp only
      split_ifs <;> simp
  cases plan with
  | insert s =>
      refine ⟨ha, fun r hr => ?_⟩
      rcases r with e | (_ | r)
      · exact hr.elim
      · exact safe_pure (.error (by simp))
      · exact safe_pure ((NotInternal.intoDomain base r).map _)
  | update next expected =>
      refine ⟨ha, fun r hr => ?_⟩
      rcases r with e | (_ | r)
      · exact hr.elim
      · refine hcheck next.key next.ownership ?_
        simp only [stmt, Stmt.accepted, Bool.and_eq_true] at ha ⊢
        exact ⟨⟨ha.1.1.2, ha.1.2⟩, ha.2⟩
      · exact safe_pure ((NotInternal.intoDomain base r).map _)
  | delete key ownership expected =>
      refine ⟨ha, fun r hr => ?_⟩
      rcases r with e | (_ | r)
      · exact hr.elim
      · exact hcheck key ownership ha
      · exact safe_pure (.ok _)

/-! ### What a request binds -/

/-- No member of the patch that is not `null` contains U+0000. -/
def Value.AddsNoNul (patch : Value) : Prop :=
  ∀ m ∈ patch.json.targetMembers, m.2 ≠ .null → Json.NulFreeMember m

/-- **Such a patch brings no U+0000 into an object.** -/
theorem Value.AddsNoNul.mergePatch {b patch : Value} (hb : b.isObject = true)
    (hp : patch.isObject = true) (hpatch : patch.AddsNoNul) (hbn : jsonbAccepted b = true) :
    jsonbAccepted (b.mergePatch patch) = true := by
  obtain ⟨jb, hsb⟩ := b
  obtain ⟨jp, hsp⟩ := patch
  cases jb with
  | object bs =>
      cases jp with
      | object ps =>
          rw [jsonbAccepted, Bool.not_eq_true'] at hbn ⊢
          have hmerged : ((⟨.object bs, hsb⟩ : Value).mergePatch ⟨.object ps, hsp⟩).json =
              .object (Json.mergeMembers bs ps) := rfl
          rw [hmerged, Json.hasNul_object_iff]
          exact Json.nulFreeMember_mergeMembers hsb hsp (Json.hasNul_object_iff.1 hbn) hpatch
            fun m _ bv => Json.hasNul_mergePatch m.2 bv
      | _ => exact absurd hp (by simp [Value.isObject, Json.isObject])
  | _ => exact absurd hb (by simp [Value.isObject, Json.isObject])

/-- A table without U+0000 may have a row of this ownership at this version, with room left. -/
structure Ownership.MayHold (o : Ownership) (version : ℕ) : Prop where
  stored : o.Stored
  user : o.userColumn.all textAccepted = true
  pos : 1 ≤ version
  room : (version : ℤ) < i32Max

/-- **What a write binds is without U+0000**: tenant and key; for a `PUT` the user and the value;
for a `PATCH` what it may put into the value of a row, if there may be one. -/
def Write.Storable : Write → Prop
  | put key value authority _ _ =>
      textAccepted authority.tenant.asStr = true ∧ textAccepted key.asStr = true ∧
        authority.scopeOwnership.userColumn.all textAccepted = true ∧
        jsonbAccepted value.value = true
  | patch key value authority expected _ =>
      textAccepted authority.tenant.asStr = true ∧ textAccepted key.asStr = true ∧
        (authority.scopeOwnership.MayHold expected → value.value.AddsNoNul)
  | delete key authority _ =>
      textAccepted authority.tenant.asStr = true ∧ textAccepted key.asStr = true

/-- **What a request binds is without U+0000.** -/
def Request.Storable : Request → Prop
  | get key authority =>
      textAccepted authority.tenant.asStr = true ∧ textAccepted key.asStr = true
  | search query authority _ =>
      textAccepted authority.tenant.asStr = true ∧ textAccepted query = true ∧
        textAccepted authority.user.asStr = true
  | write w => w.Storable

theorem Write.Storable.texts {w : Write} (hw : w.Storable) :
    textAccepted w.authority.tenant.asStr = true ∧ textAccepted w.key.asStr = true := by
  cases w with
  | put key value authority expected now => exact ⟨hw.1, hw.2.1⟩
  | patch key patch authority e now => exact ⟨hw.1, hw.2.1⟩
  | delete key authority e => exact hw

/-- The row that the current setting of a write was decoded from. -/
theorem Write.exists_row_of_own {w : Write} {rows : List SettingRecord} {settings : List Setting}
    (hrows : (Stmt.find w.authority.tenant.asStr w.key.asStr).Answers (.ok rows))
    (hdec : rows.mapM (SettingRecord.intoDomain base) = .ok settings) {cur : Setting}
    (hown : w.own settings = some cur) : cur.key = w.key ∧ cur.ownership = w.target ∧
      jsonbAccepted cur.value.value = true ∧ w.target.MayHold cur.version := by
  obtain ⟨r, hr, hcur⟩ := (mem_mapM_ok hdec).1 (List.mem_of_find?_eq_some hown)
  obtain ⟨hnul, hroom, hkey⟩ := hrows r hr
  have howner : cur.ownership = w.target := by simpa using List.find?_some hown
  obtain ⟨hversion, hvalue⟩ := version_of_intoDomain hcur
  refine ⟨SettingRecord.key_of_intoDomain hkey hcur, howner, hvalue ▸ hnul.value, ?_⟩
  obtain ⟨key, value, -, -, rfl⟩ := SettingRecord.intoDomain_eq_ok_iff.1 hcur
  rw [← howner]
  refine ⟨r.stored_ownership, hnul.userColumn, ?_, ?_⟩
  · omega
  · rw [i32Max] at hroom ⊢
    omega

/-- **Postgres takes the statement that a write decides on**, if it can store what the write
binds. -/
theorem Write.Storable.accepted {w : Write} (hw : w.Storable) {rows : List SettingRecord}
    {settings : List Setting}
    (hrows : (Stmt.find w.authority.tenant.asStr w.key.asStr).Answers (.ok rows))
    (hdec : rows.mapM (SettingRecord.intoDomain base) = .ok settings) {plan : Plan}
    (hplan : w.Decides settings plan) : (plan.stmt base).accepted = true := by
  obtain ⟨htenant, hkey⟩ := hw.texts
  rw [← w.tenant_target] at htenant
  cases hplan with
  | @insert s hown hs =>
      rw [hs.stmt_eq]
      simp only [Stmt.accepted, Bool.and_eq_true]
      cases w with
      | put key value authority expected now =>
          obtain rfl := Except.ok.inj hs
          exact ⟨⟨⟨htenant, hw.2.2.1⟩, hkey⟩, hw.2.2.2⟩
      | patch key patch authority e now => exact hs.elim
      | delete key authority e => exact hs.elim
  | @update cur next hown he hnext =>
      obtain ⟨hcurkey, howner, hvalue, hhold⟩ := w.exists_row_of_own hrows hdec hown
      have hnextvalue : jsonbAccepted next.value.value = true := by
        cases w with
        | put key value authority expected now =>
            obtain rfl := Except.ok.inj hnext
            exact hw.2.2.2
        | patch key patch authority e now =>
            obtain ⟨merged, hmerged, rfl⟩ := Setting.applyPartial_eq_ok_iff.1 hnext
            rw [SettingValue.new_eq_ok_iff.1 hmerged]
            obtain rfl := Option.some.inj he
            exact (hw.2.2 hhold).mergePatch cur.value.isObject patch.isObject hvalue
        | delete key authority e => exact hnext.elim
      rw [Plan.stmt, hnext.eq.1, hnext.eq.2, hcurkey, howner]
      simp only [Stmt.accepted, Bool.and_eq_true]
      exact ⟨⟨⟨hnextvalue, htenant⟩, hhold.user⟩, hkey⟩
  | @delete cur hown he hd =>
      obtain ⟨-, howner, -, hhold⟩ := w.exists_row_of_own hrows hdec hown
      rw [Plan.stmt, howner]
      simp only [Stmt.accepted, Bool.and_eq_true]
      exact ⟨⟨htenant, hhold.user⟩, hkey⟩

/-- A query is a text of Postgres exactly when its pattern is. -/
theorem textAccepted_pattern (query : String) :
    textAccepted (pattern query) = textAccepted query := by
  have hpercent : "%".toList = ['%'] := rfl
  rw [pattern, textAccepted, textAccepted, String.toList_append, String.toList_append, hpercent]
  simp

theorem Write.Storable.safe {w : Write} (hw : w.Storable) : Safe (w.prog base) := by
  rw [Write.prog_eq]
  refine ⟨by simp [Stmt.accepted, hw.texts], fun r hr => ?_⟩
  rcases r with e | rows
  · exact hr.elim
  · have hdecision := (NotInternal.mapM (NotInternal.intoDomain base) rows).bind
      (NotInternal.decide w)
    refine w.after_read base (fun e he => ?_) fun settings plan hdec hplan =>
      Plan.safe (hw.accepted hr hdec hplan)
    exact safe_pure (NotInternal.retype (he ▸ hdecision))

/-- **A request whose parameters are without U+0000 is safe.** -/
theorem Request.Storable.safe {q : Request} (hq : q.Storable) : Safe (q.prog base) := by
  cases q with
  | get key authority =>
      rw [Request.prog_get]
      refine ⟨by simp [Stmt.accepted, hq.1, hq.2], fun r hr => ?_⟩
      rcases r with e | rows
      · exact hr.elim
      · refine safe_pure (.map (.bind ?_ fun settings => .readable authority settings) _)
        exact NotInternal.mapM (NotInternal.intoDomain base) rows
  | search query authority pagination =>
      rw [Request.prog_search]
      refine ⟨?_, fun r hr => ?_⟩
      · simp only [Stmt.accepted, textAccepted_pattern, Bool.and_eq_true]
        exact ⟨⟨hq.1, hq.2.1⟩, hq.2.2⟩
      · rcases r with e | rows
        · exact hr.elim
        · exact safe_pure ((NotInternal.collectPage base rows _).map _)
  | write w => exact Write.Storable.safe hq

/-! ### Runs -/

/-- The call is made on a table in which no version has reached the largest `INTEGER`. -/
def RoomLeft (_ : List (Event Stmt Stmt.Ret Table Request))
    (e : Event Stmt Stmt.Ret Table Request) : Prop := e.before.HasRoom

/-- **The request never ends in the internal error**: in no run, from any table, with any other
requests and in any order of the statements, as long as the versions have room. -/
def NeverInternal (pg : Postgres) (base : Anchor) (q : Request) : Prop :=
  ∀ (T : Table) (reqs : List Request) (c : Snapshot Stmt Stmt.Ret Table Request Result),
    T.NulFree → Reachable pg.exec RoomLeft (Snapshot.init T (Request.prog base) reqs) c →
      ∀ p ∈ c.procs, p.req = q → p.prog ≠ .pure (.error .internal)

/-- A request that Postgres can store never ends in the internal error. -/
theorem Request.Storable.neverInternal
    (hpg : ∀ v, jsonbAccepted v = true → jsonbAccepted (pg.jsonb v) = true) {q : Request}
    (hq : q.Storable) : NeverInternal pg base q := by
  intro T reqs c hT hc p hp hreq hend
  have hsafe : Safe p.prog := by
    refine hc.ensures (I := Table.NulFree) (Q := fun q' => q' = q) hT
      (fun s T hT => hT.exec hpg s) ?_ ?_ hp hreq
    · intro hist T i p s hT ha hroom
      exact Table.NulFree.answers hT hroom ha
    · rintro q' - rfl
      exact hq.safe
  rw [hend] at hsafe
  exact hsafe rfl

section Refused

variable {q : Request} {T : Table}

theorem Table.HasRoom.roomLeft (hroom : T.HasRoom)
    (hist : List (Event Stmt Stmt.Ret Table Request)) (e : Event Stmt Stmt.Ret Table Request)
    (he : e.before = T) : RoomLeft hist e := by
  rw [RoomLeft, he]
  exact hroom

/-- A request that never ends in the internal error does not do so alone. -/
theorem NeverInternal.not_alone (h : NeverInternal pg base q) (hT : T.NulFree) :
    ¬ Alone pg.exec RoomLeft (Request.prog base) T q (.pure (.error .internal)) := by
  rintro ⟨m, hist, hc⟩
  exact h T [q] _ hT hc _ (List.mem_singleton_self _) rfl rfl

/-- Postgres takes the statement a request comes to alone, if its refusal is an internal error. -/
theorem NeverInternal.accepted (h : NeverInternal pg base q) (hT : T.NulFree) (hroom : T.HasRoom)
    {s : Stmt} {k : s.Ret → Prog Stmt Stmt.Ret Result}
    (hk : k (.error .database) = .pure (.error .internal))
    (halone : Alone pg.exec RoomLeft (Request.prog base) T q (.call s k)) : s.accepted = true := by
  by_contra ha
  have hexec := pg.exec_of_not_accepted ha T
  have hend := halone.call hroom.roomLeft (congrArg Prod.snd hexec)
  rw [congrArg Prod.fst hexec, hk] at hend
  exact h.not_alone hT hend

/-- Postgres takes the first statement of the request. -/
theorem NeverInternal.accepted_first (h : NeverInternal pg base q) {s : Stmt}
    {k : s.Ret → Prog Stmt Stmt.Ret Result} (hq : q.prog base = .call s k)
    (hk : k (.error .database) = .pure (.error .internal)) : s.accepted = true :=
  h.accepted Table.nulFree_empty Table.hasRoom_empty hk (hq ▸ Alone.start Table.empty q)

/-- A statement that Postgres refuses is an internal error. -/
theorem Plan.exists_prog_refused (base : Anchor) (plan : Plan) :
    ∃ k, plan.prog base = .call (plan.stmt base) k ∧
      k (.error .database) = .pure (.error .internal) := by
  cases plan with
  | insert s => exact ⟨_, rfl, rfl⟩
  | update next expected => exact ⟨_, rfl, rfl⟩
  | delete key ownership expected => exact ⟨_, rfl, rfl⟩

/-- Postgres takes the statement a write decides on. -/
theorem NeverInternal.accepted_plan {w : Write} (h : NeverInternal pg base (.write w))
    (hT : T.NulFree) (hroom : T.HasRoom) {settings : List Setting}
    (hfound : Repo.found base pg T w.key w.authority.tenant = .ok settings) {plan : Plan}
    (hplan : w.Decides settings plan) : (plan.stmt base).accepted = true := by
  obtain ⟨k, hprog, hk⟩ := plan.exists_prog_refused base
  refine h.accepted hT hroom hk ?_
  have hstart : Alone pg.exec RoomLeft (Request.prog base) T (Request.write w) (w.prog base) :=
    Alone.start T (Request.write w)
  rw [w.prog_eq] at hstart
  have hread := hstart.call hroom.roomLeft (Postgres.exec_find_snd _ _ T)
  change Alone _ _ _ _ _ (Plan.progOf base
    (Repo.found base pg T w.key w.authority.tenant >>= w.decide)) at hread
  rw [hfound] at hread
  change Alone _ _ _ _ _ (Plan.progOf base (w.decide settings)) at hread
  rw [Write.decide_eq_ok_iff.2 hplan] at hread
  exact hprog ▸ hread

/-- Postgres takes the read of a write. -/
theorem NeverInternal.accepted_read {w : Write} (h : NeverInternal pg base (.write w)) :
    (Stmt.find w.authority.tenant.asStr w.key.asStr).accepted = true :=
  h.accepted_first (w.prog_eq base) rfl

end Refused

/-! ### What a request that never ends in the internal error binds -/

section Binds

variable {key : SettingKey} {value : SettingValue} {authority : Authority} {now : Instant}

/-- A `PUT` under a free key stores the value as it is. -/
theorem NeverInternal.storable_put {expected : Option ℕ}
    (h : NeverInternal pg base (.write (.put key value authority expected now))) :
    (Write.put key value authority expected now).Storable := by
  have hread := h.accepted_read
  have hdec : ∀ r ∈ Table.empty.rows, Repo.Under authority.tenant key r →
      ∃ s, r.intoDomain base = .ok s := by
    intro r hr
    exact absurd hr List.not_mem_nil
  obtain ⟨settings, hfound⟩ := Repo.exists_found_iff.2 ⟨hread, hdec⟩
  have hown : (Write.put key value authority expected now).own settings = none := by
    refine Option.eq_none_iff_forall_ne_some.2 fun s hs => ?_
    obtain ⟨-, r, _, hr, -, -⟩ := (Write.own_eq_some_iff hfound).1 hs
    cases hr
  have hinsert := h.accepted_plan Table.nulFree_empty Table.hasRoom_empty hfound (.insert hown rfl)
  simp only [Plan.stmt, Stmt.accepted, Bool.and_eq_true] at hread hinsert
  exact ⟨hread.1, hread.2, hinsert.1.1.2, hinsert.2⟩

/-- The value `{}`. -/
def emptyValue : SettingValue := ⟨emptyObject, rfl, by decide⟩

/-- The row of an ownership under a key with the value `{}`. -/
def Ownership.emptyRow (o : Ownership) (key : SettingKey) (version : ℕ) : SettingRecord :=
  ⟨o.tenant.asStr, o.userColumn, key.asStr, emptyObject, version, 0⟩

/-- The table with this row only. -/
def Ownership.emptyRowTable (o : Ownership) (key : SettingKey) (version : ℕ)
    (hversion : (version : ℤ) ≤ i32Max) : Table where
  rows := [o.emptyRow key version]
  unique := List.nodup_singleton _
  range := by
    intro r hr
    rw [List.mem_singleton.1 hr, i32Max]
    simp only [Ownership.emptyRow]
    rw [i32Max] at hversion
    omega

/-- The empty object is patched to a value that is accepted. -/
theorem exists_merge_empty (patch : SettingValue) :
    ∃ merged, emptyValue.merge patch = .ok merged := by
  refine SettingValue.exists_new_eq_ok_iff.2 ?_
  obtain ⟨⟨json, hsorted⟩, hobject, hsmall⟩ := patch
  cases json with
  | object p =>
      exact ⟨rfl, (Json.size_mergePatch_nil (Json.isSorted_object.1 hsorted).1).trans hsmall⟩
  | _ => exact absurd hobject (by simp [Value.isObject, Json.isObject])

/-- A patch that brings no U+0000 into the empty object brings none into any other. -/
theorem addsNoNul_of_merge_empty {patch merged : SettingValue}
    (hmerged : emptyValue.merge patch = .ok merged) (hnul : jsonbAccepted merged.value = true) :
    patch.value.AddsNoNul := by
  rw [SettingValue.new_eq_ok_iff.1 hmerged, jsonbAccepted, Bool.not_eq_true'] at hnul
  obtain ⟨⟨json, hsorted⟩, hobject, hsmall⟩ := patch
  cases json with
  | object p =>
      intro m hm hv
      have hp := (Json.isSorted_object.1 hsorted).1
      exact Json.hasNul_object_iff.1 hnul m ((Json.mem_mergeMembers_nil hp).2 ⟨hm, hv⟩)
  | _ => exact absurd hobject (by simp [Value.isObject, Json.isObject])

/-- A `PATCH` of the value `{}` stores the members of the patch that are not `null`. -/
theorem NeverInternal.storable_patch {expected : ℕ}
    (h : NeverInternal pg base (.write (.patch key value authority expected now))) :
    (Write.patch key value authority expected now).Storable := by
  have hread := h.accepted_read
  have htexts : textAccepted authority.tenant.asStr = true ∧ textAccepted key.asStr = true := by
    rwa [Stmt.accepted, Bool.and_eq_true] at hread
  refine ⟨htexts.1, htexts.2, fun hhold => ?_⟩
  obtain ⟨merged, hmerged⟩ := exists_merge_empty value
  -- the only row is the one of the scope, at the version that the caller presents
  have hT : (authority.scopeOwnership.emptyRowTable key expected hhold.room.le).NulFree := by
    intro r hr
    rw [List.mem_singleton.1 hr]
    refine ⟨?_, hhold.user, htexts.2, rfl⟩
    rw [Ownership.emptyRow, Authority.tenant_scopeOwnership]
    exact htexts.1
  have hroom : (authority.scopeOwnership.emptyRowTable key expected hhold.room.le).HasRoom := by
    intro r hr
    rw [List.mem_singleton.1 hr]
    exact hhold.room
  have hdec : ∀ r ∈ (authority.scopeOwnership.emptyRowTable key expected hhold.room.le).rows,
      Repo.Under authority.tenant key r → ∃ s, r.intoDomain base = .ok s := by
    intro r hr hunder
    have hvalue : r.value = emptyValue.value := by
      rw [List.mem_singleton.1 hr]
      rfl
    exact exists_intoDomain hunder.2 hvalue
  obtain ⟨settings, hfound⟩ := Repo.exists_found_iff.2 ⟨hread, hdec⟩
  have hown := (Write.own_eq_some_iff hfound).2 ⟨hhold.stored,
    authority.scopeOwnership.emptyRow key expected, emptyValue,
    Table.row?_eq_some_iff.2 ⟨List.mem_singleton_self _, rfl⟩, SettingValue.new_eq_ok_iff.2 rfl,
    rfl⟩
  have hversion : (max (expected : ℤ) 1).toNat = expected := by
    have := hhold.pos
    omega
  have hplan := Write.Decides.update hown (congrArg some hversion.symm)
    (Setting.applyPartial_eq_ok_iff.2 ⟨merged, hmerged, rfl⟩)
  have hupdate := h.accepted_plan hT hroom hfound hplan
  simp only [Plan.stmt, Stmt.accepted, Bool.and_eq_true] at hupdate
  exact addsNoNul_of_merge_empty hmerged hupdate.1.1.1

end Binds

/-- A request that never ends in the internal error is one that Postgres can store. -/
theorem NeverInternal.storable {q : Request} (h : NeverInternal pg base q) : q.Storable := by
  cases q with
  | get key authority =>
      have hfind := h.accepted_first (Request.prog_get key authority) rfl
      rwa [Stmt.accepted, Bool.and_eq_true] at hfind
  | search query authority pagination =>
      have hsearch := h.accepted_first (Request.prog_search query authority pagination) rfl
      simp only [Stmt.accepted, textAccepted_pattern, Bool.and_eq_true, and_assoc] at hsearch
      exact hsearch
  | write w =>
      cases w with
      | put key value authority expected now => exact h.storable_put
      | patch key value authority e now => exact h.storable_patch
      | delete key authority e =>
          have hfind := h.accepted_read
          rwa [Stmt.accepted, Bool.and_eq_true] at hfind

/-- **Requests never end in the internal error exactly when what they bind is without U+0000.**
Whatever the value objects refuse is an invalid key or an invalid value. -/
theorem neverInternal_iff
    (hpg : ∀ v, jsonbAccepted v = true → jsonbAccepted (pg.jsonb v) = true) (base : Anchor) :
    (∀ q : Request, NeverInternal pg base q ↔ q.Storable) ∧
      (∀ s e, SettingKey.new s = .error e → e = .invalidKey) ∧
      ∀ v e, SettingValue.new v = .error e → e = .invalidValue := by
  refine ⟨fun q => ⟨fun h => h.storable, fun hq => hq.neverInternal hpg⟩, fun s e he => ?_,
    fun v e he => SettingValue.new_eq_error he⟩
  rw [SettingKey.new] at he
  split_ifs at he
  exact (Except.error.inj he).symm

theorem neverInternal_ofJsonb :
    (∀ q : Request, NeverInternal (Postgres.ofJsonb id) ⟨0, 0⟩ q ↔ q.Storable) ∧
      (∀ s e, SettingKey.new s = .error e → e = .invalidKey) ∧
      ∀ v e, SettingValue.new v = .error e → e = .invalidValue :=
  neverInternal_iff (fun _ hv => hv) ⟨0, 0⟩

/-- A key with a U+0000. -/
def nulKey : SettingKey := ⟨"a\x00b", by decide, by decide, by decide⟩

/-- **A valid key can end in the internal error**: the one with a U+0000 is accepted as a key, and
not as a text of Postgres. -/
theorem not_neverInternal :
    ¬ ∀ (pg : Postgres), (∀ v, jsonbAccepted v = true → jsonbAccepted (pg.jsonb v) = true) →
      ∀ (base : Anchor) (s : String) (key : SettingKey), SettingKey.new s = .ok key →
        NeverInternal pg base (.get key Sample.alice) := by
  intro h
  have hget := h (Postgres.ofJsonb id) (fun _ hv => hv) ⟨0, 0⟩ "a\x00b" nulKey
    (SettingKey.new_asStr nulKey)
  exact absurd hget.storable.2 (by decide)

end SettingsService
