import SettingsService.ConditionalWrites
import SettingsService.ReadWrite
import SettingsService.WriteTraces

/-!
# Races for one row

Writes of one row in flight, each of which would succeed if it ran alone.  The row stays as it was
until one of their statements takes effect; from then on it has another version, and the statement
of no other matches it.  So exactly one of them succeeds, and the others are told of a conflict.

Main definitions:

* `Write.Contends` — a write would succeed alone, and presents the version of its row;
* `Write.Bids` — with what it decides as long as the row is as it was;
* `Won` — the row has been written since;
* `Standing` — the row at some moment of a race;
* `OneWinner` — one of the writes succeeds, the others lose.

Main results:

* `Write.Bids.plan_again` — whenever it reads, a contender decides on the same statement;
* `standing` — the row has not been written, or it has been written once;
* `exists_winner` — **of the writes that race for a row exactly one succeeds**.
-/

set_option relaxedAutoImplicit false
set_option autoImplicit false

namespace SettingsService

open Interaction (Prog Snapshot Reachable Answered own)
open Interaction.Prog (Follows)
open OptimisticLock (Change Run)

variable {pg : Postgres} {base : Anchor} {T₀ T : Table} {w : Write} {id : Identity}

/-- An accepted `INSERT` of an identity that is taken. -/
theorem Postgres.exec_insert_of_taken {tenant key : String} {user : Option String} {value : Value}
    {updatedAt : ℤ} {r : SettingRecord}
    (ha : (Stmt.insert tenant user key value updatedAt).accepted = true)
    (hr : T.row? (tenant, user.getD "", key) = some r) :
    (pg.exec (.insert tenant user key value updatedAt) T).1 = .ok none := by
  rw [exec_of_accepted ha, execAccepted, Table.insertRow]
  simp [SettingRecord.identity, hr]

/-! ### Contenders -/

/-- **A write contends** for the row of its identity: it would succeed alone, is no removal, and
presents a version only of a row that is there. -/
structure Write.Contends (pg : Postgres) (base : Anchor) (T₀ : Table) (w : Write) : Prop where
  alone : ∃ reply, (w.alone pg base T₀).1 = .ok reply
  keeps : ¬ w.Deletes
  presents : w.expected.isSome = true → (T₀.row? w.identity).isSome = true

/-- The row has been written: it is there, at another version. -/
def Won (T₀ T : Table) (id : Identity) : Prop :=
  ∃ r, T.row? id = some r ∧ 1 ≤ r.version ∧ ∀ r₀, T₀.row? id = some r₀ → r.version ≠ r₀.version

/-- The error of a write that loses. -/
def Loses (T₀ : Table) (id : Identity) (e : SettingsError) : Prop :=
  e = .versionConflict ∨ T₀.row? id = none ∧ e = .conflict

/-- What a write takes for its own setting depends only on its row. -/
theorem Write.own_congr {settings₀ settings : List Setting}
    (hfound₀ : Repo.found base pg T₀ w.key w.authority.tenant = .ok settings₀)
    (hfound : Repo.found base pg T w.key w.authority.tenant = .ok settings)
    (hrow : T.row? w.identity = T₀.row? w.identity) : w.own settings = w.own settings₀ := by
  refine Option.ext fun s => ?_
  rw [Write.own_eq_some_iff hfound, Write.own_eq_some_iff hfound₀, hrow]

/-- What a write decides depends only on its own setting. -/
theorem Write.Decides.congr {settings settings' : List Setting} {plan : Plan}
    (h : w.Decides settings plan) (hown : w.own settings' = w.own settings) :
    w.Decides settings' plan := by
  cases h with
  | insert h hs => exact .insert (hown.trans h) hs
  | update h he hnext => exact .update (hown.trans h) he hnext
  | delete h he hw => exact .delete (hown.trans h) he hw

/-- What the statement of a decision changes depends only on the row. -/
theorem Write.Decides.change_congr {settings : List Setting} {plan : Plan}
    (hfound : Repo.found base pg T₀ w.key w.authority.tenant = .ok settings)
    (h : w.Decides settings plan) (hrow : T.row? w.identity = T₀.row? w.identity) :
    (plan.stmt base).change (pg.exec (plan.stmt base) T).1 =
      (plan.stmt base).change (pg.exec (plan.stmt base) T₀).1 := by
  refine Option.ext fun d => ?_
  change T.row? (w.target.tenant.asStr, w.target.userColumn.getD "", w.key.asStr) = _ at hrow
  cases h with
  | insert hown hs => rw [hs.stmt_eq, change_insert_iff, change_insert_iff, hrow]; rfl
  | update hown he hnext =>
      rw [hnext.stmt_eq hfound hown, change_update_iff, change_update_iff, hrow]; rfl
  | delete hown he hw =>
      rw [Write.delete_stmt_eq hfound hown, change_delete_iff, change_delete_iff, hrow]; rfl

section Contends

variable {settings₀ settings : List Setting} {plan₀ plan : Plan}
  {d : Change Identity SettingRecord}

/-- What a contender decides, and the change of its statement, where the row is as it was. -/
structure Write.Bids (pg : Postgres) (base : Anchor) (T₀ : Table) (w : Write)
    (settings₀ : List Setting) (plan₀ : Plan) (d : Change Identity SettingRecord) : Prop
    extends w.Contends pg base T₀ where
  found : Repo.found base pg T₀ w.key w.authority.tenant = .ok settings₀
  decides : w.Decides settings₀ plan₀
  change : (plan₀.stmt base).change (pg.exec (plan₀.stmt base) T₀).1 = some d

theorem Write.Contends.exists_bids (h : w.Contends pg base T₀) :
    ∃ settings₀ plan₀ d, w.Bids pg base T₀ settings₀ plan₀ d := by
  obtain ⟨reply, hreply⟩ := h.alone
  rcases w.alone_cases pg base T₀ with ⟨settings, plan, d, hfound, hplan, hd, -⟩ | ⟨-, e, he⟩
  · exact ⟨settings, plan, d, h, hfound, hplan, hd⟩
  · rw [he] at hreply
    cases hreply

/-- The rows of the tenant and key can be read, whenever all rows decode. -/
theorem Write.Bids.exists_found (h : w.Bids pg base T₀ settings₀ plan₀ d)
    (hT : T.Decodable base) :
    ∃ settings, Repo.found base pg T w.key w.authority.tenant = .ok settings :=
  Repo.exists_found_iff.2
    ⟨(Repo.exists_found_iff.1 ⟨settings₀, h.found⟩).1, fun r hr _ => hT r hr⟩

/-- A contender whose row was there has found it, at the version it presents. -/
theorem Write.Bids.exists_own (h : w.Bids pg base T₀ settings₀ plan₀ d) {r₀ : SettingRecord}
    (hr₀ : T₀.row? w.identity = some r₀) :
    ∃ cur, w.own settings₀ = some cur ∧ w.expected = some cur.version ∧
      r₀.version = cur.version := by
  obtain ⟨⟨-, hkeeps, -⟩, hfound₀, hplan₀, hd⟩ := h
  cases hplan₀ with
  | insert hown hs =>
      rw [hs.stmt_eq] at hd
      exact absurd ((change_insert_iff.1 hd).2.1.symm.trans hr₀) (by simp)
  | @update cur next hown he hnext =>
      rw [hnext.stmt_eq hfound₀ hown] at hd
      obtain ⟨-, -, r, hr, hv, -⟩ := change_update_iff.1 hd
      obtain rfl := Option.some.inj (hr.symm.trans hr₀)
      exact ⟨cur, hown, he, hv⟩
  | delete hown he hw => exact absurd hw hkeeps

/-- A version that a contender presents is the one of its row. -/
theorem Write.Bids.expected_eq (h : w.Bids pg base T₀ settings₀ plan₀ d) {v : ℕ}
    (hv : w.expected = some v) : ∃ r₀, T₀.row? w.identity = some r₀ ∧ r₀.version = v := by
  obtain ⟨r₀, hr₀⟩ := Option.isSome_iff_exists.1 (h.presents (by rw [hv]; rfl))
  obtain ⟨cur, -, he, hcur⟩ := h.exists_own hr₀
  rw [hv, Option.some.injEq] at he
  exact ⟨r₀, hr₀, he ▸ hcur⟩

/-- Once the row has been written, a contender's own setting has another version than it
presents. -/
theorem Write.Bids.stale (h : w.Bids pg base T₀ settings₀ plan₀ d)
    (hfound : Repo.found base pg T w.key w.authority.tenant = .ok settings)
    (hwon : Won T₀ T w.identity) {cur : Setting} (hown : w.own settings = some cur) :
    w.expected ≠ some cur.version := by
  intro he
  obtain ⟨r₀, hr₀, hv₀⟩ := h.expected_eq he
  obtain ⟨r, hr, hpos, hne⟩ := hwon
  obtain ⟨-, r', value, hr', -, rfl⟩ := (Write.own_eq_some_iff hfound).1 hown
  obtain rfl := Option.some.inj (hr.symm.trans hr')
  refine hne r₀ hr₀ ?_
  simp only at hv₀
  omega

/-- Where a contender finds no setting of its own, its row was not there. -/
theorem Write.Bids.absent (h : w.Bids pg base T₀ settings₀ plan₀ d)
    (hfound : Repo.found base pg T w.key w.authority.tenant = .ok settings) (hT : T.Decodable base)
    (hwon : Won T₀ T w.identity) (hown : w.own settings = none) : T₀.row? w.identity = none := by
  refine Option.eq_none_iff_forall_ne_some.2 fun r₀ hr₀ => ?_
  obtain ⟨cur, hcur, -⟩ := h.exists_own hr₀
  obtain ⟨hstored, -⟩ := (Write.own_eq_some_iff h.found).1 hcur
  obtain ⟨r, hr, -⟩ := hwon
  obtain ⟨s, hs⟩ := hT r (Table.row?_eq_some_iff.1 hr).1
  obtain ⟨_, value, -, hvalue, -⟩ := SettingRecord.intoDomain_eq_ok_iff.1 hs
  rw [(Write.own_eq_some_iff hfound).2 ⟨hstored, r, value, hr, hvalue, rfl⟩] at hown
  cases hown

/-- **Whenever it reads, a contender takes the same setting for its own**, or one that has another
version than it presents. -/
theorem Write.Bids.own_cases (h : w.Bids pg base T₀ settings₀ plan₀ d)
    (hfound : Repo.found base pg T w.key w.authority.tenant = .ok settings) (hT : T.Decodable base)
    (hrow : T.row? w.identity = T₀.row? w.identity ∨ Won T₀ T w.identity) :
    w.own settings = w.own settings₀ ∨ Won T₀ T w.identity ∧
      ∃ cur, w.own settings = some cur ∧ w.expected ≠ some cur.version := by
  rcases hrow with hrow | hwon
  · exact .inl (Write.own_congr h.found hfound hrow)
  · cases hown : w.own settings with
    | none =>
        have hnone := h.absent hfound hT hwon hown
        refine .inl (Option.eq_none_iff_forall_ne_some.2 fun cur hcur => ?_).symm
        obtain ⟨-, r, -, hr, -⟩ := (Write.own_eq_some_iff h.found).1 hcur
        exact absurd (hnone.symm.trans hr) (by simp)
    | some cur => exact .inr ⟨hwon, cur, rfl, h.stale hfound hwon hown⟩

/-- So it decides on the same statement, or on none. -/
theorem Write.Bids.plan_again (h : w.Bids pg base T₀ settings₀ plan₀ d)
    (hfound : Repo.found base pg T w.key w.authority.tenant = .ok settings) (hT : T.Decodable base)
    (hrow : T.row? w.identity = T₀.row? w.identity ∨ Won T₀ T w.identity)
    (hplan : w.Decides settings plan) : plan = plan₀ := by
  rcases h.own_cases hfound hT hrow with hown | ⟨-, cur, hown, hne⟩
  · exact Except.ok.inj ((Write.decide_eq_ok_iff.2 (hplan.congr hown.symm)).symm.trans
      (Write.decide_eq_ok_iff.2 h.decides))
  · cases hplan with
    | insert hown' hs => exact absurd (hown.symm.trans hown') (by simp)
    | update hown' he hnext =>
        obtain rfl := Option.some.inj (hown.symm.trans hown')
        exact absurd he hne
    | delete hown' he hw => exact absurd hw h.keeps

/-- A contender is refused only once the row has been written, and then it loses. -/
theorem Write.Bids.refused (h : w.Bids pg base T₀ settings₀ plan₀ d) (hT : T.Decodable base)
    (hrow : T.row? w.identity = T₀.row? w.identity ∨ Won T₀ T w.identity) {e : SettingsError}
    (he : Repo.found base pg T w.key w.authority.tenant >>= w.decide = .error e) :
    Won T₀ T w.identity ∧ e = .versionConflict := by
  obtain ⟨settings, hfound⟩ := h.exists_found hT
  rw [hfound] at he
  change w.decide settings = _ at he
  rcases h.own_cases hfound hT hrow with hown | ⟨hwon, cur, hown, hne⟩
  · rw [Write.decide_eq_ok_iff.2 (h.decides.congr hown)] at he
    cases he
  · rw [Write.decide_of_stale hown hne] at he
    exact ⟨hwon, (Except.error.inj he).symm⟩

/-- The change that the statement of a contender makes where the row is as it was. -/
theorem Write.Bids.change_eq (h : w.Bids pg base T₀ settings₀ plan₀ d)
    (hrow : T.row? w.identity = T₀.row? w.identity) :
    (plan₀.stmt base).change (pg.exec (plan₀.stmt base) T).1 = some d :=
  (h.decides.change_congr h.found hrow).trans h.change

/-- What is left of a write whose statement misses a row that was written: an error, or the check
for the row. -/
inductive Missed (T₀ : Table) (w : Write) : Prog Stmt Stmt.Ret Result → Prop
  | failed {e : SettingsError} (he : Loses T₀ w.identity e) : Missed T₀ w (.pure (.error e))
  | checks
      (ha : (Stmt.count w.target.tenant.asStr w.target.userColumn w.key.asStr).accepted = true) :
      Missed T₀ w (Plan.check w.key w.target)

/-- **Once the row has been written, the statement of a contender misses it.** -/
theorem Write.Bids.missed (h : w.Bids pg base T₀ settings₀ plan₀ d) (hwon : Won T₀ T w.identity)
    {k : (plan₀.stmt base).Ret → Prog Stmt Stmt.Ret Result}
    (hk : plan₀.prog base = .call (plan₀.stmt base) k) :
    (plan₀.stmt base).change (pg.exec (plan₀.stmt base) T).1 = none ∧
      Missed T₀ w (k (pg.exec (plan₀.stmt base) T).1) := by
  obtain ⟨⟨-, hkeeps, -⟩, hfound₀, hplan₀, hd⟩ := h
  obtain ⟨r, hr, hpos, hne⟩ := hwon
  cases hplan₀ with
  | @insert s hown hs =>
      rw [hs.stmt_eq] at hd
      obtain ⟨ha, hrow, -⟩ := change_insert_iff.1 hd
      have hexec : (pg.exec ((Plan.insert s).stmt base) T).1 = .ok none := by
        change (pg.exec (.insert s.ownership.tenant.asStr s.ownership.userColumn s.key.asStr
          s.value.value (instantToMillis base s.updatedAt)) T).1 = _
        rw [hs.eq.1, hs.eq.2]
        exact Postgres.exec_insert_of_taken ha hr
      obtain rfl := eq_of_heq (Prog.call.inj hk).2
      rw [hexec]
      exact ⟨rfl, .failed (.inr ⟨hrow, rfl⟩)⟩
  | @update cur next hown he hnext =>
      rw [hnext.stmt_eq hfound₀ hown] at hd
      obtain ⟨ha, -, r₀, hr₀, hv, -⟩ := change_update_iff.1 hd
      obtain ⟨-, _, _, -, -, hcur⟩ := (Write.own_eq_some_iff hfound₀).1 hown
      have hkey : next.key = w.key := by rw [hnext.eq.1, hcur]
      have ho : next.ownership = w.target := by rw [hnext.eq.2, hcur]
      have hstale : ∀ r', T.row? w.identity = some r' → r'.version ≠ cur.version := by
        rintro r' hr' hv'
        obtain rfl := Option.some.inj (hr.symm.trans hr')
        exact hne r₀ hr₀ (hv'.trans hv.symm)
      have hexec : (pg.exec ((Plan.update next cur.version).stmt base) T).1 = .ok none := by
        change (pg.exec (.update next.value.value (instantToMillis base next.updatedAt)
          next.ownership.tenant.asStr next.ownership.userColumn next.key.asStr
          (asI32 cur.version)) T).1 = _
        rw [hkey, ho, (Write.version_own hfound₀ hown).2,
          Postgres.exec_update_of_stale ha hstale]
        rfl
      obtain rfl := eq_of_heq (Prog.call.inj hk).2
      rw [hexec]
      refine ⟨rfl, ?_⟩
      change Missed T₀ w (Plan.check next.key next.ownership)
      rw [hkey, ho]
      simp only [Stmt.accepted, Bool.and_eq_true] at ha
      refine .checks ?_
      simp only [Stmt.accepted, Bool.and_eq_true]
      exact ⟨⟨ha.1.1.2, ha.1.2⟩, ha.2⟩
  | delete hown he hw => exact absurd hw hkeeps

theorem Write.Bids.key_eq (h : w.Bids pg base T₀ settings₀ plan₀ d) : d.key = w.identity :=
  (h.decides.makes h.found h.change).key_eq

/-- **While its row is as it was, the statement of a contender writes it.** -/
theorem Write.Bids.wins (h : w.Bids pg base T₀ settings₀ plan₀ d)
    (hrow : T.row? w.identity = T₀.row? w.identity) :
    ∃ r, d.content = some r ∧ (pg.exec (plan₀.stmt base) T).2.row? w.identity = some r ∧
      Won T₀ (pg.exec (plan₀.stmt base) T).2 w.identity := by
  have hchange := h.change_eq hrow
  have heff := Postgres.effective_of_change hchange
  have hkey := h.key_eq
  obtain ⟨⟨-, hkeeps, -⟩, hfound₀, hplan₀, hd⟩ := h
  -- what the change writes is at another version than the row had
  have hnew : ∃ r, d.content = some r ∧ 1 ≤ r.version ∧
      ∀ r₀, T₀.row? w.identity = some r₀ → r.version ≠ r₀.version := by
    cases hplan₀ with
    | @insert s hown hs =>
        rw [hs.stmt_eq] at hd
        obtain ⟨-, hnone, rfl⟩ := change_insert_iff.1 hd
        refine ⟨_, rfl, by simp [Postgres.inserted], fun r₀ hr₀ => ?_⟩
        exact absurd (hnone.symm.trans hr₀) (by simp)
    | @update cur next hown he hnext =>
        rw [hnext.stmt_eq hfound₀ hown] at hd
        obtain ⟨-, -, r₀, hr₀, hv, rfl⟩ := change_update_iff.1 hd
        have hpos := (Write.version_own hfound₀ hown).1
        refine ⟨_, rfl, by simp only [SettingRecord.rewrite]; omega, fun r₁ hr₁ => ?_⟩
        obtain rfl := Option.some.inj (hr₀.symm.trans hr₁)
        simp only [SettingRecord.rewrite]
        omega
    | delete hown he hw => exact absurd hw hkeeps
  obtain ⟨r, hr, hpos, hne⟩ := hnew
  obtain ⟨v, hv⟩ := heff.of_content hr
  have hafter := (Table.view_eq_some_iff.1 (hkey ▸ hv)).1
  exact ⟨r, hr, hafter, r, hafter, hpos, hne⟩

theorem Missed.of_pure {p : Prog Stmt Stmt.Ret Result} (h : Missed T₀ w p) {x : Result}
    (hp : p = .pure x) : ∃ e, x = .error e ∧ Loses T₀ w.identity e := by
  cases h with
  | failed he => exact ⟨_, (Prog.pure.inj hp).symm, he⟩
  | checks ha => cases hp

variable (pg) in
/-- The check of a write finds the row that has been written. -/
theorem Missed.of_check {p : Prog Stmt Stmt.Ret Result} (h : Missed T₀ w p) {key : SettingKey}
    {ownership : Ownership} (hp : p = Plan.check key ownership) (hwon : Won T₀ T w.identity) :
    ∃ n : ℤ, 0 < n ∧ (pg.exec (.count ownership.tenant.asStr ownership.userColumn key.asStr) T).1 =
      .ok n := by
  cases h with
  | failed he => cases hp
  | checks ha =>
      obtain ⟨htenant, huser, hkey⟩ := Stmt.count.inj (Prog.call.inj hp).1
      rw [← htenant, ← huser, ← hkey]
      obtain ⟨r, hr, -⟩ := hwon
      obtain ⟨n, hn, hpos⟩ := @Postgres.exec_count_eq pg T _ _ _ ha
      exact ⟨n, hpos.2 (Option.isSome_iff_exists.2 ⟨r, hr⟩), hn⟩

/-- **The statement of a contender**: it writes its row and is done, or it misses the row that was
written. -/
theorem Write.Bids.answered (h : w.Bids pg base T₀ settings₀ plan₀ d)
    {k : (plan₀.stmt base).Ret → Prog Stmt Stmt.Ret Result}
    (hk : plan₀.prog base = .call (plan₀.stmt base) k)
    (hrow : T.row? w.identity = T₀.row? w.identity ∨ Won T₀ T w.identity) :
    (plan₀.stmt base).change (pg.exec (plan₀.stmt base) T).1 = some d ∧
        k (pg.exec (plan₀.stmt base) T).1 = .pure (resultOf base d) ∨
      Won T₀ T w.identity ∧ Missed T₀ w (k (pg.exec (plan₀.stmt base) T).1) := by
  rcases hrow with hrow | hwon
  · have hrest := Plan.rest_cases hk (pg.exec (plan₀.stmt base) T).1
    rw [h.change_eq hrow] at hrest
    exact .inl ⟨h.change_eq hrow, hrest.of_some⟩
  · exact .inr ⟨hwon, (h.missed hwon hk).2⟩

end Contends

/-! ### A race -/

/-- The call wrote the row. -/
def Wrote (id : Identity) (e : ServiceEvent) : Prop := (changed e).any (fun d => d.key = id) = true

instance (id : Identity) (e : ServiceEvent) : Decidable (Wrote id e) :=
  inferInstanceAs (Decidable (_ = true))

theorem wrote_iff {e : ServiceEvent} : Wrote id e ↔ ∃ d, changed e = some d ∧ d.key = id := by
  simp [Wrote, Option.any_eq_true]

/-- The request writes the row. -/
def OnRow (id : Identity) (q : Request) : Prop := ∃ w, q = .write w ∧ w.identity = id

/-- **The row at some moment of a race**: it is as it was, or the one call that wrote it left there
what it wrote. -/
inductive Standing (T₀ : Table) (id : Identity) (T : Table) (hist : List ServiceEvent) : Prop
  | idle (hrow : T.row? id = T₀.row? id) (hnone : hist.filter (Wrote id) = [])
  | won {e : ServiceEvent} {d : Change Identity SettingRecord} {r : SettingRecord}
      (hone : hist.filter (Wrote id) = [e]) (hd : changed e = some d) (hr : d.content = some r)
      (hrow : T.row? id = some r) (hwon : Won T₀ T id)

section Race

variable {G : List ServiceEvent → ServiceEvent → Prop} {qs : List Request} {c : ServiceConfig}

theorem Standing.row {hist : List ServiceEvent} (h : Standing T₀ id T hist) :
    T.row? id = T₀.row? id ∨ Won T₀ T id := by
  cases h with
  | idle hrow _ => exact .inl hrow
  | won _ _ _ _ hwon => exact .inr hwon

/-- A call that does not write the row leaves it standing. -/
theorem Standing.snoc_of_not {hist : List ServiceEvent} (h : Standing T₀ id T hist)
    {e : ServiceEvent} (he : ¬ Wrote id e) {T' : Table} (hrow : T'.row? id = T.row? id) :
    Standing T₀ id T' (hist ++ [e]) := by
  have hfilter : (hist ++ [e]).filter (Wrote id) = hist.filter (Wrote id) := by
    simp [List.filter_append, he]
  cases h with
  | idle hidle hnone => exact .idle (hrow.trans hidle) (hfilter.trans hnone)
  | won hone hd hr hrow' hwon =>
      refine .won (hfilter.trans hone) hd hr (hrow.trans hrow') ?_
      obtain ⟨r, hr', hwon⟩ := hwon
      exact ⟨r, hrow.trans hr', hwon⟩

variable (hc : Reachable pg.exec G (Snapshot.init T₀ (Request.prog base) qs) c)
  (hkeeps : ∀ e ∈ c.hist, pg.Keeps e.op) (hT₀ : T₀.Decodable base)
include hc hkeeps hT₀

/-- Every row can be read, at every moment. -/
theorem decodable_tableBefore {n : ℕ} (hn : n ≤ c.hist.length) :
    (tableBefore pg T₀ c.hist n).Decodable base := by
  intro r hr
  have hrun := run_changes hc (Nat.zero_le n) hn
  have hv : (tableBefore pg T₀ c.hist n).view r.identity = some (r.version, r) :=
    Table.view_eq_some_iff.2 ⟨Table.row?_eq_some_iff.2 ⟨hr, rfl⟩, rfl⟩
  rcases hrun.content_mem hv with hv | ⟨d, hd, hdr⟩
  · exact hT₀ r (Table.row?_eq_some_iff.1 (Table.view_eq_some_iff.1 hv).1).1
  · have hsub : d ∈ changes c.hist := by
      have hsub : ((c.hist.take n).drop 0).Sublist c.hist :=
        (List.drop_sublist _ _).trans (List.take_sublist _ _)
      exact (hsub.filterMap changed).subset hd
    exact (readable_of_changes hc hkeeps hsub).1 r hdr

variable (hrace : ∀ w, .write w ∈ qs → w.identity = id → w.Contends pg base T₀)
include hrace

/-- The statement of a call that writes the row is one of a contender, whose row was as it was when
it read, or had been written. -/
theorem exists_bids_of_wrote {n : ℕ} {e : ServiceEvent} (he : c.hist[n]? = some e)
    (hwrote : Wrote id e)
    (hstand : ∀ m < n, Standing T₀ id (tableBefore pg T₀ c.hist m) (c.hist.take m)) :
    ∃ (w : Write) (settings₀ : List Setting) (plan₀ : Plan) (d : Change Identity SettingRecord),
      w.identity = id ∧ w.Bids pg base T₀ settings₀ plan₀ d ∧ plan₀.stmt base = e.op := by
  obtain ⟨d, hd, hkey⟩ := wrote_iff.1 hwrote
  obtain ⟨w, hreq, ⟨m, settings, plan, -, hmn, hfound, hplan, hstmt, -⟩, -⟩ :=
    committed_of_changed hc he hd
  have hid : w.identity = id :=
    ((hplan.makes hfound (change_eq_of_changed hc he hd hstmt)).key_eq.symm.trans hkey)
  have hmem : Request.write w ∈ qs := by
    rw [← hreq]
    exact List.mem_of_getElem? (hc.req_of_event he)
  obtain ⟨settings₀, plan₀, d₀, hbids⟩ := (hrace w hmem hid).exists_bids
  have hn : n ≤ c.hist.length := Nat.le_of_lt (List.getElem?_eq_some_iff.1 he).1
  have hsame := hbids.plan_again hfound (decodable_tableBefore hc hkeeps hT₀ (by omega))
    (hid ▸ (hstand m hmn).row) hplan
  exact ⟨w, settings₀, plan₀, d₀, hid, hbids, hsame ▸ hstmt⟩

/-- **The row at every moment of a race.** -/
theorem standing {n : ℕ} (hn : n ≤ c.hist.length) :
    Standing T₀ id (tableBefore pg T₀ c.hist n) (c.hist.take n) := by
  induction n using Nat.strong_induction_on with
  | _ n ih =>
  cases n with
  | zero => exact .idle rfl (by simp)
  | succ n =>
      have he : c.hist[n]? = some c.hist[n] := List.getElem?_eq_getElem hn
      have hstand := ih n (Nat.lt_succ_self n) (Nat.le_of_succ_le hn)
      have hreply := (reply_eq_exec hc he).2
      rw [List.take_add_one, he, Option.toList_some, tableBefore_succ he]
      by_cases hwrote : Wrote id c.hist[n]
      · obtain ⟨w, settings₀, plan₀, d₀, rfl, hbids, hop⟩ := exists_bids_of_wrote hc hkeeps hT₀
          hrace he hwrote fun m hm => ih m (by omega) (by omega)
        obtain ⟨d, hd, -⟩ := wrote_iff.1 hwrote
        have hchange := change_eq_of_changed hc he hd hop
        cases hstand with
        | idle hrow hnone =>
            rw [hbids.change_eq hrow] at hchange
            obtain rfl := Option.some.inj hchange
            obtain ⟨r, hr, hafter, hwon⟩ := hbids.wins hrow
            rw [← hop]
            refine .won ?_ hd hr hafter hwon
            rw [List.filter_append, hnone, List.nil_append]
            simp [hwrote]
        | won _ _ _ _ hwon =>
            -- the row has been written, so the statement misses it
            obtain ⟨k, hk, -⟩ := plan₀.exists_prog_eq base
            rw [(hbids.missed hwon hk).1] at hchange
            cases hchange
      · refine hstand.snoc_of_not hwrote ?_
        rcases pg.exec_change c.hist[n].op (tableBefore pg T₀ c.hist n) with ⟨-, hT⟩ | ⟨d, hd, -⟩
        · rw [hT]
        · refine row?_exec_of_ne hd fun hkey => hwrote (wrote_iff.2 ⟨d, ?_, hkey.symm⟩)
          rw [changed, hreply, hd]

/-- A row that has been written stays so. -/
theorem won_of_le {m n : ℕ} (hmn : m ≤ n) (hn : n ≤ c.hist.length)
    (hwon : Won T₀ (tableBefore pg T₀ c.hist m) id) : Won T₀ (tableBefore pg T₀ c.hist n) id := by
  cases standing hc hkeeps hT₀ hrace hn with
  | won _ _ _ _ hwon' => exact hwon'
  | idle _ hnone =>
      cases standing hc hkeeps hT₀ hrace (hmn.trans hn) with
      | idle hrow _ =>
          obtain ⟨r, hr, -, hne⟩ := hwon
          exact absurd rfl (hne r (hrow ▸ hr))
      | won hone =>
          have hsub := (List.take_sublist_take_left hmn (l := c.hist)).filter fun e => Wrote id e
          rw [hone, hnone] at hsub
          cases hsub

end Race

/-- A call of a request, in the table it found. -/
theorem exists_answer {G : List ServiceEvent → ServiceEvent → Prop} {qs : List Request}
    {c : ServiceConfig} (hc : Reachable pg.exec G (Snapshot.init T₀ (Request.prog base) qs) c)
    {i l : ℕ} (pre : List (Answered Stmt Stmt.Ret)) {post : List (Answered Stmt Stmt.Ret)}
    {o : Stmt} {r : o.Ret} (h : own i (c.hist.take l) = pre ++ ⟨o, r⟩ :: post) :
    ∃ (n : ℕ) (e : ServiceEvent), c.hist[n]? = some e ∧ n < l ∧ n < c.hist.length ∧ e.who = i ∧
      own i (c.hist.take n) = pre ∧ r = (pg.exec o (tableBefore pg T₀ c.hist n)).1 ∧
      changed e = o.change r := by
  obtain ⟨n, e, he, hwho, hpre, hx⟩ := Interaction.exists_of_own_eq h
  rw [List.getElem?_take] at he
  split_ifs at he with hnl
  obtain ⟨i', q, o', r', T', mark⟩ := e
  cases hx
  refine ⟨n, _, he, hnl, (List.getElem?_eq_some_iff.1 he).1, hwho, ?_, (reply_eq_exec hc he).2, rfl⟩
  rwa [List.take_take, Nat.min_eq_left (Nat.le_of_lt hnl)] at hpre

section Race

variable {G : List ServiceEvent → ServiceEvent → Prop} {qs : List Request} {c : ServiceConfig}

/-- The change of a write is about its row. -/
theorem Committed.key_eq {n : ℕ} {e : ServiceEvent} {d : Change Identity SettingRecord}
    (h : Committed pg base T₀ c.hist n e w d)
    (hc : Reachable pg.exec G (Snapshot.init T₀ (Request.prog base) qs) c)
    (he : c.hist[n]? = some e) (hd : changed e = some d) : d.key = w.identity := by
  obtain ⟨-, ⟨m, settings, plan, -, -, hfound, hplan, hstmt, -⟩, -⟩ := h
  exact (hplan.makes hfound (change_eq_of_changed hc he hd hstmt)).key_eq

/-- A write whose statement took effect has returned. -/
theorem Committed.prog_eq {n : ℕ} {e : ServiceEvent} {d : Change Identity SettingRecord}
    (h : Committed pg base T₀ c.hist n e w d)
    (hc : Reachable pg.exec G (Snapshot.init T₀ (Request.prog base) qs) c)
    (he : c.hist[n]? = some e) {p : Interaction.Proc Stmt Stmt.Ret Request Result}
    (hp : c.procs[e.who]? = some p) : p.prog = .pure (resultOf base d) := by
  have hall := hc.follows hp
  have hreq : p.req = .write w := by
    have h' := hc.req_of_proc hp
    rw [hc.req_of_event he, h.req] at h'
    exact (Option.some.inj h').symm
  rw [hreq, ← List.take_append_drop (n + 1) c.hist, Interaction.own_append] at hall
  obtain ⟨q, hq, hrest⟩ := hall.of_append
  rw [hq.unique h.done, Interaction.Prog.follows_pure_iff] at hrest
  exact hrest.2

/-- **A contender that has returned** wrote the row, or it lost after the row was written. -/
theorem wrote_or_loses (hc : Reachable pg.exec G (Snapshot.init T₀ (Request.prog base) qs) c)
    (hkeeps : ∀ e ∈ c.hist, pg.Keeps e.op) (hT₀ : T₀.Decodable base)
    (hrace : ∀ w, .write w ∈ qs → w.identity = id → w.Contends pg base T₀) {i : ℕ}
    {p : Interaction.Proc Stmt Stmt.Ret Request Result} {w : Write} {x : Result}
    (hp : c.procs[i]? = some p) (hreq : p.req = .write w) (hid : w.identity = id)
    (hx : p.prog = .pure x) :
    (∃ e ∈ c.hist, e.who = i ∧ Wrote id e ∧ ∃ d, changed e = some d ∧ x = resultOf base d) ∨
      Won T₀ c.state id ∧ ∃ e, x = .error e ∧ Loses T₀ id e := by
  have hstate : c.state = tableBefore pg T₀ c.hist c.hist.length := by
    rw [hc.state_eq, tableBefore, List.take_length]
  have hmem : Request.write w ∈ qs := hreq ▸ List.mem_of_getElem? (hc.req_of_proc hp)
  obtain ⟨settings₀, plan₀, d₀, hbids⟩ := (hrace w hmem hid).exists_bids
  have hstand : ∀ {n}, n < c.hist.length → Standing T₀ w.identity (tableBefore pg T₀ c.hist n)
      (c.hist.take n) := fun hn => hid ▸ standing hc hkeeps hT₀ hrace (Nat.le_of_lt hn)
  have hdec : ∀ {n}, n < c.hist.length → (tableBefore pg T₀ c.hist n).Decodable base :=
    fun hn => decodable_tableBefore hc hkeeps hT₀ (Nat.le_of_lt hn)
  have hwon : ∀ {n}, n < c.hist.length → Won T₀ (tableBefore pg T₀ c.hist n) w.identity →
      Won T₀ c.state id := fun hn h => by
    rw [hstate]
    exact won_of_le hc hkeeps hT₀ hrace (Nat.le_of_lt hn) (Nat.le_refl _) (hid ▸ h)
  have hall := hc.follows hp
  rw [hreq, hx, ← List.take_length (l := c.hist)] at hall
  have hperf := Write.performed_of_follows hall
  generalize htr : own i (c.hist.take c.hist.length) = tr at hperf
  generalize hq : Prog.pure x = q at hperf
  cases hperf with
  | start =>
      rw [w.prog_eq] at hq
      cases hq
  | @refused r e he =>
      obtain rfl := Prog.pure.inj hq
      obtain ⟨n, e₁, -, -, hn, -, -, rfl, -⟩ := exists_answer hc [] htr
      obtain ⟨hw, rfl⟩ := hbids.refused (hdec hn) (hstand hn).row he
      exact .inr ⟨hwon hn hw, _, rfl, .inl rfl⟩
  | @planned r settings plan hfound hplan =>
      obtain ⟨k, hk, -⟩ := plan.exists_prog_eq base
      rw [hk] at hq
      cases hq
  | @answered r settings plan k hfound hplan hk r' =>
      obtain ⟨n₁, e₁, -, -, hn₁, -, -, rfl, -⟩ := exists_answer hc [] htr
      obtain rfl := hbids.plan_again hfound (hdec hn₁) (hstand hn₁).row hplan
      obtain ⟨n₂, e₂, he₂, -, hn₂, hwho, -, rfl, hd⟩ :=
        exists_answer hc [_] htr
      rcases hbids.answered hk (hstand hn₂).row with ⟨hchange, hdone⟩ | ⟨hw, hmissed⟩
      · rw [← hq] at hdone
        rw [hchange] at hd
        exact .inl ⟨e₂, List.mem_of_getElem? he₂, hwho, wrote_iff.2 ⟨d₀, hd, hid ▸ hbids.key_eq⟩,
          d₀, hd, Prog.pure.inj hdone⟩
      · obtain ⟨e, rfl, he⟩ := hmissed.of_pure hq.symm
        exact .inr ⟨hwon hn₂ hw, e, rfl, hid ▸ he⟩
  | @checked r settings plan k r' key ownership hfound hplan hk hcheck r'' =>
      obtain ⟨n₁, e₁, -, -, hn₁, -, -, rfl, -⟩ := exists_answer hc [] htr
      obtain rfl := hbids.plan_again hfound (hdec hn₁) (hstand hn₁).row hplan
      obtain ⟨n₃, e₃, -, -, hn₃, -, hpre, rfl, -⟩ :=
        exists_answer hc [_, _] htr
      obtain ⟨n₂, e₂, -, hn₂₃, hn₂, -, -, rfl, -⟩ :=
        exists_answer hc [_] hpre
      rcases hbids.answered hk (hstand hn₂).row with ⟨-, hdone⟩ | ⟨hw, hmissed⟩
      · rw [hcheck] at hdone
        cases hdone
      · have hw₃ := won_of_le hc hkeeps hT₀ hrace (Nat.le_of_lt hn₂₃) (Nat.le_of_lt hn₃) (hid ▸ hw)
        obtain ⟨n, hpos, hcount⟩ := hmissed.of_check pg hcheck (hid ▸ hw₃)
        rw [hcount] at hq
        simp only [if_pos hpos] at hq
        exact .inr ⟨hwon hn₂ hw, _, Prog.pure.inj hq, .inl rfl⟩

/-- **One writer wins**: it returns what the row then holds, and every other one fails and is told
of a conflict. -/
structure OneWinner (base : Anchor) (T₀ : Table) (id : Identity) (c : ServiceConfig) (i : ℕ) :
    Prop where
  wins : ∃ p s r, c.procs[i]? = some p ∧ OnRow id p.req ∧ p.prog = .pure (.ok (.setting s)) ∧
    c.state.row? id = some r ∧ r.intoDomain base = .ok s
  loses : ∀ j p, c.procs[j]? = some p → j ≠ i → OnRow id p.req →
    ∃ e, p.prog = .pure (.error e) ∧ Loses T₀ id e

/-- **Of the writes that race for a row exactly one succeeds.** -/
theorem exists_winner (hc : Reachable pg.exec G (Snapshot.init T₀ (Request.prog base) qs) c)
    (hkeeps : ∀ e ∈ c.hist, pg.Keeps e.op) (hquiet : c.Quiet) (hT₀ : T₀.Decodable base)
    (hrace : ∀ w, .write w ∈ qs → w.identity = id → w.Contends pg base T₀)
    (hsome : ∃ q ∈ qs, OnRow id q) : ∃ i, OneWinner base T₀ id c i := by
  have hstate : c.state = tableBefore pg T₀ c.hist c.hist.length := by
    rw [hc.state_eq, tableBefore, List.take_length]
  have hstand := standing hc hkeeps hT₀ hrace (Nat.le_refl _)
  rw [← hstate, List.take_length] at hstand
  cases hstand with
  | idle hrow hnone =>
      -- a contender that has returned wrote the row, or lost after it was written
      obtain ⟨q, hq, w, rfl, hid⟩ := hsome
      obtain ⟨i, hi⟩ := List.getElem?_of_mem hq
      obtain ⟨p, hp, hreq⟩ := hc.exists_proc hi
      obtain ⟨x, hx⟩ := hquiet p (List.mem_of_getElem? hp)
      rcases wrote_or_loses hc hkeeps hT₀ hrace hp hreq hid hx with
        ⟨e, he, -, hwrote, -⟩ | ⟨hwon, -⟩
      · have hmem : e ∈ c.hist.filter (Wrote id) := List.mem_filter.2 ⟨he, decide_eq_true hwrote⟩
        rw [hnone] at hmem
        cases hmem
      · obtain ⟨r, hr, -, hne⟩ := hwon
        exact absurd rfl (hne r (hrow ▸ hr))
  | @won e d r hone hd hr hrow hwon =>
      have honly : ∀ e' ∈ c.hist, Wrote id e' → e' = e := fun e' he' hwrote => by
        have hmem : e' ∈ c.hist.filter (Wrote id) :=
          List.mem_filter.2 ⟨he', decide_eq_true hwrote⟩
        rw [hone] at hmem
        exact List.mem_singleton.1 hmem
      obtain ⟨hmem, hwrote⟩ : e ∈ c.hist ∧ Wrote id e := by
        have hmem : e ∈ c.hist.filter (Wrote id) := by rw [hone]; exact List.mem_singleton_self e
        exact ⟨(List.mem_filter.1 hmem).1, of_decide_eq_true (List.mem_filter.1 hmem).2⟩
      refine ⟨e.who, ?_, fun j p hp hj hon => ?_⟩
      · obtain ⟨n, he⟩ := List.getElem?_of_mem hmem
        obtain ⟨w, hcommit⟩ := committed_of_changed hc he hd
        obtain ⟨p, hp, hreq⟩ := hc.exists_proc (hc.req_of_event he)
        obtain ⟨s, hs⟩ :=
          (readable_of_changes hc hkeeps (List.mem_filterMap.2 ⟨e, hmem, hd⟩)).1 r hr
        refine ⟨p, s, r, hp, ⟨w, hreq.trans hcommit.req, ?_⟩, ?_, hrow, hs⟩
        · obtain ⟨d', hd', hkey⟩ := wrote_iff.1 hwrote
          obtain rfl := Option.some.inj (hd.symm.trans hd')
          exact hcommit.key_eq hc he hd ▸ hkey
        · rw [hcommit.prog_eq hc he hp, resultOf_of_content hr, hs]
          rfl
      · obtain ⟨w, hreq, hid⟩ := hon
        obtain ⟨x, hx⟩ := hquiet p (List.mem_of_getElem? hp)
        rcases wrote_or_loses hc hkeeps hT₀ hrace hp hreq hid hx with
          ⟨e', he', hwho, hwrote', -⟩ | ⟨-, e', rfl, he'⟩
        · rw [honly e' he' hwrote'] at hwho
          exact absurd hwho.symm hj
        · exact ⟨e', hx, he'⟩

end Race

open Sample in
/-- A `PUT` and a `PATCH` of Alice's theme, which both read it at version `1`. -/
theorem exists_winner_put_and_patch :
    let c := (Snapshot.init (themes [some "alice"] (by decide)) (Request.prog ⟨0, 0⟩)
      [.write (.put theme light alice (some 1) 0), .write (.patch theme big alice 1 0)]).schedule
        (Postgres.ofJsonb fun v => v).exec [0, 1, 1, 0, 0]
    ∃ i, OneWinner ⟨0, 0⟩ (themes [some "alice"] (by decide)) ("acme", "alice", theme.asStr) c
      i := by
  refine exists_winner (Reachable.refl.schedule _ _) (fun _ _ _ _ => rfl) (by decide +kernel)
    (decodable_themes _ _ _) ?_ ⟨_, List.mem_cons_self, _, rfl, by decide⟩
  rintro w hw -
  simp only [List.mem_cons, Request.write.injEq, List.not_mem_nil, or_false] at hw
  rcases hw with rfl | rfl
  · exact ⟨⟨_, rfl⟩, fun h => h, fun _ => by decide⟩
  · exact ⟨⟨_, rfl⟩, fun h => h, fun _ => by decide⟩

end SettingsService
