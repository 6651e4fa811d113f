import SettingsService.ReadWrite
import SettingsService.Serializable

/-!
# The version of the aggregate and the version of the column

The aggregate counts versions in a `u64`, the table in an `INTEGER`.  Every version the service
sends is one it read, so the conversion loses nothing.  The counters agree until the column is
full: the update of a row at the largest `INTEGER` is an error.

Main definitions:

* `Stmt.version?`, `SendsPresented` — the version a statement sends, and that it is the one the
  caller presents;
* `Write.CountsUp` — a write succeeds and returns the version after the one it presents.

Main results:

* `sendsPresented_of_reachable` — **no version is truncated** on its way to the database;
* `Write.countsUp_iff` — an update counts up exactly when the column has room;
* `versions_agree_iff` — **the versions agree exactly below the largest `INTEGER`**, in every
  reachable table;
* `not_versions_agree` — a row that can be updated no more.
-/

set_option relaxedAutoImplicit false
set_option autoImplicit false

namespace SettingsService

open Interaction (Prog Snapshot Reachable Event Proc eventOf)
open Interaction.Prog (Only)

variable {pg : Postgres} {base : Anchor}

/-! ### The versions sent -/

/-- The version an `UPDATE` or a `DELETE` asks for. -/
def Stmt.version? : Stmt → Option ℤ
  | update _ _ _ _ _ version => some version
  | delete _ _ _ version => some version
  | _ => none

/-- A statement for a request sends the version that the caller presents, as it is. -/
def SendsPresented (q : Request) (s : Stmt) : Prop :=
  ∀ n, s.version? = some n → ∃ w m, q = .write w ∧ w.expected = some m ∧ n = (m : ℤ)

/-- The statement a write decides on sends the version presented. -/
theorem Write.Decides.sendsPresented {w : Write} {T : Table} {settings : List Setting} {plan : Plan}
    (hfound : Repo.found base pg T w.key w.authority.tenant = .ok settings)
    (hplan : w.Decides settings plan) : SendsPresented (.write w) (plan.stmt base) := by
  intro n hn
  cases hplan with
  | insert hown hs =>
      rw [hs.stmt_eq] at hn
      exact absurd hn (by simp [Stmt.version?])
  | update hown he hnext =>
      rw [hnext.stmt_eq hfound hown, Stmt.version?, Option.some.injEq] at hn
      exact ⟨w, _, rfl, he, hn.symm⟩
  | delete hown he hw =>
      rw [Write.delete_stmt_eq hfound hown, Stmt.version?, Option.some.injEq] at hn
      exact ⟨w, _, rfl, he, hn.symm⟩

/-- After its statement was answered, a write sends no version any more. -/
theorem Plan.Rest.only_sendsPresented {q : Request} {o : Option Result}
    {p : Prog Stmt Stmt.Ret Result} (h : Plan.Rest o p) : Only (SendsPresented q) p := by
  cases h with
  | effective x => exact trivial
  | failed e => exact trivial
  | check key ownership => exact ⟨by simp [SendsPresented, Stmt.version?], fun _ => trivial⟩

/-- Once it has read, a request sends the version presented only. -/
theorem Request.only_sendsPresented_of_read (base : Anchor) (q : Request) (T : Table) {o : Stmt}
    {k : o.Ret → Prog Stmt Stmt.Ret Result} (hq : q.prog base = .call o k) :
    SendsPresented q o ∧ Only (SendsPresented q) (k (pg.exec o T).1) := by
  cases q with
  | get key authority =>
      rw [prog_get] at hq
      obtain ⟨rfl, hk⟩ := Prog.call.inj hq
      obtain rfl := eq_of_heq hk
      exact ⟨by simp [SendsPresented, Stmt.version?], trivial⟩
  | search query authority pagination =>
      rw [prog_search] at hq
      obtain ⟨rfl, hk⟩ := Prog.call.inj hq
      obtain rfl := eq_of_heq hk
      exact ⟨by simp [SendsPresented, Stmt.version?], trivial⟩
  | write w =>
      rw [prog, Write.prog_eq] at hq
      obtain ⟨rfl, hk⟩ := Prog.call.inj hq
      obtain rfl := eq_of_heq hk
      refine ⟨by simp [SendsPresented, Stmt.version?], ?_⟩
      change Only _ (Plan.progOf base
        (Repo.found base pg T w.key w.authority.tenant >>= w.decide))
      refine w.after_read base (fun e _ => trivial) fun settings plan hfound hplan => ?_
      obtain ⟨k, hk, hk'⟩ := plan.exists_prog_eq base
      rw [hk]
      exact ⟨hplan.sendsPresented hfound, fun r => (hk' r).only_sendsPresented⟩

/-- **No version is truncated on its way to the database**: every call sends the version that the
caller presents, as it is. -/
theorem sendsPresented_of_reachable {T₀ : Table} {reqs : List Request}
    {c : Snapshot Stmt Stmt.Ret Table Request Result}
    (hc : Reachable pg.exec (fun _ _ => True) (Snapshot.init T₀ (Request.prog base) reqs) c) :
    ∀ e ∈ c.hist, SendsPresented e.req e.op := by
  refine (Reachable.invariant (I := fun _ hist => ∀ e ∈ hist, SendsPresented e.req e.op)
    (P := fun _ _ _ p => p.prog = p.req.prog base ∨ Only (SendsPresented p.req) p.prog)
    (by simp) (fun i q _ => .inl rfl) ?_ hc).1
  intro T hist i p o k hI hP hk _
  have hcall : SendsPresented p.req o ∧ Only (SendsPresented p.req) (k (pg.exec o T).1) := by
    rcases hP with hP | hP
    · exact p.req.only_sendsPresented_of_read base T (hP.symm.trans hk)
    · rw [hk] at hP
      exact ⟨hP.1, hP.2 _⟩
  refine ⟨fun e he => ?_, .inr hcall.2, fun _ _ _ hq => hq⟩
  rcases List.mem_append.1 he with he | he
  · exact hI e he
  · rw [List.mem_singleton.1 he]
    exact hcall.1

/-! ### Rows that decode -/

/-- A statement stores a value of a setting, under a key of one. -/
def Stmt.StoresSetting : Stmt → Prop
  | insert _ _ key value _ =>
      (∃ k : SettingKey, key = k.asStr) ∧ ∃ v : SettingValue, value = v.value
  | update value _ _ _ _ _ => ∃ v : SettingValue, value = v.value
  | _ => True

theorem Request.only_storesSetting (base : Anchor) (q : Request) :
    Only Stmt.StoresSetting (q.prog base) := by
  refine only_of_decides base (fun _ _ => trivial) (fun _ _ _ => trivial)
    (fun _ _ _ _ _ _ => trivial) fun w rows plan _ _ => ?_
  cases plan with
  | insert s => exact ⟨⟨s.key, rfl⟩, s.value, rfl⟩
  | update next expected => exact ⟨next.value, rfl⟩
  | delete key ownership expected => exact trivial

/-- **If `JSONB` gives back what was stored, every row the service reaches decodes.** -/
theorem decodable_of_reachable (hjsonb : ∀ v, pg.jsonb v = v) {reqs : List Request}
    {c : Snapshot Stmt Stmt.Ret Table Request Result}
    (hc : Reachable pg.exec (fun _ _ => True)
      (Snapshot.init Table.empty (Request.prog base) reqs) c) : c.state.Decodable base := by
  have hrows : ∀ r ∈ c.state.rows,
      (∃ k : SettingKey, r.key = k.asStr) ∧ ∃ v : SettingValue, r.value = v.value := by
    refine hc.state_invariant (I := fun T => ∀ r ∈ T.rows,
      (∃ k : SettingKey, r.key = k.asStr) ∧ ∃ v : SettingValue, r.value = v.value)
      (by simp [Table.empty]) (fun q _ => q.only_storesSetting base) fun s T hs hT r hr => ?_
    rcases Postgres.row_of_exec hr with hr | ⟨r₀, hr₀, _, _, _, _, _, _, rfl, rfl⟩ |
      ⟨_, _, _, _, _, rfl, -, rfl⟩
    · exact hT r hr
    · obtain ⟨v, hv⟩ := hs
      exact ⟨(hT r₀ hr₀).1, v, (hjsonb _).trans hv⟩
    · obtain ⟨hkey, v, hv⟩ := hs
      exact ⟨hkey, v, (hjsonb _).trans hv⟩
  intro r hr
  obtain ⟨⟨key, hkey⟩, value, hvalue⟩ := hrows r hr
  exact exists_intoDomain hkey hvalue

/-! ### Counting up -/

namespace Write

/-- **A write counts up**: it succeeds, and returns the version that the aggregate computed, the one
after the version presented. -/
def CountsUp (pg : Postgres) (base : Anchor) (T : Table) (w : Write) (cur : Setting) : Prop :=
  ∃ next s, w.Revises cur next ∧ (w.alone pg base T).1 = .ok (.setting s) ∧
    s.version = next.version ∧ s.version = cur.version + 1

variable {w : Write} {T : Table} {r : SettingRecord} {cur next : Setting}

/-- The version the aggregate computes. -/
theorem Revises.version_eq (h : w.Revises cur next) : next.version = cur.version + 1 := by
  cases w with
  | put key value authority expected now =>
      obtain rfl := Except.ok.inj h
      rfl
  | patch key value authority e now =>
      obtain ⟨v, -, rfl⟩ := Setting.applyPartial_eq_ok_iff.1 h
      rfl
  | delete key authority e => exact h.elim

/-- **An update counts up exactly when the column has room**, of the documents Postgres takes. -/
theorem countsUp_iff (hjsonb : ∀ v, pg.jsonb v = v) (hT : T.Sane) (hdec : T.Decodable base)
    (hr : r ∈ T.rows) (howns : w.Owns r) (hcur : r.intoDomain base = .ok cur)
    (he : w.expected = some cur.version) (hnext : w.Revises cur next)
    (hvalue : jsonbAccepted next.value.value = true) :
    w.CountsUp pg base T cur ↔ r.version < i32Max := by
  obtain ⟨htenant, huser, hkey⟩ := accepted_of_owns hT hr howns
  have hfind : (Stmt.find w.authority.tenant.asStr w.key.asStr).accepted = true := by
    rw [tenant_target] at htenant
    simp only [Stmt.accepted, htenant, hkey, Bool.and_self]
  obtain ⟨settings, hfound⟩ := Repo.exists_found_iff.2 ⟨hfind, fun r hr _ => hdec r hr⟩
  have hown := own_of_owns hfound hr howns hcur
  have hversion := hT.version_eq hr hcur
  have hdecides : w.Decides settings (.update next cur.version) := .update hown he hnext
  constructor
  · rintro ⟨-, s, -, hs, -⟩
    rw [alone_eq, hfound] at hs
    change (Prog.run pg.exec (Plan.progOf base (w.decide settings)) T).1 = _ at hs
    rw [decide_eq_ok_iff.2 hdecides] at hs
    rcases (Plan.update next cur.version).run_prog T with ⟨c, hc, -⟩ | ⟨-, e, hrun⟩
    · rw [hnext.stmt_eq hfound hown] at hc
      exact hversion ▸ (change_update_iff.1 hc).2.1
    · rw [show Plan.progOf base (.ok (.update next cur.version)) =
        (Plan.update next cur.version).prog base from rfl, hrun] at hs
      exact absurd hs (by simp)
  · intro hlt
    have hc := change_of_revises hfound hr howns hcur hT hnext hlt hvalue
    obtain ⟨s, hs⟩ : ∃ s, (r.rewrite (pg.jsonb next.value.value)
        (instantToMillis base next.updatedAt)).intoDomain base = .ok s :=
      exists_intoDomain howns.2 (hjsonb next.value.value)
    refine ⟨next, s, hnext, ?_, ?_⟩
    · rw [alone_of_decides hfound hdecides hc]
      simp only [resultOf, hs, Except.map]
    · have hv := (version_of_intoDomain hs).1
      have := hnext.version_eq
      have := hT.versions r hr
      simp only [SettingRecord.rewrite] at hv
      omega

end Write

/-- **The versions agree exactly below the largest `INTEGER`**: in every reachable table, a put and
a patch that present the version of the row of their scope succeed and return the next one exactly
when the column has room for it.  No version is ever truncated. -/
theorem versions_agree_iff (pg : Postgres) (base : Anchor) (hjsonb : ∀ v, pg.jsonb v = v)
    {reqs : List Request} (hreqs : ∀ q ∈ reqs, q.authority.user ≠ ⟨""⟩)
    {c : Snapshot Stmt Stmt.Ret Table Request Result}
    (hc : Reachable pg.exec (fun _ _ => True)
      (Snapshot.init Table.empty (Request.prog base) reqs) c) :
    (∀ r ∈ c.state.rows, ∃ cur, r.intoDomain base = .ok cur ∧ r.version = cur.version ∧
      ∀ a : Authority, r.ownership = a.scopeOwnership →
        (∀ value now, jsonbAccepted value.value = true →
          ((Write.put cur.key value a (some cur.version) now).CountsUp pg base c.state cur ↔
            r.version < i32Max)) ∧
        ∀ patch merged now, cur.value.merge patch = .ok merged →
          jsonbAccepted merged.value = true →
          ((Write.patch cur.key patch a cur.version now).CountsUp pg base c.state cur ↔
            r.version < i32Max)) ∧
    ∀ e ∈ c.hist, SendsPresented e.req e.op := by
  refine ⟨fun r hr => ?_, sendsPresented_of_reachable hc⟩
  have hT := sane_of_reachable hreqs hc
  have hdec := decodable_of_reachable hjsonb hc
  obtain ⟨cur, hcur⟩ := hdec r hr
  refine ⟨cur, hcur, hT.version_eq hr hcur, fun a ha => ?_⟩
  have hkey : r.key = cur.key.asStr := by
    obtain ⟨w, -, -, -, hkey⟩ := writtenBy_of_reachable hc r hr
    rw [hkey, SettingRecord.key_of_intoDomain hkey hcur]
  refine ⟨fun value now hvalue => ?_, fun patch merged now hmerged hvalue => ?_⟩
  · exact Write.countsUp_iff hjsonb hT hdec hr ⟨ha, hkey⟩ hcur rfl rfl hvalue
  · exact Write.countsUp_iff hjsonb hT hdec hr ⟨ha, hkey⟩ hcur rfl
      (Setting.applyPartial_eq_ok_iff.2 ⟨merged, hmerged, rfl⟩) hvalue

/-! ### A row at the largest `INTEGER` -/

namespace Sample

/-- Alice puts a setting over and over, each time with the version she got the last time. -/
def putOften (n : ℕ) : List Request :=
  (List.range n).map fun k => .write (.put theme dark alice (some k) 0)

theorem getElem?_putOften {n k : ℕ} (hk : k < n) :
    (putOften n)[k]? = some (.write (.put theme dark alice (some k) 0)) := by
  simp [putOften, hk]

theorem user_putOften (n : ℕ) : ∀ q ∈ putOften n, q.authority.user ≠ ⟨""⟩ := by
  intro q hq
  obtain ⟨k, -, rfl⟩ := List.mem_map.1 hq
  exact (by decide : alice.user ≠ ⟨""⟩)

theorem accepted_dark : jsonbAccepted dark.value = true := by decide

/-- **Every version is reached**, up to the largest `INTEGER`. -/
theorem exists_reachable_version (n k : ℕ) (hk : k < n) (hn : (n : ℤ) ≤ i32Max) :
    ∃ r ∈ (tableAt (Postgres.ofJsonb id) ⟨0, 0⟩ .empty (putOften n) (k + 1)).rows,
      r.ownership = alice.scopeOwnership ∧ r.key = theme.asStr ∧ r.version = k + 1 := by
  induction k with
  | zero =>
      rw [tableAt_succ (getElem?_putOften hk)]
      exact ⟨themeOf (some "alice"), List.mem_singleton_self _, rfl, rfl, rfl⟩
  | succ k ih =>
      obtain ⟨r, hr, howner, hkey, hversion⟩ := ih (by omega)
      obtain ⟨c, hc, hstate, -⟩ := exists_reachable_tableAt (Postgres.ofJsonb id) ⟨0, 0⟩ .empty
        (putOften n) (k + 1)
      have hT := sane_of_reachable (user_putOften n) hc
      have hdec := decodable_of_reachable (fun _ => rfl) hc
      rw [hstate] at hT hdec
      obtain ⟨cur, hcur⟩ := hdec r hr
      have hcurversion := hT.version_eq hr hcur
      have hexpected : (k + 1 : ℕ) = cur.version := by omega
      obtain ⟨settings, hfound⟩ := Repo.exists_found_iff.2
        ⟨(by decide : (Stmt.find alice.tenant.asStr theme.asStr).accepted = true),
          fun r hr _ => hdec r hr⟩
      have hupdates := (Write.updates_of_revises (w := .put theme dark alice (some (k + 1)) 0)
        hfound hr ⟨howner, hkey⟩ hcur (congrArg some hexpected) hT rfl (by omega)
        accepted_dark).1
      rw [tableAt_succ (getElem?_putOften hk)]
      obtain ⟨r', hr', hcolumns, hversion'⟩ := hupdates.row
      refine ⟨r', (Table.row?_eq_some_iff.1 hr').1, ?_, ?_, ?_⟩
      · simp only [SettingRecord.columns, Prod.mk.injEq] at hcolumns
        rw [← howner, SettingRecord.ownership, SettingRecord.ownership, hcolumns.1, hcolumns.2.1]
      · simp only [SettingRecord.columns, Prod.mk.injEq] at hcolumns
        rw [← hkey, hcolumns.2.2]
      · rw [hversion']
        omega

end Sample

open Sample in
/-- The version of the setting Alice put. -/
theorem versions_agree_alice :
    let c := (Snapshot.init Table.empty (Request.prog ⟨0, 0⟩) (putOften 1)).schedule
      (Postgres.ofJsonb id).exec [0, 0]
    (∀ r ∈ c.state.rows, ∃ cur, r.intoDomain ⟨0, 0⟩ = .ok cur ∧ r.version = cur.version ∧
      ∀ a : Authority, r.ownership = a.scopeOwnership →
        (∀ value now, jsonbAccepted value.value = true →
          ((Write.put cur.key value a (some cur.version) now).CountsUp (Postgres.ofJsonb id) ⟨0, 0⟩
            c.state cur ↔ r.version < i32Max)) ∧
        ∀ patch merged now, cur.value.merge patch = .ok merged →
          jsonbAccepted merged.value = true →
          ((Write.patch cur.key patch a cur.version now).CountsUp (Postgres.ofJsonb id) ⟨0, 0⟩
            c.state cur ↔ r.version < i32Max)) ∧
    ∀ e ∈ c.hist, SendsPresented e.req e.op :=
  versions_agree_iff (Postgres.ofJsonb id) ⟨0, 0⟩ (fun _ => rfl) (user_putOften 1)
    (Reachable.refl.schedule _ [0, 0])

open Sample in
/-- **A row at the largest `INTEGER` can be updated no more**: after 2147483647 puts, the next one
fails although it presents the version of the row. -/
theorem not_versions_agree :
    ¬ ∀ (pg : Postgres) (base : Anchor), (∀ v, pg.jsonb v = v) → ∀ reqs : List Request,
      (∀ q ∈ reqs, q.authority.user ≠ ⟨""⟩) → ∀ c : Snapshot Stmt Stmt.Ret Table Request Result,
      Reachable pg.exec (fun _ _ => True) (Snapshot.init Table.empty (Request.prog base) reqs) c →
      ∀ r ∈ c.state.rows, ∀ (a : Authority) (cur : Setting), r.ownership = a.scopeOwnership →
        r.intoDomain base = .ok cur → ∀ value now, jsonbAccepted value.value = true →
          (Write.put cur.key value a (some cur.version) now).CountsUp pg base c.state cur := by
  intro h
  obtain ⟨r, hr, howner, hkey, hversion⟩ := exists_reachable_version 2147483647 2147483646
    (by omega) (by rw [i32Max]; omega)
  obtain ⟨c, hc, hstate, -⟩ := exists_reachable_tableAt (Postgres.ofJsonb id) ⟨0, 0⟩ .empty
    (putOften 2147483647) 2147483647
  have hT := sane_of_reachable (user_putOften _) hc
  have hdec := decodable_of_reachable (fun _ => rfl) hc
  rw [← hstate] at hr
  obtain ⟨cur, hcur⟩ := hdec r hr
  have hcurkey : r.key = cur.key.asStr := by
    rw [hkey, SettingRecord.key_of_intoDomain hkey hcur]
  have hcounts := h (Postgres.ofJsonb id) ⟨0, 0⟩ (fun _ => rfl) (putOften 2147483647)
    (user_putOften _) c hc r hr alice cur howner hcur dark 0 accepted_dark
  have hlt := (Write.countsUp_iff (w := .put cur.key dark alice (some cur.version) 0)
    (fun _ => rfl) hT hdec hr ⟨howner, hcurkey⟩ hcur rfl rfl accepted_dark).1 hcounts
  rw [hversion, i32Max] at hlt
  omega

end SettingsService
