import SettingsService.ReadWrite
import SettingsService.SettingsRest

/-!
# The time of a row, as it is reported

A write stores its time as unix milliseconds, counted from the anchor of its process; a read turns
them back into an instant of its own process, and the response into milliseconds again.  A process
cannot name an instant before its anchor, so a row written before the anchor of the reading process
was captured is reported with the time of that anchor.

Several processes run over one table here: a request comes with the anchor of its process.

Main definitions:

* `Write.now`, `Stmt.writesTime` — the time of a write, and the time a statement stores.

Main results:

* `stored_updatedAt` — where the time of a row comes from;
* `reported_updatedAt_iff` — **the time reported is the one stored exactly when the anchor of the
  reading process is not after it**;
* `not_reported_updatedAt` — a restarted process that reports another time.
-/

set_option relaxedAutoImplicit false
set_option autoImplicit false

namespace SettingsService

open Interaction (Prog Snapshot Reachable)
open Interaction.Prog (Only)

/-! ### Conversions -/

/-- Milliseconds before the anchor are read as the time of the anchor. -/
theorem instantToMillis_millisToInstant (base : Anchor) (m : ℤ) :
    instantToMillis base (millisToInstant base m) = max m base.ms := by
  have hdiff : millisToInstant base m - base.inst = (max (m - base.ms) 0).toNat * 1000000 := by
    rw [millisToInstant, Nat.add_sub_cancel_left]
  rw [instantToMillis, hdiff, Nat.mul_div_cancel _ (by omega)]
  omega

/-- Milliseconds come back exactly when they are not before the anchor. -/
theorem instantToMillis_millisToInstant_eq_iff {base : Anchor} {m : ℤ} :
    instantToMillis base (millisToInstant base m) = m ↔ base.ms ≤ m := by
  rw [instantToMillis_millisToInstant]
  omega

/-- An instant that is not before the anchor comes back less than a millisecond early. -/
theorem millisToInstant_instantToMillis {base : Anchor} {i : Instant} (hi : base.inst ≤ i) :
    millisToInstant base (instantToMillis base i) ≤ i ∧
      i - millisToInstant base (instantToMillis base i) < 1000000 := by
  have hm : (max (instantToMillis base i - base.ms) 0).toNat = (i - base.inst) / 1000000 := by
    rw [instantToMillis]
    omega
  have hfloor : ∀ a b : ℕ, a ≤ b →
      a + (b - a) / 1000000 * 1000000 ≤ b ∧ b - (a + (b - a) / 1000000 * 1000000) < 1000000 := by
    intro a b hab
    omega
  rw [millisToInstant, hm]
  exact hfloor base.inst i hi

/-! ### Where the time of a row comes from -/

/-- The time of a write that stores one. -/
def Write.now : Write → Option Instant
  | put _ _ _ _ now => some now
  | patch _ _ _ _ now => some now
  | delete .. => none

/-- The time a statement stores. -/
def Stmt.writesTime : Stmt → Option ℤ
  | insert _ _ _ _ updatedAt => some updatedAt
  | update _ updatedAt _ _ _ _ => some updatedAt
  | _ => none

/-- The statement stores the time of the write, if it stores one. -/
def Stmt.WritesTimeOf (base : Anchor) (w : Write) (s : Stmt) : Prop :=
  ∀ m, s.writesTime = some m → ∃ now, w.now = some now ∧ m = instantToMillis base now

variable {pg : Postgres} {base : Anchor}

/-- The statement a write decides on stores its time. -/
theorem Write.Decides.writesTimeOf {w : Write} {rows : List Setting} {plan : Plan}
    (h : w.Decides rows plan) : (plan.stmt base).WritesTimeOf base w := by
  intro m hm
  cases h with
  | @insert s _ hs =>
      obtain rfl := Option.some.inj hm
      cases w with
      | put key value authority expected now =>
          obtain rfl := Except.ok.inj hs
          exact ⟨now, rfl, rfl⟩
      | patch | delete => exact hs.elim
  | @update cur next _ _ hnext =>
      obtain rfl := Option.some.inj hm
      cases w with
      | put key value authority expected now =>
          obtain rfl := Except.ok.inj hnext
          exact ⟨now, rfl, rfl⟩
      | patch key value authority e now =>
          obtain ⟨v, -, rfl⟩ := Setting.applyPartial_eq_ok_iff.1 hnext
          exact ⟨now, rfl, rfl⟩
      | delete => exact hnext.elim
  | delete => exact absurd hm (by simp [Plan.stmt, Stmt.writesTime])

/-- A time is that of a write among requests, by the anchor of its process. -/
def TimeOf (reqs : List (Anchor × Request)) (m : ℤ) : Prop :=
  ∃ base w now, (base, Request.write w) ∈ reqs ∧ w.now = some now ∧ m = instantToMillis base now

/-- The statements of requests store the times of their writes. -/
theorem Request.only_timeOf {reqs : List (Anchor × Request)} {q : Anchor × Request}
    (hq : q ∈ reqs) :
    Only (fun s => ∀ m, s.writesTime = some m → TimeOf reqs m) (q.2.prog q.1) := by
  have hread : ∀ s : Stmt, s.writesTime = none → ∀ m, s.writesTime = some m → TimeOf reqs m := by
    intro s hs m hm
    rw [hs] at hm
    exact absurd hm (by simp)
  refine only_of_decides q.1 (fun _ _ => hread _ rfl) (fun _ _ _ => hread _ rfl)
    (fun _ _ _ _ _ _ => hread _ rfl) fun w rows plan hw hplan m hm => ?_
  obtain ⟨now, hnow, hmillis⟩ := hplan.writesTimeOf m hm
  exact ⟨q.1, w, now, hw ▸ hq, hnow, hmillis⟩

/-- **The time of a row is that of a write** of some process. -/
theorem stored_updatedAt {reqs : List (Anchor × Request)}
    {c : Snapshot Stmt Stmt.Ret Table (Anchor × Request) Result}
    (hc : Reachable pg.exec (fun _ _ => True)
      (Snapshot.init Table.empty (fun q : Anchor × Request => q.2.prog q.1) reqs) c) :
    ∀ r ∈ c.state.rows, TimeOf reqs r.updatedAt := by
  refine hc.state_invariant (I := fun T : Table => ∀ r ∈ T.rows, TimeOf reqs r.updatedAt)
    (by simp [Table.empty]) (fun q hq => Request.only_timeOf hq) fun s T hs hT r hr => ?_
  rcases Postgres.row_of_exec hr with hr | ⟨r₀, -, _, m, _, _, _, _, rfl, rfl⟩ |
    ⟨_, _, _, _, m, rfl, -, rfl⟩
  · exact hT r hr
  · exact hs m rfl
  · exact hs m rfl

/-! ### What is reported -/

/-- **The time of a row is reported as it is stored**: by a process with this anchor that reads
the row. -/
def ReportsStored (base : Anchor) (rfc3339 : ℤ → String) (r : SettingRecord) : Prop :=
  instantToMillis base (millisToInstant base r.updatedAt) = r.updatedAt ∧
    ∀ s, r.intoDomain base = .ok s →
      (SettingResponse.ofSetting base rfc3339 s).updatedAt = rfc3339 r.updatedAt

/-- The response shows the time of the row, or that of the anchor if it is later. -/
theorem updatedAt_ofSetting {rfc3339 : ℤ → String} {r : SettingRecord} {s : Setting}
    (h : r.intoDomain base = .ok s) :
    (SettingResponse.ofSetting base rfc3339 s).updatedAt = rfc3339 (max r.updatedAt base.ms) := by
  obtain ⟨key, value, -, -, rfl⟩ := SettingRecord.intoDomain_eq_ok_iff.1 h
  exact congrArg rfc3339 (instantToMillis_millisToInstant base r.updatedAt)

theorem reportsStored_iff {rfc3339 : ℤ → String} {r : SettingRecord} :
    ReportsStored base rfc3339 r ↔ base.ms ≤ r.updatedAt := by
  constructor
  · intro h
    exact instantToMillis_millisToInstant_eq_iff.1 h.1
  · intro h
    refine ⟨instantToMillis_millisToInstant_eq_iff.2 h, fun s hs => ?_⟩
    rw [updatedAt_ofSetting hs, max_eq_left h]

/-- **The time reported is the one stored exactly when** the anchor of the reading process is not
after it: for every row of every table that processes reach, and every process that reads it.  The
other way round, an instant that is not before the anchor comes back to the millisecond. -/
theorem reported_updatedAt_iff (pg : Postgres) (rfc3339 : ℤ → String)
    {reqs : List (Anchor × Request)}
    {c : Snapshot Stmt Stmt.Ret Table (Anchor × Request) Result}
    (hc : Reachable pg.exec (fun _ _ => True)
      (Snapshot.init Table.empty (fun q : Anchor × Request => q.2.prog q.1) reqs) c) :
    (∀ r ∈ c.state.rows, TimeOf reqs r.updatedAt ∧
      ∀ base : Anchor, ReportsStored base rfc3339 r ↔ base.ms ≤ r.updatedAt) ∧
    ∀ (base : Anchor) (i : Instant), base.inst ≤ i →
      millisToInstant base (instantToMillis base i) ≤ i ∧
        i - millisToInstant base (instantToMillis base i) < 1000000 :=
  ⟨fun r hr => ⟨stored_updatedAt hc r hr, fun _ => reportsStored_iff⟩,
    fun _ _ hi => millisToInstant_instantToMillis hi⟩

namespace Sample

/-- A process whose anchor is a number of milliseconds after the epoch. -/
def startedAt (ms : ℕ) : Anchor := ⟨0, ms⟩

/-- Alice puts a setting through a process that started a second after the epoch. -/
def putAtOneSecond : List (Anchor × Request) :=
  [(startedAt 1000, .write (.put theme dark alice none 0))]

/-- The snapshot after it. -/
def afterPut : Snapshot Stmt Stmt.Ret Table (Anchor × Request) Result :=
  (Snapshot.init Table.empty (fun q : Anchor × Request => q.2.prog q.1) putAtOneSecond).schedule
    (Postgres.ofJsonb id).exec [0, 0]

theorem rows_afterPut : afterPut.state.rows =
    [⟨"acme", some "alice", theme.asStr, dark.value, 1, 1000⟩] := by
  rfl

end Sample

open Sample in
/-- The row of Alice, as the process that wrote it reports it. -/
theorem reported_updatedAt_afterPut : ReportsStored (startedAt 1000) Int.repr
    ⟨"acme", some "alice", theme.asStr, dark.value, 1, 1000⟩ := by
  have h := (reported_updatedAt_iff (Postgres.ofJsonb id) Int.repr
    (Reachable.refl.schedule _ [0, 0] : Reachable _ _ _ afterPut)).1
  refine ((h _ ?_).2 (startedAt 1000)).2 (by decide)
  exact (congrArg (_ ∈ ·) rows_afterPut).mpr (List.mem_singleton_self _)

open Sample in
/-- **A process that started a second later reports another time** than the one that is stored. -/
theorem not_reported_updatedAt : ¬ ∀ (pg : Postgres) (reqs : List (Anchor × Request))
    (c : Snapshot Stmt Stmt.Ret Table (Anchor × Request) Result),
    Reachable pg.exec (fun _ _ => True)
      (Snapshot.init Table.empty (fun q : Anchor × Request => q.2.prog q.1) reqs) c →
    ∀ r ∈ c.state.rows, ∀ base : Anchor, base.ms < 2 ^ 62 →
      instantToMillis base (millisToInstant base r.updatedAt) = r.updatedAt := by
  intro h
  have hrow := h (Postgres.ofJsonb id) putAtOneSecond afterPut (Reachable.refl.schedule _ [0, 0])
    ⟨"acme", some "alice", theme.asStr, dark.value, 1, 1000⟩
    (by rw [rows_afterPut]; exact List.mem_singleton_self _) (startedAt 2000) (by decide)
  exact absurd hrow (by decide)

end SettingsService
