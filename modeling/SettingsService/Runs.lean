import SettingsService.Service

/-!
# Requests one at a time

Runs in which each request runs alone, on the table the request before it left.  A read returns
what the decision of the service makes of the rows and changes nothing; a write makes at most one
change, that of the statement it decided on.

Main definitions:

* `changesOf` — the changes a program makes when it runs alone;
* `tableAt`, `responseAt`, `changesAt` — the table before a request of a run, its response, and the
  changes it makes.

Main results:

* `run_changesOf`, `run_changesFrom` — the changes are a run of the versioned store;
* `changesOf_write` — **a write makes at most the change of the statement it decides on**;
* `Write.alone_cases` — a write alone succeeds with its change, or fails and changes nothing;
* `exists_reachable_tableAt` — such a run is one of the interleavings;
* `Request.makes_of_mem_changesOf` — what a change says about the request that made it;
* `Request.exists_row_of_response` — **a response is the decoded row** of its identity.
-/

set_option relaxedAutoImplicit false
set_option autoImplicit false

namespace SettingsService

open Interaction (Prog Snapshot Reachable)
open OptimisticLock (Change Run)

variable {pg : Postgres} {base : Anchor}

/-! ### Changes of a program -/

/-- The changes a program makes when it runs alone. -/
def changesOf (pg : Postgres) {α : Type} :
    Prog Stmt Stmt.Ret α → Table → List (Change Identity SettingRecord)
  | .pure _, _ => []
  | .call o k, T =>
      (o.change (pg.exec o T).1).toList ++ changesOf pg (k (pg.exec o T).1) (pg.exec o T).2

@[simp] theorem changesOf_pure {α : Type} (a : α) (T : Table) :
    changesOf pg (.pure a : Prog Stmt Stmt.Ret α) T = [] := rfl

theorem changesOf_call {α : Type} (o : Stmt) (k : o.Ret → Prog Stmt Stmt.Ret α) (T : Table) :
    changesOf pg (.call o k) T = (o.change (pg.exec o T).1).toList ++
      changesOf pg (k (pg.exec o T).1) (pg.exec o T).2 := rfl

/-- **The changes of a program are a run of the versioned store.** -/
theorem run_changesOf {α : Type} (p : Prog Stmt Stmt.Ret α) (T : Table) :
    Run T.view (changesOf pg p T) (Prog.run pg.exec p T).2.view := by
  induction p generalizing T with
  | pure a => exact .nil
  | call o k ih =>
      rw [changesOf_call, Prog.run_call]
      rcases pg.exec_change o T with ⟨hc, hT⟩ | ⟨c, hc, heff⟩
      · rw [hc, hT]
        exact ih _ T
      · rw [hc]
        exact Run.cons_iff.2 ⟨_, heff, ih _ _⟩

/-! ### Reads -/

/-- What `get` makes of the settings found. -/
def Service.readable (authority : Authority) (rows : List Setting) : Except SettingsError Setting :=
  if rows.isEmpty then .error .notFound
  else okOr (rows.find? fun s => authority.canRead s.ownership) .forbidden

/-- **`get` is one read and a decision.** -/
theorem Request.prog_get (key : SettingKey) (authority : Authority) :
    (Request.get key authority).prog base = .call (.find authority.tenant.asStr key.asStr) fun r =>
      .pure ((Repo.decodeRows base authority.tenant.asStr key.asStr r >>=
        Service.readable authority).map .setting) := by
  refine congrArg (Prog.call _) (funext fun r => ?_)
  rcases r with e | rows
  · rfl
  · change (Reply.setting <$> (lift (List.mapM (SettingRecord.intoDomain base) rows) >>= fun rows =>
      if rows.isEmpty then throw .notFound
      else lift (okOr (rows.find? fun s => authority.canRead s.ownership) .forbidden))).run = _
    rw [Repo.decodeRows]
    cases List.mapM (SettingRecord.intoDomain base) rows with
    | error e => rfl
    | ok settings =>
        rw [lift_bind_ok]
        change _ = Prog.pure ((Service.readable authority settings).map Reply.setting)
        rw [Service.readable]
        split_ifs
        · rfl
        · exact Realises.run_map_lift _ _

/-- `search` is one statement. -/
theorem Request.prog_search (query : String) (authority : Authority) (pagination : Pagination) :
    (Request.search query authority pagination).prog base =
      .call (.search authority.tenant.asStr (pattern query) authority.user.asStr
        (authority.role == .admin) pagination.limit pagination.offset) fun r => .pure (match r with
          | .ok rows => (collectPage base rows ⟨[], 0⟩).map .page
          | .error e => .error (mapPgErr e)) := by
  refine congrArg (Prog.call _) (funext fun r => ?_)
  rcases r with e | rows
  · rfl
  · exact Realises.run_map_lift _ _

/-- `get` alone. -/
theorem Request.alone_get (key : SettingKey) (authority : Authority) (T : Table) :
    (Request.get key authority).alone pg base T =
      ((Repo.found base pg T key authority.tenant >>= Service.readable authority).map .setting,
        T) := by
  rw [alone, prog_get, Prog.run_call, Prog.run_pure, Postgres.exec_find_snd]
  rfl

/-! ### Changes of a request -/

/-- A check makes no change. -/
theorem changesOf_rest {o : Option Result} {p : Prog Stmt Stmt.Ret Result} (h : Plan.Rest o p)
    (T : Table) : changesOf pg p T = [] := by
  cases h with
  | effective x => rfl
  | failed e => rfl
  | check key ownership => rfl

/-- **A write makes at most the change of the statement it decides on.** -/
theorem changesOf_write (w : Write) (T : Table) : changesOf pg (w.prog base) T =
    match Repo.found base pg T w.key w.authority.tenant >>= w.decide with
      | .ok plan => ((plan.stmt base).change (pg.exec (plan.stmt base) T).1).toList
      | .error _ => [] := by
  rw [w.prog_eq, changesOf_call, Postgres.exec_find_snd]
  change [] ++ changesOf pg (Plan.progOf base
    (Repo.found base pg T w.key w.authority.tenant >>= w.decide)) T = _
  cases Repo.found base pg T w.key w.authority.tenant >>= w.decide with
  | error e => rfl
  | ok plan =>
      obtain ⟨k, hk, hrest⟩ := plan.exists_prog_eq base
      change [] ++ changesOf pg (plan.prog base) T = _
      rw [hk, changesOf_call, changesOf_rest (hrest _), List.append_nil, List.nil_append]

/-- **A write alone**: it makes one change, takes its result from it and leaves the table with it,
or it makes none, fails and leaves the table as it was. -/
theorem Write.alone_cases (pg : Postgres) (base : Anchor) (w : Write) (T : Table) :
    (∃ settings plan c, Repo.found base pg T w.key w.authority.tenant = .ok settings ∧
      w.Decides settings plan ∧ (plan.stmt base).change (pg.exec (plan.stmt base) T).1 = some c ∧
      changesOf pg (w.prog base) T = [c] ∧
      w.alone pg base T = (resultOf base c, (pg.exec (plan.stmt base) T).2)) ∨
    (changesOf pg (w.prog base) T = [] ∧ ∃ e, w.alone pg base T = (.error e, T)) := by
  rw [changesOf_write, w.alone_eq]
  cases hf : Repo.found base pg T w.key w.authority.tenant with
  | error e => exact .inr ⟨rfl, e, rfl⟩
  | ok settings =>
      cases hd : w.decide settings with
      | error e =>
          simp only [bind, Except.bind, hd]
          exact .inr ⟨trivial, e, rfl⟩
      | ok plan =>
          simp only [bind, Except.bind, hd]
          rcases plan.run_prog T with ⟨c, hc, hrun⟩ | ⟨hc, e, hrun⟩
          · refine .inl ⟨settings, plan, c, rfl, decide_eq_ok_iff.1 hd, hc, by rw [hc]; rfl, hrun⟩
          · exact .inr ⟨by rw [hc]; rfl, e, hrun⟩

/-- A read makes no change. -/
theorem changesOf_get (key : SettingKey) (authority : Authority) (T : Table) :
    changesOf pg ((Request.get key authority).prog base) T = [] := by
  rw [Request.prog_get]
  rfl

theorem changesOf_search (query : String) (authority : Authority) (pagination : Pagination)
    (T : Table) : changesOf pg ((Request.search query authority pagination).prog base) T = [] := by
  rw [Request.prog_search]
  rfl

/-- **A change was made by a write**, and is one it may make. -/
theorem Request.makes_of_mem_changesOf {q : Request} {T : Table} {c : Change Identity SettingRecord}
    (hc : c ∈ changesOf pg (q.prog base) T) : ∃ w, q = .write w ∧ w.Makes T c := by
  cases q with
  | get key authority => simp [changesOf_get] at hc
  | search query authority pagination => simp [changesOf_search] at hc
  | write w =>
      obtain ⟨settings, plan, d, hfound, hplan, hch, hd, -⟩ | ⟨hnil, -⟩ := w.alone_cases pg base T
      · rw [Request.prog, hd, List.mem_singleton] at hc
        exact ⟨w, rfl, hc ▸ hplan.makes hfound hch⟩
      · simp [Request.prog, hnil] at hc

/-! ### Responses -/

/-- What `get` returns is one of the settings found, and readable. -/
theorem Service.readable_eq_ok {authority : Authority} {rows : List Setting} {s : Setting}
    (h : readable authority rows = .ok s) : s ∈ rows ∧ authority.canRead s.ownership = true := by
  rw [readable] at h
  split_ifs at h
  cases hf : rows.find? fun s => authority.canRead s.ownership with
  | none => simp [hf, okOr] at h
  | some s' =>
      rw [hf, okOr, Except.ok.injEq] at h
      subst h
      exact ⟨List.mem_of_find?_eq_some hf, by simpa using List.find?_some hf⟩

/-- **A response is the decoded row of its identity.** -/
theorem Request.exists_row_of_response {q : Request} {T : Table} {s : Setting}
    (h : (q.alone pg base T).1 = .ok (.setting s)) : ∃ r,
      (q.alone pg base T).2.row? s.identity = some r ∧ r.intoDomain base = .ok s := by
  cases q with
  | search query authority pagination =>
      rw [alone, prog_search, Prog.run_call, Prog.run_pure] at h
      split at h
      · rename_i rows _
        cases hp : collectPage base rows ⟨[], 0⟩ <;> simp [hp, Except.map] at h
      · exact absurd h (by simp)
  | get key authority =>
      rw [alone_get] at h ⊢
      cases hf : Repo.found base pg T key authority.tenant with
      | error e => simp [hf, bind, Except.bind, Except.map] at h
      | ok settings =>
          cases hs : Service.readable authority settings with
          | error e => simp [hf, hs, bind, Except.bind, Except.map] at h
          | ok s' =>
              simp only [hf, hs, bind, Except.bind, Except.map, Except.ok.injEq,
                Reply.setting.injEq] at h
              subst h
              obtain ⟨r, hr, hu, hdec⟩ := (Repo.mem_found hf).1 (Service.readable_eq_ok hs).1
              exact ⟨r, Table.row?_eq_some_iff.2 ⟨hr, SettingRecord.identity_eq hu.2 hdec⟩, hdec⟩
  | write w =>
      obtain ⟨settings, plan, c, hfound, hplan, hc, -, halone⟩ | ⟨-, e, halone⟩ :=
        w.alone_cases pg base T
      · change (w.alone pg base T).1 = _ at h
        change ∃ r, (w.alone pg base T).2.row? s.identity = some r ∧ _
        rw [halone] at h ⊢
        obtain ⟨r, hr, hdec⟩ := content_of_resultOf h
        obtain ⟨n, hn⟩ := (Postgres.effective_of_change hc).of_content hr
        rw [(hplan.makes hfound hc).key_eq] at hn
        have hrow := (Table.view_eq_some_iff.1 hn).1
        have hid := (Table.row?_eq_some_iff.1 hrow).2
        rw [← SettingRecord.identity_eq (Repo.under_of_identity hid).2 hdec, hid]
        exact ⟨r, hrow, hdec⟩
      · change (w.alone pg base T).1 = _ at h
        rw [halone] at h
        exact absurd h (by simp)

/-! ### Runs -/

section Runs

variable (pg : Postgres) (base : Anchor) (T₀ : Table) (reqs : List Request)

/-- The table before the request at position `i` of a run. -/
def tableAt (i : ℕ) : Table := (reqs.take i).foldl (fun T q => (q.alone pg base T).2) T₀

/-- The response to the request at position `i` of a run. -/
def responseAt (i : ℕ) : Option Result :=
  reqs[i]?.map fun q => (q.alone pg base (tableAt pg base T₀ reqs i)).1

/-- The changes the request at position `i` of a run makes. -/
def changesAt (i : ℕ) : List (Change Identity SettingRecord) :=
  reqs[i]?.elim [] fun q => changesOf pg (q.prog base) (tableAt pg base T₀ reqs i)

/-- The changes of `n` requests of a run, from position `i` on. -/
def changesFrom (i n : ℕ) : List (Change Identity SettingRecord) :=
  (List.range' i n).flatMap (changesAt pg base T₀ reqs)

end Runs

variable {T₀ : Table} {reqs : List Request}

theorem tableAt_succ {i : ℕ} {q : Request} (hq : reqs[i]? = some q) :
    tableAt pg base T₀ reqs (i + 1) = (q.alone pg base (tableAt pg base T₀ reqs i)).2 := by
  rw [tableAt, List.take_add_one, hq, List.foldl_append]
  rfl

variable (pg base T₀ reqs) in
/-- **One request after the other is one of the interleavings**: the tables of a run are reached. -/
theorem exists_reachable_tableAt (i : ℕ) : ∃ c : Snapshot Stmt Stmt.Ret Table Request Result,
    Reachable pg.exec (fun _ _ => True) (Snapshot.init T₀ (Request.prog base) reqs) c ∧
      c.state = tableAt pg base T₀ reqs i ∧
      ∀ j, i ≤ j → c.procs[j]? = reqs[j]?.map fun q => ⟨q, q.prog base, 0⟩ := by
  induction i with
  | zero => exact ⟨_, .refl, rfl, fun j _ => by rw [Snapshot.init, List.getElem?_map]⟩
  | succ i ih =>
      obtain ⟨c, hc, hstate, hprocs⟩ := ih
      cases hq : reqs[i]? with
      | none =>
          refine ⟨c, hc, ?_, fun j hj => hprocs j (by omega)⟩
          rw [hstate, tableAt, tableAt, List.take_add_one, hq]
          simp
      | some q =>
          have hp := hprocs i (le_refl i)
          rw [hq] at hp
          obtain ⟨c', hc', hstate', hprocs'⟩ := hc.run_proc hp
          refine ⟨c', hc', ?_, fun j hj => (hprocs' j (by omega)).trans (hprocs j (by omega))⟩
          rw [hstate', hstate, tableAt_succ hq]
          rfl

/-- The changes of one request lead from the table before it to the table before the next. -/
theorem run_changesAt (i : ℕ) : Run (tableAt pg base T₀ reqs i).view (changesAt pg base T₀ reqs i)
    (tableAt pg base T₀ reqs (i + 1)).view := by
  rw [changesAt]
  cases hq : reqs[i]? with
  | none =>
      rw [tableAt, tableAt, List.take_add_one, hq]
      simpa using Run.nil
  | some q =>
      rw [tableAt_succ hq]
      exact run_changesOf _ _

/-- **The changes of a stretch of a run** lead from the table before it to the table after it. -/
theorem run_changesFrom (i n : ℕ) : Run (tableAt pg base T₀ reqs i).view
    (changesFrom pg base T₀ reqs i n) (tableAt pg base T₀ reqs (i + n)).view := by
  induction n with
  | zero => exact .nil
  | succ n ih =>
      rw [changesFrom, List.range'_concat, List.flatMap_append, Nat.one_mul]
      refine Run.append_iff.2 ⟨_, ih, ?_⟩
      rw [List.flatMap_singleton]
      exact run_changesAt (i + n)

theorem mem_changesFrom {i n : ℕ} {c : Change Identity SettingRecord} :
    c ∈ changesFrom pg base T₀ reqs i n ↔
      ∃ l, i ≤ l ∧ l < i + n ∧ c ∈ changesAt pg base T₀ reqs l := by
  rw [changesFrom, List.mem_flatMap]
  refine exists_congr fun l => ?_
  rw [List.mem_range'_1, and_assoc]

/-- A change in a run was made by a write of the run. -/
theorem makes_of_mem_changesAt {i : ℕ} {c : Change Identity SettingRecord}
    (hc : c ∈ changesAt pg base T₀ reqs i) :
    ∃ w, reqs[i]? = some (.write w) ∧ w.Makes (tableAt pg base T₀ reqs i) c := by
  rw [changesAt] at hc
  cases hq : reqs[i]? with
  | none => simp [hq] at hc
  | some q =>
      rw [hq] at hc
      obtain ⟨w, rfl, hm⟩ := Request.makes_of_mem_changesOf hc
      exact ⟨w, rfl, hm⟩

end SettingsService
