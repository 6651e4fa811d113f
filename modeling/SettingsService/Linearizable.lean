import SettingsService.WriteTraces

/-!
# One at a time

Reads and writes of the service in flight, their statements interleaved in any order.  A read does
what it does at its one statement, and a write that succeeds at the statement that took effect.  Put
in the order of these statements, the requests get the same responses when each runs alone on the
table the one before it left, and no request comes before one that had returned before it began.

Main definitions:

* `ReadsPresent` — the guard: no creation of its row since the read of a `PATCH`;
* `IsPoint`, `points` — the statements at which requests do what they do;
* `Linearizes` — requests in this order, one at a time, do what they did in flight.

Main results:

* `Committed.alone` — a write whose statement took effect does the same alone, at that moment;
* `exists_linearization` — **reads and successful writes are linearizable**.
-/

set_option relaxedAutoImplicit false
set_option autoImplicit false

namespace SettingsService

open Interaction (Prog Snapshot Reachable Answered own Precedes)
open Interaction.Prog (Follows)
open OptimisticLock (Change Run)

variable {pg : Postgres} {base : Anchor} {T₀ : Table} {qs : List Request} {c : ServiceConfig}

/-! ### Writes -/

/-- **The guard**: when the `UPDATE` of a `PATCH` takes effect, no row with its identity was created
since it read. -/
def ReadsPresent (hist : List ServiceEvent) (e : ServiceEvent) : Prop :=
  match e.req with
  | .write w => w.isPatch = true → (changed e).isSome = true →
      ∀ d ∈ changes (hist.drop e.mark), d.creates w.identity = false
  | _ => True

instance (hist : List ServiceEvent) (e : ServiceEvent) : Decidable (ReadsPresent hist e) := by
  unfold ReadsPresent
  cases e.req <;> infer_instance

section Alone

variable {n : ℕ} {e : ServiceEvent} {w : Write} {d : Change Identity SettingRecord}

/-- **A write whose statement took effect does the same alone**, at that moment. -/
theorem Committed.alone
    (hc : Reachable pg.exec ReadsPresent (Snapshot.init T₀ (Request.prog base) qs) c)
    (hkeeps : ∀ e ∈ c.hist, pg.Keeps e.op)
    (he : c.hist[n]? = some e) (hd : changed e = some d)
    (h : Committed pg base T₀ c.hist n e w d) :
    w.alone pg base (tableBefore pg T₀ c.hist n) =
      (resultOf base d, tableBefore pg T₀ c.hist (n + 1)) := by
  obtain ⟨hreq, ⟨m, settings, plan, hmark, hmn, hfound, hplan, hstmt, hread⟩, -⟩ := h
  have hn : n ≤ c.hist.length := Nat.le_of_lt (List.getElem?_eq_some_iff.1 he).1
  have hrun := run_changes hc (Nat.succ_le_of_lt hmn) hn
  rw [hread] at hrun
  have hsub : ∀ d ∈ changes ((c.hist.take n).drop (m + 1)), d ∈ changes c.hist := fun d hd =>
    (((List.drop_sublist _ _).trans (List.take_sublist _ _)).filterMap changed).subset hd
  have hguard := hc.admitted he
  rw [ReadsPresent, hreq] at hguard
  have hpatch : w.isPatch = true → ∀ d ∈ changes ((c.hist.take n).drop (m + 1)),
      d.creates w.identity = false := by
    rw [← hmark]
    exact fun hp => hguard hp (by rw [hd]; rfl)
  have hchange := change_eq_of_changed hc he hd hstmt
  obtain ⟨settings', hfound', hplan'⟩ := hplan.again hfound hrun
    (fun d hd => (readable_of_changes hc hkeeps (hsub d hd)).1)
    (fun d hd => (readable_of_changes hc hkeeps (hsub d hd)).2) hpatch hchange
  rw [Write.alone_of_decides hfound' hplan' hchange, tableBefore_succ he, hstmt]

end Alone

/-! ### Points -/

/-- A request does what it does at this statement: the one of a read, or the one of a write that
takes effect. -/
def IsPoint (e : ServiceEvent) : Prop := e.req.write? = none ∨ (changed e).isSome = true

instance (e : ServiceEvent) : Decidable (IsPoint e) := inferInstanceAs (Decidable (_ ∨ _))

/-- The statements at which the requests of a history do what they do, in their order. -/
def points (hist : List ServiceEvent) : List ServiceEvent := hist.filter fun e => IsPoint e

theorem points_snoc (hist : List ServiceEvent) (e : ServiceEvent) :
    points (hist ++ [e]) = points hist ++ if IsPoint e then [e] else [] := by
  rw [points, List.filter_append, List.filter_singleton]
  simp [points]

/-- The points before a point are those of the calls before it. -/
theorem exists_of_points {hist : List ServiceEvent} {m : ℕ} {e : ServiceEvent}
    (he : (points hist)[m]? = some e) :
    ∃ n, hist[n]? = some e ∧ IsPoint e ∧ points (hist.take n) = (points hist).take m := by
  induction hist using List.reverseRecOn with
  | nil => simp [points] at he
  | append_singleton hist e' ih =>
      rw [points_snoc] at he ⊢
      rcases Nat.lt_or_ge m (points hist).length with hm | hm
      · rw [List.getElem?_append_left hm] at he
        obtain ⟨n, hn, hpoint, htake⟩ := ih he
        have hlt := (List.getElem?_eq_some_iff.1 hn).1
        refine ⟨n, by rwa [List.getElem?_append_left hlt], hpoint, ?_⟩
        rw [List.take_append_of_le_length (Nat.le_of_lt hlt), htake,
          List.take_append_of_le_length (Nat.le_of_lt hm)]
      · rw [List.getElem?_append_right hm] at he
        split_ifs at he with hpoint
        · rw [List.getElem?_singleton] at he
          split_ifs at he with hlast
          obtain rfl := Option.some.inj he
          refine ⟨hist.length, List.getElem?_concat_length, hpoint, ?_⟩
          rw [List.take_left, List.take_append, List.take_of_length_le hm, hlast, List.take_zero,
            List.append_nil]
        · simp at he

section Points

variable (hc : Reachable pg.exec ReadsPresent (Snapshot.init T₀ (Request.prog base) qs) c)
  (hkeeps : ∀ e ∈ c.hist, pg.Keeps e.op)
include hc hkeeps

/-- **What a request does at its point it does alone**, and it is done. -/
theorem alone_of_isPoint {n : ℕ} {e : ServiceEvent} (he : c.hist[n]? = some e) (h : IsPoint e) :
    ∃ x, e.req.alone pg base (tableBefore pg T₀ c.hist n) = (x, tableBefore pg T₀ c.hist (n + 1)) ∧
      (e.req.prog base).Follows (own e.who (c.hist.take (n + 1))) (.pure x) ∧
      ((∃ w, e.req = .write w) → ∃ a, x = .ok a) := by
  cases hd : changed e with
  | some d =>
      obtain ⟨w, hcommit⟩ := committed_of_changed hc he hd
      obtain ⟨a, ha⟩ := (readable_of_changes hc hkeeps
        (List.mem_filterMap.2 ⟨e, List.mem_of_getElem? he, hd⟩)).1.resultOf
      rw [hcommit.req]
      exact ⟨_, hcommit.alone hc hkeeps he hd, hcommit.done, fun _ => ⟨a, ha⟩⟩
  | none =>
      have hread : e.req.write? = none := h.resolve_right (by rw [hd]; simp)
      rcases e.req.read_cases base with ⟨w, hw⟩ | ⟨s, f, hprog, hs⟩
      · rw [hw] at hread
        cases hread
      · obtain ⟨k, hk⟩ := (hc.next he).follows
        have hreply := (reply_eq_exec hc he).2
        have hsucc : tableBefore pg T₀ c.hist (n + 1) = _ := tableBefore_succ he
        have htake : c.hist.take (n + 1) = c.hist.take n ++ [e] := by
          rw [List.take_add_one, he, Option.toList_some]
        obtain ⟨i, q, o, r, T, mark⟩ := e
        simp only at hread hprog hk hreply hsucc ⊢
        rw [hprog] at hk
        -- the read has performed no call yet
        rcases Interaction.Prog.follows_call_iff.1 hk with ⟨hown, hcall⟩ | ⟨r', tr', -, hk'⟩
        · cases hcall
          refine ⟨f r, ?_, ?_, ?_⟩
          · rw [Request.alone, hprog, Prog.run_call, Prog.run_pure, ← hreply, hsucc]
          · rw [hprog, htake, Interaction.own_append, Interaction.own_singleton, if_pos rfl]
            exact hk.snoc r
          · rintro ⟨w, rfl⟩
            cases hread
        · cases (Interaction.Prog.follows_pure_iff.1 hk').2

/-- The points of the first `n` calls, one at a time, leave the table that these calls leave. -/
theorem foldl_points {n : ℕ} (hn : n ≤ c.hist.length) :
    (points (c.hist.take n)).foldl (fun T e => (e.req.alone pg base T).2) T₀ =
      tableBefore pg T₀ c.hist n := by
  induction n with
  | zero => rfl
  | succ n ih =>
      have he : c.hist[n]? = some c.hist[n] := List.getElem?_eq_getElem hn
      rw [List.take_add_one, he, Option.toList_some, points_snoc, List.foldl_append,
        ih (Nat.le_of_succ_le hn)]
      split_ifs with hpoint
      · obtain ⟨x, halone, -⟩ := alone_of_isPoint hc hkeeps he hpoint
        rw [List.foldl_cons, List.foldl_nil, halone]
      · -- a statement that is no point changes nothing
        have hnone : changed c.hist[n] = none := by
          rw [← Option.not_isSome_iff_eq_none]
          exact fun h => hpoint (.inr h)
        rw [changed, (reply_eq_exec hc he).2] at hnone
        rw [List.foldl_nil, tableBefore_succ he, Postgres.exec_of_no_change hnone]

/-- So the table before a point is the one that the points before it leave. -/
theorem tableAt_points {m n : ℕ} (htake : points (c.hist.take n) = (points c.hist).take m)
    (hn : n ≤ c.hist.length) :
    tableAt pg base T₀ ((points c.hist).map fun e => e.req) m = tableBefore pg T₀ c.hist n := by
  rw [tableAt, ← List.map_take, List.foldl_map, ← htake, foldl_points hc hkeeps hn]

end Points

/-! ### The order of the points -/

/-- A request is served when it has returned, unless it is a write that has failed. -/
def Served (p : Interaction.Proc Stmt Stmt.Ret Request Result) : Prop :=
  ∃ x, p.prog = .pure x ∧ ((∃ w, p.req = .write w) → ∃ a, x = .ok a)

/-- **The requests at the positions `is`, one at a time in this order**, do what they did in flight:
they are the requests that are served; none of them comes before one all of whose calls came before
its own; each gets its response, and the last one leaves the table. -/
structure Linearizes (pg : Postgres) (base : Anchor) (T₀ : Table) (c : ServiceConfig)
    (is : List ℕ) : Prop where
  nodup : is.Nodup
  served : ∀ i p, c.procs[i]? = some p → (i ∈ is ↔ Served p)
  realTime : is.Pairwise fun i j => ¬ Precedes c.hist j i
  alone : ∃ rs : List Request, rs.length = is.length ∧
    (∀ m i, is[m]? = some i → ∃ p, c.procs[i]? = some p ∧ rs[m]? = some p.req ∧
      responseAt pg base T₀ rs m = p.prog.result?) ∧
    tableAt pg base T₀ rs is.length = c.state

/-- A request with a point has returned at it. -/
theorem returned_of_isPoint
    (hc : Reachable pg.exec ReadsPresent (Snapshot.init T₀ (Request.prog base) qs) c)
    (hkeeps : ∀ e ∈ c.hist, pg.Keeps e.op) {n : ℕ} {e : ServiceEvent}
    {p : Interaction.Proc Stmt Stmt.Ret Request Result}
    (he : c.hist[n]? = some e) (hpoint : IsPoint e) (hp : c.procs[e.who]? = some p) :
    p.req = e.req ∧ own e.who (c.hist.drop (n + 1)) = [] ∧ Served p ∧
      (e.req.alone pg base (tableBefore pg T₀ c.hist n)).1 ∈ p.prog.result? := by
  obtain ⟨x, halone, hfollows, hok⟩ := alone_of_isPoint hc hkeeps he hpoint
  have hreq : p.req = e.req := by
    have h := hc.req_of_proc hp
    rw [hc.req_of_event he] at h
    exact (Option.some.inj h).symm
  have hall := hc.follows hp
  rw [hreq, ← List.take_append_drop (n + 1) c.hist, Interaction.own_append] at hall
  obtain ⟨q, hq, hrest⟩ := hall.of_append
  rw [hq.unique hfollows, Interaction.Prog.follows_pure_iff] at hrest
  refine ⟨hreq, hrest.1, ⟨x, hrest.2, hreq ▸ hok⟩, ?_⟩
  rw [halone, hrest.2]
  rfl

/-- A request that is served has a point. -/
theorem exists_point_of_served
    (hc : Reachable pg.exec ReadsPresent (Snapshot.init T₀ (Request.prog base) qs) c) {i : ℕ}
    {p : Interaction.Proc Stmt Stmt.Ret Request Result} (hp : c.procs[i]? = some p)
    (h : Served p) : ∃ e ∈ points c.hist, e.who = i := by
  obtain ⟨x, hx, hok⟩ := h
  have hfollows := hc.follows hp
  rw [hx] at hfollows
  have hpoint : ∃ (n : ℕ) (e : ServiceEvent), c.hist[n]? = some e ∧ e.who = i ∧ IsPoint e := by
    cases hwrite : p.req.write? with
    | some w =>
        have hw := Request.write?_eq_some_iff.1 hwrite
        obtain ⟨a, rfl⟩ := hok ⟨w, hw⟩
        rw [hw] at hfollows
        obtain ⟨y, hy, hchange⟩ := (Write.performed_of_follows hfollows).of_ok
        obtain ⟨n, e, he, hwho, rfl⟩ := Interaction.mem_own_iff.1 hy
        exact ⟨n, e, he, hwho, .inr hchange⟩
    | none =>
        rcases p.req.read_cases base with ⟨w, hw⟩ | ⟨s, f, hprog, -⟩
        · rw [hw] at hwrite
          cases hwrite
        · rw [hprog] at hfollows
          rcases Interaction.Prog.follows_call_iff.1 hfollows with ⟨-, hcall⟩ | ⟨r, tr, hown, -⟩
          · cases hcall
          · obtain ⟨n, e, he, hwho, -⟩ := Interaction.mem_own_iff.1
              (show (⟨s, r⟩ : Answered Stmt Stmt.Ret) ∈ own i c.hist by simp [hown])
            refine ⟨n, e, he, hwho, .inl ?_⟩
            have hreq := hc.req_of_event he
            rw [hwho, hc.req_of_proc hp, Option.some.injEq] at hreq
            rw [← hreq, hwrite]
  obtain ⟨n, e, he, hwho, h⟩ := hpoint
  exact ⟨e, List.mem_filter.2 ⟨List.mem_of_getElem? he, decide_eq_true h⟩, hwho⟩

/-- The order of the points. -/
theorem linearizes_points
    (hc : Reachable pg.exec ReadsPresent (Snapshot.init T₀ (Request.prog base) qs) c)
    (hkeeps : ∀ e ∈ c.hist, pg.Keeps e.op) :
    Linearizes pg base T₀ c ((points c.hist).map fun e => e.who) := by
  have hproc : ∀ {n : ℕ} {e : ServiceEvent}, c.hist[n]? = some e → ∃ p, c.procs[e.who]? = some p :=
    fun he => (hc.exists_proc (hc.req_of_event he)).imp fun _ h => h.1
  refine ⟨?_, fun i p hp => ?_, ?_, (points c.hist).map fun e => e.req, by simp,
    fun m i hm => ?_, ?_⟩
  · -- no call of a process comes after its point
    have hafter : c.hist.Pairwise fun e e' => IsPoint e → e.who ≠ e'.who := by
      rw [List.pairwise_iff_getElem]
      intro m n hm hn hmn hpoint hwho
      have he : c.hist[m]? = some c.hist[m] := List.getElem?_eq_getElem hm
      obtain ⟨p, hp⟩ := hproc he
      have hnil := (returned_of_isPoint hc hkeeps he hpoint hp).2.1
      have hmem : (⟨c.hist[n].op, c.hist[n].reply⟩ : Answered Stmt Stmt.Ret) ∈
          own c.hist[m].who (c.hist.drop (m + 1)) := by
        refine Interaction.mem_own_iff.2 ⟨n - (m + 1), c.hist[n], ?_, hwho.symm, rfl⟩
        rw [List.getElem?_drop, Nat.add_sub_cancel' hmn, List.getElem?_eq_getElem hn]
      rw [hnil] at hmem
      cases hmem
    refine List.Pairwise.map _ (fun _ _ h => h) ?_
    refine List.Pairwise.imp_of_mem (fun he _ h => ?_) (hafter.filter fun e => decide (IsPoint e))
    exact h (of_decide_eq_true (List.mem_filter.1 he).2)
  · constructor
    · intro hi
      obtain ⟨e, he, rfl⟩ := List.mem_map.1 hi
      obtain ⟨hmem, hpoint⟩ := List.mem_filter.1 he
      obtain ⟨n, hn⟩ := List.getElem?_of_mem hmem
      exact (returned_of_isPoint hc hkeeps hn (of_decide_eq_true hpoint) hp).2.2.1
    · intro h
      obtain ⟨e, he, hwho⟩ := exists_point_of_served hc hp h
      exact List.mem_map.2 ⟨e, he, hwho⟩
  · have horder : c.hist.Pairwise fun e e' => ¬ Precedes c.hist e'.who e.who := by
      rw [List.pairwise_iff_getElem]
      intro m n hm hn hmn hprec
      exact List.pairwise_iff_getElem.1 hprec m n hm hn hmn ⟨rfl, rfl⟩
    exact (horder.filter fun e => decide (IsPoint e)).map _ fun _ _ h => h
  · rw [List.getElem?_map, Option.map_eq_some_iff] at hm
    obtain ⟨e, hm, rfl⟩ := hm
    obtain ⟨n, he, hpoint, htake⟩ := exists_of_points hm
    obtain ⟨p, hp⟩ := hproc he
    obtain ⟨hreq, -, -, hresult⟩ := returned_of_isPoint hc hkeeps he hpoint hp
    refine ⟨p, hp, ?_⟩
    have hn : n ≤ c.hist.length := Nat.le_of_lt (List.getElem?_eq_some_iff.1 he).1
    rw [responseAt, tableAt_points hc hkeeps htake hn, List.getElem?_map, hm, hreq]
    exact ⟨rfl, hresult.symm⟩
  · rw [List.length_map, tableAt_points hc hkeeps (n := c.hist.length) (by simp) (Nat.le_refl _),
      hc.state_eq, tableBefore, List.take_length]

/-- **Reads and successful writes are linearizable.** -/
theorem exists_linearization
    (hc : Reachable pg.exec ReadsPresent (Snapshot.init T₀ (Request.prog base) qs) c)
    (hkeeps : ∀ e ∈ c.hist, pg.Keeps e.op) :
    ∃ is, Linearizes pg base T₀ c is := ⟨_, linearizes_points hc hkeeps⟩

open Sample in
/-- A `PUT`, then a `PATCH` of what it created, with a read between the statements of the
`PATCH`. -/
theorem exists_linearization_of_read_between :
    let c := (Snapshot.init Table.empty (Request.prog ⟨0, 0⟩)
      [.write (.put theme dark alice none 0), .write (.patch theme big alice 1 0),
        .get theme alice]).schedule (Postgres.ofJsonb id).exec [0, 0, 1, 2, 1]
    ∃ is, Linearizes (Postgres.ofJsonb id) ⟨0, 0⟩ Table.empty c is :=
  exists_linearization ((Reachable.refl.schedule _ _).of_hist (by decide +kernel))
    fun _ _ _ _ => rfl

end SettingsService
