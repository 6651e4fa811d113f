import SettingsService.Serializable
import SettingsService.Subruns
import SettingsService.Runs

/-!
# Requests in flight, and the writes among them

Requests of the service in flight, reads and writes together.  A read performs one statement and
changes nothing, so the writes among the requests do to the table what they would do if they were
in flight alone.

Main definitions:

* `Request.write?` — the write that a request is;
* `writeCall` — a call of a write.

Main results:

* `Request.read_cases` — a read is one statement that changes nothing;
* `exists_write_run` — **the writes of a run are a run of writes**.
-/

set_option relaxedAutoImplicit false
set_option autoImplicit false

namespace SettingsService

open Interaction (Prog Snapshot Event Reachable Answered own calls callsOf subcalls)
open Interaction.Prog (Follows)
open OptimisticLock (Change Run)

/-- Requests of the service in flight. -/
abbrev ServiceConfig : Type := Snapshot Stmt Stmt.Ret Table Request Result

/-- A call of a request of the service. -/
abbrev ServiceEvent : Type := Event Stmt Stmt.Ret Table Request

variable {pg : Postgres} {base : Anchor}

/-! ### Reads -/

/-- The write that a request is. -/
def Request.write? : Request → Option Write
  | write w => some w
  | _ => none

theorem Request.write?_eq_some_iff {q : Request} {w : Write} :
    q.write? = some w ↔ q = .write w := by
  cases q <;> simp [write?]

/-- A request is a write, or it is a read: one statement that changes nothing, and an answer made of
what it returns. -/
theorem Request.read_cases (base : Anchor) (q : Request) : (∃ w, q = .write w) ∨
    ∃ (s : Stmt) (f : s.Ret → Result), q.prog base = .call s (fun r => .pure (f r)) ∧
      ∀ r, s.change r = none := by
  cases q with
  | get key authority => exact .inr ⟨_, _, Request.prog_get key authority, fun _ => rfl⟩
  | search query authority pagination =>
      exact .inr ⟨_, _, Request.prog_search query authority pagination, fun _ => rfl⟩
  | write w => exact .inl ⟨w, rfl⟩

/-- A call of a read changes nothing. -/
theorem Request.change_of_read {q : Request} (hq : q.write? = none)
    {tr : List (Answered Stmt Stmt.Ret)} {o : Stmt} {k : o.Ret → Prog Stmt Stmt.Ret Result}
    (h : (q.prog base).Follows tr (.call o k)) (r : o.Ret) : o.change r = none := by
  rcases q.read_cases base with ⟨w, rfl⟩ | ⟨s, f, hprog, hs⟩
  · cases hq
  · rw [hprog] at h
    rcases Interaction.Prog.follows_call_iff.1 h with ⟨-, hcall⟩ | ⟨r', tr', -, hk⟩
    · cases hcall
      exact hs r
    · cases (Interaction.Prog.follows_pure_iff.1 hk).2

/-! ### Writes -/

/-- The call of an event, if it is one of a write. -/
def writeCall (e : ServiceEvent) : Option (ℕ × Answered Stmt Stmt.Ret) :=
  e.req.write?.map fun _ => (e.who, ⟨e.op, e.reply⟩)

/-- The calls of a write among those of all writes are its own. -/
theorem callsOf_filterMap_writeCall {j : ℕ} {hist : List ServiceEvent}
    (h : ∀ e ∈ hist, e.who = j → e.req.write?.isSome) :
    callsOf j (hist.filterMap writeCall) = own j hist := by
  induction hist using List.reverseRecOn with
  | nil => rfl
  | append_singleton hist e ih =>
      rw [List.filterMap_append, Interaction.callsOf_append, Interaction.own_append,
        ih fun d hd => h d (List.mem_append_left _ hd), Interaction.own_singleton,
        List.filterMap_cons, List.filterMap_nil, writeCall]
      congr 1
      cases hw : e.req.write? with
      | none =>
          have hne : e.who ≠ j := by
            intro hj
            have := h e (by simp) hj
            rw [hw] at this
            cases this
          rw [if_neg hne]
          rfl
      | some w =>
          rw [Option.map_some, Interaction.callsOf_singleton]

/-- **The writes of a run are a run of writes.** -/
theorem exists_write_run {T₀ : Table} {qs : List Request} {c : ServiceConfig}
    (hc : Reachable pg.exec (fun _ _ => True) (Snapshot.init T₀ (Request.prog base) qs) c) :
    ∃ (ws : List Write) (c' : Snapshot Stmt Stmt.Ret Table Write Result),
      Reachable pg.exec (fun _ _ => True) (Snapshot.init T₀ (Write.prog base) ws) c' ∧
      c'.state = c.state ∧ calls c'.hist = c.hist.filterMap writeCall ∧
      ∀ (j : ℕ) (w : Write), qs[j]? = some (.write w) → ws[j]? = some w := by
  -- where there is a read there is some write that performs no call
  let idle : Write := .delete ⟨"a", by decide, by decide, by decide⟩ ⟨⟨""⟩, ⟨""⟩, .user⟩ 0
  let ws : List Write := qs.map fun q => q.write?.getD idle
  have hws : ∀ (j : ℕ) (w : Write), qs[j]? = some (.write w) → ws[j]? = some w := by
    intro j w hj
    rw [List.getElem?_map, hj]
    rfl
  have hskip : ∀ (n : ℕ) (e : ServiceEvent), c.hist[n]? = some e → writeCall e = none →
      (pg.exec e.op e.before).2 = e.before := by
    intro n e he hnone
    obtain ⟨k, hk⟩ := (hc.next he).follows
    rw [writeCall, Option.map_eq_none_iff] at hnone
    exact Postgres.exec_of_no_change (Request.change_of_read hnone hk _)
  have hcall : ∀ (n : ℕ) (e : ServiceEvent) (j : ℕ) (x : Answered Stmt Stmt.Ret),
      c.hist[n]? = some e → writeCall e = some (j, x) →
        pg.exec x.1 e.before = (x.2, (pg.exec e.op e.before).2) ∧
        ∃ w k, ws[j]? = some w ∧ (w.prog base).Follows
          (callsOf j (subcalls (fun _ e => writeCall e) (c.hist.take n))) (.call x.1 k) := by
    intro n e j x he hwrite
    rw [writeCall, Option.map_eq_some_iff] at hwrite
    obtain ⟨w, hw, hx⟩ := hwrite
    obtain ⟨rfl, rfl⟩ := Prod.mk.inj hx
    obtain ⟨-, hreply, k, hk⟩ := hc.next he
    have hreq := hc.req_of_event he
    rw [Request.write?_eq_some_iff.1 hw] at hreq hk
    have hown : ∀ d ∈ c.hist.take n, d.who = e.who → d.req.write?.isSome := by
      intro d hd hwho
      obtain ⟨m, hm⟩ := List.getElem?_of_mem (List.mem_of_mem_take hd)
      have hdreq := hc.req_of_event hm
      rw [hwho, hreq, Option.some.injEq] at hdreq
      rw [← hdreq]
      rfl
    refine ⟨Prod.ext hreply.symm rfl, w, k, hws _ w hreq, ?_⟩
    rwa [Interaction.subcalls_eq_filterMap, callsOf_filterMap_writeCall hown]
  obtain ⟨c', hc', hcalls, hstate⟩ :=
    hc.subrun (fun _ e => writeCall e) id pg.exec (Write.prog base) ws hskip hcall
  exact ⟨ws, c', hc', hstate, by rw [hcalls, Interaction.subcalls_eq_filterMap], hws⟩

end SettingsService
