import SettingsService.Subruns

/-!
# Programs with silent calls

A program may do what another one does and call something else in between.  Some of its calls are
kept, as calls of the other program; the others are silent.  If the silent calls leave the store of
the other program alone, then processes that run the one are, without their silent calls, processes
that run the other.

Main definitions:

* `Interaction.Prog.Erases` — a program, without its silent calls, is another one.

Main results:

* `Interaction.Prog.Erases.bind`, `Interaction.Prog.Erases.except_bind` — one after the other;
* `Interaction.Prog.Erases.follows` — what is kept of the calls of the program are those of the
  other;
* `Interaction.Reachable.erase` — **a run without its silent calls is a run**.
-/

set_option relaxedAutoImplicit false
set_option autoImplicit false

namespace Interaction

variable {Op Op' : Type} {Ret : Op → Type} {Ret' : Op' → Type} {α β ε : Type}

namespace Prog

/-- **The program, without its silent calls, is the other one**, where `kept` says what a call and
its answer are kept as. -/
inductive Erases (kept : Answered Op' Ret' → Option (Answered Op Ret)) :
    Prog Op' Ret' α → Prog Op Ret α → Prop
  | pure (a : α) : Erases kept (.pure a) (.pure a)
  /-- A call that is kept. -/
  | call {o' : Op'} {o : Op} {k' : Ret' o' → Prog Op' Ret' α} {k : Ret o → Prog Op Ret α}
      (g : Ret' o' → Ret o) (hkept : ∀ r, kept ⟨o', r⟩ = some ⟨o, g r⟩)
      (h : ∀ r, Erases kept (k' r) (k (g r))) : Erases kept (.call o' k') (.call o k)
  /-- A silent call. -/
  | silent {o' : Op'} {k' : Ret' o' → Prog Op' Ret' α} {p : Prog Op Ret α}
      (hsilent : ∀ r, kept ⟨o', r⟩ = none) (h : ∀ r, Erases kept (k' r) p) :
      Erases kept (.call o' k') p

variable {kept : Answered Op' Ret' → Option (Answered Op Ret)}

theorem Erases.eq_pure {a : α} {p : Prog Op Ret α} (h : Erases kept (.pure a) p) : p = .pure a := by
  cases h
  rfl

theorem Erases.bind {d : Prog Op' Ret' α} {p : Prog Op Ret α} {f : α → Prog Op' Ret' β}
    {g : α → Prog Op Ret β} (h : Erases kept d p) (hf : ∀ a, Erases kept (f a) (g a)) :
    Erases kept (d >>= f) (p >>= g) := by
  induction h with
  | pure a => exact hf a
  | call g hkept _ ih => exact .call g hkept ih
  | silent hsilent _ ih => exact .silent hsilent ih

/-- A silent end. -/
theorem Erases.bind_silent {d : Prog Op' Ret' α} {p : Prog Op Ret α} {f : α → Prog Op' Ret' α}
    (h : Erases kept d p) (hf : ∀ a, Erases kept (f a) (.pure a)) : Erases kept (d >>= f) p := by
  induction h with
  | pure a => exact hf a
  | call g hkept _ ih => exact .call g hkept ih
  | silent hsilent _ ih => exact .silent hsilent ih

theorem Erases.except_bind {x : ExceptT ε (Prog Op' Ret') α} {y : ExceptT ε (Prog Op Ret) α}
    {f : α → ExceptT ε (Prog Op' Ret') β} {g : α → ExceptT ε (Prog Op Ret) β}
    (h : Erases kept x.run y.run) (hf : ∀ a, Erases kept (f a).run (g a).run) :
    Erases kept (x >>= f).run (y >>= g).run := by
  rw [ExceptT.run_bind, ExceptT.run_bind]
  refine h.bind fun a => ?_
  cases a with
  | ok a => exact hf a
  | error e => exact .pure _

/-- What is kept of the calls of a program are those of the other one. -/
theorem Erases.follows {d d' : Prog Op' Ret' α} {p : Prog Op Ret α}
    {tr : List (Answered Op' Ret')} (h : Erases kept d p) (hd : d.Follows tr d') :
    ∃ p', p.Follows (tr.filterMap kept) p' ∧ Erases kept d' p' := by
  induction hd generalizing p with
  | refl => exact ⟨p, .refl p, h⟩
  | @call o' k' r tr q hk ih =>
      cases h with
      | call g hkept hks =>
          obtain ⟨p', hp', hq⟩ := ih (hks r)
          rw [List.filterMap_cons_some (hkept r)]
          exact ⟨p', .call hp', hq⟩
      | silent hsilent hks =>
          obtain ⟨p', hp', hq⟩ := ih (hks r)
          rw [List.filterMap_cons_none (hsilent r)]
          exact ⟨p', hp', hq⟩

end Prog

open Prog (Erases)

section Runs

variable {σ σ' ι : Type} {kept : Answered Op' Ret' → Option (Answered Op Ret)}

/-- What is kept of a call, with the process that performed it. -/
def keptBy (kept : Answered Op' Ret' → Option (Answered Op Ret)) (e : Event Op' Ret' σ' ι) :
    Option (ℕ × Answered Op Ret) := (kept ⟨e.op, e.reply⟩).map (e.who, ·)

theorem callsOf_keptBy (i : ℕ) (hist : List (Event Op' Ret' σ' ι)) :
    callsOf i (hist.filterMap (keptBy kept)) = (own i hist).filterMap kept := by
  induction hist using List.reverseRecOn with
  | nil => rfl
  | append_singleton hist e ih =>
      rw [List.filterMap_append, callsOf_append, ih, own_append, List.filterMap_append,
        own_singleton, List.filterMap_cons, List.filterMap_nil, keptBy]
      congr 1
      cases hk : kept ⟨e.op, e.reply⟩ with
      | none =>
          split_ifs
          · rw [List.filterMap_cons_none hk]
            rfl
          · rfl
      | some x =>
          rw [Option.map_some, callsOf_singleton]
          split_ifs
          · rw [List.filterMap_cons_some hk]
            rfl
          · rfl

/-- **A run without its silent calls is a run.** -/
theorem Reachable.erase {h' : (o : Op') → σ' → Ret' o × σ'} {h : (o : Op) → σ → Ret o × σ}
    {G : List (Event Op' Ret' σ' ι) → Event Op' Ret' σ' ι → Prop} {s₀ : σ'}
    {prog' : ι → Prog Op' Ret' α} {prog : ι → Prog Op Ret α} {reqs : List ι}
    {c : Snapshot Op' Ret' σ' ι α} (hc : Reachable h' G (Snapshot.init s₀ prog' reqs) c)
    (hprog : ∀ q, Erases kept (prog' q) (prog q)) (view : σ' → σ)
    (hcall : ∀ (o' : Op') (s : σ') (x : Answered Op Ret), kept ⟨o', (h' o' s).1⟩ = some x →
      h x.1 (view s) = (x.2, view (h' o' s).2))
    (hsilent : ∀ (o' : Op') (s : σ'), kept ⟨o', (h' o' s).1⟩ = none → view (h' o' s).2 = view s) :
    ∃ c₁, Reachable h (fun _ _ => True) (Snapshot.init (view s₀) prog reqs) c₁ ∧
      calls c₁.hist = c.hist.filterMap (keptBy kept) ∧ c₁.state = view c.state ∧
      ∀ (i : ℕ) (p : Proc Op' Ret' ι α), c.procs[i]? = some p →
        ∃ p₁, c₁.procs[i]? = some p₁ ∧ p₁.req = p.req ∧ Erases kept p.prog p₁.prog := by
  have hskip : ∀ (n : ℕ) (e : Event Op' Ret' σ' ι), c.hist[n]? = some e →
      keptBy kept e = none → view (h' e.op e.before).2 = view e.before := by
    intro n e he hl
    rw [keptBy, Option.map_eq_none_iff] at hl
    refine hsilent e.op e.before ?_
    rwa [← (hc.next he).reply]
  have hkept : ∀ (n : ℕ) (e : Event Op' Ret' σ' ι) (j : ℕ) (x : Answered Op Ret),
      c.hist[n]? = some e → keptBy kept e = some (j, x) →
        h x.1 (view e.before) = (x.2, view (h' e.op e.before).2) ∧
        ∃ q k, reqs[j]? = some q ∧ (prog q).Follows
          (callsOf j (subcalls (fun _ e => keptBy kept e) (c.hist.take n))) (.call x.1 k) := by
    intro n e j x he hl
    rw [keptBy, Option.map_eq_some_iff] at hl
    obtain ⟨y, hy, hjy⟩ := hl
    obtain ⟨rfl, rfl⟩ := Prod.mk.inj hjy
    refine ⟨hcall e.op e.before y (by rwa [← (hc.next he).reply]), ?_⟩
    obtain ⟨k, hk⟩ := (hc.next he).follows
    obtain ⟨p', hp', herase⟩ := (hprog e.req).follows hk
    refine ⟨e.req, ?_⟩
    rw [subcalls_eq_filterMap, callsOf_keptBy]
    cases herase with
    | call g hg _ =>
        obtain rfl := Option.some.inj ((hg e.reply).symm.trans hy)
        exact ⟨_, hc.req_of_event he, hp'⟩
    | silent hnone _ => cases (hnone e.reply).symm.trans hy
  obtain ⟨c₁, hc₁, hcalls, hstate⟩ := hc.subrun (fun _ e => keptBy kept e) view h prog reqs hskip
    hkept
  rw [subcalls_eq_filterMap] at hcalls
  refine ⟨c₁, hc₁, hcalls, hstate, fun i p hp => ?_⟩
  obtain ⟨p₁, hp₁, hreq⟩ := hc₁.exists_proc (hc.req_of_proc hp)
  refine ⟨p₁, hp₁, hreq, ?_⟩
  obtain ⟨p', hp', herase⟩ := (hprog p.req).follows (hc.follows hp)
  have hfollows := hc₁.follows hp₁
  rw [← callsOf_calls, hcalls, callsOf_keptBy, hreq] at hfollows
  rwa [hfollows.unique hp']

end Runs

end Interaction
