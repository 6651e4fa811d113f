import Mathlib.Data.List.Flatten
import Mathlib.Data.List.Perm.Subperm
import SettingsService.Subruns

/-!
# Programs that pay what they owe

Some calls of a program owe something, depending on their answers, and some pay something.  A
program pays what it owes if at any moment it has paid a first part of what it owes, in order, and
everything once it has returned.

Main definitions:

* `Interaction.Prog.Pays` — a program pays what it owes, where the answers are as they may be.

Main results:

* `Interaction.Prog.Pays.bind`, `Interaction.Prog.Pays.except_bind` — one after the other;
* `Interaction.Prog.Pays.translate` — in another language of calls;
* `Interaction.Reachable.pays` — processes in flight have paid a first part of what they owe;
* `Interaction.Reachable.subperm_of_pays`, `Interaction.Reachable.perm_of_pays` — **together they
  have paid nothing that they do not owe**, and all of it once they have returned.
-/

set_option relaxedAutoImplicit false
set_option autoImplicit false

namespace Interaction

variable {Op Op' : Type} {Ret : Op → Type} {Ret' : Op' → Type} {α β γ ε : Type}

namespace Prog

/-- **The program pays what it owes**, where the answers to its calls are `ok`. -/
def Pays (ok : Answered Op Ret → Prop) (due paid : Answered Op Ret → Option γ)
    (x : Prog Op Ret α) : Prop :=
  ∀ tr p, x.Follows tr p → (∀ y ∈ tr, ok y) →
    tr.filterMap paid <+: tr.filterMap due ∧
      ∀ a, p = .pure a → tr.filterMap paid = tr.filterMap due

variable {ok : Answered Op Ret → Prop} {due paid : Answered Op Ret → Option γ}

theorem pays_pure (a : α) : Pays ok due paid (.pure a : Prog Op Ret α) := by
  intro tr p h _
  obtain ⟨rfl, -⟩ := follows_pure_iff.1 h
  exact ⟨List.nil_prefix, fun _ _ => rfl⟩

theorem Pays.bind {x : Prog Op Ret α} {f : α → Prog Op Ret β} (hx : Pays ok due paid x)
    (hf : ∀ a, Pays ok due paid (f a)) : Pays ok due paid (x >>= f) := by
  intro tr p h hok
  rcases follows_bind h with ⟨o, k, h₁, rfl⟩ | ⟨a, t₁, t₂, rfl, h₁, h₂⟩
  · exact ⟨(hx _ _ h₁ hok).1, fun b hb => by cases hb⟩
  · have hfirst := (hx _ _ h₁ fun y hy => hok y (List.mem_append_left _ hy)).2 a rfl
    obtain ⟨hfst, hall⟩ := hf a _ _ h₂ fun y hy => hok y (List.mem_append_right _ hy)
    rw [List.filterMap_append, List.filterMap_append, hfirst]
    exact ⟨(List.prefix_append_right_inj _).2 hfst, fun b hb => by rw [hall b hb]⟩

theorem Pays.except_bind {x : ExceptT ε (Prog Op Ret) α} {f : α → ExceptT ε (Prog Op Ret) β}
    (hx : Pays ok due paid x.run) (hf : ∀ a, Pays ok due paid (f a).run) :
    Pays ok due paid (x >>= f).run := by
  rw [ExceptT.run_bind]
  refine hx.bind fun a => ?_
  cases a with
  | ok a => exact hf a
  | error e => exact pays_pure _

/-- What is made of the result owes and pays nothing. -/
theorem Pays.of_bind_pure {x : Prog Op Ret α} {f : α → Prog Op Ret β}
    (hf : ∀ a, ∃ b, f a = .pure b) (h : Pays ok due paid (x >>= f)) : Pays ok due paid x := by
  intro tr p hp hok
  obtain ⟨hfst, hall⟩ := h _ _ hp.bind hok
  refine ⟨hfst, fun a ha => ?_⟩
  obtain ⟨b, hb⟩ := hf a
  subst ha
  exact hall b hb

theorem Pays.of_except_map {x : ExceptT ε (Prog Op Ret) α} {g : α → β}
    (h : Pays ok due paid (g <$> x).run) : Pays ok due paid x.run := by
  refine Pays.of_bind_pure (fun a => ?_) h
  cases a with
  | ok a => exact ⟨_, rfl⟩
  | error e => exact ⟨_, rfl⟩

/-- Every call of a translated program is a translated call. -/
theorem only_translate {S : Op → Prop} {f : Op' → Op} {back : (o : Op') → Ret (f o) → Ret' o}
    (hf : ∀ o, S (f o)) (x : Prog Op' Ret' α) : Only S (x.translate f back) := by
  induction x with
  | pure a => exact trivial
  | call o k ih => exact ⟨hf o, fun r => ih _⟩

/-- A program whose calls owe and pay nothing. -/
theorem Pays.of_only {x : Prog Op Ret α}
    (h : Only (fun o => ∀ r, due ⟨o, r⟩ = none ∧ paid ⟨o, r⟩ = none) x) :
    Pays ok due paid x := by
  intro tr p hp _
  have hnone : ∀ y ∈ tr, due y = none ∧ paid y = none := fun y hy => h.of_mem hp hy y.2
  rw [List.filterMap_eq_nil_iff.2 fun y hy => (hnone y hy).2,
    List.filterMap_eq_nil_iff.2 fun y hy => (hnone y hy).1]
  exact ⟨List.nil_prefix, fun _ _ => rfl⟩

/-- In another language of calls. -/
theorem Pays.translate {ok' : Answered Op' Ret' → Prop} {due' paid' : Answered Op' Ret' → Option γ}
    {f : Op' → Op} {back : (o : Op') → Ret (f o) → Ret' o} {x : Prog Op' Ret' α}
    (hx : Pays ok' due' paid' x) (hok : ∀ o r, ok ⟨f o, r⟩ → ok' ⟨o, back o r⟩)
    (hdue : ∀ o r, due ⟨f o, r⟩ = due' ⟨o, back o r⟩)
    (hpaid : ∀ o r, paid ⟨f o, r⟩ = paid' ⟨o, back o r⟩) :
    Pays ok due paid (x.translate f back) := by
  intro tr p h hall
  obtain ⟨tr', y, hy, hq, htr⟩ := follows_translate h
  obtain ⟨hall', htr₁, htr₂⟩ : (∀ z ∈ tr', ok' z) ∧
      tr.filterMap due = tr'.filterMap due' ∧ tr.filterMap paid = tr'.filterMap paid' := by
    clear h hy hq
    induction htr with
    | nil => exact ⟨fun z hz => absurd hz List.not_mem_nil, rfl, rfl⟩
    | @cons z z' tr tr' hz _ ih =>
        obtain ⟨o, r'⟩ := z'
        obtain ⟨r, rfl, rfl⟩ : ∃ r : Ret (f o), z = ⟨f o, r⟩ ∧ r' = back o r := hz
        obtain ⟨hall', htr₁, htr₂⟩ := ih fun z hz => hall z (List.mem_cons_of_mem _ hz)
        refine ⟨List.forall_mem_cons.2 ⟨hok o r (hall _ List.mem_cons_self), hall'⟩, ?_, ?_⟩
        · rw [List.filterMap_cons, List.filterMap_cons, hdue, htr₁]
        · rw [List.filterMap_cons, List.filterMap_cons, hpaid, htr₂]
  obtain ⟨hfst, hdone⟩ := hx _ _ hy hall'
  rw [htr₁, htr₂]
  refine ⟨hfst, fun a ha => ?_⟩
  cases y with
  | pure b =>
      obtain rfl := Prog.pure.inj (hq.symm.trans ha)
      exact hdone b rfl
  | call o k => cases hq.symm.trans ha

end Prog

open Prog (Pays)

section Runs

variable {σ ι : Type} {h : (o : Op) → σ → Ret o × σ}
  {G : List (Event Op Ret σ ι) → Event Op Ret σ ι → Prop} {s₀ : σ} {prog : ι → Prog Op Ret α}
  {reqs : List ι} {c : Snapshot Op Ret σ ι α} {ok : Answered Op Ret → Prop}
  {due paid : Answered Op Ret → Option γ}

/-- **What a process in flight has paid** is a first part of what it owes, and all of it once it has
returned. -/
theorem Reachable.pays (hc : Reachable h G (Snapshot.init s₀ prog reqs) c)
    (hprog : ∀ q, Pays ok due paid (prog q)) (hok : ∀ o s, ok ⟨o, (h o s).1⟩) {i : ℕ}
    {p : Proc Op Ret ι α} (hp : c.procs[i]? = some p) :
    (own i c.hist).filterMap paid <+: (own i c.hist).filterMap due ∧
      ∀ a, p.prog = .pure a → (own i c.hist).filterMap paid = (own i c.hist).filterMap due := by
  refine hprog p.req _ _ (hc.follows hp) fun y hy => ?_
  obtain ⟨n, e, he, -, rfl⟩ := mem_own_iff.1 hy
  rw [(hc.next he).reply]
  exact hok e.op e.before

/-- What the processes have done is what each of them has done. -/
theorem Reachable.perm_procs (hc : Reachable h G (Snapshot.init s₀ prog reqs) c)
    (f : Answered Op Ret → Option γ) :
    ((List.range c.procs.length).flatMap fun i => (own i c.hist).filterMap f).Perm
      (c.hist.filterMap fun e => f ⟨e.op, e.reply⟩) := by
  refine perm_own f List.nodup_range fun e he _ => ?_
  obtain ⟨n, hn⟩ := List.getElem?_of_mem he
  obtain ⟨p, hp, -⟩ := hc.exists_proc (hc.req_of_event hn)
  exact List.mem_range.2 (List.getElem?_eq_some_iff.1 hp).1

/-- **Together they have paid nothing that they do not owe**, and nothing twice. -/
theorem Reachable.subperm_of_pays (hc : Reachable h G (Snapshot.init s₀ prog reqs) c)
    (hprog : ∀ q, Pays ok due paid (prog q)) (hok : ∀ o s, ok ⟨o, (h o s).1⟩) :
    (c.hist.filterMap fun e => paid ⟨e.op, e.reply⟩).Subperm
      (c.hist.filterMap fun e => due ⟨e.op, e.reply⟩) := by
  have hsub : ((List.range c.procs.length).flatMap fun i => (own i c.hist).filterMap paid).Sublist
      ((List.range c.procs.length).flatMap fun i => (own i c.hist).filterMap due) := by
    refine List.Sublist.flatMap_right _ fun i hi => ?_
    exact (hc.pays hprog hok (List.getElem?_eq_getElem (List.mem_range.1 hi))).1.sublist
  exact ((hc.perm_procs paid).symm.subperm.trans hsub.subperm).trans (hc.perm_procs due).subperm

/-- **Once all have returned, they have paid what they owe.** -/
theorem Reachable.perm_of_pays (hc : Reachable h G (Snapshot.init s₀ prog reqs) c)
    (hprog : ∀ q, Pays ok due paid (prog q)) (hok : ∀ o s, ok ⟨o, (h o s).1⟩)
    (hquiet : c.Quiet) :
    (c.hist.filterMap fun e => paid ⟨e.op, e.reply⟩).Perm
      (c.hist.filterMap fun e => due ⟨e.op, e.reply⟩) := by
  refine ((hc.perm_procs paid).symm.trans (List.Perm.of_eq ?_)).trans (hc.perm_procs due)
  refine List.flatMap_congr fun i hi => ?_
  have hp := List.getElem?_eq_getElem (List.mem_range.1 hi)
  obtain ⟨a, ha⟩ := hquiet _ (List.mem_of_getElem? hp)
  exact (hc.pays hprog hok hp).2 a ha

end Runs

end Interaction
