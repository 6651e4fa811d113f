import SettingsService.Traces

/-!
# Runs and purged runs

A system takes inputs one at a time, answers each, and some part of its state can be observed.  Some
inputs are *mine*.  If my inputs are answered and change what I observe by what I observe alone, and
the other inputs do not change what I observe, then deleting the other inputs from a run changes
neither the answers to mine nor what I observe after them.

Main definitions:

* `Purge.trace` — the inputs of a run, with their answers and what is observed after each;
* `Purge.Unwinds` — the two conditions on single steps.

Main results:

* `Purge.Unwinds.filter_trace`, `Purge.Unwinds.obs_after` — **purging is unobservable**;
* `Interaction.Prog.Only.run_consistent`, `Interaction.Prog.Only.run_silent` — a program meets a
  condition that each of its calls meets.
-/

set_option relaxedAutoImplicit false
set_option autoImplicit false

namespace Purge

variable {I O S V : Type}

/-- The inputs of a run, each with its answer and with what is observed after it. -/
def trace (step : I → S → O × S) (obs : S → V) : S → List I → List (I × O × V)
  | _, [] => []
  | s, i :: is => (i, (step i s).1, obs (step i s).2) :: trace step obs (step i s).2 is

/-- What single steps have to do for the inputs that are `mine`. -/
structure Unwinds (step : I → S → O × S) (obs : S → V) (mine : I → Bool) : Prop where
  /-- My inputs see no more than what is observed. -/
  consistent : ∀ i s s', mine i = true → obs s = obs s' →
    (step i s).1 = (step i s').1 ∧ obs (step i s).2 = obs (step i s').2
  /-- The others change nothing that is observed. -/
  silent : ∀ i s, mine i = false → obs (step i s).2 = obs s

/-- **Purging is unobservable.** -/
theorem Unwinds.filter_trace {step : I → S → O × S} {obs : S → V} {mine : I → Bool}
    (h : Unwinds step obs mine) {s s' : S} (hs : obs s = obs s') (is : List I) :
    ((trace step obs s is).filter fun x => mine x.1) = trace step obs s' (is.filter mine) := by
  induction is generalizing s s' with
  | nil => rfl
  | cons i is ih =>
      cases hi : mine i with
      | true =>
          obtain ⟨hout, hobs⟩ := h.consistent i s s' hi hs
          simp only [trace, List.filter_cons, hi, if_true]
          rw [ih hobs, hout, hobs]
      | false =>
          simp only [trace, List.filter_cons, hi, Bool.false_eq_true, if_false]
          -- the purged run stands still while the full run takes a step nobody sees
          exact ih ((h.silent i s hi).trans hs)

/-- The state after the inputs of a run. -/
def after (step : I → S → O × S) (s : S) (is : List I) : S := is.foldl (fun s i => (step i s).2) s

/-- Purging leaves what is observed in the end. -/
theorem Unwinds.obs_after {step : I → S → O × S} {obs : S → V} {mine : I → Bool}
    (h : Unwinds step obs mine) {s s' : S} (hs : obs s = obs s') (is : List I) :
    obs (after step s is) = obs (after step s' (is.filter mine)) := by
  induction is generalizing s s' with
  | nil => exact hs
  | cons i is ih =>
      cases hi : mine i with
      | true =>
          rw [List.filter_cons_of_pos hi]
          exact ih (h.consistent i s s' hi hs).2
      | false =>
          rw [List.filter_cons_of_neg (by simp [hi])]
          exact ih ((h.silent i s hi).trans hs)

end Purge

namespace Interaction.Prog.Only

variable {Op : Type} {Ret : Op → Type} {α σ V : Type} {h : (o : Op) → σ → Ret o × σ}
  {K : Op → Prop} {p : Prog Op Ret α} {obs : σ → V}

/-- A program whose calls see no more than what is observed sees no more than that. -/
theorem run_consistent (hp : Only K p)
    (hK : ∀ o s s', K o → obs s = obs s' → (h o s).1 = (h o s').1 ∧ obs (h o s).2 = obs (h o s').2)
    {s s' : σ} (hs : obs s = obs s') :
    (p.run h s).1 = (p.run h s').1 ∧ obs (p.run h s).2 = obs (p.run h s').2 := by
  induction p generalizing s s' with
  | pure a => exact ⟨rfl, hs⟩
  | call o k ih =>
      obtain ⟨hfst, hobs⟩ := hK o s s' hp.1 hs
      rw [run_call, run_call, hfst]
      exact ih _ (hp.2 _) hobs

/-- A program whose calls change nothing that is observed changes nothing of it. -/
theorem run_silent (hp : Only K p) (hK : ∀ o s, K o → obs (h o s).2 = obs s) (s : σ) :
    obs (p.run h s).2 = obs s := by
  induction p generalizing s with
  | pure a => rfl
  | call o k ih => exact (ih _ (hp.2 _) _).trans (hK o s hp.1)

end Interaction.Prog.Only
