import Mathlib.Data.List.Basic
import Mathlib.Tactic.Common

/-!
# Programs that call a shared store, and their interleavings

A *program* either returns a value or performs one call on a store and goes on with the answer.
Several programs can run against one store: each call is atomic, and the calls of different
programs interleave in any order.  This module is about such programs in general; it does not fix
the store, its calls or the requests the programs come from.

Main definitions:

* `Interaction.Prog`, `Interaction.Prog.bind` — programs and their sequencing;
* `Interaction.Prog.run` — a program running alone, with nothing in between its calls;
* `Interaction.Snapshot`, `Interaction.Step` — processes in flight over one store, with the history
  of all calls performed so far, and one atomic call of one process;
* `Interaction.Snapshot.Quiet` — no process is in flight;
* `Interaction.Reachable` — the snapshots reached when every call performed is admitted by a
  guard on the history and the call.

Main results:

* `Interaction.Prog.run_bind` — running a sequence of two programs;
* `Interaction.Reachable.run_proc` — a process may run to its end with nothing in between;
* `Interaction.Reachable.congr` — a run depends on the meaning of the calls in it alone;
* `Interaction.Reachable.invariant` — **the invariant rule**: an invariant of the store and the
  history together with an invariant of each process hold in every reachable snapshot, if one
  call preserves both and does not disturb the invariant of the other processes.
-/

set_option relaxedAutoImplicit false
set_option autoImplicit false

namespace Interaction

/-! ### Programs -/

/-- A program over the calls `Op`, where the call `o` is answered by a `Ret o`. -/
inductive Prog (Op : Type) (Ret : Op → Type) (α : Type) : Type
  | pure (a : α) : Prog Op Ret α
  | call (o : Op) (k : Ret o → Prog Op Ret α) : Prog Op Ret α

namespace Prog

variable {Op : Type} {Ret : Op → Type} {α β γ σ : Type}

/-- Run `p`, then `f` on its result. -/
def bind : Prog Op Ret α → (α → Prog Op Ret β) → Prog Op Ret β
  | pure a, f => f a
  | call o k, f => call o fun r => (k r).bind f

instance : Monad (Prog Op Ret) where
  pure := Prog.pure
  bind := Prog.bind

/-- The program that performs one call and returns its answer. -/
def perform (o : Op) : Prog Op Ret (Ret o) := call o pure

@[simp] theorem pure_eq (a : α) : (Pure.pure a : Prog Op Ret α) = Prog.pure a := rfl

@[simp] theorem bind_pure (a : α) (f : α → Prog Op Ret β) : (Prog.pure a >>= f) = f a := rfl

@[simp] theorem bind_call (o : Op) (k : Ret o → Prog Op Ret α) (f : α → Prog Op Ret β) :
    (Prog.call o k >>= f) = Prog.call o fun r => k r >>= f := rfl

@[simp] theorem bind_perform (o : Op) (f : Ret o → Prog Op Ret β) :
    (perform o >>= f) = Prog.call o f := rfl

@[simp] theorem map_pure (f : α → β) (a : α) : f <$> (Prog.pure a : Prog Op Ret α) = pure (f a) :=
  rfl

@[simp] theorem map_call (f : α → β) (o : Op) (k : Ret o → Prog Op Ret α) :
    f <$> Prog.call o k = Prog.call o fun r => f <$> k r := rfl

/-- **A program running alone**: every call is answered by `h` and nothing happens in between. -/
def run (h : (o : Op) → σ → Ret o × σ) : Prog Op Ret α → σ → α × σ
  | pure a, s => (a, s)
  | call o k, s => run h (k (h o s).1) (h o s).2

@[simp] theorem run_pure (h : (o : Op) → σ → Ret o × σ) (a : α) (s : σ) :
    run h (pure a) s = (a, s) := rfl

@[simp] theorem run_call (h : (o : Op) → σ → Ret o × σ) (o : Op) (k : Ret o → Prog Op Ret α)
    (s : σ) : run h (call o k) s = run h (k (h o s).1) (h o s).2 := rfl

/-- What a program returns, if it has nothing left to do. -/
def result? : Prog Op Ret α → Option α
  | pure a => some a
  | call _ _ => none

theorem result?_eq_some_iff {p : Prog Op Ret α} {a : α} : p.result? = some a ↔ p = pure a := by
  cases p with
  | pure b => simp [result?]
  | call o k => simp [result?]

/-- Running a sequence is running its parts one after the other. -/
theorem run_bind (h : (o : Op) → σ → Ret o × σ) (p : Prog Op Ret α) (f : α → Prog Op Ret β)
    (s : σ) : run h (p >>= f) s = run h (f (run h p s).1) (run h p s).2 := by
  induction p generalizing s with
  | pure a => rfl
  | call o k ih => rw [bind_call, run_call, ih, run_call]

end Prog

/-! ### Processes in flight -/

variable {Op : Type} {Ret : Op → Type} {σ ι α : Type}

/-- A process: the request it serves, what is left of its program, and the length the history had
when it performed its last call. -/
structure Proc (Op : Type) (Ret : Op → Type) (ι α : Type) where
  /-- The request the process serves. -/
  req : ι
  /-- What is left to do. -/
  prog : Prog Op Ret α
  /-- The calls of the history from this position on came after the last call of the process. -/
  mark : ℕ

/-- One call performed: by which process and for which request, the call and its answer, the store
just before it, and the mark of the process. -/
structure Event (Op : Type) (Ret : Op → Type) (σ ι : Type) where
  /-- The position of the process. -/
  who : ℕ
  /-- The request of the process. -/
  req : ι
  /-- The call. -/
  op : Op
  /-- The answer. -/
  reply : Ret op
  /-- The store just before the call. -/
  before : σ
  /-- The mark of the process just before the call. -/
  mark : ℕ

/-- A moment of a run: the store, the processes, and the calls performed so far, oldest first. -/
structure Snapshot (Op : Type) (Ret : Op → Type) (σ ι α : Type) where
  /-- The store. -/
  state : σ
  /-- The processes in flight and those that have finished. -/
  procs : List (Proc Op Ret ι α)
  /-- The calls performed so far. -/
  hist : List (Event Op Ret σ ι)

/-- The call `o` of the process `p` at position `i`, as an event. -/
def eventOf (h : (o : Op) → σ → Ret o × σ) (s : σ) (i : ℕ) (p : Proc Op Ret ι α) (o : Op) :
    Event Op Ret σ ι := ⟨i, p.req, o, (h o s).1, s, p.mark⟩

/-- The process `p` after its call `o` was answered in the store `s`, `n` calls having been
performed before. -/
def Proc.next (h : (o : Op) → σ → Ret o × σ) (s : σ) (n : ℕ) (p : Proc Op Ret ι α) (o : Op)
    (k : Ret o → Prog Op Ret α) : Proc Op Ret ι α := ⟨p.req, k (h o s).1, n + 1⟩

/-- No process is in flight. -/
def Snapshot.Quiet (c : Snapshot Op Ret σ ι α) : Prop := ∀ p ∈ c.procs, ∃ a, p.prog = .pure a

instance (c : Snapshot Op Ret σ ι α) : Decidable c.Quiet :=
  decidable_of_iff (∀ p ∈ c.procs, p.prog.result?.isSome = true) <|
    forall₂_congr fun p _ => by simp only [Option.isSome_iff_exists, Prog.result?_eq_some_iff]

/-- All requests have arrived and no call has been performed yet. -/
def Snapshot.init (s : σ) (prog : ι → Prog Op Ret α) (reqs : List ι) : Snapshot Op Ret σ ι α :=
  ⟨s, reqs.map fun r => ⟨r, prog r, 0⟩, []⟩

/-- **One atomic call of one process**, admitted by the guard `G`. -/
inductive Step (h : (o : Op) → σ → Ret o × σ)
    (G : List (Event Op Ret σ ι) → Event Op Ret σ ι → Prop) :
    Snapshot Op Ret σ ι α → Snapshot Op Ret σ ι α → Prop
  | call {s : σ} {procs : List (Proc Op Ret ι α)} {hist : List (Event Op Ret σ ι)} {i : ℕ}
      {p : Proc Op Ret ι α} {o : Op} {k : Ret o → Prog Op Ret α}
      (hp : procs[i]? = some p) (hk : p.prog = .call o k) (hG : G hist (eventOf h s i p o)) :
      Step h G ⟨s, procs, hist⟩
        ⟨(h o s).2, procs.set i (p.next h s hist.length o k), hist ++ [eventOf h s i p o]⟩

/-- The snapshots reached by calls that the guard `G` admits. -/
inductive Reachable (h : (o : Op) → σ → Ret o × σ)
    (G : List (Event Op Ret σ ι) → Event Op Ret σ ι → Prop) (c₀ : Snapshot Op Ret σ ι α) :
    Snapshot Op Ret σ ι α → Prop
  | refl : Reachable h G c₀ c₀
  | step {c c' : Snapshot Op Ret σ ι α} : Reachable h G c₀ c → Step h G c c' → Reachable h G c₀ c'

/-- Let the process at position `i` perform its next call, if it has one. -/
def Snapshot.advance (h : (o : Op) → σ → Ret o × σ) (c : Snapshot Op Ret σ ι α) (i : ℕ) :
    Snapshot Op Ret σ ι α :=
  match c.procs[i]? with
  | none => c
  | some p =>
      match p.prog with
      | .pure _ => c
      | .call o k =>
          ⟨(h o c.state).2, c.procs.set i (p.next h c.state c.hist.length o k),
            c.hist ++ [eventOf h c.state i p o]⟩

/-- Let processes perform calls in the order of a schedule. -/
def Snapshot.schedule (h : (o : Op) → σ → Ret o × σ) (c : Snapshot Op Ret σ ι α) (is : List ℕ) :
    Snapshot Op Ret σ ι α := is.foldl (Snapshot.advance h) c

/-- Every schedule reaches a snapshot, when every call is admitted. -/
theorem Reachable.schedule (h : (o : Op) → σ → Ret o × σ) {c₀ c : Snapshot Op Ret σ ι α}
    (hc : Reachable h (fun _ _ => True) c₀ c) (is : List ℕ) :
    Reachable h (fun _ _ => True) c₀ (c.schedule h is) := by
  induction is generalizing c with
  | nil => exact hc
  | cons i is ih =>
      refine @ih (c.advance h i) ?_
      rw [Snapshot.advance]
      split
      · exact hc
      · rename_i p hp
        split
        · exact hc
        · rename_i o k hk
          exact hc.step (.call hp hk trivial)

variable {h : (o : Op) → σ → Ret o × σ} {G : List (Event Op Ret σ ι) → Event Op Ret σ ι → Prop}

/-- **A process may run to its end** with nothing in between its calls. -/
theorem Reachable.run_proc {c₀ c : Snapshot Op Ret σ ι α}
    (hc : Reachable h (fun _ _ => True) c₀ c) {i : ℕ} {p : Proc Op Ret ι α}
    (hp : c.procs[i]? = some p) :
    ∃ c', Reachable h (fun _ _ => True) c₀ c' ∧ c'.state = (p.prog.run h c.state).2 ∧
      ∀ j, j ≠ i → c'.procs[j]? = c.procs[j]? := by
  obtain ⟨req, prog, mark⟩ := p
  induction prog generalizing c mark with
  | pure a => exact ⟨c, hc, rfl, fun _ _ => rfl⟩
  | call o k ih =>
      obtain ⟨s, procs, hist⟩ := c
      have hlt : i < procs.length := (List.getElem?_eq_some_iff.1 hp).1
      obtain ⟨c', hc', hstate, hprocs⟩ := ih (h o s).1 (hc.step (.call hp rfl trivial)) _
        (List.getElem?_set_self hlt)
      exact ⟨c', hc', hstate, fun j hj => (hprocs j hj).trans (List.getElem?_set_ne hj.symm)⟩

/-- A run whose history meets the guard at every call is a run under the guard. -/
theorem Reachable.of_hist {c₀ c : Snapshot Op Ret σ ι α} (hc : Reachable h (fun _ _ => True) c₀ c)
    (hG : ∀ n (hn : n < c.hist.length), G (c.hist.take n) c.hist[n]) : Reachable h G c₀ c := by
  induction hc with
  | refl => exact .refl
  | step _ hs ih =>
      cases hs with
      | @call s procs hist i p o k hp hk _ =>
          refine (ih fun n hn => ?_).step (.call hp hk ?_)
          · have hn' : n < (hist ++ [eventOf h s i p o]).length := by
              rw [List.length_append]
              exact Nat.lt_add_right _ hn
            have := hG n hn'
            rwa [List.take_append_of_le_length (Nat.le_of_lt hn),
              List.getElem_append_left hn] at this
          · have := hG hist.length (by simp)
            simpa using this

/-- **A run depends on the meaning of the calls in it alone.** -/
theorem Reachable.congr {c₀ c : Snapshot Op Ret σ ι α} (hc : Reachable h G c₀ c)
    {h' : (o : Op) → σ → Ret o × σ} (heq : ∀ e ∈ c.hist, ∀ s, h e.op s = h' e.op s) :
    Reachable h' G c₀ c := by
  induction hc with
  | refl => exact .refl
  | step _ hs ih =>
      cases hs with
      | @call s procs hist i p o k hp hk hG =>
          have hcall : h o s = h' o s :=
            heq _ (List.mem_append_right _ (List.mem_singleton_self _)) s
          have hevent : eventOf h s i p o = eventOf h' s i p o := by
            rw [eventOf, hcall, eventOf]
          rw [hevent] at hG ⊢
          rw [Proc.next, hcall]
          exact (ih fun e he => heq e (List.mem_append_left _ he)).step (.call hp hk hG)

/-- **The invariant rule.**  `I` is an invariant of the store and the history, `P` one of each
process.  If the call of one process preserves `I`, re-establishes `P` for that process and keeps
`P` for every other one, both hold in every reachable snapshot. -/
theorem Reachable.invariant {I : σ → List (Event Op Ret σ ι) → Prop}
    {P : σ → List (Event Op Ret σ ι) → ℕ → Proc Op Ret ι α → Prop} {s₀ : σ}
    {prog : ι → Prog Op Ret α} {reqs : List ι}
    (hI : I s₀ []) (hP : ∀ i r, reqs[i]? = some r → P s₀ [] i ⟨r, prog r, 0⟩)
    (hstep : ∀ s hist i p o k, I s hist → P s hist i p → p.prog = .call o k →
      G hist (eventOf h s i p o) →
        I (h o s).2 (hist ++ [eventOf h s i p o]) ∧
        P (h o s).2 (hist ++ [eventOf h s i p o]) i (p.next h s hist.length o k) ∧
        ∀ j q, j ≠ i → P s hist j q → P (h o s).2 (hist ++ [eventOf h s i p o]) j q)
    {c : Snapshot Op Ret σ ι α} (hc : Reachable h G (Snapshot.init s₀ prog reqs) c) :
    I c.state c.hist ∧ ∀ i p, c.procs[i]? = some p → P c.state c.hist i p := by
  induction hc with
  | refl =>
      refine ⟨hI, fun i p hp => ?_⟩
      simp only [Snapshot.init, List.getElem?_map, Option.map_eq_some_iff] at hp
      obtain ⟨r, hr, rfl⟩ := hp
      exact hP i r hr
  | step _ hs ih =>
      cases hs with
      | @call s procs hist i p o k hp hk hG =>
          obtain ⟨ihI, ihP⟩ := ih
          obtain ⟨hI', hPi, hPj⟩ := hstep s hist i p o k ihI (ihP i p hp) hk hG
          refine ⟨hI', fun j q hq => ?_⟩
          rcases eq_or_ne j i with rfl | hj
          · have hlt : j < procs.length := (List.getElem?_eq_some_iff.1 hp).1
            simp only [List.getElem?_set_self hlt, Option.some.injEq] at hq
            exact hq ▸ hPi
          · have hq' : procs[j]? = some q := by
              rwa [List.getElem?_set_ne (Ne.symm hj)] at hq
            exact hPj j q hj (ihP j q hq')

/-- The requests of the processes never change. -/
theorem Reachable.procs_req {s₀ : σ} {prog : ι → Prog Op Ret α} {reqs : List ι}
    {c : Snapshot Op Ret σ ι α} (hc : Reachable h G (Snapshot.init s₀ prog reqs) c) :
    c.procs.map Proc.req = reqs := by
  induction hc with
  | refl => simp [Snapshot.init, Function.comp_def]
  | step _ hs ih =>
      cases hs with
      | @call s procs hist i p o k hp hk hG =>
          have hlt : i < procs.length := (List.getElem?_eq_some_iff.1 hp).1
          have hpi : procs[i] = p := (List.getElem?_eq_some_iff.1 hp).2
          rw [← ih, List.map_set]
          refine List.ext_getElem (by simp) fun j h₁ h₂ => ?_
          rcases eq_or_ne i j with rfl | hj
          · simp [Proc.next, hpi]
          · simp [List.getElem_set_ne hj]

end Interaction
