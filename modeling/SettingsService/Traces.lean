import SettingsService.Interaction
import Mathlib.Data.List.Induction

/-!
# The calls of one process

What a process in flight has left to do is what its request's program becomes along the calls that
process performed, whatever the other processes did in between.  So a statement about one process
of an interleaving is a statement about the traces of its program alone.

Main definitions:

* `Interaction.Prog.Follows` — a program becomes another one along a list of answered calls;
* `Interaction.Prog.Only` — every call a program can perform is of a kind;
* `Interaction.Prog.Ensures` — what a program performs and returns if it is answered as agreed;
* `Interaction.Prog.Served` — a store answers a list of calls;
* `Interaction.Prog.Performs` — running alone, a program performs a call of a kind;
* `Interaction.Prog.translate` — a program as one over more calls;
* `Interaction.own`, `Interaction.replay` — the calls of one process in a history, and what all
  calls of a history make of a store;
* `Interaction.Alone` — what a request alone on a store has left to do.

Main results:

* `Interaction.Prog.follows_bind` — the traces of a sequence of two programs;
* `Interaction.Prog.Only.run_congr` — a run depends on the meaning of the calls of its program;
* `Interaction.Prog.Follows.eq_of_agree` — the same answers make a program do the same;
* `Interaction.Prog.run_eq_iff` — **running alone** is following the calls that the store answers;
* `Interaction.Prog.run_translate` — a translated program runs on its part of the store;
* `Interaction.Reachable.follows` — **a process has followed its own calls**;
* `Interaction.Reachable.ensures` — **programs whose calls are answered as agreed**, in any
  interleaving;
* `Interaction.Reachable.next` — every call of a history was the next call of its process and was
  answered by the store it found.
-/

set_option relaxedAutoImplicit false
set_option autoImplicit false

namespace Interaction

variable {Op : Type} {Ret : Op → Type} {α β σ ι : Type}

/-! ### Traces of a program -/

/-- A call with its answer. -/
abbrev Answered (Op : Type) (Ret : Op → Type) : Type := Σ o : Op, Ret o

namespace Prog

/-- `p` becomes `q` along a list of answered calls. -/
inductive Follows : Prog Op Ret α → List (Answered Op Ret) → Prog Op Ret α → Prop
  | refl (p : Prog Op Ret α) : Follows p [] p
  | call {o : Op} {k : Ret o → Prog Op Ret α} {r : Ret o} {tr : List (Answered Op Ret)}
      {q : Prog Op Ret α} (h : Follows (k r) tr q) : Follows (.call o k) (⟨o, r⟩ :: tr) q

variable {p q : Prog Op Ret α} {tr : List (Answered Op Ret)}

theorem follows_pure_iff {a : α} : Follows (.pure a) tr q ↔ tr = [] ∧ q = .pure a := by
  constructor
  · intro h
    cases h with
    | refl => exact ⟨rfl, rfl⟩
  · rintro ⟨rfl, rfl⟩
    exact .refl _

theorem follows_call_iff {o : Op} {k : Ret o → Prog Op Ret α} : Follows (.call o k) tr q ↔
    (tr = [] ∧ q = .call o k) ∨ ∃ r tr', tr = ⟨o, r⟩ :: tr' ∧ Follows (k r) tr' q := by
  constructor
  · intro h
    cases h with
    | refl => exact .inl ⟨rfl, rfl⟩
    | call h => exact .inr ⟨_, _, rfl, h⟩
  · rintro (⟨rfl, rfl⟩ | ⟨r, tr', rfl, h⟩)
    · exact .refl _
    · exact .call h

/-- A program that has a call left and returns in the end performs the call. -/
theorem returns_call_iff {o : Op} {k : Ret o → Prog Op Ret α} {a : α} :
    Follows (.call o k) tr (.pure a) ↔
      ∃ r tr', tr = ⟨o, r⟩ :: tr' ∧ Follows (k r) tr' (.pure a) := by
  rw [follows_call_iff]
  simp

theorem Follows.append {tr' : List (Answered Op Ret)} {r : Prog Op Ret α} (h : Follows p tr q)
    (h' : Follows q tr' r) : Follows p (tr ++ tr') r := by
  induction h with
  | refl => exact h'
  | call _ ih => exact .call (ih h')

/-- One more call. -/
theorem Follows.snoc {o : Op} {k : Ret o → Prog Op Ret α} (h : Follows p tr (.call o k))
    (r : Ret o) : Follows p (tr ++ [⟨o, r⟩]) (k r) := h.append (.call (.refl _))

/-- What came first, and what came then. -/
theorem Follows.of_append {tr' : List (Answered Op Ret)} {q' : Prog Op Ret α}
    (h : Follows p (tr ++ tr') q') : ∃ m, Follows p tr m ∧ Follows m tr' q' := by
  induction tr generalizing p with
  | nil => exact ⟨p, .refl _, h⟩
  | cons x tr ih =>
      cases h with
      | call h =>
          obtain ⟨m, hm, hq'⟩ := ih h
          exact ⟨m, .call hm, hq'⟩

/-- A call on the way was the next one when it was performed. -/
theorem Follows.reaches {x : Answered Op Ret} {tr' : List (Answered Op Ret)} {q' : Prog Op Ret α}
    (h : Follows p (tr ++ x :: tr') q') : ∃ k, Follows p tr (.call x.1 k) := by
  obtain ⟨m, hm, hq⟩ := h.of_append
  cases hq with
  | call _ => exact ⟨_, hm⟩

/-- The answers decide how a program goes on. -/
theorem Follows.unique {q' : Prog Op Ret α} (h : Follows p tr q) (h' : Follows p tr q') :
    q = q' := by
  induction h with
  | refl =>
      cases h' with
      | refl => rfl
  | call _ ih =>
      cases h' with
      | call h' => exact ih h'

theorem Follows.bind {f : α → Prog Op Ret β} (h : Follows p tr q) :
    Follows (p >>= f) tr (q >>= f) := by
  induction h with
  | refl => exact .refl _
  | call _ ih => exact .call ih

/-- **The traces of a sequence**: the first program has a call left, or it has returned. -/
theorem follows_bind {f : α → Prog Op Ret β} {q : Prog Op Ret β} (h : Follows (p >>= f) tr q) :
    (∃ o k, Follows p tr (.call o k) ∧ q = .call o fun r => k r >>= f) ∨
      ∃ a t₁ t₂, tr = t₁ ++ t₂ ∧ Follows p t₁ (.pure a) ∧ Follows (f a) t₂ q := by
  induction p generalizing tr with
  | pure a => exact .inr ⟨a, [], tr, rfl, .refl _, h⟩
  | call o k ih =>
      rw [bind_call, follows_call_iff] at h
      rcases h with ⟨rfl, rfl⟩ | ⟨r, tr', rfl, h⟩
      · exact .inl ⟨o, k, .refl _, rfl⟩
      · rcases ih r h with ⟨o', k', hp', rfl⟩ | ⟨a, t₁, t₂, rfl, h₁, h₂⟩
        · exact .inl ⟨o', k', .call hp', rfl⟩
        · exact .inr ⟨a, ⟨o, r⟩ :: t₁, t₂, rfl, .call h₁, h₂⟩

/-- A sequence returns when both programs do. -/
theorem returns_bind_iff {f : α → Prog Op Ret β} {b : β} : Follows (p >>= f) tr (.pure b) ↔
    ∃ a t₁ t₂, tr = t₁ ++ t₂ ∧ Follows p t₁ (.pure a) ∧ Follows (f a) t₂ (.pure b) := by
  constructor
  · intro h
    rcases follows_bind h with ⟨o, k, -, hq⟩ | h
    · cases hq
    · exact h
  · rintro ⟨a, t₁, t₂, rfl, h₁, h₂⟩
    exact h₁.bind.append h₂

/-- A program whose result is worked on without a call performs the calls of the program. -/
theorem follows_of_bind_pure {f : α → Prog Op Ret β} {q : Prog Op Ret β}
    (hf : ∀ a, ∃ b, f a = .pure b) (h : Follows (p >>= f) tr q) :
    ∃ y, Follows p tr y ∧ q = y >>= f := by
  rcases follows_bind h with ⟨o, k, hp, rfl⟩ | ⟨a, t₁, t₂, rfl, h₁, h₂⟩
  · exact ⟨_, hp, rfl⟩
  · obtain ⟨b, hb⟩ := hf a
    rw [hb] at h₂
    obtain ⟨rfl, rfl⟩ := follows_pure_iff.1 h₂
    exact ⟨_, by rwa [List.append_nil], hb.symm⟩

/-! ### The kinds of calls of a program -/

/-- Every call the program can perform satisfies `S`. -/
def Only (S : Op → Prop) : Prog Op Ret α → Prop
  | pure _ => True
  | call o k => S o ∧ ∀ r, Only S (k r)

variable {S : Op → Prop}

@[simp] theorem only_pure (a : α) : Only S (.pure a : Prog Op Ret α) := trivial

@[simp] theorem only_call {o : Op} {k : Ret o → Prog Op Ret α} :
    Only S (.call o k) ↔ S o ∧ ∀ r, Only S (k r) := Iff.rfl

theorem Only.imp {S' : Op → Prop} (hp : Only S p) (hS : ∀ o, S o → S' o) : Only S' p := by
  induction p with
  | pure a => exact trivial
  | call o k ih => exact ⟨hS o hp.1, fun r => ih r (hp.2 r)⟩

theorem Only.bind {f : α → Prog Op Ret β} (hp : Only S p) (hf : ∀ a, Only S (f a)) :
    Only S (p >>= f) := by
  induction p with
  | pure a => exact hf a
  | call o k ih => exact ⟨hp.1, fun r => ih r (hp.2 r)⟩

/-- What is left of a program performs no other calls. -/
theorem Only.of_follows (hp : Only S p) (h : Follows p tr q) : Only S q := by
  induction h with
  | refl => exact hp
  | call _ ih => exact ih (hp.2 _)

/-- The calls a program has performed are of its kind. -/
theorem Only.of_mem (hp : Only S p) (h : Follows p tr q) {x : Answered Op Ret} (hx : x ∈ tr) :
    S x.1 := by
  obtain ⟨pre, post, rfl⟩ := List.append_of_mem hx
  obtain ⟨k, hk⟩ := h.reaches
  exact (hp.of_follows hk).1

/-- **A run of a program depends on the meaning of its calls alone.** -/
theorem Only.run_congr {σ : Type} {h h' : (o : Op) → σ → Ret o × σ} (hp : Only S p)
    (heq : ∀ o, S o → ∀ s, h o s = h' o s) (s : σ) : p.run h s = p.run h' s := by
  induction p generalizing s with
  | pure a => rfl
  | call o k ih =>
      rw [run_call, run_call, heq o hp.1]
      exact ih _ (hp.2 _) _

/-- **A program that gets the same answers to the same calls** performs the same calls and returns
the same. -/
theorem Follows.eq_of_agree {tr' : List (Answered Op Ret)} {a a' : α} (hp : Only S p)
    (h : Follows p tr (.pure a)) (h' : Follows p tr' (.pure a'))
    (hagree : ∀ (o : Op) (r r' : Ret o), S o → (⟨o, r⟩ : Answered Op Ret) ∈ tr →
      (⟨o, r'⟩ : Answered Op Ret) ∈ tr' → r = r') : tr = tr' ∧ a = a' := by
  induction p generalizing tr tr' with
  | pure b =>
      obtain ⟨rfl, ha⟩ := follows_pure_iff.1 h
      obtain ⟨rfl, ha'⟩ := follows_pure_iff.1 h'
      cases ha
      cases ha'
      exact ⟨rfl, rfl⟩
  | call o k ih =>
      obtain ⟨r, t, rfl, hk⟩ := returns_call_iff.1 h
      obtain ⟨r', t', rfl, hk'⟩ := returns_call_iff.1 h'
      obtain rfl : r = r' := hagree o r r' hp.1 (by simp) (by simp)
      obtain ⟨rfl, ha⟩ := ih r (hp.2 r) hk hk' fun o r r' ho hr hr' =>
        hagree o r r' ho (List.mem_cons_of_mem _ hr) (List.mem_cons_of_mem _ hr')
      exact ⟨rfl, ha⟩

/-! ### Programs whose calls are answered as agreed -/

/-- As long as every call `o` is answered by some `r` with `A o r`, the program performs calls that
satisfy `S` only, and what it returns satisfies `R`. -/
def Ensures (S : Op → Prop) (A : (o : Op) → Ret o → Prop) (R : α → Prop) : Prog Op Ret α → Prop
  | pure a => R a
  | call o k => S o ∧ ∀ r, A o r → Ensures S A R (k r)

variable {A : (o : Op) → Ret o → Prop} {R : α → Prop}

@[simp] theorem ensures_pure {a : α} : Ensures S A R (.pure a : Prog Op Ret α) ↔ R a := Iff.rfl

@[simp] theorem ensures_call {o : Op} {k : Ret o → Prog Op Ret α} :
    Ensures S A R (.call o k) ↔ S o ∧ ∀ r, A o r → Ensures S A R (k r) := Iff.rfl

/-! ### Programs that may fail -/

variable {ε : Type}

/-- A call within a program that may fail. -/
theorem returns_lift_iff {o : Op} {x : Except ε (Ret o)} :
    Follows (ExceptT.lift (perform o : Prog Op Ret (Ret o))).run tr (.pure x) ↔
      ∃ r, x = .ok r ∧ tr = [⟨o, r⟩] := by
  change Follows (.call o fun r => .pure (.ok r)) tr (.pure x) ↔ _
  rw [returns_call_iff]
  constructor
  · rintro ⟨r, tr', rfl, h⟩
    obtain ⟨rfl, hx⟩ := follows_pure_iff.1 h
    cases hx
    exact ⟨r, rfl, rfl⟩
  · rintro ⟨r, rfl, rfl⟩
    exact ⟨r, [], rfl, .refl _⟩

/-- A sequence of programs that may fail succeeds when both do. -/
theorem succeeds_bind_iff {x : ExceptT ε (Prog Op Ret) α} {f : α → ExceptT ε (Prog Op Ret) β}
    {b : β} :
    Follows (x >>= f).run tr (.pure (.ok b)) ↔ ∃ a t₁ t₂, tr = t₁ ++ t₂ ∧
      Follows x.run t₁ (.pure (.ok a)) ∧ Follows (f a).run t₂ (.pure (.ok b)) := by
  rw [ExceptT.run_bind, returns_bind_iff]
  constructor
  · rintro ⟨a | a, t₁, t₂, rfl, h₁, h₂⟩
    · cases (follows_pure_iff.1 h₂).2
    · exact ⟨a, t₁, t₂, rfl, h₁, h₂⟩
  · rintro ⟨a, t₁, t₂, rfl, h₁, h₂⟩
    exact ⟨.ok a, t₁, t₂, rfl, h₁, h₂⟩

theorem succeeds_pure_iff {a b : α} :
    Follows (Pure.pure a : ExceptT ε (Prog Op Ret) α).run tr (.pure (.ok b)) ↔ tr = [] ∧ b = a := by
  have h : (Pure.pure a : ExceptT ε (Prog Op Ret) α).run = .pure (.ok a) := rfl
  rw [h, follows_pure_iff]
  simp

theorem not_succeeds_throw {e : ε} {b : α} :
    ¬ Follows (throw e : ExceptT ε (Prog Op Ret) α).run tr (.pure (.ok b)) := by
  intro h
  have h' : Follows (.pure (.error e)) tr (.pure (.ok b) : Prog Op Ret (Except ε α)) := h
  cases (follows_pure_iff.1 h').2

/-- A sequence of programs that may fail ends where the first one fails, or with the second one. -/
theorem returns_except_bind_iff {x : ExceptT ε (Prog Op Ret) α}
    {f : α → ExceptT ε (Prog Op Ret) β} {b : Except ε β} :
    Follows (x >>= f).run tr (.pure b) ↔
      (∃ e, b = .error e ∧ Follows x.run tr (.pure (.error e))) ∨ ∃ a t₁ t₂, tr = t₁ ++ t₂ ∧
        Follows x.run t₁ (.pure (.ok a)) ∧ Follows (f a).run t₂ (.pure b) := by
  rw [ExceptT.run_bind, returns_bind_iff]
  constructor
  · rintro ⟨a | a, t₁, t₂, rfl, h₁, h₂⟩
    · obtain ⟨rfl, hb⟩ := follows_pure_iff.1 h₂
      cases hb
      rw [List.append_nil]
      exact .inl ⟨a, rfl, h₁⟩
    · exact .inr ⟨a, t₁, t₂, rfl, h₁, h₂⟩
  · rintro (⟨e, rfl, h⟩ | ⟨a, t₁, t₂, rfl, h₁, h₂⟩)
    · exact ⟨.error e, tr, [], (List.append_nil _).symm, h, .refl _⟩
    · exact ⟨.ok a, t₁, t₂, rfl, h₁, h₂⟩

/-- **The traces of a sequence of programs that may fail**: the first program has a call left, has
failed, or has succeeded. -/
theorem follows_except_bind {x : ExceptT ε (Prog Op Ret) α} {f : α → ExceptT ε (Prog Op Ret) β}
    {q : Prog Op Ret (Except ε β)} (h : Follows (x >>= f).run tr q) :
    (∃ o k, Follows x.run tr (.call o k) ∧ ∀ b, q ≠ .pure b) ∨
      (∃ e, Follows x.run tr (.pure (.error e)) ∧ q = .pure (.error e)) ∨
      ∃ a t₁ t₂, tr = t₁ ++ t₂ ∧ Follows x.run t₁ (.pure (.ok a)) ∧ Follows (f a).run t₂ q := by
  rw [ExceptT.run_bind] at h
  rcases follows_bind h with ⟨o, k, hx, rfl⟩ | ⟨a | a, t₁, t₂, rfl, h₁, h₂⟩
  · exact .inl ⟨o, k, hx, fun b hb => by cases hb⟩
  · obtain ⟨rfl, hq⟩ := follows_pure_iff.1 h₂
    rw [List.append_nil]
    exact .inr (.inl ⟨a, h₁, hq⟩)
  · exact .inr (.inr ⟨a, t₁, t₂, rfl, h₁, h₂⟩)

/-- A program that may fail, and whose result is worked on without a call, performs its calls. -/
theorem follows_of_except_bind_pure {x : ExceptT ε (Prog Op Ret) α}
    {f : α → ExceptT ε (Prog Op Ret) β} {q : Prog Op Ret (Except ε β)}
    (hf : ∀ a, ∃ b, (f a).run = .pure b) (h : Follows (x >>= f).run tr q) :
    ∃ y, Follows x.run tr y ∧ q = y >>= ExceptT.bindCont f := by
  rw [ExceptT.run_bind] at h
  refine follows_of_bind_pure (fun r => ?_) h
  cases r with
  | error e => exact ⟨_, rfl⟩
  | ok a => exact hf a

/-- A program whose result is worked on. -/
theorem returns_except_map_iff {x : ExceptT ε (Prog Op Ret) α} {f : α → β} {b : Except ε β} :
    Follows (x >>= fun a => Pure.pure (f a)).run tr (.pure b) ↔
      ∃ a, b = a.map f ∧ Follows x.run tr (.pure a) := by
  rw [returns_except_bind_iff]
  constructor
  · rintro (⟨e, rfl, h⟩ | ⟨a, t₁, t₂, rfl, h₁, h₂⟩)
    · exact ⟨.error e, rfl, h⟩
    · obtain ⟨rfl, hb⟩ := follows_pure_iff.1 h₂
      cases hb
      rw [List.append_nil]
      exact ⟨.ok a, rfl, h₁⟩
  · rintro ⟨e | a, rfl, h⟩
    · exact .inl ⟨e, rfl, h⟩
    · exact .inr ⟨a, tr, [], (List.append_nil _).symm, h, .refl _⟩

/-- A sequence that comes to a call the first program cannot perform has the first program behind
it. -/
theorem Only.reaches_bind {x : ExceptT ε (Prog Op Ret) α} {f : α → ExceptT ε (Prog Op Ret) β}
    {o : Op} {k : Ret o → Prog Op Ret (Except ε β)} (hx : Only S x.run) (ho : ¬ S o)
    (h : Follows (x >>= f).run tr (.call o k)) : ∃ a t₁ t₂, tr = t₁ ++ t₂ ∧
      Follows x.run t₁ (.pure (.ok a)) ∧ Follows (f a).run t₂ (.call o k) := by
  rw [ExceptT.run_bind] at h
  rcases follows_bind h with ⟨o', k', hx', hq⟩ | ⟨a | a, t₁, t₂, rfl, h₁, h₂⟩
  · cases hq
    exact absurd (hx.of_follows hx').1 ho
  · cases (follows_pure_iff.1 h₂).2
  · exact ⟨a, t₁, t₂, rfl, h₁, h₂⟩

/-- A sequence that comes to a call comes to it in the first program, when the second one performs
none. -/
theorem reaches_of_bind {x : ExceptT ε (Prog Op Ret) α} {f : α → ExceptT ε (Prog Op Ret) β} {o : Op}
    {k : Ret o → Prog Op Ret (Except ε β)} (hf : ∀ a, ∃ b, (f a).run = .pure b)
    (h : Follows (x >>= f).run tr (.call o k)) : ∃ k', Follows x.run tr (.call o k') := by
  rw [ExceptT.run_bind] at h
  rcases follows_bind h with ⟨o', k', hx', hq⟩ | ⟨a | a, t₁, t₂, rfl, -, h₂⟩
  · cases hq
    exact ⟨k', hx'⟩
  · cases (follows_pure_iff.1 h₂).2
  · obtain ⟨b, hb⟩ := hf a
    change Follows (f a).run t₂ (.call o k) at h₂
    rw [hb] at h₂
    cases (follows_pure_iff.1 h₂).2

/-- A sequence that comes to a call that nothing after the first program can perform comes to it in
the first program. -/
theorem Only.reaches_left {x : ExceptT ε (Prog Op Ret) α} {f : α → ExceptT ε (Prog Op Ret) β}
    {o : Op} {k : Ret o → Prog Op Ret (Except ε β)} (hf : ∀ a, Only S (f a).run) (ho : ¬ S o)
    (h : Follows (x >>= f).run tr (.call o k)) : ∃ k', Follows x.run tr (.call o k') := by
  rw [ExceptT.run_bind] at h
  rcases follows_bind h with ⟨o', k', hx', hq⟩ | ⟨a | a, t₁, t₂, rfl, -, h₂⟩
  · cases hq
    exact ⟨k', hx'⟩
  · cases (follows_pure_iff.1 h₂).2
  · exact absurd ((hf a).of_follows h₂).1 ho

theorem Only.except_bind {x : ExceptT ε (Prog Op Ret) α} {f : α → ExceptT ε (Prog Op Ret) β}
    (hx : Only S x.run) (hf : ∀ a, Only S (f a).run) : Only S (x >>= f).run := by
  rw [ExceptT.run_bind]
  refine hx.bind fun a => ?_
  cases a with
  | error e => exact trivial
  | ok a => exact hf a

/-! ### A program alone, by its trace -/

/-- A store answers a list of calls, one after the other, and this is what becomes of it. -/
def Served (h : (o : Op) → σ → Ret o × σ) : σ → List (Answered Op Ret) → σ → Prop
  | s, [], s' => s' = s
  | s, ⟨o, r⟩ :: tr, s' => (h o s).1 = r ∧ Served h (h o s).2 tr s'

variable {h : (o : Op) → σ → Ret o × σ}

@[simp] theorem served_nil {s s' : σ} :
    Served h s ([] : List (Answered Op Ret)) s' ↔ s' = s := Iff.rfl

@[simp] theorem served_cons {s s' : σ} {o : Op} {r : Ret o} :
    Served h s (⟨o, r⟩ :: tr) s' ↔ (h o s).1 = r ∧ Served h (h o s).2 tr s' := Iff.rfl

/-- Every answer is that of the store in some state. -/
theorem exists_of_served {s s' : σ} (hs : Served h s tr s') : ∀ x ∈ tr, ∃ t, x.2 = (h x.1 t).1 := by
  induction tr generalizing s with
  | nil => exact fun x hx => absurd hx List.not_mem_nil
  | cons y tr ih =>
      obtain ⟨o, r⟩ := y
      obtain ⟨hr, hrest⟩ := served_cons.1 hs
      exact List.forall_mem_cons.2 ⟨⟨s, hr.symm⟩, ih hrest⟩

theorem served_append {s s' : σ} {tr' : List (Answered Op Ret)} :
    Served h s (tr ++ tr') s' ↔ ∃ t, Served h s tr t ∧ Served h t tr' s' := by
  induction tr generalizing s with
  | nil => simp
  | cons x tr ih =>
      obtain ⟨o, r⟩ := x
      simp [ih, and_assoc]

/-- **A program running alone** is the program along the calls that the store answers. -/
theorem run_eq_iff {a : α} {s s' : σ} :
    p.run h s = (a, s') ↔ ∃ tr, Follows p tr (.pure a) ∧ Served h s tr s' := by
  induction p generalizing s with
  | pure b =>
      rw [run_pure]
      constructor
      · rintro ⟨rfl, rfl⟩
        exact ⟨[], .refl _, rfl⟩
      · rintro ⟨tr, htr, hs⟩
        obtain ⟨rfl, hb⟩ := follows_pure_iff.1 htr
        cases hb
        rw [served_nil] at hs
        rw [hs]
  | call o k ih =>
      rw [run_call, ih]
      constructor
      · rintro ⟨tr, htr, hs⟩
        exact ⟨⟨o, (h o s).1⟩ :: tr, .call htr, rfl, hs⟩
      · rintro ⟨tr, htr, hs⟩
        obtain ⟨r, tr', rfl, htr'⟩ := returns_call_iff.1 htr
        obtain ⟨rfl, hs'⟩ := served_cons.1 hs
        exact ⟨tr', htr', hs'⟩

/-! ### Calls that a program alone performs -/

/-- The program, running alone from the store `s`, performs a call that satisfies `S`. -/
def Performs (h : (o : Op) → σ → Ret o × σ) (S : Op → Prop) : Prog Op Ret α → σ → Prop
  | pure _, _ => False
  | call o k, s => S o ∨ Performs h S (k (h o s).1) (h o s).2

theorem performs_bind {f : α → Prog Op Ret β} {s : σ} : Performs h S (p >>= f) s ↔
    Performs h S p s ∨ Performs h S (f (p.run h s).1) (p.run h s).2 := by
  induction p generalizing s with
  | pure a => simp [Performs]
  | call o k ih => simp only [bind_call, Performs, run_call, ih, or_assoc]

theorem performs_except_bind {x : ExceptT ε (Prog Op Ret) α} {f : α → ExceptT ε (Prog Op Ret) β}
    {s : σ} : Performs h S (x >>= f).run s ↔ Performs h S x.run s ∨
      ∃ a, (x.run.run h s).1 = .ok a ∧ Performs h S (f a).run (x.run.run h s).2 := by
  rw [ExceptT.run_bind, performs_bind]
  refine or_congr Iff.rfl ?_
  cases (x.run.run h s).1 with
  | error e =>
      constructor
      · exact False.elim
      · rintro ⟨a, ha, -⟩
        cases ha
  | ok a => simp

/-- A sequence of programs that may fail succeeds alone when both do. -/
theorem run_except_bind_eq_ok {x : ExceptT ε (Prog Op Ret) α} {f : α → ExceptT ε (Prog Op Ret) β}
    {s : σ} {b : β} (hb : ((x >>= f).run.run h s).1 = .ok b) :
    ∃ a, (x.run.run h s).1 = .ok a ∧ ((f a).run.run h (x.run.run h s).2).1 = .ok b := by
  rw [ExceptT.run_bind, run_bind] at hb
  cases hx : (x.run.run h s).1 with
  | error e =>
      rw [hx] at hb
      cases hb
  | ok a =>
      rw [hx] at hb
      exact ⟨a, rfl, hb⟩

/-- A sequence of programs alone: the first one succeeds, and the second one goes on. -/
theorem run_except_bind_of_ok {x : ExceptT ε (Prog Op Ret) α} {f : α → ExceptT ε (Prog Op Ret) β}
    {s s' : σ} {a : α} (hx : x.run.run h s = (.ok a, s')) :
    (x >>= f).run.run h s = (f a).run.run h s' := by
  rw [ExceptT.run_bind, run_bind, hx]

/-- A sequence of programs alone: the first one fails. -/
theorem run_except_bind_of_error {x : ExceptT ε (Prog Op Ret) α}
    {f : α → ExceptT ε (Prog Op Ret) β} {s s' : σ} {e : ε} (hx : x.run.run h s = (.error e, s')) :
    (x >>= f).run.run h s = (.error e, s') := by
  rw [ExceptT.run_bind, run_bind, hx]
  rfl

/-- A program whose calls are all of another kind performs none. -/
theorem Only.not_performs {s : σ} (hp : Only (fun o => ¬ S o) p) : ¬ Performs h S p s := by
  induction p generalizing s with
  | pure a => exact id
  | call o k ih =>
      rintro (ho | hk)
      · exact hp.1 ho
      · exact ih _ (hp.2 _) hk

/-! ### Programs over more calls -/

variable {Op' : Type} {Ret' : Op' → Type} {σ' : Type}

/-- A program over the calls `Op'` as one over the calls `Op`, each call of `Op'` being one of
`Op`. -/
def translate (f : Op' → Op) (back : (o : Op') → Ret (f o) → Ret' o) :
    Prog Op' Ret' α → Prog Op Ret α
  | pure a => pure a
  | call o k => call (f o) fun r => translate f back (k (back o r))

variable {f : Op' → Op} {back : (o : Op') → Ret (f o) → Ret' o}

theorem translate_bind (p : Prog Op' Ret' α) (g : α → Prog Op' Ret' β) :
    (p >>= g).translate f back = p.translate f back >>= fun a => (g a).translate f back := by
  induction p with
  | pure a => rfl
  | call o k ih => exact congrArg (call (f o)) (funext fun r => ih _)

/-- **A translated program runs on its part of the store**, and leaves the rest alone. -/
theorem run_translate {h' : (o : Op') → σ' → Ret' o × σ'} (get : σ → σ') (set : σ' → σ → σ)
    (hfst : ∀ o s, back o (h (f o) s).1 = (h' o (get s)).1)
    (hsnd : ∀ o s, (h (f o) s).2 = set (h' o (get s)).2 s) (hget : ∀ x s, get (set x s) = x)
    (hset : ∀ s, set (get s) s = s) (hset_set : ∀ x y s, set x (set y s) = set x s)
    (p : Prog Op' Ret' α) (s : σ) : (translate f back p).run h s =
      ((p.run h' (get s)).1, set (p.run h' (get s)).2 s) := by
  induction p generalizing s with
  | pure a => rw [translate, run_pure, run_pure, hset]
  | call o k ih => rw [translate, run_call, run_call, ih, hfst, hsnd, hget, hset_set]

/-- **The traces of a translated program** are those of the program, call by call. -/
theorem follows_translate {p : Prog Op' Ret' α} {tr : List (Answered Op Ret)} {q : Prog Op Ret α}
    (h : Follows (p.translate f back) tr q) : ∃ (tr' : List (Answered Op' Ret'))
      (q' : Prog Op' Ret' α), Follows p tr' q' ∧ q = q'.translate f back ∧
        List.Forall₂ (fun x x' => ∃ r, x = ⟨f x'.1, r⟩ ∧ x'.2 = back x'.1 r) tr tr' := by
  induction p generalizing tr with
  | pure a =>
      obtain ⟨rfl, rfl⟩ := follows_pure_iff.1 h
      exact ⟨[], .pure a, .refl _, rfl, .nil⟩
  | call o k ih =>
      rcases follows_call_iff.1 h with ⟨rfl, rfl⟩ | ⟨r, tr₁, rfl, hk⟩
      · exact ⟨[], .call o k, .refl _, rfl, .nil⟩
      · obtain ⟨tr', q', hp, hq, hall⟩ := ih _ hk
        exact ⟨⟨o, back o r⟩ :: tr', q', .call hp, hq, .cons ⟨r, rfl, rfl⟩ hall⟩

theorem Only.translate {S' : Op' → Prop} {p : Prog Op' Ret' α} (hp : Only S' p)
    (hS : ∀ o, S' o → S (f o)) : Only S (p.translate f back) := by
  induction p with
  | pure a => exact trivial
  | call o k ih => exact ⟨hS o hp.1, fun r => ih _ (hp.2 _)⟩

end Prog

/-! ### The calls of one process in a history -/

/-- The calls of the process at position `i`. -/
def own (i : ℕ) (hist : List (Event Op Ret σ ι)) : List (Answered Op Ret) :=
  (hist.filter fun e => e.who = i).map fun e => ⟨e.op, e.reply⟩

@[simp] theorem own_nil (i : ℕ) : own i ([] : List (Event Op Ret σ ι)) = [] := rfl

theorem own_append (i : ℕ) (hist hist' : List (Event Op Ret σ ι)) :
    own i (hist ++ hist') = own i hist ++ own i hist' := by
  simp [own]

/-- The calls of a process before one of its calls, the call, and those after it. -/
theorem own_eq_of_getElem? {hist : List (Event Op Ret σ ι)} {n : ℕ} {e : Event Op Ret σ ι}
    (he : hist[n]? = some e) : own e.who hist =
      own e.who (hist.take n) ++ ⟨e.op, e.reply⟩ :: own e.who (hist.drop (n + 1)) := by
  obtain ⟨hn, hne⟩ := List.getElem?_eq_some_iff.1 he
  have hsplit : hist = hist.take n ++ e :: hist.drop (n + 1) := by
    rw [← hne, List.getElem_cons_drop, List.take_append_drop]
  conv_lhs => rw [hsplit]
  simp [own]

@[simp] theorem own_singleton (i : ℕ) (e : Event Op Ret σ ι) :
    own i [e] = if e.who = i then [⟨e.op, e.reply⟩] else [] := by
  by_cases he : e.who = i <;> simp [own, he]

/-- A call of a process stands somewhere in the history. -/
theorem mem_own_iff {i : ℕ} {hist : List (Event Op Ret σ ι)} {x : Answered Op Ret} :
    x ∈ own i hist ↔
      ∃ (n : ℕ) (e : Event Op Ret σ ι), hist[n]? = some e ∧ e.who = i ∧ x = ⟨e.op, e.reply⟩ := by
  simp only [own, List.mem_map, List.mem_filter, decide_eq_true_eq]
  constructor
  · rintro ⟨e, ⟨he, hi⟩, rfl⟩
    obtain ⟨n, hn⟩ := List.getElem?_of_mem he
    exact ⟨n, e, hn, hi, rfl⟩
  · rintro ⟨n, e, hn, hi, rfl⟩
    exact ⟨e, ⟨List.mem_of_getElem? hn, hi⟩, rfl⟩

/-- One of the calls of a process stands in the history after those before it. -/
theorem exists_of_own_eq {i : ℕ} {hist : List (Event Op Ret σ ι)}
    {pre post : List (Answered Op Ret)} {x : Answered Op Ret} (h : own i hist = pre ++ x :: post) :
    ∃ (n : ℕ) (e : Event Op Ret σ ι), hist[n]? = some e ∧ e.who = i ∧ own i (hist.take n) = pre ∧
      x = ⟨e.op, e.reply⟩ := by
  induction hist using List.reverseRecOn generalizing post with
  | nil => simp at h
  | append_singleton hist e ih =>
      rw [own_append, own_singleton] at h
      split_ifs at h with he
      · rcases List.eq_nil_or_concat post with rfl | ⟨post, y, rfl⟩
        · obtain ⟨hpre, hx⟩ := List.append_inj' h rfl
          refine ⟨hist.length, e, by simp, he, by rw [List.take_left, hpre], ?_⟩
          simpa using hx.symm
        · rw [List.concat_eq_append, ← List.cons_append, ← List.append_assoc] at h
          obtain ⟨n, e', hn, hwho, hpre, hx⟩ := ih (List.append_inj' h rfl).1
          have hlt := (List.getElem?_eq_some_iff.1 hn).1
          refine ⟨n, e', by rwa [List.getElem?_append_left hlt], hwho, ?_, hx⟩
          rwa [List.take_append_of_le_length (Nat.le_of_lt hlt)]
      · rw [List.append_nil] at h
        obtain ⟨n, e', hn, hwho, hpre, hx⟩ := ih h
        have hlt := (List.getElem?_eq_some_iff.1 hn).1
        refine ⟨n, e', by rwa [List.getElem?_append_left hlt], hwho, ?_, hx⟩
        rwa [List.take_append_of_le_length (Nat.le_of_lt hlt)]

/-- One of the calls of a process before a position stands before it. -/
theorem exists_lt_of_own_eq {i n : ℕ} {hist : List (Event Op Ret σ ι)}
    {pre post : List (Answered Op Ret)} {x : Answered Op Ret}
    (h : own i (hist.take n) = pre ++ x :: post) : ∃ (m : ℕ) (e : Event Op Ret σ ι), m < n ∧
      hist[m]? = some e ∧ e.who = i ∧ own i (hist.take m) = pre ∧ x = ⟨e.op, e.reply⟩ := by
  obtain ⟨m, e, he, hwho, hpre, hx⟩ := exists_of_own_eq h
  rw [List.getElem?_take] at he
  split_ifs at he with hm
  rw [List.take_take, Nat.min_eq_left (Nat.le_of_lt hm)] at hpre
  exact ⟨m, e, hm, he, hwho, hpre, hx⟩

/-- The store after the calls of a history. -/
def replay (h : (o : Op) → σ → Ret o × σ) (s : σ) (hist : List (Event Op Ret σ ι)) : σ :=
  hist.foldl (fun s e => (h e.op s).2) s

@[simp] theorem replay_nil (h : (o : Op) → σ → Ret o × σ) (s : σ) :
    replay h s ([] : List (Event Op Ret σ ι)) = s := rfl

theorem replay_snoc (h : (o : Op) → σ → Ret o × σ) (s : σ) (hist : List (Event Op Ret σ ι))
    (e : Event Op Ret σ ι) : replay h s (hist ++ [e]) = (h e.op (replay h s hist)).2 := by
  simp [replay]

/-- No call of the process at `j` came before a call of the process at `i`. -/
def Precedes (hist : List (Event Op Ret σ ι)) (i j : ℕ) : Prop :=
  hist.Pairwise fun e e' => ¬ (e.who = j ∧ e'.who = i)

instance (hist : List (Event Op Ret σ ι)) (i j : ℕ) : Decidable (Precedes hist i j) :=
  inferInstanceAs (Decidable (List.Pairwise _ _))

/-- A call of the first process came before a call of the second one. -/
theorem Precedes.lt {hist : List (Event Op Ret σ ι)} {i j m n : ℕ} (h : Precedes hist i j)
    (hij : i ≠ j) {e e' : Event Op Ret σ ι} (hm : hist[m]? = some e) (hn : hist[n]? = some e')
    (hi : e.who = i) (hj : e'.who = j) : m < n := by
  obtain ⟨hm', rfl⟩ := List.getElem?_eq_some_iff.1 hm
  obtain ⟨hn', rfl⟩ := List.getElem?_eq_some_iff.1 hn
  rcases Nat.lt_trichotomy m n with hlt | rfl | hgt
  · exact hlt
  · exact absurd (hi.symm.trans hj) hij
  · exact absurd ⟨hj, hi⟩ (List.pairwise_iff_getElem.1 h n m hn' hm' hgt)

/-- A call that came after the calls `hist`: it found their store, was answered by it, and was the
next call of its process. -/
structure Event.Next (h : (o : Op) → σ → Ret o × σ) (s₀ : σ) (prog : ι → Prog Op Ret α)
    (hist : List (Event Op Ret σ ι)) (e : Event Op Ret σ ι) : Prop where
  /-- The store it found. -/
  before : e.before = replay h s₀ hist
  /-- The answer of the store. -/
  reply : e.reply = (h e.op e.before).1
  /-- It was the next call of its process. -/
  follows : ∃ k, (prog e.req).Follows (own e.who hist) (.call e.op k)

variable {h : (o : Op) → σ → Ret o × σ} {G : List (Event Op Ret σ ι) → Event Op Ret σ ι → Prop}
  {s₀ : σ} {prog : ι → Prog Op Ret α} {reqs : List ι} {c : Snapshot Op Ret σ ι α}

/-- **A process has followed its own calls.** -/
theorem Reachable.follows (hc : Reachable h G (Snapshot.init s₀ prog reqs) c) {i : ℕ}
    {p : Proc Op Ret ι α} (hp : c.procs[i]? = some p) :
    (prog p.req).Follows (own i c.hist) p.prog := by
  refine (Reachable.invariant (I := fun _ _ => True)
    (P := fun _ hist i p => (prog p.req).Follows (own i hist) p.prog) trivial
    (fun i r _ => .refl _) ?_ hc).2 i p hp
  intro s hist i p o k _ hP hk _
  refine ⟨trivial, ?_, fun j q hj hq => ?_⟩
  · rw [own_append, own_singleton, if_pos (by simp [eventOf])]
    rw [hk] at hP
    exact hP.snoc _
  · rw [own_append, own_singleton, if_neg (by simpa [eventOf] using hj.symm)]
    simpa using hq

/-- The store is what the calls so far have made of the first one. -/
theorem Reachable.state_eq (hc : Reachable h G (Snapshot.init s₀ prog reqs) c) :
    c.state = replay h s₀ c.hist := by
  induction hc with
  | refl => rfl
  | step _ hs ih =>
      cases hs with
      | call hp hk hG =>
          simp only at ih
          rw [replay_snoc, ← ih, eventOf]

/-- **An invariant of the store** holds throughout, if every call of some kind keeps it and the
programs perform no other calls. -/
theorem Reachable.state_invariant {I : σ → Prop} {S : Op → Prop}
    (hc : Reachable h G (Snapshot.init s₀ prog reqs) c) (hI : I s₀)
    (hprog : ∀ r ∈ reqs, (prog r).Only S) (hstep : ∀ o s, S o → I s → I (h o s).2) :
    I c.state := by
  refine (Reachable.invariant (I := fun s _ => I s) (P := fun _ _ _ p => p.prog.Only S) hI
    (fun i r hr => hprog r (List.mem_of_getElem? hr)) ?_ hc).1
  intro s hist i p o k hs hp hk _
  rw [hk] at hp
  exact ⟨hstep o s hp.1 hs, hp.2 _, fun _ _ _ hq => hq⟩

/-- **Programs whose calls are answered as agreed**, in any interleaving: the store keeps the
invariant `I` whatever is called, and answers the calls that satisfy `S` within `A`. -/
theorem Reachable.ensures {I : σ → Prop} {S : Op → Prop} {A : (o : Op) → Ret o → Prop}
    {R : α → Prop} {Q : ι → Prop} (hc : Reachable h G (Snapshot.init s₀ prog reqs) c) (hI : I s₀)
    (hstep : ∀ o s, I s → I (h o s).2)
    (hanswer : ∀ hist s i (p : Proc Op Ret ι α) o, I s → S o → G hist (eventOf h s i p o) →
      A o (h o s).1)
    (hprog : ∀ r ∈ reqs, Q r → (prog r).Ensures S A R) {p : Proc Op Ret ι α} (hp : p ∈ c.procs)
    (hQ : Q p.req) : p.prog.Ensures S A R := by
  obtain ⟨i, hi⟩ := List.getElem?_of_mem hp
  refine (Reachable.invariant (I := fun s _ => I s)
    (P := fun _ _ _ p => Q p.req → p.prog.Ensures S A R) hI
    (fun i r hr => hprog r (List.mem_of_getElem? hr)) ?_ hc).2 i p hi hQ
  intro s hist i p o k hs hp hk hG
  refine ⟨hstep o s hs, fun hq => ?_, fun _ _ _ hq => hq⟩
  have hcall := hp hq
  rw [hk] at hcall
  exact hcall.2 _ (hanswer hist s i p o hs hcall.1 hG)

/-- The request `q`, alone on the store `s`, has `p` left to do, and the store is still `s`. -/
def Alone (h : (o : Op) → σ → Ret o × σ)
    (G : List (Event Op Ret σ ι) → Event Op Ret σ ι → Prop) (prog : ι → Prog Op Ret α) (s : σ)
    (q : ι) (p : Prog Op Ret α) : Prop :=
  ∃ m hist, Reachable h G (Snapshot.init s prog [q]) ⟨s, [⟨q, p, m⟩], hist⟩

theorem Alone.start (s : σ) (q : ι) : Alone h G prog s q (prog q) := ⟨0, [], .refl⟩

/-- One more call that leaves the store as it is. -/
theorem Alone.call {s : σ} {q : ι} {o : Op} {k : Ret o → Prog Op Ret α}
    (hq : Alone h G prog s q (.call o k)) (hG : ∀ hist e, e.before = s → G hist e)
    (hs : (h o s).2 = s) : Alone h G prog s q (k (h o s).1) := by
  obtain ⟨m, hist, hc⟩ := hq
  have hstep : Step h G ⟨s, [⟨q, .call o k, m⟩], hist⟩ _ :=
    .call (i := 0) rfl rfl (hG hist _ rfl)
  refine ⟨hist.length + 1, hist ++ [eventOf h s 0 ⟨q, .call o k, m⟩ o], ?_⟩
  have hnext := hc.step hstep
  rw [hs] at hnext
  exact hnext

/-- The request of a process. -/
theorem Reachable.req_of_proc (hc : Reachable h G (Snapshot.init s₀ prog reqs) c) {i : ℕ}
    {p : Proc Op Ret ι α} (hp : c.procs[i]? = some p) : reqs[i]? = some p.req := by
  rw [← hc.procs_req, List.getElem?_map, hp]
  rfl

/-- Every request has its process. -/
theorem Reachable.exists_proc (hc : Reachable h G (Snapshot.init s₀ prog reqs) c) {i : ℕ} {req : ι}
    (hreq : reqs[i]? = some req) : ∃ p, c.procs[i]? = some p ∧ p.req = req := by
  rw [← hc.procs_req, List.getElem?_map, Option.map_eq_some_iff] at hreq
  exact hreq

/-- The request of a call is the one of its process. -/
theorem Reachable.req_of_event (hc : Reachable h G (Snapshot.init s₀ prog reqs) c) {n : ℕ}
    {e : Event Op Ret σ ι} (he : c.hist[n]? = some e) : reqs[e.who]? = some e.req := by
  induction hc generalizing n with
  | refl => simp [Snapshot.init] at he
  | step hc hs ih =>
      cases hs with
      | call hp hk hG =>
          rcases List.mem_append.1 (List.mem_of_getElem? he) with hmem | hmem
          · obtain ⟨n', hn'⟩ := List.getElem?_of_mem hmem
            exact ih hn'
          · rw [List.mem_singleton.1 hmem]
            exact hc.req_of_proc hp

/-- Where there is no request there is no call. -/
theorem Reachable.own_eq_nil (hc : Reachable h G (Snapshot.init s₀ prog reqs) c) {i : ℕ}
    (hi : reqs[i]? = none) : own i c.hist = [] := by
  rw [own, List.map_eq_nil_iff, List.filter_eq_nil_iff]
  intro e he hwho
  obtain ⟨n, hn⟩ := List.getElem?_of_mem he
  have hreq := hc.req_of_event hn
  rw [of_decide_eq_true hwho, hi] at hreq
  cases hreq

/-- **Every call of a history** was the next call of its process and was answered by the store it
found. -/
theorem Reachable.next (hc : Reachable h G (Snapshot.init s₀ prog reqs) c) {n : ℕ}
    {e : Event Op Ret σ ι} (he : c.hist[n]? = some e) : e.Next h s₀ prog (c.hist.take n) := by
  induction hc with
  | refl => simp [Snapshot.init] at he
  | step hc hs ih =>
      cases hs with
      | @call s procs hist i p o k hp hk hG =>
          simp only at he ih ⊢
          rcases Nat.lt_or_ge n hist.length with hn | hn
          · rw [List.getElem?_append_left hn] at he
            rw [List.take_append_of_le_length (Nat.le_of_lt hn)]
            exact ih he
          · have hlt : n < (hist ++ [eventOf h s i p o]).length :=
              (List.getElem?_eq_some_iff.1 he).1
            obtain rfl : n = hist.length := by
              rw [List.length_append, List.length_singleton] at hlt
              omega
            rw [List.getElem?_append_right (Nat.le_refl _), Nat.sub_self] at he
            obtain rfl : eventOf h s i p o = e := by simpa using he
            rw [List.take_left]
            exact ⟨hc.state_eq, rfl, k, hk ▸ hc.follows hp⟩

/-- Every call of a history was admitted. -/
theorem Reachable.admitted (hc : Reachable h G (Snapshot.init s₀ prog reqs) c) {n : ℕ}
    {e : Event Op Ret σ ι} (he : c.hist[n]? = some e) : G (c.hist.take n) e := by
  induction hc with
  | refl => simp [Snapshot.init] at he
  | step _ hs ih =>
      cases hs with
      | @call s procs hist i p o k hp hk hG =>
          simp only at he ih ⊢
          rcases Nat.lt_or_ge n hist.length with hn | hn
          · rw [List.getElem?_append_left hn] at he
            rw [List.take_append_of_le_length (Nat.le_of_lt hn)]
            exact ih he
          · rw [List.getElem?_append_right hn, List.getElem?_singleton] at he
            split_ifs at he with hlast
            obtain rfl := Option.some.inj he
            rw [List.take_append, List.take_of_length_le hn, hlast, List.take_zero, List.append_nil]
            exact hG

/-- The mark `m` of a process: its last call stands right before it. -/
def Marks (hist : List (Event Op Ret σ ι)) (i m : ℕ) : Prop :=
  ∀ pre x, own i hist = pre ++ [x] → ∃ l e, m = l + 1 ∧ hist[l]? = some e ∧ e.who = i ∧
    x = ⟨e.op, e.reply⟩ ∧ own i (hist.take l) = pre

/-- Other calls leave the mark. -/
theorem Marks.snoc_of_ne {hist : List (Event Op Ret σ ι)} {i m : ℕ} (hm : Marks hist i m)
    {e : Event Op Ret σ ι} (he : e.who ≠ i) : Marks (hist ++ [e]) i m := by
  intro pre x hx
  rw [own_append, own_singleton, if_neg he, List.append_nil] at hx
  obtain ⟨l, e', rfl, hl, hrest⟩ := hm pre x hx
  have hlt := (List.getElem?_eq_some_iff.1 hl).1
  refine ⟨l, e', rfl, by rwa [List.getElem?_append_left hlt], ?_⟩
  rwa [List.take_append_of_le_length (Nat.le_of_lt hlt)]

/-- **A call knows where the last one of its process stands.** -/
theorem Reachable.marks (hc : Reachable h G (Snapshot.init s₀ prog reqs) c) {n : ℕ}
    {e : Event Op Ret σ ι} (he : c.hist[n]? = some e) : Marks (c.hist.take n) e.who e.mark := by
  refine (Reachable.invariant
    (I := fun _ hist => ∀ (n : ℕ) e, hist[n]? = some e → Marks (hist.take n) e.who e.mark)
    (P := fun _ hist i p => Marks hist i p.mark) (by simp) (fun _ _ _ pre x hx => ?_) ?_ hc).1
      n e he
  · simp at hx
  · intro s hist i p o k hI hP _ _
    refine ⟨fun n e he => ?_, ?_, fun j q hj hq => hq.snoc_of_ne (by simpa [eventOf] using hj.symm)⟩
    · rcases Nat.lt_or_ge n hist.length with hn | hn
      · rw [List.getElem?_append_left hn] at he
        rw [List.take_append_of_le_length (Nat.le_of_lt hn)]
        exact hI n e he
      · rw [List.getElem?_append_right hn, List.getElem?_singleton] at he
        split_ifs at he with hlast
        obtain rfl := Option.some.inj he
        rw [List.take_append, List.take_of_length_le hn, hlast, List.take_zero, List.append_nil]
        exact hP
    · intro pre x hx
      rw [own_append, own_singleton, if_pos (by simp [eventOf])] at hx
      obtain ⟨rfl, hlast⟩ := List.append_inj' hx rfl
      refine ⟨hist.length, _, rfl, List.getElem?_concat_length, rfl, ?_, ?_⟩
      · exact (List.singleton_inj.1 hlast).symm
      · rw [List.take_left]

end Interaction
