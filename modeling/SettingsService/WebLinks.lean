import SettingsService.Texts
import Mathlib.Data.Nat.Notation
import Mathlib.Tactic.Common

/-!
# Link headers

A `Link` header value is a list of links, separated by commas: a target between angle brackets, and
parameters, each behind a semicolon, with a value that may be quoted.

Main definitions:

* `WebLinks.Link`, `WebLinks.Link.rel` — a link, and its relation type;
* `WebLinks.Scan`, `WebLinks.parse` — reading a header value;
* `WebLinks.text` — writing a link with a relation type;
* `WebLinks.Visits` — what is visited by following one relation until there is no such link.

Main results:

* `WebLinks.parse_intercalate` — **links are read back**, if no target holds a `>`;
* `WebLinks.target_of_head_text` — the target of the first link ends at the first `>`;
* `WebLinks.visits_iff` — **what is visited along a numbered chain**.
-/

set_option relaxedAutoImplicit false
set_option autoImplicit false

namespace WebLinks

/-- A link. -/
structure Link where
  /-- The target, a reference. -/
  target : List Char
  /-- The parameters, by name. -/
  params : List (List Char × List Char)

/-- The relation type: the value of the first parameter `rel`. -/
def Link.rel (l : Link) : Option (List Char) :=
  (l.params.find? fun p => p.1.map Char.toLower == "rel".toList).map Prod.snd

/-! ### Reading -/

/-- What is being read. -/
inductive Scan
  | between
  /-- What is left is no link. -/
  | done
  | target (t : List Char)
  | params (t : List Char) (ps : List (List Char × List Char))
  | name (t : List Char) (ps : List (List Char × List Char)) (n : List Char)
  | value (t : List Char) (ps : List (List Char × List Char)) (n v : List Char)
  | quoted (t : List Char) (ps : List (List Char × List Char)) (n v : List Char)
  | escaped (t : List Char) (ps : List (List Char × List Char)) (n v : List Char)

/-- Optional whitespace. -/
def isOws (c : Char) : Bool := c == ' ' || c == '\t'

namespace Scan

/-- Reading one character may complete a link. -/
def step : Scan → Char → Option Link × Scan
  | between, c =>
      if c = '<' then (none, target [])
      else if isOws c || c == ',' then (none, between)
      else (none, done)
  | done, _ => (none, done)
  | target t, c => if c = '>' then (none, params t []) else (none, target (t ++ [c]))
  | params t ps, c =>
      if c = ';' then (none, name t ps [])
      else if c = ',' then (some ⟨t, ps⟩, between)
      else if isOws c then (none, params t ps)
      else (some ⟨t, ps⟩, done)
  | name t ps n, c =>
      if c = '=' then (none, value t ps n [])
      else if c = ';' then (none, name t (ps ++ [(n, [])]) [])
      else if c = ',' then (some ⟨t, ps ++ [(n, [])]⟩, between)
      else if isOws c then (none, name t ps n)
      else (none, name t ps (n ++ [c]))
  | value t ps n v, c =>
      if c = '"' ∧ v = [] then (none, quoted t ps n [])
      else if c = ';' then (none, name t (ps ++ [(n, v)]) [])
      else if c = ',' then (some ⟨t, ps ++ [(n, v)]⟩, between)
      else if isOws c then (none, value t ps n v)
      else (none, value t ps n (v ++ [c]))
  | quoted t ps n v, c =>
      if c = '"' then (none, params t (ps ++ [(n, v)]))
      else if c = '\\' then (none, escaped t ps n v)
      else (none, quoted t ps n (v ++ [c]))
  | escaped t ps n v, c => (none, quoted t ps n (v ++ [c]))

/-- At the end of the header value, a link whose target has ended is complete. -/
def finish : Scan → Option Link
  | between | done | target _ => none
  | params t ps => some ⟨t, ps⟩
  | name t ps n => some ⟨t, ps ++ [(n, [])]⟩
  | value t ps n v | quoted t ps n v | escaped t ps n v => some ⟨t, ps ++ [(n, v)]⟩

/-- The target of the link that is being read, once that has ended. -/
def target? : Scan → Option (List Char)
  | between | done | target _ => none
  | params t _ | name t _ _ | value t _ _ _ | quoted t _ _ _ | escaped t _ _ _ => some t

end Scan

/-- Read what is left of a header value. -/
def scan : Scan → List Char → List Link
  | s, [] => s.finish.toList
  | s, c :: cs => (s.step c).1.toList ++ scan (s.step c).2 cs

/-- **The links of a header value.** -/
def parse (cs : List Char) : List Link := scan .between cs

/-! ### The first link -/

/-- A character completes the link with its target, or leaves the target as it is. -/
theorem Scan.step_of_target {s : Scan} {t : List Char} (h : s.target? = some t) (c : Char) :
    (∃ ps, (s.step c).1 = some ⟨t, ps⟩) ∨ (s.step c).1 = none ∧ (s.step c).2.target? = some t := by
  cases s with
  | between => simp [target?] at h
  | done => simp [target?] at h
  | target t => simp [target?] at h
  | params t ps =>
      obtain rfl := Option.some.inj h
      rw [step]
      split_ifs <;> simp [target?]
  | name t ps n =>
      obtain rfl := Option.some.inj h
      rw [step]
      split_ifs <;> simp [target?]
  | value t ps n v =>
      obtain rfl := Option.some.inj h
      rw [step]
      split_ifs <;> simp [target?]
  | quoted t ps n v =>
      obtain rfl := Option.some.inj h
      rw [step]
      split_ifs <;> simp [target?]
  | escaped t ps n v =>
      obtain rfl := Option.some.inj h
      simp [step, target?]

/-- **The next link has the target that was read.** -/
theorem target_of_head {s : Scan} {t : List Char} (h : s.target? = some t) (cs : List Char)
    {l : Link} (hl : (scan s cs).head? = some l) : l.target = t := by
  induction cs generalizing s with
  | nil =>
      cases s with
      | between => simp [Scan.target?] at h
      | done => simp [Scan.target?] at h
      | target t => simp [Scan.target?] at h
      | params t ps =>
          obtain rfl := Option.some.inj h
          obtain rfl := Option.some.inj hl
          rfl
      | name t ps n =>
          obtain rfl := Option.some.inj h
          obtain rfl := Option.some.inj hl
          rfl
      | value t ps n v =>
          obtain rfl := Option.some.inj h
          obtain rfl := Option.some.inj hl
          rfl
      | quoted t ps n v =>
          obtain rfl := Option.some.inj h
          obtain rfl := Option.some.inj hl
          rfl
      | escaped t ps n v =>
          obtain rfl := Option.some.inj h
          obtain rfl := Option.some.inj hl
          rfl
  | cons c cs ih =>
      rw [scan] at hl
      rcases Scan.step_of_target h c with ⟨ps, hstep⟩ | ⟨hstep, htarget⟩
      · rw [hstep] at hl
        obtain rfl := Option.some.inj hl
        rfl
      · rw [hstep] at hl
        exact ih htarget hl

/-! ### Writing -/

/-- A link with a relation type. -/
def text (target rel : List Char) : List Char :=
  '<' :: (target ++ ">; rel=\"".toList ++ rel ++ ['"'])

/-- A target is read up to the first `>`. -/
theorem scan_target {xs : List Char} (hxs : '>' ∉ xs) (t rest : List Char) :
    scan (.target t) (xs ++ '>' :: rest) = scan (.params (t ++ xs) []) rest := by
  induction xs generalizing t with
  | nil =>
      rw [List.nil_append, List.append_nil, scan, Scan.step, if_pos rfl]
      rfl
  | cons x xs ih =>
      have hx : x ≠ '>' := fun h => hxs (h ▸ List.mem_cons_self)
      rw [List.cons_append, scan, Scan.step, if_neg hx]
      refine (ih (fun h => hxs (List.mem_cons_of_mem _ h)) _).trans ?_
      rw [List.append_assoc, List.singleton_append]

/-- **The target of the first link ends at the first `>`.** -/
theorem target_of_head_text {target rel rest : List Char} {l : Link}
    (h : (parse (text target rel ++ rest)).head? = some l) :
    l.target = target.takeWhile (· != '>') := by
  have hcut : '>' ∉ target.takeWhile (· != '>') := Texts.not_mem_takeWhile_ne '>' target
  obtain ⟨rest', hrest'⟩ : ∃ rest', text target rel ++ rest =
      '<' :: (target.takeWhile (· != '>') ++ '>' :: rest') := by
    rcases Texts.takeWhile_ne_eq_self_or '>' target with htarget | ⟨cs, htarget⟩
    · refine ⟨"; rel=\"".toList ++ rel ++ ['"'] ++ rest, ?_⟩
      rw [htarget]
      simp [text]
    · refine ⟨cs ++ ">; rel=\"".toList ++ rel ++ ['"'] ++ rest, ?_⟩
      conv_lhs => rw [htarget]
      simp [text]
  rw [hrest'] at h
  have hscan := scan_target hcut [] rest'
  exact target_of_head rfl rest' ((congrArg List.head? hscan).symm.trans h)

/-- A quoted value is read up to the next quote. -/
theorem scan_quoted {xs : List Char} (hquote : '"' ∉ xs) (hescape : '\\' ∉ xs) (t : List Char)
    (ps : List (List Char × List Char)) (n v rest : List Char) :
    scan (.quoted t ps n v) (xs ++ '"' :: rest) = scan (.params t (ps ++ [(n, v ++ xs)])) rest := by
  induction xs generalizing v with
  | nil =>
      rw [List.nil_append, List.append_nil, scan, Scan.step, if_pos rfl]
      rfl
  | cons x xs ih =>
      have hx : x ≠ '"' := fun h => hquote (h ▸ List.mem_cons_self)
      have hx' : x ≠ '\\' := fun h => hescape (h ▸ List.mem_cons_self)
      rw [List.cons_append, scan, Scan.step, if_neg hx, if_neg hx']
      refine (ih (fun h => hquote (List.mem_cons_of_mem _ h))
        (fun h => hescape (List.mem_cons_of_mem _ h)) _).trans ?_
      rw [List.append_assoc, List.singleton_append]

/-- **A link is read back.** -/
theorem scan_text {target rel : List Char} (htarget : '>' ∉ target) (hquote : '"' ∉ rel)
    (hescape : '\\' ∉ rel) (rest : List Char) :
    scan .between (text target rel ++ rest) = scan (.params target [("rel".toList, rel)]) rest := by
  have htext : text target rel ++ rest =
      '<' :: (target ++ '>' :: ("; rel=\"".toList ++ (rel ++ '"' :: rest))) := by
    simp [text]
  rw [htext]
  refine (scan_target htarget [] _).trans ?_
  exact scan_quoted hquote hescape target [] "rel".toList [] rest

/-- **Links are read back**, if no target holds a `>`. -/
theorem parse_intercalate (ls : List (List Char × List Char))
    (h : ∀ l ∈ ls, '>' ∉ l.1 ∧ '"' ∉ l.2 ∧ '\\' ∉ l.2) :
    parse (", ".toList.intercalate (ls.map fun l => text l.1 l.2)) =
      ls.map fun l => ⟨l.1, [("rel".toList, l.2)]⟩ := by
  induction ls with
  | nil => rfl
  | cons l ls ih =>
      obtain ⟨htarget, hquote, hescape⟩ := h l List.mem_cons_self
      have ih := ih fun l' hl' => h l' (List.mem_cons_of_mem _ hl')
      cases ls with
      | nil =>
          have hread := scan_text htarget hquote hescape []
          rw [List.append_nil] at hread
          rw [List.map_cons, List.map_nil, List.intercalate_singleton, parse, hread]
          rfl
      | cons l' ls =>
          rw [List.map_cons, List.map_cons, List.intercalate_cons_cons, parse, List.append_assoc,
            scan_text htarget hquote hescape]
          exact congrArg _ ih

/-! ### Following links -/

section Following

variable {α : Type} {next : α → Option α}

/-- **Following `next` visits a list and then stops.** -/
inductive Visits (next : α → Option α) : α → List α → Prop
  | stop {x : α} (h : next x = none) : Visits next x [x]
  | follow {x y : α} {l : List α} (h : next x = some y) (hl : Visits next y l) :
      Visits next x (x :: l)

theorem Visits.unique {x : α} {l l' : List α} (h : Visits next x l) (h' : Visits next x l') :
    l = l' := by
  induction h generalizing l' with
  | stop hx =>
      cases h' with
      | stop => rfl
      | follow hy => exact absurd (hx.symm.trans hy) (by simp)
  | follow hy hl ih =>
      cases h' with
      | stop hx => exact absurd (hx.symm.trans hy) (by simp)
      | follow hy' hl' =>
          obtain rfl := Option.some.inj (hy.symm.trans hy')
          rw [ih hl']

/-- **What is visited along a numbered chain.** -/
theorem visits_iff (next : α → Option α) (f : ℕ → α) (i : ℕ) {n : ℕ} (hn : 0 < n)
    (hnext : ∀ j, i ≤ j → j + 1 < i + n → next (f j) = some (f (j + 1)))
    (hstop : next (f (i + n - 1)) = none) (l : List α) :
    Visits next (f i) l ↔ l = (List.range' i n).map f := by
  have hvisits : Visits next (f i) ((List.range' i n).map f) := by
    induction n generalizing i with
    | zero => exact absurd hn (by omega)
    | succ n ih =>
        rw [List.range'_succ, List.map_cons]
        rcases Nat.eq_zero_or_pos n with rfl | hpos
        · exact .stop hstop
        · refine .follow (hnext i (Nat.le_refl i) (by omega))
            (ih (i + 1) hpos (fun j hj hlt => ?_) ?_)
          · exact hnext j (by omega) (by omega)
          · rwa [show i + 1 + n - 1 = i + (n + 1) - 1 by omega]
  constructor
  · intro h
    exact h.unique hvisits
  · rintro rfl
    exact hvisits

end Following

end WebLinks
