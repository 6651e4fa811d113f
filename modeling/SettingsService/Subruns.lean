import Mathlib.Data.List.DropRight
import SettingsService.Traces

/-!
# Runs inside a run

The processes of a run can be made of smaller ones: a process performs, among other calls, the calls
of processes over a part of the store.  If every call either leaves that part alone or is the next
call of one of the smaller processes, answered by the part, then what happened to the part is a run
of the smaller processes.

Main definitions:

* `Interaction.calls`, `Interaction.callsOf` — the calls of a history, and those of one process;
* `Interaction.Possible` — calls that processes can perform one after the other;
* `Interaction.subcalls` — the calls of the smaller processes, read off a history.

Main results:

* `Interaction.perm_own` — what a history has done is what its processes have done;
* `Interaction.Possible.exists_reachable` — calls that can be performed are performed in a run;
* `Interaction.Reachable.subrun_of_rel`, `Interaction.Reachable.subrun` — **a part of a run is a
  run**;
* `Interaction.Reachable.purge` — so are the calls of some of its processes, where those of the
  others change nothing that they see.
-/

set_option relaxedAutoImplicit false
set_option autoImplicit false

namespace Interaction

variable {Op : Type} {Ret : Op → Type} {σ ι α : Type}

/-! ### Calls without the stores they found -/

/-- The calls of a history, each with the process that performed it. -/
def calls (hist : List (Event Op Ret σ ι)) : List (ℕ × Answered Op Ret) :=
  hist.map fun e => (e.who, ⟨e.op, e.reply⟩)

/-- The calls of one process. -/
def callsOf (j : ℕ) (cs : List (ℕ × Answered Op Ret)) : List (Answered Op Ret) :=
  (cs.filter fun x => x.1 = j).map Prod.snd

@[simp] theorem callsOf_nil (j : ℕ) : callsOf j ([] : List (ℕ × Answered Op Ret)) = [] := rfl

theorem callsOf_append (j : ℕ) (cs cs' : List (ℕ × Answered Op Ret)) :
    callsOf j (cs ++ cs') = callsOf j cs ++ callsOf j cs' := by
  rw [callsOf, List.filter_append, List.map_append, callsOf, callsOf]

theorem callsOf_singleton (j : ℕ) (x : ℕ × Answered Op Ret) :
    callsOf j [x] = if x.1 = j then [x.2] else [] := by
  by_cases hx : x.1 = j <;> simp [callsOf, hx]

theorem callsOf_calls (j : ℕ) (hist : List (Event Op Ret σ ι)) :
    callsOf j (calls hist) = own j hist := by
  rw [callsOf, calls, own, List.filter_map, List.map_map]
  rfl

/-- What calls make of a store. -/
def afterCalls (h : (o : Op) → σ → Ret o × σ) (s : σ) (cs : List (ℕ × Answered Op Ret)) : σ :=
  cs.foldl (fun s x => (h x.2.1 s).2) s

theorem afterCalls_snoc (h : (o : Op) → σ → Ret o × σ) (s : σ) (cs : List (ℕ × Answered Op Ret))
    (x : ℕ × Answered Op Ret) : afterCalls h s (cs ++ [x]) = (h x.2.1 (afterCalls h s cs)).2 := by
  rw [afterCalls, List.foldl_append]
  rfl

theorem afterCalls_calls (h : (o : Op) → σ → Ret o × σ) (s : σ) (hist : List (Event Op Ret σ ι)) :
    afterCalls h s (calls hist) = replay h s hist := by
  rw [afterCalls, calls, List.foldl_map, replay]

/-- What the processes have done is what the history has, process by process. -/
theorem perm_own {β : Type} (f : Answered Op Ret → Option β) {is : List ℕ} (his : is.Nodup)
    {hist : List (Event Op Ret σ ι)}
    (h : ∀ e ∈ hist, (f ⟨e.op, e.reply⟩).isSome = true → e.who ∈ is) :
    (is.flatMap fun i => (own i hist).filterMap f).Perm
      (hist.filterMap fun e => f ⟨e.op, e.reply⟩) := by
  induction is generalizing hist with
  | nil =>
      rw [List.flatMap_nil, List.filterMap_eq_nil_iff.2 fun e he => ?_]
      exact Option.not_isSome_iff_eq_none.1 fun hf => List.not_mem_nil (h e he hf)
  | cons i is ih =>
      obtain ⟨hi, his⟩ := List.nodup_cons.1 his
      -- the calls of the others are among those that are not its own
      have hrest := @ih his (hist.filter fun e => !decide (e.who = i)) fun e he hf => by
        obtain ⟨he, hne⟩ := List.mem_filter.1 he
        refine (List.mem_cons.1 (h e he hf)).resolve_left fun hwho => ?_
        simp [hwho] at hne
      have howns : (is.flatMap fun j =>
          (own j (hist.filter fun e => !decide (e.who = i))).filterMap f) =
            is.flatMap fun j => (own j hist).filterMap f := by
        refine List.flatMap_congr fun j hj => ?_
        have hne : j ≠ i := fun hji => hi (hji ▸ hj)
        rw [own, own, List.filter_filter]
        congr 2
        refine List.filter_congr fun e _ => ?_
        by_cases hwho : e.who = j <;> simp [hwho, hne]
      rw [howns] at hrest
      have hown : (own i hist).filterMap f =
          (hist.filter fun e => decide (e.who = i)).filterMap fun e => f ⟨e.op, e.reply⟩ := by
        rw [own, List.filterMap_map]
        rfl
      rw [List.flatMap_cons, hown]
      refine (List.Perm.append_left _ hrest).trans ?_
      rw [← List.filterMap_append]
      exact (List.filter_append_perm _ hist).filterMap _

/-- A process that came before another one still does in a part of the history. -/
theorem Precedes.of_calls {Op' : Type} {Ret' : Op' → Type} {σ' ι' : Type}
    {hist : List (Event Op Ret σ ι)} {hist' : List (Event Op' Ret' σ' ι')}
    {f : Event Op Ret σ ι → Option (ℕ × Answered Op' Ret')}
    (hcalls : calls hist' = hist.filterMap f) (hf : ∀ e x, f e = some x → x.1 = e.who) {i j : ℕ}
    (hij : Precedes hist i j) : Precedes hist' i j := by
  have hwho : ∀ l : List (Event Op Ret σ ι),
      ((l.filterMap f).map Prod.fst).Sublist (l.map Event.who) := by
    intro l
    induction l with
    | nil => exact .slnil
    | cons e l ih =>
        cases he : f e with
        | none =>
            rw [List.filterMap_cons_none he]
            exact .cons _ ih
        | some x =>
            rw [List.filterMap_cons_some he, List.map_cons, hf e x he]
            exact .cons_cons _ ih
  have hsub := hwho hist
  rw [← hcalls, calls, List.map_map] at hsub
  rw [Precedes, ← List.pairwise_map (f := Event.who) (R := fun a b => ¬ (a = j ∧ b = i))] at hij ⊢
  exact hij.sublist hsub

/-! ### The calls since a mark -/

/-- What came after the last element that does not satisfy `p`, among those a function keeps: each
element that does not satisfy it is kept as one that does not satisfy `p'`. -/
theorem filterMap_rtakeWhile {α β : Type} {f : α → Option β} {p : α → Bool} {p' : β → Bool}
    (h : ∀ x, p x = (f x).all p') (xs : List α) :
    (xs.rtakeWhile p).filterMap f = (xs.filterMap f).rtakeWhile p' := by
  induction xs using List.reverseRecOn with
  | nil => rfl
  | append_singleton xs x ih =>
      rw [List.rtakeWhile_concat, List.filterMap_append, List.filterMap_cons, List.filterMap_nil, h]
      cases hx : f x with
      | none => simp [hx, ih]
      | some y =>
          simp only [Option.all_some, List.rtakeWhile_concat]
          split_ifs
          · simp [hx, ih]
          · rfl

/-- **Since the mark of a process** there is no call of it. -/
theorem Marks.drop_eq {hist : List (Event Op Ret σ ι)} {i m : ℕ} (hm : Marks hist i m)
    (hown : own i hist ≠ []) : hist.drop m = hist.rtakeWhile fun e => !decide (e.who = i) := by
  obtain ⟨pre, x, hx⟩ := List.eq_nil_or_concat (own i hist) |>.resolve_left hown
  rw [List.concat_eq_append] at hx
  obtain ⟨l, e, rfl, he, hwho, rfl, hpre⟩ := hm pre x hx
  have hsplit : hist = hist.take l ++ [e] ++ hist.drop (l + 1) := by
    conv_lhs => rw [← List.take_append_drop (l + 1) hist]
    rw [List.take_add_one, he, Option.toList_some]
  have hafter : ∀ d ∈ hist.drop (l + 1), (!decide (d.who = i)) = true := by
    have hnil : own i (hist.drop (l + 1)) = [] := by
      have hall := own_eq_of_getElem? he
      rw [hwho, hx, hpre] at hall
      simpa using hall.symm
    intro d hd
    by_contra hne
    have hdi : d.who = i := by simpa using hne
    obtain ⟨n, hn⟩ := List.getElem?_of_mem hd
    have hmem : (⟨d.op, d.reply⟩ : Answered Op Ret) ∈ own i (hist.drop (l + 1)) :=
      mem_own_iff.2 ⟨n, d, hn, hdi, rfl⟩
    rw [hnil] at hmem
    cases hmem
  conv_rhs => rw [hsplit]
  rw [List.rtakeWhile, List.reverse_append, List.takeWhile_append_of_pos
    fun d hd => hafter d (List.mem_reverse.1 hd), List.reverse_append]
  simp [hwho]

/-- The calls since the mark of a process, among those before a call of it. -/
theorem Reachable.calls_since {h : (o : Op) → σ → Ret o × σ}
    {G : List (Event Op Ret σ ι) → Event Op Ret σ ι → Prop} {s₀ : σ} {prog : ι → Prog Op Ret α}
    {reqs : List ι} {c : Snapshot Op Ret σ ι α}
    (hc : Reachable h G (Snapshot.init s₀ prog reqs) c) {n : ℕ} {e : Event Op Ret σ ι}
    (he : c.hist[n]? = some e) (hown : own e.who (c.hist.take n) ≠ []) :
    calls ((c.hist.take n).drop e.mark) =
      (calls (c.hist.take n)).rtakeWhile fun x => !decide (x.1 = e.who) := by
  rw [(hc.marks he).drop_eq hown, calls, calls, ← List.filterMap_eq_map]
  refine filterMap_rtakeWhile (fun d => ?_) _
  rfl

/-- Where the calls of a history are those that a function keeps of another one, each of them has
its source. -/
theorem exists_source {Op' : Type} {Ret' : Op' → Type} {σ' ι' : Type}
    {hist : List (Event Op Ret σ ι)} {hist' : List (Event Op' Ret' σ' ι')}
    {f : Event Op Ret σ ι → Option (ℕ × Answered Op' Ret')}
    (hcalls : calls hist' = hist.filterMap f) {n' : ℕ} {e' : Event Op' Ret' σ' ι'}
    (he' : hist'[n']? = some e') :
    ∃ n e, hist[n]? = some e ∧ f e = some (e'.who, ⟨e'.op, e'.reply⟩) ∧
      calls (hist'.take n') = (hist.take n).filterMap f := by
  have hget : (calls hist')[n']? = some (e'.who, ⟨e'.op, e'.reply⟩) := by
    rw [calls, List.getElem?_map, he']
    rfl
  have htake : calls (hist'.take n') = (calls hist').take n' := by rw [calls, List.map_take, calls]
  rw [htake, hcalls]
  rw [hcalls] at hget
  clear hcalls htake he'
  induction hist using List.reverseRecOn with
  | nil => simp at hget
  | append_singleton hist e ih =>
      rw [List.filterMap_append] at hget ⊢
      rcases Nat.lt_or_ge n' (hist.filterMap f).length with hlt | hge
      · rw [List.getElem?_append_left hlt] at hget
        obtain ⟨n, d, hn, hd, hpre⟩ := ih hget
        have hlen := (List.getElem?_eq_some_iff.1 hn).1
        refine ⟨n, d, by rwa [List.getElem?_append_left hlen], hd, ?_⟩
        rw [List.take_append_of_le_length (Nat.le_of_lt hlt), hpre,
          List.take_append_of_le_length (Nat.le_of_lt hlen)]
      · rw [List.getElem?_append_right hge, List.filterMap_cons, List.filterMap_nil] at hget
        cases hf : f e with
        | none => simp [hf] at hget
        | some x =>
            rw [hf] at hget
            simp only at hget
            have hzero : n' - (hist.filterMap f).length = 0 := by
              rw [List.getElem?_singleton] at hget
              split_ifs at hget with h0
              exact h0
            rw [hzero] at hget
            refine ⟨hist.length, e, List.getElem?_concat_length, hf.trans hget, ?_⟩
            rw [List.take_left, List.take_append, List.take_of_length_le hge, hzero, List.take_zero,
              List.append_nil]

/-! ### Calls that can be performed -/

/-- The processes of the requests can perform these calls in this order. -/
inductive Possible (h : (o : Op) → σ → Ret o × σ) (s : σ) (prog : ι → Prog Op Ret α)
    (reqs : List ι) : List (ℕ × Answered Op Ret) → Prop
  | nil : Possible h s prog reqs []
  | snoc {cs : List (ℕ × Answered Op Ret)} {j : ℕ} {q : ι} {o : Op} {k : Ret o → Prog Op Ret α}
      (hcs : Possible h s prog reqs cs) (hq : reqs[j]? = some q)
      (hk : (prog q).Follows (callsOf j cs) (.call o k)) :
      Possible h s prog reqs (cs ++ [(j, ⟨o, (h o (afterCalls h s cs)).1⟩)])

/-- **Calls that can be performed are performed in a run.** -/
theorem Possible.exists_reachable {h : (o : Op) → σ → Ret o × σ} {s : σ}
    {prog : ι → Prog Op Ret α} {reqs : List ι} {cs : List (ℕ × Answered Op Ret)}
    (hcs : Possible h s prog reqs cs) :
    ∃ c, Reachable h (fun _ _ => True) (Snapshot.init s prog reqs) c ∧ calls c.hist = cs := by
  induction hcs with
  | nil => exact ⟨_, .refl, rfl⟩
  | @snoc cs j q o k hcs hq hk ih =>
      obtain ⟨c, hc, rfl⟩ := ih
      obtain ⟨p, hp, rfl⟩ := hc.exists_proc hq
      rw [callsOf_calls] at hk
      have hstep := hc.step (.call hp ((hc.follows hp).unique hk) trivial)
      refine ⟨_, hstep, ?_⟩
      rw [afterCalls_calls, ← hc.state_eq, calls, List.map_append]
      rfl

/-! ### A part of a run -/

section Subrun

variable {Op' : Type} {Ret' : Op' → Type} {σ' ι' α' : Type}

/-- The calls of the smaller processes in a history: what a label makes of each call, given the
calls before it. -/
def subcalls (label : List (Event Op Ret σ ι) → Event Op Ret σ ι → Option (ℕ × Answered Op' Ret'))
    (hist : List (Event Op Ret σ ι)) : List (ℕ × Answered Op' Ret') :=
  (List.range hist.length).filterMap fun n => hist[n]?.bind (label (hist.take n))

variable {label : List (Event Op Ret σ ι) → Event Op Ret σ ι → Option (ℕ × Answered Op' Ret')}

theorem subcalls_snoc (hist : List (Event Op Ret σ ι)) (e : Event Op Ret σ ι) :
    subcalls label (hist ++ [e]) = subcalls label hist ++ (label hist e).toList := by
  rw [subcalls, List.length_append, List.length_singleton, List.range_succ, List.filterMap_append]
  congr 1
  · refine List.filterMap_congr fun n hn => ?_
    have hlt : n < hist.length := List.mem_range.1 hn
    rw [List.getElem?_append_left hlt, List.take_append_of_le_length (Nat.le_of_lt hlt)]
  · rw [List.filterMap_cons, List.filterMap_nil, List.getElem?_concat_length, Option.bind_some,
      List.take_left]
    cases label hist e <;> rfl

/-- A label that looks at the call alone. -/
theorem subcalls_eq_filterMap (f : Event Op Ret σ ι → Option (ℕ × Answered Op' Ret'))
    (hist : List (Event Op Ret σ ι)) : subcalls (fun _ e => f e) hist = hist.filterMap f := by
  induction hist using List.reverseRecOn with
  | nil => rfl
  | append_singleton hist e ih =>
      rw [subcalls_snoc, ih, List.filterMap_append, List.filterMap_cons, List.filterMap_nil]
      cases f e <;> rfl

variable {h : (o : Op) → σ → Ret o × σ} {G : List (Event Op Ret σ ι) → Event Op Ret σ ι → Prop}
  {s₀ : σ} {prog : ι → Prog Op Ret α} {reqs : List ι} {c : Snapshot Op Ret σ ι α}

/-- **A part of a run is a run.**  A call without a label leaves the related store alone; a call
with a label is answered by that store as the next call of a smaller process. -/
theorem Reachable.subrun_of_rel (hc : Reachable h G (Snapshot.init s₀ prog reqs) c)
    (label : List (Event Op Ret σ ι) → Event Op Ret σ ι → Option (ℕ × Answered Op' Ret'))
    (R : σ → σ' → Prop) (h' : (o : Op') → σ' → Ret' o × σ') (prog' : ι' → Prog Op' Ret' α')
    (reqs' : List ι') {s₀' : σ'} (hR : R s₀ s₀')
    (hskip : ∀ (n : ℕ) (e : Event Op Ret σ ι) (s' : σ'), c.hist[n]? = some e →
      label (c.hist.take n) e = none → R e.before s' → R (h e.op e.before).2 s')
    (hcall : ∀ (n : ℕ) (e : Event Op Ret σ ι) (j : ℕ) (x : Answered Op' Ret') (s' : σ'),
      c.hist[n]? = some e → label (c.hist.take n) e = some (j, x) → R e.before s' →
        (h' x.1 s').1 = x.2 ∧ R (h e.op e.before).2 (h' x.1 s').2 ∧
        ∃ q k, reqs'[j]? = some q ∧
          (prog' q).Follows (callsOf j (subcalls label (c.hist.take n))) (.call x.1 k)) :
    ∃ c', Reachable h' (fun _ _ => True) (Snapshot.init s₀' prog' reqs') c' ∧
      calls c'.hist = subcalls label c.hist ∧ R c.state c'.state := by
  have hprefix : ∀ n ≤ c.hist.length,
      Possible h' s₀' prog' reqs' (subcalls label (c.hist.take n)) ∧
        R (replay h s₀ (c.hist.take n)) (afterCalls h' s₀' (subcalls label (c.hist.take n))) := by
    intro n hn
    induction n with
    | zero => exact ⟨.nil, hR⟩
    | succ n ih =>
        obtain ⟨ihp, ihs⟩ := ih (Nat.le_of_succ_le hn)
        have he : c.hist[n]? = some c.hist[n] := List.getElem?_eq_getElem hn
        rw [List.take_add_one, he, Option.toList_some, subcalls_snoc, replay_snoc,
          ← (hc.next he).before]
        rw [← (hc.next he).before] at ihs
        cases hl : label (c.hist.take n) c.hist[n] with
        | none =>
            rw [Option.toList_none, List.append_nil]
            exact ⟨ihp, hskip n _ _ he hl ihs⟩
        | some jx =>
            obtain ⟨j, o, r⟩ := jx
            obtain ⟨hx, hnext, q, k, hq, hk⟩ := hcall n _ j ⟨o, r⟩ _ he hl ihs
            rw [Option.toList_some, afterCalls_snoc]
            refine ⟨?_, hnext⟩
            have hsnoc := ihp.snoc hq hk
            simp only at hx
            rw [hx] at hsnoc
            exact hsnoc
  obtain ⟨hpossible, hstate⟩ := hprefix c.hist.length (Nat.le_refl _)
  rw [List.take_length] at hpossible hstate
  obtain ⟨c', hc', hcalls⟩ := hpossible.exists_reachable
  refine ⟨c', hc', hcalls, ?_⟩
  rw [hc'.state_eq, ← afterCalls_calls, hcalls, hc.state_eq]
  exact hstate

/-- A part of a run is a run on a part of the store. -/
theorem Reachable.subrun (hc : Reachable h G (Snapshot.init s₀ prog reqs) c)
    (label : List (Event Op Ret σ ι) → Event Op Ret σ ι → Option (ℕ × Answered Op' Ret'))
    (view : σ → σ') (h' : (o : Op') → σ' → Ret' o × σ') (prog' : ι' → Prog Op' Ret' α')
    (reqs' : List ι')
    (hskip : ∀ (n : ℕ) (e : Event Op Ret σ ι), c.hist[n]? = some e →
      label (c.hist.take n) e = none → view (h e.op e.before).2 = view e.before)
    (hcall : ∀ (n : ℕ) (e : Event Op Ret σ ι) (j : ℕ) (x : Answered Op' Ret'),
      c.hist[n]? = some e → label (c.hist.take n) e = some (j, x) →
        h' x.1 (view e.before) = (x.2, view (h e.op e.before).2) ∧
        ∃ q k, reqs'[j]? = some q ∧
          (prog' q).Follows (callsOf j (subcalls label (c.hist.take n))) (.call x.1 k)) :
    ∃ c', Reachable h' (fun _ _ => True) (Snapshot.init (view s₀) prog' reqs') c' ∧
      calls c'.hist = subcalls label c.hist ∧ c'.state = view c.state := by
  refine hc.subrun_of_rel label (fun s s' => s' = view s) h' prog' reqs' rfl
    (fun n e s' he hl hs => ?_) fun n e j x s' he hl hs => ?_
  · rw [hs, hskip n e he hl]
  · obtain ⟨hx, hnext⟩ := hcall n e j x he hl
    subst hs
    rw [hx]
    exact ⟨rfl, rfl, hnext⟩

/-! ### Some of the processes -/

/-- The calls of the processes whose requests are `mine`. -/
def mineOnly (mine : ι → Bool) (e : Event Op Ret σ ι) : Option (ℕ × Answered Op Ret) :=
  if mine e.req then some (e.who, ⟨e.op, e.reply⟩) else none

theorem callsOf_mineOnly {mine : ι → Bool} {i : ℕ} {hist : List (Event Op Ret σ ι)}
    (h : ∀ e ∈ hist, e.who = i → mine e.req = true) :
    callsOf i (hist.filterMap (mineOnly mine)) = own i hist := by
  induction hist using List.reverseRecOn with
  | nil => rfl
  | append_singleton hist e ih =>
      rw [List.filterMap_append, callsOf_append, own_append, own_singleton,
        ih fun d hd => h d (List.mem_append_left _ hd), List.filterMap_cons, List.filterMap_nil,
        mineOnly]
      congr 1
      by_cases hwho : e.who = i
      · rw [if_pos (h e (by simp) hwho), callsOf_singleton]
      · rw [if_neg hwho]
        split_ifs
        · rw [callsOf_singleton, if_neg hwho]
        · rfl

/-- **Others are not observed.**  If the calls of my processes see and change what I observe by what
I observe alone, and the calls of the others do not change it, then my processes do the same from
any store where I observe the same, while the others do nothing. -/
theorem Reachable.purge {V : Type} (hc : Reachable h G (Snapshot.init s₀ prog reqs) c)
    (mine : ι → Bool) (obs : σ → V) (hmine : ∀ q, mine q = true → (prog q).Only fun o => ∀ s s',
      obs s = obs s' → (h o s).1 = (h o s').1 ∧ obs (h o s).2 = obs (h o s').2)
    (hothers : ∀ q, mine q = false → (prog q).Only fun o => ∀ s, obs (h o s).2 = obs s) {s₁ : σ}
    (hs : obs s₀ = obs s₁) :
    ∃ c', Reachable h (fun _ _ => True) (Snapshot.init s₁ prog reqs) c' ∧
      calls c'.hist = c.hist.filterMap (mineOnly mine) ∧ obs c.state = obs c'.state ∧
      ∀ (i : ℕ) (p : Proc Op Ret ι α), c.procs[i]? = some p → mine p.req = true →
        ∃ p', c'.procs[i]? = some p' ∧ p'.req = p.req ∧ p'.prog = p.prog := by
  -- the calls of a process are all mine, or none of them is
  have hown : ∀ (i : ℕ) (q : ι) (n : ℕ), reqs[i]? = some q → mine q = true →
      callsOf i ((c.hist.take n).filterMap (mineOnly mine)) = own i (c.hist.take n) := by
    intro i q n hq hi
    refine callsOf_mineOnly fun e he hwho => ?_
    obtain ⟨m, hm⟩ := List.getElem?_of_mem (List.mem_of_mem_take he)
    have hreq := hc.req_of_event hm
    rw [hwho, hq, Option.some.injEq] at hreq
    rwa [← hreq]
  have hskip : ∀ (n : ℕ) (e : Event Op Ret σ ι) (s' : σ), c.hist[n]? = some e →
      mineOnly mine e = none → obs e.before = obs s' → obs (h e.op e.before).2 = obs s' := by
    intro n e s' he hl hR
    obtain ⟨k, hk⟩ := (hc.next he).follows
    have hm : mine e.req = false := by
      cases hm : mine e.req with
      | false => rfl
      | true => simp [mineOnly, hm] at hl
    exact (((hothers _ hm).of_follows hk).1 _).trans hR
  have hcall : ∀ (n : ℕ) (e : Event Op Ret σ ι) (j : ℕ) (x : Answered Op Ret) (s' : σ),
      c.hist[n]? = some e → mineOnly mine e = some (j, x) → obs e.before = obs s' →
        (h x.1 s').1 = x.2 ∧ obs (h e.op e.before).2 = obs (h x.1 s').2 ∧
        ∃ q k, reqs[j]? = some q ∧ (prog q).Follows
          (callsOf j (subcalls (fun _ e => mineOnly mine e) (c.hist.take n))) (.call x.1 k) := by
    intro n e j x s' he hl hR
    obtain ⟨k, hk⟩ := (hc.next he).follows
    have hm : mine e.req = true := by
      cases hm : mine e.req with
      | true => rfl
      | false => simp [mineOnly, hm] at hl
    rw [mineOnly, if_pos hm, Option.some.injEq, Prod.mk.injEq] at hl
    obtain ⟨rfl, rfl⟩ := hl
    obtain ⟨hreply, hnext⟩ := ((hmine _ hm).of_follows hk).1 _ _ hR
    refine ⟨hreply.symm.trans (hc.next he).reply.symm, hnext, e.req, k, hc.req_of_event he, ?_⟩
    rwa [subcalls_eq_filterMap, hown e.who e.req n (hc.req_of_event he) hm]
  obtain ⟨c', hc', hcalls, hobs⟩ := hc.subrun_of_rel (fun _ e => mineOnly mine e)
    (fun s s' => obs s = obs s') h prog reqs hs hskip hcall
  rw [subcalls_eq_filterMap] at hcalls
  refine ⟨c', hc', hcalls, hobs, fun i p hp hi => ?_⟩
  have hreq := hc.req_of_proc hp
  obtain ⟨p', hp', hpreq⟩ := hc'.exists_proc hreq
  refine ⟨p', hp', hpreq, ?_⟩
  have hfollows := hc'.follows hp'
  have hmineown := hown i p.req c.hist.length hreq hi
  rw [List.take_length] at hmineown
  rw [← callsOf_calls, hcalls, hmineown, hpreq] at hfollows
  exact hfollows.unique (hc.follows hp)

end Subrun

end Interaction
