import SettingsService.Purge
import SettingsService.SettingsMap

/-!
# What an answer depends on

What a principal is answered depends on nothing but what was written where it may read: in the order
in which requests in flight do to the settings map what they are for, each answer is the one of the
map that those requests alone leave, except that a principal without an entry may be told that
others have one.

Main definitions:

* `SettingsMap.readBy` — what an authority may read of a map;
* `Answer.blur` — an answer that does not tell the missing from the forbidden;
* `Confined` — requests in this order are answered as if nobody else wrote.

Main results:

* `Write.apply_snd` — a write changes the entry of its owner by that entry alone;
* `Authority.unwinds` — what an authority may read changes by what it may read alone;
* `Request.blur_apply` — a request is answered by what its authority may read;
* `exists_order_confined` — **answers are confined to what their authorities may read**.
-/

set_option relaxedAutoImplicit false
set_option autoImplicit false

namespace SettingsService

open Interaction (Proc Snapshot Reachable Precedes)

/-- What an authority may read of a map. -/
def SettingsMap.readBy (a : Authority) (S : SettingsMap) : SettingsMap := fun key o =>
  if a.canRead o then S key o else none

/-- An answer that does not tell the missing from the forbidden. -/
def Answer.blur : Answer → Answer
  | .error .forbidden => .error .notFound
  | a => a

/-- A request that writes where an authority may read. -/
def Authority.watches (a : Authority) (q : Request) : Bool := a.canRead q.authority.scopeOwnership

namespace SettingsMap

variable {S S' : SettingsMap} {a : Authority}

theorem readBy_eq_iff : S.readBy a = S'.readBy a ↔ ∀ key o, a.canRead o = true →
    S key o = S' key o := by
  constructor
  · intro h key o ho
    have heq := congrFun (congrFun h key) o
    rwa [readBy, readBy, if_pos ho, if_pos ho] at heq
  · intro h
    funext key o
    rw [readBy, readBy]
    split_ifs with ho
    · exact h key o ho
    · rfl

theorem set_self (key : SettingKey) (o : Ownership) : S.set key o (S key o) = S := by
  rw [set, Function.update_eq_self, Function.update_eq_self]

theorem set_eq_self_of_ne {key key' : SettingKey} {o o' : Ownership} (ho : o' ≠ o)
    (x : Option (ℕ × SettingValue)) : S.set key o x key' o' = S key' o' := by
  by_cases hkey : key' = key
  · rw [hkey, set, Function.update_self, Function.update_of_ne ho]
  · rw [set, Function.update_of_ne hkey]

theorem set_congr {key key' : SettingKey} {o o' : Ownership} {x : Option (ℕ × SettingValue)}
    (h : S key' o' = S' key' o') : S.set key o x key' o' = S'.set key o x key' o' := by
  by_cases hkey : key' = key
  · subst hkey
    rw [set, set, Function.update_self, Function.update_self]
    by_cases ho : o' = o
    · rw [ho, Function.update_self, Function.update_self]
    · rw [Function.update_of_ne ho, Function.update_of_ne ho, h]
  · rw [set, set, Function.update_of_ne hkey, Function.update_of_ne hkey, h]

/-- Why a caller is refused is blurred. -/
theorem blur_missing (tenant : Tenant) (key : SettingKey) :
    Answer.blur (.error (S.missing tenant key)) = .error .notFound := by
  rw [missing]
  split_ifs <;> rfl

theorem seenBy_congr {key : SettingKey} (h : S.readBy a = S'.readBy a) :
    S.seenBy a key = S'.seenBy a key := by
  rw [readBy_eq_iff] at h
  have hown := h key _ (Authority.canRead_iff.2 (.inl rfl))
  rw [seenBy, seenBy]
  cases hrole : a.role with
  | user => simp only [hown]
  | admin => simp only [hown, h key _ (Authority.canRead_iff.2 (.inr ⟨hrole, rfl⟩))]

end SettingsMap

/-! ### One request -/

/-- What a write makes of the entry of its owner. -/
noncomputable def Write.entryAfter (w : Write) (x : Option (ℕ × SettingValue)) :
    Option (ℕ × SettingValue) := (w.apply fun _ _ => x).2 w.key w.target

/-- **A write changes the entry of its owner by that entry alone.** -/
theorem Write.apply_snd (w : Write) (S : SettingsMap) :
    (w.apply S).2 = S.set w.key w.target (w.entryAfter (S w.key w.target)) := by
  have hset : ∀ (S' : SettingsMap) (x : Option (ℕ × SettingValue)),
      S'.set w.key w.target x w.key w.target = x := fun S' x => by
    rw [SettingsMap.set, Function.update_self, Function.update_self]
  rcases h : S w.key w.target with _ | ⟨version, value⟩
  · have hself := S.set_self w.key w.target
    rw [h] at hself
    cases w with
    | put key value authority expected now =>
        simp only [entryAfter, apply, h, SettingsMap.store]
        exact congrArg _ (hset _ _).symm
    | patch | delete =>
        simp only [entryAfter, apply, h]
        exact hself.symm
  · have hself := S.set_self w.key w.target
    rw [h] at hself
    cases w with
    | put key value' authority expected now =>
        simp only [entryAfter, apply, h]
        split_ifs
        · simp only [SettingsMap.store]
          exact congrArg _ (hset _ _).symm
        · exact hself.symm
    | patch key p authority expected now =>
        simp only [entryAfter, apply, h]
        split_ifs
        · cases value.merge p with
          | ok merged =>
              simp only [SettingsMap.store]
              exact congrArg _ (hset _ _).symm
          | error e => exact hself.symm
        · exact hself.symm
    | delete key authority expected =>
        simp only [entryAfter, apply, h]
        split_ifs
        · dsimp only
          exact congrArg _ (hset _ _).symm
        · exact hself.symm

/-- A write is answered by the entry of its owner. -/
theorem Write.blur_apply (w : Write) {S S' : SettingsMap}
    (h : S w.key w.target = S' w.key w.target) :
    Answer.blur (w.apply S).1 = Answer.blur (w.apply S').1 := by
  rcases hx : S w.key w.target with _ | ⟨version, value⟩ <;> rw [hx] at h
  · cases w with
    | put => simp only [apply, hx, ← h, SettingsMap.store]
    | patch | delete => simp only [apply, hx, ← h, SettingsMap.blur_missing]
  · cases w with
    | put | delete =>
        simp only [apply, hx, ← h, SettingsMap.store]
        split_ifs <;> rfl
    | patch key p authority expected now =>
        simp only [apply, hx, ← h, SettingsMap.store]
        split_ifs
        · cases value.merge p <;> rfl
        · rfl

/-- **A request is answered by what its authority may read.** -/
theorem Request.blur_apply (q : Request) {S S' : SettingsMap}
    (h : S.readBy q.authority = S'.readBy q.authority) :
    (q.apply S).1.map Answer.blur = (q.apply S').1.map Answer.blur := by
  cases q with
  | search => rfl
  | get key authority =>
      have hseen : S.seenBy authority key = S'.seenBy authority key := SettingsMap.seenBy_congr h
      simp only [apply, hseen, Option.map_some]
      cases S'.seenBy authority key with
      | some x => rfl
      | none => rw [SettingsMap.blur_missing, SettingsMap.blur_missing]
  | write w =>
      have hw := SettingsMap.readBy_eq_iff.1 h w.key w.target w.authority.canWrite_scopeOwnership
      simp only [apply, Option.map_some, w.blur_apply hw]

/-- A step of the map. -/
noncomputable def Request.step (q : Request) (S : SettingsMap) : Unit × SettingsMap :=
  ((), (q.apply S).2)

/-- **What an authority may read changes by what it may read alone**, and by the requests that write
there. -/
theorem Authority.unwinds (a : Authority) :
    Purge.Unwinds Request.step (SettingsMap.readBy a) a.watches := by
  constructor
  · intro q S S' hq h
    refine ⟨rfl, ?_⟩
    cases q with
    | get | search => exact h
    | write w =>
        have hw := SettingsMap.readBy_eq_iff.1 h w.key w.target hq
        change SettingsMap.readBy a (w.apply S).2 = SettingsMap.readBy a (w.apply S').2
        rw [w.apply_snd, w.apply_snd, hw, SettingsMap.readBy_eq_iff]
        intro key o ho
        exact SettingsMap.set_congr (SettingsMap.readBy_eq_iff.1 h key o ho)
  · intro q S hq
    cases q with
    | get | search => rfl
    | write w =>
        change SettingsMap.readBy a (w.apply S).2 = S.readBy a
        rw [w.apply_snd, SettingsMap.readBy_eq_iff]
        intro key o ho
        refine SettingsMap.set_eq_self_of_ne (fun hne => ?_) _
        rw [hne] at ho
        exact Bool.false_ne_true (hq.symm.trans ho)

/-! ### Requests in flight -/

/-- The map that those of the requests before the position `m` leave which write where an authority
may read, starting empty. -/
noncomputable def mapWatched (a : Authority) (rs : List Request) (m : ℕ) : SettingsMap :=
  mapAt ((rs.take m).filter a.watches) ((rs.take m).filter a.watches).length

theorem readBy_mapWatched (a : Authority) (rs : List Request) (m : ℕ) :
    (mapAt rs m).readBy a = (mapWatched a rs m).readBy a := by
  have hobs := a.unwinds.obs_after (s := fun _ _ => none) rfl (rs.take m)
  rw [mapWatched, mapAt, mapAt, List.take_length]
  exact hobs

/-- **Requests in the order `is`** are answered as if only those had written that write where their
authority may read, except that the missing may be called forbidden. -/
structure Confined (c : ServiceConfig) (is : List ℕ) : Prop where
  nodup : is.Nodup
  served : ∀ i p, c.procs[i]? = some p → (i ∈ is ↔ Served p)
  realTime : is.Pairwise fun i j => ¬ Precedes c.hist j i
  answers : ∃ rs : List Request, rs.length = is.length ∧
    ∀ (m i : ℕ), is[m]? = some i → ∃ (p : Proc Stmt Stmt.Ret Request Result) (x : Result),
      c.procs[i]? = some p ∧ rs[m]? = some p.req ∧ p.prog = .pure x ∧
      ∀ a, (p.req.apply (mapWatched p.req.authority rs m)).1 = some a →
        Answer.blur (shownOf x) = Answer.blur a

/-- **Answers are confined to what their authorities may read**, whatever requests are in flight. -/
theorem exists_order_confined {pg : Postgres} {base : Anchor} {qs : List Request}
    (hqs : ∀ q ∈ qs, q.Proper) (hlen : (qs.length : ℤ) ≤ i32Max) {c : ServiceConfig}
    (hc : Reachable pg.exec ReadsPresent (Snapshot.init Table.empty (Request.prog base) qs) c)
    (hkeeps : ∀ e ∈ c.hist, pg.Keeps e.op) : ∃ is, Confined c is := by
  obtain ⟨hnodup, hserved, hrealTime, rs, hrslen, hanswers, -⟩ :=
    asSpecified_points hqs hlen hc hkeeps
  refine ⟨_, hnodup, hserved, hrealTime, rs, hrslen, fun m i hm => ?_⟩
  obtain ⟨p, x, hp, hreq, hx, hshown⟩ := hanswers m i hm
  refine ⟨p, x, hp, hreq, hx, fun a ha => ?_⟩
  have hblur := p.req.blur_apply (readBy_mapWatched p.req.authority rs m)
  rw [ha, Option.map_some, Option.map_eq_some_iff] at hblur
  obtain ⟨a', ha', hblur⟩ := hblur
  rw [← hblur]
  refine congrArg _ (hshown a' ?_)
  rw [answerAt, hreq]
  exact ha'

open Sample in
/-- A `PUT` of Alice's and one of an admin, each between the statements of the other one, and then
what Alice reads. -/
theorem exists_order_confined_two_puts :
    let c := (Snapshot.init Table.empty (Request.prog ⟨0, 0⟩)
      [.write (.put theme dark alice none 0),
        .write (.put theme light ⟨⟨"acme"⟩, ⟨"root"⟩, .admin⟩ none 0),
        .get theme alice]).schedule (Postgres.ofJsonb id).exec [0, 1, 1, 0, 2]
    ∃ is, Confined c is := by
  refine exists_order_confined ?_ (by decide)
    ((Reachable.refl.schedule _ _).of_hist (by decide +kernel)) fun _ _ _ _ => rfl
  have halice : alice.user ≠ ⟨""⟩ := by decide
  rintro q hq
  simp only [List.mem_cons, List.not_mem_nil, or_false] at hq
  rcases hq with rfl | rfl | rfl
  · exact ⟨⟨by decide, by decide, by decide, by decide⟩, halice⟩
  · exact ⟨⟨by decide, by decide, by decide, by decide⟩, by decide⟩
  · exact ⟨⟨by decide, by decide⟩, halice⟩

end SettingsService
