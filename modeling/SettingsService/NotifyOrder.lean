import SettingsService.Notifications

/-!
# The order of notifications

A write takes effect in one step and is notified in a later one, and nothing orders the second
steps of two requests.  So the notifications of an identity can come in another order than its
changes, and the last one published can describe a row that is gone.  They come in order if a
statement changes an identity only after the requests that changed it before have notified.

Main definitions:

* `changesTo`, `notesOf` — the changes of an identity, and the notifications of the requests that
  write it;
* `AfterNotified` — the guard: the earlier changes of the identity have been notified;
* `NotifiesOwnWrites`, `NotifiedInOrder` — what is to hold of the order of notifications.

Main results:

* `exists_change_of_notify` — every notification comes after the change it is about;
* `notified_in_order` — **under the guard, the notifications of an identity come in the order of its
  changes**, and the last one describes its row;
* `not_notified_in_order` — a run in which they do not.
-/

set_option relaxedAutoImplicit false
set_option autoImplicit false

namespace SettingsService

open Interaction (Prog Proc Answered Event Snapshot Reachable Step eventOf own own_append
  own_singleton mem_own_iff)
open OptimisticLock (Change Effective Run)

/-! ### The changes and the notifications of an identity -/

/-- The identity a request writes. -/
def Request.identity? : Request → Option Identity
  | write w => some w.identity
  | _ => none

/-- The changes of an identity, in the order in which they took effect. -/
def changesTo (id : Identity) (hist : List (Event Call Call.Ret World Request)) :
    List (Change Identity SettingRecord) :=
  (hist.filterMap callEffect).filter fun d => decide (d.key = id)

/-- The notification a call published, if its request writes the identity. -/
def noteOf (id : Identity) (e : Event Call Call.Ret World Request) : Option ConfigChange :=
  if e.req.identity? = some id then Call.notify? ⟨e.op, e.reply⟩ else none

/-- The notifications of the requests that write an identity, in the order of their `notify`
calls. -/
def notesOf (id : Identity) (hist : List (Event Call Call.Ret World Request)) :
    List ConfigChange := hist.filterMap (noteOf id)

/-- If the call changes an identity, the row it writes decodes, and the requests that changed the
identity before have notified. -/
def AfterNotified (base : Anchor) (hist : List (Event Call Call.Ret World Request))
    (e : Event Call Call.Ret World Request) : Prop :=
  ∀ d ∈ callEffect e, Readable base d ∧ ∀ e' ∈ hist, ∀ d' ∈ callEffect e', d'.key = d.key →
    notifiedBy hist e'.who ≠ []

instance (base : Anchor) (d : Change Identity SettingRecord) : Decidable (Readable base d) :=
  decidable_of_iff (∀ r ∈ d.content, (r.intoDomain base).toBool = true) <|
    forall₂_congr fun r _ => by cases r.intoDomain base <;> simp [Except.toBool]

instance (hist : List (Event Call Call.Ret World Request)) (i : ℕ) :
    Decidable (notifiedBy hist i ≠ []) :=
  decidable_of_iff ((notifiedBy hist i).isEmpty = false) (by simp)

instance (base : Anchor) (hist : List (Event Call Call.Ret World Request))
    (e : Event Call Call.Ret World Request) : Decidable (AfterNotified base hist e) :=
  inferInstanceAs (Decidable (∀ d ∈ callEffect e, _ ∧ _))

/-- Every notification comes after a change its request made, and describes that change. -/
def NotifiesOwnWrites (service : String) (hist : List (Event Call Call.Ret World Request)) :
    Prop :=
  ∀ (n : ℕ) (e : Event Call Call.Ret World Request) (change : ConfigChange),
    hist[n]? = some e → Call.notify? ⟨e.op, e.reply⟩ = some change →
      ∃ (m : ℕ) (e' : Event Call Call.Ret World Request) (d : Change Identity SettingRecord),
        m < n ∧ hist[m]? = some e' ∧ e'.who = e.who ∧ callEffect e' = some d ∧
          e.req.identity? = some d.key ∧ change = describe service d

/-- The notification that describes what is under an identity: its row, or that there is none. -/
def current (service : String) (T : Table) (id : Identity) : ConfigChange :=
  match T.row? id with
  | some r => ⟨service, .upsert, id.1, id.2.2, some r.value, r.version.toNat⟩
  | none => ⟨service, .delete, id.1, id.2.2, none, 0⟩

/-- **The notifications of every identity come in the order of its changes.** -/
structure NotifiedInOrder (service : String)
    (c : Snapshot Call Call.Ret World Request Result) : Prop where
  /-- The changes of an identity have been notified in the order in which they took effect, but for
  the last one that may be about to be. -/
  order : ∀ id, ∃ done rest, changesTo id c.hist = done ++ rest ∧ rest.length ≤ 1 ∧
    notesOf id c.hist = done.map (describe service)
  /-- With no request in flight, all have been notified. -/
  all : c.Quiet → ∀ id, notesOf id c.hist = (changesTo id c.hist).map (describe service)
  /-- With no request in flight, the last notification of an identity describes its row. -/
  last : c.Quiet → ∀ id, ∀ change ∈ (notesOf id c.hist).getLast?,
    change = current service c.state.table id
  /-- With no request in flight, there is one for every row. -/
  rows : c.Quiet → ∀ r ∈ c.state.table.rows, notesOf r.identity c.hist ≠ []

variable {pg : Postgres} {service : String} {base : Anchor} {reqs : List Request}
  {G : List (Event Call Call.Ret World Request) → Event Call Call.Ret World Request → Prop}
  {c : Snapshot Call Call.Ret World Request Result} {W₀ : World}

/-! ### A notification and its change -/

/-- A request that is about to notify: the inner one has returned, and this is the notification of
its result. -/
theorem Request.follows_notify {q : Request} {tr : List (Answered Call Call.Ret)}
    {change : ConfigChange} {k : Unit → Prog Call Call.Ret Result}
    (h : (q.notifyingProg service base).Follows tr (.call (.notify change) k)) :
    ∃ res, (q.prog base).Follows (stmts tr) (.pure res) ∧ notified tr = [] ∧
      notification service q res = some change := by
  rcases follows_notifying h with ⟨o, k', k'', -, -, hp⟩ | ⟨res, hinner, ⟨hp, hn⟩ | ⟨hp, -⟩⟩
  · cases hp
  · refine ⟨res, hinner, hn, ?_⟩
    rw [after] at hp
    cases hnot : notification service q res with
    | none =>
        rw [hnot] at hp
        cases hp
    | some change' =>
        rw [hnot] at hp
        cases hp
        rfl
  · cases hp

/-- A request that is about to perform a statement has notified nothing. -/
theorem Request.notified_of_follows_stmt {q : Request} {tr : List (Answered Call Call.Ret)}
    {o : Stmt} {k : o.Ret → Prog Call Call.Ret Result}
    (h : (q.notifyingProg service base).Follows tr (.call (.stmt o) k)) : notified tr = [] := by
  rcases follows_notifying h with ⟨o', k', k'', -, hn, -⟩ | ⟨res, -, ⟨hp, hn⟩ | ⟨hp, -⟩⟩
  · exact hn
  · exact hn
  · cases hp

/-- **Every notification comes after the change it is about.** -/
theorem exists_change_of_notify (hc : Reachable (World.exec pg) G
    (Snapshot.init W₀ (Request.notifyingProg service base) reqs) c) :
    NotifiesOwnWrites service c.hist := by
  intro n e change he hchange
  obtain ⟨k, hk⟩ := (hc.next he).follows
  obtain ⟨who, req, op, reply, before, mark⟩ := e
  cases op with
  | stmt o => cases hchange
  | notify change' =>
      obtain rfl := Option.some.inj hchange
      obtain ⟨res, hinner, -, hnot⟩ := Request.follows_notify hk
      rcases Request.follows_changes service hinner (answered_stmts hc who n) with
        ⟨-, hnone⟩ | ⟨w, d, rfl, hmade, hdone⟩
      · rw [hnone res rfl] at hnot
        cases hnot
      · cases hdone
        -- the change is that of a statement among the calls so far
        have hd : d ∈ changesIn (stmts (own who (c.hist.take n))) := by
          rw [hmade.changes]
          exact List.mem_singleton_self d
        obtain ⟨x, hx, hxd⟩ := List.mem_filterMap.1 hd
        obtain ⟨y, hy, hyx⟩ := List.mem_filterMap.1 hx
        obtain ⟨m, e', hm, hwho, rfl⟩ := mem_own_iff.1 hy
        have hlt : m < n := by
          have hlen := (List.getElem?_eq_some_iff.1 hm).1
          rw [List.length_take] at hlen
          omega
        rw [List.getElem?_take_of_lt hlt] at hm
        have hdecided := hmade.decided x hx hxd
        refine ⟨m, e', d, hlt, hm, hwho, callEffect_eq_some_iff.2 ⟨x, hyx, hxd⟩, ?_, ?_⟩
        · rw [hdecided.key_eq]
          rfl
        · have heq := hdecided.notification_eq (readable_of_notification hnot) service
          rw [hnot] at heq
          exact Option.some.inj heq

/-! ### One more call -/

section Snoc

variable {id : Identity} {hist : List (Event Call Call.Ret World Request)}
  {e : Event Call Call.Ret World Request} {d : Change Identity SettingRecord}

theorem changesTo_snoc_of_ne (h : ∀ d, callEffect e = some d → d.key ≠ id) :
    changesTo id (hist ++ [e]) = changesTo id hist := by
  rw [changesTo, List.filterMap_append, List.filter_append, ← changesTo]
  cases hd : callEffect e with
  | none => simp [hd]
  | some d => simp [hd, h d hd]

theorem changesTo_snoc (hd : callEffect e = some d) (hkey : d.key = id) :
    changesTo id (hist ++ [e]) = changesTo id hist ++ [d] := by
  rw [changesTo, List.filterMap_append, List.filter_append, ← changesTo]
  simp [hd, hkey]

theorem notesOf_snoc : notesOf id (hist ++ [e]) = notesOf id hist ++ (noteOf id e).toList := by
  rw [notesOf, List.filterMap_append, ← notesOf]
  cases hn : noteOf id e with
  | none => simp [hn]
  | some change => simp [hn]

theorem notifiedBy_snoc (i : ℕ) : notifiedBy (hist ++ [e]) i = notifiedBy hist i ++
    if e.who = i then (Call.notify? ⟨e.op, e.reply⟩).toList else [] := by
  rw [notifiedBy, own_append, notified_append, ← notifiedBy, own_singleton]
  split_ifs with hi
  · cases hn : Call.notify? ⟨e.op, e.reply⟩ with
    | none => simp [notified, hn]
    | some change => simp [notified, hn]
  · rfl

/-- A statement notifies nothing. -/
theorem notifiedBy_snoc_of_none (hn : Call.notify? ⟨e.op, e.reply⟩ = none) (i : ℕ) :
    notifiedBy (hist ++ [e]) i = notifiedBy hist i := by
  rw [notifiedBy_snoc, hn]
  simp

/-- The other requests notify nothing. -/
theorem notifiedBy_snoc_of_ne {i : ℕ} (hi : e.who ≠ i) :
    notifiedBy (hist ++ [e]) i = notifiedBy hist i := by
  rw [notifiedBy_snoc, if_neg hi, List.append_nil]

end Snoc

/-! ### Changes notified in order -/

/-- **The invariant of an identity**: all its changes have been notified in order; or all but the
last one, which one request is about to notify. -/
inductive InOrder (service : String) (id : Identity)
    (hist : List (Event Call Call.Ret World Request)) : Prop
  | settled
      (hall : ∀ e ∈ hist, ∀ d, callEffect e = some d → d.key = id → notifiedBy hist e.who ≠ [])
      (hnotes : notesOf id hist = (changesTo id hist).map (describe service)) :
      InOrder service id hist
  | pending {e : Event Call Call.Ret World Request} {d : Change Identity SettingRecord}
      {done : List (Change Identity SettingRecord)} (he : e ∈ hist) (hd : callEffect e = some d)
      (hkey : d.key = id) (hnone : notifiedBy hist e.who = [])
      (honly : ∀ e' ∈ hist, ∀ d', callEffect e' = some d' → d'.key = id →
        notifiedBy hist e'.who = [] → e'.who = e.who)
      (hchanges : changesTo id hist = done ++ [d])
      (hnotes : notesOf id hist = done.map (describe service)) : InOrder service id hist

section Step

variable {id : Identity} {hist : List (Event Call Call.Ret World Request)}
  {e : Event Call Call.Ret World Request} {d : Change Identity SettingRecord}

/-- A call that neither changes the identity nor notifies a change of it. -/
theorem InOrder.frame (h : InOrder service id hist) (hne : ∀ d, callEffect e = some d → d.key ≠ id)
    (hnote : noteOf id e = none) (hsame : ∀ e' ∈ hist, ∀ d', callEffect e' = some d' →
      d'.key = id → notifiedBy (hist ++ [e]) e'.who = notifiedBy hist e'.who) :
    InOrder service id (hist ++ [e]) := by
  have hold : ∀ e' ∈ hist ++ [e], ∀ d', callEffect e' = some d' → d'.key = id → e' ∈ hist := by
    intro e' he' d' hd' hkey
    rcases List.mem_append.1 he' with he' | he'
    · exact he'
    · rw [List.mem_singleton] at he'
      subst he'
      exact absurd hkey (hne d' hd')
  have hnotes' : notesOf id (hist ++ [e]) = notesOf id hist := by
    rw [notesOf_snoc, hnote, Option.toList_none, List.append_nil]
  cases h with
  | settled hall hnotes =>
      refine .settled (fun e' he' d' hd' hkey => ?_) ?_
      · have hmem := hold e' he' d' hd' hkey
        rw [hsame e' hmem d' hd' hkey]
        exact hall e' hmem d' hd' hkey
      · rw [hnotes', changesTo_snoc_of_ne hne, hnotes]
  | @pending e₀ d₀ done he₀ hd₀ hkey₀ hnone honly hchanges hnotes =>
      refine .pending (List.mem_append_left _ he₀) hd₀ hkey₀ ?_ (fun e' he' d' hd' hkey hn => ?_)
        ?_ (hnotes'.trans hnotes)
      · rw [hsame e₀ he₀ d₀ hd₀ hkey₀, hnone]
      · have hmem := hold e' he' d' hd' hkey
        rw [hsame e' hmem d' hd' hkey] at hn
        exact honly e' hmem d' hd' hkey hn
      · rw [changesTo_snoc_of_ne hne, hchanges]

/-- A statement that changes the identity once the earlier changes have been notified. -/
theorem InOrder.change (h : InOrder service id hist) (hG : AfterNotified base hist e)
    (hd : callEffect e = some d) (hkey : d.key = id) (hnone : notifiedBy hist e.who = []) :
    InOrder service id (hist ++ [e]) := by
  have hstmt : Call.notify? ⟨e.op, e.reply⟩ = none := by
    obtain ⟨x, hx, -⟩ := callEffect_eq_some_iff.1 hd
    obtain ⟨who, req, op, reply, before, mark⟩ := e
    cases op with
    | stmt s => rfl
    | notify change => cases hx
  have hbefore : ∀ e' ∈ hist, ∀ d', callEffect e' = some d' → d'.key = id →
      notifiedBy hist e'.who ≠ [] := by
    intro e' he' d' hd' hkey'
    exact (hG d hd).2 e' he' d' hd' (hkey'.trans hkey.symm)
  have hnote : noteOf id e = none := by
    rw [noteOf, hstmt]
    exact ite_self _
  have hnotes' : notesOf id (hist ++ [e]) = notesOf id hist := by
    rw [notesOf_snoc, hnote, Option.toList_none, List.append_nil]
  cases h with
  | settled hall hnotes =>
      refine .pending (List.mem_append_right _ (List.mem_singleton_self e)) hd hkey ?_
        (fun e' he' d' hd' hkey' hn => ?_) (changesTo_snoc hd hkey) (hnotes'.trans hnotes)
      · rw [notifiedBy_snoc_of_none hstmt, hnone]
      · rcases List.mem_append.1 he' with he' | he'
        · rw [notifiedBy_snoc_of_none hstmt] at hn
          exact absurd hn (hbefore e' he' d' hd' hkey')
        · rw [List.mem_singleton.1 he']
  | @pending e₀ d₀ done he₀ hd₀ hkey₀ hnone₀ honly hchanges hnotes =>
      exact absurd hnone₀ (hbefore e₀ he₀ d₀ hd₀ hkey₀)

/-- A statement, whether it changes the identity or not. -/
theorem InOrder.stmt (h : InOrder service id hist) (hG : AfterNotified base hist e)
    (hstmt : Call.notify? ⟨e.op, e.reply⟩ = none) (hnone : notifiedBy hist e.who = []) :
    InOrder service id (hist ++ [e]) := by
  by_cases hchanges : ∃ d, callEffect e = some d ∧ d.key = id
  · obtain ⟨d, hd, hkey⟩ := hchanges
    exact h.change hG hd hkey hnone
  · refine h.frame (fun d hd hkey => hchanges ⟨d, hd, hkey⟩) ?_
      fun e' _ _ _ _ => notifiedBy_snoc_of_none hstmt _
    rw [noteOf, hstmt]
    exact ite_self _

/-- The notification of the change that is pending. -/
theorem InOrder.notify (h : InOrder service id hist) {e' : Event Call Call.Ret World Request}
    (he' : e' ∈ hist) (hwho : e'.who = e.who) (hd' : callEffect e' = some d) (hkey : d.key = id)
    (hnone : notifiedBy hist e.who = []) (hnoeffect : callEffect e = none)
    {change : ConfigChange} (hnote : noteOf id e = some change)
    (hchange : Call.notify? ⟨e.op, e.reply⟩ = some change)
    (hdescribe : ∀ e₀ ∈ hist, e₀.who = e.who → ∀ d₀, callEffect e₀ = some d₀ →
      change = describe service d₀) : InOrder service id (hist ++ [e]) := by
  cases h with
  | settled hall hnotes =>
      rw [← hwho] at hnone
      exact absurd hnone (hall e' he' d hd' hkey)
  | @pending e₀ d₀ done he₀ hd₀ hkey₀ hnone₀ honly hchanges hnotes =>
      have hwho₀ : e₀.who = e.who := by
        rw [← honly e' he' d hd' hkey (hwho ▸ hnone), hwho]
      have hne : ∀ d, callEffect e = some d → d.key ≠ id := by
        intro d hd
        rw [hnoeffect] at hd
        cases hd
      refine .settled (fun e₁ he₁ d₁ hd₁ hkey₁ => ?_) ?_
      · rw [notifiedBy_snoc, hchange]
        rcases List.mem_append.1 he₁ with he₁ | he₁
        · by_cases hwho₁ : e.who = e₁.who
          · rw [if_pos hwho₁]
            simp
          · intro hn
            rw [if_neg hwho₁, List.append_nil] at hn
            exact hwho₁ ((honly e₁ he₁ d₁ hd₁ hkey₁ hn).trans hwho₀).symm
        · rw [List.mem_singleton.1 he₁, hnoeffect] at hd₁
          cases hd₁
      · rw [notesOf_snoc, hnote, hnotes, changesTo_snoc_of_ne hne, hchanges, List.map_append,
          hdescribe e₀ he₀ hwho₀ d₀ hd₀]
        rfl

end Step

/-! ### Every run under the guard -/

/-- A request writes the identity of the change it made. -/
theorem identity?_of_callEffect (hc : Reachable (World.exec pg) G
    (Snapshot.init W₀ (Request.notifyingProg service base) reqs) c)
    {e : Event Call Call.Ret World Request} (he : e ∈ c.hist)
    {p : Proc Call Call.Ret Request Result} (hp : c.procs[e.who]? = some p)
    {d : Change Identity SettingRecord} (hd : callEffect e = some d) :
    p.req.identity? = some d.key := by
  obtain ⟨w, o, hw, hdecided, -, -⟩ := exists_write_of_callEffect hc he hp hd
  rw [hw, hdecided.key_eq]
  rfl

/-- A request about to notify describes the change it made. -/
theorem eq_describe_of_callEffect (hc : Reachable (World.exec pg) G
    (Snapshot.init W₀ (Request.notifyingProg service base) reqs) c)
    {e : Event Call Call.Ret World Request} (he : e ∈ c.hist)
    {p : Proc Call Call.Ret Request Result} (hp : c.procs[e.who]? = some p)
    {change : ConfigChange} {k : Unit → Prog Call Call.Ret Result}
    (hk : p.prog = .call (.notify change) k) {d : Change Identity SettingRecord}
    (hd : callEffect e = some d) : change = describe service d := by
  obtain ⟨w, o, -, hdecided, -, ⟨hafter, -⟩ | ⟨hpure, -⟩⟩ := exists_write_of_callEffect hc he hp hd
  · rw [hk, after] at hafter
    cases hn : notification service (.write w) (resultOf base d) with
    | none =>
        rw [hn] at hafter
        cases hafter
    | some change' =>
        rw [hn] at hafter
        cases hafter
        rw [hdecided.notification_eq (readable_of_notification hn) service] at hn
        exact (Option.some.inj hn).symm
  · rw [hk] at hpure
    cases hpure

/-- **Under the guard the invariant holds of every identity**, whatever call comes next. -/
theorem inOrder_of_afterNotified (hc : Reachable (World.exec pg) (AfterNotified base)
    (Snapshot.init W₀ (Request.notifyingProg service base) reqs) c) (id : Identity) :
    InOrder service id c.hist := by
  induction hc with
  | refl =>
      refine .settled (fun e he => ?_) rfl
      simp [Snapshot.init] at he
  | step hc hs ih =>
      have hown := exists_change_of_notify (hc.step hs)
      cases hs with
      | @call W procs hist i p o k hp hk hG =>
          have hfollows := hc.follows hp
          rw [hk] at hfollows
          cases o with
          | stmt s =>
              have hnone : notifiedBy hist i = [] := Request.notified_of_follows_stmt hfollows
              exact ih.stmt hG rfl hnone
          | notify change =>
              have hnew : (hist ++ [eventOf (World.exec pg) W i p (.notify change)])[hist.length]? =
                  some (eventOf (World.exec pg) W i p (.notify change)) := by simp
              have hnoeffect : callEffect (eventOf (World.exec pg) W i p (.notify change)) = none :=
                rfl
              obtain ⟨m, e', d, hm, he', hwho, hd, hid, hdesc⟩ := hown _ _ change hnew rfl
              rw [List.getElem?_append_left hm] at he'
              have hmem : e' ∈ hist := List.mem_of_getElem? he'
              have hwho' : e'.who = i := hwho
              have hid' : p.req.identity? = some d.key := hid
              obtain ⟨-, -, hnone, -⟩ := Request.follows_notify hfollows
              by_cases hkey : d.key = id
              · refine ih.notify hmem hwho hd hkey hnone hnoeffect ?_ rfl
                  fun e₀ he₀ hwho₀ d₀ hd₀ => ?_
                · rw [noteOf]
                  exact if_pos (hid'.trans (congrArg some hkey))
                · have hp₀ : procs[e₀.who]? = some p := by
                    rw [hwho₀]
                    exact hp
                  exact eq_describe_of_callEffect hc he₀ hp₀ hk hd₀
              · refine ih.frame (fun d' hd' => ?_) ?_ fun e₀ he₀ d₀ hd₀ hkey₀ => ?_
                · rw [hnoeffect] at hd'
                  cases hd'
                · rw [noteOf]
                  refine if_neg fun h => hkey ?_
                  exact Option.some.inj (hid'.symm.trans h)
                · -- a request that changed this identity is not the one that notifies
                  refine notifiedBy_snoc_of_ne fun hwho₀ => hkey ?_
                  have hp₀ : procs[e₀.who]? = some p := by
                    rw [← hwho₀]
                    exact hp
                  have hid₀ := identity?_of_callEffect hc he₀ hp₀ hd₀
                  rw [hid'] at hid₀
                  exact (Option.some.inj hid₀).trans hkey₀

/-- Under the guard every row that is written decodes. -/
theorem readable_of_afterNotified (hc : Reachable (World.exec pg) (AfterNotified base)
    (Snapshot.init W₀ (Request.notifyingProg service base) reqs) c) :
    ∀ e ∈ c.hist, ∀ d, callEffect e = some d → Readable base d := by
  refine (Reachable.invariant
    (I := fun _ hist => ∀ e ∈ hist, ∀ d, callEffect e = some d → Readable base d)
    (P := fun _ _ _ _ => True) (by simp) (fun _ _ _ => trivial) ?_ hc).1
  intro W hist i p o k hI _ _ hG
  refine ⟨fun e he d hd => ?_, trivial, fun _ _ _ _ => trivial⟩
  rcases List.mem_append.1 he with he | he
  · exact hI e he d hd
  · rw [List.mem_singleton] at he
    subst he
    exact (hG d hd).1

/-- The last element of a list that satisfies a condition, and what comes after it. -/
theorem exists_of_filter_eq_concat {α : Type} {p : α → Bool} {xs ys : List α} {x : α}
    (h : xs.filter p = ys ++ [x]) :
    ∃ pre post, xs = pre ++ x :: post ∧ ∀ y ∈ post, p y = false := by
  obtain ⟨l₁, l₂, rfl, -, h₂⟩ := List.filter_eq_append_iff.1 h
  obtain ⟨l₃, l₄, rfl, -, -, h₄⟩ := List.filter_eq_cons_iff.1 h₂
  refine ⟨l₁ ++ l₃, l₄, by simp, fun y hy => ?_⟩
  exact Bool.eq_false_iff.2 (List.filter_eq_nil_iff.1 h₄ y hy)

/-- **The last change of an identity describes what is under it.** -/
theorem describe_of_last (hc : Reachable (World.exec pg) G
    (Snapshot.init W₀ (Request.notifyingProg service base) reqs) c) {id : Identity}
    {cs : List (Change Identity SettingRecord)} {d : Change Identity SettingRecord}
    (hlast : changesTo id c.hist = cs ++ [d]) :
    describe service d = current service c.state.table id := by
  have hin : d ∈ changesTo id c.hist := by
    rw [hlast]
    exact List.mem_append_right _ (List.mem_singleton_self d)
  obtain ⟨hmem, hkey⟩ := List.mem_filter.1 hin
  rw [decide_eq_true_eq] at hkey
  obtain ⟨e, he, hd⟩ := List.mem_filterMap.1 hmem
  obtain ⟨p, hp, -⟩ := exists_proc_of_event hc he
  obtain ⟨w, o, -, hdecided, -, -⟩ := exists_write_of_callEffect hc he hp hd
  obtain ⟨T, hchange⟩ := hdecided.exists_change
  obtain ⟨pre, post, hsplit, hpost⟩ := exists_of_filter_eq_concat hlast
  have hrun := run_callEffects hc
  rw [hsplit] at hrun
  have hview := hrun.content_of_last fun d' hd' => by
    have h := hpost d' hd'
    rw [decide_eq_false_iff_not] at h
    exact fun heq => h (heq.trans hkey)
  rw [hkey, Table.view, Option.map_map] at hview
  rw [current]
  cases hrow : c.state.table.row? id with
  | some r =>
      rw [hrow, Option.map_some] at hview
      rw [(content_of_change hchange hview.symm).2.2, hkey]
      rfl
  | none =>
      rw [hrow, Option.map_none] at hview
      cases d with
      | create id' r' => cases hview
      | replace id' n r' => cases hview
      | remove id' n =>
          obtain rfl : id' = id := hkey
          rfl

/-- **Every notification comes after the change it is about; and if requests that change the same
identity do not overlap from their write to their notification, the notifications of an identity
come in the order of its changes**, so that the last one describes its row. -/
theorem notified_in_order (pg : Postgres) (service : String) (base : Anchor)
    {reqs : List Request} {c : Snapshot Call Call.Ret World Request Result}
    (hc : Reachable (World.exec pg) (fun _ _ => True)
      (Snapshot.init World.empty (Request.notifyingProg service base) reqs) c) :
    NotifiesOwnWrites service c.hist ∧
      ((∀ (n : ℕ) (hn : n < c.hist.length), AfterNotified base (c.hist.take n) c.hist[n]) →
        NotifiedInOrder service c) := by
  refine ⟨exists_change_of_notify hc, fun hguard => ?_⟩
  have hG := hc.of_hist hguard
  have hinv := inOrder_of_afterNotified hG
  have hall : c.Quiet → ∀ id, notesOf id c.hist = (changesTo id c.hist).map (describe service) := by
    intro hquiet id
    cases hinv id with
    | settled _ hnotes => exact hnotes
    | @pending e d done he hd hkey hnone honly hchanges hnotes =>
        -- a request that has returned has notified its change
        obtain ⟨p, hp, -⟩ := exists_proc_of_event hc he
        obtain ⟨res, hres⟩ := hquiet p (List.mem_of_getElem? hp)
        obtain ⟨w, o, -, hdecided, -, hone⟩ := notifiedBy_of_returned hc he hp hres hd
        rw [hnone, hdecided.notification_eq (readable_of_afterNotified hG e he d hd)] at hone
        cases hone
  refine ⟨fun id => ?_, hall, fun hquiet id change hchange => ?_, fun hquiet r hr hnil => ?_⟩
  · cases hinv id with
    | settled _ hnotes => exact ⟨_, [], (List.append_nil _).symm, Nat.zero_le 1, hnotes⟩
    | @pending e d done he hd hkey hnone honly hchanges hnotes =>
        exact ⟨done, [d], hchanges, le_rfl, hnotes⟩
  · rw [hall hquiet id] at hchange
    rcases List.eq_nil_or_concat (changesTo id c.hist) with hnil | ⟨cs, d, hlast⟩
    · rw [hnil] at hchange
      cases hchange
    · rw [List.concat_eq_append] at hlast
      rw [hlast, List.map_append, List.map_singleton, List.getLast?_concat] at hchange
      rw [← Option.some.inj hchange]
      exact describe_of_last hc hlast
  · rw [hall hquiet, List.map_eq_nil_iff] at hnil
    have hview : c.state.table.view r.identity = some (r.version, r) :=
      Table.view_eq_some_iff.2 ⟨Table.row?_eq_some_iff.2 ⟨hr, rfl⟩, rfl⟩
    have hempty := (run_callEffects hc).of_ne fun d hd => by
      have h := List.filter_eq_nil_iff.1 hnil d hd
      simpa using h
    rw [hempty] at hview
    cases hview

open Sample in
/-- A put, a second one that reads before the first one notifies and writes after it, and a
delete. -/
theorem notified_in_order_two_puts :
    let c := (Snapshot.init World.empty (Request.notifyingProg "settings" ⟨0, 0⟩)
      [.write (.put theme dark alice none 0), .write (.put theme light alice (some 1) 0),
        .write (.delete theme alice 2)]).schedule (World.exec (Postgres.ofJsonb id))
          [0, 0, 1, 0, 1, 1, 2, 2, 2]
    c.Quiet ∧ NotifiedInOrder "settings" c :=
  ⟨by decide +kernel,
    (notified_in_order _ _ ⟨0, 0⟩ (Reachable.refl.schedule _ _)).2 (by decide +kernel)⟩

open Sample in
/-- **Notifications can overtake each other**: a second put finds the row of the first one before
the first one has notified, and notifies it first; the last notification describes a version that
is gone. -/
theorem not_notified_in_order :
    ¬ ∀ (pg : Postgres) (base : Anchor), (∀ v, pg.jsonb v = v) → ∀ (reqs : List Request)
      (c : Snapshot Call Call.Ret World Request Result),
      Reachable (World.exec pg) (fun _ _ => True)
        (Snapshot.init World.empty (Request.notifyingProg "settings" base) reqs) c →
      NotifiedInOrder "settings" c := by
  intro h
  let reqs : List Request :=
    [.write (.put theme dark alice none 0), .write (.put theme light alice (some 1) 0)]
  let c := (Snapshot.init World.empty (Request.notifyingProg "settings" ⟨0, 0⟩) reqs).schedule
    (World.exec (Postgres.ofJsonb id)) [0, 0, 1, 1, 1, 0]
  have hnotified := h (Postgres.ofJsonb id) ⟨0, 0⟩ (fun _ => rfl) reqs c
    (Reachable.refl.schedule _ _)
  -- the last notification is that of the first put, and the row is at the version of the second
  have hnoted : (notesOf ("acme", "alice", "theme") c.hist).getLast?.map ConfigChange.version =
      some 1 := by decide +kernel
  have hcurrent : (current "settings" c.state.table ("acme", "alice", "theme")).version = 2 := by
    decide +kernel
  obtain ⟨change, hmem, hversion⟩ := Option.map_eq_some_iff.1 hnoted
  rw [hnotified.last (by decide +kernel) _ change hmem, hcurrent] at hversion
  exact absurd hversion (by decide)

end SettingsService
