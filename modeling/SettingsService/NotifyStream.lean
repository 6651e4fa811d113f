import SettingsService.Notifications

/-!
# What the notifications tell

A subscriber sees the messages of the decorated service and nothing else.  Two runs of writes, one
at a time, that publish the same messages end with the same settings, unless at some moment the same
message came from writes of two different owners: a message names the tenant and the key of a
change but not its owner.

Main definitions:

* `worldAt`, `nextChange` — the world after some writes of a run, and the change the next one makes;
* `Table.valueAt` — the value and the version under an identity;
* `Alike` — two changes that differ at most in the owner and the time;
* `StreamDetermines` — equal messages mean equal settings;
* `Attributable` — what is published can be told apart by owner.

Main results:

* `worldAt_succ` — one more write;
* `message_eq_iff` — **messages tell changes apart up to their owner**;
* `streamDetermines_iff` — **the messages determine the settings exactly when they can be told apart
  by owner**;
* `streamDetermines_of_single_owner` — they do when every key of a tenant has one owner;
* `not_streamDetermines` — two runs with the same messages and different settings.
-/

set_option relaxedAutoImplicit false
set_option autoImplicit false

namespace SettingsService

open Interaction (Prog)
open OptimisticLock (Change Effective)

/-! ### Writes one at a time -/

/-- A write running alone through the decorated service. -/
def Write.notifying (pg : Postgres) (service : String) (base : Anchor) (w : Write) (W : World) :
    Result × World :=
  Prog.run (World.exec pg) ((Request.write w).notifyingProg service base) W

section Runs

variable (pg : Postgres) (service : String) (base : Anchor) (ws : List Write)

/-- The world after the first `m` writes of a run that starts with nothing. -/
def worldAt (m : ℕ) : World :=
  (ws.take m).foldl (fun W w => (w.notifying pg service base W).2) World.empty

/-- The messages of the first `m` writes. -/
def publishedAt (m : ℕ) : List Publish := (worldAt pg service base ws m).published

/-- The table after the first `m` writes. -/
def tableAfter (m : ℕ) : Table := (worldAt pg service base ws m).table

/-- The change the write at position `m` makes. -/
def nextChange (m : ℕ) : Option (Change Identity SettingRecord) :=
  ws[m]?.bind fun w => (changesOf pg (w.prog base) (tableAfter pg service base ws m)).head?

end Runs

theorem worldAt_zero (pg : Postgres) (service : String) (base : Anchor) (ws : List Write) :
    worldAt pg service base ws 0 = World.empty := by
  rw [worldAt, List.take_zero, List.foldl_nil]

/-- The value and the version under an identity. -/
def Table.valueAt (T : Table) (id : Identity) : Option (Value × ℤ) :=
  (T.view id).map fun x => (x.2.value, x.1)

variable {pg : Postgres} {service : String} {base base' : Anchor} {ws ws' : List Write}

/-- The message of a change. -/
def message (service : String) (c : Change Identity SettingRecord) : Publish :=
  ⟨(describe service c).topic, describe service c⟩

/-- **A decorated write alone** is the write alone, and the message of its result. -/
theorem Write.notifying_eq (w : Write) (W : World) : w.notifying pg service base W =
    ((w.alone pg base W.table).1, ⟨(w.alone pg base W.table).2, W.published ++
      ((notification service (.write w) (w.alone pg base W.table).1).map fun change =>
        ⟨change.topic, change⟩).toList⟩) := by
  have hinner : Prog.run (World.exec pg)
      (NotifyingService.inner ((Request.write w).prog base)) W =
        ((w.alone pg base W.table).1, ⟨(w.alone pg base W.table).2, W.published⟩) :=
    Prog.run_translate World.table (fun T W => ⟨T, W.published⟩) (fun _ _ => rfl) (fun _ _ => rfl)
      (fun _ _ => rfl) (fun _ => rfl) (fun _ _ _ => rfl) _ W
  rw [notifying, Request.notifyingProg_eq, Prog.run_bind, hinner]
  dsimp only
  rw [after]
  cases notification service (.write w) (w.alone pg base W.table).1 with
  | none => simp
  | some change => rfl

/-- What the change of a write is like: its row has the version it gives, and that is at least
one. -/
def Versioned (c : Change Identity SettingRecord) : Prop :=
  ∀ r, c.content = some r → c.gives = some r.version ∧ 1 ≤ r.version

/-- The change of a decided write is versioned. -/
theorem Write.Decides.versioned {w : Write} {T₁ T : Table} {settings : List Setting} {plan : Plan}
    (hfound : Repo.found base pg T₁ w.key w.authority.tenant = .ok settings)
    (hplan : w.Decides settings plan) {c : Change Identity SettingRecord}
    (hc : (plan.stmt base).change (pg.exec (plan.stmt base) T).1 = some c) : Versioned c := by
  intro r hr
  have hgives : c.gives = some r.version := (@content_of_change pg "" _ _ _ hc _ hr).2.1
  refine ⟨hgives, ?_⟩
  have hmakes := hplan.makes hfound hc
  cases c with
  | create id r' =>
      have hone : 1 = r.version := Option.some.inj hgives
      omega
  | replace id n r' =>
      obtain ⟨v, -, -, hn, hv, -⟩ := hmakes.found n rfl
      have hnext : n + 1 = r.version := Option.some.inj hgives
      omega
  | remove id n => cases hr

theorem worldAt_of_getElem? {m : ℕ} {w : Write} (hw : ws[m]? = some w) :
    worldAt pg service base ws (m + 1) =
      (w.notifying pg service base (worldAt pg service base ws m)).2 := by
  rw [worldAt, List.take_add_one, hw, List.foldl_append]
  rfl

/-- **One more write**: it changes nothing and publishes nothing, or it makes a change and publishes
its message, if the row it wrote decodes. -/
theorem worldAt_succ (pg : Postgres) (service : String) (base : Anchor) (ws : List Write) (m : ℕ) :
    (nextChange pg service base ws m = none ∧
      worldAt pg service base ws (m + 1) = worldAt pg service base ws m) ∨
    ∃ c, nextChange pg service base ws m = some c ∧ Versioned c ∧
      Effective (tableAfter pg service base ws m).view c
        (tableAfter pg service base ws (m + 1)).view ∧
      (Readable base c ∧ publishedAt pg service base ws (m + 1) =
          publishedAt pg service base ws m ++ [message service c] ∨
        ¬ Readable base c ∧
          publishedAt pg service base ws (m + 1) = publishedAt pg service base ws m) := by
  cases hw : ws[m]? with
  | none =>
      refine .inl ⟨by rw [nextChange, hw, Option.bind_none], ?_⟩
      rw [worldAt, worldAt, List.take_add_one, hw, Option.toList_none, List.append_nil]
  | some w =>
      rw [tableAfter, tableAfter, publishedAt, publishedAt, worldAt_of_getElem? hw,
        w.notifying_eq, nextChange, hw, Option.bind_some, tableAfter]
      obtain ⟨settings, plan, c, hfound, hplan, hc, hchanges, halone⟩ | ⟨hnil, e, halone⟩ :=
        w.alone_cases pg base (worldAt pg service base ws m).table
      · rw [hchanges, halone]
        dsimp only
        refine .inr ⟨c, rfl, hplan.versioned hfound hc,
          Postgres.effective_of_change hc, ?_⟩
        by_cases hread : Readable base c
        · refine .inl ⟨hread, ?_⟩
          have hdecided : w.Decided pg base (plan.stmt base) c :=
            ⟨_, settings, plan, _, hfound, hplan, rfl, hc⟩
          rw [hdecided.notification_eq hread]
          rfl
        · refine .inr ⟨hread, ?_⟩
          cases hn : notification service (.write w) (resultOf base c) with
          | none => simp
          | some change => exact absurd (readable_of_notification hn) hread
      · rw [hnil, halone]
        refine .inl ⟨rfl, ?_⟩
        have hnone : notification service (.write w) (.error e) = none := rfl
        simp [hnone]

/-! ### What a message tells -/

/-- Two changes that differ at most in the owner and the time: a message says the rest. -/
structure Alike (c c' : Change Identity SettingRecord) : Prop where
  tenant : c.key.1 = c'.key.1
  key : c.key.2.2 = c'.key.2.2
  version : c.gives = c'.gives
  value : c.content.map SettingRecord.value = c'.content.map SettingRecord.value

/-- **Messages tell changes apart up to their owner.** -/
theorem message_eq_iff {c c' : Change Identity SettingRecord} (hc : Versioned c)
    (hc' : Versioned c') : message service c = message service c' ↔ Alike c c' := by
  constructor
  · intro h
    have hdesc : describe service c = describe service c' := congrArg Publish.payload h
    cases hr : c.content with
    | none =>
        obtain ⟨hgives, hdelete⟩ := @describe_of_content_eq_none service c hr
        cases hr' : c'.content with
        | none =>
            obtain ⟨hgives', hdelete'⟩ := @describe_of_content_eq_none service c' hr'
            rw [hdelete, hdelete', ConfigChange.mk.injEq] at hdesc
            obtain ⟨-, -, htenant, hkey, -⟩ := hdesc
            exact ⟨htenant, hkey, hgives.trans hgives'.symm, by rw [hr, hr']⟩
        | some r' =>
            rw [hdelete, describe_of_content hr', ConfigChange.mk.injEq] at hdesc
            exact absurd hdesc.2.1 (by decide)
    | some r =>
        cases hr' : c'.content with
        | none =>
            rw [(@describe_of_content_eq_none service c' hr').2, describe_of_content hr,
              ConfigChange.mk.injEq] at hdesc
            exact absurd hdesc.2.1 (by decide)
        | some r' =>
            rw [describe_of_content hr, describe_of_content hr', ConfigChange.mk.injEq] at hdesc
            obtain ⟨-, -, htenant, hkey, hvalue, hversion⟩ := hdesc
            obtain ⟨hgives, hpos⟩ := hc r hr
            obtain ⟨hgives', hpos'⟩ := hc' r' hr'
            have heq : r.version = r'.version := by omega
            exact ⟨htenant, hkey, by rw [hgives, hgives', heq],
              by rw [hr, hr', Option.map_some, Option.map_some, hvalue]⟩
  · rintro ⟨htenant, hkey, hversion, hvalue⟩
    have hdesc : describe service c = describe service c' := by
      cases hr : c.content with
      | none =>
          rw [hr, Option.map_none, eq_comm, Option.map_eq_none_iff] at hvalue
          rw [(describe_of_content_eq_none hr).2, (describe_of_content_eq_none hvalue).2, htenant,
            hkey]
      | some r =>
          rw [hr, Option.map_some, eq_comm, Option.map_eq_some_iff] at hvalue
          obtain ⟨r', hr', hval⟩ := hvalue
          rw [(hc r hr).1, (hc' r' hr').1, Option.some.injEq] at hversion
          rw [describe_of_content hr, describe_of_content hr', htenant, hkey, hval, hversion]
    rw [message, message, hdesc]

/-! ### What a change makes of a value -/

section Effective

variable {T T' : Table} {c : Change Identity SettingRecord}

/-- The value and the version after a change. -/
theorem valueAt_of_effective (h : Effective T.view c T'.view) (id : Identity) :
    T'.valueAt id = if c.key = id then
      c.gives.bind fun n => (c.content.map SettingRecord.value).map fun v => (v, n)
    else T.valueAt id := by
  split_ifs with hkey
  · subst hkey
    rw [Table.valueAt]
    generalize hV : T'.view = V at h
    cases h with
    | create hnone => simp [Change.key, Change.gives, Change.content]
    | replace hsome => simp [Change.key, Change.gives, Change.content]
    | remove hsome => simp [Change.key, Change.gives]
  · rw [Table.valueAt, Table.valueAt, h.of_ne hkey]

/-- A change changes the version. -/
theorem valueAt_ne_of_effective (h : Effective T.view c T'.view) :
    T'.valueAt c.key ≠ T.valueAt c.key := by
  intro heq
  rw [valueAt_of_effective h, if_pos rfl, Table.valueAt] at heq
  generalize T'.view = V at h
  cases h with
  | create hnone =>
      rw [Change.key, hnone] at heq
      simp [Change.gives, Change.content] at heq
  | @replace id n v v' hsome =>
      rw [Change.key, hsome] at heq
      have hversion : n + 1 = n := congrArg Prod.snd (Option.some.inj heq)
      omega
  | @remove id n v hsome =>
      rw [Change.key, hsome] at heq
      simp [Change.gives] at heq

end Effective

/-! ### Messages and settings -/

/-- **The messages determine the settings**: wherever two runs have published the same messages they
have the same value and version under every identity. -/
def StreamDetermines (pg : Postgres) (service : String) (base base' : Anchor)
    (ws ws' : List Write) : Prop :=
  ∀ m n, publishedAt pg service base ws m = publishedAt pg service base' ws' n →
    ∀ id, (tableAfter pg service base ws m).valueAt id =
      (tableAfter pg service base' ws' n).valueAt id

/-- **The messages can be told apart by owner**: wherever two runs have published the same messages,
the rows that the next writes leave decode, and where these two differ at most in the owner they are
of the same owner. -/
def Attributable (pg : Postgres) (service : String) (base base' : Anchor) (ws ws' : List Write) :
    Prop :=
  ∀ m n, publishedAt pg service base ws m = publishedAt pg service base' ws' n →
    (∀ c ∈ nextChange pg service base ws m, Readable base c) ∧
    (∀ c' ∈ nextChange pg service base' ws' n, Readable base' c') ∧
    ∀ c ∈ nextChange pg service base ws m, ∀ c' ∈ nextChange pg service base' ws' n,
      Alike c c' → c.key.2.1 = c'.key.2.1

/-- Where two runs have the same settings and their next changes are alike and of the same owner,
they have the same settings again. -/
theorem valueAt_eq_of_alike {T₁ T₁' T₂ T₂' : Table} {c c' : Change Identity SettingRecord}
    (h₁ : Effective T₁.view c T₁'.view) (h₂ : Effective T₂.view c' T₂'.view)
    (hT : ∀ id, T₁.valueAt id = T₂.valueAt id) (hc : Alike c c') (howner : c.key.2.1 = c'.key.2.1)
    (id : Identity) : T₁'.valueAt id = T₂'.valueAt id := by
  have hkey : c.key = c'.key := Prod.ext hc.tenant (Prod.ext howner hc.key)
  rw [valueAt_of_effective h₁, valueAt_of_effective h₂, hkey, hc.version, hc.value, hT]

/-- **If the messages can be told apart by owner, they determine the settings.** -/
theorem streamDetermines_of_attributable (h : Attributable pg service base base' ws ws') :
    StreamDetermines pg service base base' ws ws' := by
  intro m
  induction m with
  | zero =>
      intro n
      induction n with
      | zero =>
          intro _ id
          rw [tableAfter, tableAfter, worldAt_zero, worldAt_zero]
      | succ n ihn =>
          intro hpub id
          obtain ⟨-, hsame⟩ | ⟨c', hc', -, -, ⟨-, hlog⟩ | ⟨hunread, hlog⟩⟩ :=
            worldAt_succ pg service base' ws' n
          · rw [publishedAt, publishedAt, hsame] at hpub
            rw [ihn hpub id, tableAfter, tableAfter, hsame]
          · -- a message was published, but the other run has published none
            rw [hlog] at hpub
            rw [publishedAt, worldAt_zero] at hpub
            exact absurd hpub.symm (by simp [World.empty])
          · rw [hlog] at hpub
            exact absurd ((h 0 n hpub).2.1 c' hc') hunread
  | succ m ihm =>
      intro n
      obtain ⟨-, hsame⟩ | ⟨c, hc, hver, heff, ⟨hread, hlog⟩ | ⟨hunread, hlog⟩⟩ :=
        worldAt_succ pg service base ws m
      · intro hpub id
        rw [publishedAt, hsame] at hpub
        rw [← ihm n hpub id, tableAfter, tableAfter, hsame]
      · -- the last message of the one run is the last message of the other
        induction n with
        | zero =>
            intro hpub
            rw [hlog, publishedAt, publishedAt, worldAt_zero] at hpub
            exact absurd hpub (by simp [World.empty])
        | succ n ihn =>
            intro hpub id
            obtain ⟨-, hsame⟩ | ⟨c', hc', hver', heff', ⟨hread', hlog'⟩ | ⟨hunread', hlog'⟩⟩ :=
              worldAt_succ pg service base' ws' n
            · rw [publishedAt, publishedAt, hsame] at hpub
              rw [ihn hpub id, tableAfter, tableAfter, hsame]
            · rw [hlog, hlog'] at hpub
              obtain ⟨hbefore, hlast⟩ := List.append_inj' hpub rfl
              have halike : Alike c c' := (message_eq_iff hver hver').1 (List.singleton_inj.1 hlast)
              have howner := (h m n hbefore).2.2 c hc c' hc' halike
              exact valueAt_eq_of_alike heff heff' (ihm n hbefore) halike howner id
            · rw [hlog'] at hpub
              exact absurd ((h (m + 1) n hpub).2.1 c' hc') hunread'
      · intro hpub
        rw [hlog] at hpub
        exact absurd ((h m n hpub).1 c hc) hunread

theorem StreamDetermines.symm (h : StreamDetermines pg service base base' ws ws') :
    StreamDetermines pg service base' base ws' ws :=
  fun m n hpub id => (h n m hpub.symm id).symm

/-- Where the messages determine the settings, no change goes without a message. -/
theorem StreamDetermines.readable (h : StreamDetermines pg service base base' ws ws') {m n : ℕ}
    (hpub : publishedAt pg service base ws m = publishedAt pg service base' ws' n) :
    ∀ c ∈ nextChange pg service base ws m, Readable base c := by
  intro c hc
  obtain ⟨hnone, -⟩ | ⟨c₀, hc₀, -, heff, ⟨hread, -⟩ | ⟨-, hlog⟩⟩ :=
    worldAt_succ pg service base ws m
  · rw [hnone] at hc
    cases hc
  · rw [hc₀] at hc
    cases hc
    exact hread
  · -- the change is not seen in the messages, and yet the version is another
    have hafter := h (m + 1) n (hlog.trans hpub) c₀.key
    rw [← h m n hpub c₀.key] at hafter
    exact absurd hafter (valueAt_ne_of_effective heff)

/-- **The messages determine the settings exactly when they can be told apart by owner.** -/
theorem streamDetermines_iff (pg : Postgres) (service : String) (base base' : Anchor)
    (ws ws' : List Write) : StreamDetermines pg service base base' ws ws' ↔
      Attributable pg service base base' ws ws' := by
  refine ⟨fun h m n hpub => ⟨h.readable hpub, h.symm.readable hpub.symm, ?_⟩,
    streamDetermines_of_attributable⟩
  intro c hc c' hc' halike
  by_contra howner
  have hread := h.readable hpub c hc
  have hread' := h.symm.readable hpub.symm c' hc'
  obtain ⟨hnone, -⟩ | ⟨c₀, hc₀, hver, heff, hlog⟩ := worldAt_succ pg service base ws m
  · rw [hnone] at hc
    cases hc
  obtain ⟨hnone', -⟩ | ⟨c₀', hc₀', hver', heff', hlog'⟩ := worldAt_succ pg service base' ws' n
  · rw [hnone'] at hc'
    cases hc'
  rw [hc₀] at hc
  rw [hc₀'] at hc'
  cases hc
  cases hc'
  have hpub' : publishedAt pg service base ws (m + 1) =
      publishedAt pg service base' ws' (n + 1) := by
    rw [(hlog.resolve_right fun h => h.1 hread).2, (hlog'.resolve_right fun h => h.1 hread').2,
      hpub, (message_eq_iff hver hver').2 halike]
  -- the messages are the same again, but only the first run has changed this row
  have hafter := h (m + 1) (n + 1) hpub' c.key
  have hkey : c'.key ≠ c.key := fun heq => howner (by rw [heq])
  rw [valueAt_of_effective heff' c.key, if_neg hkey, ← h m n hpub c.key] at hafter
  exact valueAt_ne_of_effective heff hafter

/-- The next change is that of a write of the run. -/
theorem exists_write_of_nextChange {m : ℕ} {c : Change Identity SettingRecord}
    (hc : nextChange pg service base ws m = some c) :
    ∃ w ∈ ws, c.key = w.identity ∧ ((∀ v, pg.jsonb v = v) → Readable base c) := by
  obtain ⟨w, hw, hhead⟩ := Option.bind_eq_some_iff.1 hc
  refine ⟨w, List.mem_of_getElem? hw, ?_⟩
  obtain ⟨settings, plan, c', hfound, hplan, hc', hchanges, -⟩ | ⟨hnil, -⟩ :=
    w.alone_cases pg base (tableAfter pg service base ws m)
  · rw [hchanges, List.head?_cons, Option.some.injEq] at hhead
    subst hhead
    exact ⟨(hplan.makes hfound hc').key_eq, fun hjsonb =>
      hplan.readable (fun v _ => hjsonb v) hfound hc'⟩
  · rw [hnil] at hhead
    cases hhead

/-- **The messages determine the settings if every key of a tenant has one owner.** -/
theorem streamDetermines_of_single_owner (hjsonb : ∀ v, pg.jsonb v = v)
    (howner : ∀ w ∈ ws, ∀ w' ∈ ws', w.authority.tenant = w'.authority.tenant → w.key = w'.key →
      w.target = w'.target) : StreamDetermines pg service base base' ws ws' := by
  refine streamDetermines_of_attributable fun m n _ => ⟨fun c hc => ?_, fun c' hc' => ?_,
    fun c hc c' hc' halike => ?_⟩
  · obtain ⟨w, -, -, hread⟩ := exists_write_of_nextChange hc
    exact hread hjsonb
  · obtain ⟨w', -, -, hread⟩ := exists_write_of_nextChange hc'
    exact hread hjsonb
  · obtain ⟨w, hw, hkey, -⟩ := exists_write_of_nextChange hc
    obtain ⟨w', hw', hkey', -⟩ := exists_write_of_nextChange hc'
    obtain ⟨htenant, hkeys, -, -⟩ := halike
    rw [hkey, hkey'] at htenant hkeys ⊢
    have ht : w.authority.tenant = w'.authority.tenant := by
      rw [← Write.tenant_target, ← Write.tenant_target]
      exact congrArg Tenant.mk htenant
    have hk : w.key = w'.key := SettingKey.ext hkeys
    rw [Write.identity, Write.identity, howner w hw w' hw' ht hk]
    rfl

namespace Sample

/-- Another user of the same tenant. -/
def bob : Authority := ⟨⟨"acme"⟩, ⟨"bob"⟩, .user⟩

end Sample

open Sample in
/-- **The messages do not determine the settings**: Alice and Bob put the same value under the same
key, in two runs with the same message. -/
theorem not_streamDetermines :
    ¬ ∀ (pg : Postgres) (service : String) (base base' : Anchor) (ws ws' : List Write),
      (∀ v, pg.jsonb v = v) → (∀ w ∈ ws ++ ws', w.authority.user ≠ ⟨""⟩) →
      publishedAt pg service base ws ws.length = publishedAt pg service base' ws' ws'.length →
      ∀ id, (tableAfter pg service base ws ws.length).valueAt id =
        (tableAfter pg service base' ws' ws'.length).valueAt id := by
  intro h
  have hrow := h (Postgres.ofJsonb id) "settings" ⟨0, 0⟩ ⟨0, 0⟩ [.put theme dark alice none 0]
    [.put theme dark bob none 0] (fun _ => rfl) (by decide) rfl ("acme", "alice", "theme")
  exact absurd (congrArg Option.isSome hrow) (by decide)

end SettingsService
