import SettingsService.Deployment
import SettingsService.NotifyingRuns

/-!
# The demo loop

Beside the router `main` may start a loop that changes a setting of its own at an interval: it reads
the setting as an admin, and puts the next value at the version it has read.  If nobody interferes
this never fails: after any number of rounds the setting holds the value of the last one, its
version has grown by one in every round, and every round has been published.

Main definitions:

* `SettingsServicePort.demoPublisher` — the loop, over any settings service;
* `Deployed.settings` — the settings service that `main` gives to it;
* `DemoName` — the service names that the loop can make a key and a topic of.

Main results:

* `SettingsMap.put_seenBy` — a `PUT` at the version that its authority sees is never refused;
* `Deployed.run_demoRound` — one round;
* `Deployed.demoPublisher_undisturbed` — **the demo loop, when nobody interferes**.
-/

set_option relaxedAutoImplicit false
set_option autoImplicit false

namespace SettingsService

open Interaction (Prog)

/-! ### The loop -/

namespace SettingsServicePort

/-- The port in another language of calls. -/
def translate {Op Op' : Type} {Ret : Op → Type} {Ret' : Op' → Type}
    (port : SettingsServicePort Op' Ret') (f : Op' → Op) (back : (o : Op') → Ret (f o) → Ret' o) :
    SettingsServicePort Op Ret where
  get key auth := ExceptT.mk ((port.get key auth).run.translate f back)
  search query auth pagination :=
    ExceptT.mk ((port.search query auth pagination).run.translate f back)
  put key value auth expected now :=
    ExceptT.mk ((port.put key value auth expected now).run.translate f back)
  patch key value auth expected now :=
    ExceptT.mk ((port.patch key value auth expected now).run.translate f back)
  delete key auth expected := ExceptT.mk ((port.delete key auth expected).run.translate f back)

/-- The value of a round. -/
def demoValue (counter : UInt64) (service : String) : Value where
  json := .object [("counter", .number (.posInt counter)), ("service", .string service)]
  sorted := by
    have hlt : "counter" < "service" := by decide
    simp only [Json.isSorted, Json.isSortedMembers, OrderedMap.Sorted, List.map_cons, List.map_nil,
      List.pairwise_pair, hlt, decide_true, Bool.and_self]

section Loop

variable {Op : Type} {Ret : Op → Type} (port : SettingsServicePort Op Ret)
  (clock : Prog Op Ret Instant) (tenant key service : String)

/-- A round of `demo_publisher`; it goes on whatever comes of it. -/
def demoRound (counter : UInt64) : Prog Op Ret Unit :=
  let authority : Authority := ⟨⟨tenant⟩, ⟨"demo-loop"⟩, .admin⟩
  match SettingKey.new key with
  | .error _ => return ()
  | .ok key =>
      match SettingValue.new (demoValue counter service) with
      | .error _ => return ()
      | .ok value => do
          let current ← (port.get key authority).run
          -- when the read fails the write goes on without a precondition
          let expected := current.toOption.map Setting.version
          let now ← clock
          let _ ← (port.put key value authority expected now).run
          return ()

/-- `demo_publisher`, from a counter on, for so many rounds. -/
def demoPublisher : ℕ → UInt64 → Prog Op Ret Unit
  | 0, _ => return ()
  | rounds + 1, counter => do
      demoRound port clock tenant key service (counter + 1)
      demoPublisher rounds (counter + 1)

end Loop

end SettingsServicePort

namespace Deployed

variable {Jwk Key : Type}

/-- The settings service that `main` gives to the loop. -/
def settings (app : App Jwk Key) : SettingsServicePort (DeployedOp Jwk) DeployedOp.Ret :=
  (port app).translate DeployedOp.ofCall DeployedOp.toRet

/-- `Instant::now`. -/
def clock : Prog (DeployedOp Jwk) DeployedOp.Ret Instant :=
  Prog.perform (DeployedOp.app (.auth .instant))

/-- The loop that `main` starts where the configuration has an interval for it. -/
def demoPublisher (app : App Jwk Key) (rounds : ℕ) : Prog (DeployedOp Jwk) DeployedOp.Ret Unit :=
  (settings app).demoPublisher clock "acme" ("demo/" ++ app.config.serviceName)
    app.config.serviceName rounds 0

end Deployed

/-! ### What the loop writes -/

theorem size_demoValue_le (counter : UInt64) (service : String) :
    (SettingsServicePort.demoValue counter service).size ≤ 6 * service.utf8ByteSize + 50 := by
  have hcounter : counter.toNat.repr.utf8ByteSize ≤ 20 := by
    have hlt := counter.toNat_lt
    rw [Texts.utf8ByteSize_repr, Nat.length_repr_le_iff (by omega)]
    omega
  have hservice := utf8ByteSize_quote_le service
  change (Json.print (.object [("counter", .number (.posInt counter)),
    ("service", .string service)])).utf8ByteSize ≤ _
  simp only [Json.print, Json.printMembers, Number.print, String.utf8ByteSize_append]
  -- the lengths of what stands around the counter and the service
  have hopen : "\x7b".utf8ByteSize = 1 := by decide
  have hkey : (quote "counter").utf8ByteSize = 9 := by decide
  have hkey' : (quote "service").utf8ByteSize = 9 := by decide
  have hcolon : ":".utf8ByteSize = 1 := by decide
  have hcomma : ",".utf8ByteSize = 1 := by decide
  have hend : "".utf8ByteSize = 0 := by decide
  have hclose : "\x7d".utf8ByteSize = 1 := by decide
  omega

/-- A name of the service that makes a key and a topic: not too long, without whitespace at its end,
and without a character that the database or the client refuses. -/
structure DemoName (name : String) : Prop where
  trimmed : trim ("demo/" ++ name) = "demo/" ++ name
  short : ("demo/" ++ name).utf8ByteSize ≤ 128
  noNul : '\x00' ∉ name.toList
  noWildcard : '+' ∉ name.toList ∧ '#' ∉ name.toList

namespace DemoName

variable {name : String} (h : DemoName name)

/-- The key of the loop. -/
def key : SettingKey where
  asStr := "demo/" ++ name
  trimmed := h.trimmed
  nonempty hempty := by
    have hlen := congrArg String.length hempty
    rw [String.length_append] at hlen
    exact absurd hlen (Nat.ne_of_gt (Nat.add_pos_left (by decide) _))
  short := h.short

include h in
theorem size_le_maxValueBytes (counter : UInt64) :
    (SettingsServicePort.demoValue counter name).size ≤ maxValueBytes := by
  have hsize := size_demoValue_le counter name
  have hshort := h.short
  rw [String.utf8ByteSize_append] at hshort
  rw [maxValueBytes]
  omega

/-- The value of a round. -/
def value (counter : UInt64) : SettingValue where
  value := SettingsServicePort.demoValue counter name
  isObject := rfl
  small := h.size_le_maxValueBytes counter

/-- What a round announces. -/
def change (version : ℕ) (counter : UInt64) : ConfigChange :=
  ⟨name, .upsert, "acme", h.key.asStr, some (h.value counter).value, version⟩

theorem new_key : SettingKey.new ("demo/" ++ name) = .ok h.key := SettingKey.new_asStr h.key

theorem new_value (counter : UInt64) :
    SettingValue.new (SettingsServicePort.demoValue counter name) = .ok (h.value counter) :=
  SettingValue.new_eq_ok_iff.2 rfl

/-- What the name does not hold does not stand in the key either. -/
theorem not_mem_key {c : Char} (hdemo : c ∉ "demo/".toList) (hname : c ∉ name.toList) :
    c ∉ h.key.asStr.toList := by
  rw [key, String.toList_append, List.mem_append]
  exact not_or.2 ⟨hdemo, hname⟩

theorem textAccepted_key : textAccepted h.key.asStr = true := by
  rw [textAccepted, Bool.not_eq_true', List.contains_eq_mem, decide_eq_false_iff_not]
  exact h.not_mem_key (by decide) h.noNul

theorem jsonbAccepted_value (counter : UInt64) : jsonbAccepted (h.value counter).value = true := by
  have hnul : (h.value counter).value.json.hasNul = name.toList.contains '\x00' := by
    simp [value, SettingsServicePort.demoValue, Json.hasNul, Json.hasNulMembers]
  rw [jsonbAccepted, hnul, Bool.not_eq_true', List.contains_eq_mem, decide_eq_false_iff_not]
  exact h.noNul

theorem not_refused : refused ("settings/" ++ "acme" ++ "/" ++ h.key.asStr) = false := by
  have htopic : ∀ c, c ∉ ("settings/" ++ "acme" ++ "/").toList → c ∉ h.key.asStr.toList →
      ("settings/" ++ "acme" ++ "/" ++ h.key.asStr).toList.contains c = false := by
    intro c hc hkey
    rw [String.toList_append, List.contains_eq_mem, decide_eq_false_iff_not, List.mem_append]
    exact not_or.2 ⟨hc, hkey⟩
  rw [refused, htopic '+' (by decide) (h.not_mem_key (by decide) h.noWildcard.1),
    htopic '#' (by decide) (h.not_mem_key (by decide) h.noWildcard.2)]
  rfl

end DemoName

/-! ### A `PUT` at the version that was read -/

namespace SettingsMap

variable {S : SettingsMap}

/-- The version of an entry; zero where there is none. -/
def versionOf (S : SettingsMap) (key : SettingKey) (o : Ownership) : ℕ :=
  ((S key o).map Prod.fst).getD 0

theorem versionOf_set (key : SettingKey) (o : Ownership) (version : ℕ) (value : SettingValue) :
    (S.set key o (some (version, value))).versionOf key o = version := by
  rw [versionOf, set, Function.update_self, Function.update_self]
  rfl

theorem set_set (key : SettingKey) (o : Ownership) (x y : Option (ℕ × SettingValue)) :
    (S.set key o x).set key o y = S.set key o y := by
  rw [set, set, set, Function.update_self, Function.update_idem, Function.update_idem]

/-- **A `PUT` at the version that its authority sees is never refused**: what an authority sees
first is its own entry. -/
theorem put_seenBy (S : SettingsMap) (key : SettingKey) (value : SettingValue) (a : Authority)
    (now : Instant) :
    (Write.put key value a ((S.seenBy a key).map fun x => x.2.1) now).apply S =
      S.store key a.scopeOwnership (S.versionOf key a.scopeOwnership + 1) value := by
  have htarget : ∀ expected, (Write.put key value a expected now).target = a.scopeOwnership :=
    fun _ => rfl
  cases hentry : S key a.scopeOwnership with
  | none =>
      rw [versionOf, hentry]
      simp only [Write.apply, Write.key, htarget, hentry]
      rfl
  | some x =>
      obtain ⟨version, old⟩ := x
      have hseen : (S.seenBy a key).map (fun x => x.2.1) = some version := by
        rw [Authority.scopeOwnership] at hentry
        rw [seenBy]
        cases hrole : a.role with
        | admin =>
            rw [hrole] at hentry
            simp only at hentry ⊢
            rw [hentry]
            rfl
        | user =>
            rw [hrole] at hentry
            simp only at hentry ⊢
            rw [hentry]
            rfl
      rw [hseen, versionOf, hentry]
      simp only [Write.apply, Write.key, htarget, hentry, if_true]
      rfl

end SettingsMap

section Alone

variable {pg : Postgres} {base : Anchor} {T : Table} {key : SettingKey} {value : SettingValue}
  {a : Authority}

theorem alone_get_run : (Request.get key a).alone pg base T =
    (((Service.get base key a).run.run pg.exec T).1.map .setting,
      ((Service.get base key a).run.run pg.exec T).2) := run_map _ _ _

theorem alone_put_run (expected : Option ℕ) (now : Instant) :
    (Write.put key value a expected now).alone pg base T =
      (((Service.put base key value a expected now).run.run pg.exec T).1.map .setting,
        ((Service.put base key value a expected now).run.run pg.exec T).2) := run_map _ _ _

/-- What is shown of a setting that a method returned. -/
theorem shownOf_map_setting (x : Except SettingsError Setting) :
    shownOf (x.map .setting) = x.map fun s => some (s.ownership, s.version, s.value) := by
  cases x <;> rfl

/-- A write alone replies with a setting that has its key. -/
theorem Write.key_of_alone {w : Write} {s : Setting}
    (h : (w.alone pg base T).1 = .ok (.setting s)) : s.key = w.key := by
  obtain ⟨tr, hfollows, hserved⟩ := Prog.run_eq_iff.1
    (Prod.ext h rfl : w.alone pg base T = (.ok (.setting s), (w.alone pg base T).2))
  rcases Write.reply_of_follows hfollows (Prog.exists_of_served hserved) with
    hdel | ⟨s', hs', hkey⟩
  · cases hdel
  · cases hs'
    exact hkey

/-- What a `PUT` stores is its value. -/
theorem Write.Decides.stores_put {expected : Option ℕ} {now : Instant} {settings : List Setting}
    {plan : Plan} (h : (Write.put key value a expected now).Decides settings plan) {v : Value}
    (hv : v ∈ (plan.stmt base).stores) : v = value.value := by
  cases h with
  | insert hown hs =>
      obtain rfl := Except.ok.inj hs
      exact (Option.some.inj hv).symm
  | update hown he hnext =>
      obtain rfl := Except.ok.inj hnext
      exact (Option.some.inj hv).symm
  | delete hown he hw => exact hw.elim

/-- A request alone does the same where `JSONB` gives back whatever is stored. -/
theorem Request.alone_keeping {q : Request}
    (hkeeps : ∀ w settings plan, q = .write w → w.Decides settings plan →
      pg.Keeps (plan.stmt base)) (T : Table) :
    q.alone pg base T = q.alone pg.keeping base T := by
  have honly : (q.prog base).Only pg.Keeps := Request.only_of_decides base (fun _ _ => nofun)
    (fun _ _ _ => nofun) (fun _ _ _ _ _ _ => nofun) hkeeps
  exact honly.run_congr (fun s hs T => Postgres.exec_keeping hs T) T

variable (hT : T.Kept base) (hroom : T.HasRoom)

include hT hroom

/-- The version that a `GET` finds is the one its authority sees. -/
theorem version_get (hq : (Request.get key a).Proper) :
    ((Service.get base key a).run.run pg.exec T).1.toOption.map Setting.version =
      (T.settings.seenBy a key).map fun x => x.2.1 := by
  have hshown := (Request.alone_apply pg.jsonb_keeping hT hroom hq).1 _ rfl
  have hkeeping : (Request.get key a).alone pg base T =
      (Request.get key a).alone pg.keeping base T :=
    Request.alone_keeping (fun w settings plan hw => by cases hw) T
  rw [← hkeeping, alone_get_run, shownOf_map_setting] at hshown
  cases hseen : T.settings.seenBy a key with
  | none =>
      rw [hseen] at hshown
      cases hx : ((Service.get base key a).run.run pg.exec T).1 with
      | error e => rfl
      | ok s =>
          rw [hx] at hshown
          cases hshown
  | some x =>
      rw [hseen] at hshown
      cases hx : ((Service.get base key a).run.run pg.exec T).1 with
      | error e =>
          rw [hx] at hshown
          cases hshown
      | ok s =>
          rw [hx] at hshown
          obtain rfl := Option.some.inj (Except.ok.inj hshown)
          rfl

/-- **A `PUT` alone, at the version that its authority sees**, stores its value and counts up. -/
theorem put_at_seen (hvalue : pg.jsonb value.value = value.value) {expected : Option ℕ}
    (hexpected : expected = (T.settings.seenBy a key).map fun x => x.2.1) {now : Instant}
    (hq : (Request.write (.put key value a expected now)).Proper) :
    ∃ s T', (Service.put base key value a expected now).run.run pg.exec T = (.ok s, T') ∧
      s = ⟨key, value, a.scopeOwnership, T.settings.versionOf key a.scopeOwnership + 1,
        s.updatedAt⟩ ∧
      T'.settings = T.settings.set key a.scopeOwnership
        (some (T.settings.versionOf key a.scopeOwnership + 1, value)) ∧
      T'.Kept base ∧
      ∀ n : ℕ, (∀ r ∈ T.rows, r.version ≤ n) → ∀ r ∈ T'.rows, r.version ≤ (n + 1 : ℕ) := by
  have hkeeping : (Write.put key value a expected now).alone pg base T =
      (Write.put key value a expected now).alone pg.keeping base T :=
    Request.alone_keeping (q := .write (.put key value a expected now))
      (fun w settings plan hw hplan v hv => by
        obtain rfl := Request.write.inj hw
        rw [hplan.stores_put hv, hvalue]) T
  obtain ⟨hshown, hsettings⟩ := Write.alone_apply pg.jsonb_keeping hT hroom hq
  have happly := T.settings.put_seenBy key value a now
  rw [← hexpected] at happly
  have hkept := hT.alone pg.jsonb_keeping (q := .write (.put key value a expected now)) hq.user
  change ((Write.put key value a expected now).alone pg.keeping base T).2.Kept base at hkept
  rw [← hkeeping] at hshown hsettings hkept
  have hversions : ∀ n : ℕ, (∀ r ∈ T.rows, r.version ≤ n) →
      ∀ r ∈ ((Write.put key value a expected now).alone pg base T).2.rows,
        r.version ≤ (n + 1 : ℕ) := fun n hn =>
    Request.version_alone_le (q := .write (.put key value a expected now)) hn
  have hkey : ∀ s, ((Write.put key value a expected now).alone pg base T).1 = .ok (.setting s) →
      s.key = key := fun s h => Write.key_of_alone h
  rw [alone_put_run] at hshown hsettings hkept hversions hkey
  rw [happly] at hshown hsettings
  rw [shownOf_map_setting] at hshown
  cases hx : ((Service.put base key value a expected now).run.run pg.exec T).1 with
  | error e =>
      rw [hx] at hshown
      cases hshown
  | ok s =>
      rw [hx] at hshown hkey
      obtain ⟨hown, hversion, hvalue⟩ : s.ownership = a.scopeOwnership ∧
          s.version = T.settings.versionOf key a.scopeOwnership + 1 ∧ s.value = value := by
        have hs := Option.some.inj (Except.ok.inj hshown)
        exact ⟨congrArg Prod.fst hs, congrArg (fun x => x.2.1) hs, congrArg (fun x => x.2.2) hs⟩
      refine ⟨s, _, Prod.ext hx rfl, ?_, hsettings, hkept, hversions⟩
      have hk : s.key = key := hkey s rfl
      obtain ⟨_, _, _, _, _⟩ := s
      simp only at hk hown hversion hvalue
      rw [hk, hown, hversion, hvalue]

end Alone

/-! ### The loop alone -/

namespace Deployed

variable {Jwk Key : Type} {app : App Jwk Key} {env : AppEnv Jwk} {V : DeployedWorld Jwk}

/-- The state with another settings table. -/
def withTable (V : DeployedWorld Jwk) (T : Table) : DeployedWorld Jwk :=
  { V with app := { V.app with table := T } }

/-- **A program of the plain service** runs on the settings table, and leaves the rest alone. -/
theorem run_inner {α : Type} (p : Prog Stmt Stmt.Ret α) (V : DeployedWorld Jwk) :
    ((NotifyingService.inner p).translate DeployedOp.ofCall DeployedOp.toRet).run (exec app env) V =
      ((p.run env.pg.exec V.app.table).1, withTable V (p.run env.pg.exec V.app.table).2) := by
  induction p generalizing V with
  | pure a => rfl
  | call s k ih => exact ih _ _

variable {key : SettingKey} {value : SettingValue} {a : Authority}

/-- A `GET` of the loop finds what a `GET` of the plain service finds, and changes nothing. -/
theorem run_get : ((settings app).get key a).run.run (exec app env) V =
    (((Service.get app.base key a).run.run env.pg.exec V.app.table).1, V) := by
  have htable : ((Request.get key a).alone env.pg app.base V.app.table).2 = V.app.table :=
    Request.alone_of_read rfl
  rw [alone_get_run] at htable
  refine (run_inner _ V).trans (Prod.ext rfl ?_)
  change withTable V _ = V
  rw [htable]
  rfl

/-- A `PUT` of the loop that the plain service takes is announced. -/
theorem run_put {expected : Option ℕ} {now : Instant} {s : Setting} {T T' : Table}
    (hT : V.app.table = T)
    (h : (Service.put app.base key value a expected now).run.run env.pg.exec T = (.ok s, T')) :
    (((settings app).put key value a expected now).run.run (exec app env) V).2 =
      { withTable V T' with
        published := MqttNotifier.notify
          (NotifyingService.upsertChange app.config.serviceName s) V.published } := by
  subst hT
  change (((NotifyingService.inner (Service.put app.base key value a expected now).run >>= _
    ).translate DeployedOp.ofCall DeployedOp.toRet).run (exec app env) V).2 = _
  rw [Prog.translate_bind, Prog.run_bind, run_inner, h]
  rfl

/-- The owner of what the loop writes. -/
def demoOwnership : Ownership := .forTenant ⟨"acme"⟩

section Rounds

variable {m : ℕ} {W : DeployedWorld Jwk} (hname : DemoName app.config.serviceName)
  (hkeeps : ∀ counter, env.pg.jsonb (hname.value counter).value = (hname.value counter).value)

include hkeeps

/-- **A round alone** stores its value, counts the version up and is published. -/
theorem run_demoRound {counter : UInt64} {n : ℕ} (hV : V.app.table.Kept app.base)
    (hm : ∀ r ∈ V.app.table.rows, r.version ≤ m) (hlast : (m + 1 : ℤ) ≤ i32Max)
    (hn : V.app.table.settings.versionOf hname.key demoOwnership = n)
    (hW : (((settings app).demoRound clock "acme" ("demo/" ++ app.config.serviceName)
      app.config.serviceName counter).run (exec app env) V).2 = W) :
    W.app.table.settings =
      V.app.table.settings.set hname.key demoOwnership (some (n + 1, hname.value counter)) ∧
    W.published = V.published ++ [(hname.change (n + 1) counter).publish] ∧
    W.app.table.Kept app.base ∧ ∀ r ∈ W.app.table.rows, r.version ≤ (m + 1 : ℕ) := by
  let a : Authority := ⟨⟨"acme"⟩, ⟨"demo-loop"⟩, .admin⟩
  have hroom : V.app.table.HasRoom := fun r hr => by
    have := hm r hr
    omega
  have huser : a.user ≠ ⟨""⟩ := by decide
  have hacme : textAccepted "acme" = true := by decide
  have hread : (Request.get hname.key a).Proper := ⟨⟨hacme, hname.textAccepted_key⟩, huser⟩
  have hwrite : ∀ expected now, (Request.write
      (.put hname.key (hname.value counter) a expected now)).Proper := fun expected now =>
    ⟨⟨hacme, hname.textAccepted_key, rfl, hname.jsonbAccepted_value _⟩, huser⟩
  have hround : (settings app).demoRound clock "acme" ("demo/" ++ app.config.serviceName)
      app.config.serviceName counter = (do
        let current ← ((settings app).get hname.key a).run
        let expected := current.toOption.map Setting.version
        let now ← clock
        let _ ← ((settings app).put hname.key (hname.value counter) a expected now).run
        return ()) := by
    rw [SettingsServicePort.demoRound, hname.new_key]
    simp only [hname.new_value]
    rfl
  obtain ⟨now, V', hclock, htable, hpublished⟩ : ∃ now V', clock.run (exec app env) V = (now, V') ∧
      V'.app.table = V.app.table ∧ V'.published = V.published := ⟨_, _, rfl, rfl, rfl⟩
  obtain ⟨s, T, hrun, hs, hsettings, hkept, hversions⟩ :=
    put_at_seen hV hroom (hkeeps counter) (version_get hV hroom hread) (hwrite _ now)
  obtain rfl : { withTable V' T with
      published := MqttNotifier.notify (NotifyingService.upsertChange app.config.serviceName s)
        V'.published } = W := by
    rw [← hW, ← run_put htable hrun, hround, Prog.run_bind, run_get, Prog.run_bind, hclock,
      Prog.run_bind]
    rfl
  have hown : a.scopeOwnership = demoOwnership := rfl
  rw [hown, hn] at hs hsettings
  have hnotify : MqttNotifier.notify (NotifyingService.upsertChange app.config.serviceName s)
      V'.published = V.published ++ [(hname.change (n + 1) counter).publish] := by
    rw [hs, hpublished]
    exact if_neg (ne_true_of_eq_false hname.not_refused)
  exact ⟨hsettings, hnotify, hkept, hversions m hm⟩

omit hkeeps in
theorem run_demoPublisher_zero (c : UInt64) :
    (((settings app).demoPublisher clock "acme" ("demo/" ++ app.config.serviceName)
        app.config.serviceName 0 c).run (exec app env) V).2 = V := rfl

omit hkeeps in
/-- The loop goes on after a round with the next counter. -/
theorem run_demoPublisher_succ (rounds c : ℕ) :
    ((settings app).demoPublisher clock "acme" ("demo/" ++ app.config.serviceName)
        app.config.serviceName (rounds + 1) (.ofNat c)).run (exec app env) V =
      ((settings app).demoPublisher clock "acme" ("demo/" ++ app.config.serviceName)
          app.config.serviceName rounds (.ofNat (c + 1))).run (exec app env)
        (((settings app).demoRound clock "acme" ("demo/" ++ app.config.serviceName)
          app.config.serviceName (.ofNat (c + 1))).run (exec app env) V).2 := by
  have hcount : UInt64.ofNat c + 1 = .ofNat (c + 1) := (UInt64.ofNat_add c 1).symm
  rw [SettingsServicePort.demoPublisher, Prog.run_bind, hcount]

/-- The rounds from a counter on. -/
theorem run_demoRounds {rounds c n : ℕ} (hV : V.app.table.Kept app.base)
    (hm : ∀ r ∈ V.app.table.rows, r.version ≤ m) (hlast : (m + (rounds + 1) : ℤ) ≤ i32Max)
    (hn : V.app.table.settings.versionOf hname.key demoOwnership = n)
    (hW : (((settings app).demoPublisher clock "acme" ("demo/" ++ app.config.serviceName)
      app.config.serviceName (rounds + 1) (.ofNat c)).run (exec app env) V).2 = W) :
    W.app.table.settings = V.app.table.settings.set hname.key demoOwnership
      (some (n + (rounds + 1), hname.value (.ofNat (c + (rounds + 1))))) ∧
    W.published = V.published ++ (List.range (rounds + 1)).map fun i =>
      (hname.change (n + (i + 1)) (.ofNat (c + (i + 1)))).publish := by
  induction rounds generalizing c n V m with
  | zero =>
      rw [run_demoPublisher_succ, run_demoPublisher_zero] at hW
      obtain ⟨hsettings, hpublished, -, -⟩ := run_demoRound hname hkeeps hV hm (by omega) hn hW
      exact ⟨hsettings, hpublished⟩
  | succ rounds ih =>
      rw [run_demoPublisher_succ] at hW
      generalize hV' : (((settings app).demoRound clock "acme" ("demo/" ++ app.config.serviceName)
        app.config.serviceName (.ofNat (c + 1))).run (exec app env) V).2 = V' at hW
      obtain ⟨hsettings, hpublished, hkept, hversions⟩ :=
        run_demoRound hname hkeeps hV hm (by omega) hn hV'
      have hn' : V'.app.table.settings.versionOf hname.key demoOwnership = n + 1 := by
        rw [hsettings, SettingsMap.versionOf_set]
      have hlast' : ((m + 1 : ℕ) + (rounds + 1) : ℤ) ≤ i32Max := by
        push_cast at hlast ⊢
        omega
      obtain ⟨hsettings', hpublished'⟩ := ih hkept hversions hlast' hn' hW
      have hcount : ∀ x i : ℕ, x + 1 + i = x + (i + 1) := fun x i => by omega
      refine ⟨?_, ?_⟩
      · rw [hsettings', hsettings, SettingsMap.set_set, hcount n, hcount c]
      · -- the first round is at the front of the range, the others are one further
        have hrange : List.range (rounds + 1 + 1) = 0 :: (List.range (rounds + 1)).map Nat.succ :=
          List.range_succ_eq_map
        rw [hpublished', hpublished, List.append_assoc, hrange, List.map_cons, List.map_map]
        simp only [hcount n, hcount c]
        rfl

/-- **The demo loop, when nobody interferes**: its setting holds the value of the last round, at a
version that every round has counted up by one, and every round has been published. -/
theorem demoPublisher_undisturbed {rounds : ℕ} (hpos : 0 < rounds)
    (hV : V.app.table.Kept app.base) (hm : ∀ r ∈ V.app.table.rows, r.version ≤ m)
    (hlast : (m + rounds : ℤ) ≤ i32Max) :
    let W := ((demoPublisher app rounds).run (exec app env) V).2
    let n := V.app.table.settings.versionOf hname.key demoOwnership
    W.app.table.settings = V.app.table.settings.set hname.key demoOwnership
        (some (n + rounds, hname.value (.ofNat rounds))) ∧
      W.published = V.published ++ (List.range rounds).map fun i =>
        (hname.change (n + (i + 1)) (.ofNat (i + 1))).publish := by
  obtain ⟨rounds, rfl⟩ := Nat.exists_eq_succ_of_ne_zero hpos.ne'
  have hlast' : (m + (rounds + 1) : ℤ) ≤ i32Max := by
    push_cast at hlast
    exact hlast
  intro W n
  have hW : (((settings app).demoPublisher clock "acme" ("demo/" ++ app.config.serviceName)
      app.config.serviceName (rounds + 1) (.ofNat 0)).run (exec app env) V).2 = W := rfl
  have hn : V.app.table.settings.versionOf hname.key demoOwnership = n := rfl
  clear_value W n
  have hrounds := run_demoRounds hname hkeeps hV hm hlast' hn hW
  simpa only [Nat.zero_add] using hrounds

end Rounds

end Deployed

open Sample in
/-- Two rounds over an empty table. -/
theorem Deployed.demoPublisher_undisturbed_two_rounds :
    let W := ((demoPublisher server 2).run (exec server around) ⟨fresh, []⟩).2
    let name : DemoName "settings-service" := ⟨by decide, by decide, by decide, by decide⟩
    W.app.table.settings =
      Table.empty.settings.set name.key demoOwnership (some (2, name.value 2)) ∧
      W.published = [(name.change 1 1).publish, (name.change 2 2).publish] := by
  have hrows : ∀ r ∈ fresh.table.rows, r.version ≤ (0 : ℕ) := fun r hr => absurd hr List.not_mem_nil
  exact demoPublisher_undisturbed ⟨by decide, by decide, by decide, by decide⟩ (fun _ => rfl)
    Nat.two_pos (Table.kept_empty _) hrows (by decide)

end SettingsService
