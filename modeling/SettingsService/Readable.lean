import SettingsService.Interleaving
import SettingsService.Runs

/-!
# Writes that can be read back

A write validates the value it sends; the database stores it, and a read validates what the
database gives back.  A `JSONB` column gives back a float of `1e+16` or more digit by digit, so a
value that was small enough to send can be too large to read: the write is committed, fails, and
from then on every read of its tenant and key fails.

Main definitions:

* `StoresFit` — what a statement stores can be read back;
* `ReadableOrRefused` — a write succeeds and its row decodes, or it fails and changes nothing;
* `AllReadable` — every row of a table decodes, and no read fails on one.

Main results:

* `readableOrRefused_iff` — **a write is readable or refused exactly when what it stores can be read
  back**;
* `allReadable_of_storesFit` — every interleaving of such writes keeps every row readable;
* `not_readableOrRefused` — a write that is neither.
-/

set_option relaxedAutoImplicit false
set_option autoImplicit false

namespace SettingsService

open Interaction (Prog Proc Event Snapshot Reachable eventOf)
open OptimisticLock (Change Effective Run)

/-! ### Sizes of stored values -/

/-- If the statement takes effect, what the column gives back for the value it stores is small
enough. -/
def StoresFit (pg : Postgres) (o : Stmt) (r : o.Ret) : Prop :=
  ∀ v ∈ o.stores, (o.change r).isSome = true → (pg.jsonb v).size ≤ maxValueBytes

instance (pg : Postgres) (o : Stmt) (r : o.Ret) : Decidable (StoresFit pg o r) :=
  inferInstanceAs (Decidable (∀ v ∈ o.stores, _))

/-- A row decodes, whatever the anchor of the process. -/
def SettingRecord.Decodes (r : SettingRecord) : Prop := ∀ base, ∃ s, r.intoDomain base = .ok s

/-- A row under a valid key decodes exactly when its value is an object that fits. -/
theorem SettingRecord.decodes_iff {r : SettingRecord} {key : SettingKey}
    (hkey : r.key = key.asStr) :
    r.Decodes ↔ r.value.isObject = true ∧ r.value.size ≤ maxValueBytes := by
  rw [← SettingValue.exists_new_eq_ok_iff]
  constructor
  · intro h
    obtain ⟨s, hs⟩ := h ⟨0, 0⟩
    obtain ⟨_, value, -, hvalue, -⟩ := intoDomain_eq_ok_iff.1 hs
    exact ⟨value, hvalue⟩
  · rintro ⟨value, hvalue⟩ base
    refine ⟨_, intoDomain_eq_ok_iff.2 ⟨key, value, ?_, hvalue, rfl⟩⟩
    rw [hkey, SettingKey.new_asStr]

variable {pg : Postgres} {base : Anchor}

/-- **The row a statement writes decodes exactly when what it stores fits.** -/
theorem Write.Decides.decodes_iff
    (hobject : ∀ v, v.isObject = true → (pg.jsonb v).isObject = true) {w : Write} {T₁ T : Table}
    {settings : List Setting} {plan : Plan}
    (hfound : Repo.found base pg T₁ w.key w.authority.tenant = .ok settings)
    (hplan : w.Decides settings plan) {c : Change Identity SettingRecord}
    (hc : (plan.stmt base).change (pg.exec (plan.stmt base) T).1 = some c) :
    (∀ r, c.content = some r → r.Decodes) ↔
      StoresFit pg (plan.stmt base) (pg.exec (plan.stmt base) T).1 := by
  have hfit : StoresFit pg (plan.stmt base) (pg.exec (plan.stmt base) T).1 ↔
      ∀ v, (plan.stmt base).stores = some v → (pg.jsonb v).size ≤ maxValueBytes := by
    rw [StoresFit, hc]
    simp
  rw [hfit]
  cases hplan with
  | @insert s hown hs =>
      rw [hs.stmt_eq] at hc ⊢
      obtain ⟨-, -, rfl⟩ := change_insert_iff.1 hc
      simp only [Change.content, Option.some.injEq, forall_eq', Stmt.stores, Postgres.inserted]
      rw [SettingRecord.decodes_iff rfl]
      exact and_iff_right (hobject _ s.value.isObject)
  | @update cur next hown he hnext =>
      rw [hnext.stmt_eq hfound hown] at hc ⊢
      obtain ⟨-, -, r, hr, -, rfl⟩ := change_update_iff.1 hc
      simp only [Change.content, Option.some.injEq, forall_eq', Stmt.stores]
      have hkey : (r.rewrite (pg.jsonb next.value.value)
          (instantToMillis base next.updatedAt)).key = w.key.asStr :=
        (Repo.under_of_identity (Table.row?_eq_some_iff.1 hr).2).2
      rw [SettingRecord.decodes_iff hkey, SettingRecord.rewrite]
      exact and_iff_right (hobject _ next.value.isObject)
  | @delete cur hown he hw =>
      rw [Write.delete_stmt_eq hfound hown] at hc ⊢
      obtain ⟨-, -, -, -, rfl⟩ := change_delete_iff.1 hc
      simp [Change.content, Stmt.stores]

/-! ### One write -/

/-- **A write is readable or refused**: it succeeds and the row it wrote decodes, or it fails and
the table is as it was. -/
def ReadableOrRefused (pg : Postgres) (base : Anchor) (T : Table) (w : Write) : Prop :=
  ((∃ a, (w.alone pg base T).1 = .ok a) ∧
    ∀ r, (w.alone pg base T).2.row? w.identity = some r → r.Decodes) ∨
  ((∃ e, (w.alone pg base T).1 = .error e) ∧ (w.alone pg base T).2 = T)

/-- What the statement of a write stores when the write runs alone fits. -/
def AloneFits (pg : Postgres) (base : Anchor) (T : Table) (w : Write) : Prop :=
  ∀ settings plan, Repo.found base pg T w.key w.authority.tenant = .ok settings →
    w.Decides settings plan → StoresFit pg (plan.stmt base) (pg.exec (plan.stmt base) T).1

/-- **A write is readable or refused exactly when what it stores fits.** -/
theorem readableOrRefused_iff
    (hobject : ∀ v, v.isObject = true → (pg.jsonb v).isObject = true) {T : Table} {w : Write} :
    ReadableOrRefused pg base T w ↔ AloneFits pg base T w := by
  obtain ⟨settings, plan, c, hfound, hplan, hc, -, halone⟩ | ⟨hnil, e, halone⟩ :=
    w.alone_cases pg base T
  · have hfit : AloneFits pg base T w ↔ ∀ r, c.content = some r → r.Decodes := by
      rw [hplan.decodes_iff hobject hfound hc]
      refine ⟨fun h => h settings plan hfound hplan, fun h settings' plan' hfound' hplan' => ?_⟩
      obtain rfl := Except.ok.inj (hfound.symm.trans hfound')
      obtain rfl := Except.ok.inj ((Write.decide_eq_ok_iff.2 hplan).symm.trans
        (Write.decide_eq_ok_iff.2 hplan'))
      exact h
    have heff := Postgres.effective_of_change hc
    have hkey := (hplan.makes hfound hc).key_eq
    rw [hfit, ReadableOrRefused, halone]
    constructor
    · rintro (⟨-, hdec⟩ | ⟨-, hT⟩) r hr
      · obtain ⟨n, hn⟩ := heff.of_content hr
        rw [hkey] at hn
        exact hdec r (Table.view_eq_some_iff.1 hn).1
      · exact absurd (congrArg Table.view hT) heff.ne
    · intro hdec
      refine .inl ⟨Readable.resultOf fun r hr => hdec r hr base, fun r hr => ?_⟩
      have hv : (pg.exec (plan.stmt base) T).2.view c.key = some (r.version, r) := by
        rw [hkey]
        exact Table.view_eq_some_iff.2 ⟨hr, rfl⟩
      exact hdec r (heff.content_eq hv)
  · refine iff_of_true (.inr ⟨⟨e, by rw [halone]⟩, by rw [halone]⟩) ?_
    intro settings plan hfound hplan v _ hsome
    have hnone : (plan.stmt base).change (pg.exec (plan.stmt base) T).1 = none := by
      have hdecide : (Except.ok settings >>= w.decide) = .ok plan :=
        Write.decide_eq_ok_iff.2 hplan
      rw [changesOf_write, hfound, hdecide] at hnil
      exact Option.toList_eq_nil_iff.1 hnil
    rw [hnone] at hsome
    exact absurd hsome (by simp)

/-! ### Runs of writes -/

/-- **Every row of a table decodes**, and so no read fails on one. -/
structure AllReadable (pg : Postgres) (T : Table) : Prop where
  /-- Every row decodes. -/
  decodes : ∀ r ∈ T.rows, r.Decodes
  /-- `find` succeeds when its parameters are accepted. -/
  found : ∀ (base : Anchor) (key : SettingKey) (tenant : Tenant),
    (Stmt.find tenant.asStr key.asStr).accepted = true →
      ∃ settings, Repo.found base pg T key tenant = .ok settings
  /-- So does a search. -/
  searched : ∀ (base : Anchor) (query : String) (authority : Authority) (pagination : Pagination),
    (Stmt.search authority.tenant.asStr (pattern query) authority.user.asStr
      (authority.role == .admin) pagination.limit pagination.offset).accepted = true →
    ∃ page, ((Request.search query authority pagination).alone pg base T).1 =
      .ok (.page (some page))

/-- If every row decodes, every read succeeds. -/
theorem AllReadable.of_decodes {T : Table} (h : ∀ r ∈ T.rows, r.Decodes) : AllReadable pg T := by
  refine ⟨h, fun base key tenant ha => Repo.exists_found_iff.2 ⟨ha, fun r hr _ => h r hr base⟩, ?_⟩
  intro base query authority pagination ha
  rw [Request.alone, Request.prog_search, Prog.run_call, Prog.run_pure,
    Postgres.exec_of_accepted ha]
  simp only [Postgres.execAccepted, collectPage_joinTotal]
  have hpage : ∀ r ∈ pg.orderByKey (((pg.orderByKey (pg.visible authority.tenant.asStr
      (pattern query) authority.user.asStr (authority.role == .admin) T.rows)).drop
        pagination.offset).take pagination.limit), ∃ s, r.intoDomain base = .ok s := by
    intro r hr
    have hr := (pg.orderByKey_perm _).mem_iff.1 hr
    have hr := (pg.orderByKey_perm _).mem_iff.1 (List.mem_of_mem_drop (List.mem_of_mem_take hr))
    exact h r (List.mem_of_mem_filter hr) base
  obtain ⟨settings, hs⟩ := exists_mapM_ok_iff.2 hpage
  rw [hs]
  exact ⟨_, rfl⟩

/-- A statement that stores what fits keeps every row readable. -/
theorem decodes_of_change {T T' : Table} {c : Change Identity SettingRecord}
    (h : ∀ r ∈ T.rows, r.Decodes) (heff : Effective T.view c T'.view)
    (hc : ∀ r, c.content = some r → r.Decodes) : ∀ r ∈ T'.rows, r.Decodes := by
  intro r hr
  have hv : T'.view r.identity = some (r.version, r) :=
    Table.view_eq_some_iff.2 ⟨Table.row?_eq_some_iff.2 ⟨hr, rfl⟩, rfl⟩
  rcases (Run.nil.snoc heff).content_mem hv with hv | ⟨d, hd, hdr⟩
  · exact h r (Table.row?_eq_some_iff.1 (Table.view_eq_some_iff.1 hv).1).1
  · rw [List.nil_append, List.mem_singleton] at hd
    exact hc r (hd ▸ hdr)

/-- **Every interleaving of writes that store what fits keeps every row readable**, and in the
tables reached a write is readable or refused exactly when what it stores fits. -/
theorem allReadable_of_storesFit (pg : Postgres) (base : Anchor)
    (hobject : ∀ v, v.isObject = true → (pg.jsonb v).isObject = true) {reqs : List Write}
    {c : Snapshot Stmt Stmt.Ret Table Write Result}
    (hc : Reachable pg.exec (fun _ e => StoresFit pg e.op e.reply)
      (Snapshot.init Table.empty (Write.prog base) reqs) c) :
    AllReadable pg c.state ∧
      ∀ w, ReadableOrRefused pg base c.state w ↔ AloneFits pg base c.state w := by
  refine ⟨.of_decodes ?_, fun w => readableOrRefused_iff hobject⟩
  refine (Reachable.invariant (I := fun T _ => ∀ r ∈ T.rows, r.Decodes)
    (P := fun T hist _ p => Stage pg base p.req T hist p.mark p.prog)
    (by simp [Table.empty]) (fun _ _ _ => .start) ?_ hc).1
  intro T hist i p o k hI hp hk hG
  rw [hk] at hp
  refine ⟨?_, hp.step, fun j q _ hq => hq.frame⟩
  cases hch : o.change (pg.exec o T).1 with
  | none =>
      rw [Postgres.exec_of_no_change hch]
      exact hI
  | some d =>
      refine decodes_of_change hI (Postgres.effective_of_change hch) ?_
      obtain ⟨-, T₁, settings, plan, hfound, hplan, -, rfl⟩ := hp.of_change hch
      exact (hplan.decodes_iff hobject hfound hch).2 hG

/-! ### A write that is neither -/

/-- The text of an array of equal elements. -/
theorem utf8ByteSize_printElems_replicate (n : ℕ) (x : Json) :
    (Json.printElems (List.replicate n x)).utf8ByteSize = n * (x.size + 1) := by
  induction n with
  | zero => simp [Json.printElems]
  | succ n ih =>
      rw [List.replicate_succ, Json.printElems, String.utf8ByteSize_append,
        String.utf8ByteSize_append, ih, Json.size]
      have : ",".utf8ByteSize = 1 := by decide
      rw [this, Nat.add_one_mul]
      omega

theorem postgresJsonbElems_replicate (reread : Decimal → Decimal) (n : ℕ) (x : Json) :
    Json.postgresJsonbElems reread (List.replicate n x) =
      List.replicate n (x.postgresJsonb reread) := by
  induction n with
  | zero => rfl
  | succ n ih => rw [List.replicate_succ, Json.postgresJsonbElems, ih, List.replicate_succ]

/-- The number `1e+19`. -/
def tenTo19 : Json := .number (.float ⟨false, 1, 19, by decide⟩)

/-- An object with an array of `n + 1` equal elements. -/
def arrayOf (n : ℕ) (x : Json) : Json := .object [("a", .array (x :: List.replicate n x))]

/-- Its length: eight bytes around the elements, and the commas between them. -/
theorem size_arrayOf (n : ℕ) (x : Json) :
    (arrayOf n x).size = 8 + x.size + n * (x.size + 1) := by
  have hopen : "\x7b".utf8ByteSize = 1 := by decide
  have hclose : "\x7d".utf8ByteSize = 1 := by decide
  have hkey : (quote "a").utf8ByteSize = 3 := by decide
  have hcolon : ":".utf8ByteSize = 1 := by decide
  have hleft : "[".utf8ByteSize = 1 := by decide
  have hright : "]".utf8ByteSize = 1 := by decide
  have hnil : "".utf8ByteSize = 0 := by decide
  rw [Json.size, arrayOf, Json.print, Json.print, Json.printMembers]
  simp only [String.utf8ByteSize_append, utf8ByteSize_printElems_replicate, hopen, hclose, hkey,
    hcolon, hleft, hright, hnil]
  rw [← Json.size]
  omega

theorem isSortedElems_replicate {x : Json} (hx : x.isSorted = true) (n : ℕ) :
    Json.isSortedElems (List.replicate n x) = true := by
  induction n with
  | zero => rfl
  | succ n ih => rw [List.replicate_succ, Json.isSortedElems, hx, ih, Bool.and_self]

theorem isSorted_arrayOf {x : Json} (hx : x.isSorted = true) (n : ℕ) :
    (arrayOf n x).isSorted = true := by
  simp [arrayOf, Json.isSorted, Json.isSortedMembers, Json.isSortedElems, OrderedMap.Sorted, hx,
    isSortedElems_replicate hx]

/-- `{ "a": [1e+19, …] }` with four thousand elements. -/
def floats : Value := ⟨arrayOf 3999 tenTo19, isSorted_arrayOf rfl 3999⟩

/-- It is twenty-four thousand bytes long when it is sent. -/
theorem size_floats : floats.size = 24007 := by
  have h : tenTo19.size = 5 := by decide
  rw [Value.size, floats, size_arrayOf, h]

/-- It is eighty-four thousand bytes long when it comes back, however other floats are read. -/
theorem size_postgresJsonb_floats (reread : Decimal → Decimal) :
    (floats.postgresJsonb reread).size = 84007 := by
  have h : (tenTo19.postgresJsonb reread).size = 20 := by
    have hint : tenTo19.postgresJsonb reread = .number (.posInt (UInt64.ofNat (1 * 10 ^ 19))) := rfl
    rw [hint]
    decide
  have hb : (arrayOf 3999 tenTo19).postgresJsonb reread =
      arrayOf 3999 (tenTo19.postgresJsonb reread) := by
    simp only [arrayOf, Json.postgresJsonb, Json.postgresJsonbMembers, Json.postgresJsonbElems,
      postgresJsonbElems_replicate]
  change ((arrayOf 3999 tenTo19).postgresJsonb reread).size = 84007
  rw [hb, size_arrayOf, h]

theorem hasNulElems_replicate {x : Json} (hx : x.hasNul = false) (n : ℕ) :
    Json.hasNulElems (List.replicate n x) = false := by
  induction n with
  | zero => rfl
  | succ n ih => rw [List.replicate_succ, Json.hasNulElems, hx, ih, Bool.or_self]

theorem hasNul_arrayOf {x : Json} (hx : x.hasNul = false) (n : ℕ) :
    (arrayOf n x).hasNul = false := by
  have hkey : "a".toList.contains '\x00' = false := by decide
  simp only [arrayOf, Json.hasNul, Json.hasNulMembers, Json.hasNulElems, hkey, hx,
    hasNulElems_replicate hx, Bool.or_self]

theorem jsonbAccepted_floats : jsonbAccepted floats = true :=
  congrArg not (hasNul_arrayOf rfl 3999)

/-- A `JSONB` column gives back an object for an object. -/
theorem Value.isObject_postgresJsonb (reread : Decimal → Decimal) {v : Value}
    (h : v.isObject = true) : (v.postgresJsonb reread).isObject = true :=
  (Json.isObject_postgresJsonb reread v.json).trans h

open Sample in
/-- A `PUT` of a small value, and what holds of the table it leaves. -/
theorem allReadable_of_put :
    let pg := Postgres.ofJsonb (Value.postgresJsonb id)
    let c := (Snapshot.init Table.empty (Write.prog ⟨0, 0⟩)
      [.put theme dark alice none 0]).schedule pg.exec [0, 0]
    AllReadable pg c.state ∧
      ∀ w, ReadableOrRefused pg ⟨0, 0⟩ c.state w ↔ AloneFits pg ⟨0, 0⟩ c.state w :=
  allReadable_of_storesFit _ _ (fun _ => Value.isObject_postgresJsonb id)
    ((Reachable.refl.schedule _ _).of_hist (by decide +kernel))

open Sample in
/-- **A write that is neither readable nor refused**: the `PUT` of many large floats fails after its
row was stored. -/
theorem not_readableOrRefused :
    ¬ ∀ (reread : Decimal → Decimal) (pg : Postgres) (base : Anchor),
      (∀ v, pg.jsonb v = v.postgresJsonb reread) → ∀ (w : Write),
        ReadableOrRefused pg base Table.empty w := by
  intro h
  have hsmall : floats.size ≤ maxValueBytes := by
    rw [size_floats, maxValueBytes]
    omega
  have hfits := (readableOrRefused_iff fun _ => Value.isObject_postgresJsonb id).1
    (h id (Postgres.ofJsonb (Value.postgresJsonb id)) ⟨0, 0⟩ (fun _ => rfl)
      (.put theme ⟨floats, rfl, hsmall⟩ alice none 0))
  have hacc : (Stmt.insert "acme" (some "alice") "theme" floats 0).accepted = true := by
    rw [Stmt.accepted, jsonbAccepted_floats]
    decide
  have hfind : (Stmt.find "acme" "theme").accepted = true := by decide
  have hle := hfits [] (.insert ⟨theme, ⟨floats, rfl, hsmall⟩, alice.scopeOwnership, 1, 0⟩)
    (Repo.found_eq_ok_iff.2 ⟨hfind, rfl⟩) (.insert rfl rfl) floats rfl
    (Option.isSome_iff_exists.2 ⟨_, change_insert_iff.2 ⟨hacc, rfl, rfl⟩⟩)
  have hsize : ((Postgres.ofJsonb (Value.postgresJsonb id)).jsonb floats).size = 84007 :=
    size_postgresJsonb_floats id
  rw [hsize, maxValueBytes] at hle
  omega

end SettingsService
