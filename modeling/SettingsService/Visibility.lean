import SettingsService.Runs
import Mathlib.Data.List.Infix
import Mathlib.Data.Prod.Lex

/-!
# What an authority may read

The permission to read is written twice: `can_read` decides on the ownership a row decodes to, the
search selects rows by their columns.  Both select the same rows, and `get` shows one of them: the
tenant-scoped row of the key if the authority may read it, its own row otherwise.

Main definitions:

* `Table.Texts`, `Table.UsersNonempty`, `Table.Decodable` — what is asked of the rows of a table;
* `Authority.readableRows`, `SettingRecord.matchesQuery` — the rows an authority may read, and those
  a query is looking for;
* `Authority.shown` — the row `get` shows;
* `RevealsReadable` — reads reveal the rows that may be read, and `get` and `search` agree on them.

Main results:

* `visible_eq` — **the search sees what `can_read` admits**;
* `alone_get_eq` — what `get` returns;
* `reads_agree` — reads depend on nothing but the rows that may be read.
-/

set_option relaxedAutoImplicit false
set_option autoImplicit false

namespace SettingsService

open Interaction (Prog)

/-! ### Tables with rows that can be read -/

namespace Table

/-- The texts of a row are texts of Postgres. -/
def Texts (T : Table) : Prop :=
  ∀ r ∈ T.rows, textAccepted r.tenant = true ∧ textAccepted r.key = true

/-- The user column is `NULL` or not empty. -/
def UsersNonempty (T : Table) : Prop := ∀ r ∈ T.rows, r.user ≠ some ""

/-- Every row decodes. -/
def Decodable (base : Anchor) (T : Table) : Prop := ∀ r ∈ T.rows, ∃ s, r.intoDomain base = .ok s

instance (T : Table) : Decidable T.Texts := inferInstanceAs (Decidable (∀ r ∈ _, _))

instance (T : Table) : Decidable T.UsersNonempty := inferInstanceAs (Decidable (∀ r ∈ _, _))

end Table

/-- Where the user is `NULL` or not empty, the row is tenant-scoped exactly when it is `NULL`. -/
theorem SettingRecord.user_eq_none_iff {r : SettingRecord} (hr : r.user ≠ some "") :
    r.user = none ↔ r.ownership.user = none := by
  obtain ⟨tenant, user, key, value, version, updatedAt⟩ := r
  cases user with
  | none => simp [ownership, Ownership.forTenant]
  | some u =>
      have hu : u ≠ "" := fun hu => hr (congrArg some hu)
      simp [ownership, Ownership.forUser, hu]

/-- Where the user is `NULL` or not empty, it is the user of the ownership. -/
theorem SettingRecord.user_eq_some_iff {r : SettingRecord} (hr : r.user ≠ some "") {u : UserId} :
    r.user = some u.asStr ↔ r.ownership.user = some u := by
  obtain ⟨tenant, user, key, value, version, updatedAt⟩ := r
  cases user with
  | none => simp [ownership, Ownership.forTenant]
  | some u' =>
      have hu : u' ≠ "" := fun hu => hr (congrArg some hu)
      simp [ownership, Ownership.forUser, hu, UserId.ext_iff]

/-! ### The rows an authority may read -/

namespace Authority

variable {a : Authority} {T T' : Table}

/-- What an authority may read: its own entries, and as an admin the tenant-scoped ones. -/
theorem canRead_iff {o : Ownership} : a.canRead o = true ↔
    o = .forUser a.tenant a.user ∨ a.role = .admin ∧ o = .forTenant a.tenant := by
  obtain ⟨tenant, user⟩ := o
  rw [canRead, Ownership.forUser, Ownership.forTenant, Ownership.mk.injEq, Ownership.mk.injEq]
  by_cases ht : a.tenant = tenant
  · rw [if_neg (not_not.2 ht)]
    cases a.role with
    | user => simp [ht]
    | admin => simp [ht, or_comm]
  · simp [ht, Ne.symm ht]

/-- An authority reads in its own tenant only. -/
theorem tenant_of_canRead {o : Ownership} (h : a.canRead o = true) : o.tenant = a.tenant := by
  rcases canRead_iff.1 h with rfl | ⟨-, rfl⟩
  · rfl
  · rfl

/-- The rows an authority may read. -/
def readableRows (a : Authority) (T : Table) : List SettingRecord :=
  T.rows.filter fun r => a.canRead r.ownership

theorem mem_readableRows {r : SettingRecord} :
    r ∈ a.readableRows T ↔ r ∈ T.rows ∧ a.canRead r.ownership = true := by
  rw [readableRows, List.mem_filter]

/-- The row of a readable ownership is one of the readable rows. -/
theorem row?_eq_some_iff {o : Ownership} (ho : o.Stored) (hread : a.canRead o = true)
    {key : SettingKey} {r : SettingRecord} : T.row? (o.identity key.asStr) = some r ↔
      r ∈ a.readableRows T ∧ r.identity = o.identity key.asStr := by
  rw [Table.row?_eq_some_iff, mem_readableRows]
  constructor
  · rintro ⟨hr, hid⟩
    have hown : r.ownership = o :=
      (SettingRecord.ownership_eq_iff (Repo.under_of_identity hid).2).2 ⟨ho, hid⟩
    exact ⟨⟨hr, hown ▸ hread⟩, hid⟩
  · rintro ⟨⟨hr, -⟩, hid⟩
    exact ⟨hr, hid⟩

/-- The row of a readable ownership is the same in tables with the same readable rows. -/
theorem row?_congr (h : (a.readableRows T).Perm (a.readableRows T')) {o : Ownership}
    (ho : o.Stored) (hread : a.canRead o = true) (key : SettingKey) :
    T.row? (o.identity key.asStr) = T'.row? (o.identity key.asStr) := by
  refine Option.ext fun r => ?_
  rw [row?_eq_some_iff ho hread, row?_eq_some_iff ho hread, h.mem_iff]

/-- The row `get` shows to an authority: an admin sees the tenant-scoped row before its own. -/
def shown (a : Authority) (T : Table) (key : SettingKey) : Option SettingRecord :=
  match a.role with
  | .user => T.row? ((Ownership.forUser a.tenant a.user).identity key.asStr)
  | .admin => (T.row? ((Ownership.forTenant a.tenant).identity key.asStr)).or
      (T.row? ((Ownership.forUser a.tenant a.user).identity key.asStr))

theorem stored_forUser (ha : a.user ≠ ⟨""⟩) : (Ownership.forUser a.tenant a.user).Stored :=
  fun h => ha (Option.some.inj h)

theorem stored_forTenant (a : Authority) : (Ownership.forTenant a.tenant).Stored := by
  simp [Ownership.Stored, Ownership.forTenant]

/-- The row shown is the same in tables with the same readable rows. -/
theorem shown_congr (ha : a.user ≠ ⟨""⟩) (h : (a.readableRows T).Perm (a.readableRows T'))
    (key : SettingKey) : a.shown T key = a.shown T' key := by
  have hown := row?_congr h (stored_forUser ha) (canRead_iff.2 (.inl rfl)) key
  rw [shown, shown]
  cases hrole : a.role with
  | user => exact hown
  | admin =>
      have htenant := row?_congr h a.stored_forTenant (canRead_iff.2 (.inr ⟨hrole, rfl⟩)) key
      simp only [hown, htenant]

/-- A row is shown when there is a readable row under the key. -/
theorem isSome_shown_iff (ha : a.user ≠ ⟨""⟩) {key : SettingKey} :
    (a.shown T key).isSome = true ↔
      ∃ r ∈ T.rows, r.key = key.asStr ∧ a.canRead r.ownership = true := by
  have hrow : ∀ {o : Ownership}, o.Stored → ((T.row? (o.identity key.asStr)).isSome = true ↔
      ∃ r ∈ T.rows, r.key = key.asStr ∧ r.ownership = o) := by
    intro o ho
    rw [Option.isSome_iff_exists]
    refine exists_congr fun r => ?_
    rw [Table.row?_eq_some_iff]
    refine and_congr_right fun _ => ⟨fun hid => ?_, fun ⟨hkey, hown⟩ => ?_⟩
    · have hkey := (Repo.under_of_identity hid).2
      exact ⟨hkey, (SettingRecord.ownership_eq_iff hkey).2 ⟨ho, hid⟩⟩
    · exact ((SettingRecord.ownership_eq_iff hkey).1 hown).2
  have hor : ∀ r : SettingRecord, (r.key = key.asStr ∧ a.canRead r.ownership = true) ↔
      (a.role = .admin ∧ r.key = key.asStr ∧ r.ownership = .forTenant a.tenant) ∨
        (r.key = key.asStr ∧ r.ownership = .forUser a.tenant a.user) := by
    intro r
    rw [canRead_iff]
    tauto
  simp only [hor, and_or_left, exists_or, ← hrow (stored_forUser ha)]
  rw [shown]
  cases hrole : a.role with
  | user => simp
  | admin =>
      rw [Option.isSome_or, Bool.or_eq_true, hrow a.stored_forTenant]
      simp

end Authority

/-! ### The row `get` shows -/

section Sorting

variable {α : Type} {r Q : α → α → Prop} [DecidableRel r]

/-- Insertion keeps a transitive relation that follows from either outcome of the comparison. -/
theorem pairwise_orderedInsert (htrans : ∀ x y z, Q x y → Q y z → Q x z)
    (hpos : ∀ x y, r x y → Q x y) (hneg : ∀ x y, ¬ r x y → Q y x) (x : α) {l : List α}
    (hl : l.Pairwise Q) : (l.orderedInsert r x).Pairwise Q := by
  induction l with
  | nil => simp
  | cons y l ih =>
      obtain ⟨hy, hl'⟩ := List.pairwise_cons.1 hl
      rw [List.orderedInsert_cons]
      split_ifs with hxy
      · refine List.pairwise_cons.2 ⟨fun z hz => ?_, hl⟩
        rcases List.mem_cons.1 hz with rfl | hz
        · exact hpos x z hxy
        · exact htrans x y z (hpos x y hxy) (hy z hz)
      · refine List.pairwise_cons.2 ⟨fun z hz => ?_, ih hl'⟩
        rcases (List.mem_orderedInsert r).1 hz with rfl | hz
        · exact hneg z y hxy
        · exact hy z hz

theorem pairwise_insertionSort_of (htrans : ∀ x y z, Q x y → Q y z → Q x z)
    (hpos : ∀ x y, r x y → Q x y) (hneg : ∀ x y, ¬ r x y → Q y x) (l : List α) :
    (l.insertionSort r).Pairwise Q := by
  induction l with
  | nil => exact .nil
  | cons x l ih =>
      rw [List.insertionSort_cons]
      exact pairwise_orderedInsert htrans hpos hneg x ih

end Sorting

/-- What is found first in a list comes before the rest of what could have been found. -/
theorem eq_or_rel_of_find? {α : Type} {Q : α → α → Prop} {p : α → Bool} {l : List α}
    (hl : l.Pairwise Q) {x y : α} (hx : l.find? p = some x) (hy : y ∈ l) (hp : p y = true) :
    y = x ∨ Q x y := by
  obtain ⟨-, l₁, l₂, rfl, hbefore⟩ := List.find?_eq_some_iff_append.1 hx
  rw [List.pairwise_append, List.pairwise_cons] at hl
  rw [List.mem_append, List.mem_cons] at hy
  rcases hy with hy | hy | hy
  · have := hbefore y hy
    simp [hp] at this
  · exact .inl hy
  · exact .inr (hl.2.1.1 y hy)

/-- The first result of a loop that meets a condition is that of the first step that does. -/
theorem find?_mapM {ε α β : Type} {f : α → Except ε β} {p : β → Bool} {q : α → Bool}
    (hpq : ∀ x y, f x = .ok y → p y = q x) {xs : List α} {ys : List β}
    (h : xs.mapM f = .ok ys) : (ys.find? p = none ↔ xs.find? q = none) ∧
      ∀ x, xs.find? q = some x → ∃ y, f x = .ok y ∧ ys.find? p = some y := by
  induction xs generalizing ys with
  | nil =>
      obtain rfl := mapM_nil_eq_ok_iff.1 h
      simp
  | cons x xs ih =>
      obtain ⟨y, ys', hx, hxs, rfl⟩ := mapM_cons_eq_ok_iff.1 h
      obtain ⟨hnone, hsome⟩ := ih hxs
      rw [List.find?_cons, List.find?_cons, hpq x y hx]
      cases hq : q x with
      | true =>
          refine ⟨by simp, fun x' hx' => ?_⟩
          obtain rfl : x = x' := by simpa using hx'
          exact ⟨y, hx, rfl⟩
      | false => exact ⟨hnone, hsome⟩

theorem isEmpty_mapM {ε α β : Type} {f : α → Except ε β} {xs : List α} {ys : List β}
    (h : xs.mapM f = .ok ys) : ys.isEmpty = xs.isEmpty := by
  cases xs with
  | nil =>
      obtain rfl := mapM_nil_eq_ok_iff.1 h
      rfl
  | cons x xs =>
      obtain ⟨y, ys', -, -, rfl⟩ := mapM_cons_eq_ok_iff.1 h
      rfl

section Get

variable {pg : Postgres} {base : Anchor} {a : Authority} {T : Table} {key : SettingKey}

/-- `find` puts the row without a user first. -/
theorem Repo.pairwise_selected (tenant : Tenant) :
    (selected pg T key tenant).Pairwise fun r r' => r'.user = none → r.user = none := by
  have hnulls : ∀ r r', r.user = none → pg.nullsFirst r r' := by
    intro r r' h
    rw [Postgres.nullsFirst, h]
    trivial
  refine pairwise_insertionSort_of (fun x y z hxy hyz hz => hxy (hyz hz)) (fun x y hxy hy => ?_)
    (fun x y hxy hx => absurd (hnulls x y hx) hxy) _
  cases hx : x.user with
  | none => rfl
  | some u =>
      rw [Postgres.nullsFirst, hx, hy] at hxy
      exact hxy.elim

/-- **The first readable row `find` selects is the one shown.** -/
theorem Repo.find?_selected (ha : a.user ≠ ⟨""⟩) (hT : T.UsersNonempty) :
    ((selected pg T key a.tenant).find? fun r => a.canRead r.ownership) = a.shown T key := by
  cases hf : (selected pg T key a.tenant).find? fun r => a.canRead r.ownership with
  | none =>
      rw [List.find?_eq_none] at hf
      refine (Option.not_isSome_iff_eq_none.1 fun hs => ?_).symm
      obtain ⟨r, hr, hkey, hread⟩ := (Authority.isSome_shown_iff ha).1 hs
      have htenant : r.tenant = a.tenant.asStr := by
        have := Authority.tenant_of_canRead hread
        rw [SettingRecord.tenant_ownership] at this
        exact congrArg Tenant.asStr this
      exact hf r (mem_selected.2 ⟨hr, htenant, hkey⟩) hread
  | some r =>
      have hread : a.canRead r.ownership = true := by simpa using List.find?_some hf
      have hsel : r ∈ selected pg T key a.tenant := List.mem_of_find?_eq_some hf
      obtain ⟨hmem, hunder⟩ := mem_selected.1 hsel
      have hrow : ∀ {o : Ownership}, r.ownership = o → T.row? (o.identity key.asStr) = some r :=
        fun ho => Table.row?_eq_some_iff.2
          ⟨hmem, ((SettingRecord.ownership_eq_iff hunder.2).1 ho).2⟩
      rw [Authority.shown]
      rcases Authority.canRead_iff.1 hread with ho | ⟨hrole, ho⟩
      · cases hrole : a.role with
        | user => exact (hrow ho).symm
        | admin =>
            -- a tenant-scoped row is readable and would come first
            have hnone : T.row? ((Ownership.forTenant a.tenant).identity key.asStr) = none := by
              refine Option.eq_none_iff_forall_ne_some.2 fun r₀ hr₀ => ?_
              obtain ⟨hmem₀, hid₀⟩ := Table.row?_eq_some_iff.1 hr₀
              have hunder₀ := under_of_identity hid₀
              have ho₀ : r₀.ownership = .forTenant a.tenant :=
                (SettingRecord.ownership_eq_iff hunder₀.2).2 ⟨a.stored_forTenant, hid₀⟩
              have hfirst := eq_or_rel_of_find? (pairwise_selected a.tenant) hf
                (mem_selected.2 ⟨hmem₀, hunder₀⟩) (Authority.canRead_iff.2 (.inr ⟨hrole, ho₀⟩))
              have huser : r.ownership.user = none := by
                rcases hfirst with rfl | huser
                · rw [ho₀]
                  rfl
                · rw [SettingRecord.user_eq_none_iff (hT r₀ hmem₀),
                    SettingRecord.user_eq_none_iff (hT r hmem)] at huser
                  exact huser (ho₀ ▸ rfl)
              rw [ho] at huser
              exact absurd huser (by simp [Ownership.forUser])
            rw [hnone, Option.none_or, hrow ho]
      · rw [hrole, hrow ho, Option.some_or]

/-- The ownership of a setting is that of its row. -/
theorem SettingRecord.ownership_of_intoDomain {r : SettingRecord} {s : Setting}
    (h : r.intoDomain base = .ok s) : s.ownership = r.ownership := by
  obtain ⟨_, _, -, -, rfl⟩ := intoDomain_eq_ok_iff.1 h
  rfl

/-- **What `get` makes of the settings found**: the row shown, or one of two errors if there is
none. -/
theorem readable_found (ha : a.user ≠ ⟨""⟩) (hT : T.UsersNonempty) {settings : List Setting}
    (hfound : Repo.found base pg T key a.tenant = .ok settings) :
    Service.readable a settings = match a.shown T key with
      | some r => r.intoDomain base
      | none => .error
          (if (Repo.selected pg T key a.tenant).isEmpty then .notFound else .forbidden) := by
  have hmap := (Repo.found_eq_ok_iff.1 hfound).2
  have hcan : ∀ (r : SettingRecord) (s : Setting), r.intoDomain base = .ok s →
      a.canRead s.ownership = a.canRead r.ownership :=
    fun r s hs => by rw [SettingRecord.ownership_of_intoDomain hs]
  obtain ⟨hnone, hsome⟩ := find?_mapM hcan hmap
  have hempty := isEmpty_mapM hmap
  rw [Repo.find?_selected ha hT] at hnone hsome
  rw [Service.readable, hempty]
  cases hs : a.shown T key with
  | none =>
      rw [hnone.2 hs]
      split_ifs <;> rfl
  | some r =>
      obtain ⟨s, hdec, hfind⟩ := hsome r hs
      have hne : ¬ (Repo.selected pg T key a.tenant).isEmpty = true := by
        intro he
        rw [← hempty, List.isEmpty_iff] at he
        simp [he] at hfind
      rw [if_neg hne, hfind]
      exact hdec.symm

/-- A `get` that succeeds has read the rows of the key and returns the row shown. -/
theorem shown_of_alone_get (ha : a.user ≠ ⟨""⟩) (hT : T.UsersNonempty) {reply : Reply}
    (h : ((Request.get key a).alone pg base T).1 = .ok reply) :
    ∃ settings r s, Repo.found base pg T key a.tenant = .ok settings ∧ a.shown T key = some r ∧
      r.intoDomain base = .ok s ∧ reply = .setting s := by
  rw [Request.alone_get] at h
  cases hfound : Repo.found base pg T key a.tenant with
  | error e => simp [hfound, bind, Except.bind, Except.map] at h
  | ok settings =>
      rw [hfound] at h
      change (Service.readable a settings).map Reply.setting = .ok reply at h
      rw [readable_found ha hT hfound] at h
      cases hs : a.shown T key with
      | none => simp [hs, Except.map] at h
      | some r =>
          cases hr : r.intoDomain base with
          | error e => simp [hs, hr, Except.map] at h
          | ok s =>
              simp only [hs, hr, Except.map, Except.ok.injEq] at h
              exact ⟨settings, r, s, rfl, rfl, hr, h.symm⟩

/-- **What `get` returns** when all rows decode. -/
theorem alone_get_eq (ha : a.user ≠ ⟨""⟩) (hT : T.UsersNonempty) (hdec : T.Decodable base)
    (hacc : (Stmt.find a.tenant.asStr key.asStr).accepted = true) :
    ((Request.get key a).alone pg base T).1 = match a.shown T key with
      | some r => (r.intoDomain base).map .setting
      | none => .error
          (if (Repo.selected pg T key a.tenant).isEmpty then .notFound else .forbidden) := by
  obtain ⟨settings, hfound⟩ : ∃ settings, Repo.found base pg T key a.tenant = .ok settings :=
    Repo.exists_found_iff.2 ⟨hacc, fun r hr _ => hdec r hr⟩
  rw [Request.alone_get, hfound]
  change (Service.readable a settings).map Reply.setting = _
  rw [readable_found ha hT hfound]
  cases a.shown T key with
  | none => rfl
  | some r => rfl

end Get

/-! ### The rows the search sees -/

/-- A row matches a query by its key or by the text of its value. -/
def SettingRecord.matchesQuery (pg : Postgres) (query : String) (r : SettingRecord) : Bool :=
  ilike (pattern query).toList r.key.toList ||
    ilike (pattern query).toList (pg.jsonbText r.value).toList

/-- Every row matches the empty query. -/
theorem SettingRecord.matchesQuery_empty (pg : Postgres) (r : SettingRecord) :
    r.matchesQuery pg "" = true := by
  have hpattern : (pattern "").toList = ['%', '%'] := rfl
  have hany : ∀ s, ilike ['%', '%'] s = true := by
    intro s
    have hrest : ilike ['%'] s = true := by
      rw [ilike, List.any_eq_true]
      exact ⟨[], (List.mem_tails _ _).2 List.nil_suffix, rfl⟩
    rw [ilike, List.any_eq_true]
    exact ⟨s, (List.mem_tails _ _).2 (List.suffix_refl s), hrest⟩
  rw [matchesQuery, hpattern, hany, Bool.true_or]

section Search

variable {pg : Postgres} {base : Anchor} {a : Authority} {T T' : Table}

/-- The rows the search of an authority sees. -/
def Authority.visibleRows (pg : Postgres) (a : Authority) (query : String) (T : Table) :
    List SettingRecord :=
  pg.visible a.tenant.asStr (pattern query) a.user.asStr (a.role == .admin) T.rows

/-- **The search sees what `can_read` admits**, of the rows that match. -/
theorem visible_eq (hT : T.UsersNonempty) (query : String) :
    a.visibleRows pg query T = (a.readableRows T).filter (SettingRecord.matchesQuery pg query) := by
  rw [Authority.visibleRows, Postgres.visible, Authority.readableRows, List.filter_filter]
  refine List.filter_congr fun r hr => ?_
  have hown : r.ownership = ⟨⟨r.tenant⟩, r.ownership.user⟩ := by
    rw [Ownership.ext_iff]
    exact ⟨r.tenant_ownership, rfl⟩
  have hread : a.canRead r.ownership = (r.tenant == a.tenant.asStr &&
      (r.user == some a.user.asStr || a.role == .admin && r.user.isNone)) := by
    rw [Bool.eq_iff_iff, Authority.canRead_iff, Bool.and_eq_true, Bool.or_eq_true, Bool.and_eq_true,
      beq_iff_eq, beq_iff_eq, beq_iff_eq, Option.isNone_iff_eq_none,
      SettingRecord.user_eq_some_iff (hT r hr), SettingRecord.user_eq_none_iff (hT r hr)]
    rw [hown, Ownership.forUser, Ownership.forTenant, Ownership.mk.injEq, Ownership.mk.injEq,
      Tenant.ext_iff]
    tauto
  rw [hread, SettingRecord.matchesQuery]
  cases r.tenant == a.tenant.asStr <;> simp [Bool.and_comm]

/-- `search` alone is what its loop makes of the answer to its statement. -/
theorem alone_search_fst (query : String) (pagination : Pagination) :
    ((Request.search query a pagination).alone pg base T).1 =
      match (pg.exec (.search a.tenant.asStr (pattern query) a.user.asStr (a.role == .admin)
        pagination.limit pagination.offset) T).1 with
      | .ok rows => (collectPage base rows ⟨[], 0⟩).map Reply.page
      | .error e => .error (mapPgErr e) := by
  rw [Request.alone, Request.prog_search, Prog.run_call, Prog.run_pure]
  cases (pg.exec (.search a.tenant.asStr (pattern query) a.user.asStr (a.role == .admin)
    pagination.limit pagination.offset) T).1 with
  | error e => rfl
  | ok rows => rfl

/-- `search` alone, when Postgres accepts its texts. -/
theorem alone_search_eq (query : String) (pagination : Pagination)
    (hacc : (Stmt.search a.tenant.asStr (pattern query) a.user.asStr (a.role == .admin)
      pagination.limit pagination.offset).accepted = true) :
    ((Request.search query a pagination).alone pg base T).1 =
      ((pg.orderByKey (((pg.orderByKey (a.visibleRows pg query T)).drop
        pagination.offset).take pagination.limit)).mapM (SettingRecord.intoDomain base)).map
          fun ss => Reply.page (some ⟨ss, (a.visibleRows pg query T).length⟩) := by
  rw [alone_search_fst, Postgres.exec_of_accepted hacc]
  change (collectPage base (pg.joinTotal (a.visibleRows pg query T).length
    (((pg.orderByKey (a.visibleRows pg query T)).drop pagination.offset).take
      pagination.limit)) ⟨[], 0⟩).map Reply.page = _
  rw [collectPage_joinTotal]
  cases (pg.orderByKey (((pg.orderByKey (a.visibleRows pg query T)).drop
    pagination.offset).take pagination.limit)).mapM (SettingRecord.intoDomain base) with
  | error e => rfl
  | ok ss => rfl

end Search

/-! ### Reads reveal what may be read -/

/-- The same rows are put in the same order, whatever order they come in. -/
def Postgres.OrdersRows (pg : Postgres) : Prop :=
  ∀ rs rs' : List SettingRecord, (rs.map SettingRecord.identity).Nodup → rs.Perm rs' →
    pg.orderByKey rs = pg.orderByKey rs'

/-- **Reads reveal the rows an authority may read**, and `get` and `search` agree on them. -/
structure RevealsReadable (pg : Postgres) (base : Anchor) (a : Authority) (T : Table) : Prop where
  /-- The visible rows are the readable rows that match. -/
  visible : ∀ query, a.visibleRows pg query T =
    T.rows.filter fun r => a.canRead r.ownership && r.matchesQuery pg query
  /-- Decoded, they are the settings that may be read and whose row matches. -/
  decoded : ∀ query s, (∃ r ∈ a.visibleRows pg query T, r.intoDomain base = .ok s) ↔
    a.canRead s.ownership = true ∧
      ∃ r ∈ T.rows, r.matchesQuery pg query = true ∧ r.intoDomain base = .ok s
  /-- A search counts the visible rows and returns a page of them. -/
  search : ∀ query pagination, (Stmt.search a.tenant.asStr (pattern query) a.user.asStr
      (a.role == .admin) pagination.limit pagination.offset).accepted = true → ∃ page,
    ((Request.search query a pagination).alone pg base T).1 = .ok (.page (some page)) ∧
      page.total = (a.visibleRows pg query T).length ∧
      (pg.orderByKey (((pg.orderByKey (a.visibleRows pg query T)).drop
        pagination.offset).take pagination.limit)).mapM (SettingRecord.intoDomain base) =
          .ok page.rows
  /-- A `get` succeeds exactly when there is a readable row under the key. -/
  get_iff : ∀ key, (∃ reply, ((Request.get key a).alone pg base T).1 = .ok reply) ↔
    ∃ r ∈ T.rows, r.key = key.asStr ∧ a.canRead r.ownership = true
  /-- It returns such a row, which the search for the empty query sees. -/
  get_mem : ∀ key reply, ((Request.get key a).alone pg base T).1 = .ok reply →
    ∃ s, reply = .setting s ∧ s.key = key ∧ a.canRead s.ownership = true ∧
      ∃ r ∈ a.visibleRows pg "" T, r.intoDomain base = .ok s

/-- **Two tables read the same**: a search returns the same, and a `get` too, except that with no
readable row under the key it may be `NotFound` in one and `Forbidden` in the other. -/
structure ReadsSame (pg : Postgres) (base : Anchor) (a : Authority) (T T' : Table) : Prop where
  search : ∀ query pagination, ((Request.search query a pagination).alone pg base T).1 =
    ((Request.search query a pagination).alone pg base T').1
  get : ∀ key, ((Request.get key a).alone pg base T).1 = ((Request.get key a).alone pg base T').1 ∨
    (∀ r ∈ T.rows, r.key = key.asStr → a.canRead r.ownership = false) ∧
      (∀ r ∈ T'.rows, r.key = key.asStr → a.canRead r.ownership = false) ∧
      (((Request.get key a).alone pg base T).1 = .error .notFound ∨
        ((Request.get key a).alone pg base T).1 = .error .forbidden) ∧
      (((Request.get key a).alone pg base T').1 = .error .notFound ∨
        ((Request.get key a).alone pg base T').1 = .error .forbidden)

section Agree

variable {pg : Postgres} {base : Anchor} {a : Authority} {T T' : Table}

/-- A key and tenant with a row are accepted. -/
theorem Table.Texts.accepted_find (hT : T.Texts) {key : SettingKey} {r : SettingRecord}
    (hr : r ∈ T.rows) (hkey : r.key = key.asStr) (hread : a.canRead r.ownership = true) :
    (Stmt.find a.tenant.asStr key.asStr).accepted = true := by
  obtain ⟨htenant, htext⟩ := hT r hr
  have ht := Authority.tenant_of_canRead hread
  rw [SettingRecord.tenant_ownership] at ht
  rw [Stmt.accepted, ← ht, ← hkey, htenant, htext]
  rfl

/-- Where Postgres refuses the texts of a `get`, it fails. -/
theorem alone_get_of_not_accepted {key : SettingKey}
    (hacc : ¬ (Stmt.find a.tenant.asStr key.asStr).accepted = true) :
    ((Request.get key a).alone pg base T).1 = .error .internal := by
  rw [Request.alone_get, Repo.found, Postgres.exec_of_not_accepted hacc]
  rfl

/-- A row that is shown is readable and under the key. -/
theorem Authority.mem_of_shown (ha : a.user ≠ ⟨""⟩) {key : SettingKey} {r : SettingRecord}
    (h : a.shown T key = some r) : r ∈ a.readableRows T ∧ r.key = key.asStr := by
  have hrow : ∀ {o : Ownership}, o.Stored → a.canRead o = true →
      T.row? (o.identity key.asStr) = some r → r ∈ a.readableRows T ∧ r.key = key.asStr := by
    intro o ho hread hr
    obtain ⟨hmem, hid⟩ := (row?_eq_some_iff ho hread).1 hr
    exact ⟨hmem, (Repo.under_of_identity hid).2⟩
  have hown := hrow (stored_forUser ha) (canRead_iff.2 (.inl rfl))
  rw [shown] at h
  cases hrole : a.role with
  | user =>
      rw [hrole] at h
      exact hown h
  | admin =>
      rw [hrole] at h
      rcases Option.or_eq_some_iff.1 h with h | ⟨-, h⟩
      · exact hrow a.stored_forTenant (canRead_iff.2 (.inr ⟨hrole, rfl⟩)) h
      · exact hown h

/-- Without a readable row under the key, `get` fails with one of two errors. -/
theorem alone_get_of_not_shown (ha : a.user ≠ ⟨""⟩) (husers : T.UsersNonempty)
    (hdec : T.Decodable base) {key : SettingKey}
    (hacc : (Stmt.find a.tenant.asStr key.asStr).accepted = true) (hs : a.shown T key = none) :
    ((Request.get key a).alone pg base T).1 = .error .notFound ∨
      ((Request.get key a).alone pg base T).1 = .error .forbidden := by
  rw [alone_get_eq ha husers hdec hacc, hs]
  dsimp only
  split_ifs
  · exact .inl rfl
  · exact .inr rfl

/-- Where no row is shown, none is readable. -/
theorem Authority.canRead_eq_false_of_not_shown (ha : a.user ≠ ⟨""⟩) {key : SettingKey}
    (hs : a.shown T key = none) :
    ∀ r ∈ T.rows, r.key = key.asStr → a.canRead r.ownership = false := by
  intro r hr hkey
  rw [Bool.eq_false_iff]
  intro hread
  have := (isSome_shown_iff ha).2 ⟨r, hr, hkey, hread⟩
  simp [hs] at this

/-- A `get` succeeds with the row shown. -/
theorem alone_get_eq_ok_iff (ha : a.user ≠ ⟨""⟩) (htexts : T.Texts) (husers : T.UsersNonempty)
    (hdec : T.Decodable base) {key : SettingKey} {reply : Reply} :
    ((Request.get key a).alone pg base T).1 = .ok reply ↔
      ∃ r s, a.shown T key = some r ∧ r.intoDomain base = .ok s ∧ reply = .setting s := by
  constructor
  · intro h
    obtain ⟨-, r, s, -, hrs⟩ := shown_of_alone_get ha husers h
    exact ⟨r, s, hrs⟩
  · rintro ⟨r, s, hs, hr, rfl⟩
    obtain ⟨hmem, hkey⟩ := Authority.mem_of_shown ha hs
    obtain ⟨hmem, hread⟩ := Authority.mem_readableRows.1 hmem
    rw [alone_get_eq ha husers hdec (htexts.accepted_find hmem hkey hread), hs]
    change (r.intoDomain base).map Reply.setting = _
    rw [hr]
    rfl

theorem revealsReadable (pg : Postgres) (ha : a.user ≠ ⟨""⟩) (htexts : T.Texts)
    (husers : T.UsersNonempty) (hdec : T.Decodable base) : RevealsReadable pg base a T := by
  have hvisible : ∀ query r, r ∈ a.visibleRows pg query T ↔
      (r ∈ T.rows ∧ a.canRead r.ownership = true) ∧ r.matchesQuery pg query = true := by
    intro query r
    rw [visible_eq husers, List.mem_filter, Authority.mem_readableRows]
  constructor
  case visible =>
    intro query
    rw [visible_eq husers, Authority.readableRows, List.filter_filter]
    exact List.filter_congr fun r _ => Bool.and_comm _ _
  case decoded =>
    intro query s
    constructor
    · rintro ⟨r, hr, hs⟩
      obtain ⟨⟨hmem, hread⟩, hmatch⟩ := (hvisible query r).1 hr
      exact ⟨SettingRecord.ownership_of_intoDomain hs ▸ hread, r, hmem, hmatch, hs⟩
    · rintro ⟨hread, r, hmem, hmatch, hs⟩
      rw [SettingRecord.ownership_of_intoDomain hs] at hread
      exact ⟨r, (hvisible query r).2 ⟨⟨hmem, hread⟩, hmatch⟩, hs⟩
  case search =>
    intro query pagination hacc
    have hpage : ∀ r ∈ pg.orderByKey (((pg.orderByKey (a.visibleRows pg query T)).drop
        pagination.offset).take pagination.limit), ∃ s, r.intoDomain base = .ok s := by
      intro r hr
      have hr := (pg.orderByKey_perm _).mem_iff.1 hr
      have hr := List.mem_of_mem_drop (List.mem_of_mem_take hr)
      have hr := (pg.orderByKey_perm _).mem_iff.1 hr
      exact hdec r ((hvisible query r).1 hr).1.1
    obtain ⟨ss, hss⟩ := exists_mapM_ok_iff.2 hpage
    exact ⟨⟨ss, _⟩, by rw [alone_search_eq query pagination hacc, hss]; rfl, rfl, hss⟩
  case get_iff =>
    intro key
    simp only [alone_get_eq_ok_iff ha htexts husers hdec, ← Authority.isSome_shown_iff ha]
    rw [Option.isSome_iff_exists]
    constructor
    · rintro ⟨-, r, -, hs, -, -⟩
      exact ⟨r, hs⟩
    · rintro ⟨r, hs⟩
      obtain ⟨hmem, -⟩ := Authority.mem_of_shown ha hs
      obtain ⟨s, hr⟩ := hdec r (Authority.mem_readableRows.1 hmem).1
      exact ⟨.setting s, r, s, hs, hr, rfl⟩
  case get_mem =>
    intro key reply h
    obtain ⟨r, s, hs, hr, rfl⟩ := (alone_get_eq_ok_iff ha htexts husers hdec).1 h
    obtain ⟨hmem, hkey⟩ := Authority.mem_of_shown ha hs
    obtain ⟨hmem, hread⟩ := Authority.mem_readableRows.1 hmem
    refine ⟨s, rfl, ?_, SettingRecord.ownership_of_intoDomain hr ▸ hread, r, ?_, hr⟩
    · exact SettingRecord.key_of_intoDomain hkey hr
    · exact (hvisible "" r).2 ⟨⟨hmem, hread⟩, r.matchesQuery_empty pg⟩

theorem readsSame (ha : a.user ≠ ⟨""⟩) (horder : pg.OrdersRows) (husers : T.UsersNonempty)
    (hdec : T.Decodable base) (husers' : T'.UsersNonempty) (hdec' : T'.Decodable base)
    (h : (a.readableRows T).Perm (a.readableRows T')) : ReadsSame pg base a T T' := by
  constructor
  case search =>
    intro query pagination
    by_cases hacc : (Stmt.search a.tenant.asStr (pattern query) a.user.asStr (a.role == .admin)
      pagination.limit pagination.offset).accepted = true
    · have hperm : (a.visibleRows pg query T).Perm (a.visibleRows pg query T') := by
        rw [visible_eq husers, visible_eq husers']
        exact h.filter _
      have hnodup : ((a.visibleRows pg query T).map SettingRecord.identity).Nodup := by
        rw [visible_eq husers]
        exact T.unique.sublist
          (List.Sublist.map _ (List.filter_sublist.trans List.filter_sublist))
      rw [alone_search_eq query pagination hacc, alone_search_eq query pagination hacc,
        horder _ _ hnodup hperm, hperm.length_eq]
    · have hrefused : ∀ T : Table, ((Request.search query a pagination).alone pg base T).1 =
          .error .internal := by
        intro T
        rw [alone_search_fst, Postgres.exec_of_not_accepted hacc]
        rfl
      rw [hrefused, hrefused]
  case get =>
    intro key
    by_cases hacc : (Stmt.find a.tenant.asStr key.asStr).accepted = true
    · have hshown := Authority.shown_congr ha h key
      cases hs : a.shown T key with
      | none =>
          have hs' : a.shown T' key = none := hshown.symm.trans hs
          exact .inr ⟨Authority.canRead_eq_false_of_not_shown ha hs,
            Authority.canRead_eq_false_of_not_shown ha hs',
            alone_get_of_not_shown ha husers hdec hacc hs,
            alone_get_of_not_shown ha husers' hdec' hacc hs'⟩
      | some r =>
          left
          rw [alone_get_eq ha husers hdec hacc, alone_get_eq ha husers' hdec' hacc, ← hshown, hs]
    · left
      rw [alone_get_of_not_accepted hacc, alone_get_of_not_accepted hacc]

/-- **Reads reveal only what the authority may read**, and depend on nothing else. -/
theorem reads_agree (pg : Postgres) (base : Anchor) {a : Authority} (ha : a.user ≠ ⟨""⟩) :
    (∀ T : Table, T.Texts → T.UsersNonempty → T.Decodable base → RevealsReadable pg base a T) ∧
      (pg.OrdersRows → ∀ T T' : Table, T.UsersNonempty → T.Decodable base → T'.UsersNonempty →
        T'.Decodable base → (a.readableRows T).Perm (a.readableRows T') →
          ReadsSame pg base a T T') :=
  ⟨fun _ htexts husers hdec => revealsReadable pg ha htexts husers hdec,
    fun horder _ _ husers hdec husers' hdec' h =>
      readsSame ha horder husers hdec husers' hdec' h⟩

end Agree

/-! ### A Postgres that orders rows alike, and tables for it -/

/-- What rows are ordered by: the key, then the rest of the identity. -/
def SettingRecord.orderKey (r : SettingRecord) : String ×ₗ String ×ₗ String :=
  toLex (r.key, toLex (r.tenant, r.user.getD ""))

/-- Rows with one order key have one identity. -/
theorem SettingRecord.identity_eq_of_orderKey {r r' : SettingRecord}
    (h : r.orderKey = r'.orderKey) : r.identity = r'.identity := by
  have h₁ := congrArg (fun x => (ofLex x).1) h
  have h₂ := congrArg (fun x => ofLex (ofLex x).2) h
  simp only [orderKey, ofLex_toLex, Prod.mk.injEq] at h₁ h₂
  rw [identity, identity, h₁, h₂.1, h₂.2]

/-- A Postgres that breaks ties between equal keys by the rest of the identity. -/
def Postgres.byIdentity (jsonb : Value → Value) : Postgres :=
  { Postgres.ofJsonb jsonb with
    orderByKey := fun rs => rs.insertionSort fun r r' => r.orderKey ≤ r'.orderKey
    orderByKey_perm := fun rs => List.perm_insertionSort _ rs }

theorem Postgres.ordersRows_byIdentity (jsonb : Value → Value) :
    (Postgres.byIdentity jsonb).OrdersRows := by
  intro rs rs' hnodup hperm
  have hsorted : ∀ rs : List SettingRecord,
      ((Postgres.byIdentity jsonb).orderByKey rs).Pairwise fun r r' => r.orderKey ≤ r'.orderKey :=
    pairwise_insertionSort_of (fun _ _ _ h h' => le_trans h h') (fun _ _ h => h)
      fun _ _ h => le_of_lt (not_le.1 h)
  have hmem := fun rs => ((Postgres.byIdentity jsonb).orderByKey_perm rs)
  refine List.Perm.eq_of_pairwise (fun r r' hr hr' h h' => ?_) (hsorted rs) (hsorted rs')
    ((hmem rs).trans (hperm.trans (hmem rs').symm))
  have hid := SettingRecord.identity_eq_of_orderKey (le_antisymm h h')
  exact List.inj_on_of_nodup_map hnodup ((hmem rs).mem_iff.1 hr)
    (hperm.mem_iff.2 ((hmem rs').mem_iff.1 hr')) hid

namespace Sample

/-- The row of the key `theme` of a user of the tenant `acme`. -/
def themeOf (user : Option String) : SettingRecord := ⟨"acme", user, theme.asStr, dark.value, 1, 0⟩

/-- A table of such rows. -/
def themes (users : List (Option String)) (h : (users.map (·.getD "")).Nodup) : Table where
  rows := users.map themeOf
  unique := by
    rw [List.map_map]
    refine List.Nodup.of_map (fun id : Identity => id.2.1) ?_
    rwa [List.map_map]
  range := by
    intro r hr
    obtain ⟨user, -, rfl⟩ := List.mem_map.1 hr
    change -i32Max - 1 ≤ 1 ∧ 1 ≤ i32Max
    decide

theorem decodable_themes (base : Anchor) (users : List (Option String))
    (h : (users.map (·.getD "")).Nodup) : (themes users h).Decodable base := by
  intro r hr
  obtain ⟨user, -, rfl⟩ := List.mem_map.1 hr
  exact ⟨_, SettingRecord.intoDomain_eq_ok_iff.2
    ⟨theme, dark, SettingKey.new_asStr theme, SettingValue.new_value dark, rfl⟩⟩

end Sample

open Sample in
/-- Two tables with the row of Alice, one with a row of Bob and one with a tenant-scoped row. -/
theorem reads_agree_alice :
    let T := themes [some "bob", some "alice"] (by decide)
    let T' := themes [none, some "alice"] (by decide)
    RevealsReadable (Postgres.byIdentity id) ⟨0, 0⟩ alice T ∧
      ReadsSame (Postgres.byIdentity id) ⟨0, 0⟩ alice T T' := by
  have h := reads_agree (Postgres.byIdentity id) ⟨0, 0⟩ (show alice.user ≠ ⟨""⟩ by decide)
  refine ⟨h.1 _ (by decide) (by decide) (decodable_themes _ _ _), ?_⟩
  exact h.2 (Postgres.ordersRows_byIdentity id) _ _ (by decide) (decodable_themes _ _ _) (by decide)
    (decodable_themes _ _ _) (.refl _)

end SettingsService
