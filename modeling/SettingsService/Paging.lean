import SettingsService.ReadWrite
import SettingsService.Slices

/-!
# Paging through a search

A client pages through a search with one request for each page.  Each is a statement of its own, and
a statement may order rows with equal keys in any way.  An admin can see two rows under one key, the
tenant-scoped one and its own from when it was a user; if a page ends between them, one of the two
can be returned twice and the other not at all.

Main definitions:

* `Postgres.Sorts`, `Postgres.SortsLike` — an `ORDER BY key`, and one that differs in the order of
  rows with equal keys;
* `PagesOnce` — the pages return every visible row once.

Main results:

* `classesUncut_of_role` — a principal whose role never changed sees no two rows under one key;
* `pagesOnce_iff` — **paging returns every visible row once exactly when** no page ends between two
  rows with the same key, of the queries Postgres takes and the rows that decode;
* `not_pagesOnce` — an admin that is shown one row twice.
-/

set_option relaxedAutoImplicit false
set_option autoImplicit false

namespace SettingsService

open Interaction (Prog Snapshot Reachable)
open Slices (slice ClassesUncut Arranges)

/-! ### Orders -/

namespace Postgres

/-- The keys of two rows compare. -/
def KeyLe (pg : Postgres) (r r' : SettingRecord) : Prop := pg.collate r.key r'.key = true

instance (pg : Postgres) : DecidableRel pg.KeyLe :=
  fun _ _ => inferInstanceAs (Decidable (_ = true))

/-- **`ORDER BY key` sorts by a collation** in which no two texts compare equal. -/
structure Sorts (pg : Postgres) : Prop where
  total : ∀ u v, pg.collate u v = true ∨ pg.collate v u = true
  trans : ∀ u v w, pg.collate u v = true → pg.collate v w = true → pg.collate u w = true
  antisymm : ∀ u v, pg.collate u v = true → pg.collate v u = true → u = v
  sorted : ∀ rs, (pg.orderByKey rs).Pairwise pg.KeyLe

/-- **Another statement of the same database**: it sorts by the same collation, and may order rows
with equal keys in another way. -/
structure SortsLike (pg' pg : Postgres) : Prop where
  jsonbText : pg'.jsonbText = pg.jsonbText
  sorted : ∀ rs, (pg'.orderByKey rs).Pairwise pg.KeyLe

theorem Sorts.keyLe_total {pg : Postgres} (h : pg.Sorts) (r r' : SettingRecord) :
    pg.KeyLe r r' ∨ pg.KeyLe r' r := h.total r.key r'.key

theorem Sorts.keyLe_trans {pg : Postgres} (h : pg.Sorts) (r₁ r₂ r₃ : SettingRecord) :
    pg.KeyLe r₁ r₂ → pg.KeyLe r₂ r₃ → pg.KeyLe r₁ r₃ := h.trans r₁.key r₂.key r₃.key

theorem Sorts.like {pg : Postgres} (h : pg.Sorts) : pg.SortsLike pg := ⟨rfl, h.sorted⟩

/-- A statement that puts the rows `V` in a given arrangement. -/
noncomputable def arranging (pg : Postgres) {V l : List SettingRecord} (hl : l.Perm V) : Postgres :=
  open Classical in
  { pg with
    orderByKey := fun rs => if rs = V then l else pg.orderByKey rs
    orderByKey_perm := fun rs => by
      split_ifs with h
      · exact h ▸ hl
      · exact pg.orderByKey_perm rs }

theorem orderByKey_arranging (pg : Postgres) {V l : List SettingRecord} (hl : l.Perm V) :
    (pg.arranging hl).orderByKey V = l := if_pos rfl

theorem Sorts.sortsLike_arranging {pg : Postgres} (h : pg.Sorts) {V l : List SettingRecord}
    (hl : Arranges pg.KeyLe V l) : (pg.arranging hl.perm).SortsLike pg := by
  refine ⟨rfl, fun rs => ?_⟩
  simp only [arranging]
  split_ifs
  · exact hl.sorted
  · exact h.sorted rs

end Postgres

/-! ### Pages -/

section Pages

variable {pg : Postgres} {base : Anchor} {a : Authority} {T : Table} {query : String}
  {p : Pagination}

/-- The texts of a search are texts of Postgres. -/
def Authority.SearchAccepted (a : Authority) (query : String) : Prop :=
  textAccepted a.tenant.asStr = true ∧ textAccepted (pattern query) = true ∧
    textAccepted a.user.asStr = true

instance (a : Authority) (query : String) : Decidable (a.SearchAccepted query) :=
  inferInstanceAs (Decidable (_ ∧ _))

theorem Authority.accepted_search_iff (isAdmin : Bool) (limit offset : ℕ) :
    (Stmt.search a.tenant.asStr (pattern query) a.user.asStr isAdmin limit offset).accepted = true ↔
      a.SearchAccepted query := by
  rw [Stmt.accepted, Bool.and_eq_true, Bool.and_eq_true, SearchAccepted, and_assoc]

/-- The rows of a page, when its statement sorts as `pg` does. -/
def pageRows (pg : Postgres) (a : Authority) (query : String) (size i : ℕ) (T : Table) :
    List SettingRecord :=
  pg.orderByKey (slice size i (pg.orderByKey (a.visibleRows pg query T)))

/-- A page of a search. -/
theorem alone_search_nth (hacc : a.SearchAccepted query) (i : ℕ) :
    ((Request.search query a (p.nth i)).alone pg base T).1 =
      ((pageRows pg a query p.size i T).mapM (SettingRecord.intoDomain base)).map fun ss =>
        Reply.page (some ⟨ss, (a.visibleRows pg query T).length⟩) :=
  alone_search_eq query (p.nth i) ((Authority.accepted_search_iff _ _ _).2 hacc)

theorem accepted_of_alone_search {pagination : Pagination} {reply : Reply}
    (h : ((Request.search query a pagination).alone pg base T).1 = .ok reply) :
    a.SearchAccepted query := by
  by_contra hacc
  rw [alone_search_fst, Postgres.exec_of_not_accepted fun hs =>
    hacc ((Authority.accepted_search_iff _ _ _).1 hs)] at h
  exact absurd h (by simp)

/-- What a search sees does not depend on how rows are sorted. -/
theorem Postgres.SortsLike.visibleRows_eq {pg' : Postgres} (h : pg'.SortsLike pg) :
    a.visibleRows pg' query T = a.visibleRows pg query T := by
  rw [Authority.visibleRows, Authority.visibleRows, Postgres.visible, Postgres.visible, h.jsonbText]

/-- **The pages return every visible row once**, in whatever way each statement orders rows with
equal keys. -/
def PagesOnce (pg : Postgres) (base : Anchor) (a : Authority) (query : String) (p : Pagination)
    (T : Table) : Prop :=
  ∀ pgs : ℕ → Postgres, (∀ i, (pgs i).SortsLike pg) →
    ∃ (pages : ℕ → SearchPage) (rows : List SettingRecord),
      (∀ i < lastPage p.size (a.visibleRows pg query T).length,
        ((Request.search query a (p.nth i)).alone (pgs i) base T).1 =
          .ok (.page (some (pages i))) ∧
        (pages i).total = (a.visibleRows pg query T).length) ∧
      rows.Perm (a.visibleRows pg query T) ∧
      rows.mapM (SettingRecord.intoDomain base) =
        .ok ((List.range (lastPage p.size (a.visibleRows pg query T).length)).flatMap fun i =>
          (pages i).rows)

end Pages

/-! ### Loops over pages -/

section Loops

variable {ε α β ι : Type} {f : α → Except ε β}

theorem mapM_append_ok {xs xs' : List α} {ys ys' : List β} (h : xs.mapM f = .ok ys)
    (h' : xs'.mapM f = .ok ys') : (xs ++ xs').mapM f = .ok (ys ++ ys') := by
  induction xs generalizing ys with
  | nil =>
      obtain rfl := mapM_nil_eq_ok_iff.1 h
      exact h'
  | cons x xs ih =>
      obtain ⟨y, ys₁, hx, hxs, rfl⟩ := mapM_cons_eq_ok_iff.1 h
      exact mapM_cons_eq_ok_iff.2 ⟨y, ys₁ ++ ys', hx, ih hxs, rfl⟩

/-- A loop over all pages does what the loops over the pages do. -/
theorem mapM_flatMap_ok {l : List ι} {g : ι → List α} {h : ι → List β}
    (H : ∀ i ∈ l, (g i).mapM f = .ok (h i)) : (l.flatMap g).mapM f = .ok (l.flatMap h) := by
  induction l with
  | nil => rfl
  | cons i l ih =>
      rw [List.flatMap_cons, List.flatMap_cons]
      exact mapM_append_ok (H i List.mem_cons_self) (ih fun j hj => H j (List.mem_cons_of_mem _ hj))

/-- Loops with the same results went over the same list, if results tell elements apart. -/
theorem eq_of_mapM_ok {xs xs' : List α} {ys : List β}
    (hinj : ∀ x ∈ xs, ∀ x' ∈ xs', ∀ y, f x = .ok y → f x' = .ok y → x = x')
    (h : xs.mapM f = .ok ys) (h' : xs'.mapM f = .ok ys) : xs = xs' := by
  induction xs generalizing xs' ys with
  | nil =>
      obtain rfl := mapM_nil_eq_ok_iff.1 h
      cases xs' with
      | nil => rfl
      | cons x' xs' =>
          obtain ⟨y, ys', -, -, hys⟩ := mapM_cons_eq_ok_iff.1 h'
          exact absurd hys (by simp)
  | cons x xs ih =>
      obtain ⟨y, ys, hx, hxs, rfl⟩ := mapM_cons_eq_ok_iff.1 h
      cases xs' with
      | nil => simp [pure, Except.pure] at h'
      | cons x' xs' =>
          obtain ⟨y', ys', hx', hxs', hys⟩ := mapM_cons_eq_ok_iff.1 h'
          obtain ⟨rfl, rfl⟩ := List.cons.inj hys
          rw [hinj x List.mem_cons_self x' List.mem_cons_self y hx hx']
          rw [ih (fun z hz z' hz' => hinj z (List.mem_cons_of_mem _ hz) z'
            (List.mem_cons_of_mem _ hz')) hxs hxs']

end Loops

/-! ### When paging returns every row once -/

section Once

variable {pg : Postgres} {base : Anchor} {a : Authority} {T : Table} {query : String}
  {p : Pagination}

theorem nodup_visibleRows : (a.visibleRows pg query T).Nodup :=
  (List.Nodup.of_map SettingRecord.identity T.unique).sublist List.filter_sublist

theorem Postgres.SortsLike.arranges {pg' : Postgres} (h : pg'.SortsLike pg)
    (V : List SettingRecord) : Arranges pg.KeyLe V (pg'.orderByKey V) :=
  ⟨pg'.orderByKey_perm V, h.sorted V⟩

/-- Slices of the visible rows, each of an arrangement of its own. -/
theorem Postgres.Sorts.perm_slices_iff (hpg : pg.Sorts) :
    (∀ L : ℕ → List SettingRecord, (∀ i, Arranges pg.KeyLe (a.visibleRows pg query T) (L i)) →
      ((List.range (lastPage p.size (a.visibleRows pg query T).length)).flatMap fun i =>
        slice p.size i (L i)).Perm (a.visibleRows pg query T)) ↔
      ClassesUncut pg.KeyLe p.size (a.visibleRows pg query T) :=
  Slices.perm_flatMap_slice_iff hpg.keyLe_total hpg.keyLe_trans p.size_pos nodup_visibleRows
    (le_lastPage_mul p.size_pos _) (hpg.like.arranges _)

/-- The rows of the pages, if no page ends between rows with the same key. -/
theorem perm_pageRows (hpg : pg.Sorts)
    (hcut : ClassesUncut pg.KeyLe p.size (a.visibleRows pg query T)) {pgs : ℕ → Postgres}
    (hpgs : ∀ i, (pgs i).SortsLike pg) :
    ((List.range (lastPage p.size (a.visibleRows pg query T).length)).flatMap fun i =>
      pageRows (pgs i) a query p.size i T).Perm (a.visibleRows pg query T) := by
  have hslices := hpg.perm_slices_iff.2 hcut
    (fun i => (pgs i).orderByKey (a.visibleRows pg query T)) fun i => (hpgs i).arranges _
  refine (List.Perm.flatMap_left _ fun i _ => ?_).trans hslices
  rw [pageRows, (hpgs i).visibleRows_eq]
  exact (pgs i).orderByKey_perm _

/-- **Without such a boundary, paging returns every row once.** -/
theorem PagesOnce.of_classesUncut (hpg : pg.Sorts) (hacc : a.SearchAccepted query)
    (hdec : ∀ r ∈ a.visibleRows pg query T, ∃ s, r.intoDomain base = .ok s)
    (hcut : ClassesUncut pg.KeyLe p.size (a.visibleRows pg query T)) :
    PagesOnce pg base a query p T := by
  intro pgs hpgs
  have hmem : ∀ i, ∀ r ∈ pageRows (pgs i) a query p.size i T, r ∈ a.visibleRows pg query T := by
    intro i r hr
    rw [pageRows, (hpgs i).visibleRows_eq] at hr
    have hr := (pgs i).orderByKey_perm _ |>.mem_iff.1 hr
    have hr := List.mem_of_mem_drop (List.mem_of_mem_take hr)
    exact (pgs i).orderByKey_perm _ |>.mem_iff.1 hr
  have hpages : ∀ i, ∃ ss, (pageRows (pgs i) a query p.size i T).mapM
      (SettingRecord.intoDomain base) = .ok ss :=
    fun i => exists_mapM_ok_iff.2 fun r hr => hdec r (hmem i r hr)
  choose ss hss using hpages
  refine ⟨fun i => ⟨ss i, (a.visibleRows pg query T).length⟩, _, fun i _ => ⟨?_, rfl⟩,
    perm_pageRows hpg hcut hpgs, mapM_flatMap_ok fun i _ => hss i⟩
  rw [alone_search_nth hacc, hss i, (hpgs i).visibleRows_eq]
  rfl

/-- **If paging returns every row once**, there is no such boundary. -/
theorem PagesOnce.classesUncut (hpg : pg.Sorts) {reqs : List Request} (hT : T.WrittenBy reqs)
    (h : PagesOnce pg base a query p T) : a.SearchAccepted query ∧
      (∀ r ∈ a.visibleRows pg query T, ∃ s, r.intoDomain base = .ok s) ∧
      ClassesUncut pg.KeyLe p.size (a.visibleRows pg query T) := by
  have hmem : ∀ r ∈ a.visibleRows pg query T, r ∈ T.rows := fun r hr => List.mem_of_mem_filter hr
  obtain ⟨pages, rows, hpages, hperm, hmap⟩ := h (fun _ => pg) fun _ => hpg.like
  have hacc := accepted_of_alone_search (hpages 0 (one_le_lastPage _ _)).1
  refine ⟨hacc, fun r hr => ?_, ?_⟩
  · exact exists_mapM_ok_iff.1 ⟨_, hmap⟩ r (hperm.mem_iff.2 hr)
  · refine hpg.perm_slices_iff.1 fun L hL => ?_
    -- the statements are made to arrange the rows as `L` says
    obtain ⟨pages, rows, hpages, hperm, hmap⟩ :=
      h (fun i => pg.arranging (hL i).perm) fun i => hpg.sortsLike_arranging (hL i)
    have hslice : ∀ i, (pageRows (pg.arranging (hL i).perm) a query p.size i T).Perm
        (slice p.size i (L i)) := by
      intro i
      rw [pageRows, (hpg.sortsLike_arranging (hL i)).visibleRows_eq, pg.orderByKey_arranging]
      exact Postgres.orderByKey_perm _ _
    have hflat := mapM_flatMap_ok (f := SettingRecord.intoDomain base)
      (l := List.range (lastPage p.size (a.visibleRows pg query T).length))
      (g := fun i => pageRows (pg.arranging (hL i).perm) a query p.size i T)
      (h := fun i => (pages i).rows) fun i hi => by
        have hi := (hpages i (List.mem_range.1 hi)).1
        rw [alone_search_nth hacc] at hi
        cases hmap : (pageRows (pg.arranging (hL i).perm) a query p.size i T).mapM
            (SettingRecord.intoDomain base) with
        | error e => simp [hmap, Except.map] at hi
        | ok ss =>
            simp only [hmap, Except.map, Except.ok.injEq, Reply.page.injEq,
              Option.some.injEq] at hi
            rw [← hi]
    have heq := eq_of_mapM_ok (fun x hx x' hx' y => hT.eq_of_intoDomain ?_ ?_) hmap hflat
    · exact ((List.Perm.flatMap_left _ fun i _ => (hslice i).symm).trans (heq ▸ hperm))
    · exact hmem x (hperm.mem_iff.1 hx)
    · obtain ⟨i, -, hi⟩ := List.mem_flatMap.1 hx'
      have hi := List.mem_of_mem_drop (List.mem_of_mem_take ((hslice i).mem_iff.1 hi))
      exact hmem x' ((hL i).perm.mem_iff.1 hi)

/-- **A principal whose role never changed** sees no two rows under one key. -/
theorem classesUncut_of_role (hpg : pg.Sorts) {reqs : List Request} (hT : T.WrittenBy reqs)
    (hrole : ∀ q ∈ reqs, q.authority.tenant = a.tenant →
      q.authority.user = a.user → q.authority.role = a.role) (size : ℕ) :
    ClassesUncut pg.KeyLe size (a.visibleRows pg query T) := by
  refine Slices.classesUncut_of_antisymm hpg.keyLe_total hpg.keyLe_trans nodup_visibleRows
    (hpg.like.arranges _) (fun r hr r' hr' h h' => ?_) size
  have hkey : r.key = r'.key := hpg.antisymm _ _ h h'
  have hvisible : ∀ r ∈ a.visibleRows pg query T, r ∈ T.rows ∧ r.tenant = a.tenant.asStr ∧
      (a.role = .user ∧ r.user = some a.user.asStr ∨ a.role = .admin ∧ r.user = none) := by
    intro r hr
    rw [Authority.visibleRows, Postgres.visible, List.mem_filter] at hr
    obtain ⟨hmem, hr⟩ := hr
    simp only [Bool.and_eq_true, Bool.or_eq_true, beq_iff_eq, Option.isNone_iff_eq_none] at hr
    refine ⟨hmem, hr.1.1, ?_⟩
    rcases hr.2 with huser | ⟨hadmin, hnone⟩
    · -- its own row was written under the role of a user
      obtain ⟨w, hw, htenant, hcolumn, -⟩ := hT r hmem
      have ht : w.authority.tenant = a.tenant := by
        rw [hr.1.1, Write.tenant_target] at htenant
        exact Tenant.ext htenant.symm
      rw [huser, Write.target, Authority.scopeOwnership] at hcolumn
      cases hwrole : w.authority.role with
      | admin => simp [hwrole, Ownership.userColumn, Ownership.forTenant] at hcolumn
      | user =>
          simp only [hwrole, Ownership.userColumn, Ownership.forUser, Option.map_some,
            Option.some.injEq] at hcolumn
          have hu : w.authority.user = a.user := UserId.ext hcolumn.symm
          exact .inl ⟨(hrole _ hw ht hu).symm.trans hwrole, huser⟩
    · exact .inr ⟨hadmin, hnone⟩
  obtain ⟨hmem, htenant, hscope⟩ := hvisible r hr
  obtain ⟨hmem', htenant', hscope'⟩ := hvisible r' hr'
  refine List.inj_on_of_nodup_map T.unique hmem hmem' ?_
  rw [SettingRecord.identity, SettingRecord.identity, htenant, htenant', hkey]
  rcases hscope with ⟨hu, h⟩ | ⟨hadmin, h⟩ <;> rcases hscope' with ⟨hu', h'⟩ | ⟨hadmin', h'⟩
  · rw [h, h']
  · exact absurd (hu.symm.trans hadmin') (by simp)
  · exact absurd (hu'.symm.trans hadmin) (by simp)
  · rw [h, h']

/-- **Paging returns every visible row once exactly when** no page ends between two rows with the
same key, of the queries Postgres takes and the rows that decode.  A principal whose role never
changed sees no two rows with the same key; an admin that was a user can. -/
theorem pagesOnce_iff (hpg : pg.Sorts) {reqs : List Request}
    {c : Snapshot Stmt Stmt.Ret Table Request Result}
    (hc : Reachable pg.exec (fun _ _ => True)
      (Snapshot.init Table.empty (Request.prog base) reqs) c)
    (a : Authority) (query : String) (p : Pagination) :
    (PagesOnce pg base a query p c.state ↔ a.SearchAccepted query ∧
      (∀ r ∈ a.visibleRows pg query c.state, ∃ s, r.intoDomain base = .ok s) ∧
      ClassesUncut pg.KeyLe p.size (a.visibleRows pg query c.state)) ∧
    ((∀ q ∈ reqs, q.authority.tenant = a.tenant → q.authority.user = a.user →
        q.authority.role = a.role) →
      ∀ size, ClassesUncut pg.KeyLe size (a.visibleRows pg query c.state)) := by
  have hT := writtenBy_of_reachable hc
  refine ⟨⟨fun h => h.classesUncut hpg hT, ?_⟩, classesUncut_of_role hpg hT⟩
  rintro ⟨hacc, hdec, hcut⟩
  exact .of_classesUncut hpg hacc hdec hcut

end Once

/-! ### An admin that was a user -/

theorem Postgres.sorts_ofJsonb (jsonb : Value → Value) : (Postgres.ofJsonb jsonb).Sorts where
  total u v := by simpa [Postgres.ofJsonb] using le_total u v
  trans u v w := by simpa [Postgres.ofJsonb] using le_trans
  antisymm u v := by simpa [Postgres.ofJsonb] using le_antisymm
  sorted := pairwise_insertionSort_of
    (fun r₁ r₂ r₃ => by simpa [Postgres.KeyLe, Postgres.ofJsonb] using le_trans)
    (fun r r' h => by simpa [Postgres.KeyLe, Postgres.ofJsonb] using h)
    (fun r r' h => by simpa [Postgres.KeyLe, Postgres.ofJsonb] using le_of_lt (not_le.1 h))

namespace Sample

/-- Alice, as an admin. -/
def aliceAdmin : Authority := { alice with role := .admin }

/-- Alice puts a setting as a user and, when she is an admin, once more. -/
def putTwice : List Request :=
  [.write (.put theme dark alice none 0), .write (.put theme light aliceAdmin none 0)]

/-- The snapshot after both. -/
def afterBoth : Snapshot Stmt Stmt.Ret Table Request Result :=
  (Snapshot.init Table.empty (Request.prog ⟨0, 0⟩) putTwice).schedule
    (Postgres.ofJsonb id).exec [0, 0, 1, 1]

/-- The settings that Alice sees as an admin, in the order of their rows. -/
def settingsOfAlice : List Setting :=
  [⟨theme, dark, alice.scopeOwnership, 1, 0⟩, ⟨theme, light, aliceAdmin.scopeOwnership, 1, 0⟩]

/-- The first page, with one row. -/
def firstOfOne : Pagination := ⟨1, 1, by decide, by decide, by decide⟩

end Sample

open Sample in
/-- The pages of Alice, who now sees two rows with the same key. -/
theorem pagesOnce_alice :
    (PagesOnce (Postgres.ofJsonb id) ⟨0, 0⟩ aliceAdmin "" firstOfOne afterBoth.state ↔
      aliceAdmin.SearchAccepted "" ∧
      (∀ r ∈ aliceAdmin.visibleRows (Postgres.ofJsonb id) "" afterBoth.state,
        ∃ s, r.intoDomain ⟨0, 0⟩ = .ok s) ∧
      ClassesUncut (Postgres.ofJsonb id).KeyLe 1
        (aliceAdmin.visibleRows (Postgres.ofJsonb id) "" afterBoth.state)) ∧
    ((∀ q ∈ putTwice, q.authority.tenant = aliceAdmin.tenant →
        q.authority.user = aliceAdmin.user → q.authority.role = aliceAdmin.role) →
      ∀ size, ClassesUncut (Postgres.ofJsonb id).KeyLe size
        (aliceAdmin.visibleRows (Postgres.ofJsonb id) "" afterBoth.state)) :=
  pagesOnce_iff (Postgres.sorts_ofJsonb id) (Reachable.refl.schedule _ [0, 0, 1, 1])
    aliceAdmin "" firstOfOne

open Sample in
/-- **Pages with one row can show an admin one of its rows twice**: Alice sees the setting she put
as a user and the one she put as an admin, under one key. -/
theorem not_pagesOnce :
    ¬ ∀ (pg : Postgres) (base : Anchor), pg.Sorts → (∀ v, pg.jsonb v = v) →
      ∀ reqs : List Request, (∀ q ∈ reqs, q.authority.user ≠ ⟨""⟩) →
      ∀ c : Snapshot Stmt Stmt.Ret Table Request Result,
      Reachable pg.exec (fun _ _ => True) (Snapshot.init Table.empty (Request.prog base) reqs) c →
      ∀ (a : Authority) (query : String) (p : Pagination), a.user ≠ ⟨""⟩ →
        a.SearchAccepted query → PagesOnce pg base a query p c.state := by
  intro h
  have hc : Reachable (Postgres.ofJsonb id).exec (fun _ _ => True)
      (Snapshot.init Table.empty (Request.prog ⟨0, 0⟩) putTwice) afterBoth :=
    Reachable.refl.schedule _ [0, 0, 1, 1]
  have hpages := h (Postgres.ofJsonb id) ⟨0, 0⟩ (Postgres.sorts_ofJsonb id) (fun _ => rfl) putTwice
    (by decide) afterBoth hc aliceAdmin "" firstOfOne (by decide) (by decide)
  have hcut := (hpages.classesUncut (Postgres.sorts_ofJsonb id) (writtenBy_of_reachable hc)).2.2
  have hrow : ∃ r ∈ aliceAdmin.visibleRows (Postgres.ofJsonb id) "" afterBoth.state,
      Slices.before (Postgres.ofJsonb id).KeyLe
        (aliceAdmin.visibleRows (Postgres.ofJsonb id) "" afterBoth.state) r = 0 ∧
      Slices.upTo (Postgres.ofJsonb id).KeyLe
        (aliceAdmin.visibleRows (Postgres.ofJsonb id) "" afterBoth.state) r = 2 := by
    decide
  obtain ⟨r, hr, hbefore, hupTo⟩ := hrow
  have hle := hcut r hr 1 (by rw [hbefore]; decide)
  rw [hupTo] at hle
  exact absurd hle (by decide)

end SettingsService
