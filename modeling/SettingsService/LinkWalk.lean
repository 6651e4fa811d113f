import SettingsService.SearchPanics

/-!
# Walking a collection

A client reads a collection by requesting the first page and following `next` from page to page,
while nothing is written and every statement returns the visible rows in one order.  The pages that
it visits, what the other links of these pages say, and the rows that it gets.

Main definitions:

* `linked` — the page that a link names;
* `followLink`, `followed` — the request that following a link of a header, or of what the handler
  ended in, makes;
* `Postgres.FixedOrder` — rows that come back sorted are not arranged anew;
* `RespondsWith` — the responses of the handler are the pages of a list, and their links are read;
* `WalkedBy` — the links of the pages walk a list of settings.

Main results:

* `visits_linked` — the pages that are visited;
* `alone_search_slice` — **a search returns a slice of the visible list** and its length;
* `listAlone_slice` — **the handler responds with it**;
* `respondsWith_of_slices` — the links of the responses are followed from page to page;
* `walkedBy_of_fixedOrder` — **the links walk the visible list**;
* `walkedBy_alice` — the two settings of an admin that was a user.
-/

set_option relaxedAutoImplicit false
set_option autoImplicit false

namespace SettingsService

open Interaction (Prog)
open Slices (slice flatMap_slice length_slice)

/-! ### The page that a link names -/

/-- The page that the link with a relation names. -/
def linked (rel : Rel) (size total page : ℕ) : Option ℕ :=
  ((namedPages page size total).find? fun l => l.1 == rel).map fun l => l.2 % 2 ^ 32

/-- The request that following a link of a header makes, as the service reads it. -/
def followLink (rel : Rel) (header : String) : Option ListQuery :=
  ((readLinks header).find? fun l => l.1 == some rel.text.toList).bind Prod.snd

/-- The request that following a link of a response makes. -/
def Response.followed (rel : Rel) (resp : Response) : Option ListQuery :=
  (resp.headers.lookup "link").bind (followLink rel)

/-- The request that is made after what the handler ended in; there are no links in an error. -/
def followed (rel : Rel) : Except ApiError (Option Response) → Option ListQuery
  | .ok (some resp) => resp.followed rel
  | .ok none => none
  | .error _ => none

theorem linked_prev (size total page : ℕ) :
    linked .prev size total page = if 1 < page then some ((page - 1) % 2 ^ 32) else none := by
  rw [linked, namedPages]
  split_ifs <;> rfl

theorem linked_next (size total page : ℕ) :
    linked .next size total page =
      if page * size < total then some ((page + 1) % 2 ^ 32) else none := by
  rw [linked, namedPages]
  split_ifs <;> rfl

theorem linked_last (size total page : ℕ) :
    linked .last size total page =
      if 0 < total then some (lastPage size total % 2 ^ 32) else none := by
  rw [linked, namedPages]
  split_ifs <;> rfl

/-- Following a link of a safe filter is the same request for the page that is named. -/
theorem followLink_buildLinkHeader {query : Option String} (hquery : ∀ q ∈ query, SafeInLink q)
    {size page : ℕ} (hsize : size < 2 ^ 32) (hpage : page < 2 ^ 32) (total : ℕ) (rel : Rel) :
    followLink rel (buildLinkHeader page size total query) =
      (linked rel size total page).map fun n => ⟨query, some n, some size⟩ := by
  have hrel : ∀ r : Rel, (some r.text.toList == some rel.text.toList) = (r == rel) := by
    intro r
    cases r <;> cases rel <;> decide
  rw [followLink, readLinks_buildLinkHeader hpage hsize total hquery, List.find?_map]
  simp only [Function.comp_def, hrel]
  rw [linked]
  cases (namedPages page size total).find? fun l => l.1 == rel with
  | none => rfl
  | some l => rfl

/-! ### The pages that are visited -/

section Visits

variable {size total : ℕ}

theorem lastPage_lt (hsize : 0 < size) (htotal : total < 2 ^ 32) :
    lastPage size total < 2 ^ 32 := by
  have hle := (lastPage_le_iff (k := 2 ^ 32 - 1) hsize (by decide) total).2
    ((Nat.le_pred_of_lt htotal).trans (Nat.le_mul_of_pos_right _ hsize))
  omega

/-- There is a next page before the last one. -/
theorem mul_lt_iff_lt_lastPage (hsize : 0 < size) {page : ℕ} (hpage : 1 ≤ page) :
    page * size < total ↔ page < lastPage size total := by
  rw [← not_le, ← not_le, lastPage_le_iff hsize hpage]

/-- A page below the last links to the page after it. -/
theorem linked_next_of_pos (hsize : 0 < size) (htotal : total < 2 ^ 32) {page : ℕ}
    (hpage : 1 ≤ page) : linked .next size total page =
      if page < lastPage size total then some (page + 1) else none := by
  have hlast := lastPage_lt hsize htotal
  rw [linked_next]
  by_cases hlt : page < lastPage size total
  · rw [if_pos hlt, if_pos ((mul_lt_iff_lt_lastPage hsize hpage).2 hlt),
      Nat.mod_eq_of_lt (by omega)]
  · rw [if_neg hlt, if_neg fun h => hlt ((mul_lt_iff_lt_lastPage hsize hpage).1 h)]

/-- **The pages that are visited** from the first on. -/
theorem visits_linked (hsize : 0 < size) (htotal : total < 2 ^ 32) (pages : List ℕ) :
    WebLinks.Visits (linked .next size total) 1 pages ↔
      pages = List.range' 1 (lastPage size total) := by
  have hone := one_le_lastPage size total
  have hvisits := WebLinks.visits_iff (linked .next size total) id 1 hone
    (fun j hj hlt => ?_) ?_ pages
  · rwa [List.map_id] at hvisits
  · rw [id, id, linked_next_of_pos hsize htotal hj, if_pos (by omega)]
  · rw [id, linked_next_of_pos hsize htotal (by omega), if_neg (by omega)]

/-- **The requests that are made** when each request is followed by the one for the page that its
`next` names. -/
theorem visits_of_linked_next (hsize : 0 < size) (htotal : total < 2 ^ 32)
    {next : ListQuery → Option ListQuery} {query : Option String}
    (hnext : ∀ page, 1 ≤ page → page < 2 ^ 32 → next ⟨query, some page, some size⟩ =
      (linked .next size total page).map fun n => ⟨query, some n, some size⟩)
    (requests : List ListQuery) :
    WebLinks.Visits next ⟨query, some 1, some size⟩ requests ↔
      requests = (List.range' 1 (lastPage size total)).map fun n =>
        ⟨query, some n, some size⟩ := by
  have hlast := lastPage_lt hsize htotal
  have hone := one_le_lastPage size total
  refine WebLinks.visits_iff next
    (fun n => (⟨query, some n, some size⟩ : ListQuery)) 1 hone (fun j hj hlt => ?_) ?_ requests
  · rw [hnext j hj (by omega), linked_next_of_pos hsize htotal hj, if_pos (by omega)]
    rfl
  · rw [hnext _ (by omega) (by omega), linked_next_of_pos hsize htotal (by omega),
      if_neg (by omega)]
    rfl

/-- Every page of a total that is not zero links to the last one. -/
theorem linked_last_of_pos (hsize : 0 < size) (htotal : total < 2 ^ 32) (hpos : 0 < total)
    (page : ℕ) : linked .last size total page = some (lastPage size total) := by
  rw [linked_last, if_pos hpos, Nat.mod_eq_of_lt (lastPage_lt hsize htotal)]

/-- Every page but the first links to the one before it. -/
theorem linked_prev_of_lt {page : ℕ} (hpage : 1 ≤ page) (hlt : page < 2 ^ 32) :
    linked .prev size total page = if page = 1 then none else some (page - 1) := by
  rw [linked_prev]
  by_cases hfirst : page = 1
  · rw [if_pos hfirst, if_neg (by omega)]
  · rw [if_neg hfirst, if_pos (by omega), Nat.mod_eq_of_lt (by omega)]

end Visits

/-! ### The rows of the pages -/

section Loops

variable {ε α β : Type} {f : α → Except ε β}

/-- A loop over a part of a list does that part of the loop. -/
theorem mapM_take_ok {xs : List α} {ys : List β} (h : xs.mapM f = .ok ys) (n : ℕ) :
    (xs.take n).mapM f = .ok (ys.take n) := by
  induction xs generalizing ys n with
  | nil =>
      obtain rfl := mapM_nil_eq_ok_iff.1 h
      rwa [List.take_nil, List.take_nil]
  | cons x xs ih =>
      obtain ⟨y, ys, hx, hxs, rfl⟩ := mapM_cons_eq_ok_iff.1 h
      cases n with
      | zero => rfl
      | succ n => exact mapM_cons_eq_ok_iff.2 ⟨y, ys.take n, hx, ih hxs n, rfl⟩

theorem mapM_drop_ok {xs : List α} {ys : List β} (h : xs.mapM f = .ok ys) (n : ℕ) :
    (xs.drop n).mapM f = .ok (ys.drop n) := by
  induction xs generalizing ys n with
  | nil =>
      obtain rfl := mapM_nil_eq_ok_iff.1 h
      rwa [List.drop_nil, List.drop_nil]
  | cons x xs ih =>
      cases n with
      | zero => exact h
      | succ n =>
          obtain ⟨y, ys, -, hxs, rfl⟩ := mapM_cons_eq_ok_iff.1 h
          exact ih hxs n

theorem length_of_mapM_ok {xs : List α} {ys : List β} (h : xs.mapM f = .ok ys) :
    ys.length = xs.length := by
  induction xs generalizing ys with
  | nil =>
      obtain rfl := mapM_nil_eq_ok_iff.1 h
      rfl
  | cons x xs ih =>
      obtain ⟨y, ys, -, hxs, rfl⟩ := mapM_cons_eq_ok_iff.1 h
      rw [List.length_cons, List.length_cons, ih hxs]

end Loops

/-- **One fixed order**: rows that come back sorted are not arranged anew when fewer of them are
sorted. -/
def Postgres.FixedOrder (pg : Postgres) : Prop :=
  ∀ rs l : List SettingRecord, l.Sublist (pg.orderByKey rs) → pg.orderByKey l = l

section Rows

variable {pg : Postgres} {base : Anchor} {a : Authority} {T : Table} {query : String}
  {L : List Setting}

/-- **A search returns a slice of the visible list** and its length, on every page. -/
theorem alone_search_slice (hpg : pg.FixedOrder) (hacc : a.SearchAccepted query)
    (hL : (pg.orderByKey (a.visibleRows pg query T)).mapM (SettingRecord.intoDomain base) = .ok L)
    (p : Pagination) :
    ((Request.search query a p).alone pg base T).1 =
      .ok (.page (some ⟨slice p.size (p.page - 1) L, L.length⟩)) := by
  have hrows : pageRows pg a query p.size (p.page - 1) T =
      slice p.size (p.page - 1) (pg.orderByKey (a.visibleRows pg query T)) :=
    hpg _ _ ((List.take_sublist _ _).trans (List.drop_sublist _ _))
  have hpage : (slice p.size (p.page - 1) (pg.orderByKey (a.visibleRows pg query T))).mapM
      (SettingRecord.intoDomain base) = .ok (slice p.size (p.page - 1) L) :=
    mapM_take_ok (mapM_drop_ok hL _) _
  have halone : ((Request.search query a (p.nth (p.page - 1))).alone pg base T).1 = _ :=
    alone_search_nth hacc (p.page - 1)
  rw [p.nth_page, hrows, hpage] at halone
  rw [halone, length_of_mapM_ok hL, (pg.orderByKey_perm _).length_eq]
  rfl

/-- **The handler responds with the slice** and its links, on every page. -/
theorem listAlone_slice (hpg : pg.FixedOrder) {query : Option String}
    (hacc : a.SearchAccepted (query.getD ""))
    (hL : (pg.orderByKey (a.visibleRows pg (query.getD "") T)).mapM
      (SettingRecord.intoDomain base) = .ok L)
    (rfc3339 : ℤ → String) (headers : HeaderMap) (p : Pagination) :
    listAlone pg base rfc3339 headers ⟨query, some p.page, some p.size⟩ a T =
      .ok (pageResponse base rfc3339 headers p query ⟨slice p.size (p.page - 1) L, L.length⟩) := by
  have hslice := alone_search_slice hpg hacc hL p
  rw [Request.alone, Request.prog, run_map] at hslice
  have hrun : (Prog.run pg.exec (Service.search base (query.getD "") a p).run T).1 =
      .ok (some ⟨slice p.size (p.page - 1) L, L.length⟩) := eq_of_map_page hslice
  refine (listAlone_of_valid (q := ⟨query, some p.page, some p.size⟩) p.new_eq).trans ?_
  rw [hrun]
  rfl

/-- **The responses of the handler are the pages of a list**, and a client that reads their links
walks it. -/
structure RespondsWith (pg : Postgres) (base : Anchor) (rfc3339 : ℤ → String) (headers : HeaderMap)
    (a : Authority) (T : Table) (query : Option String) (size : ℕ) (L : List Setting) : Prop where
  /-- The response for a page, in the list or behind it, carries its slice, its links and the
  length. -/
  page : ∀ page, 1 ≤ page → page < 2 ^ 32 → ∃ resp,
    listAlone pg base rfc3339 headers ⟨query, some page, some size⟩ a T = .ok (some resp) ∧
      resp.Encodes headers
        ((slice size (page - 1) L).map (SettingResponse.ofSetting base rfc3339)) ∧
      resp.headers.lookup "link" = some (buildLinkHeader page size L.length query) ∧
      resp.headers.lookup "x-total-count" = some L.length.repr
  /-- Following `next` of the responses, from the first page on, requests every page of the same
  search, and stops at the last. -/
  next : (∀ q ∈ query, SafeInLink q) → ∀ requests,
    WebLinks.Visits (fun q => followed .next (listAlone pg base rfc3339 headers q a T))
        ⟨query, some 1, some size⟩ requests ↔
      requests = (List.range' 1 (lastPage size L.length)).map fun n => ⟨query, some n, some size⟩
  /-- Their `last` is a request for the last page. -/
  last : (∀ q ∈ query, SafeInLink q) → L ≠ [] →
    ∀ page ∈ List.range' 1 (lastPage size L.length),
      followed .last (listAlone pg base rfc3339 headers ⟨query, some page, some size⟩ a T) =
        some ⟨query, some (lastPage size L.length), some size⟩
  /-- Their `prev`, on every page but the first, is a request for the page before. -/
  prev : (∀ q ∈ query, SafeInLink q) → ∀ page ∈ List.range' 1 (lastPage size L.length),
    followed .prev (listAlone pg base rfc3339 headers ⟨query, some page, some size⟩ a T) =
      if page = 1 then none else some ⟨query, some (page - 1), some size⟩

/-- Responses that are slices of a list, with their links, walk it. -/
theorem respondsWith_of_slices {rfc3339 : ℤ → String} {headers : HeaderMap}
    {query : Option String} (hlength : L.length < 2 ^ 32) {size : ℕ} (hsize : 1 ≤ size)
    (hsize' : size ≤ 100)
    (hslice : ∀ p : Pagination, p.size = size →
      listAlone pg base rfc3339 headers ⟨query, some p.page, some size⟩ a T =
        .ok (pageResponse base rfc3339 headers p query ⟨slice size (p.page - 1) L, L.length⟩))
    (hquery : ∀ s ∈ query, isHeaderText s = true)
    (htimes : ∀ s ∈ L, inChronoRange (instantToMillis base s.updatedAt) = true) :
    RespondsWith pg base rfc3339 headers a T query size L := by
  have hlast := lastPage_lt hsize hlength
  have hpages : ∀ page, 1 ≤ page → page < 2 ^ 32 → ∃ resp,
      listAlone pg base rfc3339 headers ⟨query, some page, some size⟩ a T = .ok (some resp) ∧
        resp.Encodes headers
          ((slice size (page - 1) L).map (SettingResponse.ofSetting base rfc3339)) ∧
        resp.headers.lookup "link" = some (buildLinkHeader page size L.length query) ∧
        resp.headers.lookup "x-total-count" = some L.length.repr := by
    intro page hpage hlt
    have hrows : ∀ s ∈ slice size (page - 1) L,
        inChronoRange (instantToMillis base s.updatedAt) = true :=
      fun s hs => htimes s (List.mem_of_mem_drop (List.mem_of_mem_take hs))
    obtain ⟨resp, hresp, hrest⟩ := exists_pageResponse (p := ⟨page, size, hpage, hsize, hsize'⟩)
      hlt hquery ⟨slice size (page - 1) L, L.length⟩ hrows rfc3339 headers
    exact ⟨resp, (hslice ⟨page, size, hpage, hsize, hsize'⟩ rfl).trans (congrArg _ hresp), hrest⟩
  have hfollowed (hsafe : ∀ q ∈ query, SafeInLink q) (rel : Rel) (page : ℕ) (hpage : 1 ≤ page)
      (hlt : page < 2 ^ 32) :
      followed rel (listAlone pg base rfc3339 headers ⟨query, some page, some size⟩ a T) =
        (linked rel size L.length page).map fun n => ⟨query, some n, some size⟩ := by
    obtain ⟨resp, hresp, -, hlink, -⟩ := hpages page hpage hlt
    rw [hresp, followed, Response.followed, hlink, Option.bind_some,
      followLink_buildLinkHeader hsafe (by omega) hlt]
  refine ⟨hpages, fun hsafe => visits_of_linked_next hsize hlength (hfollowed hsafe .next),
    fun hsafe hne page hpage => ?_, fun hsafe page hpage => ?_⟩
  · rw [List.mem_range'_1] at hpage
    rw [hfollowed hsafe .last page hpage.1 (by omega),
      linked_last_of_pos hsize hlength (List.length_pos_iff.2 hne), Option.map_some]
  · rw [List.mem_range'_1] at hpage
    rw [hfollowed hsafe .prev page hpage.1 (by omega), linked_prev_of_lt hpage.1 (by omega)]
    split_ifs <;> rfl

/-- **The links of the pages walk a list of settings.** -/
structure WalkedBy (pg : Postgres) (base : Anchor) (a : Authority) (T : Table)
    (query : Option String) (size : ℕ) (L : List Setting) : Prop where
  /-- Following `next` from the first page visits every page, and stops at the last. -/
  visits : ∀ pages, WebLinks.Visits (linked .next size L.length) 1 pages ↔
    pages = List.range' 1 (lastPage size L.length)
  /-- Every page of a list that is not empty links to the last one. -/
  last : L ≠ [] → ∀ page ∈ List.range' 1 (lastPage size L.length),
    linked .last size L.length page = some (lastPage size L.length)
  /-- Every page but the first links to the one before it. -/
  prev : ∀ page ∈ List.range' 1 (lastPage size L.length),
    linked .prev size L.length page = if page = 1 then none else some (page - 1)
  /-- Every page but the last is full. -/
  full : ∀ page ∈ List.range' 1 (lastPage size L.length), page ≠ lastPage size L.length →
    (slice size (page - 1) L).length = size
  /-- The pages together are the list. -/
  rows : ((List.range' 1 (lastPage size L.length)).flatMap fun page => slice size (page - 1) L) = L
  /-- A search for any page, in the list or behind it, returns its slice and the length. -/
  search : ∀ p : Pagination, p.size = size →
    ((Request.search (query.getD "") a p).alone pg base T).1 =
      .ok (.page (some ⟨slice size (p.page - 1) L, L.length⟩))
  /-- The header of a page is the links that it has. -/
  header : ∀ page < 2 ^ 32, (buildLinkHeader page size L.length query).toList =
    ", ".toList.intercalate ((namedPages page size L.length).map fun l =>
      WebLinks.text (linkTarget size (query.map String.toList) (l.2 % 2 ^ 32)) l.1.text.toList)
  /-- Links that carry a safe filter, or none, are read back as requests for these pages. -/
  requests : (∀ q ∈ query, SafeInLink q) → ∀ requests,
    WebLinks.Visits (fun q => followLink .next
        (buildLinkHeader (q.page.getD 1) (q.size.getD 20) L.length q.query))
        ⟨query, some 1, some size⟩ requests ↔
      requests = (List.range' 1 (lastPage size L.length)).map fun n => ⟨query, some n, some size⟩
  /-- The handler responds with these pages, if the filter is a legal header value and the times
  can be formatted. -/
  responses : (∀ s ∈ query, isHeaderText s = true) →
    (∀ s ∈ L, inChronoRange (instantToMillis base s.updatedAt) = true) →
    ∀ rfc3339 headers, RespondsWith pg base rfc3339 headers a T query size L

/-- **The links walk the visible list**, whatever page size is asked for. -/
theorem walkedBy_of_fixedOrder (query : Option String) (hpg : pg.FixedOrder)
    (hacc : a.SearchAccepted (query.getD ""))
    (hL : (pg.orderByKey (a.visibleRows pg (query.getD "") T)).mapM
      (SettingRecord.intoDomain base) = .ok L) (hlength : L.length < 2 ^ 32) {size : ℕ}
    (hsize : 1 ≤ size) (hsize' : size ≤ 100) : WalkedBy pg base a T query size L := by
  have hlast := lastPage_lt hsize hlength
  have hsize32 : size < 2 ^ 32 := by omega
  refine ⟨visits_linked hsize hlength,
    fun hne page _ => linked_last_of_pos hsize hlength (List.length_pos_iff.2 hne) page,
    fun page hpage => ?_, fun page hpage hne => ?_, ?_, fun p hp => ?_,
    fun page hpage => toList_buildLinkHeader hpage size L.length query,
    fun hsafe => visits_of_linked_next hsize hlength fun page _ hpage =>
      followLink_buildLinkHeader hsafe hsize32 hpage L.length .next,
    fun hquery htimes rfc3339 headers =>
      respondsWith_of_slices hlength hsize hsize' (fun p hp => ?_) hquery htimes⟩
  · rw [List.mem_range'_1] at hpage
    exact linked_prev_of_lt hpage.1 (by omega)
  · rw [List.mem_range'_1] at hpage
    have hfull : page * size < L.length := (mul_lt_iff_lt_lastPage hsize hpage.1).2 (by omega)
    have hsplit : page * size = (page - 1) * size + size := by
      rw [← Nat.succ_mul, Nat.succ_eq_add_one, Nat.sub_add_cancel hpage.1]
    rw [length_slice]
    omega
  · rw [List.range'_eq_map_range, List.flatMap_map]
    simp only [Nat.add_sub_cancel_left]
    exact flatMap_slice (le_lastPage_mul hsize _)
  · subst hp
    exact alone_search_slice hpg hacc hL p
  · subst hp
    exact listAlone_slice hpg hacc hL rfc3339 headers p

end Rows

/-! ### Two settings, one on each page -/

theorem Postgres.fixedOrder_ofJsonb (jsonb : Value → Value) :
    (Postgres.ofJsonb jsonb).FixedOrder := by
  intro rs l hl
  have hsorted := ((Postgres.sorts_ofJsonb jsonb).sorted rs).sublist hl
  refine List.Pairwise.insertionSort_eq (hsorted.imp fun {r r'} h => ?_)
  simpa [Postgres.KeyLe, Postgres.ofJsonb] using h

open Sample in
/-- Two pages with one setting each, and a client that follows the links of the responses. -/
theorem walkedBy_alice :
    let respond (q : ListQuery) :=
      listAlone (Postgres.ofJsonb id) ⟨0, 0⟩ Int.repr [] q aliceAdmin afterBoth.state
    WalkedBy (Postgres.ofJsonb id) ⟨0, 0⟩ aliceAdmin afterBoth.state (some "theme") 1
        settingsOfAlice ∧
      WebLinks.Visits (fun q => followed .next (respond q)) ⟨some "theme", some 1, some 1⟩
        [⟨some "theme", some 1, some 1⟩, ⟨some "theme", some 2, some 1⟩] := by
  have hwalked : WalkedBy (Postgres.ofJsonb id) ⟨0, 0⟩ aliceAdmin afterBoth.state (some "theme") 1
      settingsOfAlice :=
    walkedBy_of_fixedOrder (some "theme") (Postgres.fixedOrder_ofJsonb id) (by decide) (by rfl)
      (by decide) (by decide) (by decide)
  have hsafe : ∀ q ∈ some "theme", SafeInLink q := by
    intro q hq
    rw [← Option.some.inj hq]
    exact ⟨by decide, by decide, by decide, by decide⟩
  have hresponses := hwalked.responses (by decide) (by decide) Int.repr []
  exact ⟨hwalked, (hresponses.next hsafe _).2 rfl⟩

end SettingsService
