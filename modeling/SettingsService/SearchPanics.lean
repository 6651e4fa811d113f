import SettingsService.PageLinks
import SettingsService.Paging
import SettingsService.UpdatedAt

/-!
# Searches that panic

`list_settings` expects that the text of its `Link` header is legal and that the time of every
setting can be formatted.  The filter stands in the header as it was read from the request, so a
request decides over the first; what the rows of the page hold decides over the second.

Main definitions:

* `HeaderChar` — a character of a legal header value;
* `listAlone` — what the handler does while no other statement runs;
* `EndsInResponse`, `PageLegal` — it does not panic, and what it takes for that.

Main results:

* `isHeaderText_buildLinkHeader_iff` — **the header is legal exactly when the filter is**;
* `listAlone_of_valid` — a valid request is a search and a response;
* `endsInResponse_iff` — **when a search ends in a response**;
* `not_endsInResponse` — a filter with a line feed.
-/

set_option relaxedAutoImplicit false
set_option autoImplicit false

namespace SettingsService

open Interaction (Prog)

/-! ### Legal header values -/

/-- A character of a legal header value: a tab, or no control character. -/
def HeaderChar (c : Char) : Prop := c = '\t' ∨ 32 ≤ c.toNat ∧ c.toNat ≠ 127

instance : DecidablePred HeaderChar :=
  fun c => inferInstanceAs (Decidable (c = '\t' ∨ 32 ≤ c.toNat ∧ c.toNat ≠ 127))

theorem isHeaderText_iff {s : String} : isHeaderText s = true ↔ ∀ c ∈ s.toList, HeaderChar c := by
  simp [isHeaderText, HeaderChar]

theorem headerChar_of_mem_repr {n : ℕ} {c : Char} (hc : c ∈ n.repr.toList) : HeaderChar c := by
  have hdigit := Texts.toNat_of_mem_repr hc
  exact .inr ⟨by omega, by omega⟩

/-- A target is legal exactly when its filter is. -/
theorem forall_mem_linkTarget_iff (size page : ℕ) {query : Option (List Char)} :
    (∀ c ∈ linkTarget size query page, HeaderChar c) ↔ ∀ q ∈ query, ∀ c ∈ q, HeaderChar c := by
  have hfront : ∀ c ∈ linkTarget size none page ++ "&query=".toList, HeaderChar c := by
    unfold linkTarget linkQuery
    simp only [Option.elim_none, List.append_nil, List.forall_mem_append, List.forall_mem_cons]
    exact ⟨⟨isHeaderText_iff.1 (by decide), isHeaderText_iff.1 (by decide), by decide,
      fun c => headerChar_of_mem_repr, by decide, isHeaderText_iff.1 (by decide), by decide,
      fun c => headerChar_of_mem_repr⟩, isHeaderText_iff.1 (by decide)⟩
  cases query with
  | none =>
      refine ⟨fun _ q hq => absurd hq (by simp), fun _ c hc => hfront c ?_⟩
      exact List.mem_append_left _ hc
  | some q =>
      rw [linkTarget_some, List.forall_mem_append, and_iff_right hfront]
      exact ⟨fun h q' hq' => Option.some.inj hq' ▸ h, fun h => h q rfl⟩

/-- A link is legal exactly when its filter is. -/
theorem forall_mem_link_iff {size page : ℕ} {query : Option (List Char)} {r : Rel} :
    (∀ c ∈ WebLinks.text (linkTarget size query page) r.text.toList, HeaderChar c) ↔
      ∀ q ∈ query, ∀ c ∈ q, HeaderChar c := by
  have hrel : ∀ c ∈ r.text.toList, HeaderChar c := by
    cases r with
    | first => exact isHeaderText_iff.1 (by decide)
    | prev => exact isHeaderText_iff.1 (by decide)
    | next => exact isHeaderText_iff.1 (by decide)
    | last => exact isHeaderText_iff.1 (by decide)
  have hopen : HeaderChar '<' := by decide
  have hmiddle : ∀ c ∈ ">; rel=\"".toList, HeaderChar c := isHeaderText_iff.1 (by decide)
  have hclose : ∀ c ∈ ['"'], HeaderChar c := List.forall_mem_singleton.2 (by decide)
  rw [← forall_mem_linkTarget_iff size page, WebLinks.text,
    List.forall_mem_cons, List.forall_mem_append, List.forall_mem_append, List.forall_mem_append,
    and_iff_right hopen, and_iff_left hclose, and_iff_left hrel, and_iff_left hmiddle]

/-- **The header is legal exactly when the filter is.** -/
theorem isHeaderText_buildLinkHeader_iff {page : ℕ} (hpage : page < 2 ^ 32) (size total : ℕ)
    (query : Option String) :
    isHeaderText (buildLinkHeader page size total query) = true ↔
      ∀ q ∈ query, isHeaderText q = true := by
  rw [isHeaderText_iff, toList_buildLinkHeader hpage,
    Texts.forall_mem_intercalate_iff (isHeaderText_iff.1 (by decide)), List.forall_mem_map]
  simp only [forall_mem_link_iff, isHeaderText_iff]
  constructor
  · intro h q hq
    refine h (.first, 1) List.mem_cons_self q.toList ?_
    exact Option.mem_map_of_mem _ hq
  · intro h l _ q hq
    obtain ⟨s, hs, rfl⟩ := Option.mem_map.1 hq
    exact h s hs

/-! ### The handler -/

/-- **What the handler does** while no other statement runs. -/
def listAlone (pg : Postgres) (base : Anchor) (rfc3339 : ℤ → String) (headers : HeaderMap)
    (q : ListQuery) (auth : Authority) (T : Table) : Except ApiError (Option Response) :=
  (Prog.run pg.exec (listSettings base rfc3339 headers q auth).run T).1

section Handler

variable {pg : Postgres} {base : Anchor} {rfc3339 : ℤ → String} {headers : HeaderMap}
  {q : ListQuery} {a : Authority} {T : Table}

theorem listAlone_of_invalid {e : PaginationError}
    (h : Pagination.new (q.page.getD 1) (q.size.getD 20) = .error e) :
    listAlone pg base rfc3339 headers q a T = .error (.ofPagination e) := by
  rw [listAlone, listSettings, h]
  rfl

/-- A valid request is a search and a response. -/
theorem listAlone_of_valid {p : Pagination}
    (h : Pagination.new (q.page.getD 1) (q.size.getD 20) = .ok p) :
    listAlone pg base rfc3339 headers q a T =
      ((Prog.run pg.exec (Service.search base (q.query.getD "") a p).run T).1.mapError
        ApiError.ofSettings).map fun page =>
          page.bind (pageResponse base rfc3339 headers p q.query) := by
  rw [listAlone, listSettings, h]
  exact congrArg Prod.fst (run_service_bind _ _ T)

/-- The rows of the page that is asked for. -/
def requestedRows (pg : Postgres) (a : Authority) (q : ListQuery) (p : Pagination) (T : Table) :
    List SettingRecord :=
  pageRows pg a (q.query.getD "") p.size (p.page - 1) T

theorem eq_of_map_page {x y : Except SettingsError (Option SearchPage)}
    (h : x.map Reply.page = y.map Reply.page) : x = y := by
  cases x with
  | error e =>
      cases y with
      | error e' => rw [Except.error.inj h]
      | ok page => exact absurd h (by simp [Except.map])
  | ok page =>
      cases y with
      | error e => exact absurd h (by simp [Except.map])
      | ok page' => rw [Reply.page.inj (Except.ok.inj h)]

/-- What the search of the handler returns, when Postgres takes its texts. -/
theorem run_search_eq (hacc : a.SearchAccepted (q.query.getD "")) (p : Pagination) :
    (Prog.run pg.exec (Service.search base (q.query.getD "") a p).run T).1 =
      ((requestedRows pg a q p T).mapM (SettingRecord.intoDomain base)).map fun ss =>
        some ⟨ss, (a.visibleRows pg (q.query.getD "") T).length⟩ := by
  have halone : ((Request.search (q.query.getD "") a (p.nth (p.page - 1))).alone pg base T).1 = _ :=
    alone_search_nth hacc (p.page - 1)
  rw [p.nth_page, Request.alone, Request.prog, run_map] at halone
  refine eq_of_map_page (halone.trans ?_)
  rw [requestedRows]
  cases (pageRows pg a (q.query.getD "") p.size (p.page - 1) T).mapM
    (SettingRecord.intoDomain base) with
  | error e => rfl
  | ok ss => rfl

theorem run_search_of_not_accepted (hacc : ¬ a.SearchAccepted (q.query.getD ""))
    (p : Pagination) :
    (Prog.run pg.exec (Service.search base (q.query.getD "") a p).run T).1 = .error .internal := by
  have halone : ((Request.search (q.query.getD "") a p).alone pg base T).1 = _ :=
    alone_search_fst (q.query.getD "") p
  rw [Postgres.exec_of_not_accepted fun h =>
    hacc ((Authority.accepted_search_iff _ _ _).1 h), Request.alone, Request.prog,
    run_map] at halone
  exact eq_of_map_page halone

theorem pageResponse_ne_none_iff {p : Pagination} (hpage : p.page < 2 ^ 32) {query : Option String}
    {page : SearchPage} :
    pageResponse base rfc3339 headers p query page ≠ none ↔
      (∀ s ∈ query, isHeaderText s = true) ∧
        ∀ s ∈ page.rows, inChronoRange (instantToMillis base s.updatedAt) = true := by
  have htotal : isHeaderText page.total.repr = true :=
    isHeaderText_iff.2 fun c => headerChar_of_mem_repr
  rw [← isHeaderText_buildLinkHeader_iff hpage p.size page.total query, ← List.all_eq_true,
    and_comm, ← Bool.and_eq_true, pageResponse]
  by_cases hok : ((page.rows.all fun s => inChronoRange (instantToMillis base s.updatedAt)) &&
      isHeaderText (buildLinkHeader p.page p.size page.total query)) = true
  · simp [hok, htotal]
  · simp [hok, htotal]

/-- The response of a page that is legal, with what it says. -/
theorem exists_pageResponse {p : Pagination} (hpage : p.page < 2 ^ 32) {query : Option String}
    (hquery : ∀ s ∈ query, isHeaderText s = true) (page : SearchPage)
    (htimes : ∀ s ∈ page.rows, inChronoRange (instantToMillis base s.updatedAt) = true)
    (rfc3339 : ℤ → String) (headers : HeaderMap) :
    ∃ resp, pageResponse base rfc3339 headers p query page = some resp ∧
      resp.Encodes headers (page.rows.map (SettingResponse.ofSetting base rfc3339)) ∧
      resp.headers.lookup "link" = some (buildLinkHeader p.page p.size page.total query) ∧
      resp.headers.lookup "x-total-count" = some page.total.repr := by
  have hne : pageResponse base rfc3339 headers p query page ≠ none :=
    (pageResponse_ne_none_iff hpage).2 ⟨hquery, htimes⟩
  obtain ⟨resp, hresp⟩ := Option.ne_none_iff_exists'.1 hne
  obtain ⟨-, rfl⟩ := (pageResponse_eq_some_iff base rfc3339).1 hresp
  exact ⟨_, hresp, ⟨rfl, rfl, rfl⟩, rfl, rfl⟩

/-- The times of the settings of a page are the times of its rows, from the anchor on. -/
theorem forall_updatedAt_iff {rows : List SettingRecord} {ss : List Setting}
    (h : rows.mapM (SettingRecord.intoDomain base) = .ok ss) :
    (∀ s ∈ ss, inChronoRange (instantToMillis base s.updatedAt) = true) ↔
      ∀ r ∈ rows, inChronoRange (max r.updatedAt base.ms) = true := by
  have htime : ∀ (r : SettingRecord) (s : Setting), r.intoDomain base = .ok s →
      instantToMillis base s.updatedAt = max r.updatedAt base.ms := by
    intro r s hs
    obtain ⟨key, value, -, -, rfl⟩ := SettingRecord.intoDomain_eq_ok_iff.1 hs
    exact instantToMillis_millisToInstant base r.updatedAt
  constructor
  · intro hss r hr
    obtain ⟨s, hs⟩ := exists_mapM_ok_iff.1 ⟨ss, h⟩ r hr
    rw [← htime r s hs]
    exact hss s ((mem_mapM_ok h).2 ⟨r, hr, hs⟩)
  · intro hrows s hs
    obtain ⟨r, hr, hrs⟩ := (mem_mapM_ok h).1 hs
    rw [htime r s hrs]
    exact hrows r hr

/-- **A search ends in a response**: no expectation fails, and the number of the next page does not
overflow. -/
def EndsInResponse (pg : Postgres) (base : Anchor) (rfc3339 : ℤ → String) (headers : HeaderMap)
    (q : ListQuery) (a : Authority) (T : Table) : Prop :=
  listAlone pg base rfc3339 headers q a T ≠ .ok none ∧
    ∀ p, Pagination.new (q.page.getD 1) (q.size.getD 20) = .ok p →
      p.page * p.size < (a.visibleRows pg (q.query.getD "") T).length → p.page + 1 < 2 ^ 32

/-- What a page that is returned took. -/
structure PageLegal (pg : Postgres) (base : Anchor) (q : ListQuery) (a : Authority) (T : Table)
    (p : Pagination) : Prop where
  /-- The filter is a legal header value. -/
  query : ∀ s ∈ q.query, isHeaderText s = true
  /-- The times of the page can be formatted. -/
  times : ∀ r ∈ requestedRows pg a q p T, inChronoRange (max r.updatedAt base.ms) = true

theorem page_lt_of_new (hpage : ∀ n ∈ q.page, n < 2 ^ 32) {p : Pagination}
    (hp : Pagination.new (q.page.getD 1) (q.size.getD 20) = .ok p) : p.page < 2 ^ 32 := by
  rw [(Pagination.eq_of_new hp).1]
  cases hq : q.page with
  | none => exact Nat.one_lt_two_pow (by decide)
  | some n => exact hpage n hq

/-- A search that Postgres takes and whose rows decode responds exactly when its page is legal. -/
theorem listAlone_ne_iff (hpage : ∀ n ∈ q.page, n < 2 ^ 32) {p : Pagination}
    (hp : Pagination.new (q.page.getD 1) (q.size.getD 20) = .ok p)
    (hacc : a.SearchAccepted (q.query.getD ""))
    (hdec : ∀ r ∈ requestedRows pg a q p T, ∃ s, r.intoDomain base = .ok s) :
    listAlone pg base rfc3339 headers q a T ≠ .ok none ↔ PageLegal pg base q a T p := by
  obtain ⟨ss, hss⟩ := exists_mapM_ok_iff.2 hdec
  have halone : listAlone pg base rfc3339 headers q a T = .ok (pageResponse base rfc3339 headers p
      q.query ⟨ss, (a.visibleRows pg (q.query.getD "") T).length⟩) := by
    rw [listAlone_of_valid hp, run_search_eq hacc, hss]
    rfl
  rw [halone, Ne, Except.ok.injEq, ← Ne, pageResponse_ne_none_iff (page_lt_of_new hpage hp),
    forall_updatedAt_iff hss]
  exact ⟨fun h => ⟨h.1, h.2⟩, fun h => ⟨h.query, h.times⟩⟩

/-- A search that is refused on the way to its page responds with an error. -/
theorem listAlone_ne_of_refused
    (h : ∀ p, Pagination.new (q.page.getD 1) (q.size.getD 20) = .ok p →
      ¬ (a.SearchAccepted (q.query.getD "") ∧
        ∀ r ∈ requestedRows pg a q p T, ∃ s, r.intoDomain base = .ok s)) :
    listAlone pg base rfc3339 headers q a T ≠ .ok none := by
  cases hp : Pagination.new (q.page.getD 1) (q.size.getD 20) with
  | error e =>
      rw [listAlone_of_invalid hp]
      exact nofun
  | ok p =>
      rw [listAlone_of_valid hp]
      by_cases hacc : a.SearchAccepted (q.query.getD "")
      · rw [run_search_eq hacc]
        cases hss : (requestedRows pg a q p T).mapM (SettingRecord.intoDomain base) with
        | error e => exact nofun
        | ok ss => exact absurd ⟨hacc, exists_mapM_ok_iff.1 ⟨ss, hss⟩⟩ (h p hp)
      · rw [run_search_of_not_accepted hacc]
        exact nofun

/-- **A search ends in a response exactly when** its page is legal, if it gets to one: the page and
the size are valid, Postgres takes the texts and the rows decode. -/
theorem endsInResponse_iff (rfc3339 : ℤ → String) (headers : HeaderMap)
    (hpage : ∀ n ∈ q.page, n < 2 ^ 32)
    (htotal : (a.visibleRows pg (q.query.getD "") T).length < 2 ^ 32) :
    EndsInResponse pg base rfc3339 headers q a T ↔
      ∀ p, Pagination.new (q.page.getD 1) (q.size.getD 20) = .ok p →
        a.SearchAccepted (q.query.getD "") →
        (∀ r ∈ requestedRows pg a q p T, ∃ s, r.intoDomain base = .ok s) →
        PageLegal pg base q a T p := by
  constructor
  · rintro ⟨hresponds, -⟩ p hp hacc hdec
    exact (listAlone_ne_iff hpage hp hacc hdec).1 hresponds
  · intro h
    refine ⟨?_, fun p _ hlt => ?_⟩
    · by_cases hrefused : ∀ p, Pagination.new (q.page.getD 1) (q.size.getD 20) = .ok p →
          ¬ (a.SearchAccepted (q.query.getD "") ∧
            ∀ r ∈ requestedRows pg a q p T, ∃ s, r.intoDomain base = .ok s)
      · exact listAlone_ne_of_refused hrefused
      · simp only [not_forall, not_not] at hrefused
        obtain ⟨p, hp, hacc, hdec⟩ := hrefused
        exact (listAlone_ne_iff hpage hp hacc hdec).2 (h p hp hacc hdec)
    · have hle : p.page ≤ p.page * p.size := Nat.le_mul_of_pos_right _ p.size_pos
      omega

end Handler

/-! ### A line feed -/

open Sample in
/-- The second of two pages of the settings of Alice that a filter finds. -/
theorem endsInResponse_alice :
    EndsInResponse (Postgres.ofJsonb id) ⟨0, 0⟩ Int.repr [] ⟨some "theme", some 2, some 1⟩
      aliceAdmin afterBoth.state := by
  refine (endsInResponse_iff Int.repr [] (by simp) (by decide)).2 fun p hp _ _ => ?_
  obtain rfl := Except.ok.inj hp
  exact ⟨by decide, by decide⟩

open Sample in
/-- **A filter with a line feed**: the header cannot be built. -/
theorem not_endsInResponse :
    ¬ ∀ (pg : Postgres) (base : Anchor) (rfc3339 : ℤ → String) (headers : HeaderMap)
      (q : ListQuery) (a : Authority) (T : Table), (∀ n ∈ q.page, n < 2 ^ 32) →
      (a.visibleRows pg (q.query.getD "") T).length < 2 ^ 32 →
        EndsInResponse pg base rfc3339 headers q a T := by
  intro h
  have hpage : ∀ n ∈ (⟨some "a\nb", none, none⟩ : ListQuery).page, n < 2 ^ 32 := by simp
  have hends := h (Postgres.ofJsonb id) ⟨0, 0⟩ Int.repr [] ⟨some "a\nb", none, none⟩ alice
    Table.empty hpage (by decide)
  have hempty : requestedRows (Postgres.ofJsonb id) alice ⟨some "a\nb", none, none⟩
      ⟨1, 20, by decide, by decide, by decide⟩ Table.empty = [] := rfl
  have hlegal := (listAlone_ne_iff hpage rfl (by decide) (by simp [hempty])).1 hends.1
  exact absurd (hlegal.query "a\nb" rfl) (by decide)

end SettingsService
