import SettingsService.ListSettings
import SettingsService.Urlencoded
import SettingsService.WebLinks

/-!
# The links of a page

The `Link` header of a page of a search names the first, the previous, the next and the last page.
Each target carries the filter and the size, so that following a link is the same search with
another page.  The filter is put into the targets as it was read from the request, without being
encoded again; and the page numbers of a set that is larger than `u32` pages wrap.

Main definitions:

* `Rel`, `namedPages` — the relations, and the pages that the links name;
* `linkTarget`, `queryPart` — the target of a link, and the query of a reference;
* `ListQuery.read` — the parameters of a query, as the service reads them;
* `readLinks`, `CarriesFilter` — the header as a client and then the service read it, and what it
  should say;
* `SafeInLink` — a filter that stands in a link for itself.

Main results:

* `toList_buildLinkHeader` — the header is the links of the named pages;
* `readLinks_buildLinkHeader` — **what the links of a safe filter say**;
* `carriesFilter_iff` — **the links carry the filter exactly when it is safe and the pages are
  `u32`**;
* `not_carriesFilter` — a filter that is lost.
-/

set_option relaxedAutoImplicit false
set_option autoImplicit false

namespace SettingsService

/-! ### The pages that are named -/

/-- The relations of the links. -/
inductive Rel
  | first
  | prev
  | next
  | last
  deriving DecidableEq

/-- The relation type in the header. -/
def Rel.text : Rel → String
  | .first => "first"
  | .prev => "prev"
  | .next => "next"
  | .last => "last"

theorem Rel.not_mem_text (r : Rel) : '"' ∉ r.text.toList ∧ '\\' ∉ r.text.toList := by
  cases r with
  | first => decide
  | prev => decide
  | next => decide
  | last => decide

/-- **The pages that the links of a page name.** -/
def namedPages (page size total : ℕ) : List (Rel × ℕ) :=
  [(.first, 1)] ++ (if 1 < page then [(.prev, page - 1)] else []) ++
    (if page * size < total then [(.next, page + 1)] else []) ++
    (if 0 < total then [(.last, lastPage size total)] else [])

theorem mem_namedPages_iff {page size total : ℕ} {l : Rel × ℕ} :
    l ∈ namedPages page size total ↔ l = (.first, 1) ∨ (1 < page ∧ l = (.prev, page - 1)) ∨
      (page * size < total ∧ l = (.next, page + 1)) ∨
      (0 < total ∧ l = (.last, lastPage size total)) := by
  simp only [namedPages, List.mem_append, List.mem_ite_nil_right, List.mem_singleton, or_assoc]

/-- The query of the link to a page. -/
def linkQuery (size : ℕ) (query : Option (List Char)) (page : ℕ) : List Char :=
  "page".toList ++ '=' :: (page.repr.toList ++ '&' :: ("size".toList ++ '=' ::
    (size.repr.toList ++ query.elim [] fun q => '&' :: ("query".toList ++ '=' :: q))))

/-- The target of the link to a page. -/
def linkTarget (size : ℕ) (query : Option (List Char)) (page : ℕ) : List Char :=
  "settings?".toList ++ linkQuery size query page

theorem toList_link (size : ℕ) (query : Option String) (page : ℕ) (rel : String) :
    ("<settings?page=" ++ page.repr ++ "&size=" ++ size.repr ++
      (query.map ("&query=" ++ ·)).getD "" ++ ">; rel=\"" ++ rel ++ "\"").toList =
        WebLinks.text (linkTarget size (query.map String.toList) page) rel.toList := by
  unfold linkTarget linkQuery
  cases query with
  | none => simp [WebLinks.text]
  | some q => simp [WebLinks.text]

/-- **The header is the links of the named pages.** -/
theorem toList_buildLinkHeader {page : ℕ} (hpage : page < 2 ^ 32) (size total : ℕ)
    (query : Option String) :
    (buildLinkHeader page size total query).toList =
      ", ".toList.intercalate ((namedPages page size total).map fun l =>
        WebLinks.text (linkTarget size (query.map String.toList) (l.2 % 2 ^ 32))
          l.1.text.toList) := by
  have hprev : (page - 1) % 2 ^ 32 = page - 1 := Nat.mod_eq_of_lt (by omega)
  have hmap : ∀ {α β : Type} (f : α → β) (c : Prop) [Decidable c] (x : α),
      (if c then [x] else []).map f = if c then [f x] else [] := by
    intro α β f c _ x
    split_ifs <;> rfl
  rw [buildLinkHeader, String.toList_intercalate]
  simp only [namedPages, List.map_append, List.map_cons, List.map_nil, hmap, toList_link,
    hprev, lastPage, Rel.text]
  rfl

/-! ### Reading a query -/

/-- The value of a field.  A field that is given twice is an error. -/
def field (name : String) (ps : List (List Char × List Char)) : Option (Option String) :=
  match ps.filter fun p => p.1 == name.toList with
  | [] => some none
  | [p] => some (some (String.ofList p.2))
  | _ => none

/-- The value of a field of type `Option<u32>`. -/
def number (name : String) (ps : List (List Char × List Char)) : Option (Option ℕ) :=
  (field name ps).bind fun value => value.elim (some none) fun s =>
    (parseUnsigned (2 ^ 32) s).map some

/-- **`Query<ListQuery>`**: the parameters of a query; no parameters are a bad request. -/
def ListQuery.read (cs : List Char) : Option ListQuery := do
  let query ← field "query" (Urlencoded.pairs cs)
  let page ← number "page" (Urlencoded.pairs cs)
  let size ← number "size" (Urlencoded.pairs cs)
  return ⟨query, page, size⟩

/-- A field has the one value that is given. -/
theorem eq_of_field {name : String} {ps : List (List Char × List Char)} {s : String}
    {value : List Char} (h : field name ps = some (some s)) (hmem : (name.toList, value) ∈ ps) :
    value = s.toList := by
  have hfilter : (name.toList, value) ∈ ps.filter fun p => p.1 == name.toList :=
    List.mem_filter.2 ⟨hmem, beq_self_eq_true _⟩
  unfold field at h
  split at h
  · exact absurd h (by simp)
  · rename_i p hp
    rw [hp, List.mem_singleton] at hfilter
    rw [← Option.some.inj (Option.some.inj h), ← hfilter, String.toList_ofList]
  · exact absurd h (by simp)

theorem field_query_of_read {cs : List Char} {q : ListQuery} (h : ListQuery.read cs = some q) :
    field "query" (Urlencoded.pairs cs) = some q.query := by
  unfold ListQuery.read at h
  obtain ⟨query, hquery, h⟩ := Option.bind_eq_some_iff.1 h
  obtain ⟨page, -, h⟩ := Option.bind_eq_some_iff.1 h
  obtain ⟨size, -, h⟩ := Option.bind_eq_some_iff.1 h
  rw [hquery, ← Option.some.inj h]

/-! ### Reading a target -/

/-- The query of a reference: what stands behind the first `?`, up to a fragment. -/
def queryPart (target : List Char) : List Char :=
  ((target.takeWhile (· != '#')).dropWhile (· != '?')).tail

theorem linkTarget_some (size : ℕ) (q : List Char) (page : ℕ) :
    linkTarget size (some q) page = linkTarget size none page ++ "&query=".toList ++ q := by
  unfold linkTarget linkQuery
  simp

/-- The front of a target holds letters, digits and separators. -/
theorem not_mem_linkTarget {c : Char} (hc : c ∉ "settings?page=&size&query=".toList)
    (hdigit : c.isDigit = false) (size page : ℕ) :
    c ∉ linkTarget size none page ++ "&query=".toList := by
  have hpage := Texts.not_mem_repr hdigit page
  have hsize := Texts.not_mem_repr hdigit size
  unfold linkTarget linkQuery
  simp only [String.reduceToList, List.mem_cons, List.not_mem_nil, or_false, not_or] at hc
  simp only [String.reduceToList, List.mem_append, List.mem_cons, List.not_mem_nil,
    Option.elim_none, hc, hpage, hsize, or_self, not_false_eq_true]

theorem takeWhile_append_of_not_mem {c : Char} {xs : List Char} (h : c ∉ xs) (ys : List Char) :
    (xs ++ ys).takeWhile (· != c) = xs ++ ys.takeWhile (· != c) := by
  refine List.takeWhile_append_of_pos fun x hx => ?_
  rw [bne_iff_ne]
  exact fun heq => h (heq ▸ hx)

/-- A target is cut in its filter. -/
theorem takeWhile_linkTarget {c : Char} (hc : c ∉ "settings?page=&size&query=".toList)
    (hdigit : c.isDigit = false) (size : ℕ) (query : Option (List Char)) (page : ℕ) :
    (linkTarget size query page).takeWhile (· != c) =
      linkTarget size (query.map fun q => q.takeWhile (· != c)) page := by
  have hfront := not_mem_linkTarget hc hdigit size page
  cases query with
  | none =>
      have hcut := takeWhile_append_of_not_mem (fun h => hfront (List.mem_append_left _ h)) []
      rwa [List.append_nil, List.takeWhile_nil, List.append_nil] at hcut
  | some q =>
      rw [Option.map_some, linkTarget_some, linkTarget_some]
      exact takeWhile_append_of_not_mem hfront q

theorem queryPart_linkTarget (size : ℕ) (query : Option (List Char)) (page : ℕ) :
    queryPart (linkTarget size query page) =
      linkQuery size (query.map fun q => q.takeWhile (· != '#')) page := by
  rw [queryPart, takeWhile_linkTarget (by decide) (by decide)]
  unfold linkTarget
  rfl

/-! ### The parameters of a target -/

theorem decode_repr (n : ℕ) : Urlencoded.decode n.repr.toList = n.repr.toList :=
  Urlencoded.decode_of_plain ⟨Texts.not_mem_repr (by decide) n,
    Urlencoded.hasEscape_eq_false (Texts.not_mem_repr (by decide) n)⟩

theorem pairs_linkQuery (size : ℕ) (query : Option (List Char)) (page : ℕ) :
    Urlencoded.pairs (linkQuery size query page) =
      [("page".toList, page.repr.toList), ("size".toList, size.repr.toList)] ++
        query.elim [] fun q => Urlencoded.pairs ("query".toList ++ '=' :: q) := by
  have hpage : Urlencoded.decode "page".toList = "page".toList :=
    Urlencoded.decode_of_plain (by decide)
  have hsize : Urlencoded.decode "size".toList = "size".toList :=
    Urlencoded.decode_of_plain (by decide)
  unfold linkQuery
  rw [Urlencoded.pairs_cons _ (by decide) (by decide) (Texts.not_mem_repr (by decide) page),
    decode_repr, hpage]
  cases query with
  | none =>
      rw [Option.elim_none, Option.elim_none, List.append_nil, Urlencoded.pairs_singleton
        (by decide) (by decide) (Texts.not_mem_repr (by decide) size), decode_repr, hsize]
      rfl
  | some q =>
      rw [Option.elim_some, Option.elim_some, Urlencoded.pairs_cons _ (by decide) (by decide)
        (Texts.not_mem_repr (by decide) size), decode_repr, hsize]
      rfl

/-- Three fields, each given at most once. -/
theorem field_eq (P S : List Char) (query : Option (List Char)) :
    let ps := [("page".toList, P), ("size".toList, S)] ++
      query.elim [] fun q => [("query".toList, q)]
    field "page" ps = some (some (String.ofList P)) ∧
      field "size" ps = some (some (String.ofList S)) ∧
      field "query" ps = some (query.map String.ofList) := by
  intro ps
  unfold ps field
  cases query with
  | none => exact ⟨rfl, rfl, rfl⟩
  | some q => exact ⟨rfl, rfl, rfl⟩

/-- **The parameters of a query with one value of the filter.** -/
theorem read_linkQuery {size page : ℕ} (hsize : size < 2 ^ 32) (hpage : page < 2 ^ 32)
    {query : Option (List Char)} (hquery : ∀ q ∈ query, '&' ∉ q ∧ Urlencoded.Plain q) :
    ListQuery.read (linkQuery size query page) =
      some ⟨query.map String.ofList, some page, some size⟩ := by
  have hpairs : Urlencoded.pairs (linkQuery size query page) =
      [("page".toList, page.repr.toList), ("size".toList, size.repr.toList)] ++
        query.elim [] fun q => [("query".toList, q)] := by
    rw [pairs_linkQuery]
    cases query with
    | none => rfl
    | some q =>
        obtain ⟨hamp, hplain⟩ := hquery q rfl
        have hname : Urlencoded.decode "query".toList = "query".toList :=
          Urlencoded.decode_of_plain (by decide)
        rw [Option.elim_some, Option.elim_some, Urlencoded.pairs_singleton (by decide) (by decide)
          hamp, hname, Urlencoded.decode_of_plain hplain]
  obtain ⟨hfp, hfs, hfq⟩ := field_eq page.repr.toList size.repr.toList query
  unfold ListQuery.read number
  rw [hpairs, hfp, hfs, hfq, String.ofList_toList, String.ofList_toList]
  simp only [Option.bind_eq_bind, Option.bind_some, Option.elim_some, parseUnsigned_repr hpage,
    parseUnsigned_repr hsize, Option.map_some]
  rfl

/-! ### Reading the header -/

/-- **The links of a header**, with the parameters that the service reads when one is followed. -/
def readLinks (header : String) : List (Option (List Char) × Option ListQuery) :=
  (WebLinks.parse header.toList).map fun l => (l.rel, ListQuery.read (queryPart l.target))

/-- **A filter that stands in a link for itself**: it does not end the target, the query or the
parameter, and decoding leaves it as it is. -/
structure SafeInLink (q : String) : Prop where
  target : '>' ∉ q.toList
  fragment : '#' ∉ q.toList
  parameter : '&' ∉ q.toList
  plain : Urlencoded.Plain q.toList

theorem takeWhile_of_not_mem {c : Char} {xs : List Char} (h : c ∉ xs) :
    xs.takeWhile (· != c) = xs := by
  have hcut := takeWhile_append_of_not_mem h []
  rwa [List.append_nil, List.takeWhile_nil, List.append_nil] at hcut

theorem read_linkTarget {size page : ℕ} (hsize : size < 2 ^ 32) (hpage : page < 2 ^ 32)
    {query : Option String} (hquery : ∀ q ∈ query, SafeInLink q) :
    ListQuery.read (queryPart (linkTarget size (query.map String.toList) page)) =
      some ⟨query, some page, some size⟩ := by
  rw [queryPart_linkTarget]
  cases query with
  | none => exact read_linkQuery hsize hpage fun q hq => absurd hq (by simp)
  | some q =>
      have hq := hquery q rfl
      rw [Option.map_some, Option.map_some, takeWhile_of_not_mem hq.fragment,
        read_linkQuery hsize hpage fun q' hq' => Option.some.inj hq' ▸ ⟨hq.parameter, hq.plain⟩,
        Option.map_some, String.ofList_toList]

/-- **What the links of a safe filter say.** -/
theorem readLinks_buildLinkHeader {page size : ℕ} (hpage : page < 2 ^ 32) (hsize : size < 2 ^ 32)
    (total : ℕ) {query : Option String} (hquery : ∀ q ∈ query, SafeInLink q) :
    readLinks (buildLinkHeader page size total query) =
      (namedPages page size total).map fun l =>
        (some l.1.text.toList, some ⟨query, some (l.2 % 2 ^ 32), some size⟩) := by
  have hlinks := WebLinks.parse_intercalate ((namedPages page size total).map fun l =>
    (linkTarget size (query.map String.toList) (l.2 % 2 ^ 32), l.1.text.toList)) ?_
  · rw [List.map_map, List.map_map] at hlinks
    rw [readLinks, toList_buildLinkHeader hpage]
    refine (congrArg _ hlinks).trans ?_
    rw [List.map_map]
    refine List.map_congr_left fun l _ => ?_
    have hread := read_linkTarget hsize (Nat.mod_lt l.2 (Nat.two_pow_pos 32)) hquery
    exact Prod.ext rfl hread
  · intro l hl
    obtain ⟨l, -, rfl⟩ := List.mem_map.1 hl
    refine ⟨?_, ?_⟩
    · have hfront := not_mem_linkTarget (c := '>') (by decide) (by decide) size (l.2 % 2 ^ 32)
      cases query with
      | none => exact fun h => hfront (List.mem_append_left _ h)
      | some q =>
          dsimp only
          rw [Option.map_some, linkTarget_some, List.mem_append]
          exact not_or.2 ⟨hfront, (hquery q rfl).target⟩
    · exact l.1.not_mem_text

/-! ### When the links carry the filter -/

/-- **The links carry the filter**: each is the same search, on the page that its relation names. -/
def CarriesFilter (query : Option String) (p : Pagination) (total : ℕ) : Prop :=
  readLinks (buildLinkHeader p.page p.size total query) =
    (namedPages p.page p.size total).map fun l =>
      (some l.1.text.toList, some ⟨query, some l.2, some p.size⟩)

/-- The first link is read up to the first character that ends it. -/
theorem decode_of_readLinks {page size total : ℕ} (hpage : page < 2 ^ 32) {q : String}
    {rel : Option (List Char)} {read : ListQuery} (hread : read.query = some q)
    (h : (readLinks (buildLinkHeader page size total (some q))).head? = some (rel, some read)) :
    Urlencoded.decode
      (((q.toList.takeWhile (· != '>')).takeWhile (· != '#')).takeWhile (· != '&')) = q.toList := by
  rw [readLinks, List.head?_map, Option.map_eq_some_iff, toList_buildLinkHeader hpage] at h
  obtain ⟨l, hl, hlink⟩ := h
  obtain ⟨rest, hrest⟩ : ∃ rest, ", ".toList.intercalate
      ((namedPages page size total).map fun l => WebLinks.text
        (linkTarget size (some q.toList) (l.2 % 2 ^ 32)) l.1.text.toList) =
      WebLinks.text (linkTarget size (some q.toList) 1) "first".toList ++ rest := by
    obtain ⟨named, hnamed⟩ : ∃ named, namedPages page size total = (.first, 1) :: named := ⟨_, rfl⟩
    rw [hnamed, List.map_cons]
    cases named with
    | nil => exact ⟨[], by rw [List.map_nil, List.intercalate_singleton, List.append_nil]; rfl⟩
    | cons l named =>
        rw [List.map_cons, List.intercalate_cons_cons, List.append_assoc]
        exact ⟨_, rfl⟩
  rw [Option.map_some, hrest] at hl
  have htarget := WebLinks.target_of_head_text hl
  rw [takeWhile_linkTarget (by decide) (by decide), Option.map_some] at htarget
  have hquery := (Prod.mk.inj hlink).2
  rw [htarget, queryPart_linkTarget, Option.map_some] at hquery
  have hfield := field_query_of_read hquery
  rw [pairs_linkQuery, Option.elim_some, hread] at hfield
  obtain ⟨rest', hrest'⟩ := Urlencoded.exists_pairs_eq_cons "query".toList (by decide)
    (by decide) ((q.toList.takeWhile (· != '>')).takeWhile (· != '#'))
  have hname : Urlencoded.decode "query".toList = "query".toList :=
    Urlencoded.decode_of_plain (by decide)
  rw [hrest', hname] at hfield
  exact eq_of_field hfield (List.mem_append_right _ List.mem_cons_self)

theorem safeInLink_of_carriesFilter {q : String} {p : Pagination} (hp : p.page < 2 ^ 32)
    {total : ℕ} (h : CarriesFilter (some q) p total) : SafeInLink q := by
  have hdecode := decode_of_readLinks hp (q := q) rfl (congrArg List.head? h)
  rw [List.takeWhile_takeWhile, List.takeWhile_takeWhile] at hdecode
  have hwhole := Urlencoded.takeWhile_eq_of_decode ?_ hdecode
  · rw [hwhole] at hdecode
    have hmem : ∀ c ∈ q.toList, (c != '&') = true ∧ (c != '#') = true ∧ (c != '>') = true := by
      intro c hc
      rw [← hwhole] at hc
      simpa [and_assoc] using List.mem_takeWhile_imp hc
    refine ⟨fun hc => ?_, fun hc => ?_, fun hc => ?_, Urlencoded.decode_eq_self_iff.1 hdecode⟩
    · exact absurd (hmem _ hc).2.2 (by decide)
    · exact absurd (hmem _ hc).2.1 (by decide)
    · exact absurd (hmem _ hc).1 (by decide)
  · intro c hc
    have hcases : c = '&' ∨ c = '#' ∨ c = '>' := by
      by_contra hne
      simp only [not_or] at hne
      simp [hne] at hc
    rcases hcases with rfl | rfl | rfl
    · decide
    · decide
    · decide

/-- The named pages are page numbers of `u32`. -/
theorem forall_namedPages_lt_iff {page size : ℕ} (hpage : page < 2 ^ 32) (hsize : 0 < size)
    (total : ℕ) : (∀ l ∈ namedPages page size total, l.2 < 2 ^ 32) ↔
      total ≤ (2 ^ 32 - 1) * size := by
  have hlast := lastPage_le_iff (k := 2 ^ 32 - 1) hsize (by decide) total
  rw [← hlast]
  constructor
  · intro h
    rcases Nat.eq_zero_or_pos total with rfl | hpos
    · rw [hlast]
      exact Nat.zero_le _
    · have hmem : (Rel.last, lastPage size total) ∈ namedPages page size total :=
        mem_namedPages_iff.2 (.inr (.inr (.inr ⟨hpos, rfl⟩)))
      have hlt := h _ hmem
      dsimp only at hlt
      omega
  · intro h l hl
    have hnext : page * size < total → page + 1 ≤ lastPage size total := by
      intro hlt
      by_contra hle
      rcases Nat.eq_zero_or_pos page with rfl | hpos
      · exact hle (one_le_lastPage _ _)
      · have := (lastPage_le_iff hsize hpos total).1 (by omega)
        omega
    rcases mem_namedPages_iff.1 hl with rfl | ⟨-, rfl⟩ | ⟨hlt, rfl⟩ | ⟨-, rfl⟩
    · exact Nat.one_lt_two_pow (by decide)
    · dsimp only
      omega
    · have := hnext hlt
      dsimp only
      omega
    · dsimp only
      omega

/-- **The links carry the filter exactly when** it is safe in a link and the last page is a
`u32`. -/
theorem carriesFilter_iff (query : Option String) (p : Pagination) (hp : p.page < 2 ^ 32)
    (total : ℕ) :
    CarriesFilter query p total ↔
      (∀ q ∈ query, SafeInLink q) ∧ total ≤ (2 ^ 32 - 1) * p.size := by
  have hsize : p.size < 2 ^ 32 := lt_of_le_of_lt p.size_le (by decide)
  rw [← forall_namedPages_lt_iff hp p.size_pos total]
  constructor
  · intro h
    have hsafe : ∀ q ∈ query, SafeInLink q := by
      rintro q rfl
      exact safeInLink_of_carriesFilter hp h
    refine ⟨hsafe, fun l hl => ?_⟩
    have hlinks := (readLinks_buildLinkHeader hp hsize total hsafe).symm.trans h
    have hpage := List.map_inj_left.1 hlinks l hl
    have hmod : l.2 % 2 ^ 32 = l.2 := by simpa using hpage
    exact hmod ▸ Nat.mod_lt _ (by decide)
  · rintro ⟨hsafe, hlt⟩
    rw [CarriesFilter, readLinks_buildLinkHeader hp hsize total hsafe]
    refine List.map_congr_left fun l hl => ?_
    rw [Nat.mod_eq_of_lt (hlt l hl)]

theorem carriesFilter_plainText :
    CarriesFilter (some "theme") ⟨2, 20, by decide, by decide, by decide⟩ 50 :=
  (carriesFilter_iff (some "theme") ⟨2, 20, by decide, by decide, by decide⟩ (by decide) 50).2
    ⟨fun _ hq => Option.some.inj hq ▸ ⟨by decide, by decide, by decide, by decide⟩, by decide⟩

/-- **A filter that is lost**: what stands behind an ampersand is another parameter. -/
theorem not_carriesFilter : ¬ ∀ (query : Option String) (p : Pagination) (total : ℕ),
    p.page < 2 ^ 32 → CarriesFilter query p total := by
  intro h
  have hcarries := h (some "a&b") ⟨1, 20, by decide, by decide, by decide⟩ 0 (by decide)
  exact absurd (safeInLink_of_carriesFilter (by decide) hcarries).parameter (by decide)

end SettingsService
