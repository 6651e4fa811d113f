import SettingsService.SettingsRest

/-!
# Searching over HTTP

`list_settings`: a page of the collection as a JSON array or as newline-delimited JSON, with the
links of the page and the total as headers.  A response that is not built, because a header value
is not legal or a time cannot be formatted, is a panic of the handler.

Main definitions:

* `ListQuery` — the parameters of the query;
* `acceptsNdjson`, `buildLinkHeader` — which encoding is asked for, and the links;
* `ndjsonBody`, `jsonBody` — the bodies of a page;
* `inChronoRange` — the times that can be formatted;
* `listSettings` — the handler;
* `Response.Encodes` — a response that carries rows in the encoding that is asked for.

Main results:

* `pageResponse_eq_some_iff` — what the response of a page says.
-/

set_option relaxedAutoImplicit false
set_option autoImplicit false

namespace SettingsService

/-- The parameters of the query. -/
structure ListQuery where
  /-- The filter. -/
  query : Option String
  /-- The page. -/
  page : Option ℕ
  /-- The number of rows on a page. -/
  size : Option ℕ

/-- `accepts_ndjson`. -/
def acceptsNdjson (headers : HeaderMap) : Bool :=
  match (headers.get "accept").bind toStr with
  | none => false
  | some accept => (split ',' accept).any fun mediaRange =>
      let mediaType := trim ((split ';' mediaRange).headD "")
      ["application/x-ndjson", "application/jsonl", "ndjson"].contains (toAsciiLowercase mediaType)

/-- `build_link_header`. -/
def buildLinkHeader (page size total : ℕ) (query : Option String) : String :=
  let queryParam := (query.map ("&query=" ++ ·)).getD ""
  let link := fun (page : ℕ) (rel : String) =>
    "<settings?page=" ++ page.repr ++ "&size=" ++ size.repr ++ queryParam ++ ">; rel=\"" ++ rel ++
      "\""
  -- page numbers are `u32`, and wrap
  let last := max ((total + size - 1) / size) 1 % 2 ^ 32
  ", ".intercalate ([link 1 "first"] ++
    (if 1 < page then [link (page - 1) "prev"] else []) ++
    (if page * size < total then [link ((page + 1) % 2 ^ 32) "next"] else []) ++
    (if 0 < total then [link last "last"] else []))

/-- `DateTime::from_timestamp_millis` takes the time: a day of the years -262143 to 262142. -/
def inChronoRange (millis : ℤ) : Bool := -8334601228800000 ≤ millis && millis ≤ 8210266876799999

/-- The compact text of a row. -/
def SettingResponse.text (r : SettingResponse) : String := r.json.print

/-- The body of a page as newline-delimited JSON. -/
def ndjsonBody (rows : List SettingResponse) : String :=
  "\n".intercalate (rows.map SettingResponse.text)

/-- The body of a page as JSON. -/
def jsonBody (rows : List SettingResponse) : String :=
  (Json.array (rows.map SettingResponse.json)).print

section Handler

variable (base : Anchor) (rfc3339 : ℤ → String)

/-- The response of a page, or a panic. -/
def pageResponse (headers : HeaderMap) (pagination : Pagination) (query : Option String)
    (page : SearchPage) : Option Response :=
  let rows := page.rows.map (SettingResponse.ofSetting base rfc3339)
  let link := buildLinkHeader pagination.page pagination.size page.total query
  let (contentType, body) :=
    if acceptsNdjson headers then ("application/x-ndjson", ndjsonBody rows)
    else ("application/json", jsonBody rows)
  let total := page.total.repr
  -- `instant_updated_at` and `HeaderValue::from_str` are expected to succeed
  if (page.rows.all fun s => inChronoRange (instantToMillis base s.updatedAt)) &&
      isHeaderText link && isHeaderText total then
    some ⟨200, [("content-type", contentType), ("link", link), ("x-total-count", total)], body⟩
  else none

/-- `list_settings`; no response is a panic. -/
def listSettings (headers : HeaderMap) (q : ListQuery) (auth : Authority) :
    Handler (Option Response) := do
  match Pagination.new (q.page.getD 1) (q.size.getD 20) with
  | .error e => throw (ApiError.ofPagination e)
  | .ok pagination => do
      let page ← service (Service.search base (q.query.getD "") auth pagination)
      return page.bind (pageResponse base rfc3339 headers pagination q.query)

/-- **The response of a page**, with what it says. -/
theorem pageResponse_eq_some_iff {headers : HeaderMap} {pagination : Pagination}
    {query : Option String} {page : SearchPage} {resp : Response} :
    pageResponse base rfc3339 headers pagination query page = some resp ↔
      ((page.rows.all fun s => inChronoRange (instantToMillis base s.updatedAt)) &&
        isHeaderText (buildLinkHeader pagination.page pagination.size page.total query) &&
        isHeaderText page.total.repr) = true ∧
      resp = ⟨200, [("content-type",
          if acceptsNdjson headers then "application/x-ndjson" else "application/json"),
          ("link", buildLinkHeader pagination.page pagination.size page.total query),
          ("x-total-count", page.total.repr)],
        if acceptsNdjson headers
        then ndjsonBody (page.rows.map (SettingResponse.ofSetting base rfc3339))
        else jsonBody (page.rows.map (SettingResponse.ofSetting base rfc3339))⟩ := by
  rw [pageResponse, Option.ite_none_right_eq_some, Option.some.injEq, @eq_comm Response _ resp]
  cases acceptsNdjson headers <;> rfl

end Handler

/-- **A response that carries rows** in the encoding that is asked for. -/
structure Response.Encodes (resp : Response) (headers : HeaderMap) (rows : List SettingResponse) :
    Prop where
  /-- The request succeeds. -/
  status : resp.status = 200
  /-- The type names the encoding. -/
  contentType : resp.headers.lookup "content-type" =
    some (if acceptsNdjson headers then "application/x-ndjson" else "application/json")
  /-- The body holds the rows. -/
  body : resp.body = if acceptsNdjson headers then ndjsonBody rows else jsonBody rows

end SettingsService
