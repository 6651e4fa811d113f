import SettingsService.Json
import SettingsService.Pagination
import SettingsService.SettingsModel

/-!
# Headers, responses and errors

The parts of HTTP the handlers use: request headers as bytes, responses, and `ApiError`, the one
error type that crosses the boundary, with the errors of the settings slice and of pagination
mapped into it.

Main definitions:

* `HeaderMap`, `HeaderMap.get`, `toStr` — request headers and their values as text;
* `parseUnsigned`, `trimMatches` — the parts of `str` the handlers use;
* `Response`, `ApiError`, `ApiError.intoResponse` — responses, errors, and errors as responses;
* `ApiError.ofSettings`, `ApiError.ofPagination` — `From<SettingsError>`, `From<PaginationError>`.

Main results:

* `ApiError.status_ofSettings` — no error of the settings slice is a success.
-/

set_option relaxedAutoImplicit false
set_option autoImplicit false

namespace SettingsService

/-! ### Headers -/

/-- The bytes of a header value. -/
abbrev HeaderValue : Type := List UInt8

/-- Request headers, by lower-case name. -/
abbrev HeaderMap : Type := List (String × HeaderValue)

/-- `HeaderMap::get`: the first value of a header. -/
def HeaderMap.get (headers : HeaderMap) (name : String) : Option HeaderValue := headers.lookup name

/-- `HeaderValue::to_str`: visible ASCII and tabs only. -/
def toStr (v : HeaderValue) : Option String :=
  if v.all fun b => (32 ≤ b && b < 127) || b == 9 then
    some (String.ofList (v.map fun b => Char.ofNat b.toNat))
  else none

/-- `HeaderValue::from_str` accepts the text: tabs, and no other control character. -/
def isHeaderText (s : String) : Bool :=
  s.toList.all fun c => c == '\t' || (32 ≤ c.toNat && c.toNat != 127)

/-- `str::trim_matches`: the character is removed at both ends. -/
def trimMatches (c : Char) (s : String) : String :=
  String.ofList ((s.toList.dropWhile (· == c)).rdropWhile (· == c))

/-- `str::parse` of an unsigned integer below `bound`: an optional plus sign and decimal digits. -/
def parseUnsigned (bound : ℕ) (s : String) : Option ℕ :=
  let digits := match s.toList with
    | '+' :: cs => cs
    | cs => cs
  if digits.isEmpty || !digits.all Char.isDigit then none
  else
    let n := digits.foldl (fun n c => n * 10 + (c.toNat - '0'.toNat)) 0
    if n < bound then some n else none

/-- `str::parse::<u64>`. -/
def parseU64 (s : String) : Option ℕ := parseUnsigned (2 ^ 64) s

/-- **A number is read back.** -/
theorem parseUnsigned_repr {bound n : ℕ} (h : n < bound) :
    parseUnsigned bound n.repr = some n := by
  have hplus : ∀ cs, n.repr.toList ≠ '+' :: cs := by
    intro cs hcs
    exact Texts.not_mem_repr (by decide) n (hcs ▸ List.mem_cons_self)
  have hall : n.repr.toList.all Char.isDigit = true :=
    List.all_eq_true.2 fun c hc => Texts.isDigit_of_mem_repr hc
  have hvalue : n.repr.toList.foldl (fun n c => n * 10 + (c.toNat - '0'.toNat)) 0 = n := by
    have hread := Nat.ofDigitChars_ten_toDigits (n := n)
    rw [Nat.ofDigitChars_eq_foldl, ← Nat.toList_repr] at hread
    simpa only [Nat.mul_comm] using hread
  unfold parseUnsigned
  split
  · rename_i cs hcs
    exact absurd hcs (hplus cs)
  · rename_i cs hcs
    dsimp only
    rw [hall, hvalue, if_neg (by simp), if_pos h]

/-! ### Responses -/

/-- A response. -/
structure Response where
  /-- The status code. -/
  status : ℕ
  /-- The headers the service sets. -/
  headers : List (String × String)
  /-- The body. -/
  body : String
  deriving DecidableEq

/-! ### Errors -/

/-- The one error type that crosses the boundary. -/
structure ApiError where
  /-- The stable code. -/
  code : String
  /-- The status code. -/
  status : ℕ
  /-- The message shown. -/
  message : String
  /-- Seconds after which to try again. -/
  retryAfter : Option ℕ
  deriving DecidableEq

namespace ApiError

/-- `act`: the client changes something and sends again. -/
def act (code : String) (status : ℕ) (message : String) : ApiError := ⟨code, status, message, none⟩

/-- `retry`. -/
def retry (code : String) (status : ℕ) (retryAfter : ℕ) : ApiError :=
  ⟨code, status, "Retry later", some retryAfter⟩

/-- `bug`: the detail is logged, not shown. -/
def bug (code : String) : ApiError := ⟨code, 500, "Internal error", none⟩

/-- `unauthorized`. -/
def unauthorized : ApiError := act "auth:missing_credentials" 401 "Authentication required"

/-- The body of an error. -/
def bodyJson (e : ApiError) : Json :=
  .object ([("code", .string e.code), ("message", .string e.message)] ++
    match e.retryAfter with
    | none => []
    | some seconds => [("retry_after", .number (.posInt (UInt64.ofNat seconds)))])

/-- `into_response`. -/
def intoResponse (e : ApiError) : Response where
  status := e.status
  headers := [("x-error-code", e.code)] ++
    (match e.retryAfter with
      | none => []
      | some seconds => [("retry-after", seconds.repr)]) ++
    [("content-type", "application/json")]
  body := e.bodyJson.print

/-- `From<SettingsError>`. -/
def ofSettings : SettingsError → ApiError
  | .notFound => act "settings:not_found" 404 "Setting not found"
  | .invalidKey => act "settings:invalid_key" 400 "Invalid key"
  | .invalidValue => act "settings:invalid_value" 422 "value must be a JSON object under 64 KB"
  | .conflict => act "settings:value_conflict" 409 "Setting already exists"
  | .versionConflict =>
      act "settings:version_conflict" 409 "Precondition failed — setting changed"
  | .forbidden => act "settings:forbidden" 403 "Not authorized for this setting"
  | .rateLimited => retry "settings:rate_limited" 429 1
  | .unavailable => retry "settings:unavailable" 503 5
  | .internal => bug "settings:internal"

/-- `From<AuthError>`. -/
def ofAuth : AuthError → ApiError
  | .missingCredentials => act "auth:missing_credentials" 401 "Authentication required"
  | .invalidToken => act "auth:invalid_token" 401 "Invalid token"
  | .expired => act "auth:expired" 401 "Token expired"
  | .invalidIssuer => act "auth:invalid_issuer" 401 "Invalid issuer"
  | .invalidAudience => act "auth:invalid_audience" 401 "Invalid audience"
  | .revoked => act "auth:revoked" 401 "Token revoked"
  | .rateLimited => retry "auth:rate_limited" 429 1
  | .unavailable => retry "auth:unavailable" 503 5
  | .internal => bug "auth:internal"

/-- `From<PaginationError>`. -/
def ofPagination : PaginationError → ApiError
  | .badPage => act "pagination:bad_page" 400 "'page' must be >= 1"
  | .badSize => act "pagination:bad_size" 400 "'size' must be between 1 and 100"

/-- **No error of the settings slice is a success.** -/
theorem status_ofSettings (e : SettingsError) : 400 ≤ (ofSettings e).status := by
  cases e <;> decide

end ApiError

/-- What a handler returns, as a response. -/
def respond : Except ApiError Response → Response
  | .ok resp => resp
  | .error e => e.intoResponse

end SettingsService
