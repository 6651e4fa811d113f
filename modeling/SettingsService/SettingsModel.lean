import SettingsService.AuthModel
import SettingsService.MergePatch
import SettingsService.Texts

/-!
# The settings aggregate and its value objects

The contextual object model of the `settings` slice: the self-validating key and value, the
`Setting` aggregate whose business methods advance the optimistic version, and the error codes.

Main definitions:

* `SettingsError` — the error codes of the slice;
* `trim`, `toAsciiLowercase`, `eqIgnoreAsciiCase`, `split`, `splitOnce` — the parts of `str` in use;
* `SettingKey`, `SettingValue` — the value objects, which carry what their constructors check;
* `Setting` — the aggregate, with `Setting.setValue` (PUT) and `Setting.applyPartial` (PATCH).

Main results:

* `SettingKey.new_asStr` — validating the text of a key gives the key back;
* `SettingValue.new_eq_ok_iff` — when a value is accepted.
-/

set_option relaxedAutoImplicit false
set_option autoImplicit false

namespace SettingsService

/-- The error codes of the `settings` slice. -/
inductive SettingsError
  | notFound
  | invalidKey
  | invalidValue
  | conflict
  | versionConflict
  | forbidden
  | rateLimited
  | unavailable
  | internal
  deriving DecidableEq

/-- A monotonic `Instant`, in nanoseconds. -/
abbrev Instant := ℕ

/-! ### Texts -/

/-- `char::is_whitespace`: the Unicode property `White_Space`. -/
def isWhitespace (c : Char) : Bool :=
  let n := c.toNat
  (9 ≤ n && n ≤ 13) || n == 0x20 || n == 0x85 || n == 0xA0 || n == 0x1680 ||
    (0x2000 ≤ n && n ≤ 0x200A) || n == 0x2028 || n == 0x2029 || n == 0x202F || n == 0x205F ||
    n == 0x3000

/-- `str::trim`: no whitespace at either end. -/
def trim (s : String) : String :=
  String.ofList ((s.toList.dropWhile isWhitespace).rdropWhile isWhitespace)

/-- Trimming twice is trimming once. -/
@[simp] theorem trim_trim (s : String) : trim (trim s) = trim s := by
  rw [trim, trim, String.toList_ofList, Texts.dropWhile_rdropWhile_dropWhile,
    List.rdropWhile_idempotent]

/-- `str::to_ascii_lowercase`. -/
def toAsciiLowercase (s : String) : String := String.ofList (s.toList.map Char.toLower)

/-- `str::eq_ignore_ascii_case`. -/
def eqIgnoreAsciiCase (s t : String) : Bool := toAsciiLowercase s == toAsciiLowercase t

/-- `str::split`. -/
def split (c : Char) (s : String) : List String := (s.toList.splitOn c).map String.ofList

/-- `str::split_once`. -/
def splitOnce (c : Char) (s : String) : Option (String × String) :=
  if c ∈ s.toList then
    some (String.ofList (s.toList.takeWhile (· != c)),
      String.ofList (s.toList.dropWhile (· != c)).tail)
  else none

/-! ### Keys -/

/-- A config key: trimmed, not empty, and at most 128 bytes long. -/
@[ext] structure SettingKey where
  /-- The text of the key. -/
  asStr : String
  /-- No whitespace at either end. -/
  trimmed : trim asStr = asStr
  /-- At least one byte. -/
  nonempty : asStr ≠ ""
  /-- At most 128 bytes. -/
  short : asStr.utf8ByteSize ≤ 128
  deriving DecidableEq

/-- `SettingKey::new`. -/
def SettingKey.new (s : String) : Except SettingsError SettingKey :=
  if h : trim s = "" ∨ 128 < (trim s).utf8ByteSize then .error .invalidKey
  else .ok ⟨trim s, trim_trim s, fun he => h (.inl he), not_lt.1 fun hl => h (.inr hl)⟩

/-- Validating the text of a key gives the key back. -/
@[simp] theorem SettingKey.new_asStr (k : SettingKey) : SettingKey.new k.asStr = .ok k := by
  have h : ¬ (trim k.asStr = "" ∨ 128 < (trim k.asStr).utf8ByteSize) := by
    rw [k.trimmed]
    exact not_or.2 ⟨k.nonempty, not_lt.2 k.short⟩
  rw [SettingKey.new, dif_neg h]
  exact congrArg Except.ok (SettingKey.ext k.trimmed)

/-! ### Values -/

/-- `MAX_VALUE_BYTES`. -/
def maxValueBytes : ℕ := 64 * 1024

/-- A config value: a JSON object whose text is at most 64 KB long. -/
@[ext] structure SettingValue where
  /-- The JSON value. -/
  value : Value
  /-- It is an object. -/
  isObject : value.isObject = true
  /-- Its text fits. -/
  small : value.size ≤ maxValueBytes

namespace SettingValue

/-- `SettingValue::new`. -/
def new (v : Value) : Except SettingsError SettingValue :=
  if ho : v.isObject = true then
    if hs : maxValueBytes < v.size then .error .invalidValue
    else .ok ⟨v, ho, not_lt.1 hs⟩
  else .error .invalidValue

/-- What a value must satisfy to be accepted. -/
theorem new_eq_ok_iff {v : Value} {s : SettingValue} : new v = .ok s ↔ s.value = v := by
  rw [new]
  split_ifs with ho hs
  · simp only [false_iff]
    rintro rfl
    exact absurd s.small (not_le.2 hs)
  · rw [Except.ok.injEq, SettingValue.ext_iff, eq_comm]
  · simp only [false_iff]
    rintro rfl
    exact ho s.isObject

@[simp] theorem new_value (s : SettingValue) : new s.value = .ok s := new_eq_ok_iff.2 rfl

/-- A refused value is refused as `InvalidValue`. -/
theorem new_eq_error {v : Value} {e : SettingsError} (h : new v = .error e) :
    e = .invalidValue := by
  rw [new] at h
  split_ifs at h <;> simpa using h.symm

/-- A value is accepted exactly when it is an object that fits. -/
theorem exists_new_eq_ok_iff {v : Value} :
    (∃ s, new v = .ok s) ↔ v.isObject = true ∧ v.size ≤ maxValueBytes := by
  constructor
  · rintro ⟨s, h⟩
    rw [new_eq_ok_iff] at h
    exact h ▸ ⟨s.isObject, s.small⟩
  · rintro ⟨ho, hs⟩
    exact ⟨⟨v, ho, hs⟩, new_eq_ok_iff.2 rfl⟩

/-- `SettingValue::merge`. -/
def merge (s patch : SettingValue) : Except SettingsError SettingValue :=
  new (s.value.mergePatch patch.value)

end SettingValue

/-! ### The aggregate -/

/-- The settings aggregate. -/
structure Setting where
  /-- The key. -/
  key : SettingKey
  /-- The value. -/
  value : SettingValue
  /-- Who it belongs to. -/
  ownership : Ownership
  /-- The optimistic version, a `u64`. -/
  version : ℕ
  /-- When it was last changed. -/
  updatedAt : Instant

namespace Setting

/-- `Setting::new`. -/
def new (key : SettingKey) (value : SettingValue) (ownership : Ownership) (now : Instant) :
    Except SettingsError Setting := .ok ⟨key, value, ownership, 1, now⟩

/-- `Setting::restore`. -/
def restore (key : SettingKey) (value : SettingValue) (ownership : Ownership) (version : ℕ)
    (updatedAt : Instant) : Except SettingsError Setting :=
  .ok ⟨key, value, ownership, max version 1, updatedAt⟩

/-- `set_value`: PUT replaces the whole value. -/
def setValue (s : Setting) (value : SettingValue) (now : Instant) : Except SettingsError Setting :=
  .ok { s with value := value, version := s.version + 1, updatedAt := now }

/-- `apply_partial`: PATCH merges into the existing value. -/
def applyPartial (s : Setting) (patch : SettingValue) (now : Instant) :
    Except SettingsError Setting := do
  let value ← s.value.merge patch
  .ok { s with value := value, version := s.version + 1, updatedAt := now }

/-- A patch that is accepted changes the value, the version and the time only. -/
theorem applyPartial_eq_ok_iff {s t : Setting} {patch : SettingValue} {now : Instant} :
    s.applyPartial patch now = .ok t ↔ ∃ value, s.value.merge patch = .ok value ∧
      t = { s with value := value, version := s.version + 1, updatedAt := now } := by
  rw [applyPartial]
  cases s.value.merge patch with
  | error e => simp [bind, Except.bind]
  | ok value => simp [bind, Except.bind, eq_comm]

end Setting

/-! ### The values of the tests -/

namespace Sample

/-- The key `theme`. -/
def theme : SettingKey := ⟨"theme", by decide, by decide, by decide⟩

/-- A user. -/
def alice : Authority := ⟨⟨"acme"⟩, ⟨"alice"⟩, .user⟩

/-- An admin. -/
def root : Authority := ⟨⟨"acme"⟩, ⟨"root"⟩, .admin⟩

/-- The object with one string member. -/
def member (name text : String) : Value :=
  ⟨.object [(name, .string text)], by
    simp [Json.isSorted, Json.isSortedMembers, OrderedMap.Sorted]⟩

/-- `{ "color": "dark" }`. -/
def dark : SettingValue := ⟨member "color" "dark", rfl, by decide⟩

/-- `{ "color": "light" }`. -/
def light : SettingValue := ⟨member "color" "light", rfl, by decide⟩

/-- `{ "size": "big" }`. -/
def big : SettingValue := ⟨member "size" "big", rfl, by decide⟩

end Sample

end SettingsService
