import SettingsService.OrderedMap
import Mathlib.Data.String.Basic

/-!
# JSON values as `serde_json` holds and prints them

`serde_json::Value` without the `preserve_order` feature: an object is a map ordered by its keys.
The tree `Json` keeps an object as a list of members, and `Value` is a tree all of whose objects
list their members in strictly increasing key order, so that equality of values is equality of
objects as finite maps.

A finite `f64` is represented by its shortest decimal form, which is what the printer writes.  The
parser is not exact, so what it makes of the digits of a float is a parameter where it matters.

Main definitions:

* `Json`, `Value` — trees, and the trees with ordered objects;
* `Json.print` — compact `to_string` output, `Json.size` its length in bytes;
* `Json.postgresJsonb`, `Value.postgresJsonb` — what comes back from a `JSONB` column, which keeps
  a number as an exact decimal and writes it without an exponent;
* `Json.hasNul` — some string or object key contains U+0000.

Main results:

* `utf8ByteSize_quote_le` — quoting makes a text at most six times as long;
* `Json.postgresJsonb_isSorted` — a `JSONB` column gives back ordered objects.
-/

set_option relaxedAutoImplicit false
set_option autoImplicit false

namespace SettingsService

/-! ### Numbers -/

/-- A finite `f64` by its shortest decimal form `± digits · 10 ^ exp`. -/
structure Decimal where
  /-- The sign. -/
  neg : Bool
  /-- The significant digits, read as a number. -/
  digits : ℕ
  /-- The decimal exponent. -/
  exp : ℤ
  /-- No digit is superfluous. -/
  shortest : digits % 10 ≠ 0 ∨ digits = 0 ∧ exp = 0
  deriving DecidableEq

/-- A `serde_json::Number`: a `u64`, a negative `i64`, or a finite `f64`. -/
inductive Number
  | posInt (n : UInt64)
  /-- The integer `-(n + 1)`. -/
  | negInt (n : Fin (2 ^ 63))
  | float (d : Decimal)
  deriving DecidableEq

/-- `n` zeros. -/
def zeros (n : ℕ) : String := String.ofList (List.replicate n '0')

/-- The number of digits before the decimal point: the value lies in
`[10 ^ (pointAt - 1), 10 ^ pointAt)`. -/
def Decimal.pointAt (d : Decimal) : ℤ := d.digits.repr.length + d.exp

/-- The text of an exponent, with its sign. -/
def printExponent (e : ℤ) : String := (if 0 ≤ e then "e+" else "e-") ++ e.natAbs.repr

/-- The text of a float: positional up to sixteen digits before the point and four zeros after it,
with an exponent beyond. -/
def Decimal.print (d : Decimal) : String :=
  let ds := d.digits.repr
  (if d.neg then "-" else "") ++
    if d.digits = 0 then "0.0"
    else if 0 ≤ d.exp ∧ d.pointAt ≤ 16 then ds ++ zeros d.exp.toNat ++ ".0"
    else if 0 < d.pointAt ∧ d.pointAt ≤ 16 then
      String.ofList (ds.toList.take d.pointAt.toNat) ++ "." ++
        String.ofList (ds.toList.drop d.pointAt.toNat)
    else if -5 < d.pointAt ∧ d.pointAt ≤ 0 then "0." ++ zeros (-d.pointAt).toNat ++ ds
    else if ds.length = 1 then ds ++ printExponent (d.pointAt - 1)
    else String.ofList (ds.toList.take 1) ++ "." ++ String.ofList (ds.toList.drop 1) ++
      printExponent (d.pointAt - 1)

/-- The text of a number. -/
def Number.print : Number → String
  | posInt n => n.toNat.repr
  | negInt n => "-" ++ (n.val + 1).repr
  | float d => d.print

/-- What a `JSONB` column gives back for a number.  A float printed with an exponent is kept as an
exact decimal and comes back digit by digit; if these are the digits of an integer that fits, the
parser reads an integer, and otherwise `reread`, the float that it makes of them. -/
def Number.postgresJsonb (reread : Decimal → Decimal) : Number → Number
  | float d =>
      let n := d.digits * 10 ^ d.exp.toNat
      if 0 ≤ d.exp ∧ 16 < d.pointAt then
        if d.neg then
          if h : n - 1 < 2 ^ 63 then negInt ⟨n - 1, h⟩ else float (reread d)
        else if n < 2 ^ 64 then posInt (UInt64.ofNat n) else float (reread d)
      else float (reread d)
  | n => n

/-! ### Trees -/

/-- A `serde_json::Value`. -/
inductive Json
  | null
  | bool (b : Bool)
  | number (n : Number)
  | string (s : String)
  | array (xs : List Json)
  | object (ms : List (String × Json))

/-- The hexadecimal digit of `n < 16`. -/
def hexDigit (n : ℕ) : Char := "0123456789abcdef".toList.getD n '0'

/-- The text of one character of a string: quotes, backslashes and control characters are
escaped. -/
def escapeChar (c : Char) : String :=
  if c = '"' then "\\\""
  else if c = '\\' then "\\\\"
  else if c = '\n' then "\\n"
  else if c = '\r' then "\\r"
  else if c = '\t' then "\\t"
  else if c.toNat = 8 then "\\b"
  else if c.toNat = 12 then "\\f"
  else if c.toNat < 32 then
    "\\u00" ++ String.ofList [hexDigit (c.toNat / 16), hexDigit (c.toNat % 16)]
  else String.singleton c

/-- The text of a string, quoted. -/
def quote (s : String) : String := "\"" ++ (s.toList.map escapeChar).foldr (· ++ ·) "" ++ "\""

theorem utf8Size_hexDigit (n : ℕ) : (hexDigit n).utf8Size = 1 := by
  rw [hexDigit]
  rcases Nat.lt_or_ge n 16 with hn | hn
  · have hall : ∀ m < 16, ("0123456789abcdef".toList.getD m '0').utf8Size = 1 := by decide
    exact hall n hn
  · rw [List.getD_eq_getElem?_getD, List.getElem?_eq_none hn]
    rfl

/-- Escaping makes a character at most six times as long. -/
theorem utf8ByteSize_escapeChar (c : Char) : (escapeChar c).utf8ByteSize ≤ 6 * c.utf8Size := by
  have hpos := c.utf8Size_pos
  have hconst : ∀ s : String, s.utf8ByteSize ≤ 6 → s.utf8ByteSize ≤ 6 * c.utf8Size := by
    intro s hs
    omega
  rw [escapeChar]
  split_ifs
  iterate 7 exact hconst _ (by decide)
  · have hhead : "\\u00".utf8ByteSize = 4 := by decide
    refine hconst _ ?_
    rw [String.utf8ByteSize_append, hhead, String.utf8ByteSize_ofList, String.utf8Len_cons,
      String.utf8Len_cons, utf8Size_hexDigit, utf8Size_hexDigit]
    exact le_refl 6
  · rw [String.utf8ByteSize_singleton]
    omega

/-- So does quoting, but for the quotes. -/
theorem utf8ByteSize_quote_le (s : String) : (quote s).utf8ByteSize ≤ 6 * s.utf8ByteSize + 2 := by
  have hchars : ∀ cs : List Char, ((cs.map escapeChar).foldr (· ++ ·) "").utf8ByteSize ≤
      6 * (String.ofList cs).utf8ByteSize := by
    intro cs
    induction cs with
    | nil => exact Nat.zero_le _
    | cons c cs ih =>
        have hc := utf8ByteSize_escapeChar c
        rw [String.utf8ByteSize_ofList] at ih ⊢
        rw [List.map_cons, List.foldr_cons, String.utf8ByteSize_append, String.utf8Len_cons]
        omega
  have hs := hchars s.toList
  have hmark : "\"".utf8ByteSize = 1 := by decide
  rw [String.ofList_toList] at hs
  rw [quote, String.utf8ByteSize_append, String.utf8ByteSize_append, hmark]
  omega

namespace Json

mutual

/-- Compact output, as `to_string` writes it. -/
def print : Json → String
  | null => "null"
  | bool b => if b then "true" else "false"
  | number n => n.print
  | string s => quote s
  | array [] => "[]"
  | array (x :: xs) => "[" ++ x.print ++ printElems xs ++ "]"
  | object [] => "\x7b\x7d"
  | object ((k, v) :: ms) => "\x7b" ++ quote k ++ ":" ++ v.print ++ printMembers ms ++ "\x7d"

/-- The elements of an array after the first. -/
def printElems : List Json → String
  | [] => ""
  | x :: xs => "," ++ x.print ++ printElems xs

/-- The members of an object after the first. -/
def printMembers : List (String × Json) → String
  | [] => ""
  | (k, v) :: ms => "," ++ quote k ++ ":" ++ v.print ++ printMembers ms

end

/-- The length of the printed text in bytes. -/
def size (j : Json) : ℕ := j.print.utf8ByteSize

/-- Is the value a JSON object? -/
def isObject : Json → Bool
  | object _ => true
  | _ => false

mutual

/-- Every object lists its members in strictly increasing key order. -/
def isSorted : Json → Bool
  | array xs => isSortedElems xs
  | object ms => decide (OrderedMap.Sorted ms) && isSortedMembers ms
  | _ => true

/-- `isSorted` of all elements. -/
def isSortedElems : List Json → Bool
  | [] => true
  | x :: xs => x.isSorted && isSortedElems xs

/-- `isSorted` of all member values. -/
def isSortedMembers : List (String × Json) → Bool
  | [] => true
  | (_, v) :: ms => v.isSorted && isSortedMembers ms

end

mutual

/-- Some string or object key contains U+0000. -/
def hasNul : Json → Bool
  | string s => s.toList.contains '\x00'
  | array xs => hasNulElems xs
  | object ms => hasNulMembers ms
  | _ => false

/-- `hasNul` of some element. -/
def hasNulElems : List Json → Bool
  | [] => false
  | x :: xs => x.hasNul || hasNulElems xs

/-- `hasNul` of some member. -/
def hasNulMembers : List (String × Json) → Bool
  | [] => false
  | (k, v) :: ms => k.toList.contains '\x00' || v.hasNul || hasNulMembers ms

end

section Jsonb

variable (reread : Decimal → Decimal)

mutual

/-- What a `JSONB` column gives back for a document. -/
def postgresJsonb : Json → Json
  | number n => number (n.postgresJsonb reread)
  | array xs => array (postgresJsonbElems xs)
  | object ms => object (postgresJsonbMembers ms)
  | j => j

/-- `postgresJsonb` of all elements. -/
def postgresJsonbElems : List Json → List Json
  | [] => []
  | x :: xs => x.postgresJsonb :: postgresJsonbElems xs

/-- `postgresJsonb` of all member values. -/
def postgresJsonbMembers : List (String × Json) → List (String × Json)
  | [] => []
  | (k, v) :: ms => (k, v.postgresJsonb) :: postgresJsonbMembers ms

end

@[simp] theorem isObject_postgresJsonb (j : Json) :
    (j.postgresJsonb reread).isObject = j.isObject := by
  cases j <;> rfl

@[simp] theorem keys_postgresJsonbMembers (ms : List (String × Json)) :
    (postgresJsonbMembers reread ms).map Prod.fst = ms.map Prod.fst := by
  induction ms with
  | nil => rfl
  | cons e ms ih => simp [postgresJsonbMembers, ih]

mutual

/-- A `JSONB` column gives back ordered objects. -/
theorem postgresJsonb_isSorted : ∀ j : Json, j.isSorted = true →
    (j.postgresJsonb reread).isSorted = true
  | null, _ => rfl
  | bool _, _ => rfl
  | number _, _ => rfl
  | string _, _ => rfl
  | array xs, h => postgresJsonbElems_isSorted xs h
  | object ms, h => by
      rw [isSorted, Bool.and_eq_true, decide_eq_true_iff] at h
      rw [postgresJsonb, isSorted, Bool.and_eq_true, decide_eq_true_iff, OrderedMap.Sorted,
        keys_postgresJsonbMembers]
      exact ⟨h.1, postgresJsonbMembers_isSorted ms h.2⟩

/-- The same for elements. -/
theorem postgresJsonbElems_isSorted : ∀ xs : List Json, isSortedElems xs = true →
    isSortedElems (postgresJsonbElems reread xs) = true
  | [], _ => rfl
  | x :: xs, h => by
      rw [isSortedElems, Bool.and_eq_true] at h
      rw [postgresJsonbElems, isSortedElems, Bool.and_eq_true]
      exact ⟨postgresJsonb_isSorted x h.1, postgresJsonbElems_isSorted xs h.2⟩

/-- The same for members. -/
theorem postgresJsonbMembers_isSorted : ∀ ms : List (String × Json), isSortedMembers ms = true →
    isSortedMembers (postgresJsonbMembers reread ms) = true
  | [], _ => rfl
  | (_, v) :: ms, h => by
      rw [isSortedMembers, Bool.and_eq_true] at h
      rw [postgresJsonbMembers, isSortedMembers, Bool.and_eq_true]
      exact ⟨postgresJsonb_isSorted v h.1, postgresJsonbMembers_isSorted ms h.2⟩

end

end Jsonb

end Json

/-! ### Values -/

/-- **A JSON value**: a tree whose objects are ordered maps. -/
@[ext] structure Value where
  /-- The tree. -/
  json : Json
  /-- Its objects are ordered. -/
  sorted : json.isSorted = true

namespace Value

/-- The length of the printed text in bytes. -/
def size (v : Value) : ℕ := v.json.size

/-- Is the value a JSON object? -/
def isObject (v : Value) : Bool := v.json.isObject

/-- What a `JSONB` column gives back for a document. -/
def postgresJsonb (reread : Decimal → Decimal) (v : Value) : Value :=
  ⟨v.json.postgresJsonb reread, Json.postgresJsonb_isSorted reread v.json v.sorted⟩

end Value

end SettingsService
