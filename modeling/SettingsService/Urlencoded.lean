import SettingsService.Texts
import Mathlib.Data.Nat.Notation
import Mathlib.Tactic.Common

/-!
# Form-urlencoded text

Reading `application/x-www-form-urlencoded` text: it is split at `&` and at the first `=`, a plus
sign means a space, a percent sign with two hexadecimal digits a byte, and the bytes are read as
UTF-8, with a replacement character for what is no UTF-8.

Main definitions:

* `Urlencoded.percentDecode`, `Urlencoded.utf8Lossy`, `Urlencoded.decode` — a name or a value;
* `Urlencoded.pairs` — the pairs of a text;
* `Urlencoded.Plain` — a text without plus signs and escapes.

Main results:

* `Urlencoded.utf8Lossy_encode` — what is UTF-8 is read back;
* `Urlencoded.countAscii_decode_le` — decoding makes no ASCII characters of nothing;
* `Urlencoded.decode_eq_self_iff` — **a text decodes to itself exactly when it is plain**;
* `Urlencoded.takeWhile_eq_of_decode` — a text is not decoded from one that stops short of an ASCII
  character of it.
-/

set_option relaxedAutoImplicit false
set_option autoImplicit false

namespace Urlencoded

/-! ### Bytes as UTF-8 -/

/-- A continuation byte. -/
def isTail (b : UInt8) : Bool := 0x80 ≤ b && b ≤ 0xBF

/-- The second byte may follow the first, in a character of three bytes. -/
def follows₃ (b b' : UInt8) : Bool :=
  (b == 0xE0 && 0xA0 ≤ b' && b' ≤ 0xBF) || (0xE1 ≤ b && b ≤ 0xEC && isTail b') ||
    (b == 0xED && 0x80 ≤ b' && b' ≤ 0x9F) || (0xEE ≤ b && b ≤ 0xEF && isTail b')

/-- The second byte may follow the first, in a character of four bytes. -/
def follows₄ (b b' : UInt8) : Bool :=
  (b == 0xF0 && 0x90 ≤ b' && b' ≤ 0xBF) || (0xF1 ≤ b && b ≤ 0xF3 && isTail b') ||
    (b == 0xF4 && 0x80 ≤ b' && b' ≤ 0x8F)

/-- How many bytes, at the front of bytes that begin with no character, one replacement character
stands for: those that begin some character. -/
def badLength : List UInt8 → ℕ
  | b :: b' :: bs =>
      if follows₃ b b' then 2
      else if follows₄ b b' then (if (bs.head?.map isTail).getD false then 3 else 2)
      else 1
  | _ => 1

/-- The character at the front of bytes. -/
def utf8Char? (bs : List UInt8) : Option Char := bs.toByteArray.utf8DecodeChar? 0

/-- **`String::from_utf8_lossy`**, after `skip` bytes that have been read. -/
def utf8Lossy : ℕ → List UInt8 → List Char
  | _, [] => []
  | skip + 1, _ :: bs => utf8Lossy skip bs
  | 0, b :: bs =>
      match utf8Char? (b :: bs) with
      | some c => c :: utf8Lossy (c.utf8Size - 1) bs
      | none => '\uFFFD' :: utf8Lossy (badLength (b :: bs) - 1) bs

/-- The bytes of a text. -/
def encode (cs : List Char) : List UInt8 := cs.flatMap String.utf8EncodeChar

theorem utf8Lossy_skip (bs bs' : List UInt8) :
    utf8Lossy bs.length (bs ++ bs') = utf8Lossy 0 bs' := by
  induction bs with
  | nil => rfl
  | cons b bs ih => exact ih

/-- **What is UTF-8 is read back.** -/
theorem utf8Lossy_encode (cs : List Char) : utf8Lossy 0 (encode cs) = cs := by
  induction cs with
  | nil => rfl
  | cons c cs ih =>
      rw [encode, List.flatMap_cons, ← encode]
      have hlength := String.length_utf8EncodeChar c
      have hchar : utf8Char? (String.utf8EncodeChar c ++ encode cs) = some c := by
        rw [utf8Char?, List.toByteArray_append]
        exact ByteArray.utf8DecodeChar?_utf8EncodeChar_append
      cases hbytes : String.utf8EncodeChar c with
      | nil =>
          rw [hbytes] at hlength
          exact absurd hlength.symm (Nat.ne_of_gt c.utf8Size_pos)
      | cons b bs =>
          rw [hbytes] at hlength hchar
          have hskip : c.utf8Size - 1 = bs.length := by
            rw [List.length_cons] at hlength
            omega
          rw [List.cons_append, utf8Lossy, ← List.cons_append, hchar]
          simp only [hskip, utf8Lossy_skip, ih]

/-! ### ASCII characters -/

/-- An ASCII character. -/
def isAscii (c : Char) : Bool := c.toNat < 128

/-- The number of ASCII characters. -/
def countAscii (cs : List Char) : ℕ := cs.countP isAscii

/-- The number of ASCII bytes. -/
def countAsciiBytes (bs : List UInt8) : ℕ := bs.countP (· < 128)

theorem countAscii_cons (c : Char) (cs : List Char) :
    countAscii (c :: cs) = countAscii cs + if isAscii c then 1 else 0 := List.countP_cons

theorem countAsciiBytes_cons (b : UInt8) (bs : List UInt8) :
    countAsciiBytes (b :: bs) = countAsciiBytes bs + if b < 128 then 1 else 0 := by
  simp only [countAsciiBytes, List.countP_cons, decide_eq_true_eq]

theorem countAsciiBytes_append (bs bs' : List UInt8) :
    countAsciiBytes (bs ++ bs') = countAsciiBytes bs + countAsciiBytes bs' := List.countP_append

theorem not_or_lt {b m : UInt8} (hm : 128 ≤ m.toNat) : ¬ (b ||| m) < 128 := by
  have hor : m.toNat ≤ b.toNat ||| m.toNat := Nat.right_le_or
  rw [UInt8.lt_iff_toNat_lt, UInt8.toNat_or]
  have h128 : (128 : UInt8).toNat = 128 := rfl
  omega

theorem isAscii_iff {c : Char} : isAscii c = true ↔ c.utf8Size = 1 := by
  rw [isAscii, decide_eq_true_eq, Char.utf8Size_eq_one_iff, UInt32.le_iff_toNat_le]
  have h127 : (127 : UInt32).toNat = 127 := rfl
  have hval : c.toNat = c.val.toNat := rfl
  omega

/-- **The bytes of a character are ASCII exactly when it is.** -/
theorem countAsciiBytes_utf8EncodeChar (c : Char) :
    countAsciiBytes (String.utf8EncodeChar c) = if isAscii c then 1 else 0 := by
  by_cases hc : isAscii c = true
  · have hsize := isAscii_iff.1 hc
    have hbyte : c.val.toUInt8 < 128 := by
      have hval : c.val.toNat < 128 := by simpa [isAscii] using hc
      rw [UInt8.lt_iff_toNat_lt, UInt32.toNat_toUInt8]
      exact lt_of_le_of_lt (Nat.mod_le _ _) hval
    rw [String.utf8EncodeChar_eq_singleton hsize, if_pos hc, countAsciiBytes_cons, if_pos hbyte]
    rfl
  · rw [if_neg hc]
    rcases c.utf8Size_eq with h | h | h | h
    · exact absurd (isAscii_iff.2 h) hc
    · rw [String.utf8EncodeChar_eq_cons_cons h]
      simp only [countAsciiBytes_cons]
      rw [if_neg (not_or_lt (by decide)), if_neg (not_or_lt (by decide))]
      rfl
    · rw [String.utf8EncodeChar_eq_cons_cons_cons h]
      simp only [countAsciiBytes_cons]
      rw [if_neg (not_or_lt (by decide)), if_neg (not_or_lt (by decide)),
        if_neg (not_or_lt (by decide))]
      rfl
    · rw [String.utf8EncodeChar_eq_cons_cons_cons_cons h]
      simp only [countAsciiBytes_cons]
      rw [if_neg (not_or_lt (by decide)), if_neg (not_or_lt (by decide)),
        if_neg (not_or_lt (by decide)), if_neg (not_or_lt (by decide))]
      rfl

/-- An ASCII character is read from an ASCII byte. -/
theorem lt_of_utf8Char? {b : UInt8} {bs : List UInt8} {c : Char}
    (h : utf8Char? (b :: bs) = some c) (hc : isAscii c = true) : b < 128 := by
  obtain ⟨rest, hrest⟩ := ByteArray.exists_of_utf8DecodeChar?_eq_some h
  have hsingle := String.utf8EncodeChar_eq_singleton (isAscii_iff.1 hc)
  have hcount := countAsciiBytes_utf8EncodeChar c
  rw [if_pos hc, hsingle, countAsciiBytes_cons] at hcount
  have hbytes := congrArg (fun a : ByteArray => a.data.toList.head?) hrest
  rw [hsingle] at hbytes
  simp only [ByteArray.data_append, List.data_toByteArray, Array.toList_append,
    List.head?_cons, List.cons_append, List.nil_append, Option.some.injEq] at hbytes
  by_contra hb
  rw [← hbytes, if_neg hb] at hcount
  exact absurd hcount (by decide)

/-- **Reading bytes makes no more ASCII characters than there are ASCII bytes.** -/
theorem countAscii_utf8Lossy_le (skip : ℕ) (bs : List UInt8) :
    countAscii (utf8Lossy skip bs) ≤ countAsciiBytes bs := by
  induction bs generalizing skip with
  | nil => cases skip <;> exact le_refl 0
  | cons b bs ih =>
      rw [countAsciiBytes_cons]
      cases skip with
      | succ skip => exact (ih skip).trans (Nat.le_add_right _ _)
      | zero =>
          rw [utf8Lossy]
          cases hchar : utf8Char? (b :: bs) with
          | none =>
              rw [countAscii_cons, if_neg (by decide)]
              exact (ih _).trans (Nat.le_add_right _ _)
          | some c =>
              rw [countAscii_cons]
              refine Nat.add_le_add (ih _) ?_
              by_cases hc : isAscii c = true
              · rw [if_pos hc, if_pos (lt_of_utf8Char? hchar hc)]
              · rw [if_neg hc]
                exact Nat.zero_le _

/-! ### Escapes -/

/-- `char::to_digit(16)`. -/
def hexValue (c : Char) : Option ℕ :=
  if '0' ≤ c ∧ c ≤ '9' then some (c.toNat - '0'.toNat)
  else if 'a' ≤ c ∧ c ≤ 'f' then some (c.toNat - 'a'.toNat + 10)
  else if 'A' ≤ c ∧ c ≤ 'F' then some (c.toNat - 'A'.toNat + 10)
  else none

/-- The byte of a percent sign and two hexadecimal digits at the front. -/
def escape? : List Char → Option UInt8
  | '%' :: h :: l :: _ =>
      match hexValue h, hexValue l with
      | some m, some n => some (UInt8.ofNat (m * 16 + n))
      | _, _ => none
  | _ => none

/-- **`percent_decode`** of the bytes of a text, after `skip` characters that have been read. -/
def percentDecode : ℕ → List Char → List UInt8
  | _, [] => []
  | skip + 1, _ :: cs => percentDecode skip cs
  | 0, c :: cs =>
      match escape? (c :: cs) with
      | some b => b :: percentDecode 2 cs
      | none => String.utf8EncodeChar c ++ percentDecode 0 cs

/-- There is an escape in the text. -/
def hasEscape : List Char → Bool
  | [] => false
  | c :: cs => (escape? (c :: cs)).isSome || hasEscape cs

theorem isAscii_of_hexValue {c : Char} (h : (hexValue c).isSome = true) : isAscii c = true := by
  rw [hexValue] at h
  rw [isAscii, decide_eq_true_eq]
  have hle : ∀ d : Char, c ≤ d → c.toNat ≤ d.toNat := fun d hd => UInt32.le_iff_toNat_le.1 hd
  split_ifs at h with h₁ h₂ h₃
  · exact lt_of_le_of_lt (hle '9' h₁.2) (by decide)
  · exact lt_of_le_of_lt (hle 'f' h₂.2) (by decide)
  · exact lt_of_le_of_lt (hle 'F' h₃.2) (by decide)
  · exact absurd h (by simp)

/-- An escape is three ASCII characters. -/
theorem exists_of_escape? {cs : List Char} {b : UInt8} (h : escape? cs = some b) :
    ∃ m n rest, cs = '%' :: m :: n :: rest ∧ isAscii m = true ∧ isAscii n = true := by
  rw [escape?.eq_def] at h
  split at h
  · rename_i m n rest
    refine ⟨m, n, rest, rfl, isAscii_of_hexValue ?_, isAscii_of_hexValue ?_⟩
    · cases hm : hexValue m <;> simp_all
    · cases hn : hexValue n <;> simp_all
  · exact absurd h (by simp)

/-- Without a percent sign there is no escape. -/
theorem hasEscape_eq_false {cs : List Char} (h : '%' ∉ cs) : hasEscape cs = false := by
  induction cs with
  | nil => rfl
  | cons c cs ih =>
      have hnone : escape? (c :: cs) = none := by
        cases hesc : escape? (c :: cs) with
        | none => rfl
        | some b =>
            obtain ⟨m, n, rest, hcs, -, -⟩ := exists_of_escape? hesc
            exact absurd (hcs ▸ List.mem_cons_self) h
      rw [hasEscape, hnone]
      exact ih fun hmem => h (List.mem_cons_of_mem _ hmem)

/-- A text without escapes is its bytes. -/
theorem percentDecode_eq_encode {cs : List Char} (h : hasEscape cs = false) :
    percentDecode 0 cs = encode cs := by
  induction cs with
  | nil => rfl
  | cons c cs ih =>
      rw [hasEscape, Bool.or_eq_false_iff, Option.isSome_eq_false_iff,
        Option.isNone_iff_eq_none] at h
      rw [percentDecode, h.1, encode, List.flatMap_cons]
      exact congrArg _ (ih h.2)

/-- **Percent-decoding makes no more ASCII bytes than there are ASCII characters.** -/
theorem countAsciiBytes_percentDecode_le (skip : ℕ) (cs : List Char) :
    countAsciiBytes (percentDecode skip cs) ≤ countAscii (cs.drop skip) := by
  induction cs generalizing skip with
  | nil => cases skip <;> exact le_refl 0
  | cons c cs ih =>
      cases skip with
      | succ skip => exact ih skip
      | zero =>
          rw [percentDecode, List.drop_zero, countAscii_cons]
          cases hesc : escape? (c :: cs) with
          | none =>
              dsimp only
              rw [countAsciiBytes_append, countAsciiBytes_utf8EncodeChar, Nat.add_comm]
              exact Nat.add_le_add_right (ih 0) _
          | some b =>
              obtain ⟨m, n, rest, hcs, -, -⟩ := exists_of_escape? hesc
              obtain ⟨rfl, rfl⟩ := List.cons.inj hcs
              have hrest := ih 2
              have hpercent : isAscii '%' = true := by decide
              dsimp only
              rw [countAsciiBytes_cons, countAscii_cons, countAscii_cons, if_pos hpercent]
              rw [List.drop_succ_cons, List.drop_succ_cons, List.drop_zero] at hrest
              split_ifs <;> omega

/-- An escape costs ASCII characters. -/
theorem countAsciiBytes_percentDecode_lt {cs : List Char} (h : hasEscape cs = true) :
    countAsciiBytes (percentDecode 0 cs) < countAscii cs := by
  induction cs with
  | nil => exact absurd h (by simp [hasEscape])
  | cons c cs ih =>
      rw [percentDecode, countAscii_cons]
      cases hesc : escape? (c :: cs) with
      | none =>
          rw [hasEscape, hesc, Option.isSome_none, Bool.false_or] at h
          dsimp only
          rw [countAsciiBytes_append, countAsciiBytes_utf8EncodeChar, Nat.add_comm]
          exact Nat.add_lt_add_right (ih h) _
      | some b =>
          obtain ⟨m, n, rest, hcs, hm, hn⟩ := exists_of_escape? hesc
          obtain ⟨rfl, rfl⟩ := List.cons.inj hcs
          have hrest := countAsciiBytes_percentDecode_le 2 (m :: n :: rest)
          dsimp only
          rw [countAsciiBytes_cons, countAscii_cons, countAscii_cons, if_pos hm, if_pos hn]
          rw [List.drop_succ_cons, List.drop_succ_cons, List.drop_zero] at hrest
          split_ifs <;> omega

/-! ### Names and values -/

/-- A plus sign means a space. -/
def plusToSpace (cs : List Char) : List Char := cs.map fun c => if c = '+' then ' ' else c

/-- **A name or a value, decoded.** -/
def decode (cs : List Char) : List Char := utf8Lossy 0 (percentDecode 0 (plusToSpace cs))

/-- A text without plus signs and escapes. -/
def Plain (cs : List Char) : Prop := '+' ∉ cs ∧ hasEscape cs = false

instance (cs : List Char) : Decidable (Plain cs) := inferInstanceAs (Decidable (_ ∧ _))

theorem countAscii_plusToSpace (cs : List Char) : countAscii (plusToSpace cs) = countAscii cs := by
  rw [countAscii, plusToSpace, List.countP_map]
  refine List.countP_congr fun c _ => ?_
  rw [Function.comp_apply]
  split_ifs with hc
  · rw [hc]
    decide
  · exact Iff.rfl

theorem plusToSpace_eq_self_iff {cs : List Char} : plusToSpace cs = cs ↔ '+' ∉ cs := by
  have hmap : plusToSpace cs = cs.map id ↔ ∀ c ∈ cs, (if c = '+' then ' ' else c) = id c :=
    List.map_inj_left
  rw [List.map_id] at hmap
  rw [hmap]
  constructor
  · intro h hmem
    exact absurd (h '+' hmem) (by decide)
  · intro h c hc
    exact if_neg fun heq : c = '+' => h (heq ▸ hc)

/-- **Decoding makes no ASCII characters of nothing.** -/
theorem countAscii_decode_le (cs : List Char) : countAscii (decode cs) ≤ countAscii cs := by
  refine (countAscii_utf8Lossy_le 0 _).trans ?_
  exact (countAsciiBytes_percentDecode_le 0 _).trans_eq (countAscii_plusToSpace cs)

theorem decode_of_plain {cs : List Char} (h : Plain cs) : decode cs = cs := by
  rw [decode, plusToSpace_eq_self_iff.2 h.1, percentDecode_eq_encode h.2, utf8Lossy_encode]

/-- **A text decodes to itself exactly when it is plain.** -/
theorem decode_eq_self_iff {cs : List Char} : decode cs = cs ↔ Plain cs := by
  refine ⟨fun h => ?_, decode_of_plain⟩
  have hesc : hasEscape (plusToSpace cs) = false := by
    by_contra hesc
    rw [Bool.not_eq_false] at hesc
    have hlt := countAsciiBytes_percentDecode_lt hesc
    have hle := countAscii_utf8Lossy_le 0 (percentDecode 0 (plusToSpace cs))
    rw [← decode, h] at hle
    rw [countAscii_plusToSpace] at hlt
    omega
  rw [decode, percentDecode_eq_encode hesc, utf8Lossy_encode] at h
  exact ⟨plusToSpace_eq_self_iff.1 h, h ▸ hesc⟩

/-- **A text is not decoded from one that stops short of an ASCII character of it.** -/
theorem takeWhile_eq_of_decode {p : Char → Bool} (hp : ∀ c, p c = false → isAscii c = true)
    {cs : List Char} (h : decode (cs.takeWhile p) = cs) : cs.takeWhile p = cs := by
  have hle := countAscii_decode_le (cs.takeWhile p)
  rw [h] at hle
  refine (Texts.takeWhile_eq_self_or p cs).resolve_right ?_
  rintro ⟨c, rest, hc, hcs⟩
  have hcount : countAscii cs = countAscii (cs.takeWhile p) + (countAscii rest + 1) := by
    conv_lhs => rw [hcs]
    rw [countAscii, List.countP_append, ← countAscii, ← countAscii, countAscii_cons,
      if_pos (hp c hc)]
  omega

/-! ### Pairs -/

/-- **The pairs of a text.** -/
def pairs (cs : List Char) : List (List Char × List Char) :=
  ((cs.splitOn '&').filter fun piece => !piece.isEmpty).map fun piece =>
    (decode (piece.takeWhile (· != '=')), decode (piece.dropWhile (· != '=')).tail)

theorem not_mem_piece {name value : List Char} (hname : '&' ∉ name) (hvalue : '&' ∉ value) :
    '&' ∉ name ++ '=' :: value := by
  simp [hname, hvalue]

/-- A piece is cut at its first `=`. -/
theorem decode_piece {name : List Char} (hname : '=' ∉ name) (value : List Char) :
    (decode ((name ++ '=' :: value).takeWhile (· != '=')),
      decode ((name ++ '=' :: value).dropWhile (· != '=')).tail) =
        (decode name, decode value) := by
  have hne : ∀ c ∈ name, (c != '=') = true := by
    intro c hc
    rw [bne_iff_ne]
    exact fun heq => hname (heq ▸ hc)
  rw [List.takeWhile_append_of_pos hne, List.dropWhile_append_of_pos hne,
    List.takeWhile_cons_of_neg (by simp), List.dropWhile_cons_of_neg (by simp),
    List.append_nil, List.tail_cons]

/-- A pair at the front. -/
theorem pairs_cons {name value : List Char} (rest : List Char) (hname : '=' ∉ name)
    (hname' : '&' ∉ name) (hvalue : '&' ∉ value) :
    pairs (name ++ '=' :: (value ++ '&' :: rest)) = (decode name, decode value) :: pairs rest := by
  have hsplit : (name ++ '=' :: (value ++ '&' :: rest)).splitOn '&' =
      (name ++ '=' :: value) :: rest.splitOn '&' := by
    rw [← List.cons_append, ← List.append_assoc]
    exact List.splitOn_append_cons_self_of_not_mem (not_mem_piece hname' hvalue) rest
  rw [pairs, hsplit, List.filter_cons_of_pos (by simp), List.map_cons, decode_piece hname, pairs]

/-- The last pair. -/
theorem pairs_singleton {name value : List Char} (hname : '=' ∉ name)
    (hname' : '&' ∉ name) (hvalue : '&' ∉ value) :
    pairs (name ++ '=' :: value) = [(decode name, decode value)] := by
  rw [pairs, List.splitOn_eq_singleton (not_mem_piece hname' hvalue),
    List.filter_cons_of_pos (by simp), List.filter_nil, List.map_cons, List.map_nil,
    decode_piece hname]

/-- The first pair, whatever stands behind it. -/
theorem exists_pairs_eq_cons (name : List Char) (hname : '=' ∉ name) (hname' : '&' ∉ name)
    (value : List Char) : ∃ rest, pairs (name ++ '=' :: value) =
      (decode name, decode (value.takeWhile (· != '&'))) :: rest := by
  have hcut : '&' ∉ value.takeWhile (· != '&') := Texts.not_mem_takeWhile_ne '&' value
  rcases Texts.takeWhile_ne_eq_self_or '&' value with hvalue | ⟨cs, hvalue⟩
  · rw [hvalue] at hcut ⊢
    exact ⟨[], pairs_singleton hname hname' hcut⟩
  · refine ⟨pairs cs, ?_⟩
    conv_lhs => rw [hvalue]
    exact pairs_cons cs hname hname' hcut

end Urlencoded
