import SettingsService.SettingsRest

/-!
# The version as an entity tag

A response carries the version of its setting as an entity tag, the decimal digits between quotes,
and a client sends the tag back as the precondition of a write.  What is read out of the header is
the version that was written.

Main definitions:

* `headerValue` — the bytes of a text in a header;
* `etag` — the entity tag of a version.

Main results:

* `toStr_headerValue` — a text of visible characters is read back;
* `ifMatch_of_text` — the version is read out of every text with the tag between white space;
* `ifMatch_etag` — **a tag that is sent back is the version it was made of**.
-/

set_option relaxedAutoImplicit false
set_option autoImplicit false

namespace SettingsService

/-! ### Header values -/

/-- The bytes of a text in a header. -/
def headerValue (s : String) : HeaderValue := s.toList.flatMap String.utf8EncodeChar

/-- The characters `to_str` reads. -/
def TextChar (c : Char) : Prop := 32 ≤ c.toNat ∧ c.toNat < 127 ∨ c = '\t'

theorem TextChar.lt {c : Char} (hc : TextChar c) : c.toNat < 127 := by
  rcases hc with hc | rfl
  · exact hc.2
  · decide

/-- Such a character is one byte, its code. -/
theorem TextChar.toNat_toUInt8 {c : Char} (hc : TextChar c) :
    c.val.toUInt8.toNat = c.toNat := by
  have hlt := hc.lt
  rw [UInt32.toNat_toUInt8]
  exact Nat.mod_eq_of_lt (lt_trans hlt (by decide))

theorem TextChar.utf8EncodeChar {c : Char} (hc : TextChar c) :
    String.utf8EncodeChar c = [c.val.toUInt8] := by
  refine String.utf8EncodeChar_eq_singleton ?_
  have hlt := hc.lt
  rw [Char.utf8Size_eq_one_iff, UInt32.le_iff_toNat_le]
  exact Nat.le_of_lt hlt

theorem headerValue_eq {s : String} (hs : ∀ c ∈ s.toList, TextChar c) :
    headerValue s = s.toList.map fun c => c.val.toUInt8 := by
  rw [headerValue]
  generalize s.toList = cs at hs ⊢
  induction cs with
  | nil => rfl
  | cons c cs ih =>
      obtain ⟨hc, hcs⟩ := List.forall_mem_cons.1 hs
      rw [List.flatMap_cons, List.map_cons, hc.utf8EncodeChar, ih hcs, List.singleton_append]

/-- **A text of visible characters, spaces and tabs is read back.** -/
theorem toStr_headerValue {s : String} (hs : ∀ c ∈ s.toList, TextChar c) :
    toStr (headerValue s) = some s := by
  have hall : ((s.toList.map fun c => c.val.toUInt8).all fun b =>
      (32 ≤ b && b < 127) || b == 9) = true := by
    rw [List.all_map, List.all_eq_true]
    intro c hc
    have hbyte := (hs c hc).toNat_toUInt8
    rcases hs c hc with hvisible | rfl
    · simp only [Function.comp, Bool.or_eq_true, Bool.and_eq_true, decide_eq_true_eq,
        UInt8.le_iff_toNat_le, UInt8.lt_iff_toNat_lt, hbyte]
      exact .inl hvisible
    · decide
  have hchars : ∀ c ∈ s.toList, Char.ofNat c.val.toUInt8.toNat = c := by
    intro c hc
    rw [(hs c hc).toNat_toUInt8, Char.ofNat_toNat]
  rw [headerValue_eq hs, toStr, if_pos hall, List.map_map]
  refine congrArg some (Eq.trans (congrArg String.ofList ?_) String.ofList_toList)
  exact (List.map_congr_left hchars).trans (List.map_id _)

/-! ### Entity tags -/

/-- The entity tag of a version. -/
def etag (version : ℕ) : String := "\"" ++ version.repr ++ "\""

theorem toList_etag (version : ℕ) :
    (etag version).toList = ['"'] ++ (version.repr.toList ++ ['"']) := by
  rw [etag, String.toList_append, String.toList_append, List.append_assoc]
  rfl

/-- The response of a setting carries the tag of its version. -/
theorem lookup_etagResponse (base : Anchor) (rfc3339 : ℤ → String) (s : Setting) :
    (etagResponse base rfc3339 s).headers.lookup "etag" = some (etag s.version) := rfl

/-- Different versions have different tags. -/
theorem etag_injective : Function.Injective etag := by
  intro v w h
  have hlist := congrArg String.toList h
  rw [toList_etag, toList_etag, List.append_cancel_left_eq, List.append_cancel_right_eq] at hlist
  -- the digits are read back as either number
  have hv : parseUnsigned (max v w + 1) v.repr = some v := parseUnsigned_repr (by omega)
  have hw : parseUnsigned (max v w + 1) w.repr = some w := parseUnsigned_repr (by omega)
  rw [String.toList_injective hlist, hw] at hv
  exact (Option.some.inj hv).symm

/-- The white space around a tag is dropped. -/
theorem trim_etag {before after : String} (hbefore : ∀ c ∈ before.toList, isWhitespace c = true)
    (hafter : ∀ c ∈ after.toList, isWhitespace c = true) (version : ℕ) :
    trim (before ++ etag version ++ after) = etag version := by
  rw [trim, String.toList_append, String.toList_append, List.append_assoc,
    Texts.dropWhile_rdropWhile_append hbefore hafter, String.ofList_toList]
  · rw [toList_etag]
    exact List.cons_ne_nil _ _
  · intro c hc
    rw [toList_etag, List.singleton_append, List.head?_cons, Option.mem_some_iff] at hc
    exact hc ▸ by decide
  · intro c hc
    rw [toList_etag, ← List.append_assoc, List.getLast?_concat, Option.mem_some_iff] at hc
    exact hc ▸ by decide

/-- The quotes of a tag are dropped. -/
theorem trimMatches_etag (version : ℕ) : trimMatches '"' (etag version) = version.repr := by
  have hquote : ∀ c ∈ version.repr.toList, (c == '"') = false := by
    intro c hc
    rw [beq_eq_false_iff_ne]
    rintro rfl
    exact Texts.not_mem_repr (by decide) version hc
  have hdropped : ∀ c ∈ ['"'], (c == '"') = true := List.forall_mem_singleton.2 rfl
  rw [trimMatches, toList_etag, Texts.dropWhile_rdropWhile_append hdropped hdropped,
    String.ofList_toList]
  · exact fun h => Nat.repr_ne_empty (String.toList_eq_nil_iff.1 h)
  · exact fun c hc => hquote c (List.mem_of_mem_head? hc)
  · exact fun c hc => hquote c (List.mem_of_mem_getLast? hc)

/-- The version is read out of every text with the tag between white space. -/
theorem ifMatch_of_text {headers : HeaderMap} {before after : String} {version : ℕ}
    (hversion : version < 2 ^ 64) (hbefore : ∀ c ∈ before.toList, isWhitespace c = true)
    (hafter : ∀ c ∈ after.toList, isWhitespace c = true)
    (htext : (headers.get "if-match").bind toStr = some (before ++ etag version ++ after)) :
    ifMatch headers = some version := by
  have hread : ifMatch headers = ((headers.get "if-match").bind toStr).bind fun s =>
      parseU64 (trimMatches '"' (trim s)) := by
    rw [ifMatch, Option.bind_assoc]
    rfl
  rw [hread, htext, Option.bind_some, trim_etag hbefore hafter, trimMatches_etag]
  exact parseUnsigned_repr hversion

/-- Spaces and tabs, the white space of a header. -/
def IsBlank (s : String) : Prop := ∀ c ∈ s.toList, c = ' ' ∨ c = '\t'

instance (s : String) : Decidable (IsBlank s) :=
  List.decidableBAll (fun c => c = ' ' ∨ c = '\t') s.toList

theorem IsBlank.isWhitespace {s : String} (hs : IsBlank s) :
    ∀ c ∈ s.toList, isWhitespace c = true := by
  intro c hc
  rcases hs c hc with rfl | rfl
  · decide
  · decide

/-- A tag between blanks is a text that can be read. -/
theorem textChar_of_mem_etag {before after : String} (hbefore : IsBlank before)
    (hafter : IsBlank after) {version : ℕ} :
    ∀ c ∈ (before ++ etag version ++ after).toList, TextChar c := by
  have hblank : ∀ {s : String}, IsBlank s → ∀ c ∈ s.toList, TextChar c := by
    intro s hs c hc
    rcases hs c hc with rfl | rfl
    · exact .inl (by decide)
    · exact .inr rfl
  have hquote : TextChar '"' := .inl (by decide)
  have hdigits : ∀ c ∈ version.repr.toList, TextChar c := by
    intro c hc
    have hdigit := Texts.toNat_of_mem_repr hc
    exact .inl ⟨by omega, by omega⟩
  rw [String.toList_append, String.toList_append, toList_etag]
  simp only [List.forall_mem_append, List.forall_mem_singleton]
  exact ⟨⟨hblank hbefore, hquote, hdigits, hquote⟩, hblank hafter⟩

/-- **A tag that is sent back is the version it was made of.**  The response of a setting carries
the tag of its version; a header with the tag of a version, whatever blanks stand around it, is
read as that version, and so is every text with the tag between white space; and different versions
have different tags. -/
theorem ifMatch_etag :
    (∀ base rfc3339 s,
        (etagResponse base rfc3339 s).headers.lookup "etag" = some (etag s.version)) ∧
      (∀ version < 2 ^ 64, ∀ before after, IsBlank before → IsBlank after →
        ∀ headers : HeaderMap,
          headers.get "if-match" = some (headerValue (before ++ etag version ++ after)) →
          ifMatch headers = some version) ∧
      (∀ version < 2 ^ 64, ∀ before after : String,
        (∀ c ∈ before.toList, isWhitespace c = true) →
        (∀ c ∈ after.toList, isWhitespace c = true) → ∀ headers : HeaderMap,
          (headers.get "if-match").bind toStr = some (before ++ etag version ++ after) →
          ifMatch headers = some version) ∧
      ∀ base rfc3339 s t, (etagResponse base rfc3339 s).headers.lookup "etag" =
        (etagResponse base rfc3339 t).headers.lookup "etag" → s.version = t.version := by
  refine ⟨lookup_etagResponse, fun version hversion before after hbefore hafter headers h => ?_,
    fun version hversion before after hbefore hafter headers h =>
      ifMatch_of_text hversion hbefore hafter h, fun base rfc3339 s t h => ?_⟩
  · refine ifMatch_of_text hversion hbefore.isWhitespace hafter.isWhitespace ?_
    rw [h, Option.bind_some, toStr_headerValue (textChar_of_mem_etag hbefore hafter)]
  · rw [lookup_etagResponse, lookup_etagResponse] at h
    exact etag_injective (Option.some.inj h)

/-- The largest version, between blanks. -/
theorem ifMatch_etag_max : IsBlank "\t " ∧ 2 ^ 64 - 1 < 2 ^ 64 ∧
    ifMatch [("if-match", headerValue ("\t " ++ etag (2 ^ 64 - 1) ++ " "))] =
      some (2 ^ 64 - 1) :=
  ⟨by decide, by decide, ifMatch_etag.2.1 (2 ^ 64 - 1) (by decide) "\t " " " (by decide) (by decide)
    _ rfl⟩

end SettingsService
