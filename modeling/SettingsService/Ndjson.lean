import SettingsService.MergePatch
import SettingsService.SearchPanics

/-!
# A page as JSON and as newline-delimited JSON

The two encodings of a page print the same rows.  A printed value is free of control characters,
whatever it holds: those of its strings and keys are escaped, and the printer writes none of its
own.  So a newline in the body of a page is always the end of a row.

Main definitions:

* `NoControl` — a text without control characters;
* `EncodedAlike` — how rows are read off a response in either encoding.

Main results:

* `Json.noControl_print` — **no printed value holds a control character**;
* `Json.print_array` — the text of an array is the texts of its elements, between brackets and
  separated by commas;
* `encodings_agree` — **both encodings carry the same rows**.
-/

set_option relaxedAutoImplicit false
set_option autoImplicit false

namespace SettingsService

open Interaction (Prog)

/-! ### Texts without control characters -/

/-- A text without control characters, so without newlines. -/
def NoControl (s : String) : Prop := ∀ c ∈ s.toList, 32 ≤ c.toNat

instance (s : String) : Decidable (NoControl s) :=
  List.decidableBAll (fun c : Char => 32 ≤ c.toNat) s.toList

theorem noControl_append {s t : String} : NoControl (s ++ t) ↔ NoControl s ∧ NoControl t := by
  rw [NoControl, String.toList_append, List.forall_mem_append]
  rfl

theorem noControl_ofList {cs : List Char} :
    NoControl (String.ofList cs) ↔ ∀ c ∈ cs, 32 ≤ c.toNat := by
  rw [NoControl, String.toList_ofList]

theorem noControl_intercalate {sep : String} (hsep : NoControl sep) {ls : List String}
    (hls : ∀ l ∈ ls, NoControl l) : NoControl (sep.intercalate ls) := by
  rw [NoControl, String.toList_intercalate, Texts.forall_mem_intercalate_iff hsep,
    List.forall_mem_map]
  exact hls

theorem NoControl.newline_not_mem {s : String} (h : NoControl s) : '\n' ∉ s.toList := by
  intro hmem
  exact absurd (h _ hmem) (by decide)

/-! ### Numbers -/

theorem noControl_repr (n : ℕ) : NoControl n.repr :=
  fun _ hc => le_trans (by decide) (Texts.toNat_of_mem_repr hc).1

theorem noControl_printExponent (e : ℤ) : NoControl (printExponent e) := by
  have hsign : NoControl (if 0 ≤ e then "e+" else "e-") := by
    split_ifs <;> decide
  exact noControl_append.2 ⟨hsign, noControl_repr _⟩

theorem noControl_zeros (n : ℕ) : NoControl (zeros n) := by
  rw [zeros, noControl_ofList]
  intro c hc
  rw [List.eq_of_mem_replicate hc]
  decide

/-- The text of a float holds digits, a point, a sign and an exponent. -/
theorem Decimal.noControl_print (d : Decimal) : NoControl d.print := by
  have hdigits : NoControl d.digits.repr := noControl_repr d.digits
  have htake (n : ℕ) : NoControl (String.ofList (d.digits.repr.toList.take n)) :=
    noControl_ofList.2 fun c hc => hdigits c (List.mem_of_mem_take hc)
  have hdrop (n : ℕ) : NoControl (String.ofList (d.digits.repr.toList.drop n)) :=
    noControl_ofList.2 fun c hc => hdigits c (List.mem_of_mem_drop hc)
  have hsign : NoControl (if d.neg then "-" else "") := by
    split_ifs <;> decide
  rw [Decimal.print, noControl_append]
  refine ⟨hsign, ?_⟩
  split_ifs
  · decide
  · exact noControl_append.2 ⟨noControl_append.2 ⟨hdigits, noControl_zeros _⟩, by decide⟩
  · exact noControl_append.2 ⟨noControl_append.2 ⟨htake _, by decide⟩, hdrop _⟩
  · exact noControl_append.2 ⟨noControl_append.2 ⟨by decide, noControl_zeros _⟩, hdigits⟩
  · exact noControl_append.2 ⟨hdigits, noControl_printExponent _⟩
  · simp only [noControl_append]
    exact ⟨⟨⟨htake _, by decide⟩, hdrop _⟩, noControl_printExponent _⟩

theorem Number.noControl_print (n : Number) : NoControl n.print := by
  cases n with
  | posInt n => exact noControl_repr _
  | negInt n => exact noControl_append.2 ⟨by decide, noControl_repr _⟩
  | float d => exact d.noControl_print

/-! ### Strings -/

theorem hexDigit_mem (n : ℕ) : hexDigit n ∈ "0123456789abcdef".toList := by
  unfold hexDigit
  rw [List.getD_eq_getElem?_getD]
  cases h : "0123456789abcdef".toList[n]? with
  | none => decide
  | some c => exact List.mem_of_getElem? h

/-- A control character is escaped. -/
theorem noControl_escapeChar (c : Char) : NoControl (escapeChar c) := by
  have hhex (n : ℕ) : 32 ≤ (hexDigit n).toNat :=
    (by decide : NoControl "0123456789abcdef") _ (hexDigit_mem n)
  unfold escapeChar
  split_ifs with _ _ _ _ _ _ _ hcontrol
  iterate 7 decide
  · refine noControl_append.2 ⟨by decide, noControl_ofList.2 ?_⟩
    exact List.forall_mem_cons.2 ⟨hhex _, List.forall_mem_singleton.2 (hhex _)⟩
  · intro c' hc'
    rw [String.toList_singleton, List.mem_singleton] at hc'
    rw [hc']
    exact Nat.le_of_not_lt hcontrol

theorem noControl_quote (s : String) : NoControl (quote s) := by
  have hbody (cs : List Char) : NoControl ((cs.map escapeChar).foldr (· ++ ·) "") := by
    induction cs with
    | nil => decide
    | cons c cs ih => exact noControl_append.2 ⟨noControl_escapeChar c, ih⟩
  rw [quote, noControl_append, noControl_append]
  exact ⟨⟨by decide, hbody _⟩, by decide⟩

/-! ### Values -/

namespace Json

theorem printElems_eq (x : Json) (xs : List Json) :
    x.print ++ printElems xs = ",".intercalate ((x :: xs).map print) := by
  induction xs generalizing x with
  | nil => rw [printElems, List.map_singleton, String.intercalate_singleton, String.append_empty]
  | cons y xs ih =>
      rw [printElems, List.map_cons, List.map_cons, String.intercalate_cons_cons, ← List.map_cons,
        ← ih y, String.append_assoc, String.append_assoc]

/-- The text of an array is the texts of its elements, separated by commas. -/
theorem print_array (xs : List Json) :
    (array xs).print = "[" ++ ",".intercalate (xs.map print) ++ "]" := by
  cases xs with
  | nil => rfl
  | cons x xs =>
      rw [print, ← printElems_eq]
      simp only [String.append_assoc]

/-- The text of a member of an object. -/
def printMember (m : String × Json) : String := quote m.1 ++ ":" ++ m.2.print

theorem printMembers_eq (m : String × Json) (ms : List (String × Json)) :
    printMember m ++ printMembers ms = ",".intercalate ((m :: ms).map printMember) := by
  induction ms generalizing m with
  | nil => rw [printMembers, List.map_singleton, String.intercalate_singleton, String.append_empty]
  | cons m' ms ih =>
      rw [printMembers, List.map_cons, List.map_cons, String.intercalate_cons_cons, ← List.map_cons,
        ← ih m', printMember, printMember]
      simp only [String.append_assoc]

/-- The text of an object is the texts of its members, separated by commas. -/
theorem print_object (ms : List (String × Json)) :
    (object ms).print = "\x7b" ++ ",".intercalate (ms.map printMember) ++ "\x7d" := by
  cases ms with
  | nil => rfl
  | cons m ms =>
      rw [print, ← printMembers_eq, printMember]
      simp only [String.append_assoc]

/-- **No printed value holds a control character.** -/
theorem noControl_print (j : Json) : NoControl j.print := by
  induction j using treeInduction with
  | null => decide
  | bool b => cases b <;> decide
  | number n => exact n.noControl_print
  | string s => exact noControl_quote s
  | array xs ih =>
      rw [print_array, noControl_append, noControl_append]
      exact ⟨⟨by decide, noControl_intercalate (by decide) (List.forall_mem_map.2 ih)⟩, by decide⟩
  | object ms ih =>
      rw [print_object, noControl_append, noControl_append]
      refine ⟨⟨by decide, noControl_intercalate (by decide) (List.forall_mem_map.2 ?_)⟩, by decide⟩
      intro m hm
      rw [printMember, noControl_append, noControl_append]
      exact ⟨⟨noControl_quote m.1, by decide⟩, ih m hm⟩

end Json

/-! ### The two bodies of a page -/

/-- The text of a row is an object, so not empty. -/
theorem SettingResponse.text_ne_empty (r : SettingResponse) : r.text ≠ "" := by
  intro h
  have hlist := congrArg String.toList h
  rw [SettingResponse.text, SettingResponse.json, Json.print_object, String.toList_append,
    String.toList_append] at hlist
  simp at hlist

/-- The lines of the body as newline-delimited JSON. -/
theorem split_ndjsonBody (rows : List SettingResponse) :
    split '\n' (ndjsonBody rows) = if rows = [] then [""] else rows.map SettingResponse.text := by
  rw [split, ndjsonBody, String.toList_intercalate, List.map_map]
  split_ifs with hrows
  · rw [hrows]
    rfl
  · have hlines : ∀ l ∈ rows.map (String.toList ∘ SettingResponse.text), '\n' ∉ l := by
      refine List.forall_mem_map.2 fun r _ => ?_
      exact (Json.noControl_print r.json).newline_not_mem
    have hne : rows.map (String.toList ∘ SettingResponse.text) ≠ [] :=
      fun h => hrows (List.map_eq_nil_iff.1 h)
    have hsep : "\n".toList = ['\n'] := rfl
    rw [hsep, List.splitOn_intercalate '\n' hlines hne, List.map_map]
    refine List.map_congr_left fun r _ => ?_
    exact String.ofList_toList

/-- The empty body is that of the page without rows. -/
theorem ndjsonBody_eq_empty_iff {rows : List SettingResponse} :
    ndjsonBody rows = "" ↔ rows = [] := by
  cases rows with
  | nil => exact iff_of_true rfl rfl
  | cons r rows =>
      refine iff_of_false (fun h => ?_) (List.cons_ne_nil r rows)
      cases rows with
      | nil =>
          rw [ndjsonBody, List.map_singleton, String.intercalate_singleton] at h
          exact r.text_ne_empty h
      | cons r' rows =>
          rw [ndjsonBody, List.map_cons, List.map_cons, String.intercalate_cons_cons,
            String.append_assoc, String.append_eq_empty_iff] at h
          exact r.text_ne_empty h.1

theorem jsonBody_eq (rows : List SettingResponse) :
    jsonBody rows = "[" ++ ",".intercalate (rows.map SettingResponse.text) ++ "]" := by
  rw [jsonBody, Json.print_array, List.map_map]
  rfl

/-- **Both encodings carry the rows of a page.** -/
structure EncodedAlike (rows : List SettingResponse) : Prop where
  /-- A search that returned these rows ends in a response that carries them in the encoding that
  is asked for, if its filter is a legal header value and the times can be formatted. -/
  responds : ∀ (pg : Postgres) (base : Anchor) (rfc3339 : ℤ → String) (headers : HeaderMap)
    (q : ListQuery) (a : Authority) (T : Table) (p : Pagination) (page : SearchPage),
    Pagination.new (q.page.getD 1) (q.size.getD 20) = .ok p → p.page < 2 ^ 32 →
    (Prog.run pg.exec (Service.search base (q.query.getD "") a p).run T).1 = .ok (some page) →
    page.rows.map (SettingResponse.ofSetting base rfc3339) = rows →
    (∀ s ∈ q.query, isHeaderText s = true) →
    (∀ s ∈ page.rows, inChronoRange (instantToMillis base s.updatedAt) = true) →
      ∃ resp, listAlone pg base rfc3339 headers q a T = .ok (some resp) ∧
        resp.Encodes headers rows
  /-- Whatever response is built for these rows carries them. -/
  encodes : ∀ (base : Anchor) (rfc3339 : ℤ → String) (headers : HeaderMap) (p : Pagination)
    (query : Option String) (page : SearchPage) (resp : Response),
    pageResponse base rfc3339 headers p query page = some resp →
    page.rows.map (SettingResponse.ofSetting base rfc3339) = rows → resp.Encodes headers rows
  /-- Split at its newlines, one body is the texts of the rows in their order. -/
  ndjson : split '\n' (ndjsonBody rows) =
    if rows = [] then [""] else rows.map SettingResponse.text
  /-- It is empty for the page without rows alone. -/
  empty : ndjsonBody rows = "" ↔ rows = []
  /-- The other body is the same texts, between brackets and separated by commas. -/
  json : jsonBody rows = "[" ++ ",".intercalate (rows.map SettingResponse.text) ++ "]"

/-- **Both encodings carry the same rows**, whatever these hold. -/
theorem encodings_agree (rows : List SettingResponse) : EncodedAlike rows where
  responds pg base rfc3339 headers q a T p page hp hpage hrun hrows hquery htimes := by
    obtain ⟨resp, hresp, hencodes, -⟩ := exists_pageResponse hpage hquery page htimes rfc3339
      headers
    rw [hrows] at hencodes
    refine ⟨resp, ?_, hencodes⟩
    rw [listAlone_of_valid hp, hrun]
    exact congrArg Except.ok hresp
  encodes base rfc3339 headers p query page resp hresp hrows := by
    obtain ⟨-, rfl⟩ := (pageResponse_eq_some_iff base rfc3339).1 hresp
    rw [← hrows]
    exact ⟨rfl, rfl, rfl⟩
  ndjson := split_ndjsonBody rows
  empty := ndjsonBody_eq_empty_iff
  json := jsonBody_eq rows

open Sample in
/-- A row whose value holds newlines and quotes is one line, and the two settings of Alice are
found and sent in both encodings. -/
theorem encodings_agree_newline :
    let row : SettingResponse := ⟨"a\nb", ⟨.object [("say \"x\"", .array [.string "1\n2\n"])], rfl⟩,
      ⟨"acme", none, "tenant"⟩, 1, "1970-01-01T00:00:00Z"⟩
    let rows := settingsOfAlice.map (SettingResponse.ofSetting ⟨0, 0⟩ Int.repr)
    let send (headers : HeaderMap) := listAlone (Postgres.ofJsonb id) ⟨0, 0⟩ Int.repr headers
      ⟨some "theme", some 1, some 20⟩ aliceAdmin afterBoth.state
    split '\n' (ndjsonBody [row, row]) = [row.text, row.text] ∧
      (∃ resp, send [("accept", [110, 100, 106, 115, 111, 110])] = .ok (some resp) ∧
        resp.status = 200 ∧ split '\n' resp.body = rows.map SettingResponse.text) ∧
      ∃ resp, send [] = .ok (some resp) ∧ resp.status = 200 ∧
        resp.body = "[" ++ ",".intercalate (rows.map SettingResponse.text) ++ "]" := by
  intro row rows send
  have hacc : aliceAdmin.SearchAccepted ((some "theme").getD "") := by decide
  have hrun : (Prog.run (Postgres.ofJsonb id).exec (Service.search ⟨0, 0⟩ "theme" aliceAdmin
      ⟨1, 20, by decide, by decide, by decide⟩).run afterBoth.state).1 =
        .ok (some ⟨settingsOfAlice, 2⟩) :=
    run_search_eq (q := ⟨some "theme", some 1, some 20⟩) hacc _
  have hagree := encodings_agree rows
  have hsend (headers : HeaderMap) :
      ∃ resp, send headers = .ok (some resp) ∧ resp.Encodes headers rows :=
    hagree.responds (Postgres.ofJsonb id) ⟨0, 0⟩ Int.repr headers ⟨some "theme", some 1, some 20⟩
      aliceAdmin afterBoth.state ⟨1, 20, by decide, by decide, by decide⟩ ⟨settingsOfAlice, 2⟩ rfl
      (by decide) hrun rfl (by decide) (by decide)
  refine ⟨(encodings_agree [row, row]).ndjson, ?_, ?_⟩
  · obtain ⟨resp, hresp, hencodes⟩ := hsend [("accept", [110, 100, 106, 115, 111, 110])]
    refine ⟨resp, hresp, hencodes.status, ?_⟩
    rw [hencodes.body, if_pos (by decide +kernel)]
    exact hagree.ndjson
  · obtain ⟨resp, hresp, hencodes⟩ := hsend []
    refine ⟨resp, hresp, hencodes.status, ?_⟩
    rw [hencodes.body, if_neg (by decide)]
    exact hagree.json

end SettingsService
