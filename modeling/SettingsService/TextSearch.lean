import SettingsService.Visibility

/-!
# Searching for a text

The query of a search is put between two percent signs and compared by `ILIKE`.  A percent sign, an
underscore or a backslash in the query is a part of the pattern language there, and not a character
to look for.

Main definitions:

* `Contains` — a text holds another as a substring, ignoring the case of ASCII letters;
* `PlainQuery` — a query without characters of the pattern language;
* `FindsExactly` — a search finds the readable rows that contain the query;
* `sample` — a text that a query matches, and that contains it only if it is plain.

Main results:

* `ilike_pattern_iff` — **a plain query matches the texts that contain it**;
* `plain_of_infix_sample` — a query that is not plain matches a text that does not contain it;
* `findsExactly_iff` — **searches find what contains the query exactly when** it is plain, and no
  user is the empty text;
* `not_findsExactly` — an underscore that finds every row.
-/

set_option relaxedAutoImplicit false
set_option autoImplicit false

namespace SettingsService

/-! ### Substrings -/

/-- Letters in lower case. -/
def lower (s : List Char) : List Char := s.map Char.toLower

/-- **The text contains the query as a literal substring**, ignoring the case of letters. -/
def Contains (s query : String) : Prop := lower query.toList <:+: lower s.toList

instance (s query : String) : Decidable (Contains s query) :=
  inferInstanceAs (Decidable (_ <:+: _))

/-- A query without characters of the pattern language. -/
def PlainQuery (query : String) : Prop :=
  '%' ∉ query.toList ∧ '_' ∉ query.toList ∧ '\\' ∉ query.toList

instance (query : String) : Decidable (PlainQuery query) := inferInstanceAs (Decidable (_ ∧ _))

theorem lower_append (s t : List Char) : lower (s ++ t) = lower s ++ lower t := List.map_append

theorem lower_drop (n : ℕ) (s : List Char) : lower (s.drop n) = (lower s).drop n := List.map_drop

/-! ### Patterns -/

theorem ilike_percent_iff {p s : List Char} :
    ilike ('%' :: p) s = true ↔ ∃ t, t <:+ s ∧ ilike p t = true := by
  rw [ilike, List.any_eq_true]
  simp only [List.mem_tails]

theorem ilike_percent_self {p s : List Char} (h : ilike p s = true) : ilike ('%' :: p) s = true :=
  ilike_percent_iff.2 ⟨s, List.suffix_refl s, h⟩

theorem ilike_percent_end (s : List Char) : ilike ['%'] s = true :=
  ilike_percent_iff.2 ⟨[], List.nil_suffix, rfl⟩

/-- A character that is not of the pattern language matches itself, ignoring case. -/
theorem ilike_cons_iff {c : Char} (h₁ : c ≠ '%') (h₂ : c ≠ '_') (h₃ : c ≠ '\\') {p s : List Char} :
    ilike (c :: p) s = true ↔ ∃ d t, s = d :: t ∧ c.toLower = d.toLower ∧ ilike p t = true := by
  rw [ilike.eq_def]
  split
  · rename_i h
    exact absurd h (by simp)
  · rename_i h
    exact absurd (List.cons.inj h).1 h₁
  · rename_i h
    exact absurd (List.cons.inj h).1 h₂
  · rename_i h
    exact absurd (List.cons.inj h).1 h₃
  · rename_i h
    obtain ⟨rfl, rfl⟩ := List.cons.inj h
    split
    · simp
    · simp [and_assoc]

/-- A plain query, and whatever follows, matches the texts that start with it. -/
theorem ilike_prefix_iff {q : List Char} (h₁ : '%' ∉ q) (h₂ : '_' ∉ q) (h₃ : '\\' ∉ q)
    {s : List Char} : ilike (q ++ ['%']) s = true ↔ lower q <+: lower s := by
  induction q generalizing s with
  | nil =>
      rw [List.nil_append]
      exact iff_of_true (ilike_percent_end s) List.nil_prefix
  | cons c q ih =>
      rw [List.mem_cons, not_or] at h₁ h₂ h₃
      have hc := ilike_cons_iff (p := q ++ ['%']) (s := s) (Ne.symm h₁.1) (Ne.symm h₂.1)
        (Ne.symm h₃.1)
      rw [List.cons_append, hc]
      simp only [ih h₁.2 h₂.2 h₃.2]
      cases s with
      | nil => simp [lower]
      | cons d s => simp [lower, List.cons_prefix_cons]

theorem toList_pattern (q : String) : (pattern q).toList = '%' :: (q.toList ++ ['%']) := by
  simp [pattern]

/-- **A plain query matches the texts that contain it.** -/
theorem ilike_pattern_iff {q : String} (hq : PlainQuery q) {s : String} :
    ilike (pattern q).toList s.toList = true ↔ Contains s q := by
  rw [toList_pattern, ilike_percent_iff]
  simp only [ilike_prefix_iff hq.1 hq.2.1 hq.2.2]
  constructor
  · rintro ⟨t, ⟨front, hs⟩, ⟨rest, ht⟩⟩
    refine ⟨lower front, rest, ?_⟩
    rw [List.append_assoc, ht, ← lower_append, hs]
  · rintro ⟨front, rest, hs⟩
    refine ⟨s.toList.drop front.length, List.drop_suffix _ _, rest, ?_⟩
    rw [lower_drop, ← hs, List.append_assoc, List.drop_left]

/-! ### A text that a query matches -/

/-- A text that a query matches as a pattern: nothing for a percent sign, a letter for an
underscore, and the character that a backslash makes literal, which at the end of the query is the
percent sign behind it. -/
def sample : List Char → List Char
  | [] => []
  | '%' :: q => sample q
  | '_' :: q => 'x' :: sample q
  | ['\\'] => ['%']
  | '\\' :: c :: q => c :: sample q
  | c :: q => c :: sample q

theorem ne_backslash {c : Char} {q : List Char} (hnil : c = '\\' → q = [] → False)
    (hcons : ∀ c' q', c = '\\' → q = c' :: q' → False) : c ≠ '\\' := by
  intro hc
  cases q with
  | nil => exact hnil hc rfl
  | cons c' q' => exact hcons c' q' hc rfl

theorem sample_cons {c : Char} (h₁ : c ≠ '%') (h₂ : c ≠ '_') (h₃ : c ≠ '\\') (q : List Char) :
    sample (c :: q) = c :: sample q := by
  rw [sample]
  · exact h₁
  · exact h₂
  · exact fun hc _ => h₃ hc
  · exact fun _ _ hc _ => h₃ hc

/-- A query matches its sample. -/
theorem ilike_sample (q : List Char) : ilike (q ++ ['%']) (sample q) = true := by
  induction q using sample.induct with
  | case1 => exact ilike_percent_end _
  | case2 q ih => exact ilike_percent_self ih
  | case3 q ih =>
      rw [sample, List.cons_append, ilike]
      exact ih
  | case4 =>
      rw [sample, List.cons_append, List.nil_append, ilike]
      rfl
  | case5 c q ih =>
      rw [sample, List.cons_append, List.cons_append, ilike, ih, beq_self_eq_true, Bool.and_true]
  | case6 c q h₁ h₂ h₃ h₄ ih =>
      rw [sample_cons h₁ h₂ (ne_backslash h₃ h₄), List.cons_append]
      exact (ilike_cons_iff h₁ h₂ (ne_backslash h₃ h₄)).2 ⟨c, sample q, rfl, rfl, ih⟩

theorem length_sample_le (q : List Char) : (sample q).length ≤ q.length := by
  induction q using sample.induct with
  | case1 => exact Nat.le_refl _
  | case2 q ih =>
      rw [sample, List.length_cons]
      omega
  | case3 q ih =>
      rw [sample, List.length_cons, List.length_cons]
      omega
  | case4 => exact Nat.le_refl _
  | case5 c q ih =>
      rw [sample, List.length_cons, List.length_cons, List.length_cons]
      omega
  | case6 c q h₁ h₂ h₃ h₄ ih =>
      rw [sample_cons h₁ h₂ (ne_backslash h₃ h₄), List.length_cons, List.length_cons]
      omega

/-- A query that is its own sample is plain. -/
theorem plain_of_lower_eq {q : List Char} (h : lower q = lower (sample q)) :
    '%' ∉ q ∧ '_' ∉ q ∧ '\\' ∉ q := by
  induction q using sample.induct with
  | case1 => exact ⟨List.not_mem_nil, List.not_mem_nil, List.not_mem_nil⟩
  | case2 q ih =>
      have hlen := congrArg List.length h
      have hle := length_sample_le q
      rw [sample, lower, lower, List.length_map, List.length_map, List.length_cons] at hlen
      omega
  | case3 q ih =>
      rw [sample] at h
      exact absurd (List.cons.inj h).1 (by decide)
  | case4 => exact absurd h (by decide)
  | case5 c q ih =>
      have hlen := congrArg List.length h
      have hle := length_sample_le q
      rw [sample, lower, lower, List.length_map, List.length_map, List.length_cons,
        List.length_cons, List.length_cons] at hlen
      omega
  | case6 c q h₁ h₂ h₃ h₄ ih =>
      have hc := ne_backslash h₃ h₄
      rw [sample_cons h₁ h₂ hc] at h
      obtain ⟨hpercent, hunderscore, hbackslash⟩ := ih (List.cons.inj h).2
      simp only [List.mem_cons, not_or]
      exact ⟨⟨Ne.symm h₁, hpercent⟩, ⟨Ne.symm h₂, hunderscore⟩, ⟨Ne.symm hc, hbackslash⟩⟩

/-- **The sample of a query contains it only if** the query is plain. -/
theorem plain_of_infix_sample {q : List Char} (h : lower q <:+: lower (sample q)) :
    '%' ∉ q ∧ '_' ∉ q ∧ '\\' ∉ q := by
  refine plain_of_lower_eq (h.eq_of_length_le ?_)
  rw [lower, lower, List.length_map, List.length_map]
  exact length_sample_le q

/-! ### What a search finds -/

/-- **A search finds exactly the readable rows that contain the query**, in the key or in the text
of the value. -/
def FindsExactly (pg : Postgres) (T : Table) (query : String) : Prop :=
  ∀ (a : Authority), ∀ r ∈ T.rows, a.canRead r.ownership = true →
    (r ∈ a.visibleRows pg query T ↔
      Contains r.key query ∨ Contains (pg.jsonbText r.value) query)

section Search

variable {pg : Postgres} {T : Table} {query : String}

/-- A readable row is visible exactly when it matches. -/
theorem mem_visibleRows_iff (hT : T.UsersNonempty) {a : Authority} {r : SettingRecord}
    (hr : r ∈ T.rows) (hread : a.canRead r.ownership = true) :
    r ∈ a.visibleRows pg query T ↔ r.matchesQuery pg query = true := by
  rw [visible_eq hT, List.mem_filter, Authority.mem_readableRows]
  exact and_iff_right ⟨hr, hread⟩

theorem findsExactly_of_plain (hT : T.UsersNonempty) (hquery : PlainQuery query) :
    FindsExactly pg T query := by
  intro a r hr hread
  rw [mem_visibleRows_iff hT hr hread, SettingRecord.matchesQuery, Bool.or_eq_true,
    ilike_pattern_iff hquery, ilike_pattern_iff hquery]

/-- A row whose user is the empty text is tenant-scoped for an admin, and not for the search. -/
theorem usersNonempty_of_findsExactly (h : FindsExactly pg T "") : T.UsersNonempty := by
  intro r hr hempty
  have hread : (⟨⟨r.tenant⟩, ⟨"x"⟩, .admin⟩ : Authority).canRead r.ownership = true := by
    refine Authority.canRead_iff.2 (.inr ⟨rfl, ?_⟩)
    simp [SettingRecord.ownership, hempty]
  have hvisible := (h ⟨⟨r.tenant⟩, ⟨"x"⟩, .admin⟩ r hr hread).2 (.inl List.nil_infix)
  rw [Authority.visibleRows, Postgres.visible, List.mem_filter, hempty] at hvisible
  simp at hvisible

end Search

/-- The document without members. -/
def emptyObject : Value := ⟨.object [], rfl⟩

/-- A row of Alice whose key is the sample of a query. -/
def sampleRow (query : String) : SettingRecord :=
  ⟨"acme", some "alice", String.ofList (sample query.toList), emptyObject, 1, 0⟩

/-- A table with one such row. -/
def sampleTable (query : String) : Table where
  rows := [sampleRow query]
  unique := List.nodup_singleton _
  range := by
    intro r hr
    rw [List.mem_singleton.1 hr]
    change -i32Max - 1 ≤ 1 ∧ 1 ≤ i32Max
    decide

theorem usersNonempty_sampleTable (query : String) : (sampleTable query).UsersNonempty := by
  intro r hr
  rw [List.mem_singleton.1 hr]
  simp [sampleRow]

/-- Only a plain query finds its sample for what it contains. -/
theorem plain_of_findsExactly {pg : Postgres} (hpg : pg.jsonbText emptyObject = "{}")
    {query : String} (h : FindsExactly pg (sampleTable query) query) : PlainQuery query := by
  have hmem : sampleRow query ∈ (sampleTable query).rows := List.mem_singleton_self _
  have hmatches : (sampleRow query).matchesQuery pg query = true := by
    rw [SettingRecord.matchesQuery, toList_pattern, Bool.or_eq_true]
    refine .inl (ilike_percent_self ?_)
    rw [sampleRow, String.toList_ofList]
    exact ilike_sample query.toList
  have hread : Sample.alice.canRead (sampleRow query).ownership = true := rfl
  have hvisible := (mem_visibleRows_iff (usersNonempty_sampleTable query) hmem hread).2 hmatches
  rcases (h Sample.alice _ hmem hread).1 hvisible with hkey | htext
  · rw [Contains, sampleRow, String.toList_ofList] at hkey
    exact plain_of_infix_sample hkey
  · rw [sampleRow, hpg, Contains] at htext
    have hbrace : ∀ c ∈ query.toList, c.toLower = '{' ∨ c.toLower = '}' := by
      intro c hc
      have hlower := htext.subset (List.mem_map_of_mem hc)
      simpa [lower] using hlower
    refine ⟨fun hc => ?_, fun hc => ?_, fun hc => ?_⟩
    · exact absurd (hbrace _ hc) (by decide)
    · exact absurd (hbrace _ hc) (by decide)
    · exact absurd (hbrace _ hc) (by decide)

/-- **Searches find what contains the query exactly when** the query is plain and no user is the
empty text: the queries that do so on every table, and the tables on which all of these do. -/
theorem findsExactly_iff {pg : Postgres} (hpg : pg.jsonbText emptyObject = "{}") :
    (∀ query, (∀ T : Table, T.UsersNonempty → FindsExactly pg T query) ↔ PlainQuery query) ∧
      ∀ T : Table, (∀ query, PlainQuery query → FindsExactly pg T query) ↔ T.UsersNonempty := by
  refine ⟨fun query => ⟨fun h => ?_, fun hquery T hT => findsExactly_of_plain hT hquery⟩,
    fun T => ⟨fun h => ?_, fun hT query => findsExactly_of_plain hT⟩⟩
  · exact plain_of_findsExactly hpg (h (sampleTable query) (usersNonempty_sampleTable query))
  · exact usersNonempty_of_findsExactly (h "" (by decide))

theorem findsExactly_ofJsonb :
    (∀ query, (∀ T : Table, T.UsersNonempty → FindsExactly (Postgres.ofJsonb id) T query) ↔
      PlainQuery query) ∧
      ∀ T : Table, (∀ query, PlainQuery query → FindsExactly (Postgres.ofJsonb id) T query) ↔
        T.UsersNonempty :=
  findsExactly_iff rfl

open Sample in
/-- **An underscore finds every row**, whatever its key and value contain. -/
theorem not_findsExactly :
    ¬ ∀ (pg : Postgres), pg.jsonbText emptyObject = "{}" → ∀ (T : Table) (query : String),
      T.UsersNonempty → FindsExactly pg T query := by
  intro h
  have hfinds := h (Postgres.ofJsonb id) rfl (themes [some "alice"] (by decide)) "_" (by decide)
  have hvisible : themeOf (some "alice") ∈ alice.visibleRows (Postgres.ofJsonb id) "_"
      (themes [some "alice"] (by decide)) := List.mem_singleton_self _
  rcases (hfinds alice _ (List.mem_singleton_self _) rfl).1 hvisible with hkey | htext
  · exact absurd hkey (by decide)
  · exact absurd htext (by decide)

end SettingsService
