-- The laws of a formatted formula, line by line. The margin of a row is that of
-- the depth at which its first token stands. Filling keeps the margin, and
-- leaves no row as wide as the page with two words on it.
import PrettyFormula.Proofs.Refilling

namespace PrettyFormula

open Token

/-! ## The margins of a layout -/

/-- The row is indented as deep as some token of the formula stands. -/
def IndentedIn (page : Page) (ts : List Token) (r : Row) : Prop :=
  ∃ i < ts.length, r.margin = depthMargin page (nesting ts i)

variable {page : Page} {ts : List Token} {r : Row}

theorem margin_of_separatorAt {i margin : Nat} (h : separatorAt page ts i = .newline margin) :
    margin = depthMargin page (nesting ts i) := by
  unfold separatorAt at h
  split at h
  · cases h
  · split at h
    · cases h
    · cases h
      rfl

theorem indented_of_mem_place {p : Placement} (hp : p ∈ place page ts)
    (hs : p.separator = .newline r.margin) : IndentedIn page ts r := by
  rw [place_eq_map] at hp
  obtain ⟨⟨t, i⟩, ht, rfl⟩ := List.mem_map.mp hp
  have hi := List.mem_zipIdx_iff_getElem?.mp ht
  rw [separator_placementAt page hi] at hs
  obtain ⟨hlt, -⟩ := List.getElem?_eq_some_iff.mp hi
  exact ⟨i, hlt, margin_of_separatorAt hs⟩

/-- Nothing stands in front of the first token. -/
theorem glue_of_place {p : Placement} {ps : List Placement} (h : place page ts = p :: ps) :
    p.separator = .glue := by
  rw [place_eq_map] at h
  rcases ts with _ | ⟨t, ts⟩
  · simp at h
  · rw [List.zipIdx_cons, List.map_cons] at h
    rw [← (List.cons.inj h).1, separator_placementAt page (by simp), separatorAt,
      if_pos (Or.inl rfl)]

/-- The first row stands at depth 0, and its first word is the first token with what is glued to
it. -/
theorem first_row_place (h : ∀ t ∈ ts, t.Readable) {p : Placement} {ps : List Placement}
    (hplace : place page ts = p :: ps) :
    let row : Row := ⟨0, (restOf (p :: ps)).word :: (restOf (p :: ps)).words⟩
    row.Proper ∧ IndentedIn page ts row := by
  have hread := readable_of_mem_place page h
  have hsound : (restOf ps).Sound := sound_restOf fun q hq => hread q (by simp [hplace, hq])
  have hrest : restOf (p :: ps) = { restOf ps with word := p.token.text ++ (restOf ps).word } := by
    rw [restOf, List.foldr_cons, ← restOf, Rest.put, glue_of_place hplace]
  have hlen : 0 < ts.length := by
    have := congrArg List.length hplace
    rw [place_eq_map, List.length_map, List.length_zipIdx] at this
    simp [this]
  rw [hrest]
  refine ⟨⟨by simp, fun w hw => ?_⟩, 0, hlen, ?_⟩
  · rcases List.mem_cons.mp hw with rfl | hw
    · exact hsound.isWord (hread p (by simp [hplace]))
    · exact hsound.words w hw
  · simp [depthMargin, nesting]

theorem rowsOf_place (h : ∀ t ∈ ts, t.Readable) :
    ∀ r ∈ rowsOf (place page ts), r.Proper ∧ IndentedIn page ts r := by
  intro r hr
  rcases hplace : place page ts with _ | ⟨p, ps⟩
  · simp [hplace, rowsOf] at hr
  · rw [rowsOf, if_neg (by simp [hplace])] at hr
    rcases List.mem_cons.mp hr with rfl | hr
    · rw [hplace]
      exact first_row_place h hplace
    · obtain ⟨q, hq, hs⟩ := margin_restOf (place page ts) r hr
      exact ⟨(sound_restOf (readable_of_mem_place page h)).below r hr, indented_of_mem_place hq hs⟩

/-! ## Filling rows -/

namespace Row

/-- The rows that a row becomes on a page of a width. Only a row that is too wide is cut. -/
def refill (columns : Nat) (r : Row) : List Row :=
  if tooWide columns r.text then r.cut columns else [r]

theorem refill_of_tooWide {columns : Nat} (h : tooWide columns r.text = true) :
    r.refill columns = r.cut columns := if_pos h

theorem refill_of_fits {columns : Nat} (h : ¬ tooWide columns r.text = true) :
    r.refill columns = [r] := if_neg h

theorem refill_ne_nil (columns : Nat) (r : Row) : r.refill columns ≠ [] := by
  by_cases hwide : tooWide columns r.text = true
  · rw [refill_of_tooWide hwide]
    exact cut_ne_nil columns r
  · simp [refill_of_fits hwide]

theorem margin_of_mem_refill {columns : Nat} {s : Row} (h : s ∈ r.refill columns) :
    s.margin = r.margin := by
  by_cases hwide : tooWide columns r.text = true
  · rw [refill_of_tooWide hwide] at h
    exact margin_of_mem_cut h
  · rw [refill_of_fits hwide, List.mem_singleton] at h
    rw [h]

theorem Proper.refill (h : r.Proper) {columns : Nat} {s : Row} (hs : s ∈ r.refill columns) :
    s.Proper := by
  by_cases hwide : tooWide columns r.text = true
  · rw [refill_of_tooWide hwide] at hs
    exact ⟨words_ne_nil_of_mem_cut h.ne_nil hs, Clean.cut h.isWord hs⟩
  · rw [refill_of_fits hwide, List.mem_singleton] at hs
    exact hs ▸ h

/-- A row that is still too wide has one word, which cannot be broken. -/
theorem Proper.one_word_of_refill (h : r.Proper) {columns : Nat} {s : Row}
    (hs : s ∈ r.refill columns) (hwide : columns ≤ s.text.length) : s.words.length = 1 := by
  have hpos := List.length_pos_of_ne_nil (h.refill hs).ne_nil
  by_cases hcut : tooWide columns r.text = true
  · rw [refill_of_tooWide hcut] at hs
    exact Nat.le_antisymm (length_words_of_mem_cut hs hwide) hpos
  · rw [refill_of_fits hcut, List.mem_singleton] at hs
    exact absurd (decide_eq_true (hs ▸ hwide)) hcut

/-- The line of a row becomes the lines of the rows that it becomes. -/
theorem Proper.linesOf_text (h : r.Proper) (columns : Nat) :
    linesOf columns r.text = (r.refill columns).map text := by
  by_cases hwide : tooWide columns r.text = true
  · rw [linesOf_of_tooWide hwide, refill_of_tooWide hwide, Clean.ofLine_text h.isWord]
  · rw [linesOf_of_fits hwide, refill_of_fits hwide, List.map_singleton]

end Row

theorem refill_unlines {rs : List Row} (h : ∀ r ∈ rs, r.Proper) (columns : Nat) :
    refill columns (unlines (rs.map Row.text)) =
      ((rs.flatMap (Row.refill columns)).map Row.text).flatMap (· ++ ['\n']) := by
  have hlines : ∀ l ∈ rs.map Row.text, l ≠ [] ∧ '\n' ∉ l ∧ l.getLast? ≠ some '\r' := by
    intro l hl
    obtain ⟨r, hr, rfl⟩ := List.mem_map.mp hl
    exact (h r hr).line
  have hrows : ∀ r ∈ rs, linesOf columns r.text = (r.refill columns).map Row.text := fun r hr =>
    (h r hr).linesOf_text columns
  rw [refill_eq_linesOf, lines_unlines hlines, List.flatMap_map, List.flatMap_congr hrows,
    List.map_flatMap]

/-! ## The lines of a formatted formula -/

def formattedRows (page : Page) (ts : List Token) : List Row :=
  (rowsOf (place page ts)).flatMap (Row.refill page.columns.toNat)

structure Row.SetOn (page : Page) (ts : List Token) (r : Row) : Prop extends r.Proper where
  indented : IndentedIn page ts r
  narrow : page.columns.toNat ≤ r.text.length → r.words.length = 1

theorem setOn_of_mem_formattedRows (h : ∀ t ∈ ts, t.Readable) :
    ∀ r ∈ formattedRows page ts, r.SetOn page ts := by
  intro s hs
  obtain ⟨r, hr, hs⟩ := List.mem_flatMap.mp hs
  obtain ⟨hproper, i, hi, hmargin⟩ := rowsOf_place h r hr
  refine ⟨hproper.refill hs, ⟨i, hi, ?_⟩, hproper.one_word_of_refill hs⟩
  rw [Row.margin_of_mem_refill hs, hmargin]

theorem formatTokens_eq (h : ∀ t ∈ ts, t.Readable) :
    formatTokens page ts = ((formattedRows page ts).map Row.text).flatMap (· ++ ['\n']) := by
  rw [formatTokens, layOut, ← unlines_rowsOf, refill_unlines fun r hr => (rowsOf_place h r hr).1]
  rfl

theorem line_of_mem_formattedRows (h : ∀ t ∈ ts, t.Readable) :
    ∀ l ∈ (formattedRows page ts).map Row.text,
      l ≠ [] ∧ '\n' ∉ l ∧ l.getLast? ≠ some '\r' := by
  intro l hl
  obtain ⟨r, hr, rfl⟩ := List.mem_map.mp hl
  exact (setOn_of_mem_formattedRows h r hr).toProper.line

theorem lines_formatTokens (h : ∀ t ∈ ts, t.Readable) :
    lines (formatTokens page ts) = (formattedRows page ts).map Row.text := by
  rw [formatTokens_eq h, lines_of_ended fun l hl => (line_of_mem_formattedRows h l hl).2]

theorem exists_row_of_mem_lines_format {t l : Text} (hl : l ∈ lines (format page t)) :
    ∃ r : Row, l = r.text ∧ r.SetOn page (scan t) := by
  have hread := readable_of_mem_scan t
  rw [format, lines_formatTokens hread] at hl
  obtain ⟨r, hr, rfl⟩ := List.mem_map.mp hl
  exact ⟨r, rfl, setOn_of_mem_formattedRows hread r hr⟩

theorem margin_head_formattedRows {rs : List Row} (h : formattedRows page ts = r :: rs) :
    r.margin = 0 := by
  unfold formattedRows rowsOf at h
  split at h
  · simp at h
  · rw [List.flatMap_cons] at h
    obtain ⟨s, ss, hss⟩ := List.exists_cons_of_ne_nil (Row.refill_ne_nil page.columns.toNat
      ⟨0, (restOf (place page ts)).word :: (restOf (place page ts)).words⟩)
    have hs := Row.margin_of_mem_refill (hss ▸ List.mem_cons_self)
    rw [hss, List.cons_append] at h
    rw [← (List.cons.inj h).1, hs]

theorem format_eq_nil_iff (page : Page) (t : Text) : format page t = [] ↔ scan t = [] := by
  constructor
  · intro h
    simpa [h] using (scan_format page t).symm
  · intro h
    rw [format, h]
    rfl

theorem head_format {t : Text} {c : Char} (h : (format page t).head? = some c) :
    isBlank c = false := by
  have hread := readable_of_mem_scan t
  rw [format, formatTokens_eq hread] at h
  rcases hrows : formattedRows page (scan t) with _ | ⟨r, rs⟩
  · simp [hrows] at h
  · have hset := setOn_of_mem_formattedRows hread r (by rw [hrows]; exact List.mem_cons_self)
    obtain ⟨x, l, hl, hx⟩ := hset.toProper.starts
    rw [margin_head_formattedRows hrows] at hl
    rw [hrows, List.map_cons, List.flatMap_cons, hl] at h
    cases h
    exact hx

/-- Every line of a formatted formula is the margin of some depth in the formula and words with
single spaces between them, and a line as wide as the page is one word. Each line ends in a
newline. None is blank or ends in a blank, the first starts with none, and there is no line only
when there is no token. -/
theorem every_line_is_a_margin_and_words (page : Page) (t : Text) :
    (∀ l ∈ lines (format page t), ∃ r : Row, l = r.text ∧ r.SetOn page (scan t)) ∧
      format page t = (lines (format page t)).flatMap (· ++ ['\n']) ∧
      (∀ l ∈ lines (format page t), blankText l = false) ∧
      (∀ l ∈ lines (format page t), ∀ c, l.getLast? = some c → isBlank c = false) ∧
      (∀ c, (format page t).head? = some c → isBlank c = false) ∧
      (format page t = [] ↔ scan t = []) := by
  have hread := readable_of_mem_scan t
  have hlines : lines (format page t) = (formattedRows page (scan t)).map Row.text :=
    lines_formatTokens hread
  have hset : ∀ l ∈ lines (format page t), ∃ r : Row, l = r.text ∧ r.SetOn page (scan t) := by
    intro l hl
    rw [hlines] at hl
    obtain ⟨r, hr, rfl⟩ := List.mem_map.mp hl
    exact ⟨r, rfl, setOn_of_mem_formattedRows hread r hr⟩
  refine ⟨hset, ?_, ?_, ?_, fun c hc => head_format hc, format_eq_nil_iff page t⟩
  · rw [hlines, format, formatTokens_eq hread]
  · intro l hl
    obtain ⟨r, rfl, hr⟩ := hset l hl
    exact hr.toProper.blankText
  · intro l hl c hc
    obtain ⟨r, rfl, hr⟩ := hset l hl
    obtain ⟨x, d, hd, hblank⟩ := hr.toProper.ends
    rw [hd, List.getLast?_append, List.getLast?_singleton, Option.some_or] at hc
    cases hc
    exact hblank

/-- A row that the spaces made too wide, cut under its margin. -/
theorem a_wide_row_is_cut_under_its_margin :
    let page : Page := { columns := 8, indent := 2 }
    let t : Text := "(abcd (c (d e) f g h".toList
    let l : Text := "  e)".toList
    l ∈ lines (format page t) ∧ (∃ r : Row, l = r.text ∧ r.SetOn page (scan t)) ∧
      blankText l = false ∧ l.getLast? = some ')' ∧ isBlank ')' = false ∧
      (format page t).head? = some '(' ∧ isBlank '(' = false := by
  have hmem : "  e)".toList ∈
      lines (format { columns := 8, indent := 2 } "(abcd (c (d e) f g h".toList) := by decide
  obtain ⟨hset, -, hblank, hlast, hhead, -⟩ := every_line_is_a_margin_and_words
    { columns := 8, indent := 2 } "(abcd (c (d e) f g h".toList
  exact ⟨hmem, hset _ hmem, hblank _ hmem, by decide, hlast _ hmem ')' (by decide), by decide,
    hhead '(' (by decide)⟩

end PrettyFormula
