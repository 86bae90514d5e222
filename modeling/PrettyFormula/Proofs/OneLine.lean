-- The law of formulas on one line. A group is set on one line just where that line
-- is narrower than the page or has no space. The fit of a group leaves the spaces
-- out of account; where they count, it is filling that breaks the line.
import PrettyFormula.Proofs.Formatting

namespace PrettyFormula

open Token

/-! ## One line -/

/-- What stands in front of the token at position `i` on one line. -/
def gap (ts : List Token) (i : Nat) : Text :=
  if i = 0 ∨ ts[i]? = some .rparen ∨ ts[i - 1]? = some .lparen then [] else [space]

/-- The tokens on one line: a space in front of each atom and each opening parenthesis, but not in
front of the first token and not behind an opening parenthesis. -/
def oneLine (ts : List Token) : Text :=
  ts.zipIdx.flatMap fun (t, i) => gap ts i ++ t.text

/-- The tokens are one group, which may be left open. -/
structure OneGroup (ts : List Token) : Prop where
  opens : ts[0]? = some .lparen
  stops : ((spanTable ts).span? 0).map Span.stop = some ts.length

variable {page : Page} {ts : List Token} {i : Nat}

theorem eq_space_of_mem_gap {c : Char} (h : c ∈ gap ts i) : c = space := by
  unfold gap at h
  split at h
  · cases h
  · exact List.mem_singleton.mp h

theorem gap_eq_nil (h : space ∉ gap ts i) : gap ts i = [] :=
  List.eq_nil_iff_forall_not_mem.mpr fun _ hc => h (eq_space_of_mem_gap hc ▸ hc)

theorem oneLine_ne_nil (h : ∀ t ∈ ts, t.Readable) (hne : ts ≠ []) : oneLine ts ≠ [] := by
  obtain ⟨t, us, rfl⟩ := List.exists_cons_of_ne_nil hne
  have ht := (h t (by simp)).isWord.ne_nil
  rw [oneLine, List.zipIdx_cons, List.flatMap_cons]
  simp [ht]

/-- The only blank character on one line is the space. -/
theorem eq_space_of_mem_oneLine (h : ∀ t ∈ ts, t.Readable) {c : Char} (hc : c ∈ oneLine ts)
    (hblank : isBlank c = true) : c = space := by
  obtain ⟨⟨t, i⟩, ht, hc⟩ := List.mem_flatMap.mp hc
  rcases List.mem_append.mp hc with hc | hc
  · exact eq_space_of_mem_gap hc
  · rw [(h t (List.fst_mem_of_mem_zipIdx ht)).isWord.no_blank c hc] at hblank
    cases hblank

theorem newline_not_mem_oneLine (h : ∀ t ∈ ts, t.Readable) : '\n' ∉ oneLine ts := fun hmem =>
  absurd (eq_space_of_mem_oneLine h hmem isBlank_newline) (by decide)

theorem getLast?_oneLine (h : ∀ t ∈ ts, t.Readable) : (oneLine ts).getLast? ≠ some '\r' :=
  fun hlast =>
    absurd (eq_space_of_mem_oneLine h (List.mem_of_getLast? hlast) isBlank_return) (by decide)

theorem isWord_oneLine (h : ∀ t ∈ ts, t.Readable) (hne : ts ≠ []) (hspace : space ∉ oneLine ts) :
    IsWord (oneLine ts) := by
  refine ⟨oneLine_ne_nil h hne, fun c hc => ?_⟩
  by_contra hblank
  rw [eq_space_of_mem_oneLine h hc (Bool.not_eq_false _ ▸ hblank)] at hc
  exact hspace hc

/-! ## Layouts on one line -/

theorem gapAt_of_gap (h : gap ts i = []) : gapAt page ts i = [] := by
  have hglue : i = 0 ∨ ts[i]? = some .rparen ∨ ts[i - 1]? = some .lparen := by
    by_contra hglue
    rw [gap, if_neg hglue] at h
    cases h
  rw [gapAt, if_pos hglue]

theorem gapAt_of_crammed (h : crammedAt page ts i = true) : gapAt page ts i = gap ts i := by
  rw [gapAt, if_pos h]
  rfl

theorem layOut_eq_oneLine (h : ∀ i < ts.length, gapAt page ts i = gap ts i) :
    layOut page ts = oneLine ts := by
  rw [layOut_eq_flatMap]
  apply List.flatMap_congr
  rintro ⟨t, i⟩ ht
  have hi := List.mem_zipIdx_iff_getElem?.mp ht
  obtain ⟨hlt, -⟩ := List.getElem?_eq_some_iff.mp hi
  rw [text_placementAt page hi, h i hlt]

/-- Without a space there is no room for a newline either. -/
theorem layOut_eq_of_space_not_mem (page : Page) (h : space ∉ oneLine ts) :
    layOut page ts = oneLine ts := by
  apply layOut_eq_oneLine
  intro i hi
  have hgap : gap ts i = [] := by
    refine gap_eq_nil fun hspace => h (List.mem_flatMap.mpr ⟨(ts[i], i), ?_, ?_⟩)
    · exact List.mem_zipIdx_iff_getElem?.mpr (List.getElem?_eq_getElem hi)
    · exact List.mem_append_left _ hspace
  rw [gapAt_of_gap hgap, hgap]

/-! ## The width of a group -/

theorem columnsBefore_length_le (ts : List Token) :
    columnsBefore ts ts.length ≤ (oneLine ts).length := by
  have hspell : ts.flatMap text = ts.zipIdx.flatMap fun t => t.1.text := by
    conv => lhs; rw [← List.zipIdx_map_fst 0 ts]
    rw [List.flatMap_map]
  rw [columnsBefore, List.take_length, hspell, oneLine]
  apply length_flatMap_le
  rintro ⟨t, i⟩ -
  rw [List.length_append]
  exact Nat.le_add_left _ _

namespace OneGroup

theorem ne_nil (h : OneGroup ts) : ts ≠ [] := by
  rintro rfl
  cases h.opens

theorem stop_eq (h : OneGroup ts) : (spanFrom ts 1).stop = ts.length := by
  have hstops := h.stops
  rw [span?_spanTable h.opens] at hstops
  exact Option.some.inj hstops

/-- The columns of the group are those of its tokens, but for the parenthesis that opens it. -/
theorem width_le (h : OneGroup ts) : (spanFrom ts 1).width ≤ columnsBefore ts ts.length := by
  have hlen : 1 ≤ ts.length := List.length_pos_of_ne_nil h.ne_nil
  have hwidth : (spanFrom ts 1).width = columnsBefore (ts.drop 1) ((spanFrom ts 1).stop - 1) := by
    rw [spanFrom_eq hlen, Span.width_seek, Nat.zero_add]
  have hsum := columnsBefore_add ts 1 (ts.length - 1)
  rw [Nat.add_sub_cancel' hlen] at hsum
  rw [hwidth, h.stop_eq]
  omega

/-- A group that has room on one line with its spaces has room without them. -/
theorem fitsAt_zero (h : OneGroup ts) (hnarrow : (oneLine ts).length < page.columns.toNat) :
    fitsAt page ts 0 = true := by
  have hwidth := h.width_le
  have hcolumns := columnsBefore_length_le ts
  rw [← fits_spanFrom page h.opens, Page.fits_iff, show nesting ts 0 = 0 from rfl, Nat.zero_add]
  omega

theorem crammed (h : OneGroup ts) (hfits : fitsAt page ts 0 = true) (hi : i < ts.length) :
    crammedAt page ts i = true := by
  have hreaches : reaches ts 0 i = true := reaches_iff.mpr ⟨h.opens, h.stop_eq ▸ hi⟩
  rw [crammedAt, List.any_eq_true]
  exact ⟨0, List.mem_range.mpr (Nat.succ_pos i), by rw [hreaches, hfits]; rfl⟩

theorem layOut_eq (h : OneGroup ts) (hnarrow : (oneLine ts).length < page.columns.toNat) :
    layOut page ts = oneLine ts :=
  layOut_eq_oneLine fun _ hi => gapAt_of_crammed (h.crammed (h.fitsAt_zero hnarrow) hi)

end OneGroup

/-! ## Filling one line -/

theorem refill_line {columns : Nat} {l : Text} (hl : l ≠ [] ∧ '\n' ∉ l ∧ l.getLast? ≠ some '\r')
    (hkept : linesOf columns l = [l]) : refill columns l = l ++ ['\n'] := by
  have hlines : lines l = [l] := by
    have hone := lines_unlines fun m (hm : m ∈ [l]) => List.mem_singleton.mp hm ▸ hl
    rwa [unlines, List.intercalate_singleton] at hone
  rw [refill_eq_linesOf, hlines, List.flatMap_singleton, hkept, List.flatMap_singleton]

/-- A line that is a word is kept, however wide it is. -/
theorem linesOf_word (columns : Nat) {w : Text} (h : IsWord w) : linesOf columns w = [w] := by
  have hclean : (Row.mk 0 [w]).Clean := fun v hv => List.mem_singleton.mp hv ▸ h
  have htext : (Row.mk 0 [w]).text = w := by simp [Row.text, unwords]
  have hkept : linesOf columns (Row.mk 0 [w]).text = [(Row.mk 0 [w]).text] :=
    linesOf_row hclean fun _ => Nat.le_refl 1
  rwa [htext] at hkept

/-- Where all tokens come to stand on one line, it is narrow or it is a word. -/
theorem space_not_mem_of_formatTokens (h : ∀ t ∈ ts, t.Readable)
    (hline : formatTokens page ts = oneLine ts ++ ['\n'])
    (hwide : page.columns.toNat ≤ (oneLine ts).length) : space ∉ oneLine ts := by
  have hrows : (formattedRows page ts).map Row.text = [oneLine ts] := by
    rw [← lines_formatTokens h, hline, lines_line (newline_not_mem_oneLine h),
      dropReturn_eq_self_iff.mpr (getLast?_oneLine h)]
  obtain ⟨r, hr, htext⟩ := List.map_eq_singleton_iff.mp hrows
  have hset := setOn_of_mem_formattedRows h r (hr ▸ List.mem_singleton_self r)
  obtain ⟨w, hw⟩ := List.length_eq_one_iff.mp (hset.narrow (htext ▸ hwide))
  have hword : oneLine ts = w := by
    rw [← htext, Row.text, margin_head_formattedRows hr, hw]
    simp [unwords]
  have hblank := (hset.isWord w (hw ▸ List.mem_singleton_self w)).no_blank
  intro hspace
  have := hblank space (hword ▸ hspace)
  rw [isBlank_space] at this
  cases this

/-- A formula that is one group, closed or left open, is set on one line if and only if that line is
narrower than the page or has no space in it. -/
theorem a_group_is_one_line_iff_it_is_narrow_or_a_word (page : Page) (t : Text)
    (h : OneGroup (scan t)) :
    format page t = oneLine (scan t) ++ ['\n'] ↔
      (oneLine (scan t)).length < page.columns.toNat ∨ space ∉ oneLine (scan t) := by
  have hread := readable_of_mem_scan t
  have hline : oneLine (scan t) ≠ [] ∧ '\n' ∉ oneLine (scan t) ∧
      (oneLine (scan t)).getLast? ≠ some '\r' :=
    ⟨oneLine_ne_nil hread h.ne_nil, newline_not_mem_oneLine hread, getLast?_oneLine hread⟩
  constructor
  · intro hformat
    by_cases hnarrow : (oneLine (scan t)).length < page.columns.toNat
    · exact Or.inl hnarrow
    · exact Or.inr (space_not_mem_of_formatTokens hread hformat (Nat.le_of_not_lt hnarrow))
  · rintro (hnarrow | hspace)
    · have hfits : ¬ tooWide page.columns.toNat (oneLine (scan t)) = true := by
        simpa [tooWide] using hnarrow
      rw [format, formatTokens, h.layOut_eq hnarrow]
      exact refill_line hline (linesOf_of_fits hfits)
    · rw [format, formatTokens, layOut_eq_of_space_not_mem page hspace]
      exact refill_line hline (linesOf_word _ (isWord_oneLine hread h.ne_nil hspace))

/-- A group that is left open. Its tokens alone have room on a page of 9 columns, but not with the
spaces between them. -/
theorem a_group_that_its_spaces_make_too_wide :
    let t : Text := "(a (bb) c".toList
    OneGroup (scan t) ∧ fitsAt { columns := 9, indent := 2 } (scan t) 0 = true ∧
      format { columns := 10, indent := 2 } t = oneLine (scan t) ++ ['\n'] ∧
      format { columns := 9, indent := 2 } t ≠ oneLine (scan t) ++ ['\n'] := by
  intro t
  have hgroup : OneGroup (scan t) := ⟨by decide, by decide⟩
  refine ⟨hgroup, by decide, ?_, fun hformat => ?_⟩
  · exact (a_group_is_one_line_iff_it_is_narrow_or_a_word _ t hgroup).mpr (by decide)
  · have hline := (a_group_is_one_line_iff_it_is_narrow_or_a_word _ t hgroup).mp hformat
    exact absurd hline (by decide)

end PrettyFormula
