-- The laws of formulas behind each other. Behind closed groups the stack is empty,
-- so the next formula stands at depth 0 and is laid out as on its own. Only
-- what stands between the two depends on how the second one starts.
import PrettyFormula.Proofs.Appending
import PrettyFormula.Proofs.Formatting

namespace PrettyFormula

open Token

variable {page : Page} {ts us : List Token} {i j : Nat}

/-! ## What is sought further on -/

theorem seek_add (n i d w : Nat) (ts : List Token) :
    Span.seek (n + i) d w ts = ⟨n + (Span.seek i d w ts).stop, (Span.seek i d w ts).width⟩ := by
  induction ts generalizing i d w with
  | nil => rfl
  | cons t ts ih =>
    cases t with
    | lparen => exact ih (i + 1) (d + 1) _
    | atom a => exact ih (i + 1) d _
    | rparen =>
      rcases d with _ | d
      · rfl
      · exact ih (i + 1) d _

theorem getElem?_append_add (ts us : List Token) (i : Nat) :
    (ts ++ us)[ts.length + i]? = us[i]? := by
  rw [List.getElem?_append_right (Nat.le_add_right _ _), Nat.add_sub_cancel_left]

theorem add_le_length_append (ts : List Token) (h : i ≤ us.length) :
    ts.length + i ≤ (ts ++ us).length := by
  rw [List.length_append]
  exact Nat.add_le_add_left h ts.length

theorem spanFrom_append_add (h : j < us.length) :
    spanFrom (ts ++ us) (ts.length + j + 1) =
      ⟨ts.length + (spanFrom us (j + 1)).stop, (spanFrom us (j + 1)).width⟩ := by
  have hle : ts.length + j + 1 ≤ (ts ++ us).length := add_le_length_append ts h
  have hdrop : (ts ++ us).drop (ts.length + j + 1) = us.drop (j + 1) := by
    rw [Nat.add_assoc, List.drop_length_add_append]
  rw [spanFrom_eq hle, hdrop, Nat.add_assoc, seek_add, spanFrom_eq h]

/-! ## The second formula -/

/-- Behind closed groups the stack holds the groups of the second formula only. -/
theorem openAt_append_add (hts : openAt ts ts.length = []) (h : i ≤ us.length) :
    openAt (ts ++ us) (ts.length + i) = (openAt us i).map (ts.length + ·) := by
  induction i with
  | zero => simp [openAt_append (Nat.le_refl ts.length), hts]
  | succ i ih =>
    have ht : us[i]? = some us[i] := List.getElem?_eq_getElem h
    have happend : (ts ++ us)[ts.length + i]? = some us[i] := by rw [getElem?_append_add, ht]
    rw [← Nat.add_assoc, openAt_succ ht, openAt_succ happend, ih (Nat.le_of_succ_le h),
      stackBehind_map_add]

theorem nesting_append_add (hts : openAt ts ts.length = []) (h : i < us.length) :
    nesting (ts ++ us) (ts.length + i) = nesting us i := by
  have happend : ts.length + i < (ts ++ us).length := add_le_length_append ts h
  rw [← length_openAt happend, ← length_openAt h, openAt_append_add hts (Nat.le_of_lt h),
    List.length_map]

theorem fitsAt_append_add (page : Page) (hts : openAt ts ts.length = []) (h : j < us.length) :
    fitsAt page (ts ++ us) (ts.length + j) = fitsAt page us j := by
  have happend := getElem?_append_add ts us j
  by_cases hl : us[j]? = some .lparen
  · rw [hl] at happend
    rw [← fits_spanFrom page happend, ← fits_spanFrom page hl, nesting_append_add hts h,
      spanFrom_append_add h, Bool.eq_iff_iff, Page.fits_iff, Page.fits_iff]
  · rw [fitsAt_of_ne hl, fitsAt_of_ne (by rwa [happend])]

theorem crammedAt_append_add (page : Page) (hts : openAt ts ts.length = []) (h : i < us.length) :
    crammedAt page (ts ++ us) (ts.length + i) = crammedAt page us i := by
  have happend : ts.length + i < (ts ++ us).length := add_le_length_append ts h
  have hany : ((openAt us i).map (ts.length + ·)).any (fitsAt page (ts ++ us)) =
      (openAt us i).any (fitsAt page us) := by
    rw [List.any_map, Bool.eq_iff_iff, List.any_eq_true, List.any_eq_true]
    apply exists_congr
    intro j
    apply and_congr_right
    intro hj
    have hlt : j < i := ((mem_openAt h).mp hj).1
    rw [Function.comp_apply, fitsAt_append_add page hts (by omega)]
  rw [crammedAt_eq happend, crammedAt_eq h, openAt_append_add hts (Nat.le_of_lt h), hany,
    fitsAt_append_add page hts h]

/-- Behind its first token the second formula has the gaps that it has on its own. -/
theorem gapAt_append_add (page : Page) (hts : openAt ts ts.length = []) (h : i + 1 < us.length) :
    gapAt page (ts ++ us) (ts.length + (i + 1)) = gapAt page us (i + 1) := by
  have hbefore : ts.length + (i + 1) - 1 = ts.length + i := by omega
  unfold gapAt
  rw [hbefore, getElem?_append_add, getElem?_append_add, crammedAt_append_add page hts h,
    nesting_append_add hts h, Nat.add_sub_cancel]
  simp only [Nat.add_eq_zero_iff, Nat.succ_ne_zero, and_false, false_or]

/-! ## Between two formulas -/

/-- What stands in front of a formula that is laid out behind another one. -/
def seam (page : Page) (us : List Token) : Text :=
  if us.head? = some .rparen then []
  else if us.head? = some .lparen ∧ page.fitLength 0 (spanFrom us 1) < page.columns.toNat then [' ']
  else ['\n']

theorem gapAt_seam (page : Page) (hne : ts ≠ []) (hc : ClosedBefore ts ts.length)
    (hus : us ≠ []) : gapAt page (ts ++ us) ts.length = seam page us := by
  have hpos : 0 < ts.length := List.length_pos_of_ne_nil hne
  have huspos : 0 < us.length := List.length_pos_of_ne_nil hus
  have hts := openAt_length_of_closed hc
  -- A group that opened with the last token of the first formula could not be closed there.
  have hlast : (ts ++ us)[ts.length - 1]? ≠ some .lparen := by
    rw [List.getElem?_append_left (by omega)]
    intro hl
    have hclosed := (hc (ts.length - 1) (by omega) hl).succ_lt
    omega
  have hhead : (ts ++ us)[ts.length]? = us.head? := by
    rw [List.head?_eq_getElem?]
    exact getElem?_append_add ts us 0
  have hnesting : nesting (ts ++ us) ts.length = 0 := nesting_append_add hts huspos
  have hcram : crammedAt page (ts ++ us) ts.length = fitsAt page us 0 := by
    have hsame := crammedAt_append_add page hts huspos
    simpa [crammedAt_eq huspos] using hsame
  have hmargin : depthMargin page 0 = 0 := by simp [depthMargin]
  unfold gapAt seam
  rw [hhead, hnesting, hcram, hmargin]
  simp only [hlast, Nat.ne_of_gt hpos, false_or, or_false]
  by_cases hl : us.head? = some .lparen
  · have hfits := fits_spanFrom page (List.head?_eq_getElem? ▸ hl)
    have hzero : nesting us 0 = 0 := rfl
    rw [hzero, Page.fits] at hfits
    rw [← hfits]
    simp [hl]
  · rw [fitsAt_of_ne (List.head?_eq_getElem? ▸ hl)]
    simp [hl]

/-! ## One formula behind the other -/

theorem flatMap_text_append_add (page : Page) (hts : openAt ts ts.length = []) (u : Token)
    (vs : List Token) :
    (vs.zipIdx (ts.length + 1)).flatMap (fun t => (placementAt page (ts ++ u :: vs) t).text) =
      (vs.zipIdx 1).flatMap fun t => (placementAt page (u :: vs) t).text := by
  rw [← List.map_snd_add_zipIdx_eq_zipIdx, List.flatMap_map]
  apply List.flatMap_congr
  rintro ⟨t, k⟩ hk
  obtain ⟨hone, ht⟩ := List.mk_mem_zipIdx_iff_le_and_getElem?_sub.mp hk
  obtain ⟨i, rfl⟩ := Nat.exists_eq_add_of_le' hone
  rw [Nat.add_sub_cancel] at ht
  have hsecond : (u :: vs)[i + 1]? = some t := ht
  have happend : (ts ++ u :: vs)[ts.length + (i + 1)]? = some t := by
    rw [getElem?_append_add, hsecond]
  obtain ⟨hi, -⟩ := List.getElem?_eq_some_iff.mp hsecond
  simp only [Prod.map_apply, id_eq, Nat.add_comm _ ts.length]
  rw [text_placementAt page happend, text_placementAt page hsecond, gapAt_append_add page hts hi]

theorem render_drop_place (page : Page) (hne : ts ≠ []) (hc : ClosedBefore ts ts.length)
    (hus : us ≠ []) :
    render ((place page (ts ++ us)).drop ts.length) = seam page us ++ layOut page us := by
  have hseam := gapAt_seam page hne hc hus
  obtain ⟨u, vs, rfl⟩ := List.exists_cons_of_ne_nil hus
  have hdrop : (place page (ts ++ u :: vs)).drop ts.length =
      ((u :: vs).zipIdx ts.length).map (placementAt page (ts ++ u :: vs)) := by
    rw [place_eq_map, List.zipIdx_append, List.map_append, List.drop_left' (by simp), Nat.zero_add]
  have hfirst : (ts ++ u :: vs)[ts.length]? = some u := getElem?_append_add ts (u :: vs) 0
  have hglue : (placementAt page (u :: vs) (u, 0)).text = u.text := by
    rw [text_placementAt page (show (u :: vs)[0]? = some u from rfl), gapAt, if_pos (Or.inl rfl),
      List.nil_append]
  rw [hdrop, layOut_eq_flatMap, render, List.flatMap_map, List.zipIdx_cons, List.zipIdx_cons,
    List.flatMap_cons, List.flatMap_cons, text_placementAt page hfirst, hseam, hglue,
    flatMap_text_append_add page (openAt_length_of_closed hc), List.append_assoc]

theorem layOut_append (page : Page) (hne : ts ≠ []) (hc : ClosedBefore ts ts.length)
    (hus : us ≠ []) :
    layOut page (ts ++ us) = layOut page ts ++ seam page us ++ layOut page us := by
  rw [layOut_append_of_closed hc, render_drop_place page hne hc hus, List.append_assoc]

/-! ## Filling behind a newline -/

/-- A layout has the same lines when its last line is ended. -/
theorem lines_layOut_newline (page : Page) (h : ∀ t ∈ ts, t.Readable) (hne : ts ≠ []) :
    lines (layOut page ts ++ ['\n']) = lines (layOut page ts) := by
  have hline : ∀ l ∈ (rowsOf (place page ts)).map Row.text,
      l ≠ [] ∧ '\n' ∉ l ∧ l.getLast? ≠ some '\r' := by
    intro l hl
    obtain ⟨r, hr, rfl⟩ := List.mem_map.mp hl
    exact (rowsOf_place h r hr).1.line
  have hrows : (rowsOf (place page ts)).map Row.text ≠ [] := by
    have hplace : place page ts ≠ [] := by
      rw [← List.length_pos_iff, length_place]
      exact List.length_pos_of_ne_nil hne
    rw [rowsOf, if_neg hplace]
    simp
  rw [layOut, ← unlines_rowsOf, unlines_append_newline hrows,
    lines_of_ended fun l hl => (hline l hl).2, lines_unlines hline]

theorem formatTokens_append (h : ∀ t ∈ ts, t.Readable) (hne : ts ≠ [])
    (hc : ClosedBefore ts ts.length) (hus : us ≠ []) (hseam : seam page us = ['\n']) :
    formatTokens page (ts ++ us) = formatTokens page ts ++ formatTokens page us := by
  have hnewline : layOut page (ts ++ us) = layOut page ts ++ '\n' :: layOut page us := by
    rw [layOut_append page hne hc hus, hseam, List.append_assoc]
    rfl
  rw [formatTokens, hnewline, refill_append_newline, refill, lines_layOut_newline page h hne,
    ← refill, ← formatTokens, ← formatTokens]

/-- Behind a formula whose groups are closed, the next one is laid out as on its own. In front of it
stands a newline, or a space if it starts with a group that fits, or nothing if it starts with a
closing parenthesis. Where a newline stands the two are formatted one after the other. -/
theorem a_formula_behind_another_is_laid_out_on_its_own (page : Page) {ts us : List Token}
    (hts : ts ≠ []) (hus : us ≠ []) (hc : ClosedBefore ts ts.length) :
    layOut page (ts ++ us) = layOut page ts ++ seam page us ++ layOut page us ∧
      ∀ t u, scan t = ts → scan u = us → seam page us = ['\n'] →
        format page (t ++ space :: u) = format page t ++ format page u := by
  refine ⟨layOut_append page hts hc hus, ?_⟩
  rintro t u rfl rfl hseam
  rw [format, scan_append_blank isBlank_space,
    formatTokens_append (readable_of_mem_scan t) hts hc hus hseam]
  rfl

/-- Behind a stray closing parenthesis and a group that fits, an open group that does not. -/
theorem two_formulas_on_lines_of_their_own :
    let page : Page := { columns := 8, indent := 2 }
    let t : Text := ") (a) x".toList
    let u : Text := "(bbbb (c) d e".toList
    scan t ≠ [] ∧ scan u ≠ [] ∧ ClosedBefore (scan t) (scan t).length ∧
      seam page (scan u) = ['\n'] ∧
      layOut page (scan t ++ scan u) = layOut page (scan t) ++ ['\n'] ++ layOut page (scan u) ∧
      format page (t ++ space :: u) = format page t ++ format page u := by
  intro page t u
  have hts : scan t ≠ [] := by decide
  have hus : scan u ≠ [] := by decide
  have hc : ClosedBefore (scan t) (scan t).length := by decide
  have hseam : seam page (scan u) = ['\n'] := by decide
  obtain ⟨hlay, hformat⟩ := a_formula_behind_another_is_laid_out_on_its_own page hts hus hc
  rw [hseam] at hlay
  exact ⟨hts, hus, hc, hseam, hlay, hformat t u rfl rfl hseam⟩

end PrettyFormula
