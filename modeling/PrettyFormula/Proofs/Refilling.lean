-- The laws of refilling a text. A line filled twice is as if it were filled for the
-- second page at once. Each line of a text stands for itself, or for the rows that
-- it is cut into; a row that is cut is not cut again on a page that is no narrower.
-- So refilling a text twice loses carriage returns and changes nothing else.
import PrettyFormula.Proofs.Rows

namespace PrettyFormula

/-! ## Rows with no word -/

namespace Row

/-- Nothing but words stands where a word should. Unlike a proper row, it may have none. -/
def Clean (r : Row) : Prop := ∀ w ∈ r.words, IsWord w

variable {r : Row}

theorem Clean.words (h : r.Clean) : PrettyFormula.words r.text = r.words := by
  rw [text, words_margin, words_unwords h]

theorem text_of_words_eq_nil (h : r.words = []) : r.text = List.replicate r.margin space := by
  rw [text, h]
  exact List.append_nil _

theorem Clean.marginOf (h : r.Clean) : marginOf r.text = r.margin := by
  by_cases hnil : r.words = []
  · rw [PrettyFormula.marginOf, text_of_words_eq_nil hnil, List.takeWhile_replicate,
      if_pos isBlank_space, List.length_replicate]
  · have hmargin := Proper.marginOf_append ⟨hnil, h⟩ []
    rwa [List.append_nil] at hmargin

theorem Clean.line (h : r.Clean) : '\n' ∉ r.text ∧ r.text.getLast? ≠ some '\r' := by
  by_cases hnil : r.words = []
  · have hspace : ∀ c ∈ r.text, c = space := by
      rw [text_of_words_eq_nil hnil]
      exact fun c => List.eq_of_mem_replicate
    refine ⟨fun hmem => absurd (hspace _ hmem) (by decide), fun hlast => ?_⟩
    exact absurd (hspace _ (List.mem_of_getLast? hlast)) (by decide)
  · exact (Proper.line ⟨hnil, h⟩).2

/-! ## Cutting rows -/

/-- A line as a row: its margin, and its words with single spaces. -/
def ofLine (l : Text) : Row := ⟨PrettyFormula.marginOf l, PrettyFormula.words l⟩

theorem clean_ofLine (l : Text) : (ofLine l).Clean := isWord_of_mem_words l

theorem Clean.ofLine_text (h : r.Clean) : ofLine r.text = r := by
  rw [ofLine, h.marginOf, h.words]

/-- The rows that a row becomes, with as many words on each as the page has room for. -/
def cut (columns : Nat) (r : Row) : List Row :=
  (pack (columns - r.margin) r.words).map (Row.mk r.margin)

theorem cut_ne_nil (columns : Nat) (r : Row) : r.cut columns ≠ [] := by
  simp [cut, pack, Packing.lines]

theorem margin_of_mem_cut {columns : Nat} {s : Row} (hs : s ∈ r.cut columns) :
    s.margin = r.margin := by
  obtain ⟨ws, -, rfl⟩ := List.mem_map.mp hs
  rfl

theorem Clean.cut (h : r.Clean) {columns : Nat} {s : Row} (hs : s ∈ r.cut columns) : s.Clean := by
  obtain ⟨ws, hws, rfl⟩ := List.mem_map.mp hs
  exact isWord_of_mem_pack h hws

theorem words_ne_nil_of_mem_cut (h : r.words ≠ []) {columns : Nat} {s : Row}
    (hs : s ∈ r.cut columns) : s.words ≠ [] := by
  obtain ⟨ws, hws, rfl⟩ := List.mem_map.mp hs
  exact ne_nil_of_mem_pack h hws

/-- A row that is still too wide has at most one word, which cannot be broken. -/
theorem length_words_of_mem_cut {columns : Nat} {s : Row} (hs : s ∈ r.cut columns)
    (hwide : columns ≤ s.text.length) : s.words.length ≤ 1 := by
  obtain ⟨ws, hws, rfl⟩ := List.mem_map.mp hs
  have hlen : (Row.mk r.margin ws).text.length = r.margin + (unwords ws).length := by
    simp [text]
  rcases narrow_of_mem_pack hws with hone | hnarrow
  · exact hone
  · rw [hlen] at hwide
    omega

theorem cut_of_length_words_le (columns : Nat) (h : r.words.length ≤ 1) : r.cut columns = [r] := by
  obtain ⟨margin, ws⟩ := r
  rcases ws with _ | ⟨w, _ | ⟨v, ws⟩⟩
  · rfl
  · rfl
  · simp at h

/-- Joined, the rows that a row becomes start with its margin and no further blank, if it has
words. -/
theorem Clean.marginOf_cut (h : r.Clean) (columns : Nat) :
    PrettyFormula.marginOf (unlines ((r.cut columns).map text)) = r.margin := by
  by_cases hnil : r.words = []
  · rw [cut_of_length_words_le columns (by simp [hnil]), List.map_singleton, unlines,
      List.intercalate_singleton, h.marginOf]
  · obtain ⟨s, ss, hss⟩ := List.exists_cons_of_ne_nil (cut_ne_nil columns r)
    have hs : s ∈ r.cut columns := hss ▸ List.mem_cons_self
    have hproper : s.Proper := ⟨words_ne_nil_of_mem_cut hnil hs, h.cut hs⟩
    rw [hss, List.map_cons, unlines, intercalate_cons, hproper.marginOf_append,
      margin_of_mem_cut hs]

end Row

/-! ## A line filled twice -/

theorem refillLine_eq_cut (columns : Nat) (l : Text) :
    refillLine columns l = unlines (((Row.ofLine l).cut columns).map Row.text) := by
  rw [refillLine_eq, Row.cut, List.map_map]
  rfl

/-- What a line becomes is the same row as the line, if it is read as a line. -/
theorem ofLine_refillLine (columns : Nat) (l : Text) :
    Row.ofLine (refillLine columns l) = Row.ofLine l := by
  have hmargin : marginOf (refillLine columns l) = marginOf l := by
    rw [refillLine_eq_cut, (Row.clean_ofLine l).marginOf_cut, Row.ofLine]
  rw [Row.ofLine, hmargin, words_refillLine, Row.ofLine]

/-- Filling a line anew forgets how it was filled before, on a page that is narrower or wider, and
so does filling a text with words. The newlines of the first filling are blanks like any other. -/
theorem filling_forgets_earlier_lines (first second : Nat) (t : Text) :
    refillLine second (refillLine first t) = refillLine second t ∧
      fill second (unlines (fill first t)) = fill second t := by
  constructor
  · rw [refillLine_eq_cut, ofLine_refillLine, ← refillLine_eq_cut]
  · have hwords : words (unlines (fill first t)) = words t := by
      rw [words_unlines, flatMap_words_fill]
    rw [fill, hwords, fill]

/-- A margin of a tab, a newline and a space, and words that the two pages part in different
places. -/
example :
    let t : Text := "\t\n ab c de\r\nf ".toList
    refillLine 6 t = "   ab\n   c\n   de\n   f".toList ∧
      refillLine 10 (refillLine 6 t) = "   ab c\n   de f".toList := by
  decide

/-! ## What becomes of a line -/

/-- The lines that a line becomes on a page of a width. -/
def linesOf (columns : Nat) (l : Text) : List Text :=
  if tooWide columns l then ((Row.ofLine l).cut columns).map Row.text else [l]

variable {columns : Nat} {l : Text}

theorem linesOf_of_tooWide (h : tooWide columns l = true) :
    linesOf columns l = ((Row.ofLine l).cut columns).map Row.text := if_pos h

theorem linesOf_of_fits (h : ¬ tooWide columns l = true) : linesOf columns l = [l] := if_neg h

theorem linesOf_row {r : Row} (h : r.Clean) (hone : columns ≤ r.text.length → r.words.length ≤ 1) :
    linesOf columns r.text = [r.text] := by
  by_cases hwide : tooWide columns r.text = true
  · rw [linesOf_of_tooWide hwide, h.ofLine_text,
      Row.cut_of_length_words_le columns (hone (of_decide_eq_true hwide)), List.map_singleton]
  · exact linesOf_of_fits hwide

theorem refill_eq_linesOf (columns : Nat) (t : Text) :
    refill columns t = ((lines t).flatMap (linesOf columns)).flatMap (· ++ ['\n']) := by
  rw [refill, List.flatMap_assoc]
  apply List.flatMap_congr
  intro l _
  by_cases hwide : tooWide columns l = true
  · have hne : ((Row.ofLine l).cut columns).map Row.text ≠ [] := by
      simpa using Row.cut_ne_nil columns (Row.ofLine l)
    rw [if_pos hwide, linesOf_of_tooWide hwide, ← unlines_append_newline hne, refillLine_eq_cut]
  · rw [if_neg hwide, linesOf_of_fits hwide, List.flatMap_singleton]

theorem newline_not_mem_linesOf (h : '\n' ∉ l) : ∀ m ∈ linesOf columns l, '\n' ∉ m := by
  intro m hm
  unfold linesOf at hm
  split at hm
  · obtain ⟨s, hs, rfl⟩ := List.mem_map.mp hm
    exact ((Row.clean_ofLine l).cut hs).line.1
  · exact List.mem_singleton.mp hm ▸ h

/-! ## Texts piece by piece -/

theorem length_flatMap_le {α : Type} {f g : α → Text} {as : List α}
    (h : ∀ a ∈ as, (f a).length ≤ (g a).length) :
    (as.flatMap f).length ≤ (as.flatMap g).length := by
  induction as with
  | nil => exact Nat.le_refl _
  | cons a as ih =>
    have ha := h a (by simp)
    have has := ih fun b hb => h b (by simp [hb])
    simp only [List.flatMap_cons, List.length_append]
    omega

/-- Where no piece grows, the whole stays the same only if each piece does. -/
theorem flatMap_eq_iff_of_length_le {f g : Text → Text} {ls : List Text}
    (h : ∀ l ∈ ls, (f l).length ≤ (g l).length) :
    ls.flatMap f = ls.flatMap g ↔ ∀ l ∈ ls, f l = g l := by
  refine ⟨fun heq => ?_, List.flatMap_congr⟩
  induction ls with
  | nil => simp
  | cons l ls ih =>
    have hls : ∀ m ∈ ls, (f m).length ≤ (g m).length := fun m hm => h m (by simp [hm])
    rw [List.flatMap_cons, List.flatMap_cons] at heq
    have hl := h l (by simp)
    have hrest := length_flatMap_le hls
    have hlen := congrArg List.length heq
    simp only [List.length_append] at hlen
    obtain ⟨hfirst, heq⟩ := List.append_inj heq (by omega)
    rw [List.forall_mem_cons]
    exact ⟨hfirst, ih hls heq⟩

/-! ## Refilling twice -/

/-- The lines that a line becomes, read again and set on a page that is no narrower. What was cut
stays as it is, and what was kept loses the carriage return at its end. -/
theorem linesOf_again {wide : Nat} (h : columns ≤ wide) (l : Text) :
    ((linesOf columns l).map dropReturn).flatMap (linesOf wide) =
      if tooWide columns l then linesOf columns l else [dropReturn l] := by
  by_cases hwide : tooWide columns l = true
  · have hclean : ∀ s ∈ (Row.ofLine l).cut columns, s.Clean := fun s hs =>
      (Row.clean_ofLine l).cut hs
    have hreturn : ∀ m ∈ linesOf columns l, m.getLast? ≠ some '\r' := by
      intro m hm
      rw [linesOf_of_tooWide hwide] at hm
      obtain ⟨s, hs, rfl⟩ := List.mem_map.mp hm
      exact (hclean s hs).line.2
    have hstay : ∀ s ∈ (Row.ofLine l).cut columns, linesOf wide s.text = [s.text] := fun s hs =>
      linesOf_row (hclean s hs) fun hlen => Row.length_words_of_mem_cut hs (Nat.le_trans h hlen)
    rw [if_pos hwide, map_dropReturn hreturn, linesOf_of_tooWide hwide, List.flatMap_map,
      List.flatMap_congr hstay, List.map_eq_flatMap]
  · have hlen := length_dropReturn_le l
    have hshort : ¬ tooWide wide (dropReturn l) = true := by
      simp only [tooWide, decide_eq_true_eq] at hwide ⊢
      omega
    rw [if_neg hwide, linesOf_of_fits hwide, List.map_singleton, List.flatMap_singleton,
      linesOf_of_fits hshort]

theorem refill_refill {wide : Nat} (h : columns ≤ wide) (t : Text) :
    refill wide (refill columns t) = (lines t).flatMap fun l =>
      (if tooWide columns l then linesOf columns l else [dropReturn l]).flatMap (· ++ ['\n']) := by
  have hlines : ∀ m ∈ (lines t).flatMap (linesOf columns), '\n' ∉ m := by
    intro m hm
    obtain ⟨l, hl, hm⟩ := List.mem_flatMap.mp hm
    exact newline_not_mem_linesOf (newline_not_mem_of_mem_lines t l hl) m hm
  rw [refill_eq_linesOf wide, refill_eq_linesOf columns, lines_terminated hlines, List.map_flatMap,
    List.flatMap_assoc, List.flatMap_assoc]
  apply List.flatMap_congr
  intro l _
  rw [← List.flatMap_assoc, linesOf_again h]

/-- A text that is filled stays as it is when it is filled again, on a page that is no narrower,
unless a line was kept that ends in a carriage return. -/
theorem filling_again_changes_nothing_iff {narrow wide : Nat} (h : narrow ≤ wide) (t : Text) :
    refill wide (refill narrow t) = refill narrow t ↔
      ∀ l ∈ lines t, tooWide narrow l = false → l.getLast? ≠ some '\r' := by
  rw [refill_refill h, refill_eq_linesOf narrow, List.flatMap_assoc, flatMap_eq_iff_of_length_le]
  · apply forall₂_congr
    intro l _
    by_cases hwide : tooWide narrow l = true
    · simp [hwide]
    · simp [hwide, linesOf_of_fits hwide, dropReturn_eq_self_iff]
  · intro l _
    by_cases hwide : tooWide narrow l = true
    · rw [if_pos hwide]
    · rw [if_neg hwide, linesOf_of_fits hwide]
      simpa using length_dropReturn_le l

/-- A wide line that ends in a carriage return is cut and loses it at once; a short one loses it the
second time. -/
theorem a_short_line_loses_its_return_the_second_time :
    let t : Text := "ab cd\r\r\nx\r\r\n".toList
    4 ≤ 6 ∧ lines t = ["ab cd\r".toList, "x\r".toList] ∧ tooWide 4 "x\r".toList = false ∧
      refill 6 (refill 4 t) ≠ refill 4 t ∧
      refill 6 (refill 4 "ab cd\r\r\nx\r\n".toList) = refill 4 "ab cd\r\r\nx\r\n".toList := by
  have hlines : lines "ab cd\r\r\nx\r\r\n".toList = ["ab cd\r".toList, "x\r".toList] := by decide
  refine ⟨by decide, hlines, by decide, fun heq => ?_, ?_⟩
  · have hreturn := (filling_again_changes_nothing_iff (by decide) _).mp heq "x\r".toList
      (by rw [hlines]; decide) (by decide)
    exact hreturn (by decide)
  · exact (filling_again_changes_nothing_iff (by decide) _).mpr (by decide)

end PrettyFormula
