-- The law of refilling line by line. A narrow line stays as it is; a wide one gives
-- way to lines under its margin, with the same words, that are narrow again unless
-- a single word is too wide. No line has to do with the others.
import PrettyFormula.Proofs.Dividing
import PrettyFormula.Proofs.Refilling

namespace PrettyFormula

/-! ## Blocks of lines -/

/-- Lines that stand in for a wide one. The margin of the line, in plain spaces, is in front of each,
and its words follow with single spaces. A line that is wide still has no two words, and the first
word of the next line has no room on it. -/
structure StandsIn (columns : Nat) (l : Text) (ms : List Text) : Prop where
  ne_nil : ms ≠ []
  holds : ms.flatMap words = words l
  margin : ∀ m ∈ ms, m = List.replicate (marginOf l) space ++ unwords (words m)
  narrow : ∀ m ∈ ms, m.length < columns ∨ (words m).length ≤ 1
  full : ms.IsChain fun m n => ∀ w, (words n).head? = some w → columns ≤ m.length + 1 + w.length

/-- The lines that a line becomes: the line itself, or lines that stand in for it. -/
inductive Block (columns : Nat) (l : Text) : List Text → Prop
  | kept : l.length < columns → Block columns l [l]
  | cut {ms : List Text} : columns ≤ l.length → StandsIn columns l ms → Block columns l ms

variable {columns : Nat} {l : Text} {r : Row}

/-! ## What is cut -/

namespace Row

theorem flatMap_words_cut (columns : Nat) (r : Row) : (r.cut columns).flatMap words = r.words := by
  rw [cut, List.flatMap_map, List.flatMap_id', flatten_pack]

theorem Clean.flatMap_words (h : r.Clean) (columns : Nat) :
    ((r.cut columns).map text).flatMap PrettyFormula.words = r.words := by
  rw [List.flatMap_map, List.flatMap_congr fun s hs => (h.cut hs).words, flatMap_words_cut]

/-- A row that is cut ends only where the next word would make it as wide as the page. -/
theorem Clean.isChain_cut (h : r.Clean) (columns : Nat) :
    ((r.cut columns).map text).IsChain fun m n =>
      ∀ w, (PrettyFormula.words n).head? = some w → columns ≤ m.length + 1 + w.length := by
  rw [Row.cut, List.map_map, List.isChain_map]
  apply (isChain_pack (columns - r.margin) r.words).imp_of_mem_imp
  intro ws vs _ hvs hcrowded w hw
  have hvs : PrettyFormula.words (Row.mk r.margin vs).text = vs :=
    (h.cut (List.mem_map_of_mem hvs)).words
  have hlen : (Row.mk r.margin ws).text.length = r.margin + (unwords ws).length := by simp [text]
  rw [Function.comp_apply, hvs] at hw
  have hroom := hcrowded w hw
  rw [Function.comp_apply, hlen]
  omega

end Row

/-! ## Line by line -/

theorem standsIn_linesOf (h : tooWide columns l = true) :
    StandsIn columns l (linesOf columns l) := by
  have hclean := Row.clean_ofLine l
  rw [linesOf_of_tooWide h]
  refine ⟨?_, hclean.flatMap_words columns, fun m hm => ?_, fun m hm => ?_, hclean.isChain_cut columns⟩
  · simpa using Row.cut_ne_nil columns (Row.ofLine l)
  · obtain ⟨s, hs, rfl⟩ := List.mem_map.mp hm
    have hmargin : s.margin = marginOf l := Row.margin_of_mem_cut hs
    rw [(hclean.cut hs).words, ← hmargin, Row.text]
  · obtain ⟨s, hs, rfl⟩ := List.mem_map.mp hm
    rw [(hclean.cut hs).words]
    by_cases hwide : columns ≤ s.text.length
    · exact Or.inr (Row.length_words_of_mem_cut hs hwide)
    · exact Or.inl (Nat.lt_of_not_le hwide)

theorem block_linesOf (columns : Nat) (l : Text) : Block columns l (linesOf columns l) := by
  by_cases hwide : tooWide columns l = true
  · exact .cut (of_decide_eq_true hwide) (standsIn_linesOf hwide)
  · rw [linesOf_of_fits hwide]
    exact .kept (by simpa [tooWide] using hwide)

/-- Refilling turns each line of a text into a block of lines, whatever the other lines are, and ends
each of these with a newline. So it changes nothing but blanks, and what stands behind a newline is
refilled on its own. -/
theorem each_line_becomes_a_block_of_its_own (columns : Nat) (t : Text) :
    (∀ l ∈ lines t, Block columns l (linesOf columns l) ∧ ∀ m ∈ linesOf columns l, '\n' ∉ m) ∧
      (refill columns t = (lines t).flatMap fun l => (linesOf columns l).flatMap (· ++ ['\n'])) ∧
      words (refill columns t) = words t ∧
      ∀ a b, refill columns (a ++ '\n' :: b) = refill columns (a ++ ['\n']) ++ refill columns b := by
  refine ⟨fun l hl => ⟨block_linesOf columns l, ?_⟩, ?_, words_refill columns t,
    refill_append_newline columns⟩
  · exact newline_not_mem_linesOf (newline_not_mem_of_mem_lines t l hl)
  · rw [refill_eq_linesOf, List.flatMap_assoc]

/-- A margin of one tab, a short line that keeps a carriage return, a wide line of blanks, and a
margin that leaves no room on the page. -/
theorem a_text_of_wide_and_narrow_lines :
    let t : Text := "\tab cd ef\r\nx\r\r\n \t     \n      abcdefg h".toList
    let l : Text := "\tab cd ef".toList
    let m : Text := " cd".toList
    l ∈ lines t ∧ Block 6 l (linesOf 6 l) ∧ m ∈ linesOf 6 l ∧ '\n' ∉ m ∧
      refill 6 t = " ab\n cd\n ef\nx\r\n       \n      abcdefg\n      h\n".toList ∧
      words (refill 6 t) = words t := by
  intro t l m
  have hl : l ∈ lines t := by decide
  have hm : m ∈ linesOf 6 l := by decide
  obtain ⟨hblock, -, hwords, -⟩ := each_line_becomes_a_block_of_its_own 6 t
  exact ⟨hl, (hblock l hl).1, hm, (hblock l hl).2 m hm, by decide, hwords⟩

end PrettyFormula
