-- The laws of code blocks. A listing opens a code block, and the first line that
-- closes one ends it. That is the fence behind the formula, unless a line of the
-- formula closes the block before: an atom of backticks, alone on its line.
import PrettyFormula.Proofs.Clumps
import PrettyFormula.Proofs.Listings

namespace PrettyFormula

open Token

/-! ## Code blocks -/

/-- This many backticks. -/
def ticks (n : Nat) : Text := List.replicate n '`'

/-- Whether a line closes a code block: at most three spaces stand in front of three backticks or
more, and nothing but spaces behind them. -/
def closesBlock (l : Text) : Bool :=
  let rest := l.dropWhile (· == space)
  (l.takeWhile (· == space)).length ≤ 3 && 3 ≤ (rest.takeWhile (· == '`')).length &&
    (rest.dropWhile (· == '`')).all (· == space)

/-- The lines behind the first fence of a text, up to the first one that closes a code block. -/
def codeBlock (t : Text) : List Text :=
  ((lines t).dropWhile (· ≠ fence)).tail.takeWhile fun l => !closesBlock l

variable {page : Page} {t l : Text} {c : Char} {n : Nat} {r : Row} {ls : List Text}

/-! ## Lines that close a block -/

theorem eq_run_append (c : Char) (t : Text) :
    t = List.replicate (t.takeWhile (· == c)).length c ++ t.dropWhile (· == c) := by
  have hrun : ∀ x ∈ t.takeWhile (· == c), x = c := by
    intro x hx
    simpa using List.mem_takeWhile_imp hx
  rw [← List.eq_replicate_of_mem hrun, List.takeWhile_append_dropWhile]

theorem run_append {u : Text} (h : ∀ d, u.head? = some d → d ≠ c) (n : Nat) :
    (List.replicate n c ++ u).takeWhile (· == c) = List.replicate n c ∧
      (List.replicate n c ++ u).dropWhile (· == c) = u := by
  have hu : u.takeWhile (· == c) = [] ∧ u.dropWhile (· == c) = u := by
    rcases u with _ | ⟨d, u⟩
    · exact ⟨rfl, rfl⟩
    · simp [h d rfl]
  have hrun : ∀ x ∈ List.replicate n c, (x == c) = true := fun x hx => by
    rw [List.eq_of_mem_replicate hx, beq_self_eq_true]
  rw [List.takeWhile_append_of_pos hrun, List.dropWhile_append_of_pos hrun, hu.1, hu.2,
    List.append_nil]
  exact ⟨rfl, rfl⟩

theorem closesBlock_iff :
    closesBlock l = true ↔ ∃ margin n after, margin ≤ 3 ∧ 3 ≤ n ∧
      l = List.replicate margin space ++ (ticks n ++ List.replicate after space) := by
  constructor
  · intro h
    simp only [closesBlock, Bool.and_eq_true, decide_eq_true_eq, List.all_eq_true,
      beq_iff_eq] at h
    obtain ⟨⟨hmargin, hticks⟩, hafter⟩ := h
    have hl := eq_run_append space l
    have hrest := eq_run_append '`' (l.dropWhile (· == space))
    rw [List.eq_replicate_of_mem hafter] at hrest
    exact ⟨_, _, _, hmargin, hticks, hl.trans (congrArg _ hrest)⟩
  · rintro ⟨margin, n, after, hmargin, hn, rfl⟩
    obtain ⟨k, rfl⟩ := Nat.exists_eq_add_of_le' hn
    have hticks : ∀ d, (ticks (k + 3) ++ List.replicate after space).head? = some d → d ≠ space := by
      intro d hd
      cases hd
      decide
    have hafter : ∀ d, (List.replicate after space).head? = some d → d ≠ '`' := by
      intro d hd
      rw [List.eq_of_mem_replicate (List.mem_of_head? hd)]
      decide
    unfold closesBlock
    simp only [run_append hticks]
    simp [ticks, run_append hafter, hmargin]

theorem isWord_ticks (hn : 3 ≤ n) : IsWord (ticks n) := by
  obtain ⟨k, rfl⟩ := Nat.exists_eq_add_of_le' hn
  refine ⟨by simp [ticks], fun c hc => ?_⟩
  rw [List.eq_of_mem_replicate hc]
  decide

/-- The line of a row closes a block if the row is one word of backticks under a small margin. -/
theorem Row.Proper.closesBlock_iff (h : r.Proper) :
    closesBlock r.text = true ↔ r.margin ≤ 3 ∧ ∃ n, 3 ≤ n ∧ r.words = [ticks n] := by
  rw [PrettyFormula.closesBlock_iff]
  constructor
  · rintro ⟨margin, n, after, hmargin, hn, htext⟩
    have hone : Row.Proper ⟨margin, [ticks n]⟩ :=
      ⟨by simp, fun w hw => List.mem_singleton.mp hw ▸ isWord_ticks hn⟩
    have htext : r.text = Row.text ⟨margin, [ticks n]⟩ ++ List.replicate after space := by
      rw [htext, Row.text, unwords, List.intercalate_singleton, List.append_assoc]
    have hr : r.margin = margin := by
      rw [← h.marginOf_append [], List.append_nil, htext, hone.marginOf_append]
    have hwords : r.words = [ticks n] := by
      rw [← Clean.words h.isWord, htext, words_append_spaces, Clean.words hone.isWord]
    exact ⟨hr ▸ hmargin, n, hn, hwords⟩
  · rintro ⟨hmargin, n, hn, hwords⟩
    refine ⟨r.margin, n, 0, hmargin, hn, ?_⟩
    rw [text, hwords, unwords, List.intercalate_singleton, List.replicate_zero, List.append_nil]

/-! ## The lines of a listing -/

theorem listing_flatMap (n : Nat) (ls : List Text) :
    listing n (ls.flatMap (· ++ ['\n'])) =
      (headingLines n ++ fence :: (ls ++ [fence, []])).flatMap (· ++ ['\n']) := by
  have hlisting := listing_append n ls []
  rw [List.append_nil, heading] at hlisting
  rw [hlisting]
  simp only [List.flatMap_append, List.flatMap_cons, List.flatMap_nil, List.append_assoc,
    List.nil_append, List.append_nil, List.singleton_append]

theorem mem_headingLines (hl : l ∈ headingLines n) : '\n' ∉ l ∧ '\r' ∉ l ∧ l ≠ fence := by
  have hdigit : ∀ c, c.isDigit = false → c ∉ decimal n := by
    intro c hc hmem
    rw [Nat.isDigit_of_mem_toDigits (by decide) (by decide) hmem] at hc
    cases hc
  have hn := hdigit '\n' (by decide)
  have hr := hdigit '\r' (by decide)
  simp only [headingLines, List.mem_cons, List.not_mem_nil, or_false] at hl
  rcases hl with rfl | rfl | rfl
  · simp [hn, hr, fence]
  · simp [fence]
  · simp [hn, hr, fence]

theorem takeWhile_append_cons {α : Type} {p : α → Bool} {x : α} (hx : p x = false) (as bs : List α) :
    (as ++ x :: bs).takeWhile p = as.takeWhile p := by
  induction as with
  | nil => simp [hx]
  | cons a as ih =>
    by_cases ha : p a = true
    · simp [ha, ih]
    · simp [ha]

theorem codeBlock_listing (h : ∀ l ∈ ls, '\n' ∉ l ∧ l.getLast? ≠ some '\r') (n : Nat) :
    codeBlock (listing n (ls.flatMap (· ++ ['\n']))) = ls.takeWhile fun l => !closesBlock l := by
  have hline : ∀ l ∈ headingLines n ++ fence :: (ls ++ [fence, []]),
      '\n' ∉ l ∧ l.getLast? ≠ some '\r' := by
    intro l hl
    simp only [List.mem_append, List.mem_cons, List.not_mem_nil, or_false] at hl
    rcases hl with hl | rfl | hl | rfl | rfl
    · obtain ⟨hnewline, hreturn, -⟩ := mem_headingLines hl
      exact ⟨hnewline, fun hlast => hreturn (List.mem_of_getLast? hlast)⟩
    · exact ⟨by decide, by decide⟩
    · exact h l hl
    · exact ⟨by decide, by decide⟩
    · exact ⟨by decide, by decide⟩
  have hlines : lines (listing n (ls.flatMap (· ++ ['\n']))) =
      headingLines n ++ fence :: (ls ++ [fence, []]) := by
    rw [listing_flatMap, lines_of_ended hline]
  have hheading : ∀ l ∈ headingLines n, decide (l ≠ fence) = true := fun l hl =>
    decide_eq_true (mem_headingLines hl).2.2
  rw [codeBlock, hlines, List.dropWhile_append_of_pos hheading,
    List.dropWhile_cons_of_neg (by simp), List.tail_cons, takeWhile_append_cons (by decide)]

theorem codeBlock_listing_format (n : Nat) (page : Page) (t : Text) :
    codeBlock (listing n (format page t)) =
      (lines (format page t)).takeWhile fun l => !closesBlock l := by
  have hread := readable_of_mem_scan t
  rw [format, lines_formatTokens hread, formatTokens_eq hread,
    codeBlock_listing fun l hl => (line_of_mem_formattedRows hread l hl).2]

theorem codeBlock_listing_format_iff (n : Nat) (page : Page) (t : Text) :
    codeBlock (listing n (format page t)) = lines (format page t) ↔
      ∀ l ∈ lines (format page t), ¬ closesBlock l = true := by
  rw [codeBlock_listing_format, List.takeWhile_eq_self_iff]
  simp only [Bool.not_eq_true', Bool.not_eq_true]

/-! ## Backticks on a line of their own -/

theorem closesBlock_iff_of_mem_lines (hl : l ∈ lines (format page t)) :
    closesBlock l = true ↔ ∃ margin k, margin ≤ 3 ∧ 3 ≤ k ∧
      l = List.replicate margin space ++ ticks k := by
  constructor
  · intro h
    obtain ⟨r, rfl, hr⟩ := exists_row_of_mem_lines_format hl
    obtain ⟨hmargin, k, hk, hwords⟩ := hr.toProper.closesBlock_iff.mp h
    refine ⟨r.margin, k, hmargin, hk, ?_⟩
    rw [Row.text, hwords, unwords, List.intercalate_singleton]
  · rintro ⟨margin, k, hmargin, hk, rfl⟩
    refine closesBlock_iff.mpr ⟨margin, k, 0, hmargin, hk, ?_⟩
    rw [List.replicate_zero, List.append_nil]

/-- A clump of backticks is an atom with no parenthesis at it. -/
theorem eq_atom_of_spell {ts c : List Token} (hc : c ∈ clumps ts) (hn : 3 ≤ n)
    (h : spell c = ticks n) : c = [.atom (ticks n)] := by
  have hnot : ∀ u ∈ c, ∀ x ∈ u.text, x = '`' := by
    intro u hu x hx
    have hmem : x ∈ spell c := List.mem_flatMap.mpr ⟨u, hu, hx⟩
    rw [h] at hmem
    exact List.eq_of_mem_replicate hmem
  obtain ⟨opens, atom, closes, rfl⟩ := shape_of_isChain (List.isChain_of_mem_splitBy hc)
  rcases opens with _ | opens
  · rcases closes with _ | closes
    · rcases atom with _ | a
      · exact absurd h.symm (isWord_ticks hn).ne_nil
      · rw [← h]
        simp [spell]
    · exact absurd (hnot .rparen (by simp) ')' (by simp)) (by decide)
  · exact absurd (hnot .lparen (by simp) '(' (by simp)) (by decide)

/-- The lines that close a block hold backticks that are a clump of their own. -/
theorem mem_clumps_of_closesBlock (hl : l ∈ lines (format page t)) (h : closesBlock l = true) :
    ∃ n, 3 ≤ n ∧ [.atom (ticks n)] ∈ clumps (scan t) := by
  obtain ⟨r, rfl, hr⟩ := exists_row_of_mem_lines_format hl
  obtain ⟨-, n, hn, hwords⟩ := hr.toProper.closesBlock_iff.mp h
  have hmem : ticks n ∈ words (format page t) := by
    rw [words_eq_flatMap_lines]
    refine List.mem_flatMap.mpr ⟨r.text, hl, ?_⟩
    rw [Row.Clean.words hr.isWord, hwords]
    exact List.mem_singleton_self _
  rw [words_format] at hmem
  obtain ⟨c, hc, hspell⟩ := List.mem_map.mp hmem
  exact ⟨n, hn, eq_atom_of_spell hc hn hspell ▸ hc⟩

/-- On a page with no room each word is on a line of its own, with no margin if nothing is
indented. -/
theorem exists_closesBlock_of_mem_clumps (hn : 3 ≤ n) (h : [.atom (ticks n)] ∈ clumps (scan t)) :
    ∃ l ∈ lines (format { columns := 0, indent := 0 } t), closesBlock l = true := by
  have hmem : ticks n ∈ words (format { columns := 0, indent := 0 } t) := by
    rw [words_format]
    exact List.mem_map.mpr ⟨_, h, by simp [spell]⟩
  rw [words_eq_flatMap_lines] at hmem
  obtain ⟨l, hl, hword⟩ := List.mem_flatMap.mp hmem
  obtain ⟨r, rfl, hr⟩ := exists_row_of_mem_lines_format hl
  obtain ⟨w, hw⟩ := List.length_eq_one_iff.mp (hr.narrow (Nat.zero_le _))
  rw [Row.Clean.words hr.isWord, hw, List.mem_singleton] at hword
  obtain ⟨i, -, hmargin⟩ := hr.indented
  refine ⟨r.text, hl, hr.toProper.closesBlock_iff.mpr ⟨?_, n, hn, hword ▸ hw⟩⟩
  rw [hmargin]
  simp [depthMargin]

/-- The code block of a listing holds the lines of the formula up to the first one that is a fence
itself: a margin of at most three spaces, and at least three backticks. So it holds the formula
unless there is such a line, and on every page it does so just where no atom of at least three
backticks stands by itself, neither behind an opening parenthesis nor in front of a closing one. -/
theorem a_code_block_ends_at_the_first_fence (n : Nat) (t : Text) :
    (∀ page, codeBlock (listing n (format page t)) =
        (lines (format page t)).takeWhile fun l => !closesBlock l) ∧
      (∀ page, codeBlock (listing n (format page t)) = lines (format page t) ↔
        ¬ ∃ margin k, margin ≤ 3 ∧ 3 ≤ k ∧
          List.replicate margin space ++ ticks k ∈ lines (format page t)) ∧
      ((∀ page, codeBlock (listing n (format page t)) = lines (format page t)) ↔
        ∀ k, 3 ≤ k → [.atom (ticks k)] ∉ clumps (scan t)) := by
  have hall := fun page => codeBlock_listing_format_iff n page t
  refine ⟨fun page => codeBlock_listing_format n page t, fun page => ?_, fun h k hk hmem => ?_,
    fun h page => ?_⟩
  · rw [hall page]
    constructor
    · rintro h ⟨margin, k, hmargin, hk, hl⟩
      exact h _ hl ((closesBlock_iff_of_mem_lines hl).mpr ⟨margin, k, hmargin, hk, rfl⟩)
    · intro h l hl hcloses
      obtain ⟨margin, k, hmargin, hk, rfl⟩ := (closesBlock_iff_of_mem_lines hl).mp hcloses
      exact h ⟨margin, k, hmargin, hk, hl⟩
  · obtain ⟨l, hl, hcloses⟩ := exists_closesBlock_of_mem_clumps hk hmem
    exact (hall _).mp (h _) l hl hcloses
  · refine (hall page).mpr fun l hl hcloses => ?_
    obtain ⟨k, hk, hmem⟩ := mem_clumps_of_closesBlock hl hcloses
    exact h k hk hmem

/-- An atom that is a fence ends the block behind the first line of its formula. The rest of the
formula stands outside of it. -/
theorem an_atom_that_is_a_fence_ends_the_block :
    let formatted := format {} "e1 ``` e2".toList
    lines formatted = ["e1".toList, "```".toList, "e2".toList] ∧
      closesBlock "```".toList = true ∧ codeBlock (listing 1 formatted) = ["e1".toList] ∧
      codeBlock (listing 1 formatted) ≠ lines formatted := by
  decide

/-- A parenthesis at the atom keeps it from being a line of its own. -/
example :
    let formatted := format { columns := 0, indent := 0 } "(``` e2)".toList
    codeBlock (listing 1 formatted) = lines formatted := by
  decide

end PrettyFormula
