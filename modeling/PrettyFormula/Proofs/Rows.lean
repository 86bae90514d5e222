-- The laws of the lines of a formatted formula. A layout is a list of rows, each
-- a margin and words; filling cuts a wide row into rows with the same margin.
-- So every line of the result is a margin and words with single spaces.
import PrettyFormula.Proofs.RoundTrip

namespace PrettyFormula

open Token

/-! ## Rows -/

/-- A line as it is set: a margin of plain spaces, and words with single spaces between them. -/
structure Row where
  margin : Nat
  words : List Text

namespace Row

def text (r : Row) : Text := List.replicate r.margin space ++ unwords r.words

/-- A row has words, and nothing else stands where a word should. -/
structure Proper (r : Row) : Prop where
  ne_nil : r.words ≠ []
  isWord : ∀ w ∈ r.words, IsWord w

variable {r : Row}

/-- A row starts with its margin and a character that is not blank. -/
theorem Proper.starts (h : r.Proper) :
    ∃ c t, r.text = List.replicate r.margin space ++ c :: t ∧ isBlank c = false := by
  obtain ⟨w, ws, hw⟩ := List.exists_cons_of_ne_nil h.ne_nil
  have hword := h.isWord w (by simp [hw])
  obtain ⟨c, w, rfl⟩ := List.exists_cons_of_ne_nil hword.ne_nil
  refine ⟨c, w ++ ws.flatMap (space :: ·), ?_, hword.no_blank c (by simp)⟩
  rw [text, hw, unwords, intercalate_cons, List.cons_append]

theorem Proper.ends (h : r.Proper) : ∃ t c, r.text = t ++ [c] ∧ isBlank c = false := by
  rcases List.eq_nil_or_concat r.words with hnil | ⟨ws, w, hw⟩
  · exact absurd hnil h.ne_nil
  · rw [List.concat_eq_append] at hw
    have hword := h.isWord w (by simp [hw])
    have hlast : ∃ t, unwords r.words = t ++ w := by
      rcases ws with _ | ⟨v, ws⟩
      · exact ⟨[], by simp [hw, unwords]⟩
      · refine ⟨unwords (v :: ws) ++ [space], ?_⟩
        rw [hw, unwords_append_singleton (by simp), List.append_assoc, List.singleton_append]
    obtain ⟨t, ht⟩ := hlast
    rcases List.eq_nil_or_concat w with rfl | ⟨w, c, rfl⟩
    · exact absurd rfl hword.ne_nil
    · rw [List.concat_eq_append] at ht hword
      refine ⟨List.replicate r.margin space ++ (t ++ w), c, ?_, hword.no_blank c (by simp)⟩
      rw [text, ht, List.append_assoc, List.append_assoc]

theorem Proper.blankText (h : r.Proper) : blankText r.text = false := by
  obtain ⟨t, c, ht, hc⟩ := h.ends
  rw [ht, PrettyFormula.blankText, List.all_append, List.all_cons, hc, Bool.false_and,
    Bool.and_false]

/-- The only blank character of a row is the space. -/
theorem Proper.eq_space (h : r.Proper) {c : Char} (hc : c ∈ r.text) (hblank : isBlank c = true) :
    c = space := by
  have hword : ∀ w ∈ r.words, c ∉ w := by
    intro w hw hmem
    rw [(h.isWord w hw).no_blank c hmem] at hblank
    cases hblank
  obtain ⟨w, ws, hws⟩ := List.exists_cons_of_ne_nil h.ne_nil
  rw [hws] at hword
  rw [text, hws, unwords, intercalate_cons, List.mem_append, List.mem_append,
    List.mem_flatMap] at hc
  rcases hc with hc | hc | ⟨v, hv, hc⟩
  · exact List.eq_of_mem_replicate hc
  · exact absurd hc (hword w (by simp))
  · rcases List.mem_cons.mp hc with hc | hc
    · exact hc
    · exact absurd hc (hword v (by simp [hv]))

/-- The lines of proper rows are told apart again. -/
theorem Proper.line (h : r.Proper) :
    r.text ≠ [] ∧ '\n' ∉ r.text ∧ r.text.getLast? ≠ some '\r' := by
  obtain ⟨t, c, ht, hc⟩ := h.ends
  refine ⟨by simp [ht], fun hmem => ?_, ?_⟩
  · exact absurd (h.eq_space hmem isBlank_newline) (by decide)
  · rw [ht, List.getLast?_append, List.getLast?_singleton, Option.some_or]
    intro hcr
    cases hcr
    rw [isBlank_return] at hc
    cases hc

theorem Proper.marginOf_append (h : r.Proper) (t : Text) : marginOf (r.text ++ t) = r.margin := by
  obtain ⟨c, u, hu, hc⟩ := h.starts
  rw [marginOf, hu, List.append_assoc, List.takeWhile_append_of_pos]
  · simp [hc]
  · intro x hx
    rw [List.eq_of_mem_replicate hx, isBlank_space]

end Row

/-! ## The rows of a layout -/

/-- What stands behind a point of a layout: the rest of the word there, the words behind it in the
same row, and the rows below. -/
structure Rest where
  word : Text := []
  words : List Text := []
  below : List Row := []

namespace Rest

def text (r : Rest) : Text :=
  r.word ++ r.words.flatMap (space :: ·) ++ r.below.flatMap ('\n' :: Row.text ·)

/-- A placed token in front. What is glued to the token in front of it goes on with its word. -/
def put (p : Placement) (r : Rest) : Rest :=
  let word := p.token.text ++ r.word
  match p.separator with
  | .glue => { r with word }
  | .space => { words := word :: r.words, below := r.below }
  | .newline margin => { below := ⟨margin, word :: r.words⟩ :: r.below }

@[simp] theorem text_put (p : Placement) (r : Rest) : (put p r).text = p.text ++ r.text := by
  unfold put Placement.text
  rcases p.separator with _ | _ | margin
  · simp [text]
  · simp [text]
  · simp [text, Row.text, unwords, intercalate_cons]

/-- No blank in the rest of the word, and only words behind it. -/
structure Sound (r : Rest) : Prop where
  word : ∀ c ∈ r.word, isBlank c = false
  words : ∀ w ∈ r.words, IsWord w
  below : ∀ row ∈ r.below, row.Proper

variable {p : Placement} {r : Rest}

theorem Sound.isWord (h : r.Sound) (hp : p.token.Readable) : IsWord (p.token.text ++ r.word) := by
  have hword := hp.isWord
  refine ⟨by simp [hword.ne_nil], fun c hc => ?_⟩
  rcases List.mem_append.mp hc with hc | hc
  · exact hword.no_blank c hc
  · exact h.word c hc

theorem Sound.put (h : r.Sound) (hp : p.token.Readable) : (put p r).Sound := by
  have hword := h.isWord hp
  have hwords : ∀ w ∈ (p.token.text ++ r.word) :: r.words, IsWord w := by
    intro w hw
    rcases List.mem_cons.mp hw with rfl | hw
    · exact hword
    · exact h.words w hw
  unfold Rest.put
  rcases p.separator with _ | _ | margin
  · exact ⟨hword.no_blank, h.words, h.below⟩
  · exact ⟨by simp, hwords, h.below⟩
  · refine ⟨by simp, by simp, fun row hrow => ?_⟩
    rcases List.mem_cons.mp hrow with rfl | hrow
    · exact ⟨by simp, hwords⟩
    · exact h.below row hrow

end Rest

def restOf (ps : List Placement) : Rest := ps.foldr Rest.put {}

theorem text_restOf (ps : List Placement) : (restOf ps).text = render ps := by
  induction ps with
  | nil => rfl
  | cons p ps ih =>
    rw [restOf, List.foldr_cons, ← restOf, Rest.text_put, ih, render, render, List.flatMap_cons]

theorem sound_restOf {ps : List Placement} (h : ∀ p ∈ ps, p.token.Readable) :
    (restOf ps).Sound := by
  induction ps with
  | nil => exact ⟨by simp [restOf], by simp [restOf], by simp [restOf]⟩
  | cons p ps ih => exact (ih fun q hq => h q (by simp [hq])).put (h p (by simp))

theorem margin_restOf (ps : List Placement) :
    ∀ row ∈ (restOf ps).below, ∃ p ∈ ps, p.separator = .newline row.margin := by
  induction ps with
  | nil => simp [restOf]
  | cons p ps ih =>
    intro row hrow
    rw [restOf, List.foldr_cons, ← restOf, Rest.put] at hrow
    have hlater : row ∈ (restOf ps).below → ∃ q ∈ p :: ps, q.separator = .newline row.margin := by
      intro hrow
      obtain ⟨q, hq, hs⟩ := ih row hrow
      exact ⟨q, by simp [hq], hs⟩
    rcases hs : p.separator with _ | _ | margin
    · rw [hs] at hrow
      exact hlater hrow
    · rw [hs] at hrow
      exact hlater hrow
    · rw [hs] at hrow
      rcases List.mem_cons.mp hrow with rfl | hrow
      · exact ⟨p, by simp, hs⟩
      · exact hlater hrow

/-- The rows of placed tokens. The first one has no margin. -/
def rowsOf (ps : List Placement) : List Row :=
  if ps = [] then []
  else ⟨0, (restOf ps).word :: (restOf ps).words⟩ :: (restOf ps).below

theorem unlines_rowsOf (ps : List Placement) :
    unlines ((rowsOf ps).map Row.text) = render ps := by
  rw [← text_restOf, rowsOf]
  split
  · rename_i h
    subst h
    rfl
  · rw [List.map_cons, unlines, intercalate_cons, List.flatMap_map, Rest.text, Row.text, unwords,
      intercalate_cons]
    rfl

end PrettyFormula
