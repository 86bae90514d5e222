-- The words of a text: its longest runs of characters that are not blank.
-- A text that is joined from words by single spaces gives the words back.
import PrettyFormula.Text.Blank

namespace PrettyFormula

def words (t : Text) : List Text :=
  (t.splitOnP isBlank).filter fun w => !w.isEmpty

def unwords (ws : List Text) : Text :=
  List.intercalate [space] ws

/-! ## Words and blank characters -/

@[simp] theorem words_nil : words [] = [] := rfl

/-- A blank character parts the words before it from those after it. -/
@[simp] theorem words_append_blank {c : Char} (hc : isBlank c = true) (a b : Text) :
    words (a ++ c :: b) = words a ++ words b := by
  simp [words, List.splitOnP_append_cons _ _ hc]

@[simp] theorem words_cons_blank {c : Char} (hc : isBlank c = true) (t : Text) :
    words (c :: t) = words t := by
  simpa using words_append_blank hc [] t

/-- A text with no blank character is one word, or empty. -/
theorem words_of_no_blank {t : Text} (h : ∀ c ∈ t, isBlank c = false) :
    words t = if t = [] then [] else [t] := by
  unfold words
  rw [List.splitOnP_eq_singleton h]
  cases t <;> simp

end PrettyFormula
