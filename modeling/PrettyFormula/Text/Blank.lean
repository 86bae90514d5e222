-- Text, and the blank characters that stand between its words: the characters
-- with the White_Space property of Unicode. Columns count characters.

namespace PrettyFormula

/-- A text is the list of its characters. -/
abbrev Text := List Char

/-- The space, the one blank character that a layout writes within a line. -/
def space : Char := ' '

/-! ## Blank characters -/

/-- The codes of the blank characters, as ranges with both ends included, in order. -/
def blankRanges : List (Nat × Nat) :=
  [(0x9, 0xD), (0x20, 0x20), (0x85, 0x85), (0xA0, 0xA0), (0x1680, 0x1680), (0x2000, 0x200A),
    (0x2028, 0x2029), (0x202F, 0x202F), (0x205F, 0x205F), (0x3000, 0x3000)]

/-- A character is blank when its code lies in one of the ranges. -/
def isBlank (c : Char) : Bool :=
  blankRanges.any fun r => r.1 ≤ c.toNat && c.toNat ≤ r.2

def blankText (t : Text) : Bool := t.all isBlank

/-- The ranges are in order and do not touch. -/
theorem blankRanges_in_order :
    blankRanges.Pairwise fun r s => r.1 ≤ r.2 ∧ r.2 + 1 < s.1 ∧ s.1 ≤ s.2 := by
  decide

@[simp] theorem isBlank_space : isBlank space = true := by decide

@[simp] theorem isBlank_newline : isBlank '\n' = true := by decide

@[simp] theorem isBlank_return : isBlank '\r' = true := by decide

@[simp] theorem not_isBlank_lparen : isBlank '(' = false := by decide

@[simp] theorem not_isBlank_rparen : isBlank ')' = false := by decide

end PrettyFormula
