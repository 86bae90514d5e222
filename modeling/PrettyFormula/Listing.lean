-- Listings: a formatted formula under a numbered markdown heading, in a code
-- block.
import PrettyFormula.Text.Blank

namespace PrettyFormula

def decimal (n : Nat) : Text :=
  Nat.toDigits 10 n

/-- The line that opens a code block, and the line that closes it. -/
def fence : Text := "```".toList

/-- The lines in front of the code block of a listing. -/
def headingLines (n : Nat) : List Text :=
  ["## Formula ".toList ++ decimal n, [], "Formula ".toList ++ decimal n ++ " states:".toList]

/-- What stands in front of the formula of a listing. -/
def heading (n : Nat) : Text :=
  (headingLines n ++ [fence]).flatMap (· ++ ['\n'])

/-- The listing of a formatted formula under a number. The formula ends in a newline, so that the
fence behind it stands on its own line. -/
def listing (n : Nat) (formatted : Text) : Text :=
  heading n ++ formatted ++ fence ++ "\n\n".toList

end PrettyFormula
