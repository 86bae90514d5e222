-- Filling: words are packed into lines from left to right, as many on each
-- line as stay within the budget. A line that is too wide for the page is
-- filled anew, and its margin stands in front of every line that it becomes.
import PrettyFormula.Text.Lines
import PrettyFormula.Text.Words

namespace PrettyFormula

/-! ## Packing words -/

/-- The words packed so far. -/
structure Packing where
  full : Array (List Text) := #[]
  /-- The words of the line that is being packed, the last one first. -/
  line : List Text := []
  width : Nat := 0

/-- Packs one more word. It goes on the line if it keeps the line narrower than the budget, and
starts a new line otherwise. The first word of a line always has room. -/
def Packing.push (budget : Nat) (p : Packing) (word : Text) : Packing :=
  if p.line.isEmpty then { p with line := [word], width := word.length }
  else if p.width + 1 + word.length < budget then
    { p with line := word :: p.line, width := p.width + 1 + word.length }
  else { full := p.full.push p.line.reverse, line := [word], width := word.length }

def Packing.lines (p : Packing) : List (List Text) :=
  p.full.toList ++ [p.line.reverse]

/-- The words of each line, packed within the budget. No words make one empty line. -/
def pack (budget : Nat) (ws : List Text) : List (List Text) :=
  (ws.foldl (Packing.push budget) {}).lines

def fill (budget : Nat) (t : Text) : List Text :=
  (pack budget (words t)).map unwords

/-! ## Wide lines -/

/-- The blank characters in front of a line. -/
def marginOf (line : Text) : Nat :=
  (line.takeWhile isBlank).length

/-- A line filled anew. The margin of the line, in plain spaces, stands in front of every line
that it becomes and leaves that much less of the page. -/
def refillLine (columns : Nat) (line : Text) : Text :=
  let margin := marginOf line
  unlines ((fill (columns - margin) line).map (List.replicate margin space ++ ·))

def tooWide (columns : Nat) (line : Text) : Bool :=
  columns ≤ line.length

/-- The text with its wide lines filled anew, and a newline after every line. -/
def refill (columns : Nat) (t : Text) : Text :=
  (lines t).flatMap fun line =>
    (if tooWide columns line then refillLine columns line else line) ++ ['\n']

def wideLines (columns : Nat) (t : Text) : List Text :=
  (lines t).filter (tooWide columns)

end PrettyFormula
