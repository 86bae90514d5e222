-- The spans of all groups of a token list, found in one pass. A stack holds the
-- positions of the parentheses that are open; sums of widths give the width
-- of any stretch of tokens.
import PrettyFormula.Span

namespace PrettyFormula

/-! ## Matching parentheses -/

structure Matching where
  /-- For each position where its group stops. It is the end of the list until the group is
  closed, and stays so for a token that opens none. -/
  stops : Array Nat
  /-- The positions of the parentheses that are open, the innermost first. -/
  pending : List Nat := []

/-- Reads the token at the next position. A closing parenthesis with no partner is passed over. -/
def Matching.push (m : Matching) : Token × Nat → Matching
  | (.lparen, index) => { m with pending := index :: m.pending }
  | (.rparen, index) =>
    match m.pending with
    | [] => m
    | partner :: outer => { stops := m.stops.setIfInBounds partner (index + 1), pending := outer }
  | (.atom _, _) => m

def matching (ts : List Token) : Matching :=
  ts.zipIdx.foldl Matching.push { stops := Array.replicate ts.length ts.length }

/-! ## The table -/

/-- Where the groups of a token list stop, and the columns before each position. -/
structure SpanTable where
  stops : Array Nat
  columnsBefore : Array Nat

def spanTable (ts : List Token) : SpanTable where
  stops := (matching ts).stops
  columnsBefore := ((ts.map Token.width).scanl (· + ·) 0).toArray

/-- The span behind the token at a position. There is none past the last token. -/
def SpanTable.span? (table : SpanTable) (index : Nat) : Option Span := do
  let stop ← table.stops[index]?
  let columnsAtStop ← table.columnsBefore[stop]?
  let columnsAtStart ← table.columnsBefore[index + 1]?
  return ⟨stop, columnsAtStop - columnsAtStart⟩

end PrettyFormula
