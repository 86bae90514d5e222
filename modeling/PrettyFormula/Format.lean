-- Formatting a formula: its tokens are laid out on the page, and the lines that
-- are still too wide are filled anew. Every line of the result ends in a newline.
import PrettyFormula.Filling
import PrettyFormula.Record

namespace PrettyFormula

/-! ## Tokens on a page -/

/-- The tokens laid out, with no line wider than need be. -/
def formatTokens (page : Page) (ts : List Token) : Text :=
  refill page.columns.toNat (layOut page ts)

/-- What laying out the tokens reports. -/
def layoutLog (page : Page) (ts : List Token) : List Record :=
  (crams page ts).map .cramming ++ [.laidOut ts.length (lines (layOut page ts)).length]

def refillLog (page : Page) (t : Text) : List Record :=
  (wideLines page.columns.toNat t).map fun line => .refilling line.length

def formatTokensLog (page : Page) (ts : List Token) : List Record :=
  layoutLog page ts ++ refillLog page (layOut page ts)

/-! ## Formulas on a page -/

/-- The formula of a text, formatted. A formula that does not balance is formatted too. -/
def format (page : Page) (t : Text) : Text :=
  formatTokens page (Token.scan t)

def formatLog (page : Page) (t : Text) : List Record :=
  .formatting (Token.scan t).length :: formatTokensLog page (Token.scan t)

def formatBalanced (page : Page) (t : Text) : Except Imbalance Text :=
  match imbalance? (Token.scan t) with
  | some fault => .error fault
  | none => .ok (formatTokens page (Token.scan t))

def formatBalancedLog (page : Page) (t : Text) : List Record :=
  match imbalance? (Token.scan t) with
  | some _ => []
  | none => formatTokensLog page (Token.scan t)

end PrettyFormula
