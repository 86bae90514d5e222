-- Batches: the formulas of some texts, one formula on each line that is not
-- blank, printed one after the other. Where formulas have to balance, those
-- that do not are left out and reported.
import PrettyFormula.Format
import PrettyFormula.Listing

namespace PrettyFormula

/-! ## Formulas in a text -/

/-- A formula and where it stands. -/
structure Formula where
  /-- The name of the text that it comes from. -/
  source : String
  /-- The number of its line, from 1. -/
  line : Nat
  text : Text
  deriving DecidableEq, Repr

/-- The formulas of a text: its lines that are not blank. -/
def formulasOf (source : String) (t : Text) : List Formula :=
  ((lines t).zipIdx 1).filterMap fun (text, line) =>
    if blankText text then none else some { source, line, text }

/-! ## Printing a batch -/

structure Style where
  page : Page := {}
  /-- A formula that does not balance is left out. -/
  strict : Bool := false
  /-- Each formula is printed as a listing. -/
  markdown : Bool := false
  deriving DecidableEq, Repr

/-- The formula formatted, or what keeps it out. -/
def Formula.formatted (style : Style) (f : Formula) : Except Imbalance Text :=
  if style.strict then formatBalanced style.page f.text else .ok (format style.page f.text)

def Formula.log (style : Style) (f : Formula) : List Record :=
  match f.formatted style with
  | .error fault => [.malformed f.source f.line fault]
  | .ok _ => if style.strict then formatBalancedLog style.page f.text else formatLog style.page f.text

/-- The formulas that are printed, formatted, in order. -/
def bodies (style : Style) (fs : List Formula) : List Text :=
  fs.filterMap fun f => (f.formatted style).toOption

/-- The batch as it is printed. Listings are numbered from 1 over the formulas that are printed. -/
def print (style : Style) (fs : List Formula) : Text :=
  if style.markdown then ((bodies style fs).zipIdx 1).flatMap fun (body, n) => listing n body
  else (bodies style fs).flatten

/-- The number of formulas that are left out. -/
def leftOut (style : Style) (fs : List Formula) : Nat :=
  fs.countP fun f => (f.formatted style).toOption.isNone

/-- What a batch reports, formula by formula. -/
def printLog (style : Style) (fs : List Formula) : List Record :=
  fs.flatMap (Formula.log style)

end PrettyFormula
