-- The page that formulas are set on: how many columns a line may stay below,
-- and how far each nesting level is indented. Counts of columns stop at the
-- largest 64 bit number.
import PrettyFormula.Span

namespace PrettyFormula

structure Page where
  /-- A line should be narrower than this. -/
  columns : UInt64 := 80
  /-- The spaces for each nesting level. -/
  indent : UInt64 := 2
  deriving DecidableEq, Repr

/-- The largest count of columns. -/
def maxColumns : Nat := UInt64.size - 1

/-- A count of columns, cut off at the largest one. -/
def cutOff (n : Nat) : Nat := min n maxColumns

namespace Page

/-- The spaces in front of a line at a nesting depth. -/
def margin (page : Page) (depth : Nat) : Nat :=
  cutOff (page.indent.toNat * depth)

/-- The columns that a group needs on one line: its margin and its tokens. The spaces between the
tokens are not counted. -/
def fitLength (page : Page) (depth : Nat) (span : Span) : Nat :=
  cutOff (page.indent.toNat * depth + span.width)

/-- A group fits when what it needs is narrower than the page. -/
def fits (page : Page) (depth : Nat) (span : Span) : Bool :=
  page.fitLength depth span < page.columns.toNat

/-- The cut-off never makes a group fit, since no page is wider than the largest count. -/
theorem fits_iff (page : Page) (depth : Nat) (span : Span) :
    page.fits depth span = true ↔
      page.indent.toNat * depth + span.width < page.columns.toNat := by
  have h := page.columns.toNat_lt_size
  rw [fits, decide_eq_true_iff, fitLength, cutOff, maxColumns]
  omega

end Page

end PrettyFormula
