-- Log records: what a run reports beside its output, each with its level and
-- the part of the program that it comes from.
import PrettyFormula.Balance
import PrettyFormula.Placement

namespace PrettyFormula

/-! ## Levels -/

/-- How much a record matters, the most urgent level first. -/
inductive Level where
  | error
  | warn
  | info
  | debug
  | trace
  deriving DecidableEq, Repr

namespace Level

def label : Level → String
  | error => "ERROR"
  | warn => "WARN"
  | info => "INFO"
  | debug => "DEBUG"
  | trace => "TRACE"

/-- Less urgent levels rank higher. -/
def rank : Level → Nat
  | error => 0
  | warn => 1
  | info => 2
  | debug => 3
  | trace => 4

/-- The least urgent level that is shown. Asking once more for details shows more. -/
def ofVerbosity : Nat → Level
  | 0 => warn
  | 1 => debug
  | _ => trace

def column (level : Level) : String :=
  level.label.pushn ' ' (5 - level.label.length)

end Level

/-! ## Records -/

inductive Record where
  /-- A formula of this many tokens is about to be formatted. -/
  | formatting (tokens : Nat)
  | cramming (cram : Cram)
  | laidOut (tokens lines : Nat)
  /-- A line of this width is filled anew. -/
  | refilling (width : Nat)
  /-- A formula is left out, since its parentheses do not balance. -/
  | malformed (source : String) (line : Nat) (fault : Imbalance)
  | starting (formulas : Nat) (page : Page)
  | skipped (formulas : Nat)
  deriving DecidableEq, Repr

namespace Record

def level : Record → Level
  | formatting _ => .debug
  | cramming _ => .trace
  | laidOut _ _ => .debug
  | refilling _ => .debug
  | malformed _ _ _ => .error
  | starting _ _ => .info
  | skipped _ => .error

/-- The part of the program that a record comes from. -/
def origin : Record → String
  | cramming _ => "sexpr_fmt::layout"
  | laidOut _ _ => "sexpr_fmt::layout"
  | refilling _ => "sexpr_fmt::wrap"
  | _ => "sexpr_fmt"

def message : Record → String
  | formatting tokens => s!"formatting {tokens} tokens"
  | cramming c => s!"cramming subtree at token {c.index}, depth {c.depth}: {c.fit}"
  | laidOut tokens lines => s!"laid out {tokens} tokens into {lines} lines"
  | refilling width => s!"wrapping line of width {width}"
  | malformed source line fault => s!"{source}:{line}: {fault.message}"
  | starting formulas page =>
    s!"formatting {formulas} formulas with LayoutConfig \x7b column_width: {page.columns}, " ++
      s!"indent_width: {page.indent} \x7d"
  | skipped formulas => s!"{formulas} malformed formulas were skipped"

def line (r : Record) : String :=
  s!"{r.level.column} [{r.origin}] {r.message}"

/-- The record with the bare name of its level. -/
def entry (r : Record) : String :=
  s!"{r.level.label} {r.message}"

/-- A record is shown when it is at least as urgent as the level asked for. -/
def shownAt (level : Level) (r : Record) : Bool :=
  r.level.rank ≤ level.rank

end Record

end PrettyFormula
