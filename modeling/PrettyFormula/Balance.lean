-- Balance: whether every parenthesis of a formula has its partner, and if
-- not, what is wrong first.
import PrettyFormula.Token

namespace PrettyFormula

/-- What is wrong with the parentheses of a token list. -/
inductive Imbalance where
  /-- The closing parenthesis at this position closes nothing. -/
  | strayClose (index : Nat)
  /-- This many parentheses are open at the end. -/
  | unclosed (count : Nat)
  deriving DecidableEq, Repr

def Imbalance.message : Imbalance → String
  | strayClose index => s!"unexpected `)` at token {index}: no parenthesis is open"
  | unclosed count => s!"input ended with {count} unclosed `(`"

/-- The first fault of the tokens from position `index` on, with `depth` parentheses open
before them. -/
def imbalanceFrom (depth index : Nat) : List Token → Option Imbalance
  | [] => if depth = 0 then none else some (.unclosed depth)
  | .lparen :: ts => imbalanceFrom (depth + 1) (index + 1) ts
  | .rparen :: ts =>
    match depth with
    | 0 => some (.strayClose index)
    | depth + 1 => imbalanceFrom depth (index + 1) ts
  | .atom _ :: ts => imbalanceFrom depth (index + 1) ts

/-- The first fault of a token list, if it has one. -/
def imbalance? (ts : List Token) : Option Imbalance :=
  imbalanceFrom 0 0 ts

/-- The parentheses of a token list pair up. -/
def Balanced (ts : List Token) : Prop := imbalance? ts = none

instance (ts : List Token) : Decidable (Balanced ts) :=
  inferInstanceAs (Decidable (imbalance? ts = none))

end PrettyFormula
