-- Spans: how far the group behind an opening parenthesis reaches, and how wide
-- its tokens are together. A group that is never closed reaches to the end.
import PrettyFormula.Token

namespace PrettyFormula

/-- The tokens behind an opening parenthesis, up to and with the parenthesis that closes it. -/
structure Span where
  /-- The position after the last token, counted in the whole list. -/
  stop : Nat
  /-- The columns of the tokens, without any space between them. -/
  width : Nat
  deriving DecidableEq, Repr

/-- Reads on to the parenthesis that closes the group. Before position `index`, `depth` inner
groups are open and `width` columns are counted. -/
def Span.seek (index depth width : Nat) : List Token → Span
  | [] => ⟨index, width⟩
  | .lparen :: ts => seek (index + 1) (depth + 1) (width + Token.lparen.width) ts
  | .rparen :: ts =>
    match depth with
    | 0 => ⟨index + 1, width + Token.rparen.width⟩
    | depth + 1 => seek (index + 1) depth (width + Token.rparen.width) ts
  | .atom t :: ts => seek (index + 1) depth (width + (Token.atom t).width) ts

/-- The span that starts at a position, just behind an opening parenthesis. Behind the last token
it is empty. -/
def spanFrom (ts : List Token) (start : Nat) : Span :=
  Span.seek (min start ts.length) 0 0 (ts.drop start)

end PrettyFormula
