-- The layout of a formula: what stands in front of each token. The tokens are
-- placed from left to right. An opening parenthesis whose group fits the page
-- is crammed: until it is closed, all stands on one line. Outside of crammed
-- groups each token that is not glued to a parenthesis starts a new line.
import PrettyFormula.Page
import PrettyFormula.Span.Table

namespace PrettyFormula

/-! ## Placed tokens -/

/-- What stands in front of a token. -/
inductive Separator where
  | glue
  | space
  | newline (margin : Nat)
  deriving DecidableEq, Repr

namespace Separator

def text : Separator → Text
  | glue => []
  | space => [PrettyFormula.space]
  | newline margin => '\n' :: List.replicate margin PrettyFormula.space

@[simp] theorem text_glue : glue.text = [] := rfl

@[simp] theorem text_space : space.text = [PrettyFormula.space] := rfl

@[simp] theorem text_newline (margin : Nat) :
    (newline margin).text = '\n' :: List.replicate margin PrettyFormula.space := rfl

end Separator

/-- The decision to cram the group of an opening parenthesis. -/
structure Cram where
  index : Nat
  depth : Nat
  fit : Nat
  deriving DecidableEq, Repr

structure Placement where
  separator : Separator
  token : Token
  cram : Option Cram := none
  deriving DecidableEq, Repr

def Placement.text (p : Placement) : Text :=
  p.separator.text ++ p.token.text

/-! ## The cursor -/

/-- What the tokens before the cursor mean for those behind it. -/
structure Cursor where
  depth : Nat := 0
  /-- The depth of the group that is being crammed, if one is. -/
  crammed : Option Nat := none
  /-- The next token is glued on: nothing is written yet, or an opening parenthesis is last. -/
  glued : Bool := true
  deriving DecidableEq, Repr

namespace Cursor

/-- What stands in front of an atom or an opening parenthesis. -/
def separator (page : Page) (c : Cursor) : Separator :=
  if c.glued then .glue
  else if c.crammed.isSome then .space
  else .newline (page.margin c.depth)

/-- Whether to cram the group of the opening parenthesis at a position. Inside a crammed group
there is nothing to decide. -/
def cram? (page : Page) (index : Nat) (span? : Option Span) (c : Cursor) : Option Cram :=
  if c.crammed.isSome then none
  else (span?.filter (page.fits c.depth)).map fun span =>
    { index, depth := c.depth, fit := page.fitLength c.depth span }

def adopt (cram : Option Cram) (c : Cursor) : Cursor :=
  { c with crammed := c.crammed.or (cram.map Cram.depth) }

def enter (c : Cursor) : Cursor :=
  { c with depth := c.depth + 1, glued := true }

def pass (c : Cursor) : Cursor :=
  { c with glued := false }

/-- The cursor behind a closing parenthesis. It ends the cramming of its own group. -/
def leave (c : Cursor) : Cursor where
  depth := c.depth - 1
  crammed := if c.crammed = some (c.depth - 1) then none else c.crammed
  glued := false

/-- Places the token at the next position. `spanAt` tells the span behind each position. -/
def place (page : Page) (spanAt : Nat → Option Span) (c : Cursor) :
    Token × Nat → Placement × Cursor
  | (.lparen, index) =>
    let cram := c.cram? page index (spanAt index)
    let c := c.adopt cram
    ({ separator := c.separator page, token := .lparen, cram }, c.enter)
  | (.rparen, _) => ({ separator := .glue, token := .rparen }, c.leave)
  | (.atom t, _) => ({ separator := c.separator page, token := .atom t }, c.pass)

end Cursor

/-! ## The layout -/

/-- The tokens placed so far, and the cursor behind them. -/
structure Placing where
  placed : Array Placement := #[]
  cursor : Cursor := {}

def Placing.push (page : Page) (spanAt : Nat → Option Span) (p : Placing) (t : Token × Nat) :
    Placing :=
  let (placement, cursor) := p.cursor.place page spanAt t
  { placed := p.placed.push placement, cursor }

/-- The tokens placed one after the other, with the spans as `spanAt` tells them. -/
def placing (page : Page) (spanAt : Nat → Option Span) (ts : List Token) : Placing :=
  ts.zipIdx.foldl (Placing.push page spanAt) {}

/-- The placed tokens, with the spans looked up in the table. -/
def place (page : Page) (ts : List Token) : List Placement :=
  (placing page (spanTable ts).span? ts).placed.toList

def render (ps : List Placement) : Text :=
  ps.flatMap Placement.text

/-- The layout of a token list. Its lines may still be too wide, and none ends the last one. -/
def layOut (page : Page) (ts : List Token) : Text :=
  render (place page ts)

def crams (page : Page) (ts : List Token) : List Cram :=
  (place page ts).filterMap Placement.cram

end PrettyFormula
