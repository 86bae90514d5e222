-- Tokens: the parentheses and atoms of a formula, and how a text is read as
-- tokens. Every text reads as some list of tokens, balanced or not.
import PrettyFormula.Text.Words

namespace PrettyFormula

/-- A parenthesis, or an atom: whatever stands between blanks and parentheses. -/
inductive Token where
  | lparen
  | rparen
  | atom (text : Text)
  deriving DecidableEq, Repr

namespace Token

def text : Token → Text
  | lparen => ['(']
  | rparen => [')']
  | atom t => t

@[simp] theorem text_lparen : lparen.text = ['('] := rfl

@[simp] theorem text_rparen : rparen.text = [')'] := rfl

@[simp] theorem text_atom (t : Text) : (atom t).text = t := rfl

def width (t : Token) : Nat := t.text.length

/-! ## Reading tokens

A text is read from its last character to its first, so that each character is
put in front of the atom that it belongs to. -/

/-- What a reading holds: the atom that the next character may extend, and the tokens after it. -/
structure Reading where
  atom : Text := []
  after : List Token := []

/-- The tokens read so far. An atom is a token as soon as it holds a character. -/
def Reading.tokens (r : Reading) : List Token :=
  if r.atom.isEmpty then r.after else .atom r.atom :: r.after

/-- Reads the character in front. Parentheses and blanks end an atom. -/
def Reading.extend (c : Char) (r : Reading) : Reading :=
  if c = '(' then { after := .lparen :: r.tokens }
  else if c = ')' then { after := .rparen :: r.tokens }
  else if isBlank c then { after := r.tokens }
  else { r with atom := c :: r.atom }

def reading (t : Text) : Reading :=
  t.foldr Reading.extend {}

def scan (t : Text) : List Token :=
  (reading t).tokens

@[simp] theorem scan_nil : scan [] = [] := rfl

@[simp] theorem scan_cons_lparen (t : Text) : scan ('(' :: t) = .lparen :: scan t := by
  simp [scan, reading, Reading.extend, Reading.tokens]

@[simp] theorem scan_cons_rparen (t : Text) : scan (')' :: t) = .rparen :: scan t := by
  simp [scan, reading, Reading.extend, Reading.tokens]

/-- A blank in front adds no token. -/
@[simp] theorem scan_cons_blank {c : Char} (hc : isBlank c = true) (t : Text) :
    scan (c :: t) = scan t := by
  have h₁ : c ≠ '(' := by rintro rfl; simp at hc
  have h₂ : c ≠ ')' := by rintro rfl; simp at hc
  simp [scan, reading, Reading.extend, Reading.tokens, h₁, h₂, hc]

/-- The tokens of a text are written with single spaces between them. -/
def spaced (ts : List Token) : Text :=
  unwords (ts.map text)

end Token

end PrettyFormula
