-- The options of a command line: what they are called, what they ask for, and
-- what can be wrong with them.
import PrettyFormula.Batch

namespace PrettyFormula

/-- What a command line asks for. -/
structure Options where
  files : List String := []
  style : Style := {}
  /-- How many times more details were asked for, up to 255. -/
  verbosity : Nat := 0
  deriving DecidableEq, Repr

/-! ## The options by name -/

/-- An option that takes a number. -/
inductive Setting where
  | columnWidth
  | indentWidth
  deriving DecidableEq, Repr

/-- An option that takes nothing. -/
inductive Switch where
  | strict
  | markdown
  | verbose
  | help
  | version
  deriving DecidableEq, Repr

inductive Choice where
  | setting (s : Setting)
  | switch (s : Switch)
  deriving DecidableEq, Repr

namespace Choice

/-- The letter of an option, written behind one dash. -/
def letter : Choice → Char
  | setting .columnWidth => 'w'
  | setting .indentWidth => 'i'
  | switch .strict => 's'
  | switch .markdown => 'm'
  | switch .verbose => 'v'
  | switch .help => 'h'
  | switch .version => 'V'

/-- The name of an option, written in full behind two dashes. -/
def name : Choice → String
  | setting .columnWidth => "column-width"
  | setting .indentWidth => "indent-width"
  | switch .strict => "strict"
  | switch .markdown => "markdown"
  | switch .verbose => "verbose"
  | switch .help => "help"
  | switch .version => "version"

def all : List Choice :=
  [setting .columnWidth, setting .indentWidth, switch .strict, switch .markdown, switch .verbose,
    switch .help, switch .version]

def ofLetter? (c : Char) : Option Choice :=
  all.find? fun choice => choice.letter == c

def ofName? (n : Text) : Option Choice :=
  all.find? fun choice => choice.name.toList == n

theorem mem_all (choice : Choice) : choice ∈ all := by
  rcases choice with s | s <;> cases s <;> decide

theorem ofLetter?_letter (choice : Choice) : ofLetter? choice.letter = some choice := by
  rcases choice with s | s <;> cases s <;> decide

theorem ofName?_name (choice : Choice) : ofName? choice.name.toList = some choice := by
  rcases choice with s | s <;> cases s <;> decide

end Choice

/-! ## What ends the reading early -/

inductive Fault where
  | unknown (argument : Text)
  /-- The value of the option is not a number, or too large. -/
  | unreadable (setting : Setting) (value : Text)
  | noValue (setting : Setting)
  | emptyName
  | repeated (choice : Choice)
  | unwantedValue (switch : Switch) (value : Text)
  deriving DecidableEq, Repr

def Fault.message : Fault → String
  | unknown argument => s!"there is no option {String.ofList argument}"
  | unreadable setting value =>
    s!"--{(Choice.setting setting).name} takes a number, and {String.ofList value} is none"
  | noValue setting => s!"--{(Choice.setting setting).name} needs a number"
  | emptyName => "a file name is empty"
  | repeated choice => s!"--{choice.name} is given twice"
  | unwantedValue switch value =>
    s!"--{(Choice.switch switch).name} takes no value, not even {String.ofList value}"

/-- Why no options come out: help or the version is asked for, or the command line is at fault. -/
inductive Stop where
  | help
  | version
  | fault (f : Fault)
  deriving DecidableEq, Repr

end PrettyFormula
