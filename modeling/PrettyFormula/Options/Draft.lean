-- How a command line is read: argument by argument from left to right, and the
-- first fault ends the reading. A value that stands in an argument of its own,
-- and a file name, are only looked at when the next option or the end is
-- reached.
import PrettyFormula.Options.Basic

namespace PrettyFormula

/-! ## Numbers -/

/-- Reads decimal digits, with a plus in front of them or none, as a 64 bit number. -/
def readCount? (t : Text) : Option UInt64 :=
  let digits := match t with
    | '+' :: rest => rest
    | _ => t
  if digits.isEmpty || !digits.all Char.isDigit then none
  else
    let n := digits.foldl (fun n d => 10 * n + (d.toNat - '0'.toNat)) 0
    if n < UInt64.size then some n.toUInt64 else none

/-! ## Reading -/

/-- What is read but not looked at yet. -/
inductive Pending where
  | nothing
  | awaiting (s : Setting)
  | value (s : Setting) (t : Text)
  /-- File names, the last one first. -/
  | names (files : List Text)
  deriving DecidableEq, Repr

/-- The options as far as they are read. -/
structure Draft where
  /-- The file names, the last one first. -/
  files : List Text := []
  columns : Option UInt64 := none
  indent : Option UInt64 := none
  strict : Bool := false
  markdown : Bool := false
  verbosity : Nat := 0
  pending : Pending := .nothing
  /-- All that follows is a file name. -/
  namesOnly : Bool := false
  deriving DecidableEq, Repr

namespace Draft

def setting (d : Draft) : Setting → Option UInt64
  | .columnWidth => d.columns
  | .indentWidth => d.indent

def put (d : Draft) (n : UInt64) : Setting → Draft
  | .columnWidth => { d with columns := some n }
  | .indentWidth => { d with indent := some n }

def give (d : Draft) (s : Setting) (value : Text) : Except Stop Draft :=
  if (d.setting s).isSome then .error (.fault (.repeated (.setting s)))
  else match readCount? value with
    | none => .error (.fault (.unreadable s value))
    | some n => .ok (d.put n s)

def settle (d : Draft) : Except Stop Draft :=
  let settled := { d with pending := .nothing }
  match d.pending with
  | .nothing => .ok settled
  | .awaiting s => .error (.fault (.noValue s))
  | .value s t => settled.give s t
  | .names files =>
    if files.any List.isEmpty then .error (.fault .emptyName)
    else .ok { settled with files := files ++ d.files }

/-- Turns a switch on. Only details can be asked for more than once. -/
def turnOn (d : Draft) (s : Switch) : Except Stop Draft := do
  let d ← d.settle
  let repeated := .error (.fault (.repeated (.switch s)))
  match s with
  | .strict => if d.strict then repeated else return { d with strict := true }
  | .markdown => if d.markdown then repeated else return { d with markdown := true }
  | .verbose => return { d with verbosity := min (d.verbosity + 1) 255 }
  | .help => .error .help
  | .version => .error .version

/-- Reads the letters of an argument with one dash. The rest behind a letter that takes a number
is its value. An equals sign may stand between the two. -/
def letters (d : Draft) : Text → Except Stop Draft
  | [] => .ok d
  | letter :: rest =>
    match Choice.ofLetter? letter with
    | none => .error (.fault (.unknown ['-', letter]))
    | some (.switch s) => do (← d.turnOn s).letters rest
    | some (.setting s) => do
      let d ← d.settle
      match rest with
      | [] => return { d with pending := .awaiting s }
      | '=' :: value => d.give s value
      | value => d.give s value

/-- Reads an option by name, with the value behind its equals sign if it has one. -/
def named (d : Draft) (name : Text) (value : Option Text) : Except Stop Draft :=
  match Choice.ofName? name, value with
  | none, _ => .error (.fault (.unknown ('-' :: '-' :: name)))
  | some (.switch s), none => d.turnOn s
  | some (.switch s), some value => .error (.fault (.unwantedValue s value))
  | some (.setting s), none => do return { ← d.settle with pending := .awaiting s }
  | some (.setting s), some value => do (← d.settle).give s value

def file (d : Draft) (name : Text) : Except Stop Draft :=
  match d.pending with
  | .names files => .ok { d with pending := .names (name :: files) }
  | _ => do return { ← d.settle with pending := .names [name] }

/-- Reads an argument that is no option: the value that is waited for, or a file name. -/
def plain (d : Draft) (t : Text) : Except Stop Draft :=
  match d.pending with
  | .awaiting s => .ok { d with pending := .value s t }
  | _ => d.file t

/-- Reads an argument. Two dashes alone end the options, and one dash alone is a file name. -/
def argument (d : Draft) (t : Text) : Except Stop Draft :=
  if d.namesOnly then d.file t
  else match t with
    | ['-', '-'] => .ok { d with namesOnly := true }
    | '-' :: '-' :: rest =>
      d.named (rest.takeWhile (· != '=')) (rest.dropWhile (· != '=')).tail?
    | '-' :: letter :: rest => d.letters (letter :: rest)
    | t => d.plain t

def options (d : Draft) : Options where
  files := d.files.reverse.map String.ofList
  style := {
    page := {
      columns := d.columns.getD ({} : Page).columns
      indent := d.indent.getD ({} : Page).indent }
    strict := d.strict
    markdown := d.markdown }
  verbosity := d.verbosity

end Draft

/-- The options of a command line, or why there are none. -/
def Options.parse (args : List String) : Except Stop Options := do
  let draft ← args.foldlM (fun d arg => d.argument arg.toList) ({} : Draft)
  return (← draft.settle).options

end PrettyFormula
