-- A run of the program: from the command line and what can be read to what is
-- printed, what is reported and how the run ends. All inputs are read before
-- anything is printed, so a run that cannot read one of them prints nothing.
import PrettyFormula.Help
import PrettyFormula.Options.Draft

namespace PrettyFormula

/-! ## Reading inputs -/

inductive ReadFailure where
  | notFound
  | isDirectory
  | notDirectory
  | nameTooLong
  | notText
  /-- Any other failure, in the words of the system. -/
  | other (message : String)
  deriving DecidableEq, Repr

def ReadFailure.message : ReadFailure → String
  | notFound => "No such file or directory (os error 2)"
  | isDirectory => "Is a directory (os error 21)"
  | notDirectory => "Not a directory (os error 20)"
  | nameTooLong => "File name too long (os error 36)"
  | notText => "stream did not contain valid UTF-8"
  | other message => message

inductive Source where
  | stdin
  | file (name : String)
  deriving DecidableEq, Repr

/-- The name that the formulas of a source carry. -/
def Source.label : Source → String
  | stdin => "<stdin>"
  | file name => name

/-- The name of a source where it cannot be read. -/
def Source.described : Source → String
  | stdin => "stdin"
  | file name => name

/-- What reading gives, for each source. -/
abbrev Inputs := Source → Except ReadFailure Text

def decode (bytes : ByteArray) : Except ReadFailure Text :=
  match String.fromUTF8? bytes with
  | some s => .ok s.toList
  | none => .error .notText

/-- The sources of the formulas: the files, or standard input if there are none. -/
def Options.sources (o : Options) : List Source :=
  if o.files.isEmpty then [.stdin] else o.files.map .file

def formulasFrom (inputs : Inputs) (source : Source) :
    Except (Source × ReadFailure) (List Formula) :=
  match inputs source with
  | .ok t => .ok (formulasOf source.label t)
  | .error failure => .error (source, failure)

/-- The formulas of all sources in order, or the first source that cannot be read. -/
def Options.formulas (o : Options) (inputs : Inputs) :
    Except (Source × ReadFailure) (List Formula) := do
  return (← o.sources.mapM (formulasFrom inputs)).flatten

/-! ## The run -/

structure Outcome where
  /-- The exit code: 0 for success, 1 for failure, 2 for a command line at fault. -/
  exit : UInt32
  stdout : Text := []
  stderr : Text := []
  deriving DecidableEq

/-- Reports as they are written: a newline stands after each one. A report that names a source may
run over several lines. -/
def written (reports : List String) : Text :=
  reports.flatMap fun report => report.toList ++ ['\n']

def Outcome.unread (source : Source) (failure : ReadFailure) : Outcome where
  exit := 1
  stderr := written [s!"Error: failed to read formulas from {source.described}", "", "Caused by:",
    s!"    {failure.message}"]

def runLog (o : Options) (fs : List Formula) : List Record :=
  let n := leftOut o.style fs
  .starting fs.length o.style.page :: printLog o.style fs ++ if n = 0 then [] else [.skipped n]

/-- The outcome once all formulas are read. The run fails if some of them are left out. -/
def Outcome.printed (o : Options) (fs : List Formula) : Outcome where
  exit := if leftOut o.style fs = 0 then 0 else 1
  stdout := print o.style fs
  stderr :=
    written (((runLog o fs).filter (Record.shownAt (.ofVerbosity o.verbosity))).map Record.line)

def run (o : Options) (inputs : Inputs) : Outcome :=
  match o.formulas inputs with
  | .ok fs => .printed o fs
  | .error (source, failure) => .unread source failure

def runCommand (args : List String) (inputs : Inputs) : Outcome :=
  match Options.parse args with
  | .ok o => run o inputs
  | .error .help => { exit := 0, stdout := helpText.toList }
  | .error .version => { exit := 0, stdout := versionText.toList }
  | .error (.fault f) =>
    { exit := 2,
      stderr := written [s!"error: {f.message}", "", "For more information, try '--help'."] }

end PrettyFormula
