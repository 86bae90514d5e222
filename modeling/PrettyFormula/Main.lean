-- The program: reads the inputs that the command line asks for, and hands out
-- what the run leaves behind.
import PrettyFormula.Run

namespace PrettyFormula

/-- The failure behind an error of the system, known by its code or the negative of its code. -/
def ReadFailure.ofCode (code : UInt32) (details : String) : ReadFailure :=
  let code := min code (0 - code)
  if code = 2 then .notFound
  else if code = 20 then .notDirectory
  else if code = 21 then .isDirectory
  else if code = 36 then .nameTooLong
  else .other s!"{details} (os error {code})"

def ReadFailure.ofError : IO.Error → ReadFailure
  | .noFileOrDirectory _ code details => ofCode code details
  | .inappropriateType _ code details => ofCode code details
  | .permissionDenied _ code details => ofCode code details
  | .invalidArgument _ code details => ofCode code details
  | .resourceExhausted _ code details => ofCode code details
  | .hardwareFault code details => ofCode code details
  | .otherError code details => ofCode code details
  | error => .other (toString error)

/-- Reads a source, and tells why if it cannot be read. -/
def readSource (source : Source) : IO (Except ReadFailure Text) := do
  try
    let bytes ← match source with
      | .stdin => (← IO.getStdin).readBinToEnd
      | .file name => IO.FS.readBinFile name
    return decode bytes
  catch error => return .error (.ofError error)

/-- Reads the sources that the command line asks for. -/
def readInputs (args : List String) : IO Inputs := do
  let sources := match Options.parse args with
    | .ok o => o.sources
    | .error _ => []
  let contents ← sources.mapM fun source => return (source, ← readSource source)
  return fun source => (contents.lookup source).getD (.error .notFound)

end PrettyFormula

def main (args : List String) : IO UInt32 := do
  let outcome := PrettyFormula.runCommand args (← PrettyFormula.readInputs args)
  IO.eprint (String.ofList outcome.stderr)
  IO.print (String.ofList outcome.stdout)
  return outcome.exit
