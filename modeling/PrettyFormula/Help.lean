-- What the program says about itself.

namespace PrettyFormula

def versionText : String := "sexpr-fmt 0.1.0\n"

def helpLines : List String := [
  "Usage: sexpr-fmt [OPTIONS] [FILES]...",
  "",
  "Arguments:",
  "  [FILES]...  Files holding one formula per line; stdin is read when none are given",
  "",
  "Options:",
  "  -w, --column-width <COLUMN_WIDTH>  [default: 80]",
  "  -i, --indent-width <INDENT_WIDTH>  [default: 2]",
  "  -s, --strict                       Reject formulas whose parentheses do not balance",
  "  -m, --markdown                     " ++
    "Print each formula under a numbered markdown heading, in a code block",
  "  -v, --verbose...                   ",
  "  -h, --help                         Print help",
  "  -V, --version                      Print version"]

def helpText : String :=
  String.join (helpLines.map (· ++ "\n"))

end PrettyFormula
