-- The lines of a text. A newline ends a line, and so does a carriage return
-- directly before it. What follows the last newline is a line too, unless it
-- is empty; a carriage return at its end belongs to it.
import PrettyFormula.Text.Blank

namespace PrettyFormula

/-- The line without the carriage return at its end, if it has one. -/
def dropReturn (l : Text) : Text :=
  if l.getLast? = some '\r' then l.dropLast else l

def lines (t : Text) : List Text :=
  let parts := t.splitOn '\n'
  parts.dropLast.map dropReturn ++ parts.getLast?.toList.filter fun l => !l.isEmpty

/-- The lines joined by newlines, with none after the last. -/
def unlines (ls : List Text) : Text :=
  List.intercalate ['\n'] ls

/-! ## Lines and newlines -/

/-- The lines before a newline do not depend on what follows it. -/
theorem lines_append_newline (a b : Text) :
    lines (a ++ '\n' :: b) = lines (a ++ ['\n']) ++ lines b := by
  have hb : b.splitOn '\n' ≠ [] := List.splitOn_ne_nil _ _
  simp [lines, List.splitOn_append_cons_self, List.dropLast_append_of_ne_nil hb,
    List.getLast?_append, List.getLast?_eq_some_getLast hb]

end PrettyFormula
