-- File trees held in memory: what a run reads when its files are given as
-- bytes. A path is followed name by name, as a system follows it, and the first
-- name that leads nowhere tells why.
import PrettyFormula.Run

namespace PrettyFormula

/-- A file with its bytes, or a directory with its entries by name. -/
inductive Entry where
  | file (bytes : ByteArray)
  | directory (entries : List (String × Entry))

/-- A tree of entries, and the directory in it that a run starts in. -/
structure FileTree where
  root : List (String × Entry)
  /-- The names that lead from there to the directory that the run starts in. -/
  start : List String := []

/-- Puts a file among the entries, behind the directories that its path names. It takes the place
of an entry with its name. -/
def putFile (bytes : ByteArray) : List String → List (String × Entry) → List (String × Entry)
  | [], entries => entries
  | [name], entries => (name, .file bytes) :: entries.filter (·.1 != name)
  | name :: rest, entries =>
    let inner := match entries.lookup name with
      | some (.directory inner) => inner
      | _ => []
    (name, .directory (putFile bytes rest inner)) :: entries.filter (·.1 != name)

/-! ## Following a path -/

inductive Place where
  | file (bytes : ByteArray)
  /-- A directory, and the directories above it, the nearest first. -/
  | directory (entries : List (String × Entry)) (above : List (List (String × Entry)))

/-- The bytes that one name of a path may take. -/
def maxNameBytes : Nat := 255

/-- The bytes that a path may take. -/
def maxPathBytes : Nat := 4095

/-- One name of a path followed. Only a directory leads on, and nothing is above the topmost. -/
def Place.step : Place → String → Except ReadFailure Place
  | .file _, _ => .error .notDirectory
  | .directory here above, name =>
    if maxNameBytes < name.utf8ByteSize then .error .nameTooLong
    else if name = "" || name = "." then .ok (.directory here above)
    else if name = ".." then
      match above with
      | [] => .ok (.directory here [])
      | outer :: further => .ok (.directory outer further)
    else
      match here.lookup name with
      | none => .error .notFound
      | some (.file bytes) => .ok (.file bytes)
      | some (.directory entries) => .ok (.directory entries (here :: above))

namespace FileTree

/-- The place that some names lead to from the topmost directory. -/
def descend (tree : FileTree) (names : List String) : Except ReadFailure Place :=
  names.foldlM Place.step (.directory tree.root [])

/-- The place that a path leads to. With a slash in front it starts at the topmost directory, and
otherwise where the run starts. -/
def follow (tree : FileTree) (path : String) : Except ReadFailure Place :=
  if path.isEmpty then .error .notFound
  else if maxPathBytes < path.utf8ByteSize then .error .nameTooLong
  else
    let names := path.splitOn "/"
    tree.descend (if path.startsWith "/" then names else tree.start ++ names)

def read (tree : FileTree) (path : String) : Except ReadFailure ByteArray := do
  match ← tree.follow path with
  | .file bytes => .ok bytes
  | .directory _ _ => .error .isDirectory

def inputs (tree : FileTree) (stdin : ByteArray) : Inputs
  | .stdin => decode stdin
  | .file name => tree.read name >>= decode

end FileTree

end PrettyFormula
