import LSystem.Text.Split

/-!
# Paths

A path is names with slashes between them.  The extension of its last name is
what follows the last dot, unless the name starts with that dot.
-/

namespace LSystem.Cli

open Text

/-- The way that a path describes. -/
structure Route where
  /-- Whether it starts at the root of all files. -/
  fromRoot : Bool
  /-- The names on the way; slashes in excess add none. -/
  names : List String
  /-- Whether a slash at the end asks for a directory. -/
  toDirectory : Bool
  deriving DecidableEq, Repr

/-- The way of a path. -/
def Route.ofPath (path : String) : Route where
  fromRoot := path.startsWith "/"
  names := ((splitAt '/' path.toList).filter fun name => !name.isEmpty).map String.ofList
  toDirectory := path.endsWith "/"

/-- Whether a name leads to a directory by its form: one dot stays where it
is, two dots lead to the directory above. -/
def isDots (name : String) : Bool := name == "." || name == ".."

/-- A name up to the dot before its extension, with the dot, or all of a name
that has no extension. -/
def untilExtension (name : List Char) : List Char :=
  match (splitLast '.' name).1 with
  | [] | ['.'] => name
  | kept => kept

/-- A name with an extension added; a dot at its end counts as the dot before
it.  Names that lead to a directory take none. -/
def addExtension (name : List Char) (extension : String) : String :=
  if isDots (String.ofList name) then String.ofList name
  else if name.getLast? = some '.' then String.ofList name ++ extension
  else String.ofList name ++ "." ++ extension

/-- A path with the extension of its last name replaced, or added where it has
none.  The old extension goes first, so that of a name such as `..a` two dots
are left, which take no new one. -/
def withExtension (path extension : String) : String :=
  let (directory, name) := splitLast '/' path.toList
  String.ofList directory ++ addExtension (untilExtension name) extension

end LSystem.Cli
