import LSystem.Bindings
import LSystem.Cli.Path

/-!
# Trees of files

The files that a command can reach are a tree, given by the paths of its nodes
from the root down.  A directory is there when it is a node itself or when a
node is below it.  Paths are followed name by name; the first name that cannot
be followed decides what is wrong with a path.

Links and permissions are left out of the trees: two paths with different names
lead to different nodes, and every file can be read and written.

What is put into a tree can be found there, which is `node?_put`.
-/

namespace LSystem.Cli

/-- Why a file cannot be read or written. -/
inductive FileError where
  | notFound
  | isDirectory
  | notDirectory
  | nameTooLong
  | noSpace
  | noDevice
  /-- Contents that are no UTF-8. -/
  | notText
  /-- An error of the system in its own words. -/
  | other (message : String)
  deriving DecidableEq, Repr

/-- The message of an error. -/
def FileError.message : FileError → String
  | .notFound => "No such file or directory (os error 2)"
  | .isDirectory => "Is a directory (os error 21)"
  | .notDirectory => "Not a directory (os error 20)"
  | .nameTooLong => "File name too long (os error 36)"
  | .noSpace => "No space left on device (os error 28)"
  | .noDevice => "No such device or address (os error 6)"
  | .notText => "stream did not contain valid UTF-8"
  | .other message => message

/-- The most bytes that a name has. -/
def maxNameBytes : Nat := 255

/-- The most bytes that a path has. -/
def maxPathBytes : Nat := 4095

/-- Nodes that look like files and hold nothing. -/
inductive Device where
  /-- Takes all that is written. -/
  | null
  /-- Has no room for anything. -/
  | full
  /-- Shows what is written among what the command shows. -/
  | display
  /-- Stands for a device that is not there. -/
  | absent
  deriving DecidableEq, Repr

/-- What a name can stand for. -/
inductive Node where
  | directory
  | file (contents : ByteArray)
  | device (device : Device)

/-- What can be read from a node. -/
def Node.contents : Node → Except FileError ByteArray
  | .directory => .error .isDirectory
  | .file contents => .ok contents
  | .device .absent => .error .noDevice
  | .device _ => .ok .empty

/-- Nodes by their paths, and the directory where paths start that do not start
at the root.  A directory is its names, the last one first. -/
structure FileTree where
  here : List String
  nodes : Bindings Node

/-- Where something can be written. -/
inductive Target where
  /-- A file, new or not, by its names, the last one first. -/
  | file (names : List String)
  | device (device : Device)
  deriving DecidableEq, Repr

namespace FileTree

/-- The path that leads along some names, the last one first, from the root. -/
def pathOf (names : List String) : String := String.intercalate "/" names.reverse

/-- What is at some names. -/
def node? (t : FileTree) (names : List String) : Option Node :=
  match t.nodes.find? (pathOf names) with
  | some node => some node
  | none =>
    if t.nodes.entries.any fun entry => entry.1.startsWith (pathOf names ++ "/") then
      some .directory
    else none

/-- What has a name in a directory. -/
def look (t : FileTree) (directory : List String) (name : String) :
    Except FileError (Option Node) :=
  if maxNameBytes < name.utf8ByteSize then .error .nameTooLong
  else .ok (t.node? (name :: directory))

/-- One directory further along a path.  What is above the root is the root. -/
def enter (t : FileTree) (directory : List String) (name : String) :
    Except FileError (List String) :=
  if name == "." then .ok directory
  else if name == ".." then .ok (directory.drop 1)
  else do
    match ← t.look directory name with
    | some .directory => return name :: directory
    | some _ => throw .notDirectory
    | none => throw .notFound

/-- Where a path leads: its last name and the directory that holds it, or
nothing where the path means a directory by its form. -/
def follow (t : FileTree) (route : Route) : Except FileError (Option (List String × String)) :=
  match route.names.reverse with
  | [] => .ok none
  | last :: before => do
    let directory ← before.reverse.foldlM t.enter (if route.fromRoot then [] else t.here)
    return if isDots last then none else some (directory, last)

/-- The way of a path that is not too long. -/
def routeOf (path : String) : Except FileError Route :=
  if maxPathBytes < path.utf8ByteSize then .error .nameTooLong else .ok (.ofPath path)

/-- The contents of the file at a path. -/
def read (t : FileTree) (path : String) : Except FileError ByteArray := do
  let route ← routeOf path
  match ← t.follow route with
  | none => throw .isDirectory
  | some (directory, name) =>
    match ← t.look directory name with
    | none => throw .notFound
    | some .directory => throw .isDirectory
    | some node => if route.toDirectory then throw .notDirectory else node.contents

/-- Where something is written that is written to a path.  A slash at the end
asks for a directory, whatever is there. -/
def target (t : FileTree) (path : String) : Except FileError Target := do
  let route ← routeOf path
  match ← t.follow route with
  | none => throw .isDirectory
  | some (directory, name) =>
    if route.toDirectory then throw .isDirectory
    else match ← t.look directory name with
      | some .directory => throw .isDirectory
      | some (.device device) => return .device device
      | some (.file _) | none => return .file (name :: directory)

/-- The tree with a file at some names, and nothing else changed. -/
def put (t : FileTree) (names : List String) (contents : ByteArray) : FileTree :=
  { t with nodes := t.nodes.insert (pathOf names) (.file contents) }

/-- What was put at some names is there. -/
theorem node?_put (t : FileTree) (names : List String) (contents : ByteArray) :
    (t.put names contents).node? names = some (.file contents) := by
  simp [node?, put, Bindings.find?_insert]

/-- The tree after something was written to a path.  Devices hold nothing, so
that writing to one that takes it changes no tree. -/
def write (t : FileTree) (path : String) (contents : ByteArray) : Except FileError FileTree := do
  match ← t.target path with
  | .file names => return t.put names contents
  | .device .full => throw .noSpace
  | .device .absent => throw .noDevice
  | .device .null | .device .display => return t

/-- Whether what is written to a path is shown. -/
def displays (t : FileTree) (path : String) : Bool :=
  match t.target path with
  | .ok (.device .display) => true
  | _ => false

/-- The directories and devices that every system has. -/
def usual : List (String × Node) :=
  (["bin", "boot", "dev", "dev/pts", "dev/shm", "etc", "home", "lib", "lib64", "media", "mnt",
    "opt", "proc", "root", "run", "sbin", "srv", "sys", "tmp", "usr", "usr/bin", "usr/include",
    "usr/lib", "usr/local", "usr/sbin", "usr/share", "var", "var/cache", "var/lib", "var/log",
    "var/tmp"].map fun path => (path, .directory)) ++
  [("dev/null", .device .null), ("dev/zero", .device .null), ("dev/random", .device .null),
    ("dev/urandom", .device .null), ("dev/full", .device .full), ("dev/tty", .device .absent),
    ("dev/stdin", .device .null), ("dev/stdout", .device .display), ("dev/stderr", .device .null)]

/-- A directory of its own with some files in it, by their paths from there,
which a usual system holds two names below its root.  The last of the names is
empty, so that no path from elsewhere leads into the directory. -/
def ofFiles (files : List (String × ByteArray)) : FileTree :=
  let here := ["", "tmp"]
  let place := fun path => ((Route.ofPath path).names.filter (· != ".")).reverse ++ here
  files.foldl (fun t (path, contents) => t.put (place path) contents)
    { here, nodes := ⟨usual ++ [(pathOf here, .directory)]⟩ }

/-- The files in the directory where paths start, by the rest of their paths. -/
def filesHere (t : FileTree) : List (String × ByteArray) :=
  t.nodes.entries.filterMap fun (path, node) =>
    match node, path.dropPrefix? (pathOf t.here ++ "/") with
    | .file contents, some name => some (name.toString, contents)
    | _, _ => none

end FileTree

end LSystem.Cli
