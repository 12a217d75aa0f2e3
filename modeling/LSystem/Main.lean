import LSystem.Cli.Command

/-!
# The program

Reads the input, lets the command prepare what is to be written, writes it,
and prints what the command shows.  All decisions are the command's.
-/

namespace LSystem.Cli

/-- An error of the system as the command knows it. -/
def fileError : IO.Error → FileError
  | .noFileOrDirectory _ _ _ => .notFound
  | .inappropriateType _ 20 _ => .notDirectory
  | .inappropriateType _ 21 _ => .isDirectory
  | .invalidArgument _ 36 _ => .nameTooLong
  | .resourceExhausted _ 28 _ => .noSpace
  | .noSuchThing _ 6 _ => .noDevice
  | e => .other e.toString

/-- An action with its error as a value. -/
def attempt {α : Type} (action : IO α) : IO (Except FileError α) := do
  match ← action.toBaseIO with
  | .ok a => return .ok a
  | .error e => return .error (fileError e)

/-- A seed that nobody chose. -/
def freshSeed : IO UInt64 := do
  let bytes ← IO.getRandomBytes 8
  return bytes.foldl (fun seed byte => seed * 256 + byte.toUInt64) 0

/-- The command on the files of the system. -/
def executeOnSystem (args : Arguments) (filter : LogFilter) : IO Status := do
  let contents ← attempt (IO.FS.readBinFile args.input)
  let (result, shown) :=
    (prepare args (filter.mayShow .debug) (← freshSeed) contents).outcome #[]
  let (status, shown) ← match result with
    | .error _ => pure (.failure, shown)
    | .ok text => do
      let written ← attempt (IO.FS.writeFile args.outputPath text)
      let (result, shown) := (conclude args written).outcome shown
      pure (if result.isOk then .success else .failure, shown)
  for text in shown.filterMap (Shown.text? filter) do
    IO.print text
  return status

/-- How the command is called. -/
def usage : String :=
  "usage: " ++ commandName ++ " INPUT [-o|--output FILE] [--format svg|json] " ++
    "[--seed N] [--scale X] [--max-symbols N] [--" ++ printFlag ++ "]"

end LSystem.Cli

open LSystem.Cli

def main (words : List String) : IO UInt32 := do
  let status ← match readRequest words (← IO.getEnv "RUST_LOG") with
    | .ok (args, filter) => executeOnSystem args filter
    | .error status => do
      if status = .usage then
        IO.eprintln usage
      pure status
  return .ofNat status.code
