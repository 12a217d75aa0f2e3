import LSystem.Cli.Arguments
import LSystem.Cli.FileTree
import LSystem.Cli.LogFilter
import LSystem.Development
import LSystem.Output.Json
import LSystem.Output.Svg
import LSystem.Derivation.History

/-!
# The command

The command reads a source, develops and draws it, and writes the drawing to
one file.  It tells of every stage in the log, also when the stage fails; the
first failure ends it, before anything is written.

`prepare` is all of it between reading and writing and touches no files.
`command` is the whole on a `FileTree`.
-/

namespace LSystem.Cli

open Syntax Randomness

/-- The name of the command. -/
def commandName : String := "lsys"

/-- What a command shows, in order. -/
inductive Shown where
  | entry (e : LogEntry)
  /-- A line of its own, whatever the log shows. -/
  | line (text : String)
  /-- A text as it is, which need not end its last line. -/
  | raw (text : String)

/-- Why a command fails. -/
inductive CommandError where
  | read (path : String) (cause : FileError)
  | stage (cause : Failure)
  | write (path : String) (cause : FileError)

/-- The message of an error. -/
def CommandError.message : CommandError → String
  | .read path cause => "Failed to read " ++ path ++ ": " ++ cause.message
  | .stage cause => cause.message
  | .write path cause => "Failed to write " ++ path ++ ": " ++ cause.message

/-- Commands show something and may fail. -/
abbrev CommandM := ExceptT CommandError (StateM (Array Shown))

/-- Show something. -/
def tell (shown : Shown) : CommandM Unit := modify fun all => all.push shown

/-- An entry for everyone who follows the command. -/
def inform (message : String) : CommandM Unit := tell (.entry ⟨.info, .command, message, []⟩)

/-- Entries for whoever looks closer. -/
def tellAll (entries : List LogEntry) : CommandM Unit :=
  modify fun all => all ++ (entries.map Shown.entry).toArray

/-- A stage by its name, what it has to tell, and its result. -/
def stage {α : Type} (name : String) (entries : List LogEntry) (result : Except Failure α) :
    CommandM α := do
  tellAll entries
  inform (name ++ " finished in")
  match result with
  | .ok a => return a
  | .error e => throw (.stage e)

/-- The entry about a new specification. -/
def buildEntries : Except SpecError Specification → List LogEntry
  | .error _ => []
  | .ok spec => [⟨.debug, .specification, "built specification", [
      ("axiom", .count spec.start.length), ("rules", .count spec.rules.size),
      ("transforms", .count spec.transforms.entries.length),
      ("variables", .count spec.definitions.length)]⟩]

/-- The entry about an event of a run. -/
def eventEntry : Event → LogEntry
  | .negativeCount requested =>
    ⟨.warn, .derivation, "iterate count is not a non-negative number, using 0",
      [("requested", .number requested)]⟩
  | .weighed name weighing =>
    ⟨.trace, .specification, "weighted rule selection", [("rule", .word name),
      ("draw", .number weighing.point), ("total", .number weighing.total)]⟩
  | .rewrote generation symbols =>
    ⟨.debug, .derivation, "rewrote generation",
      [("generation", .count generation), ("symbols", .count symbols)]⟩
  | .unmatched generation =>
    ⟨.debug, .derivation, "no rule matched, stopping early",
      [("generation", .count generation)]⟩

/-- The entries about a run; without `detail` only those that warn. -/
def runEntries (detail : Bool) (run : Run) : List LogEntry :=
  (run.warnings ++ if detail then run.generationEvents else []).map eventEntry

/-- The entry about a new drawing. -/
def drawingEntries : Except Failure (Drawing Float) → List LogEntry
  | .error _ => []
  | .ok d => [⟨.debug, .rendering, "rendered drawing",
      [("segments", .count d.segments.size), ("complexity", .count d.complexity)]⟩]

namespace Arguments

/-- The path that is written. -/
def outputPath (args : Arguments) : String :=
  args.output.getD (withExtension args.input args.format.extension)

/-- The layout of the canvas. -/
def svgConfig (args : Arguments) : SvgConfig Float :=
  let standard := SvgConfig.standard
  ⟨args.scale.getD standard.scale, standard.lineWidthFactor, standard.margin⟩

/-- The text of a drawing in the format that is asked for. -/
def serialize (args : Arguments) (d : Drawing Float) : String :=
  match args.format with
  | .svg => d.svg args.svgConfig
  | .json => d.json

end Arguments

/-- The text of a source. -/
def textOf (contents : ByteArray) : Except FileError String :=
  match String.fromUTF8? contents with
  | some text => .ok text
  | none => .error .notText

/-- What is to be written for the contents of the input, or the failure to
read it.  Without `detail` the log leaves out how the derivation went; `fresh`
is the seed where the arguments have none. -/
def prepare (args : Arguments) (detail : Bool) (fresh : UInt64)
    (contents : Except FileError ByteArray) : CommandM String := do
  let source ← match contents >>= textOf with
    | .ok source => pure source
    | .error e => throw (.read args.input e)
  inform ("Parsing '" ++ args.input ++ "'...")
  let program ← stage "parsing" [] ((parseProgram source).mapError .source)
  let built := Specification.ofProgram program
  let spec ← stage "specification" (buildEntries built) (built.mapError .specification)
  let start := spec.begin (args.maxSymbols.getD defaultMaxSymbols)
    ((args.seed.map UInt64.ofNat).getD fresh)
  let run ← stage "rewriting" (runEntries detail start) start.develop
  inform ("L-string after " ++ toString run.derivation.generations ++ " generation(s): " ++
    toString run.derivation.symbols.length ++ " symbols")
  if args.printSymbols then
    tell (.line (symbolsText run.derivation.symbols))
  let drawn := run.draw .standard
  let drawing ← stage "rendering" (drawingEntries drawn) drawn
  inform ("Rendered " ++ toString drawing.segments.size ++ " segment(s), complexity rating " ++
    toString drawing.complexity)
  stage "serialization" [] (.ok (args.serialize drawing))

/-- What is left to do once the output is written or not. -/
def conclude {α : Type} (args : Arguments) (written : Except FileError α) : CommandM α :=
  match written with
  | .ok a => do
    inform ("Wrote " ++ args.outputPath)
    return a
  | .error e => throw (.write args.outputPath e)

/-- What is shown once a command has come to its end; a failure shows last. -/
def closing {α : Type} (result : Except CommandError α) (shown : Array Shown) : Array Shown :=
  match result with
  | .ok _ => shown
  | .error e => shown.push (.entry ⟨.error, .command, e.message, []⟩)

/-- The result of a command and all that it shows. -/
def CommandM.outcome {α : Type} (m : CommandM α) (before : Array Shown) :
    Except CommandError α × Array Shown :=
  let (result, shown) := m.run.run before
  (result, closing result shown)

/-- What a command finds and changes. -/
structure World where
  tree : FileTree
  shown : Array Shown

/-- Commands on a tree of files.  One that fails takes nothing back: the files
that it has written stay, as does what it has shown. -/
abbrev WorldM := ExceptT CommandError (StateM World)

/-- A command that leaves the files alone. -/
def aside {α : Type} (m : CommandM α) : WorldM α := fun w =>
  let (result, shown) := m.run.run w.shown
  (result, { w with shown })

/-- Write a text to a path. -/
def deliver (path text : String) : WorldM (Except FileError Unit) := do
  let w ← get
  match w.tree.write path text.toUTF8 with
  | .error e => return .error e
  | .ok tree => do
    set { w with tree }
    if w.tree.displays path then
      aside (tell (.raw text))
    return .ok ()

/-- The command on a tree of files. -/
def command (args : Arguments) (detail : Bool) (fresh : UInt64) : WorldM Unit := do
  let text ← aside (prepare args detail fresh ((← get).tree.read args.input))
  aside (conclude args (← deliver args.outputPath text))

/-- The text of something shown, none if the filter holds it back. -/
def Shown.text? (filter : LogFilter) : Shown → Option String
  | .entry e => if filter.shows e then some (e.text ++ "\n") else none
  | .line text => some (text ++ "\n")
  | .raw text => some text

/-- The lines of a text; the end of a line opens no line of its own. -/
def linesOf (text : String) : List String :=
  let rows := (Text.splitAt '\n' text.toList).map String.ofList
  if rows.getLast? = some "" then rows.dropLast else rows

/-- How the program ends. -/
inductive Status where
  | success
  | failure
  /-- The arguments could not be read. -/
  | usage
  /-- The filter of the log could not be taken apart. -/
  | crash
  deriving DecidableEq, Repr

/-- The exit code of a status. -/
def Status.code : Status → Nat
  | .success => 0
  | .failure => 1
  | .usage => 2
  | .crash => 101

/-- What a program leaves behind. -/
structure Report where
  status : Status
  /-- The lines that are printed. -/
  lines : List String
  tree : FileTree

/-- The command on a tree of files as it is seen from outside. -/
def execute (args : Arguments) (filter : LogFilter) (fresh : UInt64) (t : FileTree) : Report :=
  let (result, w) := (command args (filter.mayShow .debug) fresh).run.run ⟨t, #[]⟩
  let texts := (closing result w.shown).toList.filterMap (Shown.text? filter)
  ⟨if result.isOk then .success else .failure, linesOf (String.join texts), w.tree⟩

/-- What the program is asked to do: the arguments and the filter of the log.
The filter is read first; without a text for it the standard filter holds. -/
def readRequest (words : List String) (filterText : Option String) :
    Except Status (Arguments × LogFilter) :=
  let filter? := match filterText with
    | some text => LogFilter.ofText? text
    | none => some .standard
  match filter?, Arguments.read? words with
  | none, _ => .error .crash
  | some _, none => .error .usage
  | some filter, some args => .ok (args, filter)

/-- The program on a tree of files, from the words of its command line on. -/
def runProgram (words : List String) (filterText : Option String) (fresh : UInt64)
    (t : FileTree) : Report :=
  match readRequest words filterText with
  | .error status => ⟨status, [], t⟩
  | .ok (args, filter) => execute args filter fresh t

end LSystem.Cli
