import LSystem.Number.Reading

/-!
# Command lines

A command line names one input and may set options.  An option with a value
takes it from the same word, after `=`, or from the next word, which must not
look like an option itself; a lone `-` is a value.  The short option `-o` also
takes what follows it without a mark.  After the word `--` nothing is an
option.  No option may be given twice.
-/

namespace LSystem.Cli

/-- The kinds of output. -/
inductive Format where
  | svg
  | json
  deriving DecidableEq, Repr

/-- The extension of output files, which is also the name of the format. -/
def Format.extension : Format → String
  | .svg => "svg"
  | .json => "json"

/-- The format with a name. -/
def Format.ofName? (name : String) : Option Format :=
  [Format.svg, Format.json].find? fun f => f.extension == name

/-- What a command line asks for. -/
structure Arguments where
  input : String
  output : Option String
  format : Format
  seed : Option Nat
  scale : Option Float
  maxSymbols : Option Nat
  /-- Whether the final L-string is printed. -/
  printSymbols : Bool

/-- The options that take a value. -/
inductive Setting where
  | output
  | format
  | seed
  | scale
  | maxSymbols
  deriving DecidableEq, Repr

/-- The name of an option. -/
def Setting.label : Setting → String
  | .output => "output"
  | .format => "format"
  | .seed => "seed"
  | .scale => "scale"
  | .maxSymbols => "max-symbols"

/-- The option with a name. -/
def Setting.ofLabel? (label : String) : Option Setting :=
  [Setting.output, .format, .seed, .scale, .maxSymbols].find? fun s => s.label == label

/-- The flag that prints the final L-string. -/
def printFlag : String := "print-lstring"

/-- What a word of a command line is, taken for itself. -/
inductive Word where
  /-- The end of all options. -/
  | finish
  | flag
  /-- An option with its value, if the word holds it. -/
  | setting (which : Setting) (value : Option String)
  | value (text : String)
  /-- An option that does not exist. -/
  | unknown
  deriving DecidableEq, Repr

/-- A text up to the first `=`, and what follows the mark. -/
def splitValue (text : List Char) : List Char × Option (List Char) :=
  match text.dropWhile (· != '=') with
  | [] => (text, none)
  | _ :: value => (text.takeWhile (· != '='), some value)

/-- The word after two dashes. -/
def Word.ofLong (text : List Char) : Word :=
  let (label, content) := splitValue text
  if String.ofList label == printFlag && content.isNone then .flag
  else match Setting.ofLabel? (String.ofList label) with
    | some which => .setting which (content.map String.ofList)
    | none => .unknown

/-- The word after one dash. -/
def Word.ofShort : List Char → Word
  | ['o'] => .setting .output none
  | 'o' :: '=' :: path => .setting .output (some (String.ofList path))
  | 'o' :: path => .setting .output (some (String.ofList path))
  | _ => .unknown

/-- What a word is. -/
def Word.ofText (text : String) : Word :=
  match text.toList with
  | ['-', '-'] => .finish
  | '-' :: '-' :: rest => .ofLong rest
  | ['-'] => .value text
  | '-' :: rest => .ofShort rest
  | _ => .value text

/-- What has been read off a command line. -/
structure Given where
  inputs : List String
  settings : List (Setting × String)
  flags : Nat

/-- Whether an option has been given. -/
def Given.value? (g : Given) (which : Setting) : Option String :=
  (g.settings.find? fun setting => setting.1 == which).map Prod.snd

/-- One more value of an option. -/
def Given.set (g : Given) (which : Setting) (value : String) : Given :=
  { g with settings := g.settings ++ [(which, value)] }

/-- The words of a command line, none if an option is unknown or lacks its
value. -/
def Given.read? : List String → Given → Option Given
  | [], g => some g
  | text :: rest, g =>
    match Word.ofText text with
    | .finish => some { g with inputs := g.inputs ++ rest }
    | .flag => read? rest { g with flags := g.flags + 1 }
    | .value input => read? rest { g with inputs := g.inputs ++ [input] }
    | .unknown => none
    | .setting which (some value) => read? rest (g.set which value)
    | .setting which none =>
      match rest with
      | [] => none
      | next :: rest =>
        match Word.ofText next with
        | .value value => read? rest (g.set which value)
        | _ => none

/-- A path, which has at least one character. -/
def readPath? (text : String) : Option String := if text.isEmpty then none else some text

/-- The value of an option that may be missing but not be wrong. -/
def optional {α : Type} (read? : String → Option α) : Option String → Option (Option α)
  | none => some none
  | some text => (read? text).map some

/-- The arguments that were given, none if something is missing, given twice or
no value of its kind. -/
def Given.arguments? (g : Given) : Option Arguments := do
  let input ← match g.inputs with
    | [input] => readPath? input
    | _ => none
  if g.flags ≤ 1 && (g.settings.map Prod.fst).Nodup then do
    let output ← optional readPath? (g.value? .output)
    let format ← optional Format.ofName? (g.value? .format)
    let seed ← optional Number.readCount? (g.value? .seed)
    let scale ← optional Number.readNumber? (g.value? .scale)
    let maxSymbols ← optional Number.readCount? (g.value? .maxSymbols)
    return {
      input
      output
      format := format.getD .svg
      seed
      scale
      maxSymbols
      printSymbols := g.flags == 1 }
  else none

/-- The arguments of a command line. -/
def Arguments.read? (words : List String) : Option Arguments := do
  let given ← Given.read? words ⟨[], [], 0⟩
  given.arguments?

end LSystem.Cli
