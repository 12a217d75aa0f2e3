import LSystem.Number.Format

/-!
# The log

A command tells what it does in log entries.  An entry has a level, the part of
the program that it comes from, a message and named values.
-/

namespace LSystem.Cli

/-- How much an entry matters. -/
inductive Level where
  | error
  | warn
  | info
  | debug
  | trace
  deriving DecidableEq, Repr

/-- The place of a level, from what matters most. -/
def Level.rank : Level → Nat
  | .error => 1
  | .warn => 2
  | .info => 3
  | .debug => 4
  | .trace => 5

/-- The name of a level. -/
def Level.label : Level → String
  | .error => "ERROR"
  | .warn => "WARN"
  | .info => "INFO"
  | .debug => "DEBUG"
  | .trace => "TRACE"

/-- The parts of the program that write entries. -/
inductive Part where
  | command
  | specification
  | derivation
  | rendering
  deriving DecidableEq, Repr

/-- The address by which filters speak of a part. -/
def Part.address : Part → String
  | .command => "lsys"
  | .specification => "lsys_turtle::spec"
  | .derivation => "lsys_turtle::rewriter"
  | .rendering => "lsys_turtle::renderer"

/-- Numbers in the log. -/
def logNumber : Number.NumberFormat where
  tie := .up
  positional := some (-4, 15)
  pointZero := true
  exponentMark := "e"
  nan := "NaN"
  infinity := "inf"
  negativeInfinity := "-inf"

/-- A value that an entry names. -/
inductive LogValue where
  | number (value : Float)
  | count (value : Nat)
  /-- A word without quotes in it. -/
  | word (value : String)

/-- The text of a value. -/
def LogValue.text : LogValue → String
  | .number value => logNumber.write value
  | .count value => toString value
  | .word value => "\"" ++ value ++ "\""

/-- An entry of the log. -/
structure LogEntry where
  level : Level
  part : Part
  message : String
  values : List (String × LogValue)

/-- The names of all that an entry holds; the message has a name too. -/
def LogEntry.names (e : LogEntry) : List String := "message" :: e.values.map Prod.fst

/-- A character as it is shown: what could steer a terminal, line ends apart,
is shown as an escape. -/
def shownCharacter (c : Char) : List Char :=
  let hex := Nat.toDigits 16 c.toNat
  if c = '\x07' ∨ c = '\x08' ∨ c = '\x0c' then ['\\', 'x', '0'] ++ hex
  else if c = '\x1b' ∨ c = '\x7f' then ['\\', 'x'] ++ hex
  else if 0x80 ≤ c.toNat ∧ c.toNat ≤ 0x9f then ['\\', 'u', '\x7b'] ++ hex ++ ['\x7d']
  else [c]

/-- The text of an entry: its level set to the right, its message, its values. -/
def LogEntry.text (e : LogEntry) : String :=
  let label := e.level.label
  String.ofList (List.replicate (5 - label.length) ' ') ++ label ++ " " ++
    String.ofList (e.message.toList.flatMap shownCharacter) ++
    String.join (e.values.map fun (name, value) => " " ++ name ++ "=" ++ value.text)

end LSystem.Cli
