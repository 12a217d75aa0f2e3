import LSystem.Cli.Log
import LSystem.Number.Reading
import LSystem.Pattern.Reading
import LSystem.Text.Alphanumeric
import LSystem.Text.Blank
import LSystem.Text.Split

/-!
# Log filters

A filter says which entries of the log are shown.  It is written as directives
with commas between them.  A directive is a level, or in full

    target[span{field}]=level

where any part may be missing.  The target is the start of the addresses that
the directive speaks of; without a level it shows all levels.  Of the
directives that speak of an entry the narrowest decides, and none shows
nothing.

A span is a stretch of time with a name, and with a value for its field.  This
program opens none, so that a directive that waits for one shows nothing.  It
must be well formed all the same.
-/

namespace LSystem.Cli

open Text

/-- What a directive asks of the values of an entry. -/
structure FieldTest where
  /-- The name of the value. -/
  name : String
  /-- Whether it must be a certain value, which only spans have. -/
  valued : Bool
  deriving DecidableEq, Repr

/-- One directive of a filter. -/
structure Directive where
  /-- The start of the addresses that it speaks of. -/
  target : Option String
  /-- The span that it waits for. -/
  span : Option String
  field : Option FieldTest
  /-- The rank of the last level that is shown. -/
  rank : Nat
  deriving DecidableEq, Repr

/-- What can be wrong with the text of a directive. -/
inductive FilterFault where
  | malformed
  /-- A part of the text begins or ends inside of a character. -/
  | torn
  deriving DecidableEq, Repr

/-- A result, with a fault for none. -/
def orFault {α : Type} (fault : FilterFault) : Option α → Except FilterFault α
  | some a => .ok a
  | none => .error fault

namespace Directive

/-- Whether a directive speaks of an entry. -/
def governs (d : Directive) (e : LogEntry) : Bool :=
  d.span.isNone && d.target.all (fun target => e.part.address.startsWith target) &&
    d.field.all fun field => !field.valued && e.names.contains field.name

/-- How narrow the target of a directive is. -/
def reach (d : Directive) : Nat :=
  match d.target with
  | none => 0
  | some target => target.utf8ByteSize + 1

/-- Whether a directive is narrower than another that speaks of the same entry:
by its target, then by asking for a field, then by the order of the names. -/
def narrower (d other : Directive) : Bool :=
  other.reach < d.reach || d.reach == other.reach &&
    match d.field, other.field with
    | some field, some less => less.name < field.name
    | some _, none => true
    | none, _ => false

/-- The rank that a level name or number stands for; `off` is below all levels. -/
def readRank? (text : String) : Option Nat :=
  match Number.readCount? text with
  | some rank => if rank ≤ Level.trace.rank then some rank else none
  | none =>
    let word := text.map Char.toUpper
    if word == "OFF" then some 0
    else ([Level.error, .warn, .info, .debug, .trace].find? fun l => l.label == word).map Level.rank

/-- Whether a character may open a directive. -/
def opens (c : Char) : Bool := isAlphanumeric c || ['_', '-', ':', '['].contains c

/-- Whether a text asks for values: for a number, or for the texts of a
pattern. -/
def isValueTest (text : List Char) : Bool :=
  (Number.readNumber? (String.ofList text)).isSome || isPattern text

/-- A test for a field from its name, after which `=` and a test for its value
may stand.  What a second `=` sets off is not looked at. -/
def readField? (text : List Char) : Option FieldTest :=
  let name := String.ofList (text.takeWhile (· != '='))
  match text, text.dropWhile (· != '=') with
  | [], _ => none
  | _, [] => some ⟨name, false⟩
  | _, _ :: value =>
    if isValueTest (value.takeWhile (· != '=')) then some ⟨name, true⟩ else none

/-- The part of a directive from one byte to another. -/
def cut (text : List Char) (start stop : Nat) : Except FilterFault (List Char) :=
  orFault .torn (cut? text start stop)

/-- The end of a directive, which starts at `place`: nothing, or `=` and a
level, which may be left out. -/
def readEnd (text : List Char) (place : Nat) : List Char → Except FilterFault Nat
  | [] => return Level.trace.rank
  | '=' :: _ => do
    match ← orFault .torn (cutFrom? text (place + 1)) with
    | [] => return Level.trace.rank
    | level => orFault .malformed (readRank? (String.ofList level))
  | _ => throw .malformed

/-- The part of a directive in brackets and the end behind it, from the place
after the opening bracket on. -/
def readBrackets (text : List Char) (target : Option String) (place : Nat)
    (inside : List Char) : Except FilterFault Directive := do
  let (stop, rest) := toMark [']', '\x7b'] place inside
  match rest with
  | [] => throw .malformed
  | ']' :: rest => do
    let span := String.ofList (← cut text place stop)
    return ⟨target, some span, none, ← readEnd text (stop + 1) rest⟩
  | _ :: rest => do
    let span := String.ofList (← cut text place stop)
    let (close, rest) := toMark ['\x7d'] (stop + 1) rest
    match rest with
    | [] => throw .malformed
    | _ :: rest => do
      let field ← orFault .malformed (readField? (← cut text (stop + 1) close))
      match rest with
      | ']' :: rest =>
        let rank ← readEnd text (close + 2) rest
        return ⟨target, if span.isEmpty then none else some span, some field, rank⟩
      | _ => throw .malformed

/-- A directive.  A word alone that names no level is a target.

Blanks at the ends are not looked at for the form of a directive.  Its parts,
though, are cut from the whole text, at the places that they have without the
blanks. -/
def read (text : List Char) : Except FilterFault Directive :=
  let form := trimBlanks text
  if !form.head?.any opens then throw .malformed
  else
    let (place, rest) := toMark ['=', '['] 0 form
    match rest with
    | [] =>
      match readRank? (String.ofList text) with
      | some rank => return ⟨none, none, none, rank⟩
      | none => return ⟨some (String.ofList text), none, none, Level.trace.rank⟩
    | mark :: inside => do
      let word := String.ofList (← cut text 0 place)
      let target := if word.isEmpty then none else some word
      if mark == '[' then readBrackets text target (place + 1) inside
      else return ⟨target, none, none, ← readEnd text place rest⟩

end Directive

/-- The directives of a filter. -/
abbrev LogFilter := List Directive

namespace LogFilter

/-- What is shown when nothing is said about it. -/
def standard : LogFilter := [⟨none, none, none, Level.info.rank⟩]

/-- The filter that a text describes: the standard filter if the first faulty
directive is malformed, none if it is torn. -/
def ofText? (text : String) : Option LogFilter :=
  let directives := (splitAt ',' text.toList).filter fun directive => !directive.isEmpty
  match directives.mapM Directive.read with
  | .ok filter => some filter
  | .error .malformed => some standard
  | .error .torn => none

/-- The directive that decides about an entry: of the narrowest that speak of
it, the last. -/
def decisive (filter : LogFilter) (e : LogEntry) : Option Directive :=
  (filter.filter (·.governs e)).foldl (fun best d =>
    match best with
    | none => some d
    | some other => if other.narrower d then some other else some d) none

/-- Whether an entry is shown. -/
def shows (filter : LogFilter) (e : LogEntry) : Bool :=
  (filter.decisive e).any fun d => e.level.rank ≤ d.rank

/-- Whether a filter may show entries of a level. -/
def mayShow (filter : LogFilter) (level : Level) : Bool :=
  filter.any fun d => level.rank ≤ d.rank

end LogFilter

end LSystem.Cli
