import LSystem.Pattern.Basic

/-!
# Sets in patterns

A set stands in brackets and lists the characters that it holds: one by one, as
ranges, as classes with a name, or as sets of their own.  Between two lists an
operator may stand.  A dash or a closing bracket right behind the opening
bracket stands for itself, so that no set is empty by its form.
-/

namespace LSystem.Pattern

open Text

/-- A set that is being read. -/
structure SetFrame where
  /-- The height of all that stands in front of the last operator. -/
  operand : Option Nat
  /-- The heights of what the list holds so far, the last one first. -/
  items : List Nat
  /-- Whether nothing but dashes has been read. -/
  fresh : Bool
  deriving DecidableEq, Repr

namespace SetFrame

/-- A set right behind its opening bracket. -/
def empty : SetFrame := ⟨none, [], true⟩

/-- The set with one more item. -/
def add (frame : SetFrame) (height : Nat) : SetFrame :=
  { frame with items := height :: frame.items, fresh := false }

/-- The height of what has been read. -/
def height (frame : SetFrame) : Nat :=
  match frame.operand with
  | none => jointHeight frame.items
  | some operand => 1 + max operand (jointHeight frame.items)

/-- The set behind an operator. -/
def operate (frame : SetFrame) : SetFrame := ⟨some frame.height, [], false⟩

end SetFrame

/-- The classes with a name. -/
def classNames : List String :=
  ["alnum", "alpha", "ascii", "blank", "cntrl", "digit", "graph", "lower", "print", "punct",
    "space", "upper", "word", "xdigit"]

/-- A class with a name, which the text after the opening bracket starts with:
whether it is negated, and the rest of the text. -/
def readClass? : List Char → Option (Bool × List Char)
  | ':' :: text =>
    let negated := text.head? == some '^'
    let text := if negated then text.drop 1 else text
    match text.dropWhile (· != ':') with
    | ':' :: ']' :: rest =>
      if classNames.contains (String.ofList (text.takeWhile (· != ':'))) then some (negated, rest)
      else none
    | _ => none
  | _ => none

/-- The start of a set, after its opening bracket.  What is not in a set of
bytes reaches past ASCII. -/
def openSet? (m : Mode) (text : List Char) : Option (SetFrame × List Char) :=
  match m.skip text with
  | '^' :: rest => if m.unicode then some (.empty, rest) else none
  | text => some (.empty, text)

/-- One element of a list: a literal, or none for a class. -/
def readElement? (m : Mode) : List Char → Option (Option Literal × List Char)
  | [] => none
  | '\\' :: rest => do
    match ← readEscape? m rest with
    | (.literal l, rest) => if m.allowsInSet l then return (some l, rest) else none
    | (.shorthand, rest) => return (none, rest)
    | (.anchor, _) => none
  | c :: rest => if m.allowsInSet ⟨c, false⟩ then some (some ⟨c, false⟩, rest) else none

/-- The first character that is neither a blank nor the mark of a comment.
Comments are not passed over. -/
def firstInk (inComment : Bool) : List Char → Option Char
  | [] => none
  | c :: rest =>
    if isBlank c then firstInk inComment rest
    else if c == '#' && !inComment then firstInk true rest
    else some c

/-- The character that tells what a dash in front of a text means. -/
def Mode.peek (m : Mode) (text : List Char) : Option Char :=
  if m.spaced then firstInk false text <|> text.head? else text.head?

/-- The rest of a text after the element or the range of elements that it
starts with.  The ends of a range are literals, the lower one first. -/
def readItem? (m : Mode) (text : List Char) : Option (List Char) := do
  let (first, rest) ← readElement? m text
  match m.skip rest with
  | [] => none
  | '-' :: rest =>
    if m.peek rest == some ']' || m.peek rest == some '-' then return '-' :: rest
    else
      let (last, rest) ← readElement? m (m.skip rest)
      match first, last with
      | some first, some last => if first.char ≤ last.char then return rest else none
      | _, _ => none
  | rest => return rest

/-- Whether a character and the one after it are an operator. -/
def isSetOperator (c : Char) (rest : List Char) : Bool :=
  ['&', '-', '~'].contains c && rest.head? == some c

/-- How far the reading of a set has come. -/
inductive SetProgress where
  /-- The set and those around it, the innermost one first. -/
  | inside (frame : SetFrame) (outer : List SetFrame)
  /-- The set is closed; its height. -/
  | closed (height : Nat)

/-- One element of a set, from its first character and the text after it on. -/
def setStep? (m : Mode) (frame : SetFrame) (outer : List SetFrame) (c : Char)
    (rest : List Char) : Option (SetProgress × List Char) :=
  if frame.fresh && c == '-' then
    if m.allowsInSet ⟨c, false⟩ then
      some (.inside { frame.add 0 with fresh := true } outer, rest)
    else none
  else if frame.fresh && frame.items.isEmpty && c == ']' then
    if m.allowsInSet ⟨c, false⟩ then some (.inside (frame.add 0) outer, rest) else none
  else if c == ']' then
    match outer with
    | [] => some (.closed (frame.height + 1), rest)
    | next :: outer => some (.inside (next.add (frame.height + 1)) outer, rest)
  else if c == '[' then
    match readClass? rest with
    | some (negated, rest) =>
      if if m.unicode then m.anyCase else negated then none
      else some (.inside (frame.add 0) outer, rest)
    | none => do
      let (inner, rest) ← openSet? m rest
      return (.inside inner ({ frame with fresh := false } :: outer), rest)
  else if isSetOperator c rest then some (.inside frame.operate outer, rest.drop 1)
  else do
    let rest ← readItem? m (c :: rest)
    return (.inside (frame.add 0) outer, rest)

/-- The height of a set from its inside on, and the text after it, in at most
so many steps.  A step takes a character at least, so a text needs no more
steps than it has characters. -/
def readSet? (m : Mode) :
    (steps : Nat) → SetFrame → List SetFrame → List Char → Option (Nat × List Char)
  | 0, _, _, _ => none
  | steps + 1, frame, outer, text =>
    match m.skip text with
    | [] => none
    | c :: rest =>
      match setStep? m frame outer c rest with
      | none => none
      | some (.closed height, rest) => some (height, rest)
      | some (.inside frame outer, rest) => readSet? m steps frame outer rest

end LSystem.Pattern
