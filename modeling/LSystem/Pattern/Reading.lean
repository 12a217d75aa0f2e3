import LSystem.Pattern.Set

/-!
# Reading patterns

A pattern is branches with bars between them; a branch is a sequence of pieces,
each of which may be repeated; a piece is a character, a condition, a set or a
group in parentheses.  A group may have a name, which no other group has, and
may change the flags up to its end.  Flags that stand alone in parentheses hold
up to the end of the group around them.

Only whether a text is a pattern is read off it, which is `isPattern`.  Counts
of repetitions in braces are left out.
-/

namespace LSystem.Pattern

open Text

/-- The highest tree that a pattern may have. -/
def maxHeight : Nat := 250

/-- A piece of a sequence. -/
structure Piece where
  height : Nat
  /-- Whether it can be repeated; flags that stand alone can not. -/
  repeatable : Bool
  deriving DecidableEq, Repr

/-- A group that is being read. -/
structure Group where
  /-- The flags around the group. -/
  around : Mode
  /-- The heights of the branches that are complete. -/
  branches : List Nat
  /-- The pieces of the last branch, the last one first. -/
  pieces : List Piece
  deriving DecidableEq, Repr

namespace Group

/-- A group without any pieces yet. -/
def empty (around : Mode) : Group := ⟨around, [], []⟩

/-- The group with one more piece. -/
def add (g : Group) (piece : Piece) : Group := { g with pieces := piece :: g.pieces }

/-- The height of the last branch. -/
def branchHeight (g : Group) : Nat := jointHeight (g.pieces.map Piece.height)

/-- The height of all branches. -/
def height (g : Group) : Nat := jointHeight (g.branchHeight :: g.branches)

/-- The group behind a bar. -/
def split (g : Group) : Group := ⟨g.around, g.branchHeight :: g.branches, []⟩

/-- The group with its last piece repeated. -/
def repeatLast? (g : Group) : Option Group :=
  match g.pieces with
  | ⟨height, true⟩ :: pieces => some { g with pieces := ⟨height + 1, true⟩ :: pieces }
  | _ => none

end Group

/-- Flags up to the end of their list, the last one first, with the character
that ends the list and the text after it.  No flag is named twice; those behind
a dash are turned off, and there is one behind every dash. -/
def readFlags? (flags : List Char) : List Char → Option (List Char × Char × List Char)
  | [] => none
  | c :: rest =>
    if c == ':' || c == ')' then
      if flags.head? == some '-' then none else some (flags, c, rest)
    else if "imsuxRU-".toList.contains c && !flags.contains c then readFlags? (c :: flags) rest
    else none

/-- What flags, the last one first, make of the value of one of them. -/
def setFlag (flags : List Char) (flag : Char) (value : Bool) : Bool :=
  if flags.contains flag then !(flags.dropWhile (· != flag)).contains '-' else value

/-- The mode with flags turned on and off. -/
def Mode.set (m : Mode) (flags : List Char) : Mode :=
  ⟨setFlag flags 'i' m.anyCase, setFlag flags 'u' m.unicode, setFlag flags 'x' m.spaced⟩

/-- Whether a character may stand in the name of a group, at its start or
further on. -/
def isNameStart (c : Char) : Bool := c == '_' || isAlphabetic c

@[inherit_doc isNameStart]
def isNameChar (c : Char) : Bool := c == '_' || ['.', '[', ']'].contains c || isAlphanumeric c

/-- The name of a group, which ends at an angle bracket. -/
def readName? (text : List Char) : Option (String × List Char) :=
  match text.takeWhile (· != '>'), text.dropWhile (· != '>') with
  | c :: name, _ :: rest =>
    if isNameStart c && name.all isNameChar then some (String.ofList (c :: name), rest) else none
  | _, _ => none

/-- What an opening parenthesis opens. -/
inductive Opening where
  /-- A group with the flags in it and its name. -/
  | group (inside : Mode) (name : Option String)
  /-- Nothing: only the flags change. -/
  | flags (after : Mode)

/-- What the text after an opening parenthesis makes of it. -/
def readOpening? (m : Mode) (text : List Char) : Option (Opening × List Char) :=
  let named := fun text => do
    let (name, rest) ← readName? text
    return (Opening.group m (some name), rest)
  match m.skip text with
  | '?' :: 'P' :: '<' :: rest => named rest
  | '?' :: '<' :: rest => named rest
  | '?' :: rest => do
    let (flags, last, rest) ← readFlags? [] rest
    if last == ':' then return (.group (m.set flags) none, rest)
    else if flags.isEmpty then none
    else return (.flags (m.set flags), rest)
  | rest => some (.group m none, rest)

/-- A pattern that is being read. -/
structure State where
  mode : Mode
  /-- The names of groups so far. -/
  names : List String
  group : Group
  /-- The groups around the group, the innermost one first. -/
  outer : List Group

namespace State

/-- The start of a pattern. -/
def start : State := ⟨.standard, [], .empty .standard, []⟩

/-- The state after one more piece. -/
def add (s : State) (height : Nat) : State := { s with group := s.group.add ⟨height, true⟩ }

/-- The state after a piece that has no parts, if it has a meaning. -/
def addIf (s : State) (meaningful : Bool) : Option State :=
  if meaningful then some (s.add 0) else none

/-- The state behind an opening parenthesis. -/
def enter? (s : State) : Opening → Option State
  | .flags after => some { s with mode := after, group := s.group.add ⟨0, false⟩ }
  | .group inside none =>
    some { s with mode := inside, group := .empty s.mode, outer := s.group :: s.outer }
  | .group inside (some name) =>
    if s.names.contains name then none
    else some ⟨inside, name :: s.names, .empty s.mode, s.group :: s.outer⟩

/-- The state behind a closing parenthesis. -/
def leave? (s : State) : Option State :=
  match s.outer with
  | [] => none
  | next :: outer =>
    some ⟨s.group.around, s.names, next.add ⟨s.group.height + 1, true⟩, outer⟩

/-- Whether a pattern may end here. -/
def isComplete (s : State) : Bool := s.outer.isEmpty && s.group.height ≤ maxHeight

/-- One step from a character and the text after it on, which has at most so
many characters. -/
def step? (s : State) (steps : Nat) (c : Char) (rest : List Char) :
    Option (State × List Char) :=
  let stay := fun (next : Option State) => next.map fun s => (s, rest)
  match c with
  | '(' => do
    let (opening, rest) ← readOpening? s.mode rest
    return (← s.enter? opening, rest)
  | ')' => stay s.leave?
  | '|' => some ({ s with group := s.group.split }, rest)
  | '[' => do
    let (frame, rest) ← openSet? s.mode rest
    let (height, rest) ← readSet? s.mode steps frame [] rest
    return (s.add height, rest)
  | '?' | '*' | '+' => do
    let group ← s.group.repeatLast?
    return ({ s with group }, if rest.head? == some '?' then rest.drop 1 else rest)
  | '\x7b' => none
  | '\\' => do
    match ← readEscape? s.mode rest with
    | (.literal l, rest) => return (← s.addIf (s.mode.allows l), rest)
    | (_, rest) => return (s.add 0, rest)
  | '.' => stay (s.addIf s.mode.unicode)
  | '^' | '$' => some (s.add 0, rest)
  | c => stay (s.addIf (s.mode.allows ⟨c, false⟩))

/-- The state after a text, in at most so many steps.  A step takes a character
at least. -/
def read? : (steps : Nat) → State → List Char → Option State
  | 0, s, text => if (s.mode.skip text).isEmpty then some s else none
  | steps + 1, s, text =>
    match s.mode.skip text with
    | [] => some s
    | c :: rest =>
      match s.step? steps c rest with
      | none => none
      | some (next, rest) => read? steps next rest

end State

end Pattern

/-- Whether a text is a pattern. -/
def isPattern (text : List Char) : Bool :=
  (Pattern.State.read? text.length .start text).any Pattern.State.isComplete

end LSystem
