import LSystem.Specification.Basic

/-!
# Specifications from programs

Declarations are taken up one by one, and the first that cannot stand beside
those before it is the error.  A start string, the three globals and the
iteration count may be declared once, a variable once for a name; rules add
up, and a transform replaces an earlier one of its name.  A start string must
be there in the end.
-/

namespace LSystem

open Syntax Eval

/-- What a program declares once at most, apart from variables. -/
inductive Global where
  | start
  | length
  | width
  | color
  | iterate
  deriving DecidableEq, Repr

/-- How messages name a global. -/
def Global.label : Global → String
  | .start => "Axiom"
  | .length => "Length"
  | .width => "Width"
  | .color => "Color"
  | .iterate => "Iterate"

/-- Why a program has no meaning. -/
inductive SpecError where
  | duplicateDeclaration (what : Global)
  | duplicateVariable (name : String)
  | emptyRule (name : String)
  | missingStart
  deriving DecidableEq, Repr

/-- The message of an error. -/
def SpecError.message : SpecError → String
  | .duplicateDeclaration what => what.label ++ " declared more than once"
  | .duplicateVariable name => "Redeclaration of variable '" ++ name ++ "'"
  | .emptyRule name => "Rule '" ++ name ++ "' has an empty replacement"
  | .missingStart => "No axiom declared"

/-- A specification in the making. -/
structure Draft where
  start : Option (List Symbol)
  length : Option Expr
  width : Option Expr
  color : Option Color
  iterate : Option Expr
  rules : Array Rule
  index : Bindings (List Nat)
  transforms : Bindings (Motion Stroke)
  definitions : List (String × Expr)

namespace Draft

/-- What holds before the first declaration: `+` and `-` turn left and right
by a quarter. -/
def blank : Draft where
  start := none
  length := none
  width := none
  color := none
  iterate := none
  rules := #[]
  index := .empty
  transforms := ⟨[("+", .rotate (.num 90) .deg), ("-", .rotate (.num (-90)) .deg)]⟩
  definitions := []

/-- The value of a global that is declared now. -/
def declareOnce {α : Type} (what : Global) (slot : Option α) (value : α) :
    Except SpecError (Option α) :=
  match slot with
  | none => .ok (some value)
  | some _ => .error (.duplicateDeclaration what)

/-- The draft with one more rule at the end. -/
def addRule (d : Draft) (rule : Rule) : Draft :=
  let places := (d.index.find? rule.name).getD []
  { d with
    rules := d.rules.push rule
    index := d.index.insert rule.name (places ++ [d.rules.size]) }

/-- The draft after one more declaration. -/
def add (d : Draft) : Declaration → Except SpecError Draft
  | .start symbols => do
    let start ← declareOnce .start d.start symbols
    return { d with start }
  | .length value => do
    let length ← declareOnce .length d.length value
    return { d with length }
  | .width value => do
    let width ← declareOnce .width d.width value
    return { d with width }
  | .color value => do
    let color ← declareOnce .color d.color value
    return { d with color }
  | .iterate value => do
    let iterate ← declareOnce .iterate d.iterate value
    return { d with iterate }
  | .rule name body bias =>
    if body.isEmpty then throw (.emptyRule name)
    else return d.addRule ⟨name, body, bias.getD (.num 1)⟩
  | .transform name motion =>
    return { d with transforms := d.transforms.insert name (motion.map Stroke.ofOverride) }
  | .var name value =>
    if d.definitions.any fun declared => declared.1 == name then throw (.duplicateVariable name)
    else return { d with definitions := d.definitions ++ [(name, value)] }

/-- The specification of a draft, its defaults filled in. -/
def finish (d : Draft) : Except SpecError Specification :=
  match d.start with
  | none => .error .missingStart
  | some start => .ok {
      start
      length := d.length.getD (.num 1)
      width := d.width.getD (.num 1)
      color := d.color.getD .black
      iterate := d.iterate.getD (.num 1)
      rules := d.rules
      index := d.index
      transforms := d.transforms
      definitions := d.definitions }

end Draft

/-- The specification of a program. -/
def Specification.ofProgram (program : Program) : Except SpecError Specification := do
  let draft ← program.foldlM Draft.add Draft.blank
  draft.finish

end LSystem
