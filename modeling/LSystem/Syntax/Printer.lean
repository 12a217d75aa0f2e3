import LSystem.Number.Format
import LSystem.Syntax.Tree

/-!
# Trees as text

Every tree prints as source text.  No parentheses are added: a tree that came
from a text has them where it needs them, and prints as a text that reads as
the same tree.
-/

namespace LSystem.Syntax

/-- The text of a symbol. -/
def Symbol.text : Symbol → String
  | .named name => name
  | .push => "["
  | .pop => "]"

/-- Symbols with one space between any two. -/
def symbolsText (symbols : List Symbol) : String :=
  String.intercalate " " (symbols.map Symbol.text)

/-- The mark of an operator. -/
def Operator.text : Operator → String
  | .add => "+"
  | .sub => "-"
  | .mul => "*"
  | .div => "/"

mutual

/-- The text of an expression. -/
def Expr.text : Expr → String
  | .num value => Number.plain.write value
  | .ident name => name
  | .call name args => name ++ "(" ++ Expr.argsText args ++ ")"
  | .group inner => "(" ++ inner.text ++ ")"
  | .binary op left right => left.text ++ " " ++ op.text ++ " " ++ right.text
  | .neg inner => "-" ++ inner.text

/-- The text of arguments, a comma between any two. -/
def Expr.argsText : List Expr → String
  | [] => ""
  | [e] => e.text
  | e :: es => e.text ++ ", " ++ Expr.argsText es

end

/-- The text of a color: one expression when its parts are equal. -/
def Color.text (c : Color) : String :=
  if c.r == c.g && c.g == c.b then c.r.text
  else c.r.text ++ ", " ++ c.g.text ++ ", " ++ c.b.text

/-- The text of a unit. -/
def AngleUnit.text : AngleUnit → String
  | .deg => "deg"
  | .rad => "rad"

/-- The clauses that a declaration adds for the look of a line. -/
def StrokeOverride.text (s : StrokeOverride) : String :=
  (match s.width with
    | some width => " width " ++ width.text
    | none => "") ++
  (match s.color with
    | some color => " color " ++ color.text
    | none => "")

/-- The text of a motion. -/
def Motion.text : Motion StrokeOverride → String
  | .rotate angle unit => "rotate " ++ angle.text ++ " " ++ unit.text
  | .forward distance look => "translate " ++ distance.text ++ look.text
  | .shift dx dy look => "translate " ++ dx.text ++ ", " ++ dy.text ++ look.text

/-- The text of a declaration, its semicolon included. -/
def Declaration.text : Declaration → String
  | .var name value => "var " ++ name ++ " = " ++ value.text ++ ";"
  | .rule name body bias =>
    "rule " ++ name ++
      (if body.isEmpty then "" else " = " ++ symbolsText body) ++
      (match bias with
        | some bias => " bias " ++ bias.text
        | none => "") ++ ";"
  | .start symbols => "axiom " ++ symbolsText symbols ++ ";"
  | .length value => "length " ++ value.text ++ ";"
  | .width value => "width " ++ value.text ++ ";"
  | .color value => "color " ++ value.text ++ ";"
  | .iterate value => "iterate " ++ value.text ++ ";"
  | .transform name motion => "transform " ++ name ++ " " ++ motion.text ++ ";"

/-- The text of a program, one declaration on a line. -/
def programText : Program → String
  | [] => ""
  | d :: ds => d.text ++ "\n" ++ programText ds

end LSystem.Syntax
