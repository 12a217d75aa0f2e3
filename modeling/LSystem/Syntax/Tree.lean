/-!
# Syntax trees

A program is a list of declarations.  Numbers stand in it as expressions, and
the symbols of strings and rules stand in it as lists.  Parentheses are kept
as nodes of their own, so that a tree prints back as it was written.

Two trees are the `same` when they have the same shape and their numbers
compare equal, so a tree with a NaN is not even the same as itself.
-/

namespace LSystem.Syntax

/-- A symbol of an L-string. -/
inductive Symbol where
  /-- A symbol with a name; `+` and `-` are names too. -/
  | named (name : String)
  /-- `[`, which saves the pose of the turtle. -/
  | push
  /-- `]`, which takes up the pose that was saved last. -/
  | pop
  deriving DecidableEq, Repr

/-- The operators with two operands. -/
inductive Operator where
  | add
  | sub
  | mul
  | div
  deriving DecidableEq, Repr

/-- How tightly an operator binds. -/
def Operator.precedence : Operator → Nat
  | .add | .sub => 0
  | .mul | .div => 1

/-- An expression. -/
inductive Expr where
  | num (value : Float)
  | ident (name : String)
  | call (name : String) (args : List Expr)
  | group (inner : Expr)
  | binary (op : Operator) (left right : Expr)
  | neg (inner : Expr)

instance : Inhabited Expr := ⟨.num 0⟩

mutual

/-- Whether two expressions agree, numbers compared as numbers. -/
def Expr.same : Expr → Expr → Bool
  | .num a, .num b => a == b
  | .ident a, .ident b => a == b
  | .call f as, .call g bs => f == g && Expr.sameList as bs
  | .group a, .group b => a.same b
  | .binary o a b, .binary o' a' b' => o == o' && a.same a' && b.same b'
  | .neg a, .neg b => a.same b
  | _, _ => false

/-- Whether two lists of expressions agree one by one. -/
def Expr.sameList : List Expr → List Expr → Bool
  | [], [] => true
  | a :: as, b :: bs => a.same b && Expr.sameList as bs
  | _, _ => false

end

instance : BEq Expr := ⟨Expr.same⟩

mutual

/-- The number of levels of an expression. -/
def Expr.height : Expr → Nat
  | .num _ => 1
  | .ident _ => 1
  | .call _ args => Expr.heightList args + 1
  | .group inner => inner.height + 1
  | .binary _ left right => max left.height right.height + 1
  | .neg inner => inner.height + 1

/-- The height of the highest of some expressions. -/
def Expr.heightList : List Expr → Nat
  | [] => 0
  | e :: es => max e.height (Expr.heightList es)

end

/-- A color as three expressions for its red, green and blue parts. -/
structure Color where
  r : Expr
  g : Expr
  b : Expr
  deriving BEq

/-- The color with three equal parts. -/
def Color.gray (value : Expr) : Color := ⟨value, value, value⟩

/-- The color without light. -/
def Color.black : Color := .gray (.num 0)

/-- The units of an angle. -/
inductive AngleUnit where
  | deg
  | rad
  deriving DecidableEq, Repr

/-- What a symbol does to the turtle.  A move draws a line, whose look is a
`stroke`. -/
inductive Motion (stroke : Type) where
  /-- Turn by an angle and draw nothing. -/
  | rotate (angle : Expr) (unit : AngleUnit)
  /-- Move along the heading. -/
  | forward (distance : Expr) (look : stroke)
  /-- Move by a fixed offset, whatever the heading. -/
  | shift (dx dy : Expr) (look : stroke)
  deriving BEq

/-- A motion with another description of its line. -/
def Motion.map {σ τ : Type} (f : σ → τ) : Motion σ → Motion τ
  | .rotate angle unit => .rotate angle unit
  | .forward distance look => .forward distance (f look)
  | .shift dx dy look => .shift dx dy (f look)

/-- What a declaration says about the look of a line. -/
structure StrokeOverride where
  width : Option Expr
  color : Option Color
  deriving BEq

/-- A declaration. -/
inductive Declaration where
  | var (name : String) (value : Expr)
  | rule (name : String) (body : List Symbol) (bias : Option Expr)
  | start (symbols : List Symbol)
  | length (value : Expr)
  | width (value : Expr)
  | color (value : Color)
  | iterate (value : Expr)
  | transform (name : String) (motion : Motion StrokeOverride)
  deriving BEq

/-- A program is its declarations in order. -/
abbrev Program := List Declaration

end LSystem.Syntax
