import LSystem.Number.Reading
import LSystem.Syntax.Parser.Basic
import LSystem.Syntax.Tree

/-!
# Reading expressions

A chain of operands and operators is read from left to right.  The operands
that still wait for the right side of their operator are kept in a list, the
innermost first.  Before an operator joins them, every waiting operator that
binds at least as tightly takes its right side; this makes all operators
left-associative, and it leaves the waiting operators in an order that only
grows tighter inwards.

No tree is higher than `maxNesting`.  Each operand is read with a budget of
levels, one less inside a group, a call or a negation, and every tree is
weighed when it is built, because a long chain is high without being nested.
-/

namespace LSystem.Syntax

open LSystem.Syntax.Parser

/-- An expression that was read, with the height of its tree. -/
structure Operand where
  expr : Expr
  height : Nat

/-- A name or a number. -/
def Operand.leaf (expr : Expr) : Operand := ⟨expr, 1⟩

/-- A tree of the given height, unless that is too high. -/
def Operand.nested (expr : Expr) (height : Nat) : Except SyntaxCause Operand :=
  if maxNesting < height then .error .tooDeep else .ok ⟨expr, height⟩

/-- An operator with both of its sides. -/
def Operand.combine (left : Operand) (op : Operator) (right : Operand) :
    Except SyntaxCause Operand :=
  Operand.nested (.binary op left.expr right.expr) (max left.height right.height + 1)

/-- The operands that wait for the right side of their operator, the innermost
first. -/
abbrev Pending := List (Operand × Operator)

/-- Give their right side to the waiting operators that bind at least as
tightly as the operator that comes next. -/
def Pending.reduce (next : Operator) : Pending → Operand → Except SyntaxCause (Pending × Operand)
  | [], current => .ok ([], current)
  | (left, op) :: rest, current =>
    if next.precedence ≤ op.precedence then do
      let combined ← left.combine op current
      Pending.reduce next rest combined
    else .ok ((left, op) :: rest, current)

/-- Give their right side to all waiting operators. -/
def Pending.reduceAll : Pending → Operand → Except SyntaxCause Operand
  | [], current => .ok current
  | (left, op) :: rest, current => do
    let combined ← left.combine op current
    Pending.reduceAll rest combined

/-- The operator that a kind of token stands for between two operands. -/
def Operator.ofKind? : TokenKind → Option Operator
  | .plus => some .add
  | .minus => some .sub
  | .star => some .mul
  | .slash => some .div
  | _ => none

/-- The kind of token that an operator is written with. -/
def Operator.kind : Operator → TokenKind
  | .add => .plus
  | .sub => .minus
  | .mul => .star
  | .div => .slash

/-- After an operand: take an operator and the operand to its right, or end
the chain. -/
def chainStep (operand : Parser Operand) (state : Pending × Operand) :
    Parser ((Pending × Operand) ⊕ Operand) := do
  let t ← lookahead
  match Operator.ofKind? t.kind with
  | none => do
    let whole ← ofExcept (state.1.reduceAll state.2)
    return .inr whole
  | some op => do
    let (pending, current) ← ofExcept (state.1.reduce op state.2)
    let _ ← consume op.kind
    let right ← operand
    return .inl ((current, op) :: pending, right)

/-- A round of a chain that goes on has taken an operator, so the loop ends. -/
theorem advances_chainStep (operand : Parser Operand) (state : Pending × Operand) :
    Advances (chainStep operand state) := by
  refine Advances.bind_right fun t => ?_
  split
  · exact Advances.bind_right fun _ => advances_pure_inr _
  · rename_i op _
    refine Advances.bind_right fun _ => ?_
    refine (Consumes.bind_left (consumes_consume ?_)).advances
    cases op <;> simp [Operator.kind]

/-- A chain of operands and operators. -/
def chain (operand : Parser Operand) : Parser Operand := do
  let first ← operand
  loop (chainStep operand) (advances_chainStep operand) ([], first)

/-- One argument of a call, and the parenthesis or the comma after it.  The
state holds the arguments before it, the last one first, and the height of the
highest. -/
def argumentStep (argument : Parser Operand) (state : List Expr × Nat) :
    Parser ((List Expr × Nat) ⊕ (List Expr × Nat)) := do
  let arg ← argument
  let all := (arg.expr :: state.1, max state.2 arg.height)
  if ← consumeOptional .rightParen then
    return .inr all
  else do
    let _ ← consume .comma
    return .inl all

/-- A round of arguments that goes on has taken a comma, so the loop ends. -/
theorem advances_argumentStep (argument : Parser Operand) (state : List Expr × Nat) :
    Advances (argumentStep argument state) := by
  refine Advances.bind_right fun _ => Advances.bind_right fun closed => ?_
  split
  · exact advances_pure_inr _
  · exact (Consumes.bind_left (consumes_consume (by simp))).advances

/-- The arguments of a call, from its parenthesis on. -/
def call (argument : Parser Operand) (name : String) : Parser Operand := do
  let _ ← consume .leftParen
  if ← consumeOptional .rightParen then
    ofExcept (Operand.nested (.call name []) 1)
  else do
    let (args, height) ←
      loop (argumentStep argument) (advances_argumentStep argument) ([], 0)
    ofExcept (Operand.nested (.call name args.reverse) (height + 1))

/-- The number that a numeral stands for, which has to be finite. -/
def numeral (t : Token) : Parser Operand :=
  let value := Number.readNumeral t.text.toList
  if value.isFinite then succeed (.leaf (.num value))
  else fail ⟨.invalidNumber t.text, t.position⟩

/-- An operand whose own operands are read by `inner`. -/
def operandWith (inner : Parser Operand) : Parser Operand := do
  let t ← lookahead
  match t.kind with
  | .number => do
    let t ← advance
    numeral t
  | .identifier => do
    let name ← advance
    let next ← lookahead
    if next.kind = .leftParen then call (chain inner) name.text
    else return .leaf (.ident name.text)
  | .leftParen => do
    let _ ← advance
    let content ← chain inner
    let _ ← consume .rightParen
    ofExcept (Operand.nested (.group content.expr) (content.height + 1))
  | .minus => do
    let _ ← advance
    let negated ← inner
    ofExcept (Operand.nested (.neg negated.expr) (negated.height + 1))
  | _ => unexpected .value

/-- An operand with a budget of levels. -/
def operand : Nat → Parser Operand
  | 0 => failHere .tooDeep
  | levels + 1 => operandWith (operand levels)

/-- An expression with its height. -/
def expressionTree : Parser Operand := chain (operand maxNesting)

/-- An expression. -/
def expression : Parser Expr := do
  let tree ← expressionTree
  return tree.expr

end LSystem.Syntax
