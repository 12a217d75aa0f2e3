import LSystem.Proofs.Syntax.Streaming

/-!
# A parser that counts its nesting

The parsers of the grammar are functions on streams, and an operand has its budget of
levels as an argument.  The same descent can be done by a machine with a state: a
`Reader` holds the token in front, the lexer behind it and the number of operands that
it is inside of.  It changes all three as it goes on, and it leaves them as they are
wherever an error ends a call.

Nothing keeps such a machine from going on forever, so its loops are given a number of
rounds and its operands a depth.  Where these are used up it has no answer.
-/

namespace LSystem.Syntax

/-- A parser in the middle of a text. -/
structure Reader where
  cursor : Cursor
  /-- The number of operands that are being read, one inside the other. -/
  nesting : Nat

/-- The reader at the front of a text. -/
def Reader.ofSource (source : String) : Except Fault Reader := do
  let cursor ← Cursor.ofSource source
  return ⟨cursor, 0⟩

/-- What a reader does.  It may fail, and it may not have come to its end. -/
abbrev CountingM := ExceptT Fault (StateT Reader Option)

namespace Counting

variable {α σ : Type}

/-! ### Single tokens -/

/-- A call that has not come to its end. -/
def unfinished : CountingM α := ExceptT.mk fun _ => none

/-- The token in front. -/
def lookahead : CountingM Token := do
  let r ← get
  return r.cursor.ahead

/-- Take the token in front.  When the next cannot be lexed, it stays, but the lexer has
moved to the character that it refuses. -/
def advance : CountingM Token := do
  let r ← get
  match r.cursor.lexer.next with
  | (.error fault, lexer) => do
    set { r with cursor := ⟨r.cursor.ahead, lexer⟩ }
    throw fault
  | (.ok t, lexer) => do
    set { r with cursor := ⟨t, lexer⟩ }
    return r.cursor.ahead

/-- Fail at the token in front. -/
def failHere (cause : SyntaxCause) : CountingM α := do
  let t ← lookahead
  throw ⟨cause, t.position⟩

/-- Refuse the token in front. -/
def unexpected (expected : Expectation) : CountingM α := do
  let t ← lookahead
  failHere (.unexpectedToken t.kind t.text expected)

/-- A value, or a failure at the token in front. -/
def ofExcept : Except SyntaxCause α → CountingM α
  | .ok a => return a
  | .error cause => failHere cause

/-- Take the token in front, which has to be of one of some kinds. -/
def consumeAny (kinds : List TokenKind) : CountingM Token := do
  let t ← lookahead
  if kinds.contains t.kind then advance else unexpected (.oneOf kinds)

/-- Take the token in front, which has to be of a kind. -/
def consume (kind : TokenKind) : CountingM Token := consumeAny [kind]

/-- Take the token in front when it is of a kind, and say whether it was. -/
def consumeOptional (kind : TokenKind) : CountingM Bool := do
  let t ← lookahead
  if t.kind = kind then do
    let _ ← advance
    return true
  else return false

/-- Repeat a step, handing a state from round to round, until it answers on the right. -/
def loop (step : σ → CountingM (σ ⊕ α)) : (rounds : Nat) → σ → CountingM α
  | 0, _ => unfinished
  | rounds + 1, x => do
    match ← step x with
    | .inl y => loop step rounds y
    | .inr a => return a

/-! ### Expressions -/

/-- After an operand: take an operator and the operand to its right, or end the chain. -/
def chainStep (operand : CountingM Operand) (state : Pending × Operand) :
    CountingM ((Pending × Operand) ⊕ Operand) := do
  let t ← lookahead
  match Operator.ofKind? t.kind with
  | none => do
    let whole ← ofExcept (state.1.reduceAll state.2)
    return .inr whole
  | some op => do
    let (pending, current) ← ofExcept (state.1.reduce op state.2)
    let _ ← consume op.kind
    let right ← operand
    return .inl ((current, op) :: pending, right)

/-- A chain of operands and operators. -/
def chain (steps : Nat) (operand : CountingM Operand) : CountingM Operand := do
  let first ← operand
  loop (chainStep operand) steps ([], first)

/-- One argument of a call, and the parenthesis or the comma after it. -/
def argumentStep (argument : CountingM Operand) (state : List Expr × Nat) :
    CountingM ((List Expr × Nat) ⊕ (List Expr × Nat)) := do
  let arg ← argument
  let all := (arg.expr :: state.1, max state.2 arg.height)
  if ← consumeOptional .rightParen then
    return .inr all
  else do
    let _ ← consume .comma
    return .inl all

/-- The arguments of a call, from its parenthesis on. -/
def call (steps : Nat) (argument : CountingM Operand) (name : String) : CountingM Operand := do
  let _ ← consume .leftParen
  if ← consumeOptional .rightParen then
    ofExcept (Operand.nested (.call name []) 1)
  else do
    let (args, height) ← loop (argumentStep argument) steps ([], 0)
    ofExcept (Operand.nested (.call name args.reverse) (height + 1))

/-- The number that a numeral stands for, which has to be finite. -/
def numeral (t : Token) : CountingM Operand :=
  let value := Number.readNumeral t.text.toList
  if value.isFinite then return .leaf (.num value)
  else throw ⟨.invalidNumber t.text, t.position⟩

/-- An operand whose own operands are read by `inner`. -/
def operandWith (steps : Nat) (inner : CountingM Operand) : CountingM Operand := do
  let t ← lookahead
  match t.kind with
  | .number => do
    let t ← advance
    numeral t
  | .identifier => do
    let name ← advance
    let next ← lookahead
    if next.kind = .leftParen then call steps (chain steps inner) name.text
    else return .leaf (.ident name.text)
  | .leftParen => do
    let _ ← advance
    let content ← chain steps inner
    let _ ← consume .rightParen
    ofExcept (Operand.nested (.group content.expr) (content.height + 1))
  | .minus => do
    let _ ← advance
    let negated ← inner
    ofExcept (Operand.nested (.neg negated.expr) (negated.height + 1))
  | _ => unexpected .value

/-- Count one level more, and take it back whether there is an answer or a fault. -/
def counted (m : CountingM α) : CountingM α := ExceptT.mk do
  modify fun r => { r with nesting := r.nesting + 1 }
  let answer ← m.run
  modify fun r => { r with nesting := r.nesting - 1 }
  return answer

/-- An operand, unless too many are being read already. -/
def operand : (steps : Nat) → CountingM Operand
  | 0 => unfinished
  | steps + 1 => do
    let r ← get
    if maxNesting ≤ r.nesting then failHere .tooDeep
    else counted (operandWith steps (operand steps))

/-- An expression. -/
def expression (steps : Nat) : CountingM Expr := do
  let tree ← chain steps (operand steps)
  return tree.expr

/-! ### Declarations -/

/-- A name. -/
def name : CountingM String := do
  let t ← consume .identifier
  return t.text

/-- One more symbol, or the end of the row. -/
def symbolStep (before : List Symbol) : CountingM (List Symbol ⊕ List Symbol) := do
  let t ← lookahead
  if endsSymbols t.kind then
    return .inr before.reverse
  else match Symbol.ofToken? t with
    | none => unexpected .symbol
    | some symbol => do
      let _ ← consume t.kind
      return .inl (symbol :: before)

/-- A row of symbols. -/
def symbols (steps : Nat) : CountingM (List Symbol) := loop symbolStep steps []

/-- A clause that opens with a token of its own, when that token is there. -/
def clause (kind : TokenKind) (content : CountingM α) : CountingM (Option α) := do
  if ← consumeOptional kind then do
    let a ← content
    return some a
  else return none

/-- A color. -/
def color (steps : Nat) : CountingM Color := do
  let r ← expression steps
  if ← consumeOptional .comma then do
    let g ← expression steps
    let _ ← consume .comma
    let b ← expression steps
    return ⟨r, g, b⟩
  else return .gray r

/-- The replacement of a rule, which may be left out but not be empty. -/
def replacement (steps : Nat) : CountingM (List Symbol) := do
  if ← consumeOptional .assign then do
    let body ← symbols steps
    if body.isEmpty then failHere .emptyRule else return body
  else return []

/-- A rule, from its name on. -/
def rule (steps : Nat) : CountingM Declaration := do
  let name ← name
  let body ← replacement steps
  let bias ← clause (.keyword .bias) (expression steps)
  return .rule name body bias

/-- A variable, from its name on. -/
def variableDeclaration (steps : Nat) : CountingM Declaration := do
  let name ← name
  let _ ← consume .assign
  let value ← expression steps
  return .var name value

/-- A turn, from its angle on. -/
def rotation (steps : Nat) : CountingM (Motion StrokeOverride) := do
  let angle ← expression steps
  if ← consumeOptional (.keyword .rad) then return .rotate angle .rad
  else do
    let _ ← consumeOptional (.keyword .deg)
    return .rotate angle .deg

/-- A move, from its distance or offset on. -/
def displacement (steps : Nat) : CountingM (Motion StrokeOverride) := do
  let x ← expression steps
  let y ← clause .comma (expression steps)
  let width ← clause (.keyword .width) (expression steps)
  let color ← clause (.keyword .color) (color steps)
  match y with
  | none => return .forward x ⟨width, color⟩
  | some y => return .shift x y ⟨width, color⟩

/-- A transform, from its name on. -/
def transform (steps : Nat) : CountingM Declaration := do
  let name ← consumeAny [.identifier, .plus, .minus]
  let t ← lookahead
  match t.kind with
  | .keyword .rotate => do
    let _ ← advance
    let motion ← rotation steps
    return .transform name.text motion
  | .keyword .translate => do
    let _ ← advance
    let motion ← displacement steps
    return .transform name.text motion
  | _ => unexpected .transformKind

/-- What a declaration says, from the word that opens it on. -/
def declarationOf (steps : Nat) : Keyword → Option (CountingM Declaration)
  | .var => some (variableDeclaration steps)
  | .rule => some (rule steps)
  | .start => some do
    let row ← symbols steps
    return .start row
  | .length => some do
    let value ← expression steps
    return .length value
  | .width => some do
    let value ← expression steps
    return .width value
  | .color => some do
    let value ← color steps
    return .color value
  | .iterate => some do
    let value ← expression steps
    return .iterate value
  | .transform => some (transform steps)
  | .bias | .rotate | .translate | .rad | .deg => none

/-- What the declaration that a token opens says. -/
def declarationOpenedBy (steps : Nat) : TokenKind → Option (CountingM Declaration)
  | .keyword word => declarationOf steps word
  | _ => none

/-- A declaration and its semicolon. -/
def declaration (steps : Nat) : CountingM Declaration := do
  let t ← lookahead
  match declarationOpenedBy steps t.kind with
  | none => unexpected .declaration
  | some content => do
    let _ ← advance
    let declared ← content
    let _ ← consume .semicolon
    return declared

/-- One more declaration, or the end of the text. -/
def programStep (steps : Nat) (before : Program) : CountingM (Program ⊕ Program) := do
  let t ← lookahead
  if t.kind = .finish then
    return .inr before.reverse
  else do
    let next ← declaration steps
    return .inl (next :: before)

/-- A program, to the end of the text. -/
def program (steps : Nat) : CountingM Program := loop (programStep steps) steps []

end Counting

end LSystem.Syntax
