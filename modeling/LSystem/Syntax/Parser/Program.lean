import LSystem.Syntax.Parser.Expression

/-!
# Reading programs

A program is a row of declarations, each ended by a semicolon and opened by
the word that says what it declares:

* `var NAME = EXPR`
* `rule NAME [= SYMBOLS] [bias EXPR]`
* `axiom SYMBOLS`
* `length EXPR`, `width EXPR`, `iterate EXPR`
* `color COLOR`
* `transform NAME rotate EXPR [deg | rad]`
* `transform NAME translate EXPR [, EXPR] [width EXPR] [color COLOR]`

A color is one expression or three with commas between them.  Symbols are
names, `+`, `-` and brackets; a transform may have any name a symbol has.
-/

namespace LSystem.Syntax

open LSystem.Syntax.Parser

/-- A name. -/
def name : Parser String := do
  let t ← consume .identifier
  return t.text

/-- The symbol that a token stands for. -/
def Symbol.ofToken? (t : Token) : Option Symbol :=
  match t.kind with
  | .identifier | .plus | .minus => some (.named t.text)
  | .leftBracket => some .push
  | .rightBracket => some .pop
  | _ => none

/-- The tokens that end a row of symbols. -/
def endsSymbols (kind : TokenKind) : Bool :=
  kind == .keyword .bias || kind == .semicolon || kind == .finish

/-- One more symbol, or the end of the row.  The state holds the symbols
before it, the last one first. -/
def symbolStep (before : List Symbol) : Parser (List Symbol ⊕ List Symbol) := do
  let t ← lookahead
  if endsSymbols t.kind then
    return .inr before.reverse
  else match Symbol.ofToken? t with
    | none => unexpected .symbol
    | some symbol => do
      let _ ← consume t.kind
      return .inl (symbol :: before)

/-- A round of symbols that goes on has taken a symbol, so the loop ends. -/
theorem advances_symbolStep (before : List Symbol) : Advances (symbolStep before) := by
  refine Advances.bind_right fun t => ?_
  split
  · exact advances_pure_inr _
  · rename_i hend
    split
    · exact advances_unexpected _
    · refine (Consumes.bind_left (consumes_consume ?_)).advances
      intro hkind
      simp [endsSymbols, hkind] at hend

/-- A row of symbols. -/
def symbols : Parser (List Symbol) := loop symbolStep advances_symbolStep []

/-- A clause that opens with a token of its own, when that token is there. -/
def clause {α : Type} (kind : TokenKind) (content : Parser α) : Parser (Option α) := do
  if ← consumeOptional kind then do
    let a ← content
    return some a
  else return none

/-- A color. -/
def color : Parser Color := do
  let r ← expression
  if ← consumeOptional .comma then do
    let g ← expression
    let _ ← consume .comma
    let b ← expression
    return ⟨r, g, b⟩
  else return .gray r

/-- The replacement of a rule, which may be left out but not be empty. -/
def replacement : Parser (List Symbol) := do
  if ← consumeOptional .assign then do
    let body ← symbols
    if body.isEmpty then failHere .emptyRule else return body
  else return []

/-- A rule, from its name on. -/
def rule : Parser Declaration := do
  let name ← name
  let body ← replacement
  let bias ← clause (.keyword .bias) expression
  return .rule name body bias

/-- A variable, from its name on. -/
def variableDeclaration : Parser Declaration := do
  let name ← name
  let _ ← consume .assign
  let value ← expression
  return .var name value

/-- A turn, from its angle on. -/
def rotation : Parser (Motion StrokeOverride) := do
  let angle ← expression
  if ← consumeOptional (.keyword .rad) then return .rotate angle .rad
  else do
    let _ ← consumeOptional (.keyword .deg)
    return .rotate angle .deg

/-- A move, from its distance or offset on. -/
def displacement : Parser (Motion StrokeOverride) := do
  let x ← expression
  let y ← clause .comma expression
  let width ← clause (.keyword .width) expression
  let color ← clause (.keyword .color) color
  match y with
  | none => return .forward x ⟨width, color⟩
  | some y => return .shift x y ⟨width, color⟩

/-- A transform, from its name on. -/
def transform : Parser Declaration := do
  let name ← consumeAny [.identifier, .plus, .minus]
  let t ← lookahead
  match t.kind with
  | .keyword .rotate => do
    let _ ← advance
    let motion ← rotation
    return .transform name.text motion
  | .keyword .translate => do
    let _ ← advance
    let motion ← displacement
    return .transform name.text motion
  | _ => unexpected .transformKind

/-- What a declaration says, from the word that opens it on. -/
def declarationOf : Keyword → Option (Parser Declaration)
  | .var => some variableDeclaration
  | .rule => some rule
  | .start => some do
    let row ← symbols
    return .start row
  | .length => some do
    let value ← expression
    return .length value
  | .width => some do
    let value ← expression
    return .width value
  | .color => some do
    let value ← color
    return .color value
  | .iterate => some do
    let value ← expression
    return .iterate value
  | .transform => some transform
  | .bias | .rotate | .translate | .rad | .deg => none

/-- The parser of the declaration that a token opens. -/
def declarationOpenedBy : TokenKind → Option (Parser Declaration)
  | .keyword word => declarationOf word
  | _ => none

/-- A declaration and its semicolon. -/
def declaration : Parser Declaration := do
  let t ← lookahead
  match declarationOpenedBy t.kind with
  | none => unexpected .declaration
  | some content => do
    let _ ← advance
    let declared ← content
    let _ ← consume .semicolon
    return declared

/-- A declaration that is read has taken its semicolon at least. -/
theorem consumes_declaration : Consumes declaration := by
  refine Consumes.bind_right fun t => ?_
  split
  · intro s a s' h
    simp [unexpected, failHere, fail, run_bind, lookahead] at h
  · exact Consumes.bind_right fun _ => Consumes.bind_right fun _ =>
      Consumes.bind_left (consumes_consume (by simp))

/-- One more declaration, or the end of the text. -/
def programStep (before : Program) : Parser (Program ⊕ Program) := do
  let t ← lookahead
  if t.kind = .finish then
    return .inr before.reverse
  else do
    let next ← declaration
    return .inl (next :: before)

/-- A round of a program that goes on has taken a declaration, so the loop ends. -/
theorem advances_programStep (before : Program) : Advances (programStep before) := by
  refine Advances.bind_right fun t => ?_
  split
  · exact advances_pure_inr _
  · exact (Consumes.bind_left consumes_declaration).advances

/-- A program, to the end of the text. -/
def program : Parser Program := loop programStep advances_programStep []

/-- What a parser answers on a whole text; what it leaves is not looked at. -/
def Parser.parse {α : Type} (p : Parser α) (source : String) : Except SyntaxError α :=
  (TokenStream.ofSource source >>= fun s => (p.run s).1).mapError (Fault.toError source)

/-- The program that a text is. -/
def parseProgram (source : String) : Except SyntaxError Program := program.parse source

/-- The expression that a text starts with. -/
def parseExpression (source : String) : Except SyntaxError Expr := expression.parse source

end LSystem.Syntax
