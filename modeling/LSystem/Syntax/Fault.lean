import LSystem.Syntax.Token

/-!
# Syntax errors

What can be wrong with a text is a `SyntaxCause`; where, a `Position`.  The two
together are a `Fault`, which knows nothing of the text around it.  Only when a
fault leaves the library does it become a `SyntaxError`: its message in words,
and the offending line with a caret under the place.
-/

namespace LSystem.Syntax

/-- The deepest expression tree that is accepted. -/
def maxNesting : Nat := 256

/-- What a parser was ready to accept. -/
inductive Expectation where
  | oneOf (kinds : List TokenKind)
  | declaration
  | symbol
  | transformKind
  | value
  deriving DecidableEq, Repr

/-- How messages name what was expected. -/
def Expectation.describe : Expectation → String
  | .oneOf kinds => String.intercalate " or " (kinds.map TokenKind.describe)
  | .declaration => "declaration"
  | .symbol => "symbol, '[' or ']'"
  | .transformKind => "transform type 'rotate' or 'translate'"
  | .value => "value"

/-- What is wrong at a place of a text. -/
inductive SyntaxCause where
  /-- A character that starts no token. -/
  | unexpectedCharacter (c : Char)
  /-- A token where another was expected. -/
  | unexpectedToken (kind : TokenKind) (text : String) (expected : Expectation)
  /-- A rule whose replacement is announced and then missing. -/
  | emptyRule
  /-- A numeral beyond the finite range. -/
  | invalidNumber (text : String)
  /-- An expression tree higher than `maxNesting`. -/
  | tooDeep
  deriving DecidableEq, Repr

/-- The message of a cause. -/
def SyntaxCause.message : SyntaxCause → String
  | .unexpectedCharacter c => "Unexpected character '" ++ c.toString ++ "'"
  | .unexpectedToken kind text expected =>
    let found := match kind with
      | .finish => "end of input"
      | .identifier | .number => kind.describe ++ " '" ++ text ++ "'"
      | _ => "token " ++ kind.describe
    "Unexpected " ++ found ++ ", expected " ++ expected.describe
  | .emptyRule => "Empty rule string"
  | .invalidNumber text => "Invalid number '" ++ text ++ "'"
  | .tooDeep => "Expression nested deeper than " ++ toString maxNesting ++ " levels"

/-- A cause and its place. -/
structure Fault where
  cause : SyntaxCause
  position : Position
  deriving DecidableEq, Repr

/-- A syntax error as it is shown. -/
structure SyntaxError where
  line : Nat
  column : Nat
  message : String
  /-- The line of the text and, below it, a caret under the place. -/
  excerpt : String
  deriving DecidableEq, Repr

/-- The line of a text that has the given number of lines before it, empty
past the end. -/
def lineAfter : Nat → List Char → List Char
  | _, [] => []
  | 0, text => text.takeWhile (· != '\n')
  | lines + 1, text => lineAfter lines ((text.dropWhile (· != '\n')).drop 1)

/-- A line without the carriage returns at its end. -/
def trimReturns (line : List Char) : List Char :=
  (line.reverse.dropWhile (· == '\r')).reverse

/-- A line of a text with a caret below the given column. -/
def excerptAt (source : String) (line column : Nat) : String :=
  String.ofList (trimReturns (lineAfter (line - 1) source.toList) ++
    '\n' :: (List.replicate (column - 1) ' ' ++ ['^']))

/-- The error with a given message at a given place of a text. -/
def SyntaxError.atPlace (source : String) (line column : Nat) (message : String) :
    SyntaxError :=
  ⟨line, column, message, excerptAt source line column⟩

/-- A fault of a text as it is shown. -/
def Fault.toError (source : String) (fault : Fault) : SyntaxError :=
  .atPlace source fault.position.line fault.position.column fault.cause.message

/-- The full text of a syntax error. -/
def SyntaxError.describe (e : SyntaxError) : String :=
  "[" ++ toString e.line ++ ":" ++ toString e.column ++ "] " ++ e.message ++ "\n" ++ e.excerpt

end LSystem.Syntax
