/-!
# Tokens

The vocabulary of the language: thirteen reserved words, a few marks, numerals
and names.  A token carries its exact text and the place of its first
character.  Lines and columns count from one, and a column counts the bytes of
the text's UTF-8 form.
-/

namespace LSystem.Syntax

/-- A place in a source text. -/
structure Position where
  line : Nat
  column : Nat
  deriving DecidableEq, Repr

/-- The place of the first character of a text. -/
def Position.start : Position := ⟨1, 1⟩

/-- The place after one more character. -/
def Position.advance (p : Position) (c : Char) : Position :=
  if c = '\n' then ⟨p.line + 1, 1⟩ else ⟨p.line, p.column + c.utf8Size⟩

/-- The place after a stretch of text. -/
def Position.after (p : Position) (text : List Char) : Position :=
  text.foldl Position.advance p

/-- The reserved words.  `start` opens the declaration of the start string. -/
inductive Keyword where
  | var
  | transform
  | rule
  | start
  | length
  | width
  | color
  | iterate
  | bias
  | rotate
  | translate
  | rad
  | deg
  deriving DecidableEq, Repr

/-- The spelling of a reserved word. -/
def Keyword.text : Keyword → String
  | .var => "var"
  | .transform => "transform"
  | .rule => "rule"
  | .start => "axiom"
  | .length => "length"
  | .width => "width"
  | .color => "color"
  | .iterate => "iterate"
  | .bias => "bias"
  | .rotate => "rotate"
  | .translate => "translate"
  | .rad => "rad"
  | .deg => "deg"

/-- All reserved words. -/
def Keyword.all : List Keyword :=
  [.var, .transform, .rule, .start, .length, .width, .color, .iterate, .bias,
    .rotate, .translate, .rad, .deg]

/-- The reserved word with exactly this spelling. -/
def Keyword.ofText? (word : String) : Option Keyword :=
  Keyword.all.find? fun k => k.text == word

/-- The kinds of token. -/
inductive TokenKind where
  | keyword (word : Keyword)
  | assign
  | leftBracket
  | rightBracket
  | leftParen
  | rightParen
  | comma
  | semicolon
  | plus
  | minus
  | star
  | slash
  | number
  | identifier
  /-- The end of the text, which no character stands for. -/
  | finish
  deriving DecidableEq, Repr

/-- How messages name a kind of token. -/
def TokenKind.describe : TokenKind → String
  | .keyword word => "'" ++ word.text ++ "'"
  | .assign => "'='"
  | .leftBracket => "'['"
  | .rightBracket => "']'"
  | .leftParen => "'('"
  | .rightParen => "')'"
  | .comma => "','"
  | .semicolon => "';'"
  | .plus => "'+'"
  | .minus => "'-'"
  | .star => "'*'"
  | .slash => "'/'"
  | .number => "number"
  | .identifier => "identifier"
  | .finish => "end of input"

/-- The mark that a character is by itself. -/
def TokenKind.ofMark? : Char → Option TokenKind
  | '=' => some .assign
  | '[' => some .leftBracket
  | ']' => some .rightBracket
  | '(' => some .leftParen
  | ')' => some .rightParen
  | ',' => some .comma
  | ';' => some .semicolon
  | '+' => some .plus
  | '-' => some .minus
  | '*' => some .star
  | '/' => some .slash
  | _ => none

/-- A token, its text and the place of its first character. -/
structure Token where
  kind : TokenKind
  text : String
  position : Position
  deriving DecidableEq, Repr

end LSystem.Syntax
