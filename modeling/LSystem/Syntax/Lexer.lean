import LSystem.Syntax.Fault

/-!
# From text to tokens

Blanks and comments separate tokens and mean nothing else.  A comment runs
from `#` or `//` to the end of its line.  After them comes the longest text
that is a token: a numeral, a word, which is reserved only when the whole of
it is, or a single mark.

`Lexer.next` takes one token off the text.  A character that starts no token
stops the lexer where it is, so that the same fault comes again.
`Lexer.stream` is the sequence of all tokens, ended by the end of the text or
by the first fault.
-/

namespace LSystem.Syntax

/-- The characters that separate tokens. -/
def isBlank (c : Char) : Bool :=
  c == ' ' || c == '\t' || c == '\n' || c == '\x0c' || c == '\r'

/-- Whether a comment begins with a character and the text after it. -/
def opensComment (c : Char) (rest : List Char) : Bool :=
  c == '#' || (c == '/' && rest.head? == some '/')

/-- The blanks and comments at the front of a text and what follows them. -/
def spanTrivia (inComment : Bool) : List Char → List Char × List Char
  | [] => ([], [])
  | c :: rest =>
    if inComment then
      let (trivia, after) := spanTrivia (c != '\n') rest
      (c :: trivia, after)
    else if isBlank c || opensComment c rest then
      let (trivia, after) := spanTrivia (!isBlank c) rest
      (c :: trivia, after)
    else ([], c :: rest)

/-- The characters of a word. -/
def isWordChar (c : Char) : Bool := c.isAlphanum || c == '_'

/-- The characters that start a word. -/
def isWordStart (c : Char) : Bool := c.isAlpha || c == '_'

/-- Whether a text starts with a point and a digit. -/
def startsFraction : List Char → Bool
  | '.' :: d :: _ => d.isDigit
  | _ => false

/-- The numeral at the front of a text: digits, and a point with digits after
it where there are any. -/
def spanNumeral (text : List Char) : List Char × List Char :=
  let whole := text.takeWhile Char.isDigit
  let rest := text.dropWhile Char.isDigit
  if startsFraction rest then
    (whole ++ rest.take 1 ++ (rest.drop 1).takeWhile Char.isDigit,
      (rest.drop 1).dropWhile Char.isDigit)
  else (whole, rest)

/-- The kind of a whole word. -/
def wordKind (word : String) : TokenKind :=
  match Keyword.ofText? word with
  | some k => .keyword k
  | none => .identifier

/-- The first token of a text that does not start with trivia: its kind, its
text and what follows it. -/
def lexeme? (text : List Char) : Option (TokenKind × List Char × List Char) :=
  match text with
  | [] => some (.finish, [], [])
  | c :: rest =>
    if c.isDigit || startsFraction text then
      let (numeral, after) := spanNumeral text
      some (.number, numeral, after)
    else if isWordStart c then
      let word := text.takeWhile isWordChar
      some (wordKind (String.ofList word), word, text.dropWhile isWordChar)
    else (TokenKind.ofMark? c).map fun kind => (kind, [c], rest)

/-- A lexer in the middle of a text. -/
structure Lexer where
  /-- The text that is still to be read. -/
  rest : List Char
  /-- The place of the first character of `rest`. -/
  position : Position
  /-- The place of the last token that was read or refused. -/
  tokenPosition : Position
  deriving DecidableEq, Repr

/-- The lexer at the front of a text. -/
def Lexer.ofSource (source : String) : Lexer := ⟨source.toList, .start, .start⟩

/-- The next token, the end of the text being one. -/
def Lexer.next (l : Lexer) : Except Fault Token × Lexer :=
  let (trivia, rest) := spanTrivia false l.rest
  let place := l.position.after trivia
  match lexeme? rest with
  | some (kind, text, after) =>
    (.ok ⟨kind, String.ofList text, place⟩, ⟨after, place.after text, place⟩)
  | none =>
    (.error ⟨.unexpectedCharacter (rest.headD '?'), place⟩, ⟨rest, place, place⟩)

/-- The tokens of a text in order, up to its end or to its first fault.  The
token in front is always there: a text whose very first token is a fault has
no stream. -/
inductive TokenStream where
  | token (t : Token) (rest : TokenStream)
  /-- A token that is followed by a fault. -/
  | cut (t : Token) (f : Fault)
  | finish (position : Position)
  deriving DecidableEq, Repr

/-- The number of tokens before the end. -/
def TokenStream.length : TokenStream → Nat
  | .token _ rest => rest.length + 1
  | .cut _ _ => 1
  | .finish _ => 0

/-- Nothing is lost where blanks and comments are skipped: what was skipped and what is left make
up the text. -/
theorem spanTrivia_append (inComment : Bool) (text : List Char) :
    (spanTrivia inComment text).1 ++ (spanTrivia inComment text).2 = text := by
  induction text generalizing inComment with
  | nil => rfl
  | cons c rest ih =>
      simp only [spanTrivia]
      split
      · simp [ih]
      · split
        · simp [ih]
        · rfl

theorem spanNumeral_append (text : List Char) :
    (spanNumeral text).1 ++ (spanNumeral text).2 = text := by
  simp only [spanNumeral]
  split
  · rw [List.append_assoc, List.takeWhile_append_dropWhile, List.append_assoc,
      List.take_append_drop, List.takeWhile_append_dropWhile]
  · exact List.takeWhile_append_dropWhile

/-- Where a digit or a fraction stands in front, the numeral that is read is not empty. -/
theorem spanNumeral_ne_nil {c : Char} {rest : List Char}
    (h : c.isDigit || startsFraction (c :: rest)) :
    (spanNumeral (c :: rest)).1 ≠ [] := by
  by_cases hd : c.isDigit
  · simp only [spanNumeral, List.takeWhile_cons_of_pos hd]
    split <;> simp
  · have hf : startsFraction (c :: rest) = true := by simpa [hd] using h
    simp [spanNumeral, List.takeWhile_cons_of_neg hd, List.dropWhile_cons_of_neg hd, hf]

/-- **Partition.** A token's text and what follows it are the text it was taken from. Each of the
three branches cuts the text in two and drops nothing. -/
theorem lexeme_append {text lexeme after : List Char} {kind : TokenKind}
    (h : lexeme? text = some (kind, lexeme, after)) : lexeme ++ after = text := by
  cases text with
  | nil =>
      simp only [lexeme?, Option.some.injEq, Prod.mk.injEq] at h
      simp [← h.2.1, ← h.2.2]
  | cons c rest =>
      simp only [lexeme?] at h
      split at h
      · simp only [Option.some.injEq, Prod.mk.injEq] at h
        obtain ⟨-, rfl, rfl⟩ := h
        exact spanNumeral_append _
      · split at h
        · simp only [Option.some.injEq, Prod.mk.injEq] at h
          obtain ⟨-, rfl, rfl⟩ := h
          exact List.takeWhile_append_dropWhile
        · simp only [Option.map_eq_some_iff, Prod.mk.injEq] at h
          obtain ⟨_, -, -, rfl, rfl⟩ := h
          rfl

/-- Only the end of the text is a token without characters. -/
theorem lexeme_ne_nil {text lexeme after : List Char} {kind : TokenKind}
    (h : lexeme? text = some (kind, lexeme, after)) (hkind : kind ≠ .finish) :
    lexeme ≠ [] := by
  cases text with
  | nil => simp [lexeme?] at h; exact absurd h.1.symm hkind
  | cons c rest =>
      simp only [lexeme?] at h
      split at h
      · rename_i hc
        simp only [Option.some.injEq, Prod.mk.injEq] at h
        obtain ⟨-, rfl, -⟩ := h
        exact spanNumeral_ne_nil hc
      · split at h
        · rename_i hs
          simp only [Option.some.injEq, Prod.mk.injEq] at h
          obtain ⟨-, rfl, -⟩ := h
          have hw : isWordChar c = true := by
            simp only [isWordStart, isWordChar, Char.isAlphanum, Bool.or_eq_true] at hs ⊢
            rcases hs with hs | hs
            · exact .inl (.inl hs)
            · exact .inr hs
          simp [List.takeWhile_cons_of_pos hw]
        · simp only [Option.map_eq_some_iff, Prod.mk.injEq] at h
          obtain ⟨_, -, -, rfl, -⟩ := h
          exact List.cons_ne_nil c []

/-- **Progress.** Every token but the end takes at least one character off the text. This is why
the stream of a lexer is finite. -/
theorem Lexer.length_rest_next {l l' : Lexer} {t : Token}
    (h : l.next = (.ok t, l')) (hkind : t.kind ≠ .finish) :
    l'.rest.length < l.rest.length := by
  simp only [Lexer.next] at h
  split at h
  · rename_i kind text after hl
    obtain ⟨ht, rfl⟩ : _ ∧ _ := by simpa using h
    have happ := congrArg List.length (lexeme_append hl)
    have htrivia := congrArg List.length (spanTrivia_append false l.rest)
    have hne := List.length_pos_iff.mpr (lexeme_ne_nil hl (by rw [← ht] at hkind; exact hkind))
    simp only [List.length_append] at happ htrivia
    simp only
    omega
  · simp at h

/-- All tokens that a lexer is going to read. -/
def Lexer.stream (l : Lexer) : Except Fault TokenStream :=
  match _ : l.next with
  | (.error f, _) => .error f
  | (.ok t, l') =>
    if _ : t.kind = .finish then .ok (.finish t.position)
    else match l'.stream with
      | .error f => .ok (.cut t f)
      | .ok rest => .ok (.token t rest)
termination_by l.rest.length
decreasing_by exact Lexer.length_rest_next ‹_› ‹_›

/-- The stream of a lexer by its first token and the stream behind it. -/
theorem Lexer.stream_eq (l : Lexer) : l.stream =
    match l.next with
    | (.error f, _) => .error f
    | (.ok t, l') =>
      if t.kind = .finish then .ok (.finish t.position)
      else match l'.stream with
        | .error f => .ok (.cut t f)
        | .ok rest => .ok (.token t rest) := by
  rw [Lexer.stream]
  split
  · rename_i hnext
    rw [hnext]
  · rename_i t l' hnext
    rw [hnext]
    rfl

/-- The tokens of a text. -/
def TokenStream.ofSource (source : String) : Except Fault TokenStream :=
  (Lexer.ofSource source).stream

/-- The tokens of a stream as one list, the end among them; or the fault that
cuts the stream short. -/
def TokenStream.collect : TokenStream → Except Fault (List Token)
  | .token t rest => rest.collect.map (t :: ·)
  | .cut _ f => .error f
  | .finish position => .ok [⟨.finish, "", position⟩]

/-- All tokens of a text. -/
def tokenize (source : String) : Except SyntaxError (List Token) :=
  (TokenStream.ofSource source >>= TokenStream.collect).mapError (Fault.toError source)

end LSystem.Syntax
