import LSystem.Except
import LSystem.Proofs.Syntax.Descent
import LSystem.Proofs.Syntax.Lexical.Partition

/-!
# Errors point into their text

Every error is laid to something that the lexer meets: a character that it refuses, or a
token that it delivers.  A parser is `Honest` when it does so whatever its stream, and the
parsers of the grammar are.

What stands before a token or a refused character in its line are tokens and blanks, each
of one byte, since a comment takes the rest of its line with it.  So the column of an
error, which counts bytes, counts characters as well, and the caret of its excerpt stands
under the first character of what the error is laid to.
-/

namespace LSystem.Syntax

open LSystem.Syntax.Parser

/-! ### Honest parsers -/

/-- One stream is left of another after some tokens. -/
inductive TokenStream.Tail : TokenStream → TokenStream → Prop
  | refl (s : TokenStream) : Tail s s
  | token {t : Token} {s rest : TokenStream} (h : Tail s rest) : Tail s (.token t rest)

namespace TokenStream

variable {s z rest : TokenStream} {f : Fault}

/-- A tail of a tail is a tail of the whole stream. -/
theorem Tail.trans (h : z.Tail rest) (h' : rest.Tail s) : z.Tail s := by
  induction h' with
  | refl _ => exact h
  | token _ ih => exact .token (ih h)

/-- A fault is the one behind the token in front, or it is laid to this token. -/
def Accounts (s : TokenStream) (f : Fault) : Prop :=
  (∃ t, s = .cut t f) ∨ f.position = s.lookahead.position ∧ f.cause.About s.lookahead

end TokenStream

namespace Parser

variable {α β τ : Type} {p : Parser α} {s z rest : TokenStream}
  {answer : Except Fault α × TokenStream}

/-- From a stream a parser comes to a tail of it, or to a fault for which a tail
accounts. -/
inductive Explained (s : TokenStream) : Except Fault α × TokenStream → Prop
  | ok {a : α} {rest : TokenStream} (hrest : rest.Tail s) : Explained s (.ok a, rest)
  | error {f : Fault} {z rest : TokenStream} (htail : z.Tail s) (haccounts : z.Accounts f) :
      Explained s (.error f, rest)

/-- A parser whose faults are explained. -/
def Honest (p : Parser α) : Prop := ∀ s, Explained s (p.run s)

/-- What is explained from a tail of a stream is explained from the stream, since a tail of the
tail is one of the stream. -/
theorem Explained.mono (h : Explained z answer) (hz : z.Tail s) : Explained s answer := by
  cases h with
  | ok hrest => exact .ok (hrest.trans hz)
  | error htail haccounts => exact .error (htail.trans hz) haccounts

/-- Where an honest parser succeeds, it leaves a tail of the stream that it began with. -/
theorem Honest.tail {a : α} (hp : Honest p) (hrun : p.run s = (.ok a, z)) : z.Tail s := by
  have h := hp s
  rw [hrun] at h
  cases h with
  | ok hrest => exact hrest

/-- Where an honest parser fails, some tail of its stream accounts for the fault. -/
theorem Honest.accounts {f : Fault} (hp : Honest p) (hrun : p.run s = (.error f, rest)) :
    ∃ z : TokenStream, z.Tail s ∧ z.Accounts f := by
  have h := hp s
  rw [hrun] at h
  cases h with
  | error htail haccounts => exact ⟨_, htail, haccounts⟩

/-- One honest parser after another is honest: the second begins at a tail of the stream of the
first. -/
theorem Honest.bind {f : α → Parser β} (hp : Honest p) (hf : ∀ a, Honest (f a)) :
    Honest (p >>= f) := by
  intro s
  rw [run_bind]
  match hrun : p.run s with
  | (.ok a, rest) => exact (hf a rest).mono (hp.tail hrun)
  | (.error fault, rest) =>
      obtain ⟨z, htail, haccounts⟩ := hp.accounts hrun
      exact .error htail haccounts

/-- A loop of honest rounds is honest, by induction on the stream, which every round that goes on
makes shorter. -/
theorem Honest.loop {step : τ → Parser (τ ⊕ α)} {advances : ∀ x, Advances (step x)}
    (hstep : ∀ x, Honest (step x)) (x : τ) : Honest (loop step advances x) := by
  intro s
  induction x, s using loopFrom.induct step advances with
  | case1 x s fault rest hrun =>
      obtain ⟨z, htail, haccounts⟩ := (hstep x).accounts hrun
      rw [run_loop, hrun]
      exact .error htail haccounts
  | case2 x s a rest hrun =>
      rw [run_loop, hrun]
      exact .ok ((hstep x).tail hrun)
  | case3 x s y rest hrun hlt ih =>
      rw [run_loop, hrun]
      exact ih.mono ((hstep x).tail hrun)

/-- A fault at the token in front that says nothing wrong about it is explained. -/
theorem explained_here {cause : SyntaxCause} {rest : TokenStream} (h : cause.About s.lookahead) :
    Explained s ((.error ⟨cause, s.lookahead.position⟩, rest) : Except Fault α × TokenStream) :=
  .error (.refl s) (.inr ⟨rfl, h⟩)

/-- What follows on taking a token may still be explained by the stream from it on. -/
theorem explained_take {f : Token → Parser α}
    (h : ∀ rest, rest.Tail s → Explained s ((f s.lookahead).run rest)) :
    Explained s ((advance >>= f).run s) := by
  cases s with
  | token t rest => exact h rest (.token (.refl rest))
  | cut t fault => exact .error (.refl _) (.inl ⟨t, rfl⟩)
  | finish place => exact h _ (.refl _)

/-- A numeral is refused when the token behind it is in front already. -/
theorem explained_numeral {rest : TokenStream} (h : rest.Tail s) :
    Explained s ((numeral s.lookahead).run rest) := by
  rcases numeral_cases s.lookahead.text with ⟨a, hvalue⟩ | hrefused
  · rw [hvalue _ rfl]
    exact .ok h
  · rw [hrefused _ rfl]
    have habout : (SyntaxCause.invalidNumber s.lookahead.text).About s.lookahead := rfl
    exact explained_here habout

/-- The parsers of the grammar are honest. The pieces complain of the token in front or of the one
just taken, and a sequence of honest parsers complains of what one of them does. -/
theorem compositional_honest : Compositional @Honest where
  succeed _ s := .ok (.refl s)
  look _ hf s := hf s.lookahead s
  take _ hf s := explained_take fun rest hrest => (hf s.lookahead rest).mono hrest
  refuse habout s := explained_here (habout s.lookahead)
  unexpected _ _ := explained_here ⟨rfl, rfl⟩
  numeral _ := explained_take fun _ => explained_numeral
  bind := Honest.bind
  loop := Honest.loop

end Parser

/-! ### What the lexer meets -/

namespace Lexer

variable {l m n : Lexer} {t : Token} {ts : List Token} {f : Fault} {s z rest : TokenStream}

/-- The tails of a stream are the streams of the lexer later on. -/
theorem takes_of_tail (hz : z.Tail s) (hs : l.stream = .ok s) :
    ∃ ts m, l.Takes ts m ∧ m.stream = .ok z := by
  induction hz generalizing l with
  | refl _ => exact ⟨[], l, .nil l, hs⟩
  | token _ ih =>
      obtain ⟨n, hnext, hkind, hrest⟩ := next_of_stream_token hs
      obtain ⟨ts, m, htakes, hm⟩ := ih hrest
      exact ⟨_, m, .cons hnext hkind htakes, hm⟩

/-- A lexer that has taken some tokens and delivers another one has taken all of them, unless that
one is the end. -/
theorem Takes.concat (h : l.Takes ts m) (hnext : m.next = (.ok t, n)) (hkind : t.kind ≠ .finish) :
    l.Takes (ts ++ [t]) n := by
  induction h with
  | nil l => exact .cons hnext hkind (.nil n)
  | cons hfirst hfirstKind _ ih => exact .cons hfirst hfirstKind (ih hnext)

end Lexer

/-- A fault is laid to what the lexer meets after some tokens: a character that it
refuses, or a token at the place of the fault. -/
inductive Laid (source : String) (f : Fault) : List Char → Prop
  | character {ts : List Token} {m n : Lexer} {c : Char}
      (htakes : (Lexer.ofSource source).Takes ts m) (hnext : m.next = (.error f, n))
      (hcause : f.cause = .unexpectedCharacter c) : Laid source f [c]
  | token {ts : List Token} {m n : Lexer} {t : Token} (htakes : (Lexer.ofSource source).Takes ts m)
      (hnext : m.next = (.ok t, n)) (hplace : f.position = t.position) (habout : f.cause.About t) :
      Laid source f t.text.toList

section Errors

variable {source : String} {f : Fault} {e : SyntaxError} {ts : List Token} {m n : Lexer}

/-- A fault of the lexer is laid to a character. -/
theorem exists_laid_of_fault (htakes : (Lexer.ofSource source).Takes ts m)
    (hnext : m.next = (.error f, n)) : ∃ offender, Laid source f offender := by
  obtain ⟨_, c, _, -, -, -, -, rfl, -⟩ := Lexer.next_eq_error hnext
  exact ⟨[c], .character htakes hnext rfl⟩

/-- An error of the lexer is laid to a character that it refuses, behind the tokens that it has
delivered before. -/
theorem exists_laid_of_tokenize (h : tokenize source = .error e) :
    ∃ f offender, Laid source f offender ∧ e = f.toError source := by
  obtain ⟨_, _, _, _, m, n, -, -, -, -, htakes, hnext, he⟩ := cuts_of_tokenize_error h
  obtain ⟨offender, hlaid⟩ := exists_laid_of_fault htakes hnext
  exact ⟨_, offender, hlaid, he⟩

/-- What an honest parser complains of is laid to something. It is a token of the text, or the
character at which the text cannot be cut any further. -/
theorem exists_laid_of_parse {α : Type} {p : Parser α} (hp : Honest p)
    (h : p.parse source = .error e) :
    ∃ f offender, Laid source f offender ∧ e = f.toError source := by
  unfold Parser.parse TokenStream.ofSource at h
  cases hs : (Lexer.ofSource source).stream with
  | error f =>
      rw [hs] at h
      cases h
      obtain ⟨n, hnext⟩ := Lexer.next_of_stream_error hs
      obtain ⟨offender, hlaid⟩ := exists_laid_of_fault (.nil _) hnext
      exact ⟨f, offender, hlaid, rfl⟩
  | ok s =>
      rw [hs] at h
      have hexplained := hp s
      change (p.run s).1.mapError (Fault.toError source) = .error e at h
      match hrun : p.run s with
      | (.ok a, rest) =>
          rw [hrun] at h
          cases h
      | (.error f, rest) =>
          rw [hrun] at h hexplained
          cases h
          cases hexplained with
          | error htail haccounts =>
              obtain ⟨ts, m, htakes, hm⟩ := Lexer.takes_of_tail htail hs
              rcases haccounts with ⟨t, rfl⟩ | ⟨hplace, habout⟩
              · obtain ⟨n, hnext, hkind, hfault⟩ := Lexer.next_of_stream_cut hm
                obtain ⟨k, hbehind⟩ := Lexer.next_of_stream_error hfault
                obtain ⟨offender, hlaid⟩ := exists_laid_of_fault (htakes.concat hnext hkind) hbehind
                exact ⟨f, offender, hlaid, rfl⟩
              · obtain ⟨n, hnext⟩ := Lexer.next_of_stream_ok hm
                exact ⟨f, _, .token htakes hnext hplace habout, rfl⟩

/-! ### What stands before it in its line -/

/-- A gap leaves nothing of a comment in the line that it ends in. The comment takes the rest of
its line with it, and the gap goes on behind the line end. -/
theorem ascii_lastLine_gap {before gap : List Char} (hgap : Gap False gap)
    (h : Ascii (lastLine before)) : Ascii (lastLine (before ++ gap)) := by
  induction hgap generalizing before with
  | nil => rwa [List.append_nil]
  | @blank c gap hblank _ ih =>
      rw [← List.singleton_append, ← List.append_assoc]
      refine ih (ascii_lastLine_append h ?_)
      exact List.forall_mem_singleton.2 (ascii_of_isBlank hblank)
  | @comment mark body gap _ _ hend _ ih =>
      have hhead : gap.head? = some '\n' := hend.resolve_right fun h => h.1
      have hmem : '\n' ∈ gap := List.mem_of_head? hhead
      have hempty : Ascii (lastLine []) := fun c hc => absurd hc List.not_mem_nil
      rw [← List.append_assoc, lastLine_append_of_mem _ hmem, ← List.nil_append gap]
      exact ih hempty

/-- Behind tokens and blanks the line that has begun consists of characters of one byte: a
comment, which alone may hold others, ends with its line. -/
theorem ascii_lastLine_cells {p : Position} {text before after : List Char} {cells : List Cell}
    (hcuts : Cuts p text cells after) (h : Ascii (lastLine before)) :
    Ascii (lastLine (before ++ layout cells)) := by
  induction hcuts generalizing before with
  | nil p text => rwa [layout_nil, List.append_nil]
  | cons hgap _ hlongest _ ih =>
      rw [layout_cons, String.toList_ofList, ← List.append_assoc, ← List.append_assoc]
      exact ih (ascii_lastLine_append (ascii_lastLine_gap hgap h) hlongest.spells.ascii)

/-- The caret of an error stands where a text begins in a line.  Before it are characters
of one byte each, so that the column counts characters too, and the first character of
the text is there when the line is shown. -/
def SyntaxError.CaretUnder (e : SyntaxError) (line text : List Char) : Prop :=
  ∃ before after, line = before ++ (text ++ after) ∧ Ascii before ∧
    bytes before = e.column - 1 ∧ before.length = e.column - 1 ∧
      ∃ c ∈ text.head?, (line.rdropWhile (· == '\r'))[e.column - 1]? = some c

/-- Behind a gap the lexer comes to a text without blanks; the caret of a fault there
stands under it. -/
theorem caretUnder_of_takes {gap text rest : List Char}
    (htakes : (Lexer.ofSource source).Takes ts m) (hrest : m.rest = gap ++ (text ++ rest))
    (hgap : Gap False gap) (hne : text ≠ [])
    (hplain : ∀ c ∈ text, isBlank c = false) (hplace : f.position = m.position.after gap) :
    ∃ line, (f.toError source).Shows source line ∧ (f.toError source).CaretUnder line text := by
  obtain ⟨cells, -, hcuts, hsource, hposition⟩ := htakes.cuts_source
  rw [hrest, ← List.append_assoc] at hsource
  rw [hposition] at hplace
  have hline : ∀ c ∈ text, (c != '\n') = true := by
    intro c hc
    rw [bne_iff_ne]
    rintro rfl
    exact absurd (hplain _ hc) (by decide)
  have hfirst : firstLine (text ++ rest) = text ++ firstLine rest :=
    List.takeWhile_append_of_pos hline
  have hempty : Ascii (lastLine []) := fun c hc => absurd hc List.not_mem_nil
  have hascii : Ascii (lastLine (layout cells ++ gap)) :=
    ascii_lastLine_gap hgap (ascii_lastLine_cells hcuts hempty)
  have hcolumn : (f.toError source).column - 1 = bytes (lastLine (layout cells ++ gap)) := by
    have hplaced : (f.toError source).column = 1 + bytes (lastLine (layout cells ++ gap)) :=
      congrArg Position.column hplace
    rw [hplaced, Nat.add_sub_cancel_left]
  have hlength : (lastLine (layout cells ++ gap)).length = (f.toError source).column - 1 := by
    rw [hcolumn, bytes_of_ascii hascii]
  refine ⟨_, Fault.toError_shows hsource hplace, _, firstLine rest, by rw [hfirst], hascii,
    hcolumn.symm, hlength, ?_⟩
  obtain ⟨c, tail, rfl⟩ := List.exists_cons_of_ne_nil hne
  have hreturn : ¬(c == '\r') = true := by
    rw [beq_iff_eq]
    rintro rfl
    exact absurd (hplain _ List.mem_cons_self) (by decide)
  refine ⟨c, rfl, ?_⟩
  rw [hfirst, List.cons_append, rdropWhile_append_cons (· == '\r') hreturn, ← hlength,
    List.getElem?_append_right (Nat.le_refl _), Nat.sub_self]
  rfl

/-- What a fault is laid to is under the caret, unless it is the end of the text. -/
theorem Laid.shows {offender : List Char} (h : Laid source f offender) : ∃ line,
    (f.toError source).Shows source line ∧
      (offender = [] ∧ f.position = .behind source.toList ∨
        (f.toError source).CaretUnder line offender) := by
  cases h with
  | @character ts m n c htakes hnext hcause =>
      obtain ⟨gap, d, rest, hrest, hgap, hsolid, -, hf, -⟩ := Lexer.next_eq_error hnext
      obtain rfl : d = c := by
        rw [hf] at hcause
        exact SyntaxCause.unexpectedCharacter.inj hcause
      have hplace : f.position = m.position.after gap := congrArg Fault.position hf
      have hplain : ∀ c ∈ [d], isBlank c = false := by
        intro c hc
        rw [List.mem_singleton.1 hc]
        exact hsolid.blank d rfl
      obtain ⟨line, hshows, hcaret⟩ :=
        caretUnder_of_takes htakes hrest hgap (List.cons_ne_nil d []) hplain hplace
      exact ⟨line, hshows, .inr hcaret⟩
  | @token ts m n t htakes hnext hplace habout =>
      by_cases hkind : t.kind = .finish
      · obtain ⟨cells, -, -, hsource, hposition⟩ := htakes.cuts_source
        obtain ⟨-, rfl, -⟩ := Lexer.next_eq_finish_iff.1 ⟨hnext, hkind⟩
        rw [hposition, ← hsource] at hplace
        exact ⟨_, Fault.toError_shows (List.append_nil _).symm hplace, .inl ⟨rfl, hplace⟩⟩
      · obtain ⟨gap, front, rest, hrest, hgap, -, hlongest, ht, -⟩ :=
          (Lexer.next_eq_token_iff hkind).1 hnext
        rw [ht] at hplace
        obtain ⟨line, hshows, hcaret⟩ := caretUnder_of_takes htakes hrest hgap
          hlongest.spells.ne_nil (fun c hc => (hlongest.spells.plain c hc).1) hplace
        refine ⟨line, hshows, .inr ?_⟩
        rw [ht, String.toList_ofList]
        exact hcaret

/-- **Errors point into their text.**  An error of the lexer or of a parser has the number
of a line of its text and a column up to the end of this line.  Its excerpt is the line
without the carriage returns at its end, and a caret in this column.  Unless it is laid to
the end of the text, the column is that of the token or the character to which it is laid,
in bytes and in characters. -/
theorem errors_point_into_source (h : tokenize source = .error e ∨
      parseProgram source = .error e ∨ parseExpression source = .error e) :
    ∃ f offender line, e = f.toError source ∧ Laid source f offender ∧ e.Shows source line ∧
      (offender = [] ∧ f.position = .behind source.toList ∨ e.CaretUnder line offender) := by
  have hlaid : ∃ f offender, Laid source f offender ∧ e = f.toError source := by
    rcases h with h | h | h
    · exact exists_laid_of_tokenize h
    · exact exists_laid_of_parse compositional_honest.program h
    · exact exists_laid_of_parse compositional_honest.expression h
  obtain ⟨f, offender, hlaid, rfl⟩ := hlaid
  obtain ⟨line, hshows, hcaret⟩ := hlaid.shows
  exact ⟨f, offender, line, rfl, hlaid, hshows, hcaret⟩

end Errors

/-- A numeral that is refused behind a comment with a letter of two bytes, in a line that
ends with a carriage return. -/
theorem error_points_to_numeral : ∃ e, parseProgram "# é\nrule 5\r" = .error e ∧
    e.excerpt = "rule 5\n     ^" ∧ ∃ f offender line, e = f.toError "# é\nrule 5\r" ∧
      Laid "# é\nrule 5\r" f offender ∧ e.Shows "# é\nrule 5\r" line ∧
      (offender = [] ∧ f.position = .behind "# é\nrule 5\r".toList ∨
        e.CaretUnder line offender) := by
  have hparse : parseProgram "# é\nrule 5\r" = .error ⟨2, 6,
      "Unexpected number '5', expected identifier", "rule 5\n     ^"⟩ := by decide +kernel
  exact ⟨_, hparse, rfl, errors_point_into_source (.inr (.inl hparse))⟩

end LSystem.Syntax
