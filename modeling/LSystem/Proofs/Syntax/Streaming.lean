import Mathlib
import LSystem.Proofs.Syntax.Acceptance
import LSystem.Proofs.Syntax.Descent
import LSystem.Proofs.Syntax.Places

/-!
# Reading while the text is cut into tokens

A program is read off a text one token at a time: a `Cursor` holds the token in
front and the lexer behind it, and takes a token by lexing the next.  A text can
also be cut into tokens first and the program be read off the finished list.  Both
are sources of tokens for the same descent, and `parseProgram_streams` compares
them.

Where lexing fails the list is never finished, but a cursor may stop before it
comes to the fault.  It then stops at a token, and every token stands before the
fault.
-/

namespace LSystem.Syntax

open LSystem.Syntax.Parser

/-! ### Lexing on demand -/

/-- A lexer and the token that it has read last, which is the one in front. -/
structure Cursor where
  ahead : Token
  lexer : Lexer

/-- The cursor at the front of a text. -/
def Cursor.ofSource (source : String) : Except Fault Cursor :=
  match (Lexer.ofSource source).next with
  | (.error f, _) => .error f
  | (.ok t, lexer) => .ok ⟨t, lexer⟩

/-- Tokens that are lexed when they come to the front. -/
def lexing : TokenSource Cursor where
  front cursor := cursor.ahead
  next cursor :=
    match cursor.lexer.next with
    | (.error f, _) => .error f
    | (.ok t, lexer) => .ok ⟨t, lexer⟩

/-- The stream of the tokens that a cursor is going to deliver. -/
inductive Cursor.Delivers : Cursor → TokenStream → Prop
  | token {t : Token} {l : Lexer} {rest : TokenStream} (hrest : l.stream = .ok rest) :
      Delivers ⟨t, l⟩ (.token t rest)
  | cut {t : Token} {l : Lexer} {f : Fault} (hfault : l.stream = .error f) :
      Delivers ⟨t, l⟩ (.cut t f)
  | finish (position place : Position) :
      Delivers ⟨⟨.finish, "", position⟩, ⟨[], position, place⟩⟩ (.finish position)

/-- The end of the text is found only there. A character in front is a token of another kind or
none at all. -/
theorem eq_nil_of_lexeme? {text word after : List Char}
    (h : lexeme? text = some (.finish, word, after)) : text = [] := by
  cases text with
  | nil => rfl
  | cons c rest =>
      rw [lexeme?] at h
      split at h
      · cases h
      · split at h
        · have hkind : wordKind (String.ofList ((c :: rest).takeWhile isWordChar)) = .finish :=
            (Prod.mk.inj (Option.some.inj h)).1
          unfold wordKind at hkind
          split at hkind
          · cases hkind
          · cases hkind
        · obtain ⟨kind, hmark, hpair⟩ := Option.map_eq_some_iff.1 h
          obtain rfl : kind = .finish := (Prod.mk.inj hpair).1
          unfold TokenKind.ofMark? at hmark
          split at hmark <;> cases hmark

/-- At the end of the text the lexer has nothing left to read. -/
theorem Lexer.next_finish {l l' : Lexer} {t : Token} (h : l.next = (.ok t, l'))
    (hkind : t.kind = .finish) :
    t = ⟨.finish, "", t.position⟩ ∧ l' = ⟨[], t.position, t.position⟩ := by
  simp only [next] at h
  split at h
  · rename_i kind text after hlexeme
    cases h
    obtain rfl : kind = .finish := hkind
    rw [eq_nil_of_lexeme? hlexeme] at hlexeme
    cases hlexeme
    exact ⟨rfl, rfl⟩
  · cases h

/-- A lexer without a stream stops at once. A fault behind the first token would be part of the
stream. -/
theorem Lexer.next_of_stream_error {l : Lexer} {f : Fault} :
    l.stream = .error f → ∃ l', l.next = (.error f, l') := by
  fun_cases Lexer.stream l with
  | case1 g l' hnext =>
      rintro ⟨⟩
      exact ⟨l', hnext⟩
  | case2 | case3 | case4 => rintro ⟨⟩

/-- The token in front of the stream is what the lexer reads. -/
theorem Lexer.next_of_stream_ok {l : Lexer} {s : TokenStream} :
    l.stream = .ok s → ∃ l', l.next = (.ok s.lookahead, l') := by
  fun_cases Lexer.stream l with
  | case1 => rintro ⟨⟩
  | case2 t l' hnext hkind =>
      rintro ⟨⟩
      rw [(next_finish hnext hkind).1] at hnext
      exact ⟨l', hnext⟩
  | case3 t l' hnext | case4 t l' hnext =>
      rintro ⟨⟩
      exact ⟨l', hnext⟩

/-- Behind a token that is not the end the lexer goes on with the rest. -/
theorem Lexer.next_of_stream_token {l : Lexer} {t : Token} {rest : TokenStream} :
    l.stream = .ok (.token t rest) →
      ∃ l', l.next = (.ok t, l') ∧ t.kind ≠ .finish ∧ l'.stream = .ok rest := by
  fun_cases Lexer.stream l with
  | case4 u l' hnext hkind others hrest =>
      rintro ⟨⟩
      exact ⟨l', hnext, hkind, hrest⟩
  | case1 | case2 | case3 => rintro ⟨⟩

/-- A lexer whose stream is cut short behind its first token delivers this token and then comes to
the fault. -/
theorem Lexer.next_of_stream_cut {l : Lexer} {t : Token} {f : Fault} :
    l.stream = .ok (.cut t f) →
      ∃ l', l.next = (.ok t, l') ∧ t.kind ≠ .finish ∧ l'.stream = .error f := by
  fun_cases Lexer.stream l with
  | case3 u l' hnext hkind g hfault =>
      rintro ⟨⟩
      exact ⟨l', hnext, hkind, hfault⟩
  | case1 | case2 | case4 => rintro ⟨⟩

/-- The token that a lexer reads next and what it leaves deliver its stream. There is one case for
each form that the stream of what is left can have. -/
theorem Cursor.delivers_of_next {l l' : Lexer} {t : Token} {s : TokenStream}
    (hnext : l.next = (.ok t, l')) (hs : l.stream = .ok s) : Delivers ⟨t, l'⟩ s := by
  cases s with
  | token u rest =>
      obtain ⟨_, hnext', -, hrest⟩ := Lexer.next_of_stream_token hs
      rw [hnext] at hnext'
      cases hnext'
      exact .token hrest
  | cut u f =>
      obtain ⟨_, hnext', -, hfault⟩ := Lexer.next_of_stream_cut hs
      rw [hnext] at hnext'
      cases hnext'
      exact .cut hfault
  | finish position =>
      obtain ⟨_, hnext'⟩ := Lexer.next_of_stream_ok hs
      rw [hnext] at hnext'
      cases hnext'
      obtain ⟨-, rfl⟩ := Lexer.next_finish hnext rfl
      exact .finish position position

/-- Lexing on demand corresponds to the stream of the text, however a cursor and the stream that
it delivers go on. -/
theorem simulates_lexing : Simulates lexing Cursor.Delivers := by
  constructor
  · intro cursor s h
    cases h <;> rfl
  · intro cursor s h
    cases h with
    | token hrest =>
        obtain ⟨l', hnext⟩ := Lexer.next_of_stream_ok hrest
        refine .inl ⟨⟨_, l'⟩, _, ?_, rfl, Cursor.delivers_of_next hnext hrest⟩
        simp only [lexing, hnext]
    | cut hfault =>
        obtain ⟨l', hnext⟩ := Lexer.next_of_stream_error hfault
        refine .inr ⟨_, ?_, rfl⟩
        simp only [lexing, hnext]
    | finish position place =>
        exact .inl ⟨_, _, rfl, rfl, .finish position position⟩

/-! ### Finished lists and streams -/

/-- The tokens of a list, the last of which stays. -/
def listed : TokenSource (List Token) where
  front tokens := tokens.headD ⟨.finish, "", .start⟩
  next
    | _ :: t :: rest => .ok (t :: rest)
    | tokens => .ok tokens

/-- The tokens of a stream. -/
def streamed : TokenSource TokenStream where
  front := TokenStream.lookahead
  next
    | .token _ rest => .ok rest
    | .cut _ f => .error f
    | .finish position => .ok (.finish position)

/-- A stream as a source of tokens corresponds to itself, so a parser on a stream is one of its
own descents. -/
theorem simulates_streamed : Simulates streamed Eq := by
  constructor
  · rintro s _ rfl
    rfl
  · rintro s _ rfl
    cases s with
    | token t rest => exact .inl ⟨rest, rest, rfl, rfl, rfl⟩
    | cut t f => exact .inr ⟨f, rfl, rfl⟩
    | finish position => exact .inl ⟨_, _, rfl, rfl, rfl⟩

/-- The list of a stream with a token in front begins with this token, if there is a list at
all. -/
theorem TokenStream.collect_token_eq_ok {t : Token} {rest : TokenStream} {tokens : List Token}
    (h : (TokenStream.token t rest).collect = .ok tokens) :
    ∃ others, rest.collect = .ok others ∧ tokens = t :: others := by
  rw [collect] at h
  cases hrest : rest.collect with
  | error f =>
      rw [hrest] at h
      cases h
  | ok others =>
      rw [hrest] at h
      cases h
      exact ⟨others, rfl, rfl⟩

/-- What is collected has a first token, the one in front. It may be the end, but there is one. -/
theorem TokenStream.collect_eq_cons {s : TokenStream} {tokens : List Token}
    (h : s.collect = .ok tokens) : ∃ others, tokens = s.lookahead :: others := by
  cases s with
  | token t rest =>
      obtain ⟨others, -, rfl⟩ := collect_token_eq_ok h
      exact ⟨others, rfl⟩
  | cut t f => cases h
  | finish position =>
      cases h
      exact ⟨[], rfl⟩

/-- The finished list of a stream stands for the stream. The list has its end as the last token,
and the end is taken again and again on both sides. -/
theorem simulates_listed : Simulates listed fun tokens s => s.collect = .ok tokens := by
  constructor
  · intro tokens s h
    obtain ⟨others, rfl⟩ := TokenStream.collect_eq_cons h
    rfl
  · intro tokens s h
    refine .inl ?_
    cases s with
    | token t rest =>
        obtain ⟨others, hrest, rfl⟩ := TokenStream.collect_token_eq_ok h
        obtain ⟨more, rfl⟩ := TokenStream.collect_eq_cons hrest
        exact ⟨_, rest, rfl, rfl, hrest⟩
    | cut t f => cases h
    | finish position =>
        cases h
        exact ⟨_, .finish position, rfl, rfl, rfl⟩

/-! ### Streams that a fault cuts short -/

namespace TokenStream.CutBy

variable {f : Fault} {s s' : TokenStream}

/-- What is left of a stream that a fault cuts short is cut short by the same fault. -/
theorem next (h : s.CutBy f) (hnext : streamed.next s = .ok s') : s'.CutBy f := by
  cases s with
  | token t rest =>
      cases hnext
      exact h.2.2
  | cut t g => cases hnext
  | finish position => exact h.elim

/-- A stream that a fault cuts short fails with this fault and no other. -/
theorem eq_of_next (h : s.CutBy f) {g : Fault} (hnext : streamed.next s = .error g) : g = f := by
  cases s with
  | token t rest => cases hnext
  | cut t g =>
      cases hnext
      exact h.2.2
  | finish position => cases hnext

/-- The token in front is not the end and stands before the fault. -/
theorem lookahead (h : s.CutBy f) :
    s.lookahead.kind ≠ .finish ∧ s.lookahead.position.Before f.position := by
  cases s with
  | token t rest => exact ⟨h.1, h.2.1⟩
  | cut t g => exact ⟨h.1, h.2.1⟩
  | finish position => exact h.elim

/-- Of a stream that is cut short no program is read: it is read to the end or not at
all, and it is refused at a token before the fault or at the fault. -/
theorem run_program (h : s.CutBy f) : ∃ fault, (program.run s).1 = .error fault ∧
    (fault = f ∨ fault.position.Before f.position) := by
  obtain ⟨r, last, hruns⟩ := descends_program simulates_streamed (rfl : s = s)
  obtain ⟨_, hrun, rfl⟩ := hruns.run_eq simulates_streamed rfl
  cases r with
  | ok p =>
      have hlast := (hruns.invariant (fun hz => hz.next) h).lookahead
      exact absurd (lookahead_kind_of_run_program hrun) hlast.1
  | error fault =>
      refine ⟨fault, congrArg Prod.fst hrun, ?_⟩
      rcases hruns.fault_cases (fun hz => next hz) h rfl with
        ⟨z, hz, hnext⟩ | ⟨z, hz, hplace⟩
      · exact .inl (hz.eq_of_next hnext)
      · refine .inr ?_
        rw [hplace]
        exact hz.lookahead.2

end TokenStream.CutBy

/-! ### Streaming and finished lists -/

/-- The place of an error. -/
def SyntaxError.place (e : SyntaxError) : Position := ⟨e.line, e.column⟩

section Texts

variable {source : String}

/-- A cursor delivers the stream of its text, and where there is no cursor there is no
stream. -/
theorem Cursor.ofSource_cases (source : String) :
    (∃ f, ofSource source = .error f ∧ TokenStream.ofSource source = .error f) ∨
      ∃ cursor s, ofSource source = .ok cursor ∧ TokenStream.ofSource source = .ok s ∧
        cursor.Delivers s := by
  unfold Cursor.ofSource TokenStream.ofSource
  cases hs : (Lexer.ofSource source).stream with
  | error f =>
      obtain ⟨l, hnext⟩ := Lexer.next_of_stream_error hs
      rw [hnext]
      exact .inl ⟨f, rfl, rfl⟩
  | ok s =>
      obtain ⟨l, hnext⟩ := Lexer.next_of_stream_ok hs
      rw [hnext]
      exact .inr ⟨_, s, rfl, rfl, delivers_of_next hnext hs⟩

/-- Where a text has a stream, parsing it is running the parser on the stream, with the fault
turned into an error about the text. -/
theorem Parser.parse_of_stream {α : Type} {p : Parser α} {s : TokenStream}
    (hs : TokenStream.ofSource source = .ok s) :
    p.parse source = (p.run s).1.mapError (Fault.toError source) := by
  unfold Parser.parse
  rw [hs]
  rfl

theorem parseProgram_of_stream {s : TokenStream} (hs : TokenStream.ofSource source = .ok s) :
    parseProgram source = (program.run s).1.mapError (Fault.toError source) :=
  Parser.parse_of_stream hs

/-- Where a text has a stream, cutting it into tokens is collecting those of the stream. -/
theorem tokenize_of_stream {s : TokenStream} (hs : TokenStream.ofSource source = .ok s) :
    tokenize source = s.collect.mapError (Fault.toError source) := by
  unfold tokenize
  rw [hs]
  rfl

/-- A text whose first token is a fault has no program and no tokens, for the same
reason. -/
theorem eq_error_of_stream {f : Fault} (hs : TokenStream.ofSource source = .error f) :
    parseProgram source = .error (f.toError source) ∧
      tokenize source = .error (f.toError source) := by
  unfold parseProgram Parser.parse tokenize
  rw [hs]
  exact ⟨rfl, rfl⟩

/-- Where a text cannot be cut into tokens no program is read, and no later fault is
reported. -/
theorem exists_error_of_tokenize_error {e : SyntaxError} (h : tokenize source = .error e) :
    ∃ e', parseProgram source = .error e' ∧ (e' = e ∨ e'.place.Before e.place) := by
  cases hs : TokenStream.ofSource source with
  | error f =>
      obtain ⟨hparse, htokens⟩ := eq_error_of_stream hs
      rw [htokens] at h
      cases h
      exact ⟨_, hparse, .inl rfl⟩
  | ok s =>
      rw [tokenize_of_stream hs] at h
      cases hcollect : s.collect with
      | ok tokens =>
          rw [hcollect] at h
          cases h
      | error f =>
          rw [hcollect] at h
          cases h
          have hfault : ((Lexer.ofSource source).stream >>= TokenStream.collect) = .error f := by
            have hstream : (Lexer.ofSource source).stream = .ok s := hs
            rw [hstream]
            exact hcollect
          obtain ⟨fault, hrun, hplace⟩ := ((Lexer.cutBy_of_fault hfault).2 s hs).run_program
          refine ⟨fault.toError source, ?_, ?_⟩
          · rw [parseProgram_of_stream hs, hrun]
            rfl
          · rcases hplace with rfl | hbefore
            · exact .inl rfl
            · exact .inr hbefore

/-- The descent over the cursor of a text comes to the answer of its program. -/
theorem exists_answersOver_of_cursor {cursor : Cursor} (h : Cursor.ofSource source = .ok cursor) :
    ∃ answer, AnswersOver lexing program cursor answer ∧
      parseProgram source = answer.mapError (Fault.toError source) := by
  rcases Cursor.ofSource_cases source with ⟨f, herror, -⟩ | ⟨_, s, hok, hs, hdelivers⟩
  · rw [herror] at h
    cases h
  · rw [hok] at h
    cases h
    exact ⟨_, descends_program.answersOver simulates_lexing hdelivers, parseProgram_of_stream hs⟩

end Texts

/-- **Streaming agrees with cutting the text first.**  A text is read as a program by
the descent over its cursor, which lexes each token when it comes to the front.  When
the text can be cut into tokens, the descent over the finished list of its tokens
comes to the same answer.  When it cannot, no program is read, and the error is the
one of the lexer or stands before it. -/
theorem parseProgram_streams (source : String) :
    (∀ cursor, Cursor.ofSource source = .ok cursor → ∃ answer,
        AnswersOver lexing program cursor answer ∧
          parseProgram source = answer.mapError (Fault.toError source)) ∧
      (∀ f, Cursor.ofSource source = .error f → parseProgram source = .error (f.toError source)) ∧
      (∀ tokens, tokenize source = .ok tokens → ∃ answer,
        AnswersOver listed program tokens answer ∧
          parseProgram source = answer.mapError (Fault.toError source)) ∧
      ∀ e, tokenize source = .error e → ∃ e', parseProgram source = .error e' ∧
        (e' = e ∨ e'.place.Before e.place) := by
  refine ⟨fun cursor => exists_answersOver_of_cursor, fun f hfault => ?_, fun tokens htokens => ?_,
    fun e => exists_error_of_tokenize_error⟩
  · rcases Cursor.ofSource_cases source with ⟨_, herror, hs⟩ | ⟨cursor, s, hok, -⟩
    · rw [herror] at hfault
      cases hfault
      exact (eq_error_of_stream hs).1
    · rw [hok] at hfault
      cases hfault
  · obtain ⟨s, hs, hcollect⟩ := tokenize_eq_ok.1 htokens
    exact ⟨_, descends_program.answersOver simulates_listed hcollect, parseProgram_of_stream hs⟩

/-- A text that is cut into tokens, and one that is refused before it comes to the
character that is no token. -/
theorem streams_axiom_and_length :
    (∃ cursor, Cursor.ofSource "axiom a;" = .ok cursor ∧ ∃ answer,
        AnswersOver lexing program cursor answer ∧
          parseProgram "axiom a;" = answer.mapError (Fault.toError "axiom a;")) ∧
      (∃ tokens, tokenize "axiom a;" = .ok tokens ∧ tokens.length = 4 ∧ ∃ answer,
        AnswersOver listed program tokens answer ∧
          parseProgram "axiom a;" = answer.mapError (Fault.toError "axiom a;")) ∧
      ∃ e, tokenize "length ; ?" = .error e ∧ ∃ e', parseProgram "length ; ?" = .error e' ∧
        (e' = e ∨ e'.place.Before e.place) := by
  have htokens : tokenize "axiom a;" = .ok [⟨.keyword .start, "axiom", ⟨1, 1⟩⟩,
      ⟨.identifier, "a", ⟨1, 7⟩⟩, ⟨.semicolon, ";", ⟨1, 8⟩⟩, ⟨.finish, "", ⟨1, 9⟩⟩] := by cbv
  have hcut : TokenStream.ofSource "length ; ?" = .ok (.token ⟨.keyword .length, "length", ⟨1, 1⟩⟩
      (.cut ⟨.semicolon, ";", ⟨1, 8⟩⟩ ⟨.unexpectedCharacter '?', ⟨1, 10⟩⟩)) := by cbv
  have hfault : tokenize "length ; ?" =
      .error (Fault.toError "length ; ?" ⟨.unexpectedCharacter '?', ⟨1, 10⟩⟩) :=
    tokenize_of_stream hcut
  obtain ⟨hcursor, -, hlist, -⟩ := parseProgram_streams "axiom a;"
  obtain ⟨-, -, -, herror⟩ := parseProgram_streams "length ; ?"
  exact ⟨⟨_, rfl, hcursor _ rfl⟩, ⟨_, htokens, rfl, hlist _ htokens⟩, _, hfault, herror _ hfault⟩

end LSystem.Syntax
