import LSystem.Except
import LSystem.Proofs.Syntax.Streaming
import LSystem.Proofs.Syntax.Viable.Program

/-!
# Errors stand at the first impossible token

A text that is cut into tokens and yet is no program is refused at one of its tokens or
for a limit.  When it is a token, what stands before it begins some program of the
grammar and what stands up to it begins none; the limits on heights and numerals play no
part in either.
-/

namespace LSystem.Syntax

open LSystem.Syntax.Parser

/-! ### Beginnings of programs -/

/-- A program by the grammar, however high its expressions and large its numerals. -/
def IsProgram (ls : List Lexeme) : Prop := ∃ p, Grammar.Declarations Grammar.Expression ls p

/-- The first lexemes of a program. -/
def BeginsProgram (ls : List Lexeme) : Prop := ∃ ms, IsProgram (ls ++ ms)

/-- A stream without a fault is read as a program, or it is refused for a limit, or at
its first token that goes on with no program. -/
theorem refused_of_run_program {s s' : TokenStream} {fault : Fault} (hs : s.Whole)
    (hrun : program.run s = (.error fault, s')) (hcause : ¬fault.cause.Limits) :
    fault.position = s'.lookahead.position ∧ ∃ ls, s.Reads ls s' ∧ BeginsProgram ls ∧
      (s'.lookahead.kind = .finish → ¬IsProgram ls) ∧
      (s'.lookahead.kind ≠ .finish → ¬BeginsProgram (ls ++ [s'.lookahead.lexeme])) := by
  have hend : Opens (oneOf [.finish]) (· ∈ [.finish]) := opens_oneOf fun _ h => h
  obtain ⟨hplace, ls, hreads, hbegins, hnone⟩ :=
    (predictive_program s _ hs hend).refused fault s' hrun hcause
  refine ⟨hplace, ls, hreads, hbegins, fun hkind hprogram => hnone [] ?_,
    fun hkind hprogram => ?_⟩
  · exact Language.append_mem_mul hprogram (singleton_mem_oneOf.2 (List.mem_singleton.2 hkind))
  · obtain ⟨ms, hprogram⟩ := hprogram
    have hfinish : [⟨.finish, ""⟩] ∈ oneOf [.finish] := singleton_mem_oneOf.2 (by simp)
    have hmem := Language.append_mem_mul (mem_words.2 hprogram) hfinish
    exact hnone (ms ++ [⟨.finish, ""⟩]) (by simpa using hmem)

/-! ### Tokens and their places -/

namespace TokenStream

variable {s s' : TokenStream} {ls : List Lexeme} {tokens : List Token}

/-- A stream of which all tokens can be collected is cut short by no fault. -/
theorem whole_of_collect (h : s.collect = .ok tokens) : s.Whole := by
  induction s generalizing tokens with
  | token t rest ih =>
      obtain ⟨others, hrest, -⟩ := collect_token_eq_ok h
      exact ih hrest
  | cut t f => cases h
  | finish position => trivial

/-- What is read of a stream are the first of its tokens. -/
theorem Reads.exists_collect (h : s.Reads ls s') (hcollect : s.collect = .ok tokens) :
    ∃ before others, tokens = before ++ others ∧ before.map Token.lexeme = ls ∧
      s'.collect = .ok others := by
  induction h generalizing tokens with
  | refl s => exact ⟨[], tokens, rfl, rfl, hcollect⟩
  | token legible tail ih =>
      obtain ⟨more, hrest, rfl⟩ := collect_token_eq_ok hcollect
      obtain ⟨before, others, rfl, rfl, hothers⟩ := ih hrest
      exact ⟨_ :: before, others, rfl, rfl, hothers⟩

end TokenStream

/-- The tokens of a lexer stand where it is or behind it, each before the next. -/
theorem Lexer.places_of_collect {l : Lexer} {s : TokenStream} {tokens : List Token}
    (hs : l.stream = .ok s) (hcollect : s.collect = .ok tokens) :
    (∀ t ∈ tokens, l.position.UpTo t.position) ∧
      tokens.Pairwise fun t u => t.position.Before u.position := by
  fun_induction Lexer.stream l generalizing s tokens with
  | case1 l f l' hnext => cases hs
  | case2 l t l' hnext hkind =>
      cases hs
      cases hcollect
      simpa using (places_of_next hnext).1
  | case3 l t l' hnext hkind f hrest ih =>
      cases hs
      cases hcollect
  | case4 l t l' hnext hkind rest hrest ih =>
      cases hs
      obtain ⟨others, hothers, rfl⟩ := TokenStream.collect_token_eq_ok hcollect
      obtain ⟨hafter, hpairwise⟩ := ih hrest hothers
      obtain ⟨hfront, hbehind⟩ := places_of_next hnext
      have hbefore (u : Token) (hu : u ∈ others) : t.position.Before u.position :=
        (hbehind hkind).trans_upTo (hafter u hu)
      refine ⟨List.forall_mem_cons.2 ⟨hfront, fun u hu => ?_⟩,
        List.pairwise_cons.2 ⟨hbefore, hpairwise⟩⟩
      exact hfront.trans (.inr (hbefore u hu))

theorem Position.Before.ne {p q : Position} (h : p.Before q) : p ≠ q := by
  rintro rfl
  unfold Before at h
  omega

/-! ### Messages -/

/-- The message blames a token, and not a numeral or the height of an expression. -/
def SyntaxError.BlamesToken (e : SyntaxError) : Prop :=
  "Unexpected ".toList <+: e.message.toList ∨ e.message = "Empty rule string"

/-- A message that blames a token begins in one of two ways, of which the first two letters are
enough. -/
theorem SyntaxError.BlamesToken.take_message {e : SyntaxError} (h : e.BlamesToken) :
    e.message.toList.take 2 ∈ [['U', 'n'], ['E', 'm']] := by
  rcases h with ⟨rest, h⟩ | h
  · rw [← h]
    simp
  · rw [h]
    simp

theorem SyntaxCause.message_invalidNumber (text : String) :
    (invalidNumber text).message = "Invalid number '" ++ text ++ "'" := rfl

theorem SyntaxCause.message_tooDeep :
    tooDeep.message = "Expression nested deeper than " ++ toString maxNesting ++ " levels" := rfl

/-- The messages about limits begin differently. Two letters tell them from the messages that
blame a token. -/
theorem SyntaxCause.Limits.take_message {cause : SyntaxCause} (h : cause.Limits) :
    cause.message.toList.take 2 ∈ [['I', 'n'], ['E', 'x']] := by
  cases cause with
  | invalidNumber text =>
      rw [message_invalidNumber]
      simp
  | tooDeep =>
      rw [message_tooDeep]
      simp
  | _ => exact h.elim

/-- An error whose message blames a token was raised for no limit, since the messages of the
limits begin with other letters. -/
theorem not_limits_of_blamesToken {source : String} {fault : Fault}
    (h : (fault.toError source).BlamesToken) : ¬fault.cause.Limits := by
  intro hlimits
  have htoken : fault.cause.message.toList.take 2 ∈ [['U', 'n'], ['E', 'm']] := h.take_message
  have hlimit := hlimits.take_message
  generalize fault.cause.message.toList.take 2 = start at htoken hlimit
  revert start
  simp

/-- **The first impossible token.**  An error that blames a token stands at exactly one token
of the text.  The tokens before it begin a program, and with it they begin none, so that no
earlier token could have been refused and no later one need be looked at.  Where it is the end
of the text that is blamed, the tokens before it begin a program and are none. -/
theorem parseProgram_refuses_first_impossible_token {source : String} {tokens : List Token}
    {e : SyntaxError} (htokens : tokenize source = .ok tokens)
    (he : parseProgram source = .error e) (hblames : e.BlamesToken) :
    ∃ before t after, tokens = before ++ t :: after ∧ t.position = e.place ∧
      (∀ u ∈ before ++ after, u.position ≠ e.place) ∧
      BeginsProgram (before.map Token.lexeme) ∧
      (t.kind = .finish → ¬IsProgram (before.map Token.lexeme)) ∧
      (t.kind ≠ .finish → ¬BeginsProgram ((before ++ [t]).map Token.lexeme)) := by
  obtain ⟨s, hs, hcollect⟩ := tokenize_eq_ok.1 htokens
  rw [parseProgram_of_stream hs] at he
  cases hanswer : (program.run s).1 with
  | ok p =>
      rw [hanswer] at he
      cases he
  | error fault =>
      rw [hanswer] at he
      cases he
      have hrun : program.run s = (.error fault, (program.run s).2) := Prod.ext hanswer rfl
      obtain ⟨hplace, ls, hreads, hbegins, hfinish, hnone⟩ := refused_of_run_program
        (TokenStream.whole_of_collect hcollect) hrun (not_limits_of_blamesToken hblames)
      obtain ⟨before, others, rfl, rfl, hothers⟩ := hreads.exists_collect hcollect
      obtain ⟨after, rfl⟩ := TokenStream.collect_eq_cons hothers
      obtain ⟨-, hpairwise⟩ := Lexer.places_of_collect hs hcollect
      obtain ⟨-, hfront, hbefore⟩ := List.pairwise_append.1 hpairwise
      obtain ⟨hafter, -⟩ := List.pairwise_cons.1 hfront
      refine ⟨before, _, after, rfl, hplace.symm, fun u hu => ?_, hbegins, hfinish, ?_⟩
      · have hne : u.position ≠ (program.run s).2.lookahead.position := by
          rcases List.mem_append.1 hu with hu | hu
          · exact (hbefore u hu _ List.mem_cons_self).ne
          · exact (hafter u hu).ne.symm
        exact fun heq => hne (heq.trans hplace)
      · simpa using hnone

/-- A missing semicolon is noticed at the word behind it. The tokens up to it begin no program,
and those before it do, since more symbols could follow or the semicolon. -/
theorem length_is_no_symbol :
    ∃ tokens e, tokenize "axiom F length x;" = .ok tokens ∧
      parseProgram "axiom F length x;" = .error e ∧ e.place = ⟨1, 9⟩ ∧ e.BlamesToken ∧
      ∃ before t after, tokens = before ++ t :: after ∧ t.position = e.place ∧
        (∀ u ∈ before ++ after, u.position ≠ e.place) ∧
        BeginsProgram (before.map Token.lexeme) ∧
        (t.kind = .finish → ¬IsProgram (before.map Token.lexeme)) ∧
        (t.kind ≠ .finish → ¬BeginsProgram ((before ++ [t]).map Token.lexeme)) := by
  have htokens : tokenize "axiom F length x;" = .ok [⟨.keyword .start, "axiom", ⟨1, 1⟩⟩,
      ⟨.identifier, "F", ⟨1, 7⟩⟩, ⟨.keyword .length, "length", ⟨1, 9⟩⟩,
      ⟨.identifier, "x", ⟨1, 16⟩⟩, ⟨.semicolon, ";", ⟨1, 17⟩⟩, ⟨.finish, "", ⟨1, 18⟩⟩] := by cbv
  have hparse : parseProgram "axiom F length x;" = .error ⟨1, 9,
      "Unexpected token 'length', expected symbol, '[' or ']'",
      "axiom F length x;\n        ^"⟩ := by decide +kernel
  have hblames : SyntaxError.BlamesToken ⟨1, 9,
      "Unexpected token 'length', expected symbol, '[' or ']'",
      "axiom F length x;\n        ^"⟩ := .inl (by decide)
  exact ⟨_, _, htokens, hparse, rfl, hblames,
    parseProgram_refuses_first_impossible_token htokens hparse hblames⟩

end LSystem.Syntax
