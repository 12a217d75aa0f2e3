import LSystem.Proofs.Syntax.Program

/-!
# The accepted texts

A text is accepted exactly when it is cut into tokens without a fault, the
tokens before the end are derived by the grammar, every numeral has a finite
value and no expression is too high; and then the answer is the tree of the
derivation.  So a text stands for at most one program.

The reader looks at tokens one at a time and the grammar at all of them, so the
two meet in the stream of tokens, where only the end has the kind of the end.
-/

namespace LSystem.Syntax

open LSystem.Syntax.Parser

/-! ### Streams of texts -/

/-- Only the end of a stream is of the kind of the end. -/
def TokenStream.Proper : TokenStream → Prop
  | .token t rest => t.kind ≠ .finish ∧ rest.Proper
  | .cut t _ => t.kind ≠ .finish
  | .finish _ => True

/-- The stream that the lexer delivers is proper: a token of the end is the last one, and every
other token is of another kind. -/
theorem Lexer.proper_stream {l : Lexer} {s : TokenStream} (h : l.stream = .ok s) : s.Proper := by
  fun_induction Lexer.stream l generalizing s with
  | case1 l f l' hnext => cases h
  | case2 l t l' hnext hkind =>
      cases h
      trivial
  | case3 l t l' hnext hkind f hrest ih =>
      cases h
      exact hkind
  | case4 l t l' hnext hkind rest hrest ih =>
      cases h
      exact ⟨hkind, ih hrest⟩

namespace TokenStream

variable {s s' : TokenStream} {ls : List Lexeme} {position : Position}

/-- What is left of a proper stream after some tokens is proper again. -/
theorem Reads.proper (h : s.Reads ls s') (hs : s.Proper) : s'.Proper := by
  induction h with
  | refl _ => exact hs
  | token _ _ ih => exact ih hs.2

/-- In a proper stream a token of the end is the end itself, so a parser that sees it has read
everything. -/
theorem Proper.eq_finish (hs : s.Proper) (hkind : s.lookahead.kind = .finish) :
    ∃ position, s = .finish position := by
  cases s with
  | token t rest => exact absurd hkind hs.1
  | cut t f => exact absurd hkind hs
  | finish position => exact ⟨position, rfl⟩

/-- A stream that is read to its end is collected to what was read. -/
theorem Reads.collect (h : s.Reads ls (.finish position)) :
    ∃ tokens, s.collect = .ok (tokens ++ [⟨.finish, "", position⟩]) ∧
      tokens.map Token.lexeme = ls ∧ ∀ t ∈ tokens, t.lexeme.Legible := by
  generalize hend : TokenStream.finish position = s' at h
  induction h with
  | refl _ =>
      subst hend
      exact ⟨[], rfl, rfl, by simp⟩
  | @token t rest _ ls legible tail ih =>
      obtain ⟨tokens, hcollect, hmap, hall⟩ := ih hend
      refine ⟨t :: tokens, ?_, by simp [hmap], List.forall_mem_cons.2 ⟨legible, hall⟩⟩
      simp [TokenStream.collect, hcollect, Except.map]

/-- A stream that is collected without a fault can be read to its end. The induction is on the
stream, and the tokens of the list are taken off with it. -/
theorem reads_of_collect {tokens : List Token} {eof : Token}
    (h : s.collect = .ok (tokens ++ [eof])) (hall : ∀ t ∈ tokens, t.lexeme.Legible) :
    ∃ position, s.Reads (tokens.map Token.lexeme) (.finish position) := by
  induction s generalizing tokens with
  | token t rest ih =>
      rw [TokenStream.collect] at h
      cases hrest : rest.collect with
      | error f => simp [hrest, Except.map] at h
      | ok collected =>
          have hcons : t :: collected = tokens ++ [eof] := by simpa [hrest, Except.map] using h
          cases tokens with
          | nil =>
              have hnil : collected = [] := by simpa using (List.cons.inj hcons).2
              subst hnil
              cases rest with
              | token u tail =>
                  cases htail : tail.collect <;>
                    simp [TokenStream.collect, htail, Except.map] at hrest
              | cut u f => simp [TokenStream.collect] at hrest
              | finish position => simp [TokenStream.collect] at hrest
          | cons u tokens =>
              obtain ⟨rfl, rfl⟩ := List.cons.inj hcons
              rw [List.forall_mem_cons] at hall
              obtain ⟨position, hreads⟩ := ih hrest hall.2
              exact ⟨position, .token hall.1 hreads⟩
  | cut t f => simp [TokenStream.collect] at h
  | finish position =>
      have hnil : tokens = [] := by
        have hlength := congrArg List.length (Except.ok.inj h)
        simp only [List.length_append, List.length_cons, List.length_nil] at hlength
        exact List.length_eq_zero_iff.1 (by omega)
      subst hnil
      exact ⟨position, .refl _⟩

end TokenStream

/-! ### Acceptance -/

/-- A loop that answers has ended with a round that answers, and before that round what the
rounds keep is so. -/
theorem Parser.exists_last_round {σ α : Type} {step : σ → Parser (σ ⊕ α)}
    {advances : ∀ x, Advances (step x)} {Q : σ → TokenStream → Prop} {x : σ}
    {s s' : TokenStream} {a : α}
    (hkeeps : ∀ y s₁ z s₂, Q y s₁ → (step y).run s₁ = (.ok (.inl z), s₂) → Q z s₂)
    (hfirst : Q x s) (h : (loop step advances x).run s = (.ok a, s')) :
    ∃ y s₁, Q y s₁ ∧ (step y).run s₁ = (.ok (.inr a), s') := by
  induction x, s using loopFrom.induct step advances with
  | case1 x s f z hround =>
      rw [run_loop, hround] at h
      cases h
  | case2 x s b z hround =>
      rw [run_loop, hround] at h
      cases h
      exact ⟨x, s, hfirst, hround⟩
  | case3 x s y z hround hlt ih =>
      rw [run_loop, hround] at h
      exact ih (hkeeps x s y z hfirst hround) h

/-- A program is read to the end of its stream. The loop of declarations ends only there. -/
theorem lookahead_kind_of_run_program {s s' : TokenStream} {p : Program}
    (h : program.run s = (.ok p, s')) : s'.lookahead.kind = .finish := by
  obtain ⟨before, s₁, -, hround⟩ :=
    exists_last_round (Q := fun _ _ => True) (fun _ _ _ _ _ _ => trivial) trivial h
  rw [programStep, run_lookahead_bind] at hround
  split at hround
  · rename_i hkind
    obtain ⟨-, rfl⟩ : _ ∧ s₁ = s' := by simpa [run_pure] using hround
    exact hkind
  · obtain ⟨d, s₂, -, hpure⟩ := run_bind_eq_ok hround
    simp [run_pure] at hpure

/-- The answer of a reader of a whole stream, by the grammar. -/
theorem run_program_iff {s : TokenStream} (hs : s.Proper) {p : Program} :
    (program.run s).1 = .ok p ↔
      ∃ ls position, s.Reads ls (.finish position) ∧ Grammar.Declarations Admits ls p := by
  constructor
  · intro h
    have hrun : program.run s = (.ok p, (program.run s).2) := Prod.ext h rfl
    obtain ⟨ls, hreads, hp⟩ := sound_program s p _ hrun
    obtain ⟨position, hend⟩ :=
      (hreads.proper hs).eq_finish (lookahead_kind_of_run_program hrun)
    exact ⟨ls, position, hend ▸ hreads, hp⟩
  · intro h
    obtain ⟨ls, position, hreads, hp⟩ := h
    rw [complete_program s ls _ p hreads hp rfl]

/-- What a text stands for: its tokens are derived by the grammar, all numerals
have a finite value, and no expression is too high. -/
def Denotes (source : String) (p : Program) : Prop :=
  ∃ tokens eof, tokenize source = .ok (tokens ++ [eof]) ∧ eof.kind = .finish ∧
    Grammar.Declarations Grammar.Expression (tokens.map Token.lexeme) p ∧
    (∀ t ∈ tokens, t.kind = .number → (Number.readNumeral t.text.toList).isFinite) ∧
    p.AllExpressions fun e => e.height ≤ maxNesting

/-- A text is accepted exactly if its stream exists and the parser of programs succeeds on it;
positions and errors have no part in an accepted text. -/
theorem parseProgram_eq_ok {source : String} {p : Program} :
    parseProgram source = .ok p ↔
      ∃ s, TokenStream.ofSource source = .ok s ∧ (program.run s).1 = .ok p := by
  unfold parseProgram Parser.parse
  cases hs : TokenStream.ofSource source with
  | error fault => simp [bind, Except.bind, Except.mapError]
  | ok s =>
      cases hrun : (program.run s).1 <;> simp [bind, Except.bind, Except.mapError, hrun]

/-- The tokens of a text are those of its stream, which is what makes the list of tokens and the
reader speak of the same thing. -/
theorem tokenize_eq_ok {source : String} {tokens : List Token} :
    tokenize source = .ok tokens ↔
      ∃ s, TokenStream.ofSource source = .ok s ∧ s.collect = .ok tokens := by
  unfold tokenize
  cases hs : TokenStream.ofSource source with
  | error fault => simp [bind, Except.bind, Except.mapError]
  | ok s => cases hrun : s.collect <;> simp [bind, Except.bind, Except.mapError, hrun]

/-- The parser accepts what the grammar derives and answers with the tree of the derivation:
soundness and completeness of the reader, put together for whole texts. -/
theorem parseProgram_eq_ok_iff_denotes {source : String} {p : Program} :
    parseProgram source = .ok p ↔ Denotes source p := by
  rw [parseProgram_eq_ok]
  constructor
  · intro h
    obtain ⟨s, hs, hrun⟩ := h
    obtain ⟨ls, position, hreads, hp⟩ := (run_program_iff (Lexer.proper_stream hs)).1 hrun
    obtain ⟨tokens, hcollect, rfl, hall⟩ := hreads.collect
    obtain ⟨hderived, hheight⟩ := Grammar.Declarations.and_iff.1 hp
    exact ⟨tokens, _, tokenize_eq_ok.2 ⟨s, hs, hcollect⟩, rfl, hderived, hall, hheight⟩
  · intro h
    obtain ⟨tokens, eof, htokens, -, hderived, hall, hheight⟩ := h
    obtain ⟨s, hs, hcollect⟩ := tokenize_eq_ok.1 htokens
    obtain ⟨position, hreads⟩ := TokenStream.reads_of_collect hcollect hall
    refine ⟨s, hs, (run_program_iff (Lexer.proper_stream hs)).2 ⟨_, position, hreads, ?_⟩⟩
    exact Grammar.Declarations.and_iff.2 ⟨hderived, hheight⟩

/-- **Acceptance.**  A text is read as a program exactly when it stands for it,
and it stands for at most one. -/
theorem parseProgram_accepts_exactly_the_grammar (source : String) :
    (∀ p, parseProgram source = .ok p ↔ Denotes source p) ∧
      Subsingleton { p // Denotes source p } := by
  refine ⟨fun p => parseProgram_eq_ok_iff_denotes, ⟨?_⟩⟩
  intro h h'
  obtain ⟨p, hp⟩ := h
  obtain ⟨q, hq⟩ := h'
  have heq : Except.ok p = Except.ok q :=
    (parseProgram_eq_ok_iff_denotes.2 hp).symm.trans (parseProgram_eq_ok_iff_denotes.2 hq)
  exact Subtype.ext (Except.ok.inj heq)

end LSystem.Syntax
