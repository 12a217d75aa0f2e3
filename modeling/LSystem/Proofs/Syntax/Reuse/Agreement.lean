import LSystem.Proofs.Syntax.Lexical.Progress
import LSystem.Proofs.Syntax.Reuse.Counting

/-!
# The counting parser and the parser with a budget

A counting parser `Follows` a parser on streams when it comes to the same answer or fault,
stops where the parser stops, and leaves its count as it was.  The pieces of the grammar do
so, and sequences and loops do when their parts do.

An operand is where the two differ.  A reader inside of `nesting` operands reads it like
the parser whose budget is what `nesting` leaves of the limit (`follows_operand`); that the
count goes up before the operand and comes down after an error as well as after an answer
is all that this takes.
-/

namespace LSystem.Syntax.Counting

variable {α β σ : Type} {nesting : Nat}

/-- On a stream the reader does with enough steps what the parser does, it comes to deliver
what the parser leaves, and its count is what it was before. -/
def FollowsAt (s : TokenStream) (m : Nat → CountingM α) (nesting : Nat) (p : Parser α) : Prop :=
  ∀ ⦃cursor : Cursor⦄, cursor.Delivers s → ∃ enough cursor', cursor'.Delivers (p.run s).2 ∧
    ∀ steps, enough ≤ steps →
      (m steps).run.run ⟨cursor, nesting⟩ = some ((p.run s).1, ⟨cursor', nesting⟩)

/-- The reader does so on all streams. -/
def Follows (m : Nat → CountingM α) (nesting : Nat) (p : Parser α) : Prop :=
  ∀ s, FollowsAt s m nesting p

/-! ### Sequences and loops -/

/-- Two readers one after the other: the second begins in the state in which the first has
answered, and an error or a lack of steps ends both. -/
theorem run_bind (m : CountingM α) (f : α → CountingM β) (r : Reader) : (m >>= f).run.run r =
    match m.run.run r with
    | some (.ok a, r') => (f a).run.run r'
    | some (.error fault, r') => some (.error fault, r')
    | none => none := by
  rw [ExceptT.run_bind, StateT.run_bind]
  match m.run.run r with
  | some (.ok a, r') => rfl
  | some (.error fault, r') => rfl
  | none => rfl

variable {m : Nat → CountingM α} {f : Nat → α → CountingM β} {p : Parser α} {q : α → Parser β}
  {s : TokenStream}

theorem follows_pure (a : α) : Follows (fun _ => pure a) nesting (pure a) :=
  fun _ cursor hs => ⟨0, cursor, hs, fun _ _ => rfl⟩

/-- A sequence is followed if its first part is, and the second from where the first answers. The
larger of the two numbers of steps is enough for both. -/
theorem FollowsAt.bind (hm : FollowsAt s m nesting p)
    (hf : ∀ a s', p.run s = (.ok a, s') → FollowsAt s' (fun steps => f steps a) nesting (q a)) :
    FollowsAt s (fun steps => m steps >>= f steps) nesting (p >>= q) := by
  intro cursor hs
  obtain ⟨enough, middle, hmiddle, hruns⟩ := hm hs
  rw [Parser.run_bind]
  match hrun : p.run s with
  | (.error fault, rest) =>
      rw [hrun] at hmiddle hruns
      refine ⟨enough, middle, hmiddle, fun steps hsteps => ?_⟩
      rw [run_bind, hruns steps hsteps]
  | (.ok a, rest) =>
      rw [hrun] at hmiddle hruns
      obtain ⟨more, cursor', hcursor', hrest⟩ := hf a rest hrun hmiddle
      refine ⟨max enough more, cursor', hcursor', fun steps hsteps => ?_⟩
      rw [run_bind, hruns steps (le_of_max_le_left hsteps)]
      exact hrest steps (le_of_max_le_right hsteps)

/-- On all streams the two parts of a sequence may be compared separately. -/
theorem Follows.bind (hm : Follows m nesting p)
    (hf : ∀ a, Follows (fun steps => f steps a) nesting (q a)) :
    Follows (fun steps => m steps >>= f steps) nesting (p >>= q) :=
  fun s => (hm s).bind fun a s' _ => hf a s'

/-- What is done with one step more is done with enough steps. -/
theorem followsAt_of_succ (h : FollowsAt s (fun steps => m (steps + 1)) nesting p) :
    FollowsAt s m nesting p := by
  intro cursor hs
  obtain ⟨enough, cursor', hcursor', hruns⟩ := h hs
  refine ⟨enough + 1, cursor', hcursor', fun steps hsteps => ?_⟩
  obtain ⟨steps, rfl⟩ := Nat.exists_eq_add_one_of_ne_zero (Nat.ne_zero_of_lt hsteps)
  exact hruns steps (Nat.le_of_succ_le_succ hsteps)

/-- A parser that is followed with enough steps is followed with one step more, which is what the
loops have to hand on. -/
theorem Follows.succ (h : Follows m nesting p) :
    Follows (fun steps => m (steps + 1)) nesting p := by
  intro s cursor hs
  obtain ⟨enough, cursor', hcursor', hruns⟩ := h s hs
  exact ⟨enough, cursor', hcursor', fun steps hsteps => hruns _ (Nat.le_succ_of_le hsteps)⟩

/-- A loop has rounds enough, since the parser takes a token in each. The induction is on the
length of the stream, which bounds the rounds that are left. -/
theorem Follows.loop {step : Nat → σ → CountingM (σ ⊕ α)} {round : σ → Parser (σ ⊕ α)}
    {advances : ∀ x, Parser.Advances (round x)}
    (hstep : ∀ x, Follows (fun steps => step steps x) nesting (round x)) (x : σ) :
    Follows (fun steps => Counting.loop (step steps) steps x) nesting
      (Parser.loop round advances x) := by
  intro s
  -- A round uses up one of the steps, so what follows on it is a loop of other steps.
  induction hlength : s.length using Nat.strongRecOn generalizing step x s with
  | ind n ih =>
      refine followsAt_of_succ ?_
      rw [Parser.loop_eq]
      refine FollowsAt.bind ((hstep x).succ s) fun next s' hrun => ?_
      cases next with
      | inr a => exact follows_pure a s'
      | inl y =>
          have hlt := advances x s y s' hrun
          exact ih s'.length (hlength ▸ hlt) (fun y => (hstep y).succ) y s' rfl

/-! ### Single tokens -/

/-- The token in front of a cursor is the one in front of the stream that it delivers. -/
theorem follows_lookahead : Follows (fun _ => lookahead) nesting Parser.lookahead := by
  intro s cursor hs
  refine ⟨0, cursor, hs, fun steps _ => ?_⟩
  have hfront : cursor.ahead = s.lookahead := simulates_lexing.front hs
  change some (Except.ok cursor.ahead, _) = some (Except.ok s.lookahead, _)
  rw [hfront]

/-- A fault that is thrown is the fault of the parser that fails, and the count stays. -/
theorem follows_throw (fault : Fault) :
    Follows (fun _ => (throw fault : CountingM α)) nesting (Parser.fail fault) :=
  fun _ cursor hs => ⟨0, cursor, hs, fun _ _ => rfl⟩

/-- Taking a token asks the lexer for the next one: it comes to the front, or the fault of the
lexer is thrown and the token in front stays. -/
theorem run_advance (r : Reader) : advance.run.run r =
    match r.cursor.lexer.next with
    | (.error fault, lexer) => some (.error fault, ⟨⟨r.cursor.ahead, lexer⟩, r.nesting⟩)
    | (.ok t, lexer) => some (.ok r.cursor.ahead, ⟨⟨t, lexer⟩, r.nesting⟩) := by
  unfold advance
  rw [run_bind]
  change (match r.cursor.lexer.next with
    | (.error fault, lexer) => (do
        set { r with cursor := ⟨r.cursor.ahead, lexer⟩ }
        throw fault : CountingM Token)
    | (.ok t, lexer) => do
        set { r with cursor := ⟨t, lexer⟩ }
        return r.cursor.ahead).run.run r = _
  match r.cursor.lexer.next with
  | (.error fault, lexer) => rfl
  | (.ok t, lexer) => rfl

/-- A token is taken from both, or from neither: a lexer that has refused a character
refuses it again. -/
theorem follows_advance : Follows (fun _ => advance) nesting Parser.advance := by
  intro s cursor hs
  cases hs with
  | @token t l rest hrest =>
      obtain ⟨l', hnext⟩ := Lexer.next_of_stream_ok hrest
      refine ⟨0, ⟨rest.lookahead, l'⟩, Cursor.delivers_of_next hnext hrest, fun steps _ => ?_⟩
      simp only [run_advance, hnext]
      rfl
  | @cut t l fault hfault =>
      obtain ⟨l', hnext⟩ := Lexer.next_of_stream_error hfault
      have hagain : l'.stream = .error fault := by
        rw [Lexer.stream_eq, Lexer.next_of_error hnext]
      refine ⟨0, ⟨t, l'⟩, .cut hagain, fun steps _ => ?_⟩
      simp only [run_advance, hnext]
      rfl
  | finish position place =>
      exact ⟨0, _, .finish position position, fun steps _ => by rw [run_advance]; rfl⟩

/-- Failing at the token in front is the same on both sides, since both have the same token
there. -/
theorem follows_failHere (cause : SyntaxCause) :
    Follows (fun _ => (failHere cause : CountingM α)) nesting (Parser.failHere cause) :=
  follows_lookahead.bind fun _ => follows_throw _

theorem follows_unexpected (expected : Expectation) :
    Follows (fun _ => (unexpected expected : CountingM α)) nesting (Parser.unexpected expected) :=
  follows_lookahead.bind fun _ => follows_failHere _

/-- An answer that was computed beforehand is given on both sides. -/
theorem follows_ofExcept (r : Except SyntaxCause α) :
    Follows (fun _ => ofExcept r) nesting (Parser.ofExcept r) := by
  cases r with
  | ok a => exact follows_pure a
  | error cause => exact follows_failHere cause

/-- Taking a token of some kinds is the same on both sides: the look, the taking and the
refusal. -/
theorem follows_consumeAny (kinds : List TokenKind) :
    Follows (fun _ => consumeAny kinds) nesting (Parser.consumeAny kinds) := by
  refine follows_lookahead.bind fun t => ?_
  split
  · exact follows_advance
  · exact follows_unexpected _

theorem follows_consume (kind : TokenKind) :
    Follows (fun _ => consume kind) nesting (Parser.consume kind) := follows_consumeAny [kind]

/-- Taking a token if it is of a kind is the same on both sides. -/
theorem follows_consumeOptional (kind : TokenKind) :
    Follows (fun _ => consumeOptional kind) nesting (Parser.consumeOptional kind) := by
  refine follows_lookahead.bind fun t => ?_
  split
  · exact follows_advance.bind fun _ => follows_pure true
  · exact follows_pure false

/-- A part that is there when a token of its own opens it. -/
theorem follows_optional {kind : TokenKind} {found missing : Nat → CountingM α}
    {found' missing' : Parser α} (hfound : Follows found nesting found')
    (hmissing : Follows missing nesting missing') :
    Follows (fun steps => consumeOptional kind >>= fun there =>
        if there then found steps else missing steps) nesting
      (Parser.consumeOptional kind >>= fun there => if there then found' else missing') := by
  refine (follows_consumeOptional kind).bind fun there => ?_
  cases there with
  | true => exact hfound
  | false => exact hmissing

/-! ### Expressions -/

variable {part argument inner : Nat → CountingM Operand} {part' argument' inner' : Parser Operand}

/-- A chain is followed if its operands are; its loop has the same rounds on both sides. -/
theorem Follows.chain (hpart : Follows part nesting part') :
    Follows (fun steps => Counting.chain steps (part steps)) nesting (Syntax.chain part') := by
  refine hpart.bind fun first => Follows.loop (fun state => ?_) _
  refine follows_lookahead.bind fun t => ?_
  cases Operator.ofKind? t.kind with
  | none => exact (follows_ofExcept _).bind fun _ => follows_pure _
  | some op =>
      refine (follows_ofExcept _).bind fun reduced => (follows_consume _).bind fun _ => ?_
      exact hpart.bind fun _ => follows_pure _

/-- A call is followed if its arguments are. -/
theorem Follows.call (hargument : Follows argument nesting argument') (name : String) :
    Follows (fun steps => Counting.call steps (argument steps) name) nesting
      (Syntax.call argument' name) := by
  refine (follows_consume _).bind fun _ => follows_optional (follows_ofExcept _) ?_
  refine Follows.bind (Follows.loop (fun state => ?_) _) fun arguments => follows_ofExcept _
  refine hargument.bind fun arg => follows_optional (follows_pure _) ?_
  exact (follows_consume _).bind fun _ => follows_pure _

/-- A numeral that was taken is judged alike on both sides, by its text. -/
theorem follows_numeral (t : Token) :
    Follows (fun _ => numeral t) nesting (Syntax.numeral t) := by
  unfold numeral Syntax.numeral
  dsimp only
  split
  · exact follows_pure _
  · exact follows_throw _

/-- An operand is followed if what stands inside of it is. -/
theorem Follows.operandWith (hinner : Follows inner nesting inner') :
    Follows (fun steps => Counting.operandWith steps (inner steps)) nesting
      (Syntax.operandWith inner') := by
  refine follows_lookahead.bind fun t => ?_
  cases t.kind with
  | number => exact follows_advance.bind follows_numeral
  | identifier =>
      refine follows_advance.bind fun name => follows_lookahead.bind fun next => ?_
      split
      · exact hinner.chain.call _
      · exact follows_pure _
  | leftParen =>
      refine follows_advance.bind fun _ => hinner.chain.bind fun content => ?_
      exact (follows_consume _).bind fun _ => follows_ofExcept _
  | minus => exact follows_advance.bind fun _ => hinner.bind fun _ => follows_ofExcept _
  | _ => exact follows_unexpected _

/-- A counted reader runs with the count one up and brings it one down again, after an error as
well as after an answer. -/
theorem run_counted (m : CountingM α) (r : Reader) : (counted m).run.run r =
    (m.run.run ⟨r.cursor, r.nesting + 1⟩).map fun (answer, r') =>
      (answer, ⟨r'.cursor, r'.nesting - 1⟩) := by
  change Option.bind (m.run.run ⟨r.cursor, r.nesting + 1⟩) _ = _
  cases m.run.run ⟨r.cursor, r.nesting + 1⟩ with
  | none => rfl
  | some out => rfl

/-- The count is taken back, be there an answer or a fault. -/
theorem Follows.counted (h : Follows m (nesting + 1) p) :
    Follows (fun steps => Counting.counted (m steps)) nesting p := by
  intro s cursor hs
  obtain ⟨enough, cursor', hcursor', hruns⟩ := h s hs
  refine ⟨enough, cursor', hcursor', fun steps hsteps => ?_⟩
  rw [run_counted, hruns steps hsteps]
  rfl

/-- An operand is refused or counted, as the count in front of it says. -/
theorem follows_operand_of_succ {p : Parser Operand}
    (h : Follows (fun steps => if maxNesting ≤ nesting then failHere .tooDeep
      else counted (operandWith steps (operand steps))) nesting p) :
    Follows operand nesting p := fun s => followsAt_of_succ fun _ hs => h s hs

/-- **The budget is what the count leaves of the limit.** The induction is on the budget, which
goes down by one where the count goes up. -/
theorem follows_operand {levels : Nat} (h : nesting + levels = maxNesting) :
    Follows operand nesting (Syntax.operand levels) := by
  induction levels generalizing nesting with
  | zero =>
      have hfull : maxNesting ≤ nesting := by omega
      refine follows_operand_of_succ ?_
      simp only [if_pos hfull]
      exact follows_failHere _
  | succ levels ih =>
      have hroom : ¬ maxNesting ≤ nesting := by omega
      have hinner : Follows operand (nesting + 1) (Syntax.operand levels) := ih (by omega)
      refine follows_operand_of_succ ?_
      simp only [if_neg hroom]
      exact hinner.operandWith.counted

/-- Outside of all operands the whole budget is left. -/
theorem follows_expression : Follows expression 0 Syntax.expression :=
  (follows_operand (Nat.zero_add _)).chain.bind fun _ => follows_pure _

/-! ### Declarations -/

theorem follows_name : Follows (fun _ => name) nesting Syntax.name :=
  (follows_consume _).bind fun _ => follows_pure _

/-- A row of symbols is taken alike, one round for every symbol. -/
theorem follows_symbols : Follows symbols nesting Syntax.symbols := by
  refine Follows.loop (fun before => ?_) _
  refine follows_lookahead.bind fun t => ?_
  split
  · exact follows_pure _
  · cases Symbol.ofToken? t with
    | none => exact follows_unexpected _
    | some symbol => exact (follows_consume _).bind fun _ => follows_pure _

/-- A clause that may be absent is followed if its content is. -/
theorem Follows.clause (kind : TokenKind) (h : Follows m nesting p) :
    Follows (fun steps => Counting.clause kind (m steps)) nesting (Syntax.clause kind p) :=
  follows_optional (h.bind fun _ => follows_pure _) (follows_pure _)

/-- A color is read alike outside of all operands, where the count is zero. -/
theorem follows_color : Follows color 0 Syntax.color := by
  refine follows_expression.bind fun r => follows_optional ?_ (follows_pure _)
  refine follows_expression.bind fun g => (follows_consume _).bind fun _ => ?_
  exact follows_expression.bind fun b => follows_pure _

/-- The replacement of a rule is read alike, and refused alike where it is empty. -/
theorem follows_replacement : Follows replacement nesting Syntax.replacement := by
  refine follows_optional (follows_symbols.bind fun body => ?_) (follows_pure _)
  split
  · exact follows_failHere _
  · exact follows_pure _

theorem follows_rule : Follows rule 0 Syntax.rule := by
  refine follows_name.bind fun name => follows_replacement.bind fun body => ?_
  exact (follows_expression.clause _).bind fun bias => follows_pure _

theorem follows_variableDeclaration :
    Follows variableDeclaration 0 Syntax.variableDeclaration := by
  refine follows_name.bind fun name => (follows_consume _).bind fun _ => ?_
  exact follows_expression.bind fun value => follows_pure _

theorem follows_rotation : Follows rotation 0 Syntax.rotation := by
  refine follows_expression.bind fun angle => follows_optional (follows_pure _) ?_
  exact (follows_consumeOptional _).bind fun _ => follows_pure _

/-- A translation is read alike, with one distance or with two. -/
theorem follows_displacement : Follows displacement 0 Syntax.displacement := by
  refine follows_expression.bind fun x => (follows_expression.clause _).bind fun y => ?_
  refine (follows_expression.clause _).bind fun width => ?_
  refine (follows_color.clause _).bind fun color => ?_
  cases y with
  | none => exact follows_pure _
  | some y => exact follows_pure _

theorem follows_transform : Follows transform 0 Syntax.transform := by
  refine (follows_consumeAny _).bind fun name => follows_lookahead.bind fun t => ?_
  cases t.kind with
  | keyword word =>
      cases word with
      | rotate =>
          exact follows_advance.bind fun _ => follows_rotation.bind fun motion => follows_pure _
      | translate =>
          exact follows_advance.bind fun _ => follows_displacement.bind fun motion => follows_pure _
      | _ => exact follows_unexpected _
  | _ => exact follows_unexpected _

/-- Behind the word that opens it a declaration goes on to its semicolon. -/
theorem follows_opened {content : Nat → CountingM Declaration} {content' : Parser Declaration}
    (h : Follows content 0 content') :
    Follows (fun steps => advance >>= fun _ => content steps >>= fun declared =>
        consume .semicolon >>= fun _ => pure declared) 0
      (Parser.advance >>= fun _ => content' >>= fun declared =>
        Parser.consume .semicolon >>= fun _ => pure declared) := by
  refine follows_advance.bind fun _ => h.bind fun declared => ?_
  exact (follows_consume _).bind fun _ => follows_pure _

/-- A declaration is read alike, whichever keyword opens it. The semicolon behind it is taken by
both. -/
theorem follows_declaration : Follows declaration 0 Syntax.declaration := by
  refine follows_lookahead.bind fun t => ?_
  cases t.kind with
  | keyword word =>
      cases word with
      | var => exact follows_opened follows_variableDeclaration
      | rule => exact follows_opened follows_rule
      | start => exact follows_opened (follows_symbols.bind fun row => follows_pure _)
      | length | width | iterate =>
          exact follows_opened (follows_expression.bind fun value => follows_pure _)
      | color => exact follows_opened (follows_color.bind fun value => follows_pure _)
      | transform => exact follows_opened follows_transform
      | bias | rotate | translate | rad | deg => exact follows_unexpected _
  | _ => exact follows_unexpected _

/-- Reading a program counts up and down, and from nothing to nothing. -/
theorem follows_program : Follows program 0 Syntax.program := by
  refine Follows.loop (fun before => ?_) _
  refine follows_lookahead.bind fun t => ?_
  split
  · exact follows_pure _
  · exact follows_declaration.bind fun next => follows_pure _

end LSystem.Syntax.Counting
