import LSystem.Proofs.Syntax.Source
import LSystem.Syntax.Parser.Program

/-!
# The descent of the grammar

The parsers of the grammar are put together from a few pieces.  They look at the token
in front or take it and go on with its kind and its text, they refuse it, or they refuse
the numeral that they have just taken.  A property that the pieces have, and that a
sequence and a loop have when their parts have it, is `Compositional`, and then every
parser has it, from a single token to a whole program.

The first such property is to run over any source of tokens (`compositional_descends`).
-/

namespace LSystem.Syntax

/-- A cause may be reported at a token: when it names one, it names that token. -/
def SyntaxCause.About (t : Token) : SyntaxCause → Prop
  | .unexpectedCharacter _ => False
  | .unexpectedToken kind text _ => kind = t.kind ∧ text = t.text
  | .invalidNumber text => text = t.text
  | .emptyRule | .tooDeep => True

namespace Parser

variable {β : Type}

/-- What is made of a token does not depend on its place. -/
def Placeless (f : Token → β) : Prop :=
  ∀ kind text place place', f ⟨kind, text, place⟩ = f ⟨kind, text, place'⟩

/-- A property of parsers that the pieces of the grammar have and that the ways of
putting them together keep. -/
structure Compositional (P : ∀ ⦃α : Type⦄, Parser α → Prop) : Prop where
  succeed : ∀ {α : Type} (a : α), P (succeed a)
  look : ∀ {α : Type} {f : Token → Parser α}, Placeless f → (∀ t, P (f t)) → P (lookahead >>= f)
  take : ∀ {α : Type} {f : Token → Parser α}, Placeless f → (∀ t, P (f t)) → P (advance >>= f)
  /-- Refuse with a cause that names no token. -/
  refuse : ∀ {α : Type} {cause : SyntaxCause}, (∀ t, cause.About t) →
    P (failHere cause : Parser α)
  unexpected : ∀ {α : Type} (expected : Expectation), P (unexpected expected : Parser α)
  numeral : P (advance >>= numeral)
  bind : ∀ {α β : Type} {p : Parser α} {f : α → Parser β}, P p → (∀ a, P (f a)) → P (p >>= f)
  loop : ∀ {τ α : Type} {step : τ → Parser (τ ⊕ α)} {advances : ∀ t, Advances (step t)},
    (∀ t, P (step t)) → ∀ t, P (loop step advances t)

end Parser

/-- A tree is refused for its height only. No token is to blame for it. -/
theorem Operand.nested_error {expr : Expr} {height : Nat} {cause : SyntaxCause}
    (h : Operand.nested expr height = .error cause) : cause = .tooDeep := by
  unfold nested at h
  split at h
  · exact (Except.error.inj h).symm
  · cases h

/-- A reduction before an operator fails for one reason only: a node that it builds is too
high. -/
theorem Pending.reduce_error {next : Operator} {pending : Pending} {current : Operand}
    {cause : SyntaxCause} (h : pending.reduce next current = .error cause) : cause = .tooDeep := by
  induction pending generalizing current with
  | nil => cases h
  | cons entry rest ih =>
      rw [reduce] at h
      split at h
      · cases hcombine : entry.1.combine entry.2 current with
        | error other =>
            rw [hcombine] at h
            cases h
            exact Operand.nested_error hcombine
        | ok combined =>
            rw [hcombine] at h
            exact ih h
      · cases h

/-- The reduction at the end of a chain fails for that reason only as well. -/
theorem Pending.reduceAll_error {pending : Pending} {current : Operand} {cause : SyntaxCause}
    (h : pending.reduceAll current = .error cause) : cause = .tooDeep := by
  induction pending generalizing current with
  | nil => cases h
  | cons entry rest ih =>
      rw [reduceAll] at h
      cases hcombine : entry.1.combine entry.2 current with
      | error other =>
          rw [hcombine] at h
          cases h
          exact Operand.nested_error hcombine
      | ok combined =>
          rw [hcombine] at h
          exact ih h

open LSystem.Syntax.Parser

/-- The text of a numeral decides on its value, or that it is refused at its own place. -/
theorem numeral_cases (text : String) :
    (∃ a, ∀ t : Token, t.text = text → numeral t = succeed a) ∨
      ∀ t : Token, t.text = text → numeral t = fail ⟨.invalidNumber text, t.position⟩ := by
  by_cases hfinite : (Number.readNumeral text.toList).isFinite = true
  · refine .inl ⟨.leaf (.num (Number.readNumeral text.toList)), fun t ht => ?_⟩
    subst ht
    exact if_pos hfinite
  · refine .inr fun t ht => ?_
    subst ht
    exact if_neg hfinite

namespace Parser.Compositional

variable {P : ∀ ⦃α : Type⦄, Parser α → Prop} (h : Compositional P)
include h

/-! ### Single tokens -/

variable {α : Type}

theorem pure (a : α) : P (Pure.pure a : Parser α) := h.succeed a

/-- A value, or a refusal of a tree that is too high. -/
theorem ofExcept {r : Except SyntaxCause α} (hr : ∀ cause, r = .error cause → cause = .tooDeep) :
    P (ofExcept r) := by
  cases r with
  | ok a => exact h.succeed a
  | error cause =>
      obtain rfl : cause = .tooDeep := hr cause rfl
      exact h.refuse fun _ => trivial

/-- Checking the height of a node has the property: it succeeds, or it refuses with a cause that
names no token. -/
theorem nested (expr : Expr) (height : Nat) : P (Parser.ofExcept (Operand.nested expr height)) :=
  h.ofExcept fun _ => Operand.nested_error

/-- Taking a token of some kinds, and making something of it, has the property: it is a look at
the token in front, and then the taking or the refusal. -/
theorem consumeAny (kinds : List TokenKind) {f : Token → Parser α} (hf : Placeless f)
    (hrest : ∀ t, P (f t)) : P (consumeAny kinds >>= f) := by
  unfold Parser.consumeAny
  rw [bind_assoc]
  refine h.look (fun _ _ _ _ => rfl) fun t => ?_
  split
  · exact h.take hf hrest
  · exact h.bind (h.unexpected _) hrest

/-- Taking a token of one kind and going on with it has the property, as taking one of several
kinds has. -/
theorem consume (kind : TokenKind) {f : Token → Parser α} (hf : Placeless f)
    (hrest : ∀ t, P (f t)) : P (consume kind >>= f) := h.consumeAny [kind] hf hrest

theorem skip (kind : TokenKind) {p : Parser α} (hp : P p) :
    P (Parser.consume kind >>= fun _ => p) := h.consume kind (fun _ _ _ _ => rfl) fun _ => hp

/-- Taking a token if it is of a kind has the property: it is a look at the token in front, and
the taking of it. -/
theorem consumeOptional (kind : TokenKind) : P (consumeOptional kind) := by
  refine h.look (fun _ _ _ _ => rfl) fun t => ?_
  split
  · exact h.take (fun _ _ _ _ => rfl) fun _ => h.pure true
  · exact h.pure false

/-- A part that is there when a token of its own opens it. -/
theorem optional {kind : TokenKind} {found missing : Parser α} (hfound : P found)
    (hmissing : P missing) :
    P (Parser.consumeOptional kind >>= fun there => if there then found else missing) := by
  refine h.bind (h.consumeOptional kind) fun there => ?_
  cases there with
  | true => exact hfound
  | false => exact hmissing

/-! ### Expressions -/

variable {part argument inner : Parser Operand}

/-- The reader of a chain has the property if the reader of its operands has it, since its rounds
are made of the pieces. -/
theorem chain (hpart : P part) : P (chain part) := by
  refine h.bind hpart fun first => h.loop (fun state => ?_) _
  refine h.look (fun _ _ _ _ => rfl) fun t => ?_
  split
  · exact h.bind (h.ofExcept fun _ => Pending.reduceAll_error) fun _ => h.pure _
  · refine h.bind (h.ofExcept fun _ => Pending.reduce_error) fun reduced => h.skip _ ?_
    exact h.bind hpart fun _ => h.pure _

/-- The reader of a call has the property if the reader of its arguments has it. -/
theorem call (hargument : P argument) (name : String) : P (call argument name) := by
  refine h.skip _ (h.optional (h.nested _ _) ?_)
  refine h.bind (h.loop (fun state => ?_) _) fun arguments => h.nested _ _
  exact h.bind hargument fun arg => h.optional (h.pure _) (h.skip _ (h.pure _))

/-- The reader of operands has the property if the reader of what stands inside them has it. -/
theorem operandWith (hinner : P inner) : P (operandWith inner) := by
  refine h.look (fun _ _ _ _ => rfl) fun t => ?_
  split
  · exact h.numeral
  · refine h.take (fun _ _ _ _ => rfl) fun name => h.look (fun _ _ _ _ => rfl) fun next => ?_
    split
    · exact h.call (h.chain hinner) _
    · exact h.pure _
  · refine h.take (fun _ _ _ _ => rfl) fun _ => h.bind (h.chain hinner) fun content => ?_
    exact h.skip _ (h.nested _ _)
  · exact h.take (fun _ _ _ _ => rfl) fun _ => h.bind hinner fun _ => h.nested _ _
  · exact h.unexpected _

/-- The reader of operands has the property at every budget of levels, by induction on the
budget. -/
theorem operand (levels : Nat) : P (Syntax.operand levels) := by
  induction levels with
  | zero => exact h.refuse fun _ => trivial
  | succ levels ih => exact h.operandWith ih

/-- The reader of expressions has the property, being a chain of operands with the whole
budget. -/
theorem expression : P expression :=
  h.bind (h.chain (h.operand maxNesting)) fun _ => h.pure _

/-! ### Declarations -/

theorem name : P name := h.consume _ (fun _ _ _ _ => rfl) fun _ => h.pure _

/-- The reader of a row of symbols has the property, one round for every symbol. -/
theorem symbols : P symbols := by
  refine h.loop (fun before => ?_) _
  refine h.look (fun _ _ _ _ => rfl) fun t => ?_
  split
  · exact h.pure _
  · split
    · exact h.unexpected _
    · exact h.skip _ (h.pure _)

/-- The reader of a clause that may be absent has the property if the reader of its content has
it. -/
theorem clause (kind : TokenKind) {content : Parser α} (hcontent : P content) :
    P (clause kind content) :=
  h.optional (h.bind hcontent fun _ => h.pure _) (h.pure _)

theorem color : P color := by
  refine h.bind h.expression fun r => h.optional ?_ (h.pure _)
  refine h.bind h.expression fun g => h.skip _ ?_
  exact h.bind h.expression fun b => h.pure _

/-- The reader of the replacement of a rule has the property; where the replacement is empty, it
refuses with a cause that names no token. -/
theorem replacement : P replacement := by
  refine h.optional (h.bind h.symbols fun body => ?_) (h.pure _)
  split
  · exact h.refuse fun _ => trivial
  · exact h.pure _

theorem rule : P rule := by
  refine h.bind h.name fun name => h.bind h.replacement fun body => ?_
  exact h.bind (h.clause _ h.expression) fun bias => h.pure _

theorem variableDeclaration : P variableDeclaration := by
  refine h.bind h.name fun name => h.skip _ ?_
  exact h.bind h.expression fun value => h.pure _

/-- The reader of a rotation has the property, whichever unit stands behind the angle. -/
theorem rotation : P rotation := by
  refine h.bind h.expression fun angle => h.optional (h.pure _) ?_
  exact h.bind (h.consumeOptional _) fun _ => h.pure _

/-- The reader of a translation has the property, with one distance or with two, and with the look
of its line. -/
theorem displacement : P displacement := by
  refine h.bind h.expression fun x => h.bind (h.clause _ h.expression) fun y => ?_
  refine h.bind (h.clause _ h.expression) fun width => ?_
  refine h.bind (h.clause _ h.color) fun color => ?_
  cases y with
  | none => exact h.pure _
  | some y => exact h.pure _

theorem transform : P transform := by
  refine h.consumeAny _ (fun _ _ _ _ => rfl) fun name => h.look (fun _ _ _ _ => rfl) fun t => ?_
  split
  · exact h.take (fun _ _ _ _ => rfl) fun _ => h.bind h.rotation fun motion => h.pure _
  · exact h.take (fun _ _ _ _ => rfl) fun _ => h.bind h.displacement fun motion => h.pure _
  · exact h.unexpected _

/-- The reader that belongs to the keyword of a declaration has the property, whichever keyword it
is. -/
theorem declarationOf {word : Keyword} {content : Parser Declaration}
    (hcontent : declarationOf word = some content) : P content := by
  cases word with
  | var => cases hcontent; exact h.variableDeclaration
  | rule => cases hcontent; exact h.rule
  | start => cases hcontent; exact h.bind h.symbols fun row => h.pure _
  | length => cases hcontent; exact h.bind h.expression fun value => h.pure _
  | width => cases hcontent; exact h.bind h.expression fun value => h.pure _
  | color => cases hcontent; exact h.bind h.color fun value => h.pure _
  | iterate => cases hcontent; exact h.bind h.expression fun value => h.pure _
  | transform => cases hcontent; exact h.transform
  | bias => cases hcontent
  | rotate => cases hcontent
  | translate => cases hcontent
  | rad => cases hcontent
  | deg => cases hcontent

/-- The reader of one declaration has the property, the semicolon behind it included. -/
theorem declaration : P declaration := by
  refine h.look (fun _ _ _ _ => rfl) fun t => ?_
  split
  · exact h.unexpected _
  · rename_i content hopened
    have hcontent : P content := by
      cases hkind : t.kind with
      | keyword word =>
          rw [hkind] at hopened
          exact h.declarationOf hopened
      | _ =>
          rw [hkind] at hopened
          cases hopened
    refine h.take (fun _ _ _ _ => rfl) fun _ => h.bind hcontent fun declared => ?_
    exact h.skip _ (h.pure _)

/-- What the pieces have a whole program has. It is a loop of declarations, and so everything
below it is covered by one case for each parser. -/
theorem program : P program := by
  refine h.loop (fun before => ?_) _
  refine h.look (fun _ _ _ _ => rfl) fun t => ?_
  split
  · exact h.pure _
  · exact h.bind h.declaration fun next => h.pure _

end Parser.Compositional

/-! ### Descents -/

/-- A numeral that has been taken is judged by its text alone, so reading one descends over any
source of tokens. -/
theorem descends_numeral : Descends (advance >>= numeral) := by
  intro σ source R hsim x s hx
  rcases hsim.next hx with ⟨y, s', hok, -⟩ | ⟨f, herror, -⟩
  · rcases numeral_cases (source.front x).text with ⟨a, hnumeral⟩ | hnumeral
    · have hrest : Runs source (numeral (source.front x)) y (.ok a) y := by
        rw [hnumeral _ rfl]
        exact .succeed a y
      exact ⟨_, y, (Runs.advance hok).bind hrest⟩
    · exact ⟨_, y, .reject hok (hnumeral _ rfl)⟩
  · exact ⟨_, x, (Runs.stuck herror).bindFault⟩

/-- Every parser of the grammar can run over any source of tokens. -/
theorem compositional_descends : Compositional @Descends where
  succeed := descends_succeed
  look _ hf := descends_lookahead.bind hf
  take _ hf := descends_advance.bind hf
  refuse _ := descends_failHere _
  unexpected _ := descends_lookahead.bind fun _ => descends_failHere _
  numeral := descends_numeral
  bind := Descends.bind
  loop := Descends.loop

/-- The descent of a whole program. -/
theorem descends_program : Descends program := compositional_descends.program

end LSystem.Syntax
