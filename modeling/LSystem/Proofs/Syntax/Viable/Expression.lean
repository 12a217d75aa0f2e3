import LSystem.Proofs.Syntax.Viable.Prediction

/-!
# Expressions refuse the first impossible token

A name in front of a parenthesis is a call, and behind an operand an operator goes on
with the chain.  So an operand must not be followed by a parenthesis, and an expression
by nothing that goes on with it; apart from this the token in front settles everything.

The induction is on the budget of levels, and a budget that is used up is a limit: a
parser that has one predicts the whole grammar all the same.
-/

namespace LSystem.Syntax

open LSystem.Syntax.Parser

open scoped Computability

namespace Parser

theorem run_advance_bind {α : Type} (f : Token → Parser α) (t : Token) (rest : TokenStream) :
    (advance >>= f).run (.token t rest) = (f t).run rest := rfl

/-- A numeral without a finite value is refused at its own place, with its text, and nothing more
is taken. -/
theorem run_numeral_of_not_legible {t : Token}
    (h : ¬(Number.readNumeral t.text.toList).isFinite) (s : TokenStream) :
    (numeral t).run s = (.error ⟨.invalidNumber t.text, t.position⟩, s) := by
  rw [numeral, if_neg h]
  rfl

/-- A numeral that is too large is refused for its value and not for its kind. -/
theorem Predicts.numeral {K : Language Lexeme} {s : TokenStream} (hs : s.Whole)
    (hkind : s.lookahead.kind = .number) :
    Predicts (Parser.advance >>= Syntax.numeral) (oneOf [.number]) K s := by
  cases s with
  | cut t fault => exact hs.elim
  | finish position => cases hkind
  | token t rest =>
      have hrun := run_advance_bind Syntax.numeral t rest
      by_cases hfinite : (Number.readNumeral t.text.toList).isFinite
      · rw [run_numeral_of_legible hfinite] at hrun
        constructor
        · intro o s' h
          obtain ⟨-, rfl⟩ := Prod.mk.inj (hrun.symm.trans h)
          have hlegible : t.lexeme.Legible := fun _ => hfinite
          refine ⟨_, .token hlegible (.refl _), ?_, fun ws hws => (cons_mem_oneOf_mul.1 hws).2⟩
          exact singleton_mem_oneOf.2 (List.mem_singleton.2 hkind)
        · intro fault s' h
          obtain ⟨herror, -⟩ := Prod.mk.inj (hrun.symm.trans h)
          cases herror
      · rw [run_numeral_of_not_legible hfinite] at hrun
        constructor
        · intro o s' h
          obtain ⟨herror, -⟩ := Prod.mk.inj (hrun.symm.trans h)
          cases herror
        · intro fault s' h hlimit
          obtain ⟨herror, -⟩ := Prod.mk.inj (hrun.symm.trans h)
          cases herror
          exact absurd trivial hlimit

end Parser

/-- A node fails its check for its height alone, which no token shows. -/
theorem Operand.limits_of_nested {e : Expr} {height : Nat} {cause : SyntaxCause}
    (h : Operand.nested e height = .error cause) : cause.Limits := by
  rw [Operand.nested] at h
  split at h
  · cases h
    trivial
  · cases h

namespace Pending

variable {pending : Pending} {current : Operand} {cause : SyntaxCause}

/-- Waiting operators take their right sides unless a tree becomes too high. The induction is on
the operators that wait. -/
theorem limits_of_reduce {next : Operator} (h : pending.reduce next current = .error cause) :
    cause.Limits := by
  induction pending generalizing current with
  | nil => cases h
  | cons first rest ih =>
      obtain ⟨left, op⟩ := first
      rw [reduce] at h
      split at h
      · cases hcombine : left.combine op current with
        | error c =>
            rw [hcombine] at h
            cases h
            exact Operand.limits_of_nested hcombine
        | ok combined =>
            rw [hcombine] at h
            exact ih h
      · cases h

/-- The reduction at the end of a chain fails for a height alone. -/
theorem limits_of_reduceAll (h : pending.reduceAll current = .error cause) : cause.Limits := by
  induction pending generalizing current with
  | nil => cases h
  | cons first rest ih =>
      obtain ⟨left, op⟩ := first
      rw [reduceAll] at h
      cases hcombine : left.combine op current with
      | error c =>
          rw [hcombine] at h
          cases h
          exact Operand.limits_of_nested hcombine
      | ok combined =>
          rw [hcombine] at h
          exact ih h

end Pending

/-! ### Chains -/

theorem finish_not_mem_operatorKinds : TokenKind.finish ∉ Grammar.operatorKinds := by decide

theorem number_not_mem_operatorKinds : TokenKind.number ∉ Grammar.operatorKinds := by decide

/-- There is an operand, for one a name, so whatever waits for an operand can be completed. -/
theorem Grammar.exists_mem_operands : ∃ ls, ls ∈ words Grammar.Operand :=
  ⟨[⟨.number, ""⟩], _, .number rfl⟩

theorem Grammar.exists_mem_expressions : ∃ ls, ls ∈ words Grammar.Expression :=
  ⟨[⟨.number, ""⟩], _, .operand (.number rfl)⟩

/-- The operators and operands behind an operand. -/
abbrev Grammar.chainTails : Language Lexeme :=
  (oneOf Grammar.operatorKinds * words Grammar.Operand)∗

/-- Neither an operator nor the end of an expression opens a call. -/
theorem opens_chainTails_mul {K : Language Lexeme} (hK : Opens K EndsExpression) :
    Opens (Grammar.chainTails * K) (· ≠ .leftParen) := by
  refine .kstar_mul (opens_oneOf_mul fun kind hmem => ?_) (hK.mono fun kind h => h.1)
  obtain ⟨op, rfl⟩ := Grammar.mem_operatorKinds.1 hmem
  exact op.kind_ne_leftParen

section Operands

variable {operand argument inner : Parser Operand}

/-- The loop of a chain predicts the operators and operands that may follow, from any operands
that wait. It goes by the rule for loops, one case for an operator in front and one for none. -/
theorem predictive_chainLoop
    (hoperand : Predictive operand (words Grammar.Operand) (· ≠ .leftParen))
    (state : Pending × Operand) :
    Predictive (loop (chainStep operand) (advances_chainStep operand) state) Grammar.chainTails
      EndsExpression := by
  refine .loop (fun state s K hs hK ih => ?_) state
  rw [chainStep, bind_assoc, Grammar.chainTails, ← Language.one_add_self_mul_kstar_eq_kstar,
    mul_assoc]
  refine .lookahead ?_
  cases hop : Operator.ofKind? s.lookahead.kind with
  | none =>
      simp only [bind_assoc, pure_bind, Sum.elim_inr]
      refine .left (.ofExcept_bind (fun cause => Pending.limits_of_reduceAll) .pure) ?_
      refine Opens.mul (opens_oneOf_mul fun kind hkind heq => ?_)
      obtain ⟨op, rfl⟩ := Grammar.mem_operatorKinds.1 hkind
      simp [Operator.ofKind?_eq_some_iff.2 heq.symm] at hop
  | some op =>
      have hkind := Operator.ofKind?_eq_some_iff.1 hop
      simp only [bind_assoc, pure_bind, Sum.elim_inl]
      refine .right (.ofExcept_bind (fun cause => Pending.limits_of_reduce) fun reduced => ?_) ?_
      · refine .bind hs (.consume_of_kind hs hkind (Grammar.mem_operatorKinds.2 ⟨op, rfl⟩)
          finish_not_mem_operatorKinds number_not_mem_operatorKinds)
          (Grammar.words_chain ▸ Grammar.exists_mem_expressions) fun t s₁ hrun₁ hs₁ => ?_
        refine .bind hs₁ (hoperand s₁ _ hs₁ ?_) (exists_mem_kstar _)
          fun right s₂ hrun₂ hs₂ => ?_
        · exact opens_chainTails_mul hK
        · have hlt := consumes_consume op.kind_ne_finish s t s₁ hrun₁
          exact ih _ s₂ (Nat.lt_of_le_of_lt (length_le_of_run hrun₂) hlt) hs₂
      · rw [one_mul]
        refine hK.mono fun kind hends heq => ?_
        rw [← heq, hends.2] at hop
        cases hop

/-- Chains of operands are predicted when their operands are. -/
theorem predictive_chain (hoperand : Predictive operand (words Grammar.Operand) (· ≠ .leftParen)) :
    Predictive (chain operand) (words Grammar.Expression) EndsExpression := by
  rw [Grammar.words_chain]
  refine hoperand.bind (exists_mem_kstar _) (fun K => opens_chainTails_mul) fun first =>
    predictive_chainLoop hoperand _

/-! ### Operands -/

/-- An expression begins with one of the four kinds of token that begin an operand. -/
theorem opens_expressions : Opens (words Grammar.Expression) BeginsOperand := by
  rintro ls ⟨e, h⟩
  exact h.begins

theorem endsExpression_rightParen : EndsExpression .rightParen := ⟨by decide, rfl⟩

theorem endsExpression_comma : EndsExpression .comma := ⟨by decide, rfl⟩

/-- Arguments and the parenthesis behind them, by the first argument: behind it stands the
parenthesis, or a comma and more of the same. -/
theorem Grammar.arguments_eq :
    words (Row Expression) * oneOf [.rightParen] =
      words Expression *
        (oneOf [.rightParen] * 1 +
          oneOf [.comma] * (words (Row Expression) * oneOf [.rightParen])) := by
  conv_lhs => rw [words_row]
  rw [mul_assoc, right_distrib, one_mul, mul_one, mul_assoc, add_comm]

/-- There is a row of arguments with its closing parenthesis, so a call that has begun can be
completed. -/
theorem Grammar.exists_mem_arguments :
    ∃ ls, ls ∈ words (Row Expression) * oneOf [.rightParen] := by
  rw [arguments_eq]
  exact exists_mem_mul exists_mem_expressions
    (exists_mem_add_left (exists_mem_mul (exists_mem_oneOf _ _) exists_mem_one) _)

/-- Behind an argument comes a comma or the parenthesis. By the rule for loops a round may take
for granted what comes after it, whatever arguments were read before. -/
theorem predictive_arguments
    (hargument : Predictive argument (words Grammar.Expression) EndsExpression)
    (state : List Expr × Nat) :
    Predictive (loop (argumentStep argument) (advances_argumentStep argument) state)
      (words (Grammar.Row Grammar.Expression) * oneOf [.rightParen]) fun _ => True := by
  refine .loop (fun state s K hs _ ih => ?_) state
  rw [argumentStep, bind_assoc, Grammar.arguments_eq]
  refine .bind hs (hargument s _ hs ?_) ?_ fun arg s₁ hrun₁ hs₁ => ?_
  · refine .add_mul (opens_oneOf_mul ?_).mul (opens_oneOf_mul ?_).mul
    · simpa using endsExpression_rightParen
    · simpa using endsExpression_comma
  · exact exists_mem_add_left (exists_mem_mul (exists_mem_oneOf _ _) exists_mem_one) _
  · simp only [bind_assoc]
    refine .optional hs₁ (by decide) (by decide) exists_mem_one (fun s₂ _ _ => .pure _) ?_ ?_
    · simp only [Bool.false_eq_true, if_false, bind_assoc, pure_bind, Sum.elim_inl]
      refine .bind hs₁ (.consume hs₁ (by decide) (by decide)) Grammar.exists_mem_arguments
        fun t s₂ hrun₂ hs₂ => ?_
      have hlt := consumes_consume (by decide) s₁ t s₂ hrun₂
      exact ih _ s₂ (Nat.lt_of_lt_of_le hlt (length_le_of_run hrun₁)) hs₂
    · exact (opens_oneOf_mul (by simp)).mul

/-- The reader of a call predicts a parenthesis and what closes it, with arguments or without, if
the reader of its arguments predicts expressions. -/
theorem predictive_call
    (hargument : Predictive argument (words Grammar.Expression) EndsExpression) (name : String) :
    Predictive (call argument name)
      (oneOf [.leftParen] * (oneOf [.rightParen] * 1 +
        words (Grammar.Row Grammar.Expression) * oneOf [.rightParen])) fun _ => True := by
  intro s K hs hK
  refine .bind hs (.consume hs (by decide) (by decide)) ?_ fun t s₁ hrun₁ hs₁ => ?_
  · exact exists_mem_add_left (exists_mem_mul (exists_mem_oneOf _ _) exists_mem_one) _
  · refine .optional hs₁ (by decide) (by decide) exists_mem_one (fun s₂ _ _ => ?_) ?_ ?_
    · simp only [if_true]
      exact .ofExcept fun cause => Operand.limits_of_nested
    · simp only [Bool.false_eq_true, if_false]
      have harguments := predictive_arguments hargument ([], 0) s₁ K hs₁ hK
      refine harguments.bind_ofExcept hs₁ fun a cause => ?_
      exact Operand.limits_of_nested
    · rw [Grammar.arguments_eq]
      exact (opens_expressions.mono (by rintro _ h rfl; simp [BeginsOperand] at h)).mul.mul

/-- Every operand is told by its first token, and a call by its second. A name is followed by a
parenthesis or not, and therefore nothing else may follow an operand with one. -/
theorem predictive_operandWith
    (hinner : Predictive inner (words Grammar.Operand) (· ≠ .leftParen)) :
    Predictive (operandWith inner) (words Grammar.Operand) (· ≠ .leftParen) := by
  intro s K hs hK
  have hchain := predictive_chain hinner
  rw [Grammar.words_operand]
  refine .lookahead ?_
  split
  · rename_i hkind
    refine .left (.numeral hs hkind) ?_
    simp [-add_eq_sup, mul_assoc, right_distrib, Opens.add_iff, opens_oneOf_mul, hkind]
  · rename_i hkind
    refine .right (.left ?_ ?_) ?_
    · refine .bind hs (.advance hs (by simp [hkind]) (by decide) (by decide)) (exists_mem_add_one _)
        fun name s₁ _ hs₁ => ?_
      refine .lookahead ?_
      split
      · rename_i hopening
        refine .left (predictive_call hchain _ s₁ K hs₁ (hK.mono fun _ _ => trivial)) ?_
        rw [one_mul]
        exact hopening ▸ hK
      · rename_i hopening
        refine .right (.pure _) (opens_oneOf_mul ?_).mul
        simpa using fun h => hopening h.symm
    · simp [-add_eq_sup, mul_assoc, right_distrib, Opens.add_iff, opens_oneOf_mul, hkind]
    · simp [opens_oneOf_mul, hkind]
  · rename_i hkind
    refine .right (.right (.left ?_ ?_) ?_) ?_
    · refine .bind hs (.advance hs (by simp [hkind]) (by decide) (by decide))
        (exists_mem_mul Grammar.exists_mem_expressions (exists_mem_oneOf _ _))
        fun opening s₁ _ hs₁ => ?_
      refine .bind hs₁ (hchain s₁ _ hs₁ (opens_oneOf_mul ?_)) (exists_mem_oneOf _ _)
        fun content s₂ _ hs₂ => ?_
      · simpa using endsExpression_rightParen
      · exact .bind_ofExcept hs₂ (.consume hs₂ (by decide) (by decide)) fun _ cause =>
          Operand.limits_of_nested
    · simp [mul_assoc, opens_oneOf_mul, hkind]
    · simp [mul_assoc, opens_oneOf_mul, hkind]
    · simp [opens_oneOf_mul, hkind]
  · rename_i hkind
    refine .right (.right (.right ?_ ?_) ?_) ?_
    · refine .bind hs (.advance hs (by simp [hkind]) (by decide) (by decide))
        Grammar.exists_mem_operands fun minus s₁ _ hs₁ => ?_
      exact .bind_ofExcept hs₁ (hinner s₁ K hs₁ hK) fun _ cause => Operand.limits_of_nested
    · simp [mul_assoc, opens_oneOf_mul, hkind]
    · simp [mul_assoc, opens_oneOf_mul, hkind]
    · simp [opens_oneOf_mul, hkind]
  · rename_i hnumber hname hparen hminus
    refine .unexpected (exists_mem_add_left (exists_mem_oneOf _ _) _) ?_
    simp [-add_eq_sup, mul_assoc, right_distrib, Opens.add_iff, opens_oneOf_mul, Ne.symm hnumber,
      Ne.symm hname, Ne.symm hparen, Ne.symm hminus]

end Operands

/-- **Operands** are predicted with every budget of levels. At zero the parser refuses everything
for a limit, and a limit needs no prediction. -/
theorem predictive_operand (levels : Nat) :
    Predictive (operand levels) (words Grammar.Operand) (· ≠ .leftParen) := by
  induction levels with
  | zero => exact fun s K _ _ => .limit trivial
  | succ levels ih => exact predictive_operandWith ih

/-- The reader of expressions predicts them, wherever nothing follows that goes on with one. -/
theorem predictive_expression :
    Predictive expression (words Grammar.Expression) EndsExpression :=
  (predictive_chain (predictive_operand maxNesting)).map Operand.expr

end LSystem.Syntax
