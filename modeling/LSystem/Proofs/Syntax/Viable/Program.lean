import LSystem.Proofs.Syntax.Viable.Expression

/-!
# Declarations refuse the first impossible token

Every clause that may be left out opens with a token that nothing behind it begins with,
so that when it is not there what comes behind is all that can come.  The one place
where a part is refused after it has been read is the replacement of a rule: no symbol
is one too few, and then nothing has been read.
-/

namespace LSystem.Syntax

open LSystem.Syntax.Parser

open scoped Computability

/-! ### Symbols -/

theorem not_mem_symbolKinds_of_ends {kind : TokenKind} (h : endsSymbols kind = true) :
    kind ∉ Grammar.symbolKinds := by
  intro hmem
  rw [endsSymbols_of_kind_mem hmem] at h
  cases h

/-- A token that is not read as a symbol is of no kind that writes one. -/
theorem not_mem_symbolKinds_of_ofToken? {t : Token} (h : Symbol.ofToken? t = none) :
    t.kind ∉ Grammar.symbolKinds := by
  intro hmem
  obtain ⟨symbol, hmark⟩ := Grammar.SymbolMark.exists_iff.2 (show t.lexeme.kind ∈ _ from hmem)
  rw [ofToken?_of_symbolMark hmark] at h
  cases h

/-- A token that is read as a symbol is of a kind that writes one. -/
theorem mem_symbolKinds_of_ofToken? {t : Token} {symbol : Symbol}
    (h : Symbol.ofToken? t = some symbol) : t.kind ∈ Grammar.symbolKinds :=
  (symbolMark_of_ofToken? h).kind_mem

/-- What begins with a symbol does not begin with a token of another kind. -/
theorem opens_symbols {kind : TokenKind} (h : kind ∉ Grammar.symbolKinds) (L : Language Lexeme) :
    Opens (oneOf Grammar.symbolKinds * L) (· ≠ kind) :=
  opens_oneOf_mul fun _ hmem heq => h (heq ▸ hmem)

theorem ne_finish_of_mem_symbolKinds {kind : TokenKind} (h : kind ∈ Grammar.symbolKinds) :
    kind ≠ .finish :=
  fun heq => absurd (heq ▸ h) (by decide)

/-- The loop of symbols predicts any number of them, whatever it has collected, up to a token that
ends the row. -/
theorem predictive_symbolLoop (before : List Symbol) :
    Predictive (loop symbolStep advances_symbolStep before) (oneOf Grammar.symbolKinds)∗
      fun kind => endsSymbols kind = true := by
  refine .loop (fun before s K hs hK ih => ?_) before
  rw [symbolStep, bind_assoc, ← Language.one_add_self_mul_kstar_eq_kstar]
  refine .lookahead ?_
  by_cases hend : endsSymbols s.lookahead.kind = true
  · simp only [if_pos hend, pure_bind, Sum.elim_inr]
    exact .left (.pure _) (opens_symbols (not_mem_symbolKinds_of_ends hend) _).mul
  · have hK' : Opens (1 * K) (· ≠ s.lookahead.kind) := by
      rw [one_mul]
      exact hK.mono fun kind h heq => hend (heq ▸ h)
    simp only [if_neg hend]
    cases hsymbol : Symbol.ofToken? s.lookahead with
    | none =>
        refine .unexpected (exists_mem_add_left exists_mem_one _) (.add_mul hK' ?_)
        exact (opens_symbols (not_mem_symbolKinds_of_ofToken? hsymbol) _).mul
    | some symbol =>
        have hmem := mem_symbolKinds_of_ofToken? hsymbol
        simp only [bind_assoc, pure_bind, Sum.elim_inl]
        refine .right (.bind hs (.consume_of_kind hs rfl hmem (by decide) (by decide))
          (exists_mem_kstar _) fun t s₁ hrun hs₁ => ?_) hK'
        exact ih _ s₁ (consumes_consume (ne_finish_of_mem_symbolKinds hmem) s t s₁ hrun) hs₁

/-- The reader of symbols predicts rows of them, up to a token that ends one. -/
theorem predictive_symbols :
    Predictive symbols (words Grammar.Symbols) fun kind => endsSymbols kind = true := by
  rw [Grammar.words_symbols]
  exact predictive_symbolLoop []

/-- Symbols behind a symbol are a row that is not empty. The loop only adds to what it has
collected, so the refusal of an empty replacement cannot come after a symbol. -/
theorem run_symbolLoop_ne_nil {symbol : Symbol} {l : Lexeme} (hmark : Grammar.SymbolMark l symbol)
    {s s' : TokenStream} {row : List Symbol}
    (h : (loop symbolStep advances_symbolStep [symbol]).run s = (.ok row, s')) : row ≠ [] := by
  have hsofar : Grammar.Symbols [l] [symbol].reverse := .cons hmark .nil
  obtain ⟨ls, -, hrow⟩ := Sound.loop sound_symbolStep hsofar s row s' h
  rintro rfl
  cases hrow

/-- The row of a replacement is refused before its first symbol or not at all. Nothing has been
taken where it is refused, so the next token is the one that stands in the place of the first
symbol. -/
theorem predictive_someSymbols :
    Predictive (symbols >>= fun body => if body.isEmpty then failHere .emptyRule else return body)
      (oneOf Grammar.symbolKinds * (oneOf Grammar.symbolKinds)∗)
      fun kind => endsSymbols kind = true := by
  intro s K hs hK
  have hsome : ∃ ls, ls ∈ oneOf Grammar.symbolKinds * (oneOf Grammar.symbolKinds)∗ :=
    exists_mem_mul (exists_mem_oneOf _ _) (exists_mem_kstar _)
  rw [symbols, loop_eq, bind_assoc, symbolStep, bind_assoc]
  refine .lookahead ?_
  by_cases hend : endsSymbols s.lookahead.kind = true
  · simp only [if_pos hend, pure_bind, Sum.elim_inr]
    exact .failHere hsome (opens_symbols (not_mem_symbolKinds_of_ends hend) _).mul
  · simp only [if_neg hend]
    cases hsymbol : Symbol.ofToken? s.lookahead with
    | none =>
        exact .unexpected hsome (opens_symbols (not_mem_symbolKinds_of_ofToken? hsymbol) _).mul
    | some symbol =>
        have hmem := mem_symbolKinds_of_ofToken? hsymbol
        simp only [bind_assoc, pure_bind, Sum.elim_inl]
        refine .bind hs (.consume_of_kind hs rfl hmem (by decide) (by decide))
          (exists_mem_kstar _) fun t s₁ hrun₁ hs₁ => ?_
        rw [← mul_one (oneOf Grammar.symbolKinds)∗]
        refine .bind hs₁ ?_ exists_mem_one fun row s₂ hrun₂ hs₂ => ?_
        · rw [one_mul]
          exact predictive_symbolLoop [symbol] s₁ K hs₁ hK
        · have hrow := run_symbolLoop_ne_nil (symbolMark_of_ofToken? hsymbol) hrun₂
          rw [if_neg (by simpa using hrow)]
          exact .pure row

/-! ### Clauses -/

/-- A clause that may be absent begins with its own token or with what follows it. -/
theorem opens_clause_mul {α : Type} {G : List Lexeme → α → Prop} {kind : TokenKind}
    {K : Language Lexeme} {allowed : TokenKind → Prop} (hkind : allowed kind)
    (hK : Opens K allowed) : Opens (words (Grammar.Clause kind G) * K) allowed := by
  rw [Grammar.words_clause]
  exact .add_one_mul (opens_oneOf_mul (by simpa using hkind)) hK

/-- There is always a clause of a kind, the absent one, so what waits for it can be completed. -/
theorem exists_mem_clause {α : Type} (kind : TokenKind) (G : List Lexeme → α → Prop) :
    ∃ ls, ls ∈ words (Grammar.Clause kind G) :=
  ⟨[], none, .absent⟩

/-- The reader of a clause predicts it if the reader of its content does; what follows must not
begin with the token of the clause, or its absence could not be seen. -/
theorem predictive_clause {α : Type} {G : List Lexeme → α → Prop} {content : Parser α}
    {follow : TokenKind → Prop} (kind : TokenKind) (hfinish : kind ≠ .finish)
    (hnumber : kind ≠ .number) (hG : ∃ ls, ls ∈ words G)
    (hcontent : Predictive content (words G) follow) :
    Predictive (clause kind content) (words (Grammar.Clause kind G)) fun k =>
      k ≠ kind ∧ follow k := by
  intro s K hs hK
  rw [Grammar.words_clause]
  refine .optional hs hfinish hnumber hG (fun s₁ _ hs₁ => ?_) (.pure none) ?_
  · exact (hcontent s₁ K hs₁ (hK.mono fun _ h => h.2)).map hs₁ some
  · rw [one_mul]
    exact hK.mono fun _ h => h.1

/-- The reader of a replacement predicts it. It refuses an empty one behind the sign of
assignment, and there the next token is just what cannot follow the sign. -/
theorem predictive_replacement :
    Predictive replacement (words Grammar.Replacement) fun kind => endsSymbols kind = true := by
  intro s K hs hK
  rw [Grammar.words_replacement]
  refine .optional hs (by decide) (by decide) ?_ (fun s₁ _ hs₁ => ?_) (.pure []) ?_
  · exact exists_mem_mul (exists_mem_oneOf _ _) (exists_mem_kstar _)
  · exact predictive_someSymbols s₁ K hs₁ hK
  · rw [one_mul]
    exact hK.mono fun kind h heq => by simp [heq, endsSymbols] at h

theorem exists_mem_colorParts : ∃ ls, ls ∈ words (Grammar.ColorParts Grammar.Expression) := by
  obtain ⟨ls, e, he⟩ := Grammar.exists_mem_expressions
  exact ⟨ls, _, .gray he⟩

/-- The reader of a color predicts one, up to a token that goes on with neither an expression nor
its parts. -/
theorem predictive_color :
    Predictive color (words (Grammar.ColorParts Grammar.Expression)) fun kind =>
      EndsExpression kind ∧ kind ≠ .comma := by
  intro s K hs hK
  have hsome := Grammar.exists_mem_expressions
  rw [Grammar.words_colorParts]
  refine .bind hs (predictive_expression s _ hs ?_) (exists_mem_add_one _) fun r s₁ _ hs₁ => ?_
  · exact .add_one_mul (opens_oneOf_mul (by simpa using endsExpression_comma))
      (hK.mono fun _ h => h.1)
  refine .optional hs₁ (by decide) (by decide) ?_ (fun s₂ _ hs₂ => ?_) (.pure _) ?_
  · exact exists_mem_mul hsome (exists_mem_mul (exists_mem_oneOf _ _) hsome)
  · refine .bind hs₂ (predictive_expression s₂ _ hs₂ ?_)
      (exists_mem_mul (exists_mem_oneOf _ _) hsome) fun g s₃ _ hs₃ => ?_
    · rw [mul_assoc]
      exact opens_oneOf_mul (by simpa using endsExpression_comma)
    refine .bind hs₃ (.consume hs₃ (by decide) (by decide)) hsome fun t s₄ _ hs₄ => ?_
    exact (predictive_expression s₄ K hs₄ (hK.mono fun _ h => h.1)).map hs₄ _
  · rw [one_mul]
    exact hK.mono fun _ h => h.2

/-! ### Declarations -/

instance : DecidablePred EndsExpression := fun kind =>
  inferInstanceAs (Decidable (kind ≠ .leftParen ∧ Operator.ofKind? kind = none))

theorem predicts_name {K : Language Lexeme} {s : TokenStream} (hs : s.Whole) :
    Predicts name (oneOf [.identifier]) K s :=
  Predicts.map hs (.consume hs (by decide) (by decide)) Token.text

/-- The reader of a rule predicts what follows the word `rule`, up to the semicolon. -/
theorem predictive_rule :
    Predictive rule (Grammar.bodies Grammar.Expression .rule) (· ∈ [.semicolon]) := by
  intro s K hs hK
  refine .bind hs (predicts_name hs) ?_ fun name s₁ _ hs₁ => ?_
  · exact exists_mem_mul ⟨[], _, .absent⟩ (exists_mem_clause _ _)
  refine .bind hs₁ (predictive_replacement s₁ _ hs₁ ?_) (exists_mem_clause _ _)
    fun body s₂ _ hs₂ => ?_
  · exact opens_clause_mul (by decide) (hK.mono (by decide))
  have hbias := predictive_clause (.keyword .bias) (by decide) (by decide)
    Grammar.exists_mem_expressions predictive_expression
  exact (hbias s₂ K hs₂ (hK.mono (by decide))).map hs₂ _

/-- The reader of a variable predicts what follows the word `var`, up to the semicolon. -/
theorem predictive_variableDeclaration :
    Predictive variableDeclaration (Grammar.bodies Grammar.Expression .var)
      (· ∈ [.semicolon]) := by
  intro s K hs hK
  have hsome := Grammar.exists_mem_expressions
  refine .bind hs (predicts_name hs) (exists_mem_mul (exists_mem_oneOf _ _) hsome)
    fun name s₁ _ hs₁ => ?_
  refine .bind hs₁ (.consume hs₁ (by decide) (by decide)) hsome fun assign s₂ _ hs₂ => ?_
  exact (predictive_expression s₂ K hs₂ (hK.mono (by decide))).map hs₂ _

/-- The reader of a rotation predicts an angle and perhaps a unit, up to the semicolon. -/
theorem predictive_rotation :
    Predictive rotation (words Grammar.Expression * words Grammar.UnitMark) (· ∈ [.semicolon]) := by
  intro s K hs hK
  have hdeg : Opens ((oneOf [.keyword .deg] * 1 + 1) * K) (· ∈ [.keyword .deg, .semicolon]) :=
    .add_one_mul (opens_oneOf_mul (by decide)) (hK.mono (by decide))
  have hunit : Opens (words Grammar.UnitMark * K)
      (· ∈ [.keyword .rad, .keyword .deg, .semicolon]) := by
    rw [Grammar.words_unitMark]
    exact .add_mul (opens_oneOf_mul (by decide)).mul (hdeg.mono (by decide))
  refine .bind hs (predictive_expression s _ hs (hunit.mono (by decide))) ⟨[], _, .absent⟩
    fun angle s₁ _ hs₁ => ?_
  rw [Grammar.words_unitMark]
  refine .optional hs₁ (by decide) (by decide) exists_mem_one (fun s₂ _ _ => .pure _) ?_
    (hdeg.mono (by decide))
  refine .optional hs₁ (by decide) (by decide) exists_mem_one (fun s₂ _ _ => .pure _) (.pure _) ?_
  rw [one_mul]
  exact hK.mono (by decide)

/-- The reader of a translation predicts one distance or two and the look of a line, up to the
semicolon. -/
theorem predictive_displacement :
    Predictive displacement
      (words Grammar.Expression * (words (Grammar.Clause .comma Grammar.Expression) *
        words (Grammar.Look Grammar.Expression))) (· ∈ [.semicolon]) := by
  intro s K hs hK
  have hsome := Grammar.exists_mem_expressions
  rw [Grammar.words_look]
  have hcolor : Opens (words (Grammar.Clause (.keyword .color)
      (Grammar.ColorParts Grammar.Expression)) * K) (· ∈ [.keyword .color, .semicolon]) :=
    opens_clause_mul (by decide) (hK.mono (by decide))
  have hwidth : Opens (words (Grammar.Clause (.keyword .width) Grammar.Expression) *
      words (Grammar.Clause (.keyword .color) (Grammar.ColorParts Grammar.Expression)) * K)
      (· ∈ [.keyword .width, .keyword .color, .semicolon]) := by
    rw [mul_assoc]
    exact opens_clause_mul (by decide) (hcolor.mono (by decide))
  have hcomma : Opens (words (Grammar.Clause .comma Grammar.Expression) *
      (words (Grammar.Clause (.keyword .width) Grammar.Expression) *
        words (Grammar.Clause (.keyword .color) (Grammar.ColorParts Grammar.Expression))) * K)
      (· ∈ [.comma, .keyword .width, .keyword .color, .semicolon]) := by
    rw [mul_assoc]
    exact opens_clause_mul (by decide) (hwidth.mono (by decide))
  refine .bind hs (predictive_expression s _ hs (hcomma.mono (by decide)))
    (exists_mem_mul (exists_mem_clause _ _) (exists_mem_mul (exists_mem_clause _ _)
      (exists_mem_clause _ _))) fun x s₁ _ hs₁ => ?_
  refine .bind hs₁ (predictive_clause .comma (by decide) (by decide) hsome predictive_expression
    s₁ _ hs₁ (hwidth.mono (by decide)))
    (exists_mem_mul (exists_mem_clause _ _) (exists_mem_clause _ _)) fun y s₂ _ hs₂ => ?_
  refine .bind hs₂ (predictive_clause (.keyword .width) (by decide) (by decide) hsome
    predictive_expression s₂ _ hs₂ (hcolor.mono (by decide))) (exists_mem_clause _ _)
    fun width s₃ _ hs₃ => ?_
  have hlast := predictive_clause (.keyword .color) (by decide) (by decide) exists_mem_colorParts
    predictive_color s₃ K hs₃ (hK.mono (by decide))
  cases y with
  | none => exact hlast.map hs₃ _
  | some y => exact hlast.map hs₃ _

/-- The reader of a transform predicts a name and a motion, up to the semicolon. -/
theorem predictive_transform :
    Predictive transform (Grammar.bodies Grammar.Expression .transform) (· ∈ [.semicolon]) := by
  intro s K hs hK
  have hrotation : ∃ ls, ls ∈ words Grammar.Expression * words Grammar.UnitMark :=
    exists_mem_mul Grammar.exists_mem_expressions ⟨[], _, .absent⟩
  have hdisplacement : ∃ ls, ls ∈ words Grammar.Expression *
      (words (Grammar.Clause .comma Grammar.Expression) *
        words (Grammar.Look Grammar.Expression)) :=
    exists_mem_mul Grammar.exists_mem_expressions
      (exists_mem_mul (exists_mem_clause _ _) ⟨_, _, .mk .absent .absent⟩)
  rw [Grammar.bodies, Grammar.words_motionParts]
  refine .bind hs (.consumeAny hs (by decide) (by decide)) (exists_mem_add_left
    (exists_mem_mul (exists_mem_oneOf _ _) hrotation) _) fun name s₁ _ hs₁ => ?_
  refine .lookahead ?_
  split
  · rename_i hkind
    refine .left (.bind hs₁ (.advance hs₁ (by simp [hkind]) (by decide) (by decide)) hrotation
      fun t s₂ _ hs₂ => ?_) (opens_oneOf_mul (by simp [hkind])).mul
    exact (predictive_rotation s₂ K hs₂ hK).map hs₂ _
  · rename_i hkind
    refine .right (.bind hs₁ (.advance hs₁ (by simp [hkind]) (by decide) (by decide)) hdisplacement
      fun t s₂ _ hs₂ => ?_) (opens_oneOf_mul (by simp [hkind])).mul
    exact (predictive_displacement s₂ K hs₂ hK).map hs₂ _
  · rename_i hrotate htranslate
    refine .unexpected (exists_mem_add_left (exists_mem_mul (exists_mem_oneOf _ _) hrotation) _)
      (.add_mul (opens_oneOf_mul ?_).mul (opens_oneOf_mul ?_).mul)
    · simpa using fun h => hrotate h.symm
    · simpa using fun h => htranslate h.symm

/-- Whatever word opens a declaration, what it opens is predicted up to the semicolon. That there
is some word at all is needed where a declaration is refused in its middle. -/
theorem predictive_declarationOf {word : Keyword} {content : Parser Declaration}
    (h : declarationOf word = some content) :
    Predictive content (Grammar.bodies Grammar.Expression word) (· ∈ [.semicolon]) ∧
      ∃ ls, ls ∈ Grammar.bodies Grammar.Expression word := by
  have hsome := Grammar.exists_mem_expressions
  have hexpression : Predictive expression (words Grammar.Expression) (· ∈ [.semicolon]) :=
    predictive_expression.mono (by decide)
  cases word with
  | var =>
      cases h
      exact ⟨predictive_variableDeclaration, exists_mem_mul (exists_mem_oneOf _ _)
        (exists_mem_mul (exists_mem_oneOf _ _) hsome)⟩
  | rule =>
      cases h
      exact ⟨predictive_rule, exists_mem_mul (exists_mem_oneOf _ _)
        (exists_mem_mul ⟨[], _, .absent⟩ (exists_mem_clause _ _))⟩
  | transform =>
      cases h
      obtain ⟨ls, angle, hangle⟩ := hsome
      have hword : Lexeme.kind ⟨.keyword .rotate, ""⟩ = .keyword .rotate := rfl
      exact ⟨predictive_transform, exists_mem_mul (exists_mem_oneOf _ _)
        ⟨_, _, .rotate hword hangle .absent⟩⟩
  | start =>
      cases h
      exact ⟨(predictive_symbols.mono (by decide)).map _, [], [], .nil⟩
  | length =>
      cases h
      exact ⟨hexpression.map _, hsome⟩
  | width =>
      cases h
      exact ⟨hexpression.map _, hsome⟩
  | color =>
      cases h
      exact ⟨(predictive_color.mono (by decide)).map _, exists_mem_colorParts⟩
  | iterate =>
      cases h
      exact ⟨hexpression.map _, hsome⟩
  | bias => cases h
  | rotate => cases h
  | translate => cases h
  | rad => cases h
  | deg => cases h

/-- A declaration begins with a word that opens one. The end of the text and all other tokens are
refused in its place. -/
theorem opens_declares :
    Opens (words (Grammar.Declares Grammar.Expression)) fun kind =>
      (declarationOpenedBy kind).isSome := by
  intro ls hls
  obtain ⟨l, word, rest, rfl, hkind, hrest⟩ := Grammar.mem_words_declares.1 hls
  refine ⟨l, rest, rfl, ?_⟩
  rw [hkind]
  cases word with
  | bias => cases hrest
  | rotate => cases hrest
  | translate => cases hrest
  | rad => cases hrest
  | deg => cases hrest
  | _ => rfl

/-- A keyword with what may follow it is a declaration of the grammar. -/
theorem bodies_le_declares (word : Keyword) :
    oneOf [.keyword word] * Grammar.bodies Grammar.Expression word ≤
      words (Grammar.Declares Grammar.Expression) := by
  intro ls hls
  obtain ⟨l, rest, rfl, hkind, hrest⟩ := mem_oneOf_mul.1 hls
  exact Grammar.mem_words_declares.2 ⟨l, word, rest, rfl, List.mem_singleton.1 hkind, hrest⟩

/-- What opens a declaration is a keyword, and the reader that goes on is the one of this
keyword. -/
theorem exists_keyword_of_opened {kind : TokenKind} {content : Parser Declaration}
    (h : declarationOpenedBy kind = some content) :
    ∃ word, kind = .keyword word ∧ declarationOf word = some content := by
  cases kind with
  | keyword word => exact ⟨word, rfl, h⟩
  | _ => cases h

/-- There is a declaration with its semicolon, so a program that has begun one can be
completed. -/
theorem exists_mem_declarations :
    ∃ ls, ls ∈ words (Grammar.Declares Grammar.Expression) * oneOf [.semicolon] := by
  have hword : Lexeme.kind ⟨.keyword .start, ""⟩ = .keyword .start := rfl
  exact exists_mem_mul ⟨_, _, .start hword .nil⟩ (exists_mem_oneOf _ _)

/-- The reader of a declaration predicts the declarations of the grammar, each with its semicolon,
whatever may come behind. -/
theorem predicts_declaration {K : Language Lexeme} {s : TokenStream} (hs : s.Whole) :
    Predicts declaration
      (words (Grammar.Declares Grammar.Expression) * oneOf [.semicolon]) K s := by
  refine .lookahead ?_
  cases hopened : declarationOpenedBy s.lookahead.kind with
  | none =>
      refine .unexpected exists_mem_declarations (Opens.mul (Opens.mul ?_))
      refine opens_declares.mono fun kind h heq => ?_
      rw [heq, hopened] at h
      cases h
  | some content =>
      obtain ⟨word, hkind, hcontent⟩ := exists_keyword_of_opened hopened
      obtain ⟨hpredictive, hsome⟩ := predictive_declarationOf hcontent
      have hread : Predicts (advance >>= fun _ => content >>= fun declared =>
          consume .semicolon >>= fun _ => Pure.pure declared)
          (oneOf [.keyword word] *
            (Grammar.bodies Grammar.Expression word * oneOf [.semicolon])) K s := by
        refine .bind hs (.advance hs (by simp [hkind]) (by simp) (by simp))
          (exists_mem_mul hsome (exists_mem_oneOf _ _)) fun t s₁ _ hs₁ => ?_
        refine .bind hs₁ (hpredictive s₁ _ hs₁ (opens_oneOf_mul fun _ h => h))
          (exists_mem_oneOf _ _) fun declared s₂ _ hs₂ => ?_
        exact Predicts.map hs₂ (.consume hs₂ (by decide) (by decide)) _
      rw [← mul_assoc] at hread
      refine hread.narrow (mul_le_mul_left (bodies_le_declares word) _) fun ws hws => ?_
      rw [mul_assoc] at hws ⊢
      obtain ⟨ls, hls, ms, hms, heq⟩ := Language.mem_mul.1 hws
      obtain ⟨l, word', rest, rfl, hword', hrest⟩ := Grammar.mem_words_declares.1 hls
      obtain ⟨rfl, -⟩ := List.cons.inj heq
      obtain rfl : word = word' := TokenKind.keyword.inj (hkind.symm.trans hword')
      exact ⟨_, cons_mem_oneOf_mul.2 ⟨List.mem_singleton.2 hkind, hrest⟩, ms, hms, heq⟩

/-- **Programs.**  A declaration or the end of the text. The loop goes round once for every
declaration, and between two of them the program may be at its end. -/
theorem predictive_program :
    Predictive program (words (Grammar.Declarations Grammar.Expression)) (· ∈ [.finish]) := by
  rw [Grammar.words_declarations]
  refine .loop (fun before s K hs hK ih => ?_) []
  rw [programStep, bind_assoc, ← Language.one_add_self_mul_kstar_eq_kstar]
  refine .lookahead ?_
  split
  · rename_i hkind
    refine .left (.pure _) (Opens.mul (Opens.mul (Opens.mul ?_)))
    refine opens_declares.mono fun kind h heq => ?_
    rw [heq, hkind] at h
    cases h
  · rename_i hkind
    rw [bind_assoc]
    refine .right (.bind hs (predicts_declaration hs) (exists_mem_kstar _)
      fun d s₁ hrun hs₁ => ?_) ?_
    · exact ih _ s₁ (consumes_declaration s d s₁ hrun) hs₁
    · rw [one_mul]
      exact hK.mono fun kind h heq => hkind (by simpa [heq] using h)

end LSystem.Syntax
