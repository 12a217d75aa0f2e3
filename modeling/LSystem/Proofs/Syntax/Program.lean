import LSystem.Proofs.Syntax.Expression
import LSystem.Syntax.Parser.Program

/-!
# Programs are read by the grammar

Every clause that may be left out opens with a token that nothing else at its
place can begin with, so looking at one token settles whether it is there.
Soundness does not need this.  Completeness does, and asks of each part what may
follow it: a row of symbols has to be followed by a bias or by the semicolon, an
expression by something that does not go on with it.
-/

namespace LSystem.Syntax

open LSystem.Syntax.Parser

section Parts

variable {α : Type} {kind : TokenKind} {content : Parser α} {G : List Lexeme → α → Prop}
  {s s' : TokenStream} {ls : List Lexeme}

/-! ### Soundness -/

/-- A clause that may be absent is read soundly if its content is: without its opening token
nothing is taken. -/
theorem sound_clause (hfinish : kind ≠ .finish) (hnumber : kind ≠ .number)
    (hcontent : Sound content G) : Sound (clause kind content) (Grammar.Clause kind G) := by
  refine Sound.optional hfinish hnumber (fun opening hopening => ?_) (sound_pure .absent)
  refine hcontent.bind fun ls a ha => sound_pure ?_
  rw [List.append_nil]
  exact .present hopening ha

/-- What is read as a name is a single identifier, with its text for an answer. -/
theorem sound_name : Sound name fun ls text =>
    ∃ l : Lexeme, l.kind = .identifier ∧ l.text = text ∧ ls = [l] := by
  refine (sound_consume (by decide) (by decide)).bind ?_
  intro _ t h
  obtain ⟨hkind, rfl⟩ := h
  exact sound_pure ⟨t.lexeme, hkind, rfl, rfl⟩

/-- A token that is read as a symbol is a mark of this symbol. -/
theorem symbolMark_of_ofToken? {t : Token} {symbol : Symbol}
    (h : Symbol.ofToken? t = some symbol) : Grammar.SymbolMark t.lexeme symbol := by
  simp only [Symbol.ofToken?] at h
  split at h
  · rename_i hkind
    obtain rfl : Symbol.named t.text = symbol := by simpa using h
    exact .named (l := t.lexeme) (by simp [Token.lexeme, hkind])
  · rename_i hkind
    obtain rfl : Symbol.named t.text = symbol := by simpa using h
    exact .named (l := t.lexeme) (by simp [Token.lexeme, hkind])
  · rename_i hkind
    obtain rfl : Symbol.named t.text = symbol := by simpa using h
    exact .named (l := t.lexeme) (by simp [Token.lexeme, hkind])
  · rename_i hkind
    obtain rfl : Symbol.push = symbol := by simpa using h
    exact .push hkind
  · rename_i hkind
    obtain rfl : Symbol.pop = symbol := by simpa using h
    exact .pop hkind
  · simp at h

/-- A symbol is written by one of five kinds of token, none of which ends a row of symbols. -/
theorem Grammar.SymbolMark.kind_mem {l : Lexeme} {symbol : Symbol} (h : SymbolMark l symbol) :
    l.kind ∈ [.identifier, .plus, .minus, .leftBracket, .rightBracket] := by
  cases h with
  | named hkind =>
      simp only [List.mem_cons, List.not_mem_nil, or_false] at hkind
      rcases hkind with h | h | h <;> simp [h]
  | push hkind => simp [hkind]
  | pop hkind => simp [hkind]

/-- One round of reading symbols takes one symbol, or ends the row without taking anything. -/
theorem sound_symbolStep (before : List Symbol) (ms : List Lexeme)
    (hbefore : Grammar.Symbols ms before.reverse) :
    Sound (symbolStep before) fun ls =>
      Round (fun before ls => Grammar.Symbols ls before.reverse) Grammar.Symbols (ms ++ ls) := by
  refine Sound.lookahead_at fun s row s' hrun => ?_
  split at hrun
  · exact sound_pure (by simpa using hbefore) s row s' hrun
  · split at hrun
    · exact sound_unexpected s row s' hrun
    · rename_i symbol hsymbol
      have hmark := symbolMark_of_ofToken? hsymbol
      obtain ⟨t, s₁, hconsume, hpure⟩ := run_bind_eq_ok hrun
      obtain ⟨rfl, rfl⟩ : Sum.inl (symbol :: before) = row ∧ s₁ = s' := by
        simpa [run_pure] using hpure
      have hkind := hmark.kind_mem
      obtain ⟨rfl, -, hreads⟩ := consumeAny_sound
        (by intro h; simp [Token.lexeme, ← List.mem_singleton.1 h] at hkind)
        (by intro h; simp [Token.lexeme, ← List.mem_singleton.1 h] at hkind) hconsume
      refine ⟨_, hreads, ?_⟩
      rw [round_inl, List.reverse_cons]
      exact List.rel_append hbefore (.cons hmark .nil)

theorem sound_symbols : Sound symbols Grammar.Symbols :=
  Sound.loop sound_symbolStep (show Grammar.Symbols [] [].reverse from .nil)

/-- What is read as a replacement is nothing, or the sign of an assignment with at least one
symbol behind it. -/
theorem sound_replacement : Sound replacement Grammar.Replacement := by
  refine Sound.optional (by decide) (by decide) (fun assign hassign => ?_) (sound_pure .absent)
  refine sound_symbols.bind fun ls body hbody => ?_
  split
  · exact sound_failHere
  · rename_i hempty
    refine sound_pure ?_
    rw [List.append_nil]
    exact .present hassign hbody (by simpa using hempty)

/-- What is read as a color is one expression, or three with commas between them. -/
theorem sound_color : Sound color (Grammar.ColorParts Admits) := by
  refine sound_expression.bind fun ls r hr => ?_
  refine Sound.optional (by decide) (by decide) (fun comma hcomma => ?_) (sound_pure ?_)
  · refine sound_expression.bind fun ms g hg => ?_
    refine (sound_consume (by decide) (by decide)).bind ?_
    intro _ comma' h
    obtain ⟨hcomma', rfl⟩ := h
    refine sound_expression.bind fun ns b hb => sound_pure ?_
    have hmark : comma'.lexeme.kind = .comma := hcomma'
    simpa using Grammar.ColorParts.rgb hr hcomma hg hmark hb
  · rw [List.append_nil]
    exact .gray hr

/-- Behind the word `rule` what is read is a rule: a name, a replacement and perhaps a bias. -/
theorem sound_rule : Sound rule fun ls d =>
    ∀ word : Lexeme, word.kind = .keyword .rule → Grammar.Declares Admits (word :: ls) d := by
  refine sound_name.bind ?_
  intro _ _ h
  obtain ⟨name, hname, rfl, rfl⟩ := h
  refine sound_replacement.bind fun ls body hbody => ?_
  refine (sound_clause (by decide) (by decide) sound_expression).bind fun ms bias hbias => ?_
  refine sound_pure fun word hword => ?_
  simpa using Grammar.Declares.rule hword hname hbody hbias

/-- Behind the word `var` what is read is a name, the sign of an assignment and an expression. -/
theorem sound_variableDeclaration : Sound variableDeclaration fun ls d =>
    ∀ word : Lexeme, word.kind = .keyword .var → Grammar.Declares Admits (word :: ls) d := by
  refine sound_name.bind ?_
  intro _ _ h
  obtain ⟨name, hname, rfl, rfl⟩ := h
  refine (sound_consume (by decide) (by decide)).bind ?_
  intro _ assign h
  obtain ⟨hassign, rfl⟩ := h
  refine sound_expression.bind fun ls value hvalue => sound_pure fun word hword => ?_
  have hmark : assign.lexeme.kind = .assign := hassign
  simpa using Grammar.Declares.var hword hname hmark hvalue

/-- Behind the word `rotate` what is read is an angle and perhaps its unit. -/
theorem sound_rotation : Sound rotation fun ls motion =>
    ∀ word : Lexeme, word.kind = .keyword .rotate →
      Grammar.MotionParts Admits (word :: ls) motion := by
  refine sound_expression.bind fun ls angle hangle => ?_
  refine Sound.optional (by decide) (by decide) (fun l hl => ?_) ?_
  · exact sound_pure fun word hword => .rotate hword hangle (.rad hl)
  · refine (sound_consumeOptional (by decide) (by decide)).bind fun ms found hread => ?_
    refine sound_pure fun word hword => ?_
    cases found with
    | true =>
        obtain ⟨l, hl, rfl⟩ := hread
        exact .rotate hword hangle (.deg hl)
    | false =>
        subst hread
        exact .rotate hword hangle .absent

/-- Behind the word `translate` what is read is one distance or two, and the look of the line. -/
theorem sound_displacement : Sound displacement fun ls motion =>
    ∀ word : Lexeme, word.kind = .keyword .translate →
      Grammar.MotionParts Admits (word :: ls) motion := by
  refine sound_expression.bind fun ls x hx => ?_
  refine (sound_clause (by decide) (by decide) sound_expression).bind fun ms y hy => ?_
  refine (sound_clause (by decide) (by decide) sound_expression).bind fun ns width hwidth => ?_
  refine (sound_clause (by decide) (by decide) sound_color).bind fun ps color hcolor => ?_
  have hlook := Grammar.Look.mk hwidth hcolor
  cases hy with
  | absent => exact sound_pure fun word hword => by simpa using .forward hword hx hlook
  | present hcomma hy =>
      exact sound_pure fun word hword => by simpa using .shift hword hx hcomma hy hlook

/-- What is read behind the name of a transform. -/
def Moves (name : Lexeme) (ls : List Lexeme) (d : Declaration) : Prop :=
  ∀ word : Lexeme, word.kind = .keyword .transform → Grammar.Declares Admits (word :: name :: ls) d

/-- Behind the word `transform` what is read is a name and a motion. -/
theorem sound_transform : Sound transform fun ls d =>
    ∀ word : Lexeme, word.kind = .keyword .transform → Grammar.Declares Admits (word :: ls) d := by
  refine (sound_consumeAny (by decide) (by decide)).bind ?_
  intro _ name h
  obtain ⟨hname, rfl⟩ := h
  refine Sound.lookahead_at fun s d s' hrun => ?_
  have hname' : name.lexeme.kind ∈ [.identifier, .plus, .minus] := hname
  suffices h : ∃ ls, s.Reads ls s' ∧ Moves name.lexeme ls d from h
  split at hrun
  · rename_i hkind
    refine advance_bind_sound_of_ne (by simp [hkind]) (by simp [hkind]) (fun t ht => ?_) hrun
    refine sound_rotation.bind fun ls motion hmotion => sound_pure fun word hword => ?_
    rw [List.append_nil]
    exact .transform hword hname' (hmotion t.lexeme (ht.trans hkind))
  · rename_i hkind
    refine advance_bind_sound_of_ne (by simp [hkind]) (by simp [hkind]) (fun t ht => ?_) hrun
    refine sound_displacement.bind fun ls motion hmotion => sound_pure fun word hword => ?_
    rw [List.append_nil]
    exact .transform hword hname' (hmotion t.lexeme (ht.trans hkind))
  · exact sound_unexpected s d s' hrun

/-- Whatever word opens a declaration, what it opens is read soundly. There is one case for each
keyword of a declaration, and the others open none. -/
theorem sound_declarationOf {word : Keyword} {content : Parser Declaration}
    (h : declarationOf word = some content) : Sound content fun ls d =>
      ∀ l : Lexeme, l.kind = .keyword word → Grammar.Declares Admits (l :: ls) d := by
  cases word with
  | var =>
      cases h
      exact sound_variableDeclaration
  | rule =>
      cases h
      exact sound_rule
  | transform =>
      cases h
      exact sound_transform
  | start =>
      cases h
      refine sound_symbols.bind fun ls row hrow => sound_pure fun l hl => ?_
      rw [List.append_nil]
      exact .start hl hrow
  | length =>
      cases h
      refine sound_expression.bind fun ls value hvalue => sound_pure fun l hl => ?_
      rw [List.append_nil]
      exact .length hl hvalue
  | width =>
      cases h
      refine sound_expression.bind fun ls value hvalue => sound_pure fun l hl => ?_
      rw [List.append_nil]
      exact .width hl hvalue
  | color =>
      cases h
      refine sound_color.bind fun ls value hvalue => sound_pure fun l hl => ?_
      rw [List.append_nil]
      exact .color hl hvalue
  | iterate =>
      cases h
      refine sound_expression.bind fun ls value hvalue => sound_pure fun l hl => ?_
      rw [List.append_nil]
      exact .iterate hl hvalue
  | bias => cases h
  | rotate => cases h
  | translate => cases h
  | rad => cases h
  | deg => cases h

/-- A declaration with its semicolon. -/
def Closed (ls : List Lexeme) (d : Declaration) : Prop :=
  ∃ ms semicolon, ls = ms ++ [semicolon] ∧ semicolon.kind = .semicolon ∧
    Grammar.Declares Admits ms d

/-- What is read as a declaration is one of the grammar, with its semicolon, whichever keyword
opens it. -/
theorem sound_declaration : Sound declaration Closed := by
  refine Sound.lookahead_at fun s d s' hrun => ?_
  split at hrun
  · exact sound_unexpected s d s' hrun
  · rename_i content hcontent
    obtain ⟨word, hkind, hword⟩ : ∃ word, s.lookahead.kind = .keyword word ∧
        declarationOf word = some content := by
      unfold declarationOpenedBy at hcontent
      split at hcontent
      · exact ⟨_, ‹_›, hcontent⟩
      · simp at hcontent
    refine advance_bind_sound_of_ne (by simp [hkind]) (by simp [hkind]) (fun t ht => ?_) hrun
    refine (sound_declarationOf hword).bind fun ls d hd => ?_
    refine (sound_consume (by decide) (by decide)).bind ?_
    intro _ semicolon h
    obtain ⟨hsemicolon, rfl⟩ := h
    refine sound_pure ⟨t.lexeme :: ls, semicolon.lexeme, by simp, hsemicolon, ?_⟩
    exact hd _ (ht.trans hkind)

/-- What the reader of a program has read: a program that lacks its last
declarations. -/
def DeclaredSoFar (before : Program) (ms : List Lexeme) : Prop :=
  ∀ ls p, Grammar.Declarations Admits ls p →
    Grammar.Declarations Admits (ms ++ ls) (before.reverse ++ p)

/-- One round of reading a program takes a declaration more, or ends the program at the end of the
text. -/
theorem sound_programStep (before : Program) (ms : List Lexeme)
    (hbefore : DeclaredSoFar before ms) : Sound (programStep before) fun ls =>
      Round DeclaredSoFar (Grammar.Declarations Admits) (ms ++ ls) := by
  refine Sound.lookahead fun t => ?_
  split
  · exact sound_pure (by simpa using hbefore [] [] .nil)
  · refine sound_declaration.bind ?_
    intro _ d h
    obtain ⟨ls, semicolon, rfl, hsemicolon, hd⟩ := h
    refine sound_pure fun ns p hp => ?_
    simpa using hbefore _ _ (.cons hd hsemicolon hp)

/-- Programs are read soundly, by the rule for loops. -/
theorem sound_program : Sound program (Grammar.Declarations Admits) :=
  Sound.loop sound_programStep (show DeclaredSoFar [] [] from fun _ _ h => h)

/-! ### Completeness -/

/-- A clause begins with its own token; without it, what follows comes next. -/
theorem Grammar.Clause.lookahead_kind {o : Option α} (hclause : Grammar.Clause kind G ls o)
    (hreads : s.Reads ls s') :
    s.lookahead.kind = kind ∨ s.lookahead.kind = s'.lookahead.kind := by
  cases hclause with
  | absent =>
      obtain rfl := TokenStream.reads_nil_iff.1 hreads
      exact .inr rfl
  | present hopening _ => exact .inl (hreads.lookahead_kind.trans hopening)

/-- A clause of the grammar is read if its content is and if what follows it does not open such a
clause. -/
theorem complete_clause {follow : TokenKind → Prop} (hcontent : Complete content G follow) :
    Complete (clause kind content) (Grammar.Clause kind G) fun k => k ≠ kind ∧ follow k := by
  intro s ls s' o hreads hclause hfollow
  cases hclause with
  | absent =>
      obtain rfl := TokenStream.reads_nil_iff.1 hreads
      exact run_bind_of_eq (run_consumeOptional_of_ne hfollow.1)
  | @present opening ls a hopening ha =>
      obtain ⟨t, rest, rfl, rfl, -, htail⟩ := TokenStream.reads_cons_iff.1 hreads
      have hrun := hcontent rest ls s' a htail ha hfollow.2
      refine (run_bind_of_eq (run_consumeOptional hopening)).trans ?_
      exact run_bind_of_eq hrun

theorem run_name {t : Token} (hkind : t.kind = .identifier) (rest : TokenStream) :
    name.run (.token t rest) = (.ok t.text, rest) :=
  run_bind_of_eq (run_consume hkind)

/-- A mark of a symbol is read as this symbol. -/
theorem ofToken?_of_symbolMark {t : Token} {symbol : Symbol}
    (h : Grammar.SymbolMark t.lexeme symbol) : Symbol.ofToken? t = some symbol := by
  cases h with
  | named hkind =>
      have hmem : t.kind ∈ [.identifier, .plus, .minus] := hkind
      simp only [List.mem_cons, List.not_mem_nil, or_false] at hmem
      rcases hmem with h | h | h <;> simp [Symbol.ofToken?, h, Token.lexeme]
  | push hkind => simp [Symbol.ofToken?, show t.kind = .leftBracket from hkind]
  | pop hkind => simp [Symbol.ofToken?, show t.kind = .rightBracket from hkind]

/-- No kind of token that writes a symbol ends a row of symbols. -/
theorem endsSymbols_of_kind_mem {k : TokenKind}
    (h : k ∈ [.identifier, .plus, .minus, .leftBracket, .rightBracket]) :
    endsSymbols k = false := by
  simp only [List.mem_cons, List.not_mem_nil, or_false] at h
  rcases h with rfl | rfl | rfl | rfl | rfl <;> decide

/-- Symbols are read to their end, behind the ones that were there before. The induction is on the
row. -/
theorem run_symbols {row : List Symbol} (hrow : Grammar.Symbols ls row)
    (hend : endsSymbols s'.lookahead.kind) (before : List Symbol) (hreads : s.Reads ls s') :
    (loop symbolStep advances_symbolStep before).run s = (.ok (before.reverse ++ row), s') := by
  induction hrow generalizing s before with
  | nil =>
      obtain rfl := TokenStream.reads_nil_iff.1 hreads
      have hround : (symbolStep before).run s = (.ok (.inr before.reverse), s) := by
        rw [symbolStep, run_lookahead_bind, if_pos hend]
        rfl
      rw [run_loop, hround]
      simp
  | @cons l symbol ls row hmark hrow ih =>
      obtain ⟨t, rest, rfl, rfl, -, htail⟩ := TokenStream.reads_cons_iff.1 hreads
      have hkind : endsSymbols t.kind = false := endsSymbols_of_kind_mem hmark.kind_mem
      have hround : (symbolStep before).run (.token t rest) =
          (.ok (.inl (symbol :: before)), rest) := by
        rw [symbolStep, run_lookahead_bind]
        simp only [TokenStream.lookahead, hkind, ofToken?_of_symbolMark hmark]
        exact run_bind_of_eq (run_consume rfl)
      rw [run_loop, hround]
      simp only
      rw [ih _ htail]
      simp

/-- A row of symbols is read up to a token that ends it, from an empty row collected so far. -/
theorem complete_symbols : Complete symbols Grammar.Symbols fun k => endsSymbols k = true := by
  intro s ls s' row hreads hrow hend
  exact run_symbols hrow hend [] hreads

/-- A replacement of the grammar is read up to a token that ends a row of symbols, such as a bias
or the semicolon. -/
theorem complete_replacement :
    Complete replacement Grammar.Replacement fun k => endsSymbols k = true := by
  intro s ls s' body hreads hbody hend
  cases hbody with
  | absent =>
      obtain rfl := TokenStream.reads_nil_iff.1 hreads
      have hkind : s.lookahead.kind ≠ .assign := by
        intro heq
        simp [heq, endsSymbols] at hend
      exact run_bind_of_eq (run_consumeOptional_of_ne hkind)
  | @present assign ls body hassign hsymbols hbody =>
      obtain ⟨t, rest, rfl, rfl, -, htail⟩ := TokenStream.reads_cons_iff.1 hreads
      refine (run_bind_of_eq (run_consumeOptional hassign)).trans ?_
      refine (run_bind_of_eq (complete_symbols rest ls s' body htail hsymbols hend)).trans ?_
      rw [if_neg (by simpa using hbody)]
      rfl

/-- A color of the grammar is read up to a token that goes on with neither an expression nor the
parts of a color. -/
theorem complete_color :
    Complete color (Grammar.ColorParts Admits) fun k => EndsExpression k ∧ k ≠ .comma := by
  intro s ls s' c hreads hcolor h
  obtain ⟨hend, hcomma'⟩ := h
  cases hcolor with
  | gray value =>
      refine (run_bind_of_eq (complete_expression s ls s' _ hreads value hend)).trans ?_
      exact run_bind_of_eq (run_consumeOptional_of_ne hcomma')
  | @rgb ls ms ns comma comma' r g b red hcomma green hcomma' blue =>
      obtain ⟨s₁, hred, hrest⟩ := TokenStream.reads_append_iff.1 hreads
      obtain ⟨t, s₂, rfl, rfl, -, htail⟩ := TokenStream.reads_cons_iff.1 hrest
      obtain ⟨s₃, hgreen, hlast⟩ := TokenStream.reads_append_iff.1 htail
      obtain ⟨t', s₄, rfl, rfl, -, hblue⟩ := TokenStream.reads_cons_iff.1 hlast
      have hcommaEnds : EndsExpression .comma := ⟨by decide, rfl⟩
      have hkind : t.kind = .comma := hcomma
      have hkind' : t'.kind = .comma := hcomma'
      refine (run_bind_of_eq (complete_expression s ls _ r hred red (hkind ▸ hcommaEnds))).trans ?_
      refine (run_bind_of_eq (run_consumeOptional hkind)).trans ?_
      refine (run_bind_of_eq
        (complete_expression s₂ ms _ g hgreen green (hkind' ▸ hcommaEnds))).trans ?_
      refine (run_bind_of_eq (run_consume hkind')).trans ?_
      exact run_bind_of_eq (complete_expression s₄ ns s' b hblue blue hend)

/-- What comes behind the parts of a declaration does not go on with an
expression. -/
theorem endsExpression_of_mem {k : TokenKind} (h : k ∈ [.semicolon, .comma, .keyword .bias,
    .keyword .width, .keyword .color, .keyword .rad, .keyword .deg]) : EndsExpression k := by
  simp only [List.mem_cons, List.not_mem_nil, or_false] at h
  rcases h with rfl | rfl | rfl | rfl | rfl | rfl | rfl <;> exact ⟨by decide, rfl⟩

/-- An angle with its unit, or without one, is read as a rotation before the semicolon. -/
theorem run_rotation {ms : List Lexeme} {angle : Expr} {unit : AngleUnit}
    (hangle : Admits ls angle) (hunit : Grammar.UnitMark ms unit) (hreads : s.Reads (ls ++ ms) s')
    (hend : s'.lookahead.kind = .semicolon) : rotation.run s = (.ok (.rotate angle unit), s') := by
  obtain ⟨s₁, hleft, hright⟩ := TokenStream.reads_append_iff.1 hreads
  cases hunit with
  | absent =>
      obtain rfl := TokenStream.reads_nil_iff.1 hright
      have hrun := complete_expression s ls s₁ angle hleft hangle
        (endsExpression_of_mem (by simp [hend]))
      refine (run_bind_of_eq hrun).trans ?_
      refine (run_bind_of_eq (run_consumeOptional_of_ne (by simp [hend]))).trans ?_
      exact run_bind_of_eq (run_consumeOptional_of_ne (by simp [hend]))
  | deg hkind =>
      obtain ⟨t, s₂, rfl, rfl, -, htail⟩ := TokenStream.reads_cons_iff.1 hright
      obtain rfl := TokenStream.reads_nil_iff.1 htail
      have hdeg : t.kind = .keyword .deg := hkind
      have hrun := complete_expression s ls _ angle hleft hangle
        (endsExpression_of_mem (by simp [TokenStream.lookahead, hdeg]))
      refine (run_bind_of_eq hrun).trans ?_
      refine (run_bind_of_eq (run_consumeOptional_of_ne
        (by simp [TokenStream.lookahead, hdeg]))).trans ?_
      exact run_bind_of_eq (run_consumeOptional hdeg)
  | rad hkind =>
      obtain ⟨t, s₂, rfl, rfl, -, htail⟩ := TokenStream.reads_cons_iff.1 hright
      obtain rfl := TokenStream.reads_nil_iff.1 htail
      have hrad : t.kind = .keyword .rad := hkind
      have hrun := complete_expression s ls _ angle hleft hangle
        (endsExpression_of_mem (by simp [TokenStream.lookahead, hrad]))
      refine (run_bind_of_eq hrun).trans ?_
      exact run_bind_of_eq (run_consumeOptional hrad)

/-- The clauses for the look of a line are read one after the other before the semicolon, and the
token in front of them is one that no expression goes on with. -/
theorem run_look {β : Type} {f : Option Expr → Option Color → Parser β} {look : StrokeOverride}
    (hlook : Grammar.Look Admits ls look) (hreads : s.Reads ls s')
    (hend : s'.lookahead.kind = .semicolon) :
    s.lookahead.kind ∈ [.semicolon, .keyword .width, .keyword .color] ∧
      (do
        let width ← clause (.keyword .width) expression
        let color ← clause (.keyword .color) color
        f width color).run s = (f look.width look.color).run s' := by
  cases hlook with
  | @mk ls ms width color hwidth hcolor =>
      obtain ⟨s₁, hleft, hright⟩ := TokenStream.reads_append_iff.1 hreads
      have hkind₁ : s₁.lookahead.kind ∈ [.semicolon, .keyword .color] := by
        rcases hcolor.lookahead_kind hright with h | h
        · simp [h]
        · simp [h, hend]
      have hnext : s₁.lookahead.kind ≠ .keyword .width := by
        intro h
        simp [h] at hkind₁
      have hends : EndsExpression s₁.lookahead.kind :=
        endsExpression_of_mem (by
          simp only [List.mem_cons, List.not_mem_nil, or_false] at hkind₁ ⊢
          rcases hkind₁ with h | h <;> simp [h])
      constructor
      · rcases hwidth.lookahead_kind hleft with h | h
        · simp [h]
        · simp only [List.mem_cons, List.not_mem_nil, or_false] at hkind₁ ⊢
          rw [h]
          rcases hkind₁ with h | h <;> simp [h]
      · have hrun₁ := complete_clause complete_expression s ls s₁ width hleft hwidth ⟨hnext, hends⟩
        have hrun₂ := complete_clause complete_color s₁ ms s' color hright hcolor
          ⟨by simp [hend], endsExpression_of_mem (by simp [hend]), by simp [hend]⟩
        refine (run_bind_of_eq hrun₁).trans ?_
        exact run_bind_of_eq hrun₂

/-- One distance and the look of a line are read as a move forward before the semicolon. -/
theorem run_forward {ms : List Lexeme} {distance : Expr} {look : StrokeOverride}
    (hdistance : Admits ls distance) (hlook : Grammar.Look Admits ms look)
    (hreads : s.Reads (ls ++ ms) s') (hend : s'.lookahead.kind = .semicolon) :
    displacement.run s = (.ok (.forward distance look), s') := by
  obtain ⟨s₁, hleft, hright⟩ := TokenStream.reads_append_iff.1 hreads
  obtain ⟨hkind, hrun⟩ := run_look (β := Motion StrokeOverride)
    (f := fun width color => Pure.pure (.forward distance ⟨width, color⟩)) hlook hright hend
  have hends : EndsExpression s₁.lookahead.kind := endsExpression_of_mem (by
    simp only [List.mem_cons, List.not_mem_nil, or_false] at hkind ⊢
    rcases hkind with h | h | h <;> simp [h])
  have hcomma : s₁.lookahead.kind ≠ .comma := by
    intro h
    simp [h] at hkind
  have hnone := complete_clause complete_expression s₁ [] s₁ none (.refl s₁) .absent ⟨hcomma, hends⟩
  refine (run_bind_of_eq (complete_expression s ls s₁ _ hleft hdistance hends)).trans ?_
  refine (run_bind_of_eq hnone).trans ?_
  exact hrun

/-- Two distances and the look of a line are read as a shift before the semicolon; the comma tells
it from a move forward. -/
theorem run_shift {ms ns : List Lexeme} {comma : Lexeme} {dx dy : Expr} {look : StrokeOverride}
    (hdx : Admits ls dx) (hcomma : comma.kind = .comma) (hdy : Admits ms dy)
    (hlook : Grammar.Look Admits ns look) (hreads : s.Reads (ls ++ comma :: (ms ++ ns)) s')
    (hend : s'.lookahead.kind = .semicolon) :
    displacement.run s = (.ok (.shift dx dy look), s') := by
  obtain ⟨s₁, hleft, hrest⟩ := TokenStream.reads_append_iff.1 hreads
  obtain ⟨t, s₂, rfl, rfl, -, htail⟩ := TokenStream.reads_cons_iff.1 hrest
  obtain ⟨s₃, hmiddle, hright⟩ := TokenStream.reads_append_iff.1 htail
  obtain ⟨hkind, hrun⟩ := run_look (β := Motion StrokeOverride)
    (f := fun width color => Pure.pure (.shift dx dy ⟨width, color⟩)) hlook hright hend
  have hends : EndsExpression s₃.lookahead.kind := endsExpression_of_mem (by
    simp only [List.mem_cons, List.not_mem_nil, or_false] at hkind ⊢
    rcases hkind with h | h | h <;> simp [h])
  have hnext : s₃.lookahead.kind ≠ .comma := by
    intro h
    simp [h] at hkind
  have hcomma' : t.kind = .comma := hcomma
  have hcommaEnds : EndsExpression t.kind := endsExpression_of_mem (by simp [hcomma'])
  have hreads' : (TokenStream.token t s₂).Reads (t.lexeme :: ms) s₃ :=
    .token (Lexeme.legible_of_kind (by simp [hcomma])) hmiddle
  have hsome := complete_clause complete_expression _ _ s₃ (some dy) hreads'
    (.present hcomma hdy) ⟨hnext, hends⟩
  refine (run_bind_of_eq (complete_expression s ls _ _ hleft hdx hcommaEnds)).trans ?_
  refine (run_bind_of_eq hsome).trans ?_
  exact hrun

/-- A transform is read to its end, from its name on. Which motion it is is told by the word
behind the name. -/
theorem run_transform {t : Token} {motion : Motion StrokeOverride}
    (hname : t.kind ∈ [.identifier, .plus, .minus])
    (hmotion : Grammar.MotionParts Admits ls motion) (hreads : s.Reads ls s')
    (hend : s'.lookahead.kind = .semicolon) :
    transform.run (.token t s) = (.ok (.transform t.text motion), s') := by
  refine (run_bind_of_eq (run_consumeAny hname)).trans ?_
  cases hmotion with
  | rotate hword hangle hunit =>
      obtain ⟨t', s₁, rfl, rfl, -, htail⟩ := TokenStream.reads_cons_iff.1 hreads
      have hkind : t'.kind = .keyword .rotate := hword
      refine run_lookahead_advance (by simp only [hkind]; rfl) ?_
      exact run_bind_of_eq (run_rotation hangle hunit htail hend)
  | forward hword hdistance hlook =>
      obtain ⟨t', s₁, rfl, rfl, -, htail⟩ := TokenStream.reads_cons_iff.1 hreads
      have hkind : t'.kind = .keyword .translate := hword
      refine run_lookahead_advance (by simp only [hkind]; rfl) ?_
      exact run_bind_of_eq (run_forward hdistance hlook htail hend)
  | shift hword hdx hcomma hdy hlook =>
      obtain ⟨t', s₁, rfl, rfl, -, htail⟩ := TokenStream.reads_cons_iff.1 hreads
      have hkind : t'.kind = .keyword .translate := hword
      refine run_lookahead_advance (by simp only [hkind]; rfl) ?_
      exact run_bind_of_eq (run_shift hdx hcomma hdy hlook htail hend)

/-- A rule is read to its end, from its name on. Both the replacement and the bias may be
absent. -/
theorem run_rule {t : Token} {ms : List Lexeme} {body : List Symbol} {bias : Option Expr}
    (hname : t.kind = .identifier) (hbody : Grammar.Replacement ls body)
    (hbias : Grammar.Clause (.keyword .bias) Admits ms bias) (hreads : s.Reads (ls ++ ms) s')
    (hend : s'.lookahead.kind = .semicolon) :
    rule.run (.token t s) = (.ok (.rule t.text body bias), s') := by
  obtain ⟨s₁, hleft, hright⟩ := TokenStream.reads_append_iff.1 hreads
  have hends : endsSymbols s₁.lookahead.kind = true := by
    rcases hbias.lookahead_kind hright with h | h
    · simp [h, endsSymbols]
    · simp [h, hend, endsSymbols]
  have hfollow : s'.lookahead.kind ≠ .keyword .bias ∧ EndsExpression s'.lookahead.kind :=
    ⟨by simp [hend], endsExpression_of_mem (by simp [hend])⟩
  refine (run_bind_of_eq (run_name hname s)).trans ?_
  refine (run_bind_of_eq (complete_replacement s ls s₁ body hleft hbody hends)).trans ?_
  exact run_bind_of_eq (complete_clause complete_expression s₁ ms s' bias hright hbias hfollow)

/-- What the word of a declaration opens is read to the semicolon. There is one case for each kind
of declaration in the grammar. -/
theorem run_declarationOf {d : Declaration} (hd : Grammar.Declares Admits ls d)
    (hreads : s.Reads ls s') (hend : s'.lookahead.kind = .semicolon) :
    ∃ t rest word content, s = .token t rest ∧ t.kind = .keyword word ∧
      declarationOf word = some content ∧ content.run rest = (.ok d, s') := by
  have hends : EndsExpression s'.lookahead.kind := endsExpression_of_mem (by simp [hend])
  cases hd with
  | var hword hname hassign hvalue =>
      obtain ⟨t, rest, rfl, rfl, -, htail⟩ := TokenStream.reads_cons_iff.1 hreads
      obtain ⟨t₁, s₁, rfl, rfl, -, htail₁⟩ := TokenStream.reads_cons_iff.1 htail
      obtain ⟨t₂, s₂, rfl, rfl, -, htail₂⟩ := TokenStream.reads_cons_iff.1 htail₁
      refine ⟨t, _, .var, _, rfl, hword, rfl, ?_⟩
      refine (run_bind_of_eq (run_name hname _)).trans ?_
      refine (run_bind_of_eq (run_consume hassign)).trans ?_
      exact run_bind_of_eq (complete_expression s₂ _ s' _ htail₂ hvalue hends)
  | rule hword hname hbody hbias =>
      obtain ⟨t, rest, rfl, rfl, -, htail⟩ := TokenStream.reads_cons_iff.1 hreads
      obtain ⟨t₁, s₁, rfl, rfl, -, htail₁⟩ := TokenStream.reads_cons_iff.1 htail
      exact ⟨t, _, .rule, _, rfl, hword, rfl, run_rule hname hbody hbias htail₁ hend⟩
  | start hword hsymbols =>
      obtain ⟨t, rest, rfl, rfl, -, htail⟩ := TokenStream.reads_cons_iff.1 hreads
      refine ⟨t, rest, .start, _, rfl, hword, rfl, ?_⟩
      have hrow := complete_symbols rest _ s' _ htail hsymbols (by simp [hend, endsSymbols])
      exact run_bind_of_eq hrow
  | length hword hvalue =>
      obtain ⟨t, rest, rfl, rfl, -, htail⟩ := TokenStream.reads_cons_iff.1 hreads
      refine ⟨t, rest, .length, _, rfl, hword, rfl, ?_⟩
      exact run_bind_of_eq (complete_expression rest _ s' _ htail hvalue hends)
  | width hword hvalue =>
      obtain ⟨t, rest, rfl, rfl, -, htail⟩ := TokenStream.reads_cons_iff.1 hreads
      refine ⟨t, rest, .width, _, rfl, hword, rfl, ?_⟩
      exact run_bind_of_eq (complete_expression rest _ s' _ htail hvalue hends)
  | color hword hvalue =>
      obtain ⟨t, rest, rfl, rfl, -, htail⟩ := TokenStream.reads_cons_iff.1 hreads
      refine ⟨t, rest, .color, _, rfl, hword, rfl, ?_⟩
      have hcolor := complete_color rest _ s' _ htail hvalue ⟨hends, by simp [hend]⟩
      exact run_bind_of_eq hcolor
  | iterate hword hvalue =>
      obtain ⟨t, rest, rfl, rfl, -, htail⟩ := TokenStream.reads_cons_iff.1 hreads
      refine ⟨t, rest, .iterate, _, rfl, hword, rfl, ?_⟩
      exact run_bind_of_eq (complete_expression rest _ s' _ htail hvalue hends)
  | transform hword hname hmotion =>
      obtain ⟨t, rest, rfl, rfl, -, htail⟩ := TokenStream.reads_cons_iff.1 hreads
      obtain ⟨t₁, s₁, rfl, rfl, -, htail₁⟩ := TokenStream.reads_cons_iff.1 htail
      exact ⟨t, _, .transform, _, rfl, hword, rfl, run_transform hname hmotion htail₁ hend⟩

/-- A declaration of the grammar with its semicolon is read whatever follows, since the semicolon
closes it. -/
theorem complete_declaration : Complete declaration Closed fun _ => True := by
  intro s _ s' d hreads h _
  obtain ⟨ms, semicolon, rfl, hsemicolon, hd⟩ := h
  obtain ⟨s₁, hleft, hright⟩ := TokenStream.reads_append_iff.1 hreads
  obtain ⟨t', s₂, rfl, rfl, -, hlast⟩ := TokenStream.reads_cons_iff.1 hright
  obtain rfl := TokenStream.reads_nil_iff.1 hlast
  obtain ⟨t, rest, word, content, rfl, hkind, hword, hrun⟩ :=
    run_declarationOf hd hleft hsemicolon
  have hopened : declarationOpenedBy t.kind = some content := by
    rw [hkind]
    exact hword
  refine run_lookahead_advance (by simp only [hopened]; rfl) ?_
  refine (run_bind_of_eq hrun).trans ?_
  exact run_bind_of_eq (run_consume hsemicolon)

/-- Declarations are read to the end of the text, behind the ones that were
there before. -/
theorem run_program {p : Program} (hp : Grammar.Declarations Admits ls p) (before : Program)
    (hreads : s.Reads ls s') (hend : s'.lookahead.kind = .finish) :
    (loop programStep advances_programStep before).run s = (.ok (before.reverse ++ p), s') := by
  induction hp generalizing s before with
  | nil =>
      obtain rfl := TokenStream.reads_nil_iff.1 hreads
      have hround : (programStep before).run s = (.ok (.inr before.reverse), s) := by
        rw [programStep, run_lookahead_bind, if_pos hend]
        rfl
      rw [run_loop, hround]
      simp
  | @cons ls ms semicolon d ds first hsemicolon rest ih =>
      obtain ⟨s₁, hleft, hright⟩ := TokenStream.reads_append_iff.1 hreads
      obtain ⟨t', s₂, rfl, rfl, -, htail⟩ := TokenStream.reads_cons_iff.1 hright
      have hclosed : Closed (ls ++ [t'.lexeme]) d := ⟨ls, _, rfl, hsemicolon, first⟩
      have hlegible : t'.lexeme.Legible := Lexeme.legible_of_kind (by simp [hsemicolon])
      have hdeclaration := complete_declaration s _ s₂ d
        (hleft.append (.token hlegible (.refl s₂))) hclosed trivial
      have hkind : s.lookahead.kind ≠ .finish := by
        obtain ⟨t, rest, word, _, rfl, hkind, -, -⟩ := run_declarationOf first hleft hsemicolon
        simp [TokenStream.lookahead, hkind]
      have hround : (programStep before).run s = (.ok (.inl (d :: before)), s₂) := by
        rw [programStep, run_lookahead_bind, if_neg hkind]
        exact run_bind_of_eq hdeclaration
      rw [run_loop, hround]
      simp only
      rw [ih _ htail]
      simp

/-- A program of the grammar is read up to the end of the text, whose token is no keyword that
opens a declaration. -/
theorem complete_program :
    Complete program (Grammar.Declarations Admits) fun k => k = .finish := by
  intro s ls s' p hreads hp hend
  exact run_program hp [] hreads hend

end Parts

end LSystem.Syntax
