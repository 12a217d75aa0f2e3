import LSystem.Proofs.Syntax.Spelling
import LSystem.Syntax.Printer

/-!
# Printed trees read back

The text of a well-formed tree is cut into lexemes from which the grammar
derives the tree.  Every printed part is followed by a boundary, a blank or a
mark, so that no word and no numeral runs into what comes after it.

With the well-formedness of the trees that are read, this makes printing and
reading inverse to one another: the well-formed programs are exactly those that
are read from some text, and their own text is one.
-/

namespace LSystem.Syntax

open LSystem.Syntax.Parser

section Printing

variable {rest : List Char} {ls : List Lexeme} {c : Char} {kind : TokenKind}

/-- The lexeme of a mark. -/
def Lexeme.ofMark (kind : TokenKind) (c : Char) : Lexeme := ⟨kind, String.ofList [c]⟩

theorem Lexeme.kind_ofMark (kind : TokenKind) (c : Char) : (Lexeme.ofMark kind c).kind = kind := rfl

theorem Lexeme.kind_mk (kind : TokenKind) (text : String) : (Lexeme.mk kind text).kind = kind := rfl

/-! ### Expressions -/

/-- A mark in front of a text adds its lexeme, unless it is a slash, which may begin a comment
with what follows. -/
theorem Lexes.mark_of_ne (hmark : TokenKind.ofMark? c = some kind) (hc : c ≠ '/')
    (h : Lexes rest ls) : Lexes (c :: rest) (.ofMark kind c :: ls) :=
  h.mark hmark fun heq => absurd heq hc

/-- A blank and the marks that stand behind printed parts are boundaries: neither a word nor a
numeral goes on with them. -/
theorem boundary_of_mem (hc : c ∈ [' ', '(', ')', ',', ';']) : Boundary (c :: rest) := by
  simp only [List.mem_cons, List.not_mem_nil, or_false] at hc
  rcases hc with rfl | rfl | rfl | rfl | rfl <;> exact boundary_cons (by decide) (by decide)

theorem boundary_space : Boundary (' ' :: rest) := boundary_of_mem (by decide)

theorem Lexes.space (h : Lexes rest ls) : Lexes (' ' :: rest) ls := h.blank rfl

/-- A reserved word with a space behind it is one lexeme. -/
theorem Lexes.keyword_space (k : Keyword) (h : Lexes rest ls) :
    Lexes (k.text.toList ++ ' ' :: rest) (⟨.keyword k, k.text⟩ :: ls) :=
  h.space.keyword k boundary_space

/-- A comma and a blank, as they stand between printed arguments, add one lexeme. -/
theorem Lexes.comma_space (h : Lexes rest ls) :
    Lexes (',' :: ' ' :: rest) (.ofMark .comma ',' :: ls) :=
  h.space.mark_of_ne rfl (by decide)

/-- What a part of a tree is printed as: in front of a boundary it is cut into
lexemes of the given form. -/
def Prints (text : String) (G : List Lexeme → Prop) : Prop :=
  ∀ (rest : List Char) (ls : List Lexeme), Boundary rest → Lexes rest ls →
    ∃ ms, G ms ∧ Lexes (text.toList ++ rest) (ms ++ ls)

/-- A part that is printed in one form is printed in every form that follows from it. -/
theorem Prints.mono {text : String} {G H : List Lexeme → Prop} (h : Prints text G)
    (hGH : ∀ ms, G ms → H ms) : Prints text H := by
  intro rest ls hrest hls
  obtain ⟨ms, hG, hlexes⟩ := h rest ls hrest hls
  exact ⟨ms, hGH ms hG, hlexes⟩

/-- A finite number without a sign is printed as a numeral, and the numeral reads back as this
number. -/
theorem prints_num {value : Float} (hfinite : value.isFinite)
    (hsign : Number.isNegative value = false) :
    Prints (Number.plain.write value) fun ms => Grammar.Operand ms (.num value) := by
  intro rest ls hrest hls
  have hback := Number.readNumeral_write hfinite hsign
  have hlegible : Lexeme.Legible
      ⟨.number, String.ofList (Number.plain.write value).toList⟩ := by
    intro _
    rw [String.ofList_toList, hback]
    exact hfinite
  have hlexes := hls.numeral (Number.isNumeral_write hfinite hsign) hlegible hrest
  have hderived := Grammar.Operand.number (l := ⟨.number, Number.plain.write value⟩) rfl
  simp only [hback] at hderived
  rw [String.ofList_toList] at hlexes
  exact ⟨_, hderived, hlexes⟩

/-- An operator with a blank behind it adds one lexeme of its kind; because of the blank a slash
begins no comment. -/
theorem prints_operator (op : Operator) (hls : Lexes rest ls) :
    ∃ mark : Lexeme, mark.kind = op.kind ∧
      Lexes (op.text.toList ++ ' ' :: rest) (mark :: ls) := by
  have hblank : Lexes (' ' :: rest) ls := hls.blank rfl
  cases op with
  | add => exact ⟨_, rfl, hblank.mark_of_ne (c := '+') rfl (by decide)⟩
  | sub => exact ⟨_, rfl, hblank.mark_of_ne (c := '-') rfl (by decide)⟩
  | mul => exact ⟨_, rfl, hblank.mark_of_ne (c := '*') rfl (by decide)⟩
  | div => exact ⟨_, rfl, hblank.mark (c := '/') rfl (by simp)⟩

/-- Arguments are printed as a row. The induction is on the arguments, with a comma and a blank
between any two. -/
theorem prints_row {Item : List Lexeme → Expr → Prop} {args : List Expr} (hne : args ≠ [])
    (hargs : ∀ e ∈ args, Prints e.text fun ms => Item ms e) :
    Prints (Expr.argsText args) fun ms => Grammar.Row Item ms args := by
  induction args with
  | nil => exact absurd rfl hne
  | cons e es ih =>
      rw [List.forall_mem_cons] at hargs
      cases es with
      | nil => exact hargs.1.mono fun _ hitem => .last hitem
      | cons e' es =>
          intro rest ls hrest hls
          obtain ⟨ms, hrow, hlexes⟩ := ih (by simp) hargs.2 rest ls hrest hls
          have hcomma := hlexes.comma_space
          obtain ⟨ns, hitem, hlexes'⟩ :=
            hargs.1 _ _ (boundary_of_mem (by decide)) hcomma
          refine ⟨_, .more hitem (Lexeme.kind_ofMark .comma ',') hrow, ?_⟩
          simpa [Expr.argsText] using hlexes'

/-- A call is printed as its name and its arguments between parentheses, if each of the arguments
is printed as a chain. -/
theorem prints_call {name : String} {args : List Expr} (hname : IsName name)
    (hargs : ∀ e ∈ args, Prints e.text fun ms => Grammar.Chain Grammar.Operand 0 ms e) :
    Prints (Expr.call name args).text fun ms => Grammar.Operand ms (.call name args) := by
  intro rest ls hrest hls
  have hclosing := hls.mark_of_ne (c := ')') rfl (by decide)
  rw [Expr.text]
  cases args with
  | nil =>
      have hopening := hclosing.mark_of_ne (c := '(') rfl (by decide)
      have hlexes := Lexes.name hname (boundary_of_mem (by decide)) hopening
      refine ⟨_, .callEmpty (Lexeme.kind_mk .identifier name) (Lexeme.kind_ofMark .leftParen '(')
        (Lexeme.kind_ofMark .rightParen ')'), ?_⟩
      simpa [Expr.argsText] using hlexes
  | cons e es =>
      obtain ⟨ms, hrow, hlexes⟩ :=
        prints_row (by simp) hargs _ _ (boundary_of_mem (by decide)) hclosing
      have hopening := hlexes.mark_of_ne (c := '(') rfl (by decide)
      have hlexes' := Lexes.name hname (boundary_of_mem (by decide)) hopening
      refine ⟨_, .call (Lexeme.kind_mk .identifier name) (Lexeme.kind_ofMark .leftParen '(') hrow
        (Lexeme.kind_ofMark .rightParen ')'), ?_⟩
      simpa using hlexes'

/-- **Printed expressions** are derived to what was printed, as chains at their own level. The
induction is on the tree, and well-formedness is what keeps operators apart without
parentheses. -/
theorem Expr.prints {e : Expr} (hwf : e.WellFormed) :
    Prints e.text fun ms => Grammar.Chain Grammar.Operand e.level ms e := by
  induction e using Expr.inductionOn with
  | num value =>
      rw [Expr.WellFormed] at hwf
      rw [Expr.text]
      exact (prints_num hwf.1 hwf.2).mono fun _ h => .operand h
  | ident name =>
      rw [Expr.WellFormed] at hwf
      intro rest ls hrest hls
      rw [Expr.text]
      exact ⟨_, .operand (.ident (l := ⟨.identifier, name⟩) rfl), Lexes.name hwf hrest hls⟩
  | call name args ih =>
      rw [Expr.WellFormed, Expr.allWellFormed_iff] at hwf
      have hargs : ∀ e ∈ args, Prints e.text fun ms => Grammar.Chain Grammar.Operand 0 ms e :=
        fun e he => (ih e he (hwf.2 e he)).mono fun _ h => h.mono (Nat.zero_le _)
      exact (prints_call hwf.1 hargs).mono fun _ h => .operand h
  | group inner ih =>
      rw [Expr.WellFormed] at hwf
      intro rest ls hrest hls
      have hclosing := hls.mark_of_ne (c := ')') rfl (by decide)
      obtain ⟨ms, hinner, hlexes⟩ := ih hwf _ _ (boundary_of_mem (by decide)) hclosing
      have hopening := hlexes.mark_of_ne (c := '(') rfl (by decide)
      refine ⟨_, .operand (.group (Lexeme.kind_ofMark .leftParen '(')
        (hinner.mono (Nat.zero_le _)) (Lexeme.kind_ofMark .rightParen ')')), ?_⟩
      rw [Expr.text]
      simpa using hopening
  | binary op left right ihl ihr =>
      rw [Expr.WellFormed] at hwf
      intro rest ls hrest hls
      obtain ⟨ms, hright, hlexes⟩ := ihr hwf.2.1 rest ls hrest hls
      obtain ⟨mark, hmark, hlexes'⟩ := prints_operator op hlexes
      obtain ⟨ns, hleft, hlexes''⟩ :=
        ihl hwf.1.1 _ _ boundary_space hlexes'.space
      refine ⟨_, .binary (Nat.le_refl _) (hleft.mono hwf.1.2) hmark (hright.mono hwf.2.2), ?_⟩
      rw [Expr.text]
      simpa using hlexes''
  | neg inner ih =>
      rw [Expr.WellFormed] at hwf
      intro rest ls hrest hls
      obtain ⟨ms, hinner, hlexes⟩ := ih hwf.1 rest ls hrest hls
      rw [hwf.2] at hinner
      have hminus := hlexes.mark_of_ne (c := '-') rfl (by decide)
      refine ⟨_, .operand (.neg (Lexeme.kind_ofMark .minus '-') hinner.operand_of_two), ?_⟩
      rw [Expr.text]
      simpa using hminus

/-! ### Symbols, colors and looks -/

/-- A well-formed expression that is not too high is printed as an expression that the parser
admits. -/
theorem prints_expression {e : Expr} (h : e.WellFormed ∧ e.height ≤ maxNesting) :
    Prints e.text fun ms => Admits ms e :=
  (Expr.prints h.1).mono fun _ hchain => ⟨hchain.mono (Nat.zero_le _), h.2⟩

/-- The name of a symbol is printed as a single lexeme, an identifier or one of two marks. -/
theorem prints_mark {name : String} (h : IsMark name) :
    Prints name fun ms =>
      ∃ l : Lexeme, ms = [l] ∧ l.text = name ∧ l.kind ∈ [.identifier, .plus, .minus] := by
  intro rest ls hrest hls
  rcases h with hname | rfl | rfl
  · exact ⟨_, ⟨⟨.identifier, name⟩, rfl, rfl, by simp⟩, Lexes.name hname hrest hls⟩
  · exact ⟨_, ⟨.ofMark .plus '+', rfl, rfl, by decide⟩, hls.mark_of_ne (c := '+') rfl (by decide)⟩
  · exact ⟨_, ⟨.ofMark .minus '-', rfl, rfl, by decide⟩,
      hls.mark_of_ne (c := '-') rfl (by decide)⟩

/-- A well-formed symbol is printed as a row of one symbol. A bracket is a mark, and a name is
read as it is written. -/
theorem prints_symbol {s : Symbol} (h : s.WellFormed) :
    Prints s.text fun ms => Grammar.Symbols ms [s] := by
  intro rest ls hrest hls
  cases s with
  | named name =>
      obtain ⟨_, ⟨l, rfl, rfl, hkind⟩, hlexes⟩ := prints_mark h rest ls hrest hls
      exact ⟨_, .cons (.named hkind) .nil, hlexes⟩
  | push =>
      have hmark : Grammar.SymbolMark (.ofMark .leftBracket '[') .push := .push rfl
      exact ⟨_, .cons hmark .nil, hls.mark_of_ne (c := '[') rfl (by decide)⟩
  | pop =>
      have hmark : Grammar.SymbolMark (.ofMark .rightBracket ']') .pop := .pop rfl
      exact ⟨_, .cons hmark .nil, hls.mark_of_ne (c := ']') rfl (by decide)⟩

/-- A row of well-formed symbols is printed as this row, by induction on it, with a blank between
any two. -/
theorem prints_symbols {row : List Symbol} (h : ∀ s ∈ row, s.WellFormed) :
    Prints (symbolsText row) fun ms => Grammar.Symbols ms row := by
  induction row with
  | nil => exact fun rest ls _ hls => ⟨[], .nil, hls⟩
  | cons s row ih =>
      rw [List.forall_mem_cons] at h
      cases row with
      | nil =>
          rw [symbolsText, List.map_singleton, String.intercalate_singleton]
          exact prints_symbol h.1
      | cons s' row =>
          intro rest ls hrest hls
          obtain ⟨ms, hrow, hlexes⟩ := ih h.2 rest ls hrest hls
          obtain ⟨ns, hsymbol, hlexes'⟩ := prints_symbol h.1 _ _
            boundary_space hlexes.space
          refine ⟨ns ++ ms, List.rel_append hsymbol hrow, ?_⟩
          rw [symbolsText, List.map_cons, List.map_cons, String.intercalate_cons_cons]
          simpa [symbolsText] using hlexes'

/-- A color whose parts are the same is printed as one of them. Otherwise all three are printed,
with commas between them. -/
theorem prints_color {c : Color} (h : ∀ e ∈ c.expressions, e.WellFormed ∧ e.height ≤ maxNesting) :
    Prints c.text fun ms => Grammar.ColorParts Admits ms c := by
  obtain ⟨r, g, b⟩ := c
  simp only [Color.expressions, List.mem_cons, List.not_mem_nil, or_false, forall_eq_or_imp,
    forall_eq] at h
  obtain ⟨hr, hg, hb⟩ := h
  unfold Color.text
  split
  · rename_i hsame
    rw [Bool.and_eq_true] at hsame
    obtain rfl := Expr.eq_of_same hr.1 hg.1 hsame.1
    obtain rfl := Expr.eq_of_same hr.1 hb.1 hsame.2
    exact (prints_expression hr).mono fun _ h => .gray h
  · intro rest ls hrest hls
    obtain ⟨ms, hblue, hlexes⟩ := prints_expression hb rest ls hrest hls
    obtain ⟨ns, hgreen, hlexes'⟩ := prints_expression hg _ _ (boundary_of_mem (by decide))
      hlexes.comma_space
    obtain ⟨ps, hred, hlexes''⟩ := prints_expression hr _ _ (boundary_of_mem (by decide))
      hlexes'.comma_space
    refine ⟨_, .rgb hred (Lexeme.kind_ofMark .comma ',') hgreen (Lexeme.kind_ofMark .comma ',')
      hblue, ?_⟩
    simpa using hlexes''

/-- A clause is printed with blanks around its word, or not at all. Without the clause the
boundary is the one behind it. -/
theorem prints_clause {α : Type} {k : Keyword} {text : α → String} {G : List Lexeme → α → Prop}
    {o : Option α} (h : ∀ a ∈ o, Prints (text a) fun ms => G ms a) (hrest : Boundary rest)
    (hls : Lexes rest ls) :
    ∃ ms, Grammar.Clause (.keyword k) G ms o ∧
      Boundary ((o.elim "" fun a => " " ++ k.text ++ " " ++ text a).toList ++ rest) ∧
      Lexes ((o.elim "" fun a => " " ++ k.text ++ " " ++ text a).toList ++ rest) (ms ++ ls) := by
  cases o with
  | none => exact ⟨[], .absent, hrest, hls⟩
  | some a =>
      obtain ⟨ms, hcontent, hlexes⟩ := h a rfl rest ls hrest hls
      have hword := hlexes.keyword_space k
      have hblank := hword.space
      have htext : ((some a).elim "" fun a => " " ++ k.text ++ " " ++ text a).toList ++ rest =
          ' ' :: (k.text.toList ++ ' ' :: ((text a).toList ++ rest)) := by simp
      rw [htext]
      exact ⟨_, .present (Lexeme.kind_mk (.keyword k) k.text) hcontent,
        boundary_space, hblank⟩

/-- The look of a line is printed clause by clause, each with its keyword and with a blank before
it, or not at all. -/
theorem StrokeOverride.text_eq (look : StrokeOverride) :
    look.text = (look.width.elim "" fun e => " " ++ Keyword.width.text ++ " " ++ e.text) ++
      (look.color.elim "" fun c => " " ++ Keyword.color.text ++ " " ++ c.text) := by
  obtain ⟨width, color⟩ := look
  cases width <;> cases color <;> rfl

/-- The look of a line is printed as its clauses, which a boundary goes before. Each of the two
clauses may be absent. -/
theorem prints_look {look : StrokeOverride}
    (h : ∀ e ∈ look.expressions, e.WellFormed ∧ e.height ≤ maxNesting) (hrest : Boundary rest)
    (hls : Lexes rest ls) :
    ∃ ms, Grammar.Look Admits ms look ∧ Boundary (look.text.toList ++ rest) ∧
      Lexes (look.text.toList ++ rest) (ms ++ ls) := by
  have hcolor : ∀ c ∈ look.color, Prints c.text fun ms => Grammar.ColorParts Admits ms c := by
    intro c hc
    refine prints_color fun e he => h e ?_
    simp only [StrokeOverride.expressions, List.mem_append, List.mem_flatMap, Option.mem_toList]
    exact .inr ⟨c, hc, he⟩
  have hwidth : ∀ e ∈ look.width, Prints e.text fun ms => Admits ms e := by
    intro e he
    refine prints_expression (h e ?_)
    simp only [StrokeOverride.expressions, List.mem_append, Option.mem_toList]
    exact .inl he
  obtain ⟨ms, hcolorClause, hboundary, hlexes⟩ := prints_clause (k := .color) hcolor hrest hls
  obtain ⟨ns, hwidthClause, hboundary', hlexes'⟩ :=
    prints_clause (k := .width) hwidth hboundary hlexes
  rw [StrokeOverride.text_eq, String.toList_append, List.append_assoc]
  refine ⟨ns ++ ms, .mk hwidthClause hcolorClause, hboundary', ?_⟩
  rw [List.append_assoc]
  exact hlexes'

/-! ### Declarations -/

theorem prints_unit (unit : AngleUnit) :
    Prints unit.text fun ms => Grammar.UnitMark ms unit := by
  intro rest ls hrest hls
  cases unit with
  | deg => exact ⟨_, .deg (l := ⟨.keyword .deg, "deg"⟩) rfl, hls.keyword .deg hrest⟩
  | rad => exact ⟨_, .rad (l := ⟨.keyword .rad, "rad"⟩) rfl, hls.keyword .rad hrest⟩

/-- A motion is printed as the grammar has it if all its expressions are well-formed and not too
high. -/
theorem prints_motion {motion : Motion StrokeOverride}
    (h : ∀ e ∈ motion.expressions, e.WellFormed ∧ e.height ≤ maxNesting) :
    Prints motion.text fun ms => Grammar.MotionParts Admits ms motion := by
  intro rest ls hrest hls
  cases motion with
  | rotate angle unit =>
      obtain ⟨ms, hunit, hlexes⟩ := prints_unit unit rest ls hrest hls
      obtain ⟨ns, hangle, hlexes'⟩ := prints_expression (h angle (by simp [Motion.expressions]))
        _ _ boundary_space hlexes.space
      have hword := hlexes'.keyword_space .rotate
      refine ⟨_, .rotate (Lexeme.kind_mk (.keyword .rotate) "rotate") hangle hunit, ?_⟩
      simpa [Motion.text, Keyword.text] using hword
  | forward distance look =>
      rw [Motion.expressions, List.forall_mem_cons] at h
      obtain ⟨ms, hlook, hboundary, hlexes⟩ := prints_look h.2 hrest hls
      obtain ⟨ns, hdistance, hlexes'⟩ := prints_expression h.1 _ _ hboundary hlexes
      have hword := hlexes'.keyword_space .translate
      refine ⟨_, .forward (Lexeme.kind_mk (.keyword .translate) "translate") hdistance hlook, ?_⟩
      simpa [Motion.text, Keyword.text] using hword
  | shift dx dy look =>
      rw [Motion.expressions, List.forall_mem_cons, List.forall_mem_cons] at h
      obtain ⟨ms, hlook, hboundary, hlexes⟩ := prints_look h.2.2 hrest hls
      obtain ⟨ns, hdy, hlexes'⟩ := prints_expression h.2.1 _ _ hboundary hlexes
      obtain ⟨ps, hdx, hlexes''⟩ := prints_expression h.1 _ _ (boundary_of_mem (by decide))
        hlexes'.comma_space
      have hword := hlexes''.keyword_space .translate
      refine ⟨_, .shift (Lexeme.kind_mk (.keyword .translate) "translate") hdx
        (Lexeme.kind_ofMark .comma ',') hdy hlook, ?_⟩
      simpa [Motion.text, Keyword.text] using hword

/-- The text of a replacement, which has its own sign in front of it. Without symbols nothing is
printed, since an empty replacement behind the sign could not be read. -/
theorem prints_replacement {body : List Symbol} (h : ∀ s ∈ body, s.WellFormed)
    (hrest : Boundary rest) (hls : Lexes rest ls) :
    ∃ ms, Grammar.Replacement ms body ∧
      Boundary ((if body.isEmpty then "" else " = " ++ symbolsText body).toList ++ rest) ∧
      Lexes ((if body.isEmpty then "" else " = " ++ symbolsText body).toList ++ rest)
        (ms ++ ls) := by
  cases body with
  | nil => exact ⟨[], .absent, hrest, hls⟩
  | cons s body =>
      obtain ⟨ms, hsymbols, hlexes⟩ := prints_symbols h rest ls hrest hls
      have hassign := hlexes.space.mark_of_ne (c := '=') rfl (by decide)
      have htext : (if (s :: body).isEmpty then "" else " = " ++ symbolsText (s :: body)).toList ++
          rest = ' ' :: '=' :: ' ' :: ((symbolsText (s :: body)).toList ++ rest) := by simp
      rw [htext]
      exact ⟨_, .present (Lexeme.kind_ofMark .assign '=') hsymbols (by simp),
        boundary_space, hassign.space⟩

/-- A declaration of one expression is printed behind its word. The blank between the two keeps
the word from running on. -/
theorem prints_opened {k : Keyword} {text : String} {G : List Lexeme → Prop} (h : Prints text G)
    (hrest : Boundary rest) (hls : Lexes rest ls) :
    ∃ ms, G ms ∧ Lexes (k.text.toList ++ ' ' :: (text.toList ++ rest))
      (⟨.keyword k, k.text⟩ :: (ms ++ ls)) := by
  obtain ⟨ms, hG, hlexes⟩ := h rest ls hrest hls
  exact ⟨ms, hG, hlexes.keyword_space k⟩

/-- **Printed declarations** are derived to what was printed, up to the semicolon behind them.
There is one case for each kind of declaration, put together from its parts. -/
theorem Declaration.prints {d : Declaration} (hnamed : d.Named)
    (h : ∀ e ∈ d.expressions, e.WellFormed ∧ e.height ≤ maxNesting) (hls : Lexes rest ls) :
    ∃ ms, Grammar.Declares Admits ms d ∧
      Lexes (d.text.toList ++ rest) (ms ++ .ofMark .semicolon ';' :: ls) := by
  have hend : Lexes (';' :: rest) (.ofMark .semicolon ';' :: ls) := hls.mark_of_ne rfl (by decide)
  have hboundary : Boundary (';' :: rest) := boundary_of_mem (by decide)
  cases d with
  | var name value =>
      obtain ⟨ms, hvalue, hlexes⟩ :=
        prints_expression (h value (by simp [Declaration.expressions])) _ _ hboundary hend
      have hassign := hlexes.space.mark_of_ne (c := '=') rfl (by decide)
      have hname := Lexes.name hnamed boundary_space hassign.space
      have hword := hname.keyword_space .var
      refine ⟨_, .var (Lexeme.kind_mk (.keyword .var) "var") (Lexeme.kind_mk .identifier name)
        (Lexeme.kind_ofMark .assign '=') hvalue, ?_⟩
      simpa [Declaration.text, Keyword.text] using hword
  | rule name body bias =>
      have hbiasPrints : ∀ e ∈ bias, Prints e.text fun ms => Admits ms e :=
        fun e he => prints_expression (h e (by simpa [Declaration.expressions] using he))
      obtain ⟨ms, hbias, hboundary', hlexes⟩ :=
        prints_clause (k := .bias) hbiasPrints hboundary hend
      obtain ⟨ns, hbody, hboundary'', hlexes'⟩ := prints_replacement hnamed.2 hboundary' hlexes
      have hname := Lexes.name hnamed.1 hboundary'' hlexes'
      have hword := hname.keyword_space .rule
      refine ⟨_, .rule (Lexeme.kind_mk (.keyword .rule) "rule") (Lexeme.kind_mk .identifier name)
        hbody hbias, ?_⟩
      cases bias <;> simpa [Declaration.text, Keyword.text] using hword
  | start symbols =>
      obtain ⟨ms, hsymbols, hlexes⟩ :=
        prints_opened (k := .start) (prints_symbols hnamed) hboundary hend
      refine ⟨_, .start (Lexeme.kind_mk (.keyword .start) "axiom") hsymbols, ?_⟩
      simpa [Declaration.text, Keyword.text] using hlexes
  | length value =>
      obtain ⟨ms, hvalue, hlexes⟩ := prints_opened (k := .length)
        (prints_expression (h value (by simp [Declaration.expressions]))) hboundary hend
      refine ⟨_, .length (Lexeme.kind_mk (.keyword .length) "length") hvalue, ?_⟩
      simpa [Declaration.text, Keyword.text] using hlexes
  | width value =>
      obtain ⟨ms, hvalue, hlexes⟩ := prints_opened (k := .width)
        (prints_expression (h value (by simp [Declaration.expressions]))) hboundary hend
      refine ⟨_, .width (Lexeme.kind_mk (.keyword .width) "width") hvalue, ?_⟩
      simpa [Declaration.text, Keyword.text] using hlexes
  | color value =>
      obtain ⟨ms, hvalue, hlexes⟩ := prints_opened (k := .color) (prints_color h) hboundary hend
      refine ⟨_, .color (Lexeme.kind_mk (.keyword .color) "color") hvalue, ?_⟩
      simpa [Declaration.text, Keyword.text] using hlexes
  | iterate value =>
      obtain ⟨ms, hvalue, hlexes⟩ := prints_opened (k := .iterate)
        (prints_expression (h value (by simp [Declaration.expressions]))) hboundary hend
      refine ⟨_, .iterate (Lexeme.kind_mk (.keyword .iterate) "iterate") hvalue, ?_⟩
      simpa [Declaration.text, Keyword.text] using hlexes
  | transform name motion =>
      obtain ⟨ms, hmotion, hlexes⟩ := prints_motion h _ _ hboundary hend
      obtain ⟨_, ⟨l, rfl, rfl, hkind⟩, hlexes'⟩ := prints_mark hnamed _ _
        boundary_space hlexes.space
      have hword := hlexes'.keyword_space .transform
      refine ⟨_, .transform (Lexeme.kind_mk (.keyword .transform) "transform") hkind hmotion, ?_⟩
      simpa [Declaration.text, Keyword.text] using hword

/-! ### Programs -/

/-- The text of a program is derived to the program. The induction is on the declarations, each of
which ends with its semicolon and a line end. -/
theorem Program.prints {p : Program} (hp : p.WellFormed) :
    ∃ ls, Lexes (programText p).toList ls ∧ Grammar.Declarations Admits ls p := by
  induction p with
  | nil => exact ⟨[], lexes_nil, .nil⟩
  | cons d p ih =>
      obtain ⟨hnamed, hnamedRest⟩ := List.forall_mem_cons.1 hp.named
      obtain ⟨hall, hallRest⟩ := List.forall_mem_cons.1 hp.expressions
      obtain ⟨ls, hlexes, hderived⟩ := ih ⟨hnamedRest, hallRest⟩
      obtain ⟨ms, hd, hlexes'⟩ := Declaration.prints hnamed hall (hlexes.blank (c := '\n') rfl)
      refine ⟨_, ?_, .cons hd (Lexeme.kind_ofMark .semicolon ';') hderived⟩
      rw [programText]
      simpa using hlexes'

/-- A text whose lexemes are derived to a program is read as that program. -/
theorem parseProgram_of_lexes {source : String} {ls : List Lexeme} {p : Program}
    (hlexes : Lexes source.toList ls) (hderived : Grammar.Declarations Admits ls p) :
    parseProgram source = .ok p := by
  obtain ⟨s, place, hs, hreads⟩ := hlexes .start .start
  have hstream : TokenStream.ofSource source = .ok s := hs
  refine parseProgram_eq_ok.2 ⟨s, hstream, ?_⟩
  exact (run_program_iff (Lexer.proper_stream hs)).2 ⟨ls, place, hreads, hderived⟩

/-- **Printed programs read back.** The lexemes of the text derive the program, and the reader
finds every program that is derived. -/
theorem parseProgram_programText {p : Program} (hp : p.WellFormed) :
    parseProgram (programText p) = .ok p := by
  obtain ⟨ls, hlexes, hderived⟩ := Program.prints hp
  exact parseProgram_of_lexes hlexes hderived

/-- A printed declaration reads back as a program of its own. Its text needs nothing before it and
nothing behind it. -/
theorem parseProgram_text {d : Declaration} (hnamed : d.Named)
    (h : ∀ e ∈ d.expressions, e.WellFormed ∧ e.height ≤ maxNesting) :
    parseProgram d.text = .ok [d] := by
  obtain ⟨ms, hd, hlexes⟩ := Declaration.prints hnamed h lexes_nil
  rw [List.append_nil] at hlexes
  exact parseProgram_of_lexes hlexes (.cons hd (Lexeme.kind_ofMark .semicolon ';') .nil)

end Printing

/-- **Printing is a section of reading.**  The programs that are read from some
text are the well-formed ones, and these are the ones that are read from their
own text. -/
theorem parseProgram_range_eq_wellFormed (p : Program) :
    ((∃ source, parseProgram source = .ok p) ↔ p.WellFormed) ∧
      (p.WellFormed ↔ parseProgram (programText p) = .ok p) :=
  ⟨⟨fun ⟨_, h⟩ => wellFormed_of_parseProgram h, fun h => ⟨_, parseProgram_programText h⟩⟩,
    ⟨parseProgram_programText, wellFormed_of_parseProgram⟩⟩

end LSystem.Syntax
