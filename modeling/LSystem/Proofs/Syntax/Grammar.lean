import LSystem.Syntax.Parser.Expression
import Mathlib.Data.List.Forall2

/-!
# The grammar

What a row of tokens may say, as relations between the row and the tree it
stands for.  A relation looks at kinds and texts alone, never at places, and it
does not say how a reader finds the tree: an optional clause may be there or
not, and a chain of operators may be cut anywhere.

An expression is a **chain** at level zero.  A chain at a level is an operand,
or an operator that binds at least as tightly as the level says, with a chain at
its own level to the left and a chain one level up to the right.  Sums are
chains at level zero, products chains at level one, and from level two on only
operands are left, so that all operators associate to the left and a minus sign
in front of an operand binds tighter than any of them.
-/

namespace LSystem.Syntax

/-- A token without its place. -/
structure Lexeme where
  kind : TokenKind
  text : String
  deriving DecidableEq, Repr

/-- What is left of a token without its place. -/
def Token.lexeme (t : Token) : Lexeme := ⟨t.kind, t.text⟩

/-- Whether a lexeme has a finite value if it is a numeral. -/
def Lexeme.Legible (l : Lexeme) : Prop :=
  l.kind = .number → (Number.readNumeral l.text.toList).isFinite

namespace Grammar

/-! ### Expressions -/

/-- Operands with operators between them that bind at least as tightly as a
level. -/
inductive Chain (Operand : List Lexeme → Expr → Prop) : Nat → List Lexeme → Expr → Prop
  | operand {level : Nat} {ls : List Lexeme} {e : Expr} (whole : Operand ls e) :
      Chain Operand level ls e
  | binary {level : Nat} {op : Operator} {ls ms : List Lexeme} {mark : Lexeme} {l r : Expr}
      (hlevel : level ≤ op.precedence) (left : Chain Operand op.precedence ls l)
      (hmark : mark.kind = op.kind) (right : Chain Operand (op.precedence + 1) ms r) :
      Chain Operand level (ls ++ mark :: ms) (.binary op l r)

/-- A chain of tighter operators is a chain. A chain at a level is one at every lower level. -/
theorem Chain.mono {Operand : List Lexeme → Expr → Prop} {level tight : Nat} {ls : List Lexeme}
    {e : Expr} (h : Chain Operand tight ls e) (hle : level ≤ tight) : Chain Operand level ls e := by
  cases h with
  | operand whole => exact .operand whole
  | binary hlevel left hmark right => exact .binary (Nat.le_trans hle hlevel) left hmark right

/-- One or more items with a comma between any two. -/
inductive Row (Item : List Lexeme → Expr → Prop) : List Lexeme → List Expr → Prop
  | last {ls : List Lexeme} {e : Expr} (item : Item ls e) : Row Item ls [e]
  | more {ls ms : List Lexeme} {comma : Lexeme} {e : Expr} {es : List Expr}
      (item : Item ls e) (hcomma : comma.kind = .comma) (rest : Row Item ms es) :
      Row Item (ls ++ comma :: ms) (e :: es)

/-- An operand: a number, a name, a call, an expression in parentheses, or an
operand behind a minus sign. -/
inductive Operand : List Lexeme → Expr → Prop
  | number {l : Lexeme} (hkind : l.kind = .number) :
      Operand [l] (.num (Number.readNumeral l.text.toList))
  | ident {l : Lexeme} (hkind : l.kind = .identifier) : Operand [l] (.ident l.text)
  | callEmpty {name opening closing : Lexeme} (hname : name.kind = .identifier)
      (hopening : opening.kind = .leftParen) (hclosing : closing.kind = .rightParen) :
      Operand [name, opening, closing] (.call name.text [])
  | call {name opening closing : Lexeme} {ls : List Lexeme} {args : List Expr}
      (hname : name.kind = .identifier) (hopening : opening.kind = .leftParen)
      (row : Row (Chain Operand 0) ls args) (hclosing : closing.kind = .rightParen) :
      Operand (name :: opening :: (ls ++ [closing])) (.call name.text args)
  | group {opening closing : Lexeme} {ls : List Lexeme} {e : Expr}
      (hopening : opening.kind = .leftParen) (inner : Chain Operand 0 ls e)
      (hclosing : closing.kind = .rightParen) :
      Operand (opening :: (ls ++ [closing])) (.group e)
  | neg {minus : Lexeme} {ls : List Lexeme} {e : Expr} (hminus : minus.kind = .minus)
      (inner : Operand ls e) : Operand (minus :: ls) (.neg e)

/-- An expression. -/
abbrev Expression : List Lexeme → Expr → Prop := Chain Operand 0

/-! ### Declarations

What an expression may be is a parameter of everything above it. -/

/-- A clause that opens with a word of its own, or its absence. -/
inductive Clause {α : Type} (kind : TokenKind) (Content : List Lexeme → α → Prop) :
    List Lexeme → Option α → Prop
  | absent : Clause kind Content [] none
  | present {opening : Lexeme} {ls : List Lexeme} {a : α} (hopening : opening.kind = kind)
      (content : Content ls a) : Clause kind Content (opening :: ls) (some a)

/-- One symbol. -/
inductive SymbolMark : Lexeme → Symbol → Prop
  | named {l : Lexeme} (hkind : l.kind ∈ [.identifier, .plus, .minus]) :
      SymbolMark l (.named l.text)
  | push {l : Lexeme} (hkind : l.kind = .leftBracket) : SymbolMark l .push
  | pop {l : Lexeme} (hkind : l.kind = .rightBracket) : SymbolMark l .pop

/-- A row of symbols. -/
abbrev Symbols : List Lexeme → List Symbol → Prop := List.Forall₂ SymbolMark

/-- The replacement of a rule, which has a symbol in it where it is written. -/
inductive Replacement : List Lexeme → List Symbol → Prop
  | absent : Replacement [] []
  | present {assign : Lexeme} {ls : List Lexeme} {body : List Symbol}
      (hassign : assign.kind = .assign) (symbols : Symbols ls body) (hbody : body ≠ []) :
      Replacement (assign :: ls) body

/-- The unit of an angle, degrees where none is written. -/
inductive UnitMark : List Lexeme → AngleUnit → Prop
  | absent : UnitMark [] .deg
  | deg {l : Lexeme} (hkind : l.kind = .keyword .deg) : UnitMark [l] .deg
  | rad {l : Lexeme} (hkind : l.kind = .keyword .rad) : UnitMark [l] .rad

/-- A color, of which one expression gives all three parts. -/
inductive ColorParts (E : List Lexeme → Expr → Prop) : List Lexeme → Color → Prop
  | gray {ls : List Lexeme} {e : Expr} (value : E ls e) : ColorParts E ls (.gray e)
  | rgb {ls ms ns : List Lexeme} {comma comma' : Lexeme} {r g b : Expr}
      (red : E ls r) (hcomma : comma.kind = .comma) (green : E ms g)
      (hcomma' : comma'.kind = .comma) (blue : E ns b) :
      ColorParts E (ls ++ comma :: (ms ++ comma' :: ns)) ⟨r, g, b⟩

/-- The look of a line. -/
inductive Look (E : List Lexeme → Expr → Prop) : List Lexeme → StrokeOverride → Prop
  | mk {ls ms : List Lexeme} {width : Option Expr} {color : Option Color}
      (hwidth : Clause (.keyword .width) E ls width)
      (hcolor : Clause (.keyword .color) (ColorParts E) ms color) :
      Look E (ls ++ ms) ⟨width, color⟩

/-- A motion. -/
inductive MotionParts (E : List Lexeme → Expr → Prop) :
    List Lexeme → Motion StrokeOverride → Prop
  | rotate {word : Lexeme} {ls ms : List Lexeme} {angle : Expr} {unit : AngleUnit}
      (hword : word.kind = .keyword .rotate) (hangle : E ls angle) (hunit : UnitMark ms unit) :
      MotionParts E (word :: (ls ++ ms)) (.rotate angle unit)
  | forward {word : Lexeme} {ls ms : List Lexeme} {distance : Expr} {look : StrokeOverride}
      (hword : word.kind = .keyword .translate) (hdistance : E ls distance)
      (hlook : Look E ms look) : MotionParts E (word :: (ls ++ ms)) (.forward distance look)
  | shift {word comma : Lexeme} {ls ms ns : List Lexeme} {dx dy : Expr} {look : StrokeOverride}
      (hword : word.kind = .keyword .translate) (hdx : E ls dx) (hcomma : comma.kind = .comma)
      (hdy : E ms dy) (hlook : Look E ns look) :
      MotionParts E (word :: (ls ++ comma :: (ms ++ ns))) (.shift dx dy look)

/-- A declaration without its semicolon. -/
inductive Declares (E : List Lexeme → Expr → Prop) : List Lexeme → Declaration → Prop
  | var {word name assign : Lexeme} {ls : List Lexeme} {value : Expr}
      (hword : word.kind = .keyword .var) (hname : name.kind = .identifier)
      (hassign : assign.kind = .assign) (hvalue : E ls value) :
      Declares E (word :: name :: assign :: ls) (.var name.text value)
  | rule {word name : Lexeme} {ls ms : List Lexeme} {body : List Symbol} {bias : Option Expr}
      (hword : word.kind = .keyword .rule) (hname : name.kind = .identifier)
      (hbody : Replacement ls body) (hbias : Clause (.keyword .bias) E ms bias) :
      Declares E (word :: name :: (ls ++ ms)) (.rule name.text body bias)
  | start {word : Lexeme} {ls : List Lexeme} {symbols : List Symbol}
      (hword : word.kind = .keyword .start) (hsymbols : Symbols ls symbols) :
      Declares E (word :: ls) (.start symbols)
  | length {word : Lexeme} {ls : List Lexeme} {value : Expr}
      (hword : word.kind = .keyword .length) (hvalue : E ls value) :
      Declares E (word :: ls) (.length value)
  | width {word : Lexeme} {ls : List Lexeme} {value : Expr}
      (hword : word.kind = .keyword .width) (hvalue : E ls value) :
      Declares E (word :: ls) (.width value)
  | color {word : Lexeme} {ls : List Lexeme} {value : Color}
      (hword : word.kind = .keyword .color) (hvalue : ColorParts E ls value) :
      Declares E (word :: ls) (.color value)
  | iterate {word : Lexeme} {ls : List Lexeme} {value : Expr}
      (hword : word.kind = .keyword .iterate) (hvalue : E ls value) :
      Declares E (word :: ls) (.iterate value)
  | transform {word name : Lexeme} {ls : List Lexeme} {motion : Motion StrokeOverride}
      (hword : word.kind = .keyword .transform)
      (hname : name.kind ∈ [.identifier, .plus, .minus]) (hmotion : MotionParts E ls motion) :
      Declares E (word :: name :: ls) (.transform name.text motion)

/-- A program: declarations, each with a semicolon behind it. -/
inductive Declarations (E : List Lexeme → Expr → Prop) : List Lexeme → Program → Prop
  | nil : Declarations E [] []
  | cons {ls ms : List Lexeme} {semicolon : Lexeme} {d : Declaration} {ds : Program}
      (first : Declares E ls d) (hsemicolon : semicolon.kind = .semicolon)
      (rest : Declarations E ms ds) : Declarations E (ls ++ semicolon :: ms) (d :: ds)

end Grammar

/-! ### The expressions of a tree -/

/-- The expressions of a color. -/
def Color.expressions (c : Color) : List Expr := [c.r, c.g, c.b]

/-- The expressions of the look of a line. -/
def StrokeOverride.expressions (s : StrokeOverride) : List Expr :=
  s.width.toList ++ s.color.toList.flatMap Color.expressions

/-- The expressions of a motion. -/
def Motion.expressions : Motion StrokeOverride → List Expr
  | .rotate angle _ => [angle]
  | .forward distance look => distance :: look.expressions
  | .shift dx dy look => dx :: dy :: look.expressions

/-- The expressions of a declaration. -/
def Declaration.expressions : Declaration → List Expr
  | .var _ value => [value]
  | .rule _ _ bias => bias.toList
  | .start _ => []
  | .length value => [value]
  | .width value => [value]
  | .color value => value.expressions
  | .iterate value => [value]
  | .transform _ motion => motion.expressions

/-- Whether all expressions of a program have a property. -/
def Program.AllExpressions (P : Expr → Prop) (p : Program) : Prop :=
  ∀ d ∈ p, ∀ e ∈ d.expressions, P e

namespace Grammar

/-! ### Conditions on the expressions

A condition on every expression that is derived is a condition on every
expression of the tree. -/

section Conditions

variable {E : List Lexeme → Expr → Prop} {P : Expr → Prop} {ls : List Lexeme}

/-- A condition on the expressions of a color may be asked in the derivation or of the tree. -/
theorem ColorParts.and_iff {c : Color} :
    ColorParts (fun ls e => E ls e ∧ P e) ls c ↔ ColorParts E ls c ∧ ∀ e ∈ c.expressions, P e := by
  constructor
  · intro h
    cases h with
    | gray value => exact ⟨.gray value.1, by simp [Color.expressions, Color.gray, value.2]⟩
    | rgb red hcomma green hcomma' blue =>
        exact ⟨.rgb red.1 hcomma green.1 hcomma' blue.1,
          by simp [Color.expressions, red.2, green.2, blue.2]⟩
  · intro h
    obtain ⟨h, hall⟩ := h
    cases h with
    | gray value => exact .gray ⟨value, hall _ (by simp [Color.expressions, Color.gray])⟩
    | rgb red hcomma green hcomma' blue =>
        exact .rgb ⟨red, hall _ (by simp [Color.expressions])⟩ hcomma
          ⟨green, hall _ (by simp [Color.expressions])⟩ hcomma'
          ⟨blue, hall _ (by simp [Color.expressions])⟩

/-- A condition on the content of a clause may be asked in the derivation or of what the clause
stands for, if it is present. -/
theorem Clause.and_iff {α : Type} {kind : TokenKind} {G : List Lexeme → α → Prop} {Q : α → Prop}
    {o : Option α} :
    Clause kind (fun ls a => G ls a ∧ Q a) ls o ↔ Clause kind G ls o ∧ ∀ a ∈ o, Q a := by
  constructor
  · intro h
    cases h with
    | absent => exact ⟨.absent, by simp⟩
    | present hopening content => exact ⟨.present hopening content.1, by simp [content.2]⟩
  · intro h
    obtain ⟨h, hall⟩ := h
    cases h with
    | absent => exact .absent
    | present hopening content => exact .present hopening ⟨content, hall _ rfl⟩

/-- A condition on the expressions of the look of a line may be asked in the derivation or of the
tree. -/
theorem Look.and_iff {look : StrokeOverride} :
    Look (fun ls e => E ls e ∧ P e) ls look ↔ Look E ls look ∧ ∀ e ∈ look.expressions, P e := by
  have hmono {ls : List Lexeme} {c : Option Color} :
      Clause (.keyword .color) (ColorParts fun ls e => E ls e ∧ P e) ls c ↔
        Clause (.keyword .color) (ColorParts E) ls c ∧ ∀ a ∈ c, ∀ e ∈ a.expressions, P e := by
    have heq : (ColorParts fun ls e => E ls e ∧ P e) =
        fun ls c => ColorParts E ls c ∧ ∀ e ∈ c.expressions, P e :=
      funext fun _ => funext fun _ => propext ColorParts.and_iff
    rw [heq, Clause.and_iff]
  constructor
  · intro h
    cases h with
    | mk hwidth hcolor =>
        obtain ⟨hwidth, hwidthAll⟩ := Clause.and_iff.1 hwidth
        obtain ⟨hcolor, hcolorAll⟩ := hmono.1 hcolor
        refine ⟨.mk hwidth hcolor, fun e he => ?_⟩
        simp only [StrokeOverride.expressions, List.mem_append, Option.mem_toList,
          List.mem_flatMap] at he
        rcases he with he | ⟨c, hc, he⟩
        · exact hwidthAll e he
        · exact hcolorAll c hc e he
  · intro h
    obtain ⟨h, hall⟩ := h
    cases h with
    | mk hwidth hcolor =>
        refine .mk (Clause.and_iff.2 ⟨hwidth, fun e he => hall e ?_⟩)
          (hmono.2 ⟨hcolor, fun c hc e he => hall e ?_⟩)
        · simp only [StrokeOverride.expressions, List.mem_append, Option.mem_toList]
          exact .inl he
        · simp only [StrokeOverride.expressions, List.mem_append, Option.mem_toList,
            List.mem_flatMap]
          exact .inr ⟨c, hc, he⟩

/-- A condition on the expressions of a motion may be asked in the derivation or of the tree. -/
theorem MotionParts.and_iff {motion : Motion StrokeOverride} :
    MotionParts (fun ls e => E ls e ∧ P e) ls motion ↔
      MotionParts E ls motion ∧ ∀ e ∈ motion.expressions, P e := by
  constructor
  · intro h
    cases h with
    | rotate hword hangle hunit =>
        exact ⟨.rotate hword hangle.1 hunit, by simp [Motion.expressions, hangle.2]⟩
    | forward hword hdistance hlook =>
        obtain ⟨hlook, hall⟩ := Look.and_iff.1 hlook
        exact ⟨.forward hword hdistance.1 hlook, by simpa [Motion.expressions, hdistance.2]⟩
    | shift hword hdx hcomma hdy hlook =>
        obtain ⟨hlook, hall⟩ := Look.and_iff.1 hlook
        exact ⟨.shift hword hdx.1 hcomma hdy.1 hlook,
          by simpa [Motion.expressions, hdx.2, hdy.2]⟩
  · intro h
    obtain ⟨h, hall⟩ := h
    cases h with
    | rotate hword hangle hunit =>
        exact .rotate hword ⟨hangle, hall _ (by simp [Motion.expressions])⟩ hunit
    | forward hword hdistance hlook =>
        rw [Motion.expressions, List.forall_mem_cons] at hall
        exact .forward hword ⟨hdistance, hall.1⟩ (Look.and_iff.2 ⟨hlook, hall.2⟩)
    | shift hword hdx hcomma hdy hlook =>
        rw [Motion.expressions, List.forall_mem_cons, List.forall_mem_cons] at hall
        exact .shift hword ⟨hdx, hall.1⟩ hcomma ⟨hdy, hall.2.1⟩ (Look.and_iff.2 ⟨hlook, hall.2.2⟩)

/-- A condition on the expressions of a declaration may be asked in the derivation or of the tree,
one case for each kind of declaration. -/
theorem Declares.and_iff {d : Declaration} :
    Declares (fun ls e => E ls e ∧ P e) ls d ↔ Declares E ls d ∧ ∀ e ∈ d.expressions, P e := by
  constructor
  · intro h
    cases h with
    | var hword hname hassign hvalue =>
        exact ⟨.var hword hname hassign hvalue.1, by simp [Declaration.expressions, hvalue.2]⟩
    | rule hword hname hbody hbias =>
        obtain ⟨hbias, hall⟩ := Clause.and_iff.1 hbias
        exact ⟨.rule hword hname hbody hbias, by simpa [Declaration.expressions] using hall⟩
    | start hword hsymbols => exact ⟨.start hword hsymbols, by simp [Declaration.expressions]⟩
    | length hword hvalue =>
        exact ⟨.length hword hvalue.1, by simp [Declaration.expressions, hvalue.2]⟩
    | width hword hvalue =>
        exact ⟨.width hword hvalue.1, by simp [Declaration.expressions, hvalue.2]⟩
    | color hword hvalue =>
        obtain ⟨hvalue, hall⟩ := ColorParts.and_iff.1 hvalue
        exact ⟨.color hword hvalue, by simpa [Declaration.expressions] using hall⟩
    | iterate hword hvalue =>
        exact ⟨.iterate hword hvalue.1, by simp [Declaration.expressions, hvalue.2]⟩
    | transform hword hname hmotion =>
        obtain ⟨hmotion, hall⟩ := MotionParts.and_iff.1 hmotion
        exact ⟨.transform hword hname hmotion, by simpa [Declaration.expressions] using hall⟩
  · intro h
    obtain ⟨h, hall⟩ := h
    cases h with
    | var hword hname hassign hvalue =>
        exact .var hword hname hassign ⟨hvalue, hall _ (by simp [Declaration.expressions])⟩
    | rule hword hname hbody hbias =>
        refine .rule hword hname hbody (Clause.and_iff.2 ⟨hbias, fun e he => hall e ?_⟩)
        simpa [Declaration.expressions] using he
    | start hword hsymbols => exact .start hword hsymbols
    | length hword hvalue =>
        exact .length hword ⟨hvalue, hall _ (by simp [Declaration.expressions])⟩
    | width hword hvalue =>
        exact .width hword ⟨hvalue, hall _ (by simp [Declaration.expressions])⟩
    | color hword hvalue => exact .color hword (ColorParts.and_iff.2 ⟨hvalue, hall⟩)
    | iterate hword hvalue =>
        exact .iterate hword ⟨hvalue, hall _ (by simp [Declaration.expressions])⟩
    | transform hword hname hmotion =>
        exact .transform hword hname (MotionParts.and_iff.2 ⟨hmotion, hall⟩)

/-- **Conditions on the expressions of a program** can be taken out of its derivation. So the
limit on heights, which is a matter of trees, can be asked where the grammar asks for an
expression. -/
theorem Declarations.and_iff {p : Program} :
    Declarations (fun ls e => E ls e ∧ P e) ls p ↔ Declarations E ls p ∧ p.AllExpressions P := by
  constructor
  · intro h
    induction h with
    | nil => exact ⟨.nil, by simp [Program.AllExpressions]⟩
    | cons first hsemicolon rest ih =>
        obtain ⟨first, hall⟩ := Declares.and_iff.1 first
        exact ⟨.cons first hsemicolon ih.1, List.forall_mem_cons.2 ⟨hall, ih.2⟩⟩
  · intro h
    obtain ⟨h, hall⟩ := h
    induction h with
    | nil => exact .nil
    | cons first hsemicolon rest ih =>
        obtain ⟨hfirst, hrest⟩ := List.forall_mem_cons.1 hall
        exact .cons (Declares.and_iff.2 ⟨first, hfirst⟩) hsemicolon (ih hrest)

end Conditions

/-! ### Other expressions

Where all lexemes have a property, what an expression may be can be replaced by
anything that follows from it for such lexemes. -/

section Replacement

variable {E E' : List Lexeme → Expr → Prop} {R : Lexeme → Prop} {ls : List Lexeme}
  (hE : ∀ ls e, E ls e → (∀ l ∈ ls, R l) → E' ls e)

include hE

/-- A color is still one when what an expression may be is replaced by something that follows from
it. -/
theorem ColorParts.imp {c : Color} (h : ColorParts E ls c) (hls : ∀ l ∈ ls, R l) :
    ColorParts E' ls c := by
  cases h with
  | gray value => exact .gray (hE _ _ value hls)
  | rgb red hcomma green hcomma' blue =>
      rw [List.forall_mem_append, List.forall_mem_cons, List.forall_mem_append,
        List.forall_mem_cons] at hls
      exact .rgb (hE _ _ red hls.1) hcomma (hE _ _ green hls.2.2.1) hcomma'
        (hE _ _ blue hls.2.2.2.2)

omit hE in
/-- A clause is still one when its content is replaced by something that follows from it. -/
theorem Clause.imp {α : Type} {kind : TokenKind} {G H : List Lexeme → α → Prop}
    (hGH : ∀ ls a, G ls a → (∀ l ∈ ls, R l) → H ls a) {o : Option α}
    (h : Clause kind G ls o) (hls : ∀ l ∈ ls, R l) : Clause kind H ls o := by
  cases h with
  | absent => exact .absent
  | present hopening content =>
      rw [List.forall_mem_cons] at hls
      exact .present hopening (hGH _ _ content hls.2)

theorem Look.imp {look : StrokeOverride} (h : Look E ls look) (hls : ∀ l ∈ ls, R l) :
    Look E' ls look := by
  cases h with
  | mk hwidth hcolor =>
      rw [List.forall_mem_append] at hls
      exact .mk (hwidth.imp hE hls.1) (hcolor.imp (fun _ _ h => h.imp hE) hls.2)

theorem MotionParts.imp {motion : Motion StrokeOverride} (h : MotionParts E ls motion)
    (hls : ∀ l ∈ ls, R l) : MotionParts E' ls motion := by
  cases h with
  | rotate hword hangle hunit =>
      rw [List.forall_mem_cons, List.forall_mem_append] at hls
      exact .rotate hword (hE _ _ hangle hls.2.1) hunit
  | forward hword hdistance hlook =>
      rw [List.forall_mem_cons, List.forall_mem_append] at hls
      exact .forward hword (hE _ _ hdistance hls.2.1) (hlook.imp hE hls.2.2)
  | shift hword hdx hcomma hdy hlook =>
      rw [List.forall_mem_cons, List.forall_mem_append, List.forall_mem_cons,
        List.forall_mem_append] at hls
      exact .shift hword (hE _ _ hdx hls.2.1) hcomma (hE _ _ hdy hls.2.2.2.1)
        (hlook.imp hE hls.2.2.2.2)

/-- A declaration is still one when what an expression may be is replaced by something that
follows from it. -/
theorem Declares.imp {d : Declaration} (h : Declares E ls d) (hls : ∀ l ∈ ls, R l) :
    Declares E' ls d := by
  cases h with
  | var hword hname hassign hvalue =>
      rw [List.forall_mem_cons, List.forall_mem_cons, List.forall_mem_cons] at hls
      exact .var hword hname hassign (hE _ _ hvalue hls.2.2.2)
  | rule hword hname hbody hbias =>
      rw [List.forall_mem_cons, List.forall_mem_cons, List.forall_mem_append] at hls
      exact .rule hword hname hbody (hbias.imp hE hls.2.2.2)
  | start hword hsymbols => exact .start hword hsymbols
  | length hword hvalue => exact .length hword (hE _ _ hvalue (List.forall_mem_cons.1 hls).2)
  | width hword hvalue => exact .width hword (hE _ _ hvalue (List.forall_mem_cons.1 hls).2)
  | color hword hvalue => exact .color hword (hvalue.imp hE (List.forall_mem_cons.1 hls).2)
  | iterate hword hvalue => exact .iterate hword (hE _ _ hvalue (List.forall_mem_cons.1 hls).2)
  | transform hword hname hmotion =>
      rw [List.forall_mem_cons, List.forall_mem_cons] at hls
      exact .transform hword hname (hmotion.imp hE hls.2.2)

/-- A whole program is still one when what an expression may be is replaced by something that
follows from it, by induction on its declarations. -/
theorem Declarations.imp {p : Program} (h : Declarations E ls p) (hls : ∀ l ∈ ls, R l) :
    Declarations E' ls p := by
  induction h with
  | nil => exact .nil
  | cons first hsemicolon rest ih =>
      rw [List.forall_mem_append, List.forall_mem_cons] at hls
      exact .cons (first.imp hE hls.1) hsemicolon (ih hls.2.2)

end Replacement

end Grammar

end LSystem.Syntax
