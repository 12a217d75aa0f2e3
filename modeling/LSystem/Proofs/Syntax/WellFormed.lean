import LSystem.Proofs.Number.Word
import LSystem.Proofs.Syntax.Acceptance
import Mathlib.Data.List.TakeWhile

/-!
# Well-formed trees

A tree can be built that no text stands for: a name with a space in it, a
negative number, a sum that is a factor without parentheses around it.  The
well-formed trees are the ones without such parts, and every tree that is read
from a text is one of them.

What a tree must not contain is said of names, of numbers and of the operators
next to one another.  The derivation of a tree shows the last of these, its
tokens the first two.
-/

namespace LSystem.Syntax

open LSystem.Syntax.Parser

/-! ### Well-formedness -/

/-- A name: a word that is not reserved. -/
structure IsName (text : String) : Prop where
  word : ∃ c rest, text.toList = c :: rest ∧ isWordStart c ∧ ∀ d ∈ rest, isWordChar d
  free : ∀ k : Keyword, k.text ≠ text

/-- The name of a symbol: a name or one of two marks. -/
def IsMark (text : String) : Prop := IsName text ∨ text = "+" ∨ text = "-"

/-- How tightly the outermost operator of an expression binds.  An operand binds
more tightly than any operator. -/
def Expr.level : Expr → Nat
  | .binary op _ _ => op.precedence
  | _ => 2

mutual

/-- Whether an expression reads back from its own text, apart from its height. -/
def Expr.WellFormed : Expr → Prop
  | .num value => value.isFinite ∧ Number.isNegative value = false
  | .ident name => IsName name
  | .call name args => IsName name ∧ Expr.AllWellFormed args
  | .group inner => inner.WellFormed
  | .binary op left right =>
    (left.WellFormed ∧ op.precedence ≤ left.level) ∧
      right.WellFormed ∧ op.precedence < right.level
  | .neg inner => inner.WellFormed ∧ inner.level = 2

/-- Whether some expressions are all well-formed. -/
def Expr.AllWellFormed : List Expr → Prop
  | [] => True
  | e :: es => e.WellFormed ∧ Expr.AllWellFormed es

end

/-- Whether the name of a symbol can be written. -/
def Symbol.WellFormed : Symbol → Prop
  | .named name => IsMark name
  | .push | .pop => True

/-- Whether the names and symbols of a declaration can be written. -/
def Declaration.Named : Declaration → Prop
  | .var name _ => IsName name
  | .rule name body _ => IsName name ∧ ∀ s ∈ body, s.WellFormed
  | .start symbols => ∀ s ∈ symbols, s.WellFormed
  | .transform name _ => IsMark name
  | .length _ | .width _ | .color _ | .iterate _ => True

/-- Whether a program reads back from its own text. -/
structure Program.WellFormed (p : Program) : Prop where
  named : ∀ d ∈ p, d.Named
  expressions : p.AllExpressions fun e => e.WellFormed ∧ e.height ≤ maxNesting

/-! ### Trees by induction -/

section Induction

variable {P : Expr → Prop}

mutual

/-- Induction on an expression, with the arguments of a call as a list. -/
theorem Expr.inductionOn (num : ∀ value, P (.num value)) (ident : ∀ name, P (.ident name))
    (call : ∀ name args, (∀ e ∈ args, P e) → P (.call name args))
    (group : ∀ inner, P inner → P (.group inner))
    (binary : ∀ op left right, P left → P right → P (.binary op left right))
    (neg : ∀ inner, P inner → P (.neg inner)) : ∀ e, P e
  | .num value => num value
  | .ident name => ident name
  | .call name args => call name args (Expr.inductionOnList num ident call group binary neg args)
  | .group inner => group inner (Expr.inductionOn num ident call group binary neg inner)
  | .binary op left right =>
    binary op left right (Expr.inductionOn num ident call group binary neg left)
      (Expr.inductionOn num ident call group binary neg right)
  | .neg inner => neg inner (Expr.inductionOn num ident call group binary neg inner)

/-- The same for the arguments of a call, one after the other; the two go by recursion on each
other as the trees do. -/
theorem Expr.inductionOnList (num : ∀ value, P (.num value)) (ident : ∀ name, P (.ident name))
    (call : ∀ name args, (∀ e ∈ args, P e) → P (.call name args))
    (group : ∀ inner, P inner → P (.group inner))
    (binary : ∀ op left right, P left → P right → P (.binary op left right))
    (neg : ∀ inner, P inner → P (.neg inner)) : ∀ es : List Expr, ∀ e ∈ es, P e
  | [] => fun _ he => absurd he (List.not_mem_nil)
  | e :: es => List.forall_mem_cons.2
    ⟨Expr.inductionOn num ident call group binary neg e,
      Expr.inductionOnList num ident call group binary neg es⟩

end

end Induction

/-- The arguments of a call are all well-formed exactly if each of them is, which frees the proofs
below from the list of the mutual definition. -/
theorem Expr.allWellFormed_iff (es : List Expr) :
    Expr.AllWellFormed es ↔ ∀ e ∈ es, e.WellFormed := by
  induction es with
  | nil => simp [Expr.AllWellFormed]
  | cons e es ih => rw [Expr.AllWellFormed, ih, List.forall_mem_cons]

/-- There are two levels of operators, so an operand, at level two, binds tighter than any. -/
theorem Operator.precedence_le_one (op : Operator) : op.precedence ≤ 1 := by
  cases op <;> simp [Operator.precedence]

/-! ### Trees that compare equal -/

/-- Two rows of well-formed expressions that compare equal are equal, if their items are; the
comparison of doubles is what makes this need a proof. -/
theorem Expr.eq_of_sameList {as bs : List Expr} (has : ∀ a ∈ as, a.WellFormed)
    (hbs : ∀ b ∈ bs, b.WellFormed)
    (ih : ∀ a ∈ as, a.WellFormed → ∀ b : Expr, b.WellFormed → a.same b → a = b)
    (h : Expr.sameList as bs) : as = bs := by
  induction as generalizing bs with
  | nil =>
      cases bs with
      | nil => rfl
      | cons b bs => simp [Expr.sameList] at h
  | cons a as ihas =>
      cases bs with
      | nil => simp [Expr.sameList] at h
      | cons b bs =>
          rw [Expr.sameList, Bool.and_eq_true] at h
          rw [List.forall_mem_cons] at has hbs ih
          rw [ih.1 has.1 b hbs.1 h.1, ihas has.2 hbs.2 ih.2 h.2]

/-- Well-formed expressions that are the same are equal: their numbers compare
equal, and there is only one zero among them. -/
theorem Expr.eq_of_same {a b : Expr} (ha : a.WellFormed) (hb : b.WellFormed) (h : a.same b) :
    a = b := by
  induction a using Expr.inductionOn generalizing b with
  | num value =>
      cases b with
      | num value' =>
          rw [Expr.WellFormed] at ha hb
          rw [Number.eq_of_beq_of_finite ha.1 hb.1 ha.2 hb.2 h]
      | _ => simp [Expr.same] at h
  | ident name =>
      cases b with
      | ident name' => rw [show name = name' by simpa [Expr.same] using h]
      | _ => simp [Expr.same] at h
  | call name args ih =>
      cases b with
      | call name' args' =>
          rw [Expr.WellFormed, Expr.allWellFormed_iff] at ha hb
          rw [Expr.same, Bool.and_eq_true, beq_iff_eq] at h
          rw [h.1, Expr.eq_of_sameList ha.2 hb.2 (fun a hmem ha b hb h => ih a hmem ha hb h) h.2]
      | _ => simp [Expr.same] at h
  | group inner ih =>
      cases b with
      | group inner' =>
          rw [Expr.WellFormed] at ha hb
          rw [ih ha hb h]
      | _ => simp [Expr.same] at h
  | binary op left right ihl ihr =>
      cases b with
      | binary op' left' right' =>
          rw [Expr.WellFormed] at ha hb
          rw [Expr.same, Bool.and_eq_true, Bool.and_eq_true, beq_iff_eq] at h
          rw [h.1.1, ihl ha.1.1 hb.1.1 h.1.2, ihr ha.2.1 hb.2.1 h.2]
      | _ => simp [Expr.same] at h
  | neg inner ih =>
      cases b with
      | neg inner' =>
          rw [Expr.WellFormed] at ha hb
          rw [ih ha.1 hb.1 h]
      | _ => simp [Expr.same] at h

/-! ### Derived trees are well-formed -/

/-- A lexeme as it is found in a text. -/
structure Lexeme.Genuine (l : Lexeme) : Prop where
  legible : l.Legible
  name : l.kind = .identifier → IsName l.text
  plus : l.kind = .plus → l.text = "+"
  minus : l.kind = .minus → l.text = "-"

/-- A lexeme of a text that can name a symbol is the name of one: an identifier, or `+` or `-`
with that very text. -/
theorem Lexeme.Genuine.isMark {l : Lexeme} (h : l.Genuine)
    (hkind : l.kind ∈ [.identifier, .plus, .minus]) : IsMark l.text := by
  simp only [List.mem_cons, List.not_mem_nil, or_false] at hkind
  rcases hkind with hkind | hkind | hkind
  · exact .inl (h.name hkind)
  · exact .inr (.inl (h.plus hkind))
  · exact .inr (.inr (h.minus hkind))

/-- No numeral is read as a number with a sign, since minus signs are tokens of their own. -/
theorem isNegative_readNumeral (text : List Char) :
    Number.isNegative (Number.readNumeral text) = false := Number.isNegative_nearest _ _

namespace Grammar

section Derived

variable {level : Nat} {ls : List Lexeme} {e : Expr} {p : Program}

/-- An operand of the grammar binds tighter than any operator, being no operator expression
itself. -/
theorem Operand.level_eq (h : Operand ls e) : e.level = 2 := by
  cases h <;> rfl

/-- A chain at a level binds at least as tightly as the level says. -/
theorem Chain.level_le (h : Chain Operand level ls e) (hlevel : level ≤ 2) : level ≤ e.level := by
  cases h with
  | operand whole =>
      rw [whole.level_eq]
      exact hlevel
  | binary hlevel _ _ _ => exact hlevel

/-- From level two on there are no operators left, so a chain there is an operand. -/
theorem Chain.operand_of_two (h : Chain Operand 2 ls e) : Operand ls e := by
  cases h with
  | operand whole => exact whole
  | @binary _ op _ _ _ _ _ hlevel _ _ _ =>
      have hle := op.precedence_le_one
      omega

/-- If the items of a row are well-formed for genuine lexemes, all arguments are, by induction on
the row. -/
theorem Row.forall_of_genuine {args : List Expr} (h : Row (Chain Operand 0) ls args)
    (hls : ∀ l ∈ ls, l.Genuine)
    (ih : ∀ e ∈ args, ∀ ms, Chain Operand 0 ms e → (∀ l ∈ ms, l.Genuine) → e.WellFormed) :
    ∀ e ∈ args, e.WellFormed := by
  induction h with
  | last item => exact fun e he => ih e he _ (List.mem_singleton.1 he ▸ item) hls
  | more item hcomma rest ihrest =>
      rw [List.forall_mem_append, List.forall_mem_cons] at hls
      rw [List.forall_mem_cons] at ih ⊢
      exact ⟨ih.1 _ item hls.1, ihrest hls.2.2 ih.2⟩

/-- Every derived expression is well-formed. The levels of the derivation keep an operator out of
the places where it would need parentheses; the induction is on the tree. -/
theorem Chain.wellFormed (h : Chain Operand level ls e) (hls : ∀ l ∈ ls, l.Genuine) :
    e.WellFormed := by
  induction e using Expr.inductionOn generalizing level ls with
  | num value =>
      cases h with
      | operand whole =>
          cases whole with
          | number hkind =>
              rw [Expr.WellFormed]
              exact ⟨(hls _ (List.mem_singleton_self _)).legible hkind, isNegative_readNumeral _⟩
  | ident name =>
      cases h with
      | operand whole =>
          cases whole with
          | ident hkind =>
              rw [Expr.WellFormed]
              exact (hls _ (List.mem_singleton_self _)).name hkind
  | call name args ih =>
      rw [Expr.WellFormed, Expr.allWellFormed_iff]
      cases h with
      | operand whole =>
          cases whole with
          | callEmpty hname _ _ =>
              exact ⟨(hls _ List.mem_cons_self).name hname, fun e he => absurd he List.not_mem_nil⟩
          | call hname hopening row hclosing =>
              rw [List.forall_mem_cons, List.forall_mem_cons, List.forall_mem_append] at hls
              exact ⟨hls.1.name hname,
                row.forall_of_genuine hls.2.2.1 fun e he ms hms hgenuine => ih e he hms hgenuine⟩
  | group inner ih =>
      rw [Expr.WellFormed]
      cases h with
      | operand whole =>
          cases whole with
          | group hopening hinner hclosing =>
              rw [List.forall_mem_cons, List.forall_mem_append] at hls
              exact ih hinner hls.2.1
  | binary op left right ihl ihr =>
      rw [Expr.WellFormed]
      have hle := op.precedence_le_one
      cases h with
      | operand whole => cases whole
      | binary hlevel hleft hmark hright =>
          rw [List.forall_mem_append, List.forall_mem_cons] at hls
          exact ⟨⟨ihl hleft hls.1, hleft.level_le (by omega)⟩, ihr hright hls.2.2,
            hright.level_le (by omega)⟩
  | neg inner ih =>
      rw [Expr.WellFormed]
      cases h with
      | operand whole =>
          cases whole with
          | neg hminus hinner =>
              rw [List.forall_mem_cons] at hls
              have hchain : Chain Operand 0 _ _ := .operand hinner
              exact ⟨ih hchain hls.2, hinner.level_eq⟩

/-- A symbol that stands in a text has a name that can be written. -/
theorem SymbolMark.wellFormed {l : Lexeme} {symbol : Symbol} (h : SymbolMark l symbol)
    (hl : l.Genuine) : symbol.WellFormed := by
  cases h with
  | named hkind => exact hl.isMark hkind
  | push _ => trivial
  | pop _ => trivial

theorem wellFormed_of_symbols {row : List Symbol} (h : Symbols ls row)
    (hls : ∀ l ∈ ls, l.Genuine) : ∀ s ∈ row, s.WellFormed := by
  induction h with
  | nil => simp
  | cons mark _ ih =>
      rw [List.forall_mem_cons] at hls ⊢
      exact ⟨mark.wellFormed hls.1, ih hls.2⟩

/-- The names in a declaration that stands in a text can be written. -/
theorem Declares.named {E : List Lexeme → Expr → Prop} {d : Declaration} (h : Declares E ls d)
    (hls : ∀ l ∈ ls, l.Genuine) : d.Named := by
  cases h with
  | var _ hname _ _ =>
      rw [List.forall_mem_cons, List.forall_mem_cons] at hls
      exact hls.2.1.name hname
  | rule _ hname hbody _ =>
      rw [List.forall_mem_cons, List.forall_mem_cons, List.forall_mem_append] at hls
      refine ⟨hls.2.1.name hname, ?_⟩
      cases hbody with
      | absent => exact fun s hs => absurd hs List.not_mem_nil
      | present hassign hsymbols _ =>
          rw [List.forall_mem_cons] at hls
          exact wellFormed_of_symbols hsymbols hls.2.2.1.2
  | start _ hsymbols =>
      rw [List.forall_mem_cons] at hls
      exact wellFormed_of_symbols hsymbols hls.2
  | transform _ hname _ =>
      rw [List.forall_mem_cons, List.forall_mem_cons] at hls
      exact hls.2.1.isMark hname
  | length _ _ => trivial
  | width _ _ => trivial
  | color _ _ => trivial
  | iterate _ _ => trivial

/-- So can those of a whole program, by induction on its declarations. -/
theorem Declarations.named {E : List Lexeme → Expr → Prop} (h : Declarations E ls p)
    (hls : ∀ l ∈ ls, l.Genuine) : ∀ d ∈ p, d.Named := by
  induction h with
  | nil => simp
  | cons first _ _ ih =>
      rw [List.forall_mem_append, List.forall_mem_cons] at hls
      exact List.forall_mem_cons.2 ⟨first.named hls.1, ih hls.2.2⟩

/-- Every derived program is well-formed. Its names are those of lexemes, and its expressions are
derived and not too high. -/
theorem Declarations.wellFormed (h : Declarations Admits ls p) (hls : ∀ l ∈ ls, l.Genuine) :
    p.WellFormed := by
  refine ⟨h.named hls, ?_⟩
  have hderived : Declarations (fun ls e => Admits ls e ∧ e.WellFormed ∧ e.height ≤ maxNesting)
      ls p :=
    h.imp (fun _ _ he hgenuine => ⟨he, he.1.wellFormed hgenuine, he.2⟩) hls
  exact (Declarations.and_iff.1 hderived).2

end Derived

end Grammar

/-! ### Lexemes of texts -/

theorem isWordChar_of_isWordStart {c : Char} (h : isWordStart c) : isWordChar c := by
  simp only [isWordStart, isWordChar, Char.isAlphanum, Bool.or_eq_true] at h ⊢
  rcases h with h | h
  · exact .inl (.inl h)
  · exact .inr h

/-- A text is no keyword exactly if it differs from the text of each of them. -/
theorem ofText?_eq_none_iff (text : String) :
    Keyword.ofText? text = none ↔ ∀ k : Keyword, k.text ≠ text := by
  unfold Keyword.ofText?
  rw [List.find?_eq_none]
  constructor
  · intro h k
    have hmem : k ∈ Keyword.all := by cases k <;> decide
    simpa using h k hmem
  · intro h k _
    simpa using h k

/-- The characters of a word. -/
def isWord : List Char → Bool
  | [] => false
  | c :: rest => isWordStart c && rest.all isWordChar

/-- The test for words says what a name asks of its characters. -/
theorem isWord_iff (text : List Char) : isWord text = true ↔
    ∃ c rest, text = c :: rest ∧ isWordStart c ∧ ∀ d ∈ rest, isWordChar d := by
  cases text with
  | nil => simp [isWord]
  | cons c rest => simp [isWord]

instance (text : String) : Decidable (IsName text) :=
  decidable_of_iff (isWord text.toList = true ∧ Keyword.ofText? text = none) <| by
    rw [isWord_iff, ofText?_eq_none_iff]
    exact ⟨fun h => ⟨h.1, h.2⟩, fun h => ⟨h.word, h.free⟩⟩

instance (text : String) : Decidable (IsMark text) :=
  inferInstanceAs (Decidable (IsName text ∨ text = "+" ∨ text = "-"))

mutual

/-- Whether an expression reads back can be found out by going through it. -/
def Expr.decidableWellFormed : (e : Expr) → Decidable e.WellFormed
  | .num value =>
    inferInstanceAs (Decidable (value.isFinite ∧ Number.isNegative value = false))
  | .ident name => inferInstanceAs (Decidable (IsName name))
  | .call name args =>
    have := Expr.decidableAllWellFormed args
    inferInstanceAs (Decidable (IsName name ∧ Expr.AllWellFormed args))
  | .group inner => inner.decidableWellFormed
  | .binary op left right =>
    have := left.decidableWellFormed
    have := right.decidableWellFormed
    inferInstanceAs (Decidable ((left.WellFormed ∧ op.precedence ≤ left.level) ∧
      right.WellFormed ∧ op.precedence < right.level))
  | .neg inner =>
    have := inner.decidableWellFormed
    inferInstanceAs (Decidable (inner.WellFormed ∧ inner.level = 2))

/-- Whether all of some expressions do. -/
def Expr.decidableAllWellFormed : (es : List Expr) → Decidable (Expr.AllWellFormed es)
  | [] => .isTrue trivial
  | e :: es =>
    have := e.decidableWellFormed
    have := Expr.decidableAllWellFormed es
    inferInstanceAs (Decidable (e.WellFormed ∧ Expr.AllWellFormed es))

end

instance (e : Expr) : Decidable e.WellFormed := e.decidableWellFormed

instance : (symbol : Symbol) → Decidable symbol.WellFormed
  | .named name => inferInstanceAs (Decidable (IsMark name))
  | .push | .pop => .isTrue trivial

instance : (d : Declaration) → Decidable d.Named
  | .var name _ => inferInstanceAs (Decidable (IsName name))
  | .rule name body _ => inferInstanceAs (Decidable (IsName name ∧ ∀ s ∈ body, s.WellFormed))
  | .start symbols => inferInstanceAs (Decidable (∀ s ∈ symbols, s.WellFormed))
  | .transform name _ => inferInstanceAs (Decidable (IsMark name))
  | .length _ | .width _ | .color _ | .iterate _ => .isTrue trivial

instance (p : Program) : Decidable p.WellFormed :=
  decidable_of_iff ((∀ d ∈ p, d.Named) ∧
      ∀ d ∈ p, ∀ e ∈ d.expressions, e.WellFormed ∧ e.height ≤ maxNesting)
    ⟨fun h => ⟨h.1, h.2⟩, fun h => ⟨h.named, h.expressions⟩⟩

/-- The marks are spelt with themselves. -/
theorem eq_of_ofMark? {c : Char} {kind : TokenKind} (h : TokenKind.ofMark? c = some kind) :
    kind ≠ .identifier ∧ kind ≠ .number ∧ (kind = .plus → c = '+') ∧
      (kind = .minus → c = '-') := by
  unfold TokenKind.ofMark? at h
  split at h <;> simp at h <;> subst h <;> decide

/-- What the lexer finds, apart from numerals that are not finite, is genuine. Words have been
told from keywords, and marks have one text each. -/
theorem genuine_of_lexeme? {text word after : List Char} {kind : TokenKind}
    (h : lexeme? text = some (kind, word, after))
    (hlegible : Lexeme.Legible ⟨kind, String.ofList word⟩) :
    Lexeme.Genuine ⟨kind, String.ofList word⟩ := by
  cases text with
  | nil =>
      obtain ⟨rfl, rfl, rfl⟩ : .finish = kind ∧ [] = word ∧ [] = after := by
        simpa [lexeme?] using h
      exact ⟨hlegible, by simp, by simp, by simp⟩
  | cons c rest =>
      rw [lexeme?] at h
      split at h
      · obtain rfl : .number = kind := (Prod.mk.inj (Option.some.inj h)).1
        exact ⟨hlegible, by simp, by simp, by simp⟩
      · split at h
        · rename_i hstart
          have hword : (c :: rest).takeWhile isWordChar = c :: rest.takeWhile isWordChar :=
            List.takeWhile_cons_of_pos (isWordChar_of_isWordStart hstart)
          rw [hword] at h
          obtain ⟨rfl, rfl, -⟩ : wordKind (String.ofList (c :: rest.takeWhile isWordChar)) = kind ∧
              c :: rest.takeWhile isWordChar = word ∧ _ := by simpa using h
          refine ⟨hlegible, fun hkind => ⟨⟨c, _, String.toList_ofList, hstart, ?_⟩, ?_⟩, ?_, ?_⟩
          · exact fun d hd => List.mem_takeWhile_imp hd
          · rw [← ofText?_eq_none_iff]
            simp only [wordKind] at hkind
            split at hkind
            · simp at hkind
            · assumption
          · intro hkind
            simp only [wordKind] at hkind
            split at hkind <;> simp at hkind
          · intro hkind
            simp only [wordKind] at hkind
            split at hkind <;> simp at hkind
        · obtain ⟨found, hmark, heq⟩ := Option.map_eq_some_iff.1 h
          obtain ⟨rfl, rfl, rfl⟩ : found = kind ∧ [c] = word ∧ rest = after := by simpa using heq
          obtain ⟨hident, hnumber, hplus, hminus⟩ := eq_of_ofMark? hmark
          refine ⟨hlegible, fun h => absurd h hident, fun h => ?_, fun h => ?_⟩
          · rw [hplus h]
          · rw [hminus h]

/-- The lexemes that are read from a text are genuine. Names are no keywords, marks are spelt with
themselves, and numerals have been read with a finite value. -/
theorem Lexer.genuine_of_reads {l : Lexer} {s s' : TokenStream} {ls : List Lexeme}
    (hs : l.stream = .ok s) (hreads : s.Reads ls s') : ∀ x ∈ ls, x.Genuine := by
  fun_induction Lexer.stream l generalizing s ls with
  | case1 l f l' hnext => cases hs
  | case2 l t l' hnext hkind =>
      cases hs
      cases hreads
      simp
  | case3 l t l' hnext hkind f hrest ih =>
      cases hs
      cases hreads
      simp
  | case4 l t l' hnext hkind rest hrest ih =>
      cases hs
      cases hreads with
      | refl _ => simp
      | token legible tail =>
          refine List.forall_mem_cons.2 ⟨?_, ih hrest tail⟩
          simp only [Lexer.next] at hnext
          split at hnext
          · rename_i kind word after hlexeme
            obtain ⟨rfl, -⟩ : _ = t ∧ _ := by simpa using hnext
            exact genuine_of_lexeme? hlexeme legible
          · simp at hnext

/-- **The trees of texts.**  Every program that is read from a text is
well-formed. -/
theorem wellFormed_of_parseProgram {source : String} {p : Program}
    (h : parseProgram source = .ok p) : p.WellFormed := by
  obtain ⟨s, hs, hrun⟩ := parseProgram_eq_ok.1 h
  obtain ⟨ls, position, hreads, hp⟩ := (run_program_iff (Lexer.proper_stream hs)).1 hrun
  exact hp.wellFormed (Lexer.genuine_of_reads hs hreads)

end LSystem.Syntax
