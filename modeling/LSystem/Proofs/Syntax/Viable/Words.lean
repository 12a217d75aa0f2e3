import Mathlib.Computability.Language
import Mathlib.Order.CompletePartialOrder
import LSystem.Proofs.Syntax.Program

/-!
# The languages of the grammar

The relations of the grammar without their trees, as languages.  Whether a row of
tokens can be completed to a program does not depend on the tree that comes out, and
sums, products and stars of languages say at once what a part may begin with.

`Opens` is this last question.  It excludes the empty row, so that it says of a
product what comes first in it whether the first factor is empty or not.
-/

namespace LSystem.Syntax

open scoped Computability

variable {α : Type} {K L M : Language Lexeme} {allowed : TokenKind → Prop}
  {kinds : List TokenKind} {kind : TokenKind}

/-- The rows that stand for something. -/
def words (G : List Lexeme → α → Prop) : Language Lexeme := {ls | ∃ a, G ls a}

/-- The rows of a single lexeme, of one of some kinds. -/
def oneOf (kinds : List TokenKind) : Language Lexeme := {ls | ∃ l, ls = [l] ∧ l.kind ∈ kinds}

theorem mem_words {G : List Lexeme → α → Prop} {ls : List Lexeme} :
    ls ∈ words G ↔ ∃ a, G ls a := Iff.rfl

theorem mem_oneOf {ls : List Lexeme} : ls ∈ oneOf kinds ↔ ∃ l, ls = [l] ∧ l.kind ∈ kinds := Iff.rfl

theorem singleton_mem_oneOf {l : Lexeme} : [l] ∈ oneOf kinds ↔ l.kind ∈ kinds := by
  simp [mem_oneOf]

/-- A row is a word of a product that begins with one lexeme exactly if it is such a lexeme with a
word of the other language behind it. -/
theorem mem_oneOf_mul {ls : List Lexeme} :
    ls ∈ oneOf kinds * L ↔ ∃ l rest, ls = l :: rest ∧ l.kind ∈ kinds ∧ rest ∈ L := by
  rw [Language.mem_mul]
  constructor
  · rintro ⟨_, ⟨l, rfl, hkind⟩, rest, hrest, rfl⟩
    exact ⟨l, rest, rfl, hkind, hrest⟩
  · rintro ⟨l, rest, rfl, hkind, hrest⟩
    exact ⟨[l], ⟨l, rfl, hkind⟩, rest, hrest, rfl⟩

/-- A row is a lexeme of some kinds with a word behind it exactly if its first lexeme is of one of
them and the others are the word. -/
theorem cons_mem_oneOf_mul {l : Lexeme} {ls : List Lexeme} :
    l :: ls ∈ oneOf kinds * L ↔ l.kind ∈ kinds ∧ ls ∈ L := by
  simp [mem_oneOf_mul]

/-! ### First lexemes -/

/-- Every row of a language begins with a lexeme of an allowed kind. -/
def Opens (K : Language Lexeme) (allowed : TokenKind → Prop) : Prop :=
  ∀ ls ∈ K, ∃ l rest, ls = l :: rest ∧ allowed l.kind

namespace Opens

theorem mono {allowed' : TokenKind → Prop} (h : Opens K allowed)
    (himp : ∀ kind, allowed kind → allowed' kind) : Opens K allowed' := by
  intro ls hls
  obtain ⟨l, rest, rfl, hkind⟩ := h ls hls
  exact ⟨l, rest, rfl, himp _ hkind⟩

/-- What begins a first factor without the empty row begins the product. -/
theorem mul (h : Opens L allowed) : Opens (L * K) allowed := by
  intro ls hls
  obtain ⟨ms, hms, ns, -, rfl⟩ := Language.mem_mul.1 hls
  obtain ⟨l, rest, rfl, hkind⟩ := h ms hms
  exact ⟨l, rest ++ ns, rfl, hkind⟩

/-- Where both of two languages begin with some kinds, so does their union. -/
theorem add (hL : Opens L allowed) (hM : Opens M allowed) : Opens (L + M) allowed := by
  intro ls hls
  rcases (Language.mem_add L M ls).1 hls with h | h
  · exact hL ls h
  · exact hM ls h

theorem add_iff : Opens (L + M) allowed ↔ Opens L allowed ∧ Opens M allowed :=
  ⟨fun h => ⟨fun ls hls => h ls (.inl hls), fun ls hls => h ls (.inr hls)⟩,
    fun h => h.1.add h.2⟩

/-- Where both of two languages begin with some kinds when something follows them, so does their
union; alternatives in a sequence are settled by it. -/
theorem add_mul (hL : Opens (L * K) allowed) (hM : Opens (M * K) allowed) :
    Opens ((L + M) * K) allowed := by
  rw [right_distrib]
  exact hL.add hM

/-- What may be left out begins with itself or with what follows. -/
theorem add_one_mul (hL : Opens L allowed) (hK : Opens K allowed) :
    Opens ((L + 1) * K) allowed :=
  hL.mul.add_mul (by rwa [one_mul])

/-- What may be repeated begins with itself or with what follows. -/
theorem kstar_mul (hL : Opens L allowed) (hK : Opens K allowed) : Opens (L∗ * K) allowed := by
  rw [← Language.one_add_self_mul_kstar_eq_kstar, add_comm]
  exact hL.mul.add_one_mul hK

/-- A row whose first lexeme is of a kind that is not allowed is no word. -/
theorem not_mem_cons (h : Opens K allowed) {l : Lexeme} (hkind : ¬allowed l.kind)
    (ls : List Lexeme) : l :: ls ∉ K := by
  intro hmem
  obtain ⟨l', rest, heq, hkind'⟩ := h _ hmem
  obtain ⟨rfl, -⟩ := List.cons.inj heq
  exact hkind hkind'

end Opens

/-- The words of one lexeme of some kinds begin with these kinds. -/
theorem opens_oneOf (h : ∀ kind ∈ kinds, allowed kind) : Opens (oneOf kinds) allowed := by
  rintro _ ⟨l, rfl, hkind⟩
  exact ⟨l, [], rfl, h _ hkind⟩

theorem opens_oneOf_mul (h : ∀ kind ∈ kinds, allowed kind) : Opens (oneOf kinds * L) allowed :=
  (opens_oneOf h).mul

/-! ### Languages with a row -/

/-- If two languages have a word each, there is one that is the two put together. -/
theorem exists_mem_mul (hL : ∃ ls, ls ∈ L) (hM : ∃ ls, ls ∈ M) : ∃ ls, ls ∈ L * M := by
  obtain ⟨ls, hls⟩ := hL
  obtain ⟨ms, hms⟩ := hM
  exact ⟨ls ++ ms, Language.append_mem_mul hls hms⟩

theorem exists_mem_add_left (hL : ∃ ls, ls ∈ L) (M : Language Lexeme) : ∃ ls, ls ∈ L + M :=
  hL.imp fun _ => .inl

theorem exists_mem_one : ∃ ls, ls ∈ (1 : Language Lexeme) := ⟨[], rfl⟩

theorem exists_mem_add_one (L : Language Lexeme) : ∃ ls, ls ∈ L + 1 := ⟨[], .inr rfl⟩

theorem exists_mem_kstar (L : Language Lexeme) : ∃ ls, ls ∈ L∗ := ⟨[], Language.nil_mem_kstar L⟩

/-- There is a lexeme of every kind, so the words of one lexeme are not empty. -/
theorem exists_mem_oneOf (kind : TokenKind) (kinds : List TokenKind) :
    ∃ ls, ls ∈ oneOf (kind :: kinds) :=
  ⟨[⟨kind, ""⟩], singleton_mem_oneOf.2 List.mem_cons_self⟩

namespace Grammar

/-! ### Expressions -/

section Expressions

variable {Op : List Lexeme → Expr → Prop} {Item : List Lexeme → Expr → Prop}

/-- The kinds of token that stand between two operands. -/
def operatorKinds : List TokenKind := [.plus, .minus, .star, .slash]

/-- The kinds of operators are those that an operator is written by. -/
theorem mem_operatorKinds {kind : TokenKind} :
    kind ∈ operatorKinds ↔ ∃ op : Operator, kind = op.kind := by
  constructor
  · intro h
    simp only [operatorKinds, List.mem_cons, List.not_mem_nil, or_false] at h
    rcases h with rfl | rfl | rfl | rfl
    · exact ⟨.add, rfl⟩
    · exact ⟨.sub, rfl⟩
    · exact ⟨.mul, rfl⟩
    · exact ⟨.div, rfl⟩
  · rintro ⟨op, rfl⟩
    cases op <;> simp [operatorKinds, Operator.kind]

/-- A chain goes on with any operator and an operand, which takes the place at the end
of the tree that its operator is strong enough for. -/
theorem Chain.exists_snoc {level : Nat} {op : Operator} {ls ms : List Lexeme} {mark : Lexeme}
    {e r : Expr} (h : Chain Op level ls e) (hlevel : level ≤ op.precedence)
    (hmark : mark.kind = op.kind) (hr : Op ms r) : ∃ e', Chain Op level (ls ++ mark :: ms) e' := by
  induction h with
  | operand whole => exact ⟨_, .binary hlevel (.operand whole) hmark (.operand hr)⟩
  | @binary level op' ls ns mark' l r' hlevel' left hmark' right ihl ihr =>
      by_cases hop : op.precedence ≤ op'.precedence
      · exact ⟨_, .binary hlevel (.binary hop left hmark' right) hmark (.operand hr)⟩
      · obtain ⟨e', hright⟩ := ihr (by omega)
        rw [List.append_assoc, List.cons_append]
        exact ⟨_, .binary hlevel' left hmark' hright⟩

/-- Two rows of operands with an operator between them are one. It is an inequality of languages,
so no trees are needed to see it. -/
theorem operands_append (O P : Language Lexeme) :
    O * (P * O)∗ * (P * (O * (P * O)∗)) ≤ O * (P * O)∗ :=
  calc O * (P * O)∗ * (P * (O * (P * O)∗))
      = O * ((P * O)∗ * (P * O * (P * O)∗)) := by simp only [mul_assoc]
    _ ≤ O * ((P * O)∗ * (P * O)∗) := by gcongr; exact mul_kstar_le_kstar
    _ = O * (P * O)∗ := by rw [kstar_mul_kstar]

/-- A chain is an operand with operators and operands behind it, at whatever level it is derived.
The induction is on the derivation. -/
theorem Chain.mem_operands {level : Nat} {ls : List Lexeme} {e : Expr} (h : Chain Op level ls e) :
    ls ∈ words Op * (oneOf operatorKinds * words Op)∗ := by
  induction h with
  | @operand level ls e whole =>
      rw [← List.append_nil ls]
      exact Language.append_mem_mul ⟨e, whole⟩ (Language.nil_mem_kstar _)
  | @binary level op ls ms mark l r hlevel left hmark right ihl ihr =>
      have hright : mark :: ms ∈ oneOf operatorKinds *
          (words Op * (oneOf operatorKinds * words Op)∗) :=
        cons_mem_oneOf_mul.2 ⟨mem_operatorKinds.2 ⟨op, hmark⟩, ihr⟩
      exact operands_append _ _ (Language.append_mem_mul ihl hright)

/-- A chain at level zero with more operators and operands behind it is one again, whichever
operators they are; a tighter one takes the last operand of the chain for its own. -/
theorem Chain.append_steps {steps : List (List Lexeme)}
    (hsteps : ∀ step ∈ steps, step ∈ oneOf operatorKinds * words Op) {ls : List Lexeme} {e : Expr}
    (h : Chain Op 0 ls e) : ls ++ steps.flatten ∈ words (Chain Op 0) := by
  induction steps generalizing ls e with
  | nil =>
      rw [List.flatten_nil, List.append_nil]
      exact ⟨e, h⟩
  | cons step steps ih =>
      rw [List.forall_mem_cons] at hsteps
      obtain ⟨mark, operand, rfl, hmark, r, hr⟩ := mem_oneOf_mul.1 hsteps.1
      obtain ⟨op, hop⟩ := mem_operatorKinds.1 hmark
      obtain ⟨e', hnext⟩ := h.exists_snoc (Nat.zero_le _) hop hr
      rw [List.flatten_cons, ← List.append_assoc]
      exact ih hsteps.2 hnext

/-- Chains are operands with operators between them. How tightly the operators bind decides the
tree and not whether there is one. -/
theorem words_chain :
    words (Chain Op 0) = words Op * (oneOf operatorKinds * words Op)∗ := by
  ext ls
  constructor
  · rintro ⟨e, h⟩
    exact h.mem_operands
  · intro h
    obtain ⟨first, ⟨e, hfirst⟩, tail, htail, rfl⟩ := Language.mem_mul.1 h
    obtain ⟨steps, rfl, hsteps⟩ := Language.mem_kstar.1 htail
    exact (Chain.operand hfirst).append_steps hsteps

/-- A row is an item, with a comma and another row behind it or without. -/
theorem words_row :
    words (Row Item) = words Item * (oneOf [.comma] * words (Row Item) + 1) := by
  ext ls
  rw [Language.mem_mul]
  constructor
  · rintro ⟨es, h⟩
    cases h with
    | @last ls e item => exact ⟨ls, ⟨e, item⟩, [], .inr rfl, List.append_nil ls⟩
    | @more ls ms comma e es item hcomma rest =>
        have htail : comma :: ms ∈ oneOf [.comma] * words (Row Item) :=
          cons_mem_oneOf_mul.2 ⟨by simp [hcomma], es, rest⟩
        exact ⟨ls, ⟨e, item⟩, comma :: ms, .inl htail, rfl⟩
  · rintro ⟨ms, ⟨e, item⟩, tail, htail | htail, rfl⟩
    · obtain ⟨comma, ns, rfl, hcomma, es, rest⟩ := mem_oneOf_mul.1 htail
      exact ⟨_, .more item (by simpa using hcomma) rest⟩
    · obtain rfl : tail = [] := htail
      rw [List.append_nil]
      exact ⟨_, .last item⟩

/-- The rows of lexemes that are operands, by the token in front: a numeral, a name with or
without a call behind it, a group, or a minus sign before an operand. -/
theorem words_operand :
    words Operand = oneOf [.number] +
      (oneOf [.identifier] * (oneOf [.leftParen] *
          (oneOf [.rightParen] * 1 + words (Row Expression) * oneOf [.rightParen]) + 1) +
        (oneOf [.leftParen] * (words Expression * oneOf [.rightParen]) +
          oneOf [.minus] * words Operand)) := by
  ext ls
  simp only [Language.mem_add, mem_oneOf_mul, List.mem_singleton]
  simp only [Language.mem_mul, mem_oneOf, mem_words, List.mem_singleton, Language.mem_one]
  constructor
  · rintro ⟨e, h⟩
    cases h with
    | @number l hkind => exact .inl ⟨l, rfl, hkind⟩
    | @ident l hkind => exact .inr (.inl ⟨l, [], rfl, hkind, .inr rfl⟩)
    | @callEmpty name opening closing hname hopening hclosing =>
        exact .inr (.inl ⟨name, _, rfl, hname,
          .inl ⟨opening, _, rfl, hopening, .inl ⟨closing, [], rfl, hclosing, rfl⟩⟩⟩)
    | @call name opening closing ls args hname hopening row hclosing =>
        exact .inr (.inl ⟨name, _, rfl, hname,
          .inl ⟨opening, _, rfl, hopening,
            .inr ⟨ls, ⟨args, row⟩, _, ⟨closing, rfl, hclosing⟩, rfl⟩⟩⟩)
    | @group opening closing ls e hopening inner hclosing =>
        exact .inr (.inr (.inl ⟨opening, _, rfl, hopening, ls, ⟨e, inner⟩, _,
          ⟨closing, rfl, hclosing⟩, rfl⟩))
    | @neg minus ls e hminus inner =>
        exact .inr (.inr (.inr ⟨minus, ls, rfl, hminus, e, inner⟩))
  · rintro (⟨l, rfl, hkind⟩ | ⟨name, _, rfl, hname, ⟨opening, _, rfl, hopening,
      ⟨closing, _, rfl, hclosing, rfl⟩ | ⟨ms, ⟨args, row⟩, _, ⟨closing, rfl, hclosing⟩, rfl⟩⟩ |
      rfl⟩ | ⟨opening, _, rfl, hopening, ms, ⟨e, inner⟩, _, ⟨closing, rfl, hclosing⟩, rfl⟩ |
      ⟨minus, ms, rfl, hminus, e, inner⟩)
    · exact ⟨_, .number hkind⟩
    · exact ⟨_, .callEmpty hname hopening hclosing⟩
    · exact ⟨_, .call hname hopening row hclosing⟩
    · exact ⟨_, .ident hname⟩
    · exact ⟨_, .group hopening inner hclosing⟩
    · exact ⟨_, .neg hminus inner⟩

end Expressions

/-! ### Declarations -/

section Declarations

variable {E : List Lexeme → Expr → Prop}

/-- A clause is its own token and its content, or nothing. -/
theorem words_clause {G : List Lexeme → α → Prop} :
    words (Clause kind G) = oneOf [kind] * words G + 1 := by
  ext ls
  simp only [Language.mem_add, mem_oneOf_mul, List.mem_singleton, Language.mem_one, mem_words]
  constructor
  · rintro ⟨o, h⟩
    cases h with
    | absent => exact .inr rfl
    | present hopening content => exact .inl ⟨_, _, rfl, hopening, _, content⟩
  · rintro (⟨opening, ms, rfl, hopening, a, content⟩ | rfl)
    · exact ⟨_, .present hopening content⟩
    · exact ⟨_, .absent⟩

/-- The kinds of token that are symbols. -/
def symbolKinds : List TokenKind := [.identifier, .plus, .minus, .leftBracket, .rightBracket]

/-- A lexeme writes a symbol exactly if it is of one of five kinds. -/
theorem SymbolMark.exists_iff {l : Lexeme} :
    (∃ symbol, SymbolMark l symbol) ↔ l.kind ∈ symbolKinds := by
  constructor
  · rintro ⟨symbol, h⟩
    exact h.kind_mem
  · intro h
    simp only [symbolKinds, List.mem_cons, List.not_mem_nil, or_false] at h
    rcases h with h | h | h | h | h
    · exact ⟨_, .named (by simp [h])⟩
    · exact ⟨_, .named (by simp [h])⟩
    · exact ⟨_, .named (by simp [h])⟩
    · exact ⟨_, .push h⟩
    · exact ⟨_, .pop h⟩

/-- A row of symbols is any number of lexemes of these kinds. Which of the kinds comes next is
never restricted. -/
theorem words_symbols : words Symbols = (oneOf symbolKinds)∗ := by
  ext ls
  induction ls with
  | nil => exact iff_of_true ⟨[], .nil⟩ (Language.nil_mem_kstar _)
  | cons l ls ih =>
      rw [← Language.one_add_self_mul_kstar_eq_kstar, Language.mem_add, cons_mem_oneOf_mul, ← ih,
        ← SymbolMark.exists_iff]
      constructor
      · rintro ⟨row, h⟩
        cases h with
        | cons hmark hrow => exact .inr ⟨⟨_, hmark⟩, _, hrow⟩
      · rintro (h | ⟨⟨symbol, hmark⟩, row, hrow⟩)
        · cases h
        · exact ⟨symbol :: row, .cons hmark hrow⟩

/-- A replacement is the sign of assignment with one symbol at least, or nothing. So the sign
alone is no replacement. -/
theorem words_replacement :
    words Replacement = oneOf [.assign] * (oneOf symbolKinds * (oneOf symbolKinds)∗) + 1 := by
  ext ls
  simp only [Language.mem_add, mem_oneOf_mul, List.mem_singleton, Language.mem_one,
    ← words_symbols, mem_words, ← SymbolMark.exists_iff]
  constructor
  · rintro ⟨body, h⟩
    cases h with
    | absent => exact .inr rfl
    | present hassign symbols hbody =>
        cases symbols with
        | nil => exact absurd rfl hbody
        | cons hmark hrow => exact .inl ⟨_, _, rfl, hassign, _, _, rfl, ⟨_, hmark⟩, _, hrow⟩
  · rintro (⟨assign, _, rfl, hassign, l, ms, rfl, ⟨symbol, hmark⟩, row, hrow⟩ | rfl)
    · exact ⟨_, .present hassign (.cons hmark hrow) (List.cons_ne_nil _ _)⟩
    · exact ⟨_, .absent⟩

/-- A unit is one of two words, or nothing. The parser asks for radians first. -/
theorem words_unitMark :
    words UnitMark = oneOf [.keyword .rad] * 1 + (oneOf [.keyword .deg] * 1 + 1) := by
  ext ls
  simp only [mul_one, Language.mem_add, mem_oneOf, List.mem_singleton, Language.mem_one, mem_words]
  constructor
  · rintro ⟨unit, h⟩
    cases h with
    | absent => exact .inr (.inr rfl)
    | deg hkind => exact .inr (.inl ⟨_, rfl, hkind⟩)
    | rad hkind => exact .inl ⟨_, rfl, hkind⟩
  · rintro (⟨l, rfl, hkind⟩ | ⟨l, rfl, hkind⟩ | rfl)
    · exact ⟨_, .rad hkind⟩
    · exact ⟨_, .deg hkind⟩
    · exact ⟨_, .absent⟩

/-- A color is one expression, or three with commas between them. A comma behind the first
expression settles which of the two it is. -/
theorem words_colorParts :
    words (ColorParts E) =
      words E * (oneOf [.comma] * (words E * (oneOf [.comma] * words E)) + 1) := by
  ext ls
  rw [Language.mem_mul]
  simp only [Language.mem_add, mem_oneOf_mul, List.mem_singleton, Language.mem_one]
  constructor
  · rintro ⟨c, h⟩
    cases h with
    | gray value => exact ⟨_, ⟨_, value⟩, [], .inr rfl, List.append_nil _⟩
    | rgb red hcomma green hcomma' blue =>
        have hblue := cons_mem_oneOf_mul.2 ⟨List.mem_singleton.2 hcomma', mem_words.2 ⟨_, blue⟩⟩
        have hgreen := Language.append_mem_mul (mem_words.2 ⟨_, green⟩) hblue
        exact ⟨_, ⟨_, red⟩, _, .inl ⟨_, _, rfl, hcomma, hgreen⟩, rfl⟩
  · rintro ⟨ms, ⟨r, red⟩, tail, ⟨comma, _, rfl, hcomma, hrest⟩ | rfl, rfl⟩
    · obtain ⟨ns, ⟨g, green⟩, _, hlast, rfl⟩ := Language.mem_mul.1 hrest
      obtain ⟨comma', ps, rfl, hcomma', b, blue⟩ := mem_oneOf_mul.1 hlast
      exact ⟨_, .rgb red hcomma green (List.mem_singleton.1 hcomma') blue⟩
    · rw [List.append_nil]
      exact ⟨_, .gray red⟩

/-- The look of a line is a clause for its width and one for its color, both of which may be
absent. -/
theorem words_look :
    words (Look E) =
      words (Clause (.keyword .width) E) * words (Clause (.keyword .color) (ColorParts E)) := by
  ext ls
  rw [Language.mem_mul]
  constructor
  · rintro ⟨look, h⟩
    cases h with
    | mk hwidth hcolor => exact ⟨_, ⟨_, hwidth⟩, _, ⟨_, hcolor⟩, rfl⟩
  · rintro ⟨ms, ⟨width, hwidth⟩, ns, ⟨color, hcolor⟩, rfl⟩
    exact ⟨_, .mk hwidth hcolor⟩

/-- A motion is a rotation or a translation, the second distance of which is a clause that a comma
opens. -/
theorem words_motionParts :
    words (MotionParts E) = oneOf [.keyword .rotate] * (words E * words UnitMark) +
      oneOf [.keyword .translate] * (words E * (words (Clause .comma E) * words (Look E))) := by
  ext ls
  simp only [Language.mem_add, mem_oneOf_mul, List.mem_singleton]
  constructor
  · rintro ⟨motion, h⟩
    cases h with
    | rotate hword hangle hunit =>
        exact .inl ⟨_, _, rfl, hword, Language.append_mem_mul ⟨_, hangle⟩ ⟨_, hunit⟩⟩
    | forward hword hdistance hlook =>
        have habsent : [] ∈ words (Clause .comma E) := ⟨none, .absent⟩
        have hrest := Language.append_mem_mul habsent (mem_words.2 ⟨_, hlook⟩)
        exact .inr ⟨_, _, rfl, hword, Language.append_mem_mul ⟨_, hdistance⟩ hrest⟩
    | shift hword hdx hcomma hdy hlook =>
        have hrest := Language.append_mem_mul
          (mem_words.2 ⟨_, Clause.present hcomma hdy⟩) (mem_words.2 ⟨_, hlook⟩)
        exact .inr ⟨_, _, rfl, hword, Language.append_mem_mul ⟨_, hdx⟩ hrest⟩
  · rintro (⟨word, _, rfl, hword, hrest⟩ | ⟨word, _, rfl, hword, hrest⟩)
    · obtain ⟨ms, ⟨angle, hangle⟩, ns, ⟨unit, hunit⟩, rfl⟩ := Language.mem_mul.1 hrest
      exact ⟨_, .rotate hword hangle hunit⟩
    · obtain ⟨ms, ⟨x, hx⟩, _, hmore, rfl⟩ := Language.mem_mul.1 hrest
      obtain ⟨ns, ⟨y, hy⟩, ps, ⟨look, hlook⟩, rfl⟩ := Language.mem_mul.1 hmore
      cases hy with
      | absent => exact ⟨_, .forward hword hx hlook⟩
      | present hcomma hdy => exact ⟨_, .shift hword hx hcomma hdy hlook⟩

/-- What may stand between the word of a declaration and its semicolon. -/
def bodies (E : List Lexeme → Expr → Prop) : Keyword → Language Lexeme
  | .var => oneOf [.identifier] * (oneOf [.assign] * words E)
  | .rule => oneOf [.identifier] * (words Replacement * words (Clause (.keyword .bias) E))
  | .start => words Symbols
  | .length | .width | .iterate => words E
  | .color => words (ColorParts E)
  | .transform => oneOf [.identifier, .plus, .minus] * words (MotionParts E)
  | .bias | .rotate | .translate | .rad | .deg => 0

/-- A declaration is told by its word. What may follow depends on the word and on nothing else. -/
theorem mem_words_declares {ls : List Lexeme} :
    ls ∈ words (Declares E) ↔
      ∃ l word rest, ls = l :: rest ∧ l.kind = .keyword word ∧ rest ∈ bodies E word := by
  constructor
  · rintro ⟨d, h⟩
    cases h with
    | var hword hname hassign hvalue =>
        refine ⟨_, .var, _, rfl, hword, cons_mem_oneOf_mul.2 ⟨by simp [hname], ?_⟩⟩
        exact cons_mem_oneOf_mul.2 ⟨by simp [hassign], _, hvalue⟩
    | rule hword hname hbody hbias =>
        refine ⟨_, .rule, _, rfl, hword, cons_mem_oneOf_mul.2 ⟨by simp [hname], ?_⟩⟩
        exact Language.append_mem_mul ⟨_, hbody⟩ ⟨_, hbias⟩
    | start hword hsymbols => exact ⟨_, .start, _, rfl, hword, _, hsymbols⟩
    | length hword hvalue => exact ⟨_, .length, _, rfl, hword, _, hvalue⟩
    | width hword hvalue => exact ⟨_, .width, _, rfl, hword, _, hvalue⟩
    | color hword hvalue => exact ⟨_, .color, _, rfl, hword, _, hvalue⟩
    | iterate hword hvalue => exact ⟨_, .iterate, _, rfl, hword, _, hvalue⟩
    | transform hword hname hmotion =>
        exact ⟨_, .transform, _, rfl, hword, cons_mem_oneOf_mul.2 ⟨hname, _, hmotion⟩⟩
  · rintro ⟨l, word, rest, rfl, hword, hrest⟩
    cases word with
    | var =>
        obtain ⟨name, _, rfl, hname, hvalue⟩ := mem_oneOf_mul.1 hrest
        obtain ⟨assign, ls, rfl, hassign, value, hvalue⟩ := mem_oneOf_mul.1 hvalue
        exact ⟨_, .var hword (List.mem_singleton.1 hname) (List.mem_singleton.1 hassign) hvalue⟩
    | rule =>
        obtain ⟨name, _, rfl, hname, hparts⟩ := mem_oneOf_mul.1 hrest
        obtain ⟨ls, ⟨body, hbody⟩, ms, ⟨bias, hbias⟩, rfl⟩ := Language.mem_mul.1 hparts
        exact ⟨_, .rule hword (List.mem_singleton.1 hname) hbody hbias⟩
    | start =>
        obtain ⟨row, hrow⟩ := hrest
        exact ⟨_, .start hword hrow⟩
    | length =>
        obtain ⟨value, hvalue⟩ := hrest
        exact ⟨_, .length hword hvalue⟩
    | width =>
        obtain ⟨value, hvalue⟩ := hrest
        exact ⟨_, .width hword hvalue⟩
    | color =>
        obtain ⟨value, hvalue⟩ := hrest
        exact ⟨_, .color hword hvalue⟩
    | iterate =>
        obtain ⟨value, hvalue⟩ := hrest
        exact ⟨_, .iterate hword hvalue⟩
    | transform =>
        obtain ⟨name, ls, rfl, hname, motion, hmotion⟩ := mem_oneOf_mul.1 hrest
        exact ⟨_, .transform hword hname hmotion⟩
    | bias => cases hrest
    | rotate => cases hrest
    | translate => cases hrest
    | rad => cases hrest
    | deg => cases hrest

/-- A program is any number of declarations, each with its semicolon. They do not depend on each
other. -/
theorem words_declarations :
    words (Declarations E) = (words (Declares E) * oneOf [.semicolon])∗ := by
  ext ls
  constructor
  · rintro ⟨p, h⟩
    induction h with
    | nil => exact Language.nil_mem_kstar _
    | @cons ls ms semicolon d ds first hsemicolon rest ih =>
        have hfirst : ls ++ [semicolon] ∈ words (Declares E) * oneOf [.semicolon] :=
          Language.append_mem_mul ⟨d, first⟩ (singleton_mem_oneOf.2 (by simp [hsemicolon]))
        have hle : words (Declares E) * oneOf [.semicolon] *
            (words (Declares E) * oneOf [.semicolon])∗ ≤
              (words (Declares E) * oneOf [.semicolon])∗ := mul_kstar_le_kstar
        have hmem := hle (Language.append_mem_mul hfirst ih)
        rwa [List.append_assoc] at hmem
  · intro h
    obtain ⟨parts, rfl, hparts⟩ := Language.mem_kstar.1 h
    clear h
    induction parts with
    | nil => exact ⟨[], .nil⟩
    | cons part parts ih =>
        rw [List.forall_mem_cons] at hparts
        obtain ⟨ls, ⟨d, hd⟩, _, ⟨semicolon, rfl, hsemicolon⟩, rfl⟩ :=
          Language.mem_mul.1 hparts.1
        obtain ⟨ds, hds⟩ := ih hparts.2
        rw [List.flatten_cons, List.append_assoc]
        exact ⟨_, .cons hd (List.mem_singleton.1 hsemicolon) hds⟩

end Declarations

end Grammar

end LSystem.Syntax
