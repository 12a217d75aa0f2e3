import LSystem.Syntax.Parser.Expression

/-!
# Plain reading of expressions

The grammar of expressions as a reader without limits, one function for each of
its rules.  A sum is a product and as many products as follow with a sign before
them, a product is a factor and as many factors as follow with `*` or `/` before
them, and both are folded to the left.

Every function answers with what is left, which is shorter, so that the
functions end.  Below them are the equations that leave this out.
-/

namespace LSystem.Syntax

namespace TokenStream

/-- What is left of a stream when something was taken off. -/
abbrev Shorter (s : TokenStream) := { rest : TokenStream // rest.length < s.length }

/-- What is left of a stream when nothing may have been taken off. -/
abbrev NotLonger (s : TokenStream) := { rest : TokenStream // rest.length ≤ s.length }

/-- Take something, then something more. -/
def Shorter.trans {s : TokenStream} (after : Shorter s) (rest : Shorter after.1) : Shorter s :=
  ⟨rest.1, Nat.lt_trans rest.2 after.2⟩

/-- Take something, then perhaps something more. -/
def Shorter.transLe {s : TokenStream} (after : Shorter s) (rest : NotLonger after.1) :
    Shorter s :=
  ⟨rest.1, Nat.lt_of_le_of_lt rest.2 after.2⟩

/-- The token in front and what is behind it.  Behind a token with a fault after
it is nothing to read. -/
def next? : (s : TokenStream) → Option (Token × Shorter s)
  | .token t rest => some (t, ⟨rest, Nat.lt_succ_self _⟩)
  | .cut _ _ => none
  | .finish _ => none

end TokenStream

open TokenStream

/-- The operator between two products. -/
def sumOperator? : TokenKind → Option Operator
  | .plus => some .add
  | .minus => some .sub
  | _ => none

/-- The operator between two factors. -/
def productOperator? : TokenKind → Option Operator
  | .star => some .mul
  | .slash => some .div
  | _ => none

namespace Plain

namespace Measured

mutual

/-- An expression: a product and what follows of a sum. -/
def sum (s : TokenStream) : Option (Expr × Shorter s) := do
  let (first, after) ← product s
  let (whole, rest) ← sumFrom first after.1
  return (whole, after.transLe rest)
termination_by (s.length, 4)
decreasing_by
  · exact .right _ (by decide)
  · exact .left _ _ after.2

/-- What follows of a sum with a given left side. -/
def sumFrom (left : Expr) (s : TokenStream) : Option (Expr × NotLonger s) :=
  match sumOperator? s.lookahead.kind with
  | none => some (left, ⟨s, Nat.le_refl _⟩)
  | some op => do
    let (_, behind) ← s.next?
    let (right, after) ← product behind.1
    let (whole, rest) ← sumFrom (.binary op left right) (behind.trans after).1
    return (whole, ⟨rest.1, Nat.le_of_lt ((behind.trans after).transLe rest).2⟩)
termination_by (s.length, 0)
decreasing_by
  · exact .left _ _ behind.2
  · exact .left _ _ (behind.trans after).2

/-- A product: a factor and what follows of it. -/
def product (s : TokenStream) : Option (Expr × Shorter s) := do
  let (first, after) ← factor s
  let (whole, rest) ← productFrom first after.1
  return (whole, after.transLe rest)
termination_by (s.length, 3)
decreasing_by
  · exact .right _ (by decide)
  · exact .left _ _ after.2

/-- What follows of a product with a given left side. -/
def productFrom (left : Expr) (s : TokenStream) : Option (Expr × NotLonger s) :=
  match productOperator? s.lookahead.kind with
  | none => some (left, ⟨s, Nat.le_refl _⟩)
  | some op => do
    let (_, behind) ← s.next?
    let (right, after) ← factor behind.1
    let (whole, rest) ← productFrom (.binary op left right) (behind.trans after).1
    return (whole, ⟨rest.1, Nat.le_of_lt ((behind.trans after).transLe rest).2⟩)
termination_by (s.length, 0)
decreasing_by
  · exact .left _ _ behind.2
  · exact .left _ _ (behind.trans after).2

/-- A factor: a minus sign with a factor behind it, or a primary expression. -/
def factor (s : TokenStream) : Option (Expr × Shorter s) :=
  if s.lookahead.kind = .minus then do
    let (_, behind) ← s.next?
    let (inner, after) ← factor behind.1
    return (.neg inner, behind.trans after)
  else primary s
termination_by (s.length, 2)
decreasing_by
  · exact .left _ _ behind.2
  · exact .right _ (by decide)

/-- A number, a name, a call, or an expression in parentheses. -/
def primary (s : TokenStream) : Option (Expr × Shorter s) := do
  let (t, behind) ← s.next?
  match t.kind with
  | .number => return (.num (Number.readNumeral t.text.toList), behind)
  | .identifier =>
    if behind.1.lookahead.kind = .leftParen then do
      let (_, inside) ← behind.1.next?
      let (args, after) ← arguments inside.1
      return (.call t.text args, (behind.trans inside).trans after)
    else return (.ident t.text, behind)
  | .leftParen => do
    let (inner, after) ← sum behind.1
    let (closing, rest) ← after.1.next?
    if closing.kind = .rightParen then
      return (.group inner, (behind.trans after).trans rest)
    else none
  | _ => none
termination_by (s.length, 1)
decreasing_by
  · exact .left _ _ (behind.trans inside).2
  · exact .left _ _ behind.2

/-- The arguments of a call, behind its opening parenthesis. -/
def arguments (s : TokenStream) : Option (List Expr × Shorter s) :=
  if s.lookahead.kind = .rightParen then do
    let (_, behind) ← s.next?
    return ([], behind)
  else row s
termination_by (s.length, 6)
decreasing_by exact .right _ (by decide)

/-- One or more arguments with commas between them, up to the closing parenthesis. -/
def row (s : TokenStream) : Option (List Expr × Shorter s) := do
  let (first, after) ← sum s
  let (mark, behind) ← after.1.next?
  match mark.kind with
  | .rightParen => return ([first], after.trans behind)
  | .comma => do
    let (others, rest) ← row behind.1
    return (first :: others, (after.trans behind).trans rest)
  | _ => none
termination_by (s.length, 5)
decreasing_by
  · exact .right _ (by decide)
  · exact .left _ _ (after.trans behind).2

end

end Measured

/-- An answer without the account of what is left. -/
def bare {α : Type} {P : TokenStream → Prop}
    (answer : Option (α × { rest : TokenStream // P rest })) : Option (α × TokenStream) :=
  answer.map fun read => (read.1, read.2.1)

/-- What is left of a measured answer is as short as it is said to be, also when the account of it
is left out. -/
theorem of_bare_eq_some {α : Type} {P : TokenStream → Prop}
    {answer : Option (α × { rest : TokenStream // P rest })} {a : α} {rest : TokenStream}
    (h : bare answer = some (a, rest)) : P rest := by
  obtain ⟨read, -, heq⟩ := Option.map_eq_some_iff.1 h
  cases heq
  exact read.2.2

/-! ### The rules of the grammar -/

/-- An expression and what is left behind it, if one can be read. -/
def sum (s : TokenStream) : Option (Expr × TokenStream) := bare (Measured.sum s)

def sumFrom (left : Expr) (s : TokenStream) : Option (Expr × TokenStream) :=
  bare (Measured.sumFrom left s)

def product (s : TokenStream) : Option (Expr × TokenStream) := bare (Measured.product s)

def productFrom (left : Expr) (s : TokenStream) : Option (Expr × TokenStream) :=
  bare (Measured.productFrom left s)

def factor (s : TokenStream) : Option (Expr × TokenStream) := bare (Measured.factor s)

def primary (s : TokenStream) : Option (Expr × TokenStream) := bare (Measured.primary s)

def arguments (s : TokenStream) : Option (List Expr × TokenStream) := bare (Measured.arguments s)

def row (s : TokenStream) : Option (List Expr × TokenStream) := bare (Measured.row s)

section Equations

variable {e : Expr} {s s' rest : TokenStream} {t : Token}

theorem sum_eq : sum s = (product s).bind fun read => sumFrom read.1 read.2 := by
  unfold sum product
  rw [Measured.sum]
  cases Measured.product s with
  | none => rfl
  | some read =>
    cases h : Measured.sumFrom read.1 read.2.1 <;> simp [bare, sumFrom, h, Shorter.transLe]

theorem product_eq : product s = (factor s).bind fun read => productFrom read.1 read.2 := by
  unfold product factor
  rw [Measured.product]
  cases Measured.factor s with
  | none => rfl
  | some read =>
    cases h : Measured.productFrom read.1 read.2.1 <;>
      simp [bare, productFrom, h, Shorter.transLe]

/-- Operands with operators between them are read and folded to the left. -/
structure FoldsLeft (operator? : TokenKind → Option Operator)
    (operand : TokenStream → Option (Expr × TokenStream))
    (readFrom : Expr → TokenStream → Option (Expr × TokenStream)) : Prop where
  stop : ∀ {left s}, operator? s.lookahead.kind = none → readFrom left s = some (left, s)
  next : ∀ {left op t rest}, operator? t.kind = some op →
    readFrom left (.token t rest) =
      (operand rest).bind fun read => readFrom (.binary op left read.1) read.2
  /-- An operator has to be taken. -/
  stuck : ∀ {left op s}, operator? s.lookahead.kind = some op → s.next? = none →
    readFrom left s = none
  shorter : ∀ {s e rest}, operand s = some (e, rest) → rest.length < s.length

/-- What follows of a sum are products with signs before them, folded to the left. -/
theorem foldsLeft_sum : FoldsLeft sumOperator? product sumFrom where
  stop h := by
    unfold sumFrom
    rw [Measured.sumFrom]
    simp [bare, h]
  next {left op t rest} h := by
    unfold sumFrom product
    rw [Measured.sumFrom]
    simp only [lookahead, h, next?, Option.bind_eq_bind, Option.bind_some]
    cases Measured.product rest with
    | none => rfl
    | some read =>
      cases hfrom : Measured.sumFrom (.binary op left read.1) read.2.1 <;>
        simp [bare, hfrom, Shorter.trans]
  stuck h hnext := by
    unfold sumFrom
    rw [Measured.sumFrom]
    simp [bare, h, hnext]
  shorter h := of_bare_eq_some h

/-- What follows of a product are factors with `*` or `/` before them, folded to the left. -/
theorem foldsLeft_product : FoldsLeft productOperator? factor productFrom where
  stop h := by
    unfold productFrom
    rw [Measured.productFrom]
    simp [bare, h]
  next {left op t rest} h := by
    unfold productFrom factor
    rw [Measured.productFrom]
    simp only [lookahead, h, next?, Option.bind_eq_bind, Option.bind_some]
    cases Measured.factor rest with
    | none => rfl
    | some read =>
      cases hfrom : Measured.productFrom (.binary op left read.1) read.2.1 <;>
        simp [bare, hfrom, Shorter.trans]
  stuck h hnext := by
    unfold productFrom
    rw [Measured.productFrom]
    simp [bare, h, hnext]
  shorter h := of_bare_eq_some h

/-- A minus sign in front makes the negation of the factor behind it, which may begin with another
one. -/
theorem factor_neg (h : t.kind = .minus) :
    factor (.token t rest) = (factor rest).map fun read => (.neg read.1, read.2) := by
  unfold factor
  rw [Measured.factor, lookahead, if_pos h]
  simp only [next?, Option.bind_eq_bind, Option.bind_some]
  cases Measured.factor rest <;> simp [bare, Shorter.trans]

/-- Without a minus sign in front a factor is a primary expression. -/
theorem factor_of_ne (h : s.lookahead.kind ≠ .minus) : factor s = primary s := by
  unfold factor primary
  rw [Measured.factor, if_neg h]

theorem factor_of_next_none (h : s.next? = none) : factor s = none := by
  unfold factor
  rw [Measured.factor, Measured.primary]
  simp [bare, h]

/-- A numeral is a primary expression whatever its value is; that it has to be finite is asked
elsewhere. -/
theorem primary_number (h : t.kind = .number) :
    primary (.token t rest) = some (.num (Number.readNumeral t.text.toList), rest) := by
  unfold primary
  rw [Measured.primary]
  simp [bare, next?, h]

/-- A name is a call where a parenthesis follows, and stands alone anywhere else. -/
theorem primary_ident (h : t.kind = .identifier) (hfollow : rest.lookahead.kind ≠ .leftParen) :
    primary (.token t rest) = some (.ident t.text, rest) := by
  unfold primary
  rw [Measured.primary]
  simp [bare, next?, h, hfollow]

/-- A name with an opening parenthesis behind it is a call, with the arguments that follow. -/
theorem primary_call {opening : Token} (h : t.kind = .identifier)
    (hopening : opening.kind = .leftParen) :
    primary (.token t (.token opening rest)) =
      (arguments rest).map fun read => (.call t.text read.1, read.2) := by
  unfold primary arguments
  rw [Measured.primary]
  simp only [next?, lookahead, h, hopening, if_pos, Option.bind_eq_bind, Option.bind_some]
  cases Measured.arguments rest <;> simp [bare, Shorter.trans]

/-- A name before a parenthesis that cannot be taken, since a fault is behind it, is nothing: the
call has begun and has no arguments. -/
theorem primary_call_of_next_none (h : t.kind = .identifier)
    (hopening : rest.lookahead.kind = .leftParen) (hnext : rest.next? = none) :
    primary (.token t rest) = none := by
  unfold primary
  rw [Measured.primary]
  cases rest with
  | token _ _ => cases hnext
  | cut _ _ => simp [bare, next?, h, hopening]
  | finish _ => simp [bare, next?, h, hopening]

/-- An opening parenthesis is a group if a sum and the closing parenthesis follow. -/
theorem primary_group (h : t.kind = .leftParen) :
    primary (.token t rest) = (sum rest).bind fun read =>
      match read.2 with
      | .token closing after =>
        if closing.kind = .rightParen then some (.group read.1, after) else none
      | _ => none := by
  unfold primary sum
  rw [Measured.primary]
  simp only [next?, h, Option.bind_eq_bind, Option.bind_some]
  cases Measured.sum rest with
  | none => rfl
  | some read =>
    obtain ⟨inner, ⟨after, hlt⟩⟩ := read
    cases after with
    | cut _ _ => rfl
    | finish _ => rfl
    | token closing after =>
      by_cases hclosing : closing.kind = .rightParen <;> simp [bare, hclosing, Shorter.trans]

/-- No other kind of token begins a primary expression. -/
theorem primary_of_other (hnumber : t.kind ≠ .number) (hident : t.kind ≠ .identifier)
    (hgroup : t.kind ≠ .leftParen) : primary (.token t rest) = none := by
  unfold primary
  rw [Measured.primary]
  simp [bare, next?]

theorem primary_of_next_none (h : s.next? = none) : primary s = none := by
  unfold primary
  rw [Measured.primary]
  simp [bare, h]

/-- A row is an argument and the closing parenthesis, or an argument, a comma and another row. -/
theorem row_eq : row s = (sum s).bind fun read =>
    match read.2 with
    | .token mark rest =>
      match mark.kind with
      | .rightParen => some ([read.1], rest)
      | .comma => (row rest).map fun others => (read.1 :: others.1, others.2)
      | _ => none
    | _ => none := by
  unfold row sum
  rw [Measured.row]
  cases Measured.sum s with
  | none => rfl
  | some read =>
    obtain ⟨first, ⟨after, hlt⟩⟩ := read
    cases after with
    | cut _ _ => rfl
    | finish _ => rfl
    | token mark rest =>
      simp only [next?, bare, Option.bind_eq_bind, Option.bind_some, Option.map_some]
      split
      · rfl
      · cases Measured.row rest <;> simp [Shorter.trans]
      · rfl

/-- What a primary expression can be. -/
inductive Primary : TokenStream → Expr → TokenStream → Prop
  | number {t : Token} {rest : TokenStream} (hkind : t.kind = .number) :
      Primary (.token t rest) (.num (Number.readNumeral t.text.toList)) rest
  | ident {t : Token} {rest : TokenStream} (hkind : t.kind = .identifier)
      (hfollow : rest.lookahead.kind ≠ .leftParen) : Primary (.token t rest) (.ident t.text) rest
  | call {t opening : Token} {inside s' : TokenStream} {args : List Expr}
      (hkind : t.kind = .identifier) (hopening : opening.kind = .leftParen)
      (hargs : arguments inside = some (args, s')) :
      Primary (.token t (.token opening inside)) (.call t.text args) s'
  | group {t closing : Token} {inside s' : TokenStream} {inner : Expr}
      (hkind : t.kind = .leftParen) (hinner : sum inside = some (inner, .token closing s'))
      (hclosing : closing.kind = .rightParen) : Primary (.token t inside) (.group inner) s'

/-- The reader of primary expressions answers exactly in the four ways that `Primary` lists. The
equations above are turned into a relation here, so that proofs can split on it. -/
theorem primary_eq_some_iff : primary s = some (e, s') ↔ Primary s e s' := by
  constructor
  · intro h
    cases s with
    | cut _ _ => cases (primary_of_next_none rfl).symm.trans h
    | finish _ => cases (primary_of_next_none rfl).symm.trans h
    | token t rest =>
      by_cases hnumber : t.kind = .number
      · cases (primary_number hnumber).symm.trans h
        exact .number hnumber
      by_cases hident : t.kind = .identifier
      · by_cases hopening : rest.lookahead.kind = .leftParen
        · cases rest with
          | cut _ _ => cases (primary_call_of_next_none hident hopening rfl).symm.trans h
          | finish _ => cases (primary_call_of_next_none hident hopening rfl).symm.trans h
          | token opening inside =>
            rw [primary_call hident (show opening.kind = .leftParen from hopening)] at h
            obtain ⟨⟨args, after⟩, hargs, heq⟩ := Option.map_eq_some_iff.1 h
            cases heq
            exact .call hident hopening hargs
        · cases (primary_ident hident hopening).symm.trans h
          exact .ident hident hopening
      by_cases hgroup : t.kind = .leftParen
      · rw [primary_group hgroup] at h
        obtain ⟨⟨inner, after⟩, hinner, hclose⟩ := Option.bind_eq_some_iff.1 h
        cases after with
        | cut _ _ => cases hclose
        | finish _ => cases hclose
        | token closing after =>
          obtain ⟨hclosing, heq⟩ := Option.ite_none_right_eq_some.1 hclose
          cases heq
          exact .group hgroup hinner hclosing
      · cases (primary_of_other hnumber hident hgroup).symm.trans h
  · intro h
    cases h with
    | number hkind => exact primary_number hkind
    | ident hkind hfollow => exact primary_ident hkind hfollow
    | call hkind hopening hargs =>
      rw [primary_call hkind hopening, hargs]
      rfl
    | group hkind hinner hclosing =>
      rw [primary_group hkind, hinner, Option.bind_some]
      exact if_pos hclosing

/-- What the arguments of a call can be, behind the parenthesis. -/
inductive Arguments : TokenStream → List Expr → TokenStream → Prop
  | none {closing : Token} {rest : TokenStream} (hclosing : closing.kind = .rightParen) :
      Arguments (.token closing rest) [] rest
  | some {s s' : TokenStream} {args : List Expr} (hopen : s.lookahead.kind ≠ .rightParen)
      (hrow : row s = some (args, s')) : Arguments s args s'

/-- The reader of arguments answers with none before a closing parenthesis, and otherwise with a
row. -/
theorem arguments_eq_some_iff {args : List Expr} :
    arguments s = some (args, s') ↔ Arguments s args s' := by
  unfold arguments
  rw [Measured.arguments]
  by_cases hclosing : s.lookahead.kind = .rightParen
  · rw [if_pos hclosing]
    constructor
    · intro h
      cases s with
      | cut _ _ => simp [bare, next?] at h
      | finish _ => simp [bare, next?] at h
      | token closing rest =>
        obtain ⟨rfl, rfl⟩ : [] = args ∧ rest = s' := by simpa [bare, next?] using h
        exact .none hclosing
    · intro h
      cases h with
      | none _ => simp [bare, next?]
      | some hopen _ => exact absurd hclosing hopen
  · rw [if_neg hclosing]
    constructor
    · intro h
      exact .some hclosing h
    · intro h
      cases h with
      | none hkind => exact absurd hkind hclosing
      | some _ hrow => exact hrow

/-- What a row of arguments can be. -/
inductive Row : TokenStream → List Expr → TokenStream → Prop
  | last {s rest : TokenStream} {closing : Token} {e : Expr}
      (hlast : sum s = some (e, .token closing rest)) (hclosing : closing.kind = .rightParen) :
      Row s [e] rest
  | more {s rest s' : TokenStream} {comma : Token} {e : Expr} {es : List Expr}
      (hfirst : sum s = some (e, .token comma rest)) (hcomma : comma.kind = .comma)
      (hothers : row rest = some (es, s')) : Row s (e :: es) s'

/-- The reader of rows answers exactly in the two ways that `Row` lists. A sum alone is no row, as
something has to close it. -/
theorem row_eq_some_iff {es : List Expr} : row s = some (es, s') ↔ Row s es s' := by
  constructor
  · intro h
    rw [row_eq] at h
    obtain ⟨⟨first, after⟩, hfirst, hafter⟩ := Option.bind_eq_some_iff.1 h
    cases after with
    | cut _ _ => cases hafter
    | finish _ => cases hafter
    | token mark rest =>
      simp only at hafter
      split at hafter
      · cases hafter
        exact .last hfirst ‹_›
      · obtain ⟨⟨others, behind⟩, hothers, heq⟩ := Option.map_eq_some_iff.1 hafter
        cases heq
        exact .more hfirst ‹_› hothers
      · cases hafter
  · intro h
    cases h with
    | last hlast hclosing =>
      rw [row_eq, hlast]
      simp only [Option.bind_some, hclosing]
    | more hfirst hcomma hothers =>
      rw [row_eq, hfirst]
      simp only [Option.bind_some, hcomma, hothers, Option.map_some]

end Equations

end Plain

end LSystem.Syntax
