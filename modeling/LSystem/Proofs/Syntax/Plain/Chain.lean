import LSystem.Except
import LSystem.Proofs.Syntax.Expression
import LSystem.Proofs.Syntax.Plain.Reader

/-!
# Chains against the plain grammar

The reader of chains keeps a list of operands that wait, and counts levels on
its way down and heights on its way up.  `Pending.resume` says what the plain
grammar makes of such a list: the sums and products that are still open, read on
from where the chain stands.  A round of the loop takes one factor off both.

No tree that the reader builds on the way is higher than the tree that it ends
with, nor has it other numbers; so the limits it checks at every step are the
limits on the whole expression.
-/

namespace LSystem.Syntax

open LSystem.Syntax.Parser

/-! ### Limits on expressions -/

mutual

/-- The numbers that are written in an expression. -/
def Expr.literals : Expr → List Float
  | .num value => [value]
  | .ident _ => []
  | .call _ args => Expr.literalsOf args
  | .group inner => inner.literals
  | .binary _ left right => left.literals ++ right.literals
  | .neg inner => inner.literals

/-- The numbers that are written in some expressions. -/
def Expr.literalsOf : List Expr → List Float
  | [] => []
  | e :: es => e.literals ++ Expr.literalsOf es

end

/-- Whether an expression is no higher than a limit and has finite numbers only. -/
structure Expr.Within (limit : Nat) (e : Expr) : Prop where
  height : e.height ≤ limit
  finite : ∀ x ∈ e.literals, x.isFinite = true

/-- One expression has no more levels than another, and no other numbers. -/
structure Expr.Part (part whole : Expr) : Prop where
  height : part.height ≤ whole.height
  literals : part.literals ⊆ whole.literals

namespace Expr

variable {a b c e : Expr} {op : Operator} {limit : Nat}

theorem Part.refl (e : Expr) : e.Part e := ⟨Nat.le_refl _, List.Subset.refl _⟩

theorem Part.trans (h : a.Part b) (h' : b.Part c) : a.Part c :=
  ⟨Nat.le_trans h.height h'.height, List.Subset.trans h.literals h'.literals⟩

theorem part_left (op : Operator) (a b : Expr) : a.Part (.binary op a b) := by
  refine ⟨?_, ?_⟩
  · rw [height]
    omega
  · rw [literals]
    exact List.subset_append_left _ _

theorem part_right (op : Operator) (a b : Expr) : b.Part (.binary op a b) := by
  refine ⟨?_, ?_⟩
  · rw [height]
    omega
  · rw [literals]
    exact List.subset_append_right _ _

/-- The parts of an expression within a limit are within it, so a limit on the whole is one on all
that was built on the way. -/
theorem Within.of_part (h : b.Within limit) (hpart : a.Part b) : a.Within limit :=
  ⟨Nat.le_trans hpart.height h.height, fun x hx => h.finite x (hpart.literals hx)⟩

theorem Within.mono {larger : Nat} (h : e.Within limit) (hle : limit ≤ larger) : e.Within larger :=
  ⟨Nat.le_trans h.height hle, h.finite⟩

end Expr

/-! ### Parts of sums and products -/

namespace Plain

variable {operator? : TokenKind → Option Operator}
  {operand : TokenStream → Option (Expr × TokenStream)}
  {readFrom : Expr → TokenStream → Option (Expr × TokenStream)} {left e : Expr}
  {s s' : TokenStream}

/-- A chain goes on until no operator of its own follows, and keeps its left side. -/
theorem FoldsLeft.spec (h : FoldsLeft operator? operand readFrom)
    (hread : readFrom left s = some (e, s')) :
    left.Part e ∧ operator? s'.lookahead.kind = none := by
  induction hn : s.length using Nat.strongRecOn generalizing left s with
  | ind n ih =>
    cases hop : operator? s.lookahead.kind with
    | none =>
      rw [h.stop hop] at hread
      cases hread
      exact ⟨.refl _, hop⟩
    | some op =>
      cases s with
      | token t rest =>
        rw [h.next (t := t) hop] at hread
        obtain ⟨⟨right, after⟩, hright, hrest⟩ := Option.bind_eq_some_iff.1 hread
        have hlt : after.length < rest.length := h.shorter hright
        have hshorter : after.length < n := by
          rw [← hn, TokenStream.length]
          omega
        obtain ⟨hpart, hend⟩ := ih _ hshorter hrest rfl
        exact ⟨(Expr.part_left op left right).trans hpart, hend⟩
      | cut _ _ =>
        rw [h.stuck hop rfl] at hread
        cases hread
      | finish _ =>
        rw [h.stuck hop rfl] at hread
        cases hread

end Plain

/-! ### Open sums and products -/

open Plain

/-- What the plain grammar makes of operands that wait and one that is complete:
it ends the product that is open, and the sum. -/
def Pending.resume : Pending → Expr → TokenStream → Option (Expr × TokenStream)
  | [], current, s => (productFrom current s).bind fun read => sumFrom read.1 read.2
  | (left, op) :: rest, current, s =>
    if op.precedence = 0 then
      (productFrom current s).bind fun read => resume rest (.binary op left.expr read.1) read.2
    else resume rest (.binary op left.expr current) s

section Chains

variable {operand : Parser Operand} {pending pending' : Pending} {left current current' : Operand}
  {whole : Operand} {e : Expr} {op : Operator} {kind : TokenKind} {limit : Nat}
  {s s' rest : TokenStream} {t : Token}

/-- A sum is its first factor, read on with nothing waiting. -/
theorem sum_eq_resume : sum s = (factor s).bind fun read => Pending.resume [] read.1 read.2 := by
  rw [sum_eq, product_eq, Option.bind_assoc]
  rfl

/-- The operand that is complete is part of what comes of it. It becomes the side of an operator,
again and again, and no side is lost. -/
theorem Pending.part_of_resume {current : Expr} (h : pending.resume current s = some (e, s')) :
    current.Part e := by
  induction pending generalizing current s with
  | nil =>
    obtain ⟨⟨whole, after⟩, hproduct, hsum⟩ := Option.bind_eq_some_iff.1 h
    exact (foldsLeft_product.spec hproduct).1.trans (foldsLeft_sum.spec hsum).1
  | cons waiting outer ih =>
    obtain ⟨left, op⟩ := waiting
    rw [resume] at h
    split at h
    · obtain ⟨⟨whole, after⟩, hproduct, h⟩ := Option.bind_eq_some_iff.1 h
      have hpart := (foldsLeft_product.spec hproduct).1
      exact (hpart.trans (Expr.part_right op left.expr whole)).trans (ih h)
    · exact (Expr.part_right op left.expr current).trans (ih h)

/-- Where no product goes on, the innermost operator has both its sides. -/
theorem Pending.resume_of_no_product {current : Expr}
    (hkind : productOperator? s.lookahead.kind = none) :
    resume ((left, op) :: pending) current s = resume pending (.binary op left.expr current) s := by
  rw [resume, foldsLeft_product.stop hkind]
  split <;> rfl

/-- A product that has been read to its end leaves a sum. -/
theorem Pending.bind_resume_nil {current : Expr} (f : Expr → Expr) :
    ((productFrom current s).bind fun read => resume [] (f read.1) read.2) =
      (productFrom current s).bind fun read => sumFrom (f read.1) read.2 := by
  cases hproduct : productFrom current s with
  | none => rfl
  | some read =>
    rw [Option.bind_some, Option.bind_some, resume,
      foldsLeft_product.stop (foldsLeft_product.spec hproduct).2, Option.bind_some]

/-- Two operands that are combined make the tree of their operator, whatever is recorded of their
heights. -/
theorem Operand.expr_of_combine {right o : Operand} (h : left.combine op right = .ok o) :
    o.expr = .binary op left.expr right.expr := by
  unfold combine nested at h
  split at h
  · cases h
  · cases h
    rfl

/-! ### The operators of sums and of products -/

/-- An operator of the lowest precedence goes on with a sum and ends a product. -/
theorem Operator.of_sum (h : Operator.ofKind? kind = some op) (hprecedence : op.precedence = 0) :
    sumOperator? kind = some op ∧ productOperator? kind = none := by
  rw [ofKind?_eq_some_iff.1 h]
  cases op <;> first | exact ⟨rfl, rfl⟩ | cases hprecedence

/-- An operator of a higher precedence goes on with a product. -/
theorem Operator.of_product (h : Operator.ofKind? kind = some op)
    (hprecedence : op.precedence ≠ 0) : productOperator? kind = some op := by
  rw [ofKind?_eq_some_iff.1 h]
  cases op <;> first | rfl | exact absurd rfl hprecedence

theorem Operator.of_none (h : Operator.ofKind? kind = none) :
    sumOperator? kind = none ∧ productOperator? kind = none := by
  cases kind <;> first | exact ⟨rfl, rfl⟩ | cases h

/-! ### One step of the chain -/

/-- An operator behind an operand: the plain grammar reads a factor, and then goes on as the
reader of chains does. -/
theorem Pending.resume_operator (hop : Operator.ofKind? t.kind = some op)
    (hreduce : pending.reduce op current = .ok (pending', current')) :
    pending.resume current.expr (.token t rest) =
      (factor rest).bind fun read => resume ((current', op) :: pending') read.1 read.2 := by
  induction pending generalizing current with
  | nil =>
    obtain ⟨rfl, rfl⟩ : [] = pending' ∧ current = current' := by simpa [reduce] using hreduce
    by_cases hprecedence : op.precedence = 0
    · obtain ⟨hsum, hproduct⟩ := Operator.of_sum hop hprecedence
      simp only [resume, if_pos hprecedence]
      rw [foldsLeft_product.stop (s := .token t rest) hproduct, Option.bind_some,
        foldsLeft_sum.next hsum, product_eq, Option.bind_assoc]
      congr 1
      funext read
      exact (bind_resume_nil (.binary op current.expr)).symm
    · simp only [resume, if_neg hprecedence]
      rw [foldsLeft_product.next (Operator.of_product hop hprecedence), Option.bind_assoc]
  | cons waiting outer ih =>
    obtain ⟨left, inner⟩ := waiting
    rw [reduce] at hreduce
    split at hreduce
    · rename_i hle
      obtain ⟨combined, hcombine, hreduce⟩ := bind_eq_ok hreduce
      rw [← ih hreduce, Operand.expr_of_combine hcombine]
      by_cases hinner : inner.precedence = 0
      · exact resume_of_no_product (s := .token t rest) (Operator.of_sum hop (by omega)).2
      · rw [resume, if_neg hinner]
    · rename_i hlt
      obtain ⟨rfl, rfl⟩ : (left, inner) :: outer = pending' ∧ current = current' := by
        simpa using hreduce
      have hprecedence : op.precedence ≠ 0 := by omega
      have hinner : inner.precedence = 0 := by
        cases inner <;> cases op <;> simp [Operator.precedence] at hlt ⊢
      simp only [resume, if_pos hinner, if_neg hprecedence]
      rw [foldsLeft_product.next (Operator.of_product hop hprecedence), Option.bind_assoc]

/-- No operator behind an operand: the plain grammar ends as the reader of chains does. -/
theorem Pending.resume_end (hkind : Operator.ofKind? s.lookahead.kind = none)
    (hreduce : pending.reduceAll current = .ok whole) :
    pending.resume current.expr s = some (whole.expr, s) := by
  obtain ⟨hsum, hproduct⟩ := Operator.of_none hkind
  induction pending generalizing current with
  | nil =>
    obtain rfl : current = whole := by simpa [reduceAll] using hreduce
    rw [resume, foldsLeft_product.stop hproduct, Option.bind_some, foldsLeft_sum.stop hsum]
  | cons waiting outer ih =>
    obtain ⟨combined, hcombine, hreduce⟩ := bind_eq_ok hreduce
    rw [resume_of_no_product hproduct, ← ih hreduce, Operand.expr_of_combine hcombine]

/-! ### Readers that follow the plain grammar -/

/-- The recorded height of an operand is that of its tree, which is within the limits. -/
structure Operand.Sure (o : Operand) : Prop where
  counted : o.height = o.expr.height
  within : o.expr.Within maxNesting

/-- What the parser reads, the plain grammar reads as well. -/
def Tracks (p : Parser Operand) (read : TokenStream → Option (Expr × TokenStream)) : Prop :=
  ∀ s o s', p.run s = (.ok o, s') → read s = some (o.expr, s') ∧ o.Sure

/-- What the plain grammar reads within a limit, the parser reads as well. -/
def Reaches (limit : Nat) (p : Parser Operand)
    (read : TokenStream → Option (Expr × TokenStream)) : Prop :=
  ∀ s e s', read s = some (e, s') → e.Within limit → p.run s = (.ok ⟨e, e.height⟩, s')

/-- A node that passes the check of its height is sure, if its numbers are finite. -/
theorem Operand.sure_of_nested {height : Nat} {o : Operand} (hheight : height = e.height)
    (hfinite : ∀ x ∈ e.literals, x.isFinite = true) (h : Operand.nested e height = .ok o) :
    o.expr = e ∧ o.Sure := by
  obtain ⟨rfl, hcounted, hle⟩ := fits_of_nested hheight h
  exact ⟨rfl, hcounted, hcounted ▸ hle, hfinite⟩

/-- Two sure operands that are combined make a sure one: the check of the height has passed and
the numbers are theirs. -/
theorem Operand.sure_of_combine {right o : Operand} (hleft : left.Sure) (hright : right.Sure)
    (h : left.combine op right = .ok o) : o.Sure := by
  refine (sure_of_nested ?_ ?_ h).2
  · rw [hleft.counted, hright.counted, Expr.height]
  · rw [Expr.literals]
    exact List.forall_mem_append.2 ⟨hleft.within.finite, hright.within.finite⟩

/-- All operands that wait are sure. -/
def Pending.Sure (pending : Pending) : Prop := ∀ waiting ∈ pending, waiting.1.Sure

/-- A reduction before an operator keeps all operands sure, those that still wait and the one that
was built. -/
theorem Pending.sure_of_reduce (hpending : pending.Sure) (hcurrent : current.Sure)
    (h : pending.reduce op current = .ok (pending', current')) :
    Pending.Sure ((current', op) :: pending') := by
  induction pending generalizing current with
  | nil =>
    obtain ⟨rfl, rfl⟩ : [] = pending' ∧ current = current' := by simpa [reduce] using h
    exact List.forall_mem_cons.2 ⟨hcurrent, hpending⟩
  | cons waiting outer ih =>
    obtain ⟨hwaiting, houter⟩ := List.forall_mem_cons.1 hpending
    rw [reduce] at h
    split at h
    · obtain ⟨combined, hcombine, h⟩ := bind_eq_ok h
      exact ih houter (Operand.sure_of_combine hwaiting hcurrent hcombine) h
    · obtain ⟨rfl, rfl⟩ : waiting :: outer = pending' ∧ current = current' := by simpa using h
      exact List.forall_mem_cons.2 ⟨hcurrent, hpending⟩

/-- The reduction at the end of a chain keeps them sure as well, so the whole chain is. -/
theorem Pending.sure_of_reduceAll (hpending : pending.Sure) (hcurrent : current.Sure)
    (h : pending.reduceAll current = .ok whole) : whole.Sure := by
  induction pending generalizing current with
  | nil =>
    obtain rfl : current = whole := by simpa [reduceAll] using h
    exact hcurrent
  | cons waiting outer ih =>
    obtain ⟨hwaiting, houter⟩ := List.forall_mem_cons.1 hpending
    obtain ⟨combined, hcombine, h⟩ := bind_eq_ok h
    exact ih houter (Operand.sure_of_combine hwaiting hcurrent hcombine) h

/-! ### Chains, from the parser to the grammar -/

/-- What a round of the loop does when it goes well. It ends the chain without taking anything, or
it takes an operator and an operand, after giving those operators their right sides that bind as
tightly. -/
theorem run_chainStep_cases {state : Pending × Operand} {answer : (Pending × Operand) ⊕ Operand}
    (h : (chainStep operand state).run s = (.ok answer, s')) :
    (∃ whole, answer = .inr whole ∧ s = s' ∧ Operator.ofKind? s.lookahead.kind = none ∧
        state.1.reduceAll state.2 = .ok whole) ∨
      ∃ t rest op pending current right, answer = .inl ((current, op) :: pending, right) ∧
        s = .token t rest ∧ Operator.ofKind? t.kind = some op ∧
        state.1.reduce op state.2 = .ok (pending, current) ∧
        operand.run rest = (.ok right, s') := by
  rw [chainStep, run_lookahead_bind] at h
  split at h
  · rename_i hkind
    obtain ⟨whole, after, hexcept, hpure⟩ := run_bind_eq_ok h
    obtain ⟨hreduce, rfl⟩ := run_ofExcept_eq_ok hexcept
    cases hpure
    exact .inl ⟨whole, rfl, rfl, hkind, hreduce⟩
  · rename_i op hkind
    obtain ⟨⟨pending, current⟩, after, hexcept, htake⟩ := run_bind_eq_ok h
    obtain ⟨hreduce, rfl⟩ := run_ofExcept_eq_ok hexcept
    obtain ⟨t, rest, hmark, hoperand⟩ := run_bind_eq_ok htake
    obtain ⟨rfl, -⟩ := run_consume_eq_ok op.kind_ne_finish hmark
    obtain ⟨right, after, hright, hpure⟩ := run_bind_eq_ok hoperand
    cases hpure
    exact .inr ⟨t, rest, op, pending, current, right, rfl, rfl, hkind, hreduce, hright⟩

/-- What the loop of a chain reads, with operands waiting, the plain grammar reads on with the
same operands open. The induction is on what is left of the stream, for any operands that wait. -/
theorem tracks_loop (hoperand : Tracks operand factor) (hpending : pending.Sure)
    (hcurrent : current.Sure)
    (h : (loop (chainStep operand) (advances_chainStep operand) (pending, current)).run s =
      (.ok whole, s')) :
    pending.resume current.expr s = some (whole.expr, s') ∧ whole.Sure := by
  induction hn : s.length using Nat.strongRecOn generalizing pending current s with
  | ind n ih =>
    rw [run_loop] at h
    match hround : (chainStep operand (pending, current)).run s with
    | (.error fault, after) =>
      rw [hround] at h
      cases h
    | (.ok (.inr o), after) =>
      rw [hround] at h
      cases h
      obtain ⟨whole, heq, rfl, hkind, hreduce⟩ | ⟨_, _, _, _, _, _, heq, _⟩ :=
        run_chainStep_cases hround
      · cases heq
        exact ⟨Pending.resume_end hkind hreduce,
          Pending.sure_of_reduceAll hpending hcurrent hreduce⟩
      · cases heq
    | (.ok (.inl next), after) =>
      rw [hround] at h
      obtain ⟨_, heq, _⟩ |
          ⟨t, rest, op, pending', current', right, heq, rfl, hkind, hreduce, hright⟩ :=
        run_chainStep_cases hround
      · cases heq
      · cases heq
        have hlt : after.length < n := hn ▸ advances_chainStep operand _ _ _ _ hround
        obtain ⟨hfactor, hsure⟩ := hoperand rest right after hright
        obtain ⟨hresume, hwhole⟩ :=
          ih _ hlt (Pending.sure_of_reduce hpending hcurrent hreduce) hsure h rfl
        refine ⟨?_, hwhole⟩
        rw [Pending.resume_operator hkind hreduce, hfactor, Option.bind_some, hresume]

/-- Chains of operands that follow the grammar follow it. The first operand begins the product and
the sum, with nothing waiting. -/
theorem tracks_chain (hoperand : Tracks operand factor) : Tracks (chain operand) sum := by
  intro s o s' h
  obtain ⟨first, after, hfirst, hloop⟩ := run_bind_eq_ok h
  obtain ⟨hfactor, hsure⟩ := hoperand s first after hfirst
  obtain ⟨hresume, hwhole⟩ := tracks_loop hoperand (List.forall_mem_nil _) hsure hloop
  refine ⟨?_, hwhole⟩
  rw [sum_eq_resume, hfactor, Option.bind_some, hresume]

/-! ### Chains, from the grammar to the parser -/

/-- An operator that cannot be taken ends the plain grammar as well. Whatever is open has to be
closed by something behind the operator. -/
theorem Pending.resume_stuck {current : Expr} (hop : Operator.ofKind? s.lookahead.kind = some op)
    (hnext : s.next? = none) : pending.resume current s = none := by
  induction pending generalizing current with
  | nil =>
    by_cases hprecedence : op.precedence = 0
    · obtain ⟨hsum, hproduct⟩ := Operator.of_sum hop hprecedence
      rw [resume, foldsLeft_product.stop hproduct, Option.bind_some,
        foldsLeft_sum.stuck hsum hnext]
    · rw [resume, foldsLeft_product.stuck (Operator.of_product hop hprecedence) hnext,
        Option.bind_none]
  | cons waiting outer ih =>
    by_cases hprecedence : op.precedence = 0
    · rw [resume_of_no_product (Operator.of_sum hop hprecedence).2, ih]
    · rw [resume, foldsLeft_product.stuck (Operator.of_product hop hprecedence) hnext,
        Option.bind_none, ih, ite_self]

/-- A tree that is part of one within the limit can be built. -/
theorem Operand.exists_combine {right : Operand} (hleft : left.Sure) (hright : right.Sure)
    (hpart : (Expr.binary op left.expr right.expr).Part e) (he : e.height ≤ maxNesting) :
    ∃ combined, left.combine op right = .ok combined ∧
      combined.expr = .binary op left.expr right.expr ∧ combined.Sure := by
  have hheight : max left.height right.height + 1 ≤ maxNesting := by
    have hle := hpart.height
    rw [Expr.height, ← hleft.counted, ← hright.counted] at hle
    omega
  have hcombine : left.combine op right = .ok ⟨.binary op left.expr right.expr, _⟩ :=
    nested_of_le hheight
  exact ⟨_, hcombine, rfl, sure_of_combine hleft hright hcombine⟩

/-- Where the whole is within the limit, an operator finds room. The nodes that it makes are parts
of the whole, so none of them is too high. -/
theorem Pending.exists_reduce (hpending : pending.Sure) (hcurrent : current.Sure)
    (hop : Operator.ofKind? s.lookahead.kind = some op)
    (h : pending.resume current.expr s = some (e, s')) (he : e.height ≤ maxNesting) :
    ∃ pending' current', pending.reduce op current = .ok (pending', current') := by
  induction pending generalizing current with
  | nil => exact ⟨[], current, rfl⟩
  | cons waiting outer ih =>
    obtain ⟨left, inner⟩ := waiting
    obtain ⟨hleft, houter⟩ := List.forall_mem_cons.1 hpending
    rw [reduce]
    by_cases hle : op.precedence ≤ inner.precedence
    · rw [if_pos hle]
      have hresume : resume outer (.binary inner left.expr current.expr) s = some (e, s') := by
        by_cases hinner : inner.precedence = 0
        · rwa [resume_of_no_product (Operator.of_sum hop (by omega)).2] at h
        · rwa [resume, if_neg hinner] at h
      obtain ⟨combined, hcombine, hexpr, hsure⟩ :=
        Operand.exists_combine hleft hcurrent (part_of_resume hresume) he
      rw [hcombine]
      exact ih houter hsure (hexpr ▸ hresume)
    · rw [if_neg hle]
      exact ⟨_, _, rfl⟩

/-- Where the whole is within the limit, it can be built at the end of the chain. -/
theorem Pending.reduceAll_of_resume (hpending : pending.Sure) (hcurrent : current.Sure)
    (hkind : Operator.ofKind? s.lookahead.kind = none)
    (h : pending.resume current.expr s = some (e, s')) (he : e.height ≤ maxNesting) :
    s = s' ∧ pending.reduceAll current = .ok ⟨e, e.height⟩ := by
  obtain ⟨hsum, hproduct⟩ := Operator.of_none hkind
  induction pending generalizing current with
  | nil =>
    rw [resume, foldsLeft_product.stop hproduct, Option.bind_some, foldsLeft_sum.stop hsum] at h
    cases h
    refine ⟨rfl, ?_⟩
    rw [reduceAll, ← hcurrent.counted]
  | cons waiting outer ih =>
    obtain ⟨left, op⟩ := waiting
    obtain ⟨hleft, houter⟩ := List.forall_mem_cons.1 hpending
    rw [resume_of_no_product hproduct] at h
    obtain ⟨combined, hcombine, hexpr, hsure⟩ :=
      Operand.exists_combine hleft hcurrent (part_of_resume h) he
    obtain ⟨rfl, hreduce⟩ := ih houter hsure (hexpr ▸ h)
    refine ⟨rfl, ?_⟩
    rw [reduceAll, hcombine]
    exact hreduce

/-- What the plain grammar reads on with some operands open, the loop of the chain reads, if the
whole is within the limit. The induction is on what is left of the stream. -/
theorem reaches_loop (hoperand : Reaches limit operand factor) (hlimit : limit ≤ maxNesting)
    (hpending : pending.Sure) (hcurrent : current.Sure)
    (h : pending.resume current.expr s = some (e, s')) (he : e.Within limit) :
    (loop (chainStep operand) (advances_chainStep operand) (pending, current)).run s =
      (.ok ⟨e, e.height⟩, s') := by
  have hheight := Nat.le_trans he.height hlimit
  induction hn : s.length using Nat.strongRecOn generalizing pending current s with
  | ind n ih =>
    cases hkind : Operator.ofKind? s.lookahead.kind with
    | none =>
      obtain ⟨rfl, hreduce⟩ := Pending.reduceAll_of_resume hpending hcurrent hkind h hheight
      exact run_loop_end hkind hreduce
    | some op =>
      obtain ⟨pending', current', hreduce⟩ :=
        Pending.exists_reduce hpending hcurrent hkind h hheight
      cases s with
      | finish _ => cases hkind
      | cut _ _ =>
        rw [Pending.resume_stuck hkind rfl] at h
        cases h
      | token t rest =>
        rw [Pending.resume_operator (t := t) hkind hreduce] at h
        obtain ⟨⟨right, after⟩, hright, hrest⟩ := Option.bind_eq_some_iff.1 h
        have hlt : after.length < n := by
          have := foldsLeft_product.shorter hright
          rw [← hn, TokenStream.length]
          omega
        have hwithin := he.of_part (Pending.part_of_resume hrest)
        have hrun := hoperand rest right after hright hwithin
        rw [run_loop_operator (t := t) (Operator.ofKind?_eq_some_iff.1 hkind) hreduce, chainAfter,
          run_bind_of_eq hrun]
        exact ih _ hlt (Pending.sure_of_reduce hpending hcurrent hreduce)
          ⟨rfl, hwithin.mono hlimit⟩ hrest rfl

/-- Chains of operands that the parser reaches are reached. What a sum is made of is read by the
loop, with nothing waiting at the beginning. -/
theorem reaches_chain (hoperand : Reaches limit operand factor) (hlimit : limit ≤ maxNesting) :
    Reaches limit (chain operand) sum := by
  intro s e s' h he
  rw [sum_eq_resume] at h
  obtain ⟨⟨first, after⟩, hfirst, hrest⟩ := Option.bind_eq_some_iff.1 h
  have hwithin := he.of_part (Pending.part_of_resume hrest)
  rw [chain, run_bind_of_eq (hoperand s first after hfirst hwithin)]
  exact reaches_loop hoperand hlimit (List.forall_mem_nil _) ⟨rfl, hwithin.mono hlimit⟩ hrest he

end Chains

end LSystem.Syntax
