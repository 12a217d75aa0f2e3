import LSystem.Proofs.Syntax.Plain.Chain

/-!
# Expressions against the plain grammar

An operand is read with a budget of levels, and the budget for what is inside it
is one less, as is its height.  So what the plain grammar reads is read with
every budget that its height does not exceed, and the two ways to be too deep,
on the way down and on the way up, are one.
-/

namespace LSystem.Syntax

open LSystem.Syntax.Parser Plain

variable {argument inner : Parser Operand} {e : Expr} {es args : List Expr} {limit : Nat}
  {s s' rest : TokenStream} {t : Token} {o : Operand} {name : String}

/-! ### Arguments -/

/-- What a round of the loop over arguments does when it goes well. It reads an argument and a
mark behind it, which ends the row or goes on with it. -/
theorem run_argumentStep_cases {state : List Expr × Nat}
    {answer : (List Expr × Nat) ⊕ (List Expr × Nat)}
    (h : (argumentStep argument state).run s = (.ok answer, s')) :
    ∃ arg mark, argument.run s = (.ok arg, .token mark s') ∧
      ((mark.kind = .rightParen ∧ answer = .inr (arg.expr :: state.1, max state.2 arg.height)) ∨
        (mark.kind = .comma ∧ answer = .inl (arg.expr :: state.1, max state.2 arg.height))) := by
  obtain ⟨arg, after, harg, hmark⟩ := run_bind_eq_ok h
  obtain ⟨closed, after', hclosed, hrest⟩ := run_bind_eq_ok hmark
  obtain ⟨rfl, closing, rfl, hkind⟩ | ⟨rfl, rfl, -⟩ :=
    run_consumeOptional_eq_ok (by decide) hclosed
  · cases hrest
    exact ⟨arg, closing, harg, .inl ⟨hkind, rfl⟩⟩
  · obtain ⟨comma, after'', hcomma, hpure⟩ := run_bind_eq_ok hrest
    obtain ⟨rfl, hkind⟩ := run_consume_eq_ok (by decide) hcomma
    cases hpure
    exact ⟨arg, comma, harg, .inr ⟨hkind, rfl⟩⟩

/-- What the loop of arguments reads is a row of the plain grammar, collected from the last to the
first, with the largest of its heights. The induction is on what is left of the stream. -/
theorem tracks_arguments (hargument : Tracks argument sum) {before all : List Expr}
    {height top : Nat}
    (h : (loop (argumentStep argument) (advances_argumentStep argument) (before, height)).run s =
      (.ok (all, top), s')) :
    ∃ es, row s = some (es, s') ∧ all = es.reverse ++ before ∧
      top = max height (Expr.heightList es) ∧ ∀ x ∈ Expr.literalsOf es, x.isFinite = true := by
  induction hn : s.length using Nat.strongRecOn generalizing before height s with
  | ind n ih =>
    rw [run_loop] at h
    match hround : (argumentStep argument (before, height)).run s with
    | (.error fault, after) =>
      rw [hround] at h
      cases h
    | (.ok answer, after) =>
      obtain ⟨arg, mark, harg, ⟨hkind, rfl⟩ | ⟨hkind, rfl⟩⟩ := run_argumentStep_cases hround
      · rw [hround] at h
        cases h
        obtain ⟨hsum, hsure⟩ := hargument s arg _ harg
        refine ⟨[arg.expr], row_eq_some_iff.2 (.last hsum hkind), rfl, ?_, ?_⟩
        · simp [Expr.heightList, hsure.counted]
        · simpa [Expr.literalsOf] using hsure.within.finite
      · have hlt : after.length < n := hn ▸ advances_argumentStep argument _ _ _ _ hround
        rw [hround] at h
        obtain ⟨hsum, hsure⟩ := hargument s arg _ harg
        obtain ⟨es, hrow, rfl, rfl, hfinite⟩ := ih _ hlt h rfl
        refine ⟨arg.expr :: es, row_eq_some_iff.2 (.more hsum hkind hrow), by simp, ?_, ?_⟩
        · rw [Expr.heightList, hsure.counted, Nat.max_assoc]
        · rw [Expr.literalsOf]
          exact List.forall_mem_append.2 ⟨hsure.within.finite, hfinite⟩

/-- A row of the plain grammar whose arguments are within the limit is read by the loop of
arguments, by induction on the row. -/
theorem reaches_arguments (hargument : Reaches limit argument sum) (h : row s = some (es, s'))
    (hheight : Expr.heightList es ≤ limit) (hfinite : ∀ x ∈ Expr.literalsOf es, x.isFinite = true)
    (before : List Expr) (height : Nat) :
    (loop (argumentStep argument) (advances_argumentStep argument) (before, height)).run s =
      (.ok (es.reverse ++ before, max height (Expr.heightList es)), s') := by
  induction es generalizing s before height with
  | nil => cases row_eq_some_iff.1 h
  | cons e es ih =>
    rw [Expr.heightList] at hheight
    obtain ⟨hfirst, hothers⟩ := List.forall_mem_append.1 hfinite
    cases row_eq_some_iff.1 h with
    | last hsum hclosing =>
      have harg := hargument _ _ _ hsum ⟨by omega, hfirst⟩
      have hround : (argumentStep argument (before, height)).run s =
          (.ok (.inr (e :: before, max height e.height)), s') := by
        rw [argumentStep, run_bind_of_eq harg, run_bind_of_eq (run_consumeOptional hclosing)]
        rfl
      rw [run_loop, hround]
      simp [Expr.heightList]
    | more hsum hcomma hrow =>
      rename_i after comma
      have harg := hargument _ _ _ hsum ⟨by omega, hfirst⟩
      have hopen : (consumeOptional .rightParen).run (.token comma after) =
          (.ok false, .token comma after) :=
        run_consumeOptional_of_ne (by rw [TokenStream.lookahead, hcomma]; decide)
      have hround : (argumentStep argument (before, height)).run s =
          (.ok (.inl (e :: before, max height e.height)), after) := by
        rw [argumentStep, run_bind_of_eq harg, run_bind_of_eq hopen]
        exact run_bind_of_eq (run_consume hcomma)
      rw [run_loop, hround]
      simp only
      rw [ih hrow (by omega) hothers]
      simp [Expr.heightList, Nat.max_assoc]

/-! ### Calls -/

/-- What is read as a call is a parenthesis and the arguments of the plain grammar, and the
operand is sure. -/
theorem tracks_call (hargument : Tracks argument sum)
    (h : (call argument name).run s = (.ok o, s')) :
    ∃ opening inside args, s = .token opening inside ∧ opening.kind = .leftParen ∧
      arguments inside = some (args, s') ∧ o.expr = .call name args ∧ o.Sure := by
  obtain ⟨opening, inside, hopening, hinside⟩ := run_bind_eq_ok h
  obtain ⟨rfl, hkind⟩ := run_consume_eq_ok (by decide) hopening
  obtain ⟨closed, after, hclosed, hargs⟩ := run_bind_eq_ok hinside
  obtain ⟨rfl, closing, rfl, hclosing⟩ | ⟨rfl, rfl, hopen⟩ :=
    run_consumeOptional_eq_ok (by decide) hclosed
  · rw [if_pos rfl] at hargs
    obtain ⟨hnested, rfl⟩ := run_ofExcept_eq_ok hargs
    obtain ⟨hexpr, hsure⟩ := Operand.sure_of_nested rfl (by simp [Expr.literals, Expr.literalsOf])
      hnested
    exact ⟨opening, _, [], rfl, hkind, arguments_eq_some_iff.2 (.none hclosing), hexpr, hsure⟩
  · rw [if_neg Bool.false_ne_true] at hargs
    obtain ⟨⟨all, top⟩, after, hloop, hexcept⟩ := run_bind_eq_ok hargs
    obtain ⟨hnested, rfl⟩ := run_ofExcept_eq_ok hexcept
    obtain ⟨es, hrow, rfl, rfl, hfinite⟩ := tracks_arguments hargument hloop
    obtain ⟨hexpr, hsure⟩ := Operand.sure_of_nested (by simp [Expr.height])
      (by simpa [Expr.literals]) hnested
    exact ⟨opening, _, es, rfl, hkind, arguments_eq_some_iff.2 (.some hopen hrow),
      by simpa using hexpr, hsure⟩

/-- Arguments of the plain grammar within a limit are read as a call, one level higher than they
are. -/
theorem reaches_call {opening : Token} (hargument : Reaches limit argument sum)
    (hopening : opening.kind = .leftParen) (h : arguments rest = some (args, s'))
    (hheight : Expr.heightList args ≤ limit) (hlimit : limit + 1 ≤ maxNesting)
    (hfinite : ∀ x ∈ Expr.literalsOf args, x.isFinite = true) :
    (call argument name).run (.token opening rest) =
      (.ok ⟨.call name args, (Expr.call name args).height⟩, s') := by
  rw [Expr.height, call, run_bind_of_eq (run_consume hopening)]
  cases arguments_eq_some_iff.1 h with
  | none hclosing =>
    rw [run_bind_of_eq (run_consumeOptional hclosing)]
    rfl
  | some hopen hrow =>
    have hargs := reaches_arguments hargument hrow hheight hfinite [] 0
    rw [run_bind_of_eq (run_consumeOptional_of_ne hopen)]
    refine (run_bind_of_eq hargs).trans ?_
    simp only [List.append_nil, List.reverse_reverse, Nat.zero_max]
    rw [Operand.nested_of_le (by omega), run_ofExcept_ok]

/-! ### Operands -/

/-- A leaf with a finite number, or with none, is sure. -/
theorem sure_leaf (hheight : e.height = 1) (hfinite : ∀ x ∈ e.literals, x.isFinite = true) :
    (Operand.leaf e).Sure := by
  obtain ⟨hcounted, hle⟩ := Operand.fits_leaf hheight
  rw [hcounted] at hle
  exact ⟨hcounted, hle, hfinite⟩

/-- A numeral that is accepted has a finite value, which becomes a leaf, and nothing more is
taken. -/
theorem run_numeral_eq_ok (h : (numeral t).run s = (.ok o, s')) :
    (Number.readNumeral t.text.toList).isFinite = true ∧
      .leaf (.num (Number.readNumeral t.text.toList)) = o ∧ s = s' := by
  by_cases hfinite : (Number.readNumeral t.text.toList).isFinite = true
  · rw [run_numeral_of_legible hfinite] at h
    exact ⟨hfinite, by simpa using h⟩
  · rw [numeral, if_neg hfinite] at h
    simp [fail] at h

/-- With a numeral in front an operand is just this numeral. -/
theorem run_operandWith_number (hkind : s.lookahead.kind = .number) :
    (operandWith inner).run s = (advance >>= numeral).run s := by
  rw [operandWith, run_lookahead_bind]
  refine congrArg (fun p : Parser Operand => p.run s) ?_
  simp only [hkind]

/-- Operands follow the grammar when their own operands do. There is one case for each kind of
token that an operand begins with. -/
theorem tracks_operandWith (hinner : Tracks inner factor) : Tracks (operandWith inner) factor := by
  intro s o s' h
  have hchain := tracks_chain hinner
  by_cases hnumber : s.lookahead.kind = .number
  · rw [run_operandWith_number hnumber] at h
    obtain ⟨t, after, hadvance, hnumeral⟩ := run_bind_eq_ok h
    obtain rfl := run_advance_eq_ok (by simp [hnumber]) hadvance
    obtain ⟨hfinite, rfl, rfl⟩ := run_numeral_eq_ok hnumeral
    rw [factor_of_ne (by simp [hnumber])]
    exact ⟨primary_eq_some_iff.2 (.number hnumber),
      sure_leaf rfl (by simpa [Expr.literals] using hfinite)⟩
  rw [operandWith, run_lookahead_bind] at h
  split at h
  · exact absurd ‹_› hnumber
  · rename_i hkind
    obtain ⟨t, after, hadvance, hfollow⟩ := run_bind_eq_ok h
    obtain rfl := run_advance_eq_ok (by simp [hkind]) hadvance
    have hname : t.kind = .identifier := hkind
    rw [factor_of_ne (by simp [hkind])]
    rw [run_lookahead_bind] at hfollow
    split at hfollow
    · obtain ⟨opening, inside, args, rfl, hopening, hargs, hexpr, hsure⟩ :=
        tracks_call hchain hfollow
      rw [hexpr]
      exact ⟨primary_eq_some_iff.2 (.call hname hopening hargs), hsure⟩
    · rename_i hopen
      cases hfollow
      exact ⟨primary_eq_some_iff.2 (.ident hname hopen), sure_leaf rfl (by simp [Expr.literals])⟩
  · rename_i hkind
    obtain ⟨t, inside, hadvance, hcontent⟩ := run_bind_eq_ok h
    obtain rfl := run_advance_eq_ok (by simp [hkind]) hadvance
    have hopening : t.kind = .leftParen := hkind
    obtain ⟨content, after, hchainRun, hclosing⟩ := run_bind_eq_ok hcontent
    obtain ⟨closing, after', hclose, hexcept⟩ := run_bind_eq_ok hclosing
    obtain ⟨rfl, hclosed⟩ := run_consume_eq_ok (by decide) hclose
    obtain ⟨hnested, rfl⟩ := run_ofExcept_eq_ok hexcept
    obtain ⟨hsum, hsure⟩ := hchain _ _ _ hchainRun
    obtain ⟨hexpr, hgroup⟩ := Operand.sure_of_nested (e := .group content.expr)
      (by rw [Expr.height, hsure.counted]) hsure.within.finite hnested
    rw [factor_of_ne (by simp [hkind]), hexpr]
    exact ⟨primary_eq_some_iff.2 (.group hopening hsum hclosed), hgroup⟩
  · rename_i hkind
    obtain ⟨t, after, hadvance, hnegated⟩ := run_bind_eq_ok h
    obtain rfl := run_advance_eq_ok (by simp [hkind]) hadvance
    have hminus : t.kind = .minus := hkind
    obtain ⟨negated, after', hinnerRun, hexcept⟩ := run_bind_eq_ok hnegated
    obtain ⟨hnested, rfl⟩ := run_ofExcept_eq_ok hexcept
    obtain ⟨hfactor, hsure⟩ := hinner _ _ _ hinnerRun
    obtain ⟨hexpr, hneg⟩ := Operand.sure_of_nested (e := .neg negated.expr)
      (by rw [Expr.height, hsure.counted]) hsure.within.finite hnested
    rw [factor_neg hminus, hfactor, hexpr]
    exact ⟨rfl, hneg⟩
  · cases h

/-- What is read as an operand with any budget of levels is a factor of the plain grammar, by
induction on the budget. -/
theorem tracks_operand (limit : Nat) : Tracks (operand limit) factor := by
  induction limit with
  | zero =>
    intro s o s' h
    cases h
  | succ limit ih => exact tracks_operandWith ih

/-- Operands are reached with one level more than their own operands. A group, a call and a
negation are one level higher than what is inside them. -/
theorem reaches_operandWith (hinner : Reaches limit inner factor)
    (hlimit : limit + 1 ≤ maxNesting) :
    Reaches (limit + 1) (operandWith inner) factor := by
  intro s e s' h he
  have hchain := reaches_chain hinner (Nat.le_of_succ_le hlimit)
  by_cases hminus : s.lookahead.kind = .minus
  · cases s with
    | cut _ _ =>
      rw [factor_of_next_none rfl] at h
      cases h
    | finish _ => cases hminus
    | token t rest =>
      rw [factor_neg (t := t) hminus] at h
      obtain ⟨⟨negated, after⟩, hnegated, heq⟩ := Option.map_eq_some_iff.1 h
      cases heq
      have hheight := he.height
      simp only [Expr.height] at hheight
      have hrun := hinner rest negated after hnegated ⟨by omega, he.finite⟩
      exact run_operandWith_negation hminus hrun (by simp only; omega)
  · rw [factor_of_ne hminus] at h
    cases primary_eq_some_iff.1 h with
    | number hkind =>
      exact run_operandWith_numeral hkind (he.finite _ (by simp [Expr.literals]))
    | ident hkind hfollow => exact run_operandWith_ident hkind hfollow
    | @call t opening inside _ args hkind hopening hargs =>
      have hheight := he.height
      rw [Expr.height] at hheight
      rw [run_operandWith_call (.token opening inside) hkind hopening]
      exact reaches_call hchain hopening hargs (by omega) hlimit he.finite
    | group hkind hsum hclosing =>
      have hheight := he.height
      rw [Expr.height] at hheight
      have hrun := hchain _ _ _ hsum ⟨by omega, he.finite⟩
      exact run_operandWith_group hkind hrun hclosing (by simp only; omega)

/-- A budget of levels suffices for every operand that is not higher. -/
theorem reaches_operand {limit : Nat} (hlimit : limit ≤ maxNesting) :
    Reaches limit (operand limit) factor := by
  induction limit with
  | zero =>
    intro s e s' _ he
    exact absurd he.height (Nat.not_le_of_gt e.height_pos)
  | succ limit ih => exact reaches_operandWith (ih (Nat.le_of_succ_le hlimit)) hlimit

/-! ### Whole expressions -/

/-- **Precedence climbing is the plain grammar with one limit.**  From any place of any stream, an
expression is read as `e` up to some place exactly when the plain grammar reads `e` up to there,
all its numbers are finite, and it is no higher than the limit.  In every other case reading it is
an error. -/
theorem expression_eq_plain (s : TokenStream) :
    (∀ e s', expression.run s = (.ok e, s') ↔
      Plain.sum s = some (e, s') ∧ (∀ x ∈ e.literals, x.isFinite = true) ∧ e.height ≤ maxNesting) ∧
    ((¬ ∃ e s', Plain.sum s = some (e, s') ∧ (∀ x ∈ e.literals, x.isFinite = true) ∧
        e.height ≤ maxNesting) →
      ∃ fault s', expression.run s = (.error fault, s')) := by
  have hiff (e : Expr) (s' : TokenStream) : expression.run s = (.ok e, s') ↔
      Plain.sum s = some (e, s') ∧ (∀ x ∈ e.literals, x.isFinite = true) ∧
        e.height ≤ maxNesting := by
    constructor
    · intro h
      obtain ⟨o, after, htree, hpure⟩ := run_bind_eq_ok h
      cases hpure
      obtain ⟨hsum, hsure⟩ := tracks_chain (tracks_operand maxNesting) s o _ htree
      exact ⟨hsum, hsure.within.finite, hsure.within.height⟩
    · rintro ⟨hsum, hfinite, hheight⟩
      have hoperand := reaches_operand (Nat.le_refl maxNesting)
      exact run_bind_of_eq (reaches_chain hoperand (Nat.le_refl _) s e s' hsum ⟨hheight, hfinite⟩)
  refine ⟨hiff, fun hnone => ?_⟩
  match hrun : expression.run s with
  | (.error fault, s') => exact ⟨fault, s', rfl⟩
  | (.ok e, s') => exact absurd ⟨e, s', (hiff e s').1 hrun⟩ hnone

end LSystem.Syntax
