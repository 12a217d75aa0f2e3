import Mathlib.Data.List.Forall2
import LSystem.Eval.Builtin
import LSystem.Proofs.Eval.Answer
import LSystem.Proofs.Eval.Order
import LSystem.Proofs.Eval.References

/-!
# Variables written out

A variable means the expression that it is bound to, at every place where it stands.  So
an expression evaluates like the one in which all variables are written out, each in
parentheses: it takes the same draws in the same order, gives the same value, and fails
when the other fails.  The order is from left to right, in both
(`answers_evaluate_binary_iff`, `answers_evaluate_call_iff`).

Computations that do so are `Twin`, and they are put together from twins.  Errors name the
expression that has no finite value, and this is all that two errors may differ in.
-/

namespace LSystem.Eval

open Syntax Randomness

/-! ### Writing variables out -/

namespace Scope

/-- The second expression is the first with every variable replaced by what it is bound
to, in parentheses, the variables of which are replaced in the same way. -/
inductive Inlines (s : Scope) : Expr → Expr → Prop
  | num (value : Float) : Inlines s (.num value) (.num value)
  | ident {name : String} {b b' : Expr} (hbound : s.bound name = some b)
      (hinner : Inlines s b b') : Inlines s (.ident name) (.group b')
  | call {name : String} {args args' : List Expr} (hargs : List.Forall₂ (Inlines s) args args') :
      Inlines s (.call name args) (.call name args')
  | group {inner inner' : Expr} (hinner : Inlines s inner inner') :
      Inlines s (.group inner) (.group inner')
  | binary {op : Operator} {left left' right right' : Expr} (hleft : Inlines s left left')
      (hright : Inlines s right right') :
      Inlines s (.binary op left right) (.binary op left' right')
  | neg {inner inner' : Expr} (hinner : Inlines s inner inner') :
      Inlines s (.neg inner) (.neg inner')

variable {s : Scope} {e : Expr} {es : List Expr} {n : Nat}

/-- Arguments can be written out in one way when each of them can. -/
theorem existsUnique_inlines_list (h : ∀ e ∈ es, ∃! e', s.Inlines e e') :
    ∃! es', List.Forall₂ s.Inlines es es' := by
  induction es with
  | nil => exact ⟨[], .nil, fun es' h => List.forall₂_nil_left_iff.1 h⟩
  | cons e es ih =>
      obtain ⟨⟨e', he, hunique⟩, hes⟩ := List.forall_mem_cons.1 h
      obtain ⟨es', hargs, hothers⟩ := ih hes
      refine ⟨e' :: es', .cons he hargs, fun all hall => ?_⟩
      obtain ⟨f', fs', hf, hfs, rfl⟩ := List.forall₂_cons_left_iff.1 hall
      rw [hunique f' hf, hothers fs' hfs]

/-- An expression can be written out in one way when the bindings of its variables can. -/
theorem existsUnique_inlines_of_bindings
    (h : ∀ name ∈ e.references, ∃ b, s.bound name = some b ∧ ∃! b', s.Inlines b b') :
    ∃! e', s.Inlines e e' := by
  induction e using Expr.inductionOn with
  | num value =>
      refine ⟨_, .num value, fun e' h => ?_⟩
      cases h
      rfl
  | ident name =>
      obtain ⟨b, hbound, b', hb, hunique⟩ := h name List.mem_cons_self
      refine ⟨_, .ident hbound hb, fun e' h => ?_⟩
      cases h with
      | ident hother hinner =>
          obtain rfl := Option.some.inj (hbound.symm.trans hother)
          rw [hunique _ hinner]
  | call name args ih =>
      obtain ⟨args', hargs, hunique⟩ := existsUnique_inlines_list fun e he =>
        ih e he fun x hx => h x (Expr.mem_referencesOf_iff.2 ⟨e, he, hx⟩)
      refine ⟨_, .call hargs, fun e' h => ?_⟩
      cases h with
      | call hothers => rw [hunique _ hothers]
  | group inner ih =>
      obtain ⟨inner', hinner, hunique⟩ := ih h
      refine ⟨_, .group hinner, fun e' h => ?_⟩
      cases h with
      | group hother => rw [hunique _ hother]
  | binary op left right ihl ihr =>
      obtain ⟨left', hleft, huniqueLeft⟩ := ihl fun x hx => h x (List.mem_append_left _ hx)
      obtain ⟨right', hright, huniqueRight⟩ := ihr fun x hx => h x (List.mem_append_right _ hx)
      refine ⟨_, .binary hleft hright, fun e' h => ?_⟩
      cases h with
      | binary hl hr => rw [huniqueLeft _ hl, huniqueRight _ hr]
  | neg inner ih =>
      obtain ⟨inner', hinner, hunique⟩ := ih h
      refine ⟨_, .neg hinner, fun e' h => ?_⟩
      cases h with
      | neg hother => rw [hunique _ hother]

/-- An expression with bound variables and bounded chains can be written out. -/
theorem existsUnique_inlines (hbinds : s.Binds e) (hchains : s.ChainsWithin n e) :
    ∃! e', s.Inlines e e' := by
  induction n generalizing e with
  | zero =>
      refine existsUnique_inlines_of_bindings fun name hname => ?_
      exact absurd rfl (hchains.ne_zero hname)
  | succ n ih =>
      refine existsUnique_inlines_of_bindings fun name hname => ?_
      obtain ⟨b, hbound⟩ := hbinds.bound hname
      exact ⟨b, hbound, ih (hbinds.step hname hbound) (hchains.step hname hbound)⟩

end Scope

/-! ### Twins -/

/-- Two errors are the same, but for the expression that has no finite value. -/
inductive EvalError.Resembles : EvalError → EvalError → Prop
  | same (err : EvalError) : Resembles err err
  | nonFinite (e e' : Expr) (value : Float) : Resembles (.nonFinite e value) (.nonFinite e' value)

variable {α β : Type}

/-- Two computations give the same answer or fail with errors that resemble each other,
and they leave the same generator. -/
def Twin (m m' : EvalM α) : Prop :=
  ∀ g, ∃ g', (∃ a, Answers m g a g' ∧ Answers m' g a g') ∨
    ∃ err err', Fails m g err g' ∧ Fails m' g err' g' ∧ err.Resembles err'

theorem Twin.refl (m : EvalM α) : Twin m m := by
  intro g
  match h : m.run.run g with
  | (.ok a, g') => exact ⟨g', .inl ⟨a, h, h⟩⟩
  | (.error err, g') => exact ⟨g', .inr ⟨err, err, h, h, .same err⟩⟩

/-- Sequences of twins are twins: the first parts leave the same generator, with the same answer,
from which the second parts begin. -/
theorem Twin.bind {m m' : EvalM α} {f f' : α → EvalM β} (h : Twin m m')
    (hf : ∀ a, Twin (f a) (f' a)) : Twin (m >>= f) (m' >>= f') := by
  intro g
  obtain ⟨middle, ⟨a, ha, ha'⟩ | ⟨err, err', herr, herr', hlike⟩⟩ := h g
  · obtain ⟨g', ⟨b, hb, hb'⟩ | ⟨err, err', herr, herr', hlike⟩⟩ := hf a middle
    · exact ⟨g', .inl ⟨b, answers_bind_iff.2 ⟨a, middle, ha, hb⟩,
        answers_bind_iff.2 ⟨a, middle, ha', hb'⟩⟩⟩
    · exact ⟨g', .inr ⟨err, err', ha.bind_fails herr, ha'.bind_fails herr', hlike⟩⟩
  · exact ⟨middle, .inr ⟨err, err', herr.bind, herr'.bind, hlike⟩⟩

/-- The check of a value for being finite names its expression in the error alone. -/
theorem twin_finite (e e' : Expr) (value : Float) : Twin (finite e value) (finite e' value) := by
  unfold finite
  split
  · exact .refl _
  · exact fun g => ⟨g, .inr ⟨_, _, rfl, rfl, .nonFinite e e' value⟩⟩

/-- Twins whose value has to be finite are twins. -/
theorem Twin.finite {m m' : EvalM Float} (h : Twin m m') (e e' : Expr) (f : Float → Float) :
    Twin (m >>= fun value => Eval.finite e (f value))
      (m' >>= fun value => Eval.finite e' (f value)) :=
  h.bind fun _ => twin_finite e e' _

/-- Twins have the same answers. They may differ in the form of their errors and in nothing
else. -/
theorem Twin.answers_iff {m m' : EvalM α} (h : Twin m m') {g g' : Generator} {a : α} :
    Answers m g a g' ↔ Answers m' g a g' := by
  unfold Answers
  obtain ⟨last, ⟨b, hb, hb'⟩ | ⟨err, err', herr, herr', -⟩⟩ := h g
  · rw [show m.run.run g = _ from hb, show m'.run.run g = _ from hb']
  · rw [show m.run.run g = _ from herr, show m'.run.run g = _ from herr']
    constructor
    · intro heq
      cases heq
    · intro heq
      cases heq

/-- Where one of two twins fails, the other fails with an error that resembles, and leaves the
same generator. -/
theorem Twin.fails {m m' : EvalM α} (h : Twin m m') {g g' : Generator} {err : EvalError}
    (hfails : Fails m g err g') : ∃ err', Fails m' g err' g' ∧ err.Resembles err' := by
  unfold Fails at hfails
  obtain ⟨last, ⟨b, hb, hb'⟩ | ⟨cause, cause', herr, herr', hlike⟩⟩ := h g
  · cases hfails.symm.trans hb
  · cases hfails.symm.trans herr
    exact ⟨cause', herr', hlike⟩

/-- Errors resemble each other either way. -/
theorem EvalError.Resembles.symm {err err' : EvalError} (h : err.Resembles err') :
    err'.Resembles err := by
  cases h with
  | same err => exact .same err
  | nonFinite e e' value => exact .nonFinite e' e value

/-- Computations are twins either way. -/
theorem Twin.symm {m m' : EvalM α} (h : Twin m m') : Twin m' m := by
  intro g
  obtain ⟨g', ⟨a, ha, ha'⟩ | ⟨err, err', herr, herr', hlike⟩⟩ := h g
  · exact ⟨g', .inl ⟨a, ha', ha⟩⟩
  · exact ⟨g', .inr ⟨err', err, herr', herr, hlike.symm⟩⟩

/-! ### Evaluation of what is written out -/

variable {s : Scope} {e e' : Expr} {es es' : List Expr} {refer refer' : String → EvalM Float}

/-- Arguments are twins of what is written out for them when each of them is. -/
theorem twin_evalListWith (h : List.Forall₂ s.Inlines es es')
    (ih : ∀ e ∈ es, ∀ e', s.Inlines e e' →
      Twin (evalWith s.native refer e) (evalWith s.native refer' e')) :
    Twin (evalListWith s.native refer es) (evalListWith s.native refer' es') := by
  induction h with
  | nil => exact .refl _
  | cons he hes ihes =>
      obtain ⟨hfirst, hothers⟩ := List.forall_mem_cons.1 ih
      exact (hfirst _ he).bind fun value => (ihes hothers).bind fun values => .refl _

/-- An expression and the one in which it is written out are twins, when every variable is
the twin of what it is bound to, written out. -/
theorem twin_evalWith (h : s.Inlines e e')
    (hrefer : ∀ name ∈ e.references, ∀ b b', s.bound name = some b → s.Inlines b b' →
      Twin (refer name) (evalWith s.native refer' b')) :
    Twin (evalWith s.native refer e) (evalWith s.native refer' e') := by
  induction e using Expr.inductionOn generalizing e' with
  | num value =>
      cases h
      exact .refl _
  | ident name =>
      cases h with
      | ident hbound hinner =>
          rw [evalWith, evalWith]
          exact (hrefer name List.mem_cons_self _ _ hbound hinner).finite _ _ id
  | call name args ih =>
      cases h with
      | call hargs =>
          have hvalues := twin_evalListWith hargs fun e he e' hinl =>
            ih e he hinl fun x hx => hrefer x (Expr.mem_referencesOf_iff.2 ⟨e, he, hx⟩)
          rw [evalWith, evalWith]
          split
          · exact .refl _
          · rename_i f _
            exact hvalues.bind fun values => (Twin.refl (f values)).finite _ _ id
  | group inner ih =>
      cases h with
      | group hinner =>
          rw [evalWith, evalWith]
          exact (ih hinner hrefer).finite _ _ id
  | binary op left right ihl ihr =>
      cases h with
      | binary hleft hright =>
          have hl := ihl hleft fun x hx => hrefer x (List.mem_append_left _ hx)
          have hr := ihr hright fun x hx => hrefer x (List.mem_append_right _ hx)
          rw [evalWith, evalWith]
          exact hl.bind fun l => hr.bind fun r => (Twin.refl (apply op l r)).finite _ _ id
  | neg inner ih =>
      cases h with
      | neg hinner =>
          rw [evalWith, evalWith]
          exact (ih hinner hrefer).finite _ _ Neg.neg

/-- As many nested variables as the longest chain has are enough to evaluate what is
written out, which has none itself. -/
theorem twin_evalChain {n : Nat} (hchains : s.ChainsWithin n e) (h : s.Inlines e e') :
    Twin (s.evalChain n e) (evalWith s.native refer' e') := by
  induction n generalizing e e' with
  | zero => exact twin_evalWith h fun name hname => absurd rfl (hchains.ne_zero hname)
  | succ n ih =>
      refine twin_evalWith h fun name hname b b' hbound hinl => ?_
      simp only [hbound]
      exact ih (hchains.step hname hbound) hinl

/-! ### From left to right -/

/-- The variables of an expression have values, with which `evaluate` follows its tree. -/
theorem exists_refer (s : Scope) :
    ∃ refer : String → EvalM Float, ∀ e, s.evaluate e = evalWith s.native refer e :=
  ⟨_, fun _ => rfl⟩

/-- The sign of an operator takes no draw of its own. It works on two values, so the draws of a
binary expression are those of its operands. -/
theorem eq_of_answers_apply {op : Operator} {l r v : Float} {g g' : Generator}
    (h : Answers (apply op l r) g v g') : g' = g := by
  cases op with
  | add | sub | mul => exact (answers_pure_iff.1 h).2
  | div =>
      unfold apply at h
      dsimp only at h
      split at h
      · exact absurd h not_answers_throw
      · exact (answers_pure_iff.1 h).2

/-- **Operands draw from left to right.**  An expression with an operator has a value exactly
when its operands have values in turn, the right one from the generator on that the left one
has left, and the value of the operator on these is finite. -/
theorem answers_evaluate_binary_iff {op : Operator} {left right : Expr} {g g' : Generator}
    {v : Float} : Answers (s.evaluate (.binary op left right)) g v g' ↔
      ∃ l r, s.InTurn [left, right] g [l, r] g' ∧ Answers (apply op l r) g' v g' ∧
        v.isFinite := by
  obtain ⟨refer, hrefer⟩ := exists_refer s
  rw [hrefer, evalWith]
  constructor
  · intro h
    obtain ⟨l, middle, hl, hrest⟩ := answers_bind_iff.1 h
    obtain ⟨r, last, hr, hlast⟩ := answers_bind_iff.1 hrest
    obtain ⟨value, last', hvalue, hcheck⟩ := answers_bind_iff.1 hlast
    obtain ⟨hfinite, rfl, rfl⟩ := answers_finite_iff.1 hcheck
    obtain rfl := eq_of_answers_apply hvalue
    rw [← hrefer] at hl hr
    exact ⟨l, r, .cons hl (.cons hr (.nil _)), hvalue, hfinite⟩
  · rintro ⟨l, r, hturn, hvalue, hfinite⟩
    cases hturn with
    | cons hl hothers =>
        cases hothers with
        | cons hr hnone =>
            cases hnone
            rw [hrefer] at hl hr
            exact answers_bind_iff.2 ⟨l, _, hl, answers_bind_iff.2 ⟨r, _, hr,
              answers_bind_iff.2 ⟨v, _, hvalue, answers_finite_iff.2 ⟨hfinite, rfl, rfl⟩⟩⟩⟩

/-- **Arguments draw from left to right**, and before the function does.  A call has a value
exactly when its function is known, the arguments have values in turn, and the function
answers on these with a finite value, from the generator on that the last argument has left. -/
theorem answers_evaluate_call_iff {name : String} {args : List Expr} {g g' : Generator}
    {v : Float} : Answers (s.evaluate (.call name args)) g v g' ↔
      ∃ f values middle, s.native name = some f ∧ s.InTurn args g values middle ∧
        Answers (f values) middle v g' ∧ v.isFinite := by
  obtain ⟨refer, hrefer⟩ := exists_refer s
  rw [hrefer, evalWith]
  cases hf : s.native name with
  | none =>
      refine iff_of_false not_answers_throw ?_
      rintro ⟨f, values, middle, hnone, -⟩
      cases hnone
  | some f =>
      constructor
      · intro h
        obtain ⟨values, middle, hvalues, hrest⟩ := answers_bind_iff.1 h
        obtain ⟨value, last, hvalue, hcheck⟩ := answers_bind_iff.1 hrest
        obtain ⟨hfinite, rfl, rfl⟩ := answers_finite_iff.1 hcheck
        exact ⟨f, values, middle, rfl, (Scope.answers_evalListWith_iff hrefer).1 hvalues, hvalue,
          hfinite⟩
      · rintro ⟨f', values, middle, hsome, hturn, hvalue, hfinite⟩
        obtain rfl := Option.some.inj hsome
        exact answers_bind_iff.2 ⟨values, middle,
          (Scope.answers_evalListWith_iff hrefer).2 hturn,
          answers_bind_iff.2 ⟨v, g', hvalue, answers_finite_iff.2 ⟨hfinite, rfl, rfl⟩⟩⟩

/-! ### The expression written out -/

/-- **Variables are evaluated where they stand.**  An expression whose references are all
bound and form no chain that is too long can be written out in exactly one way.  From every
generator on it evaluates to the same value as what is written out, with the same draws, or
both fail, and for the same reason. -/
theorem evaluate_eq_inlined (hbinds : s.Binds e) (hchains : s.ChainsWithin maxReferences e) :
    ∃ e', s.Inlines e e' ∧ (∀ other, s.Inlines e other → other = e') ∧
      (∀ g v g', Answers (s.evaluate e) g v g' ↔ Answers (s.evaluate e') g v g') ∧
      (∀ g g', (∃ err, Fails (s.evaluate e) g err g') ↔ ∃ err, Fails (s.evaluate e') g err g') ∧
      ∀ g err g', Fails (s.evaluate e) g err g' →
        ∃ err', Fails (s.evaluate e') g err' g' ∧ err.Resembles err' := by
  obtain ⟨e', hinlines, hunique⟩ := Scope.existsUnique_inlines hbinds hchains
  have htwin : Twin (s.evaluate e) (s.evaluate e') := twin_evalChain hchains hinlines
  refine ⟨e', hinlines, hunique, fun g v g' => htwin.answers_iff, fun g g' => ?_, fun g err g' =>
    htwin.fails⟩
  constructor
  · rintro ⟨err, herr⟩
    obtain ⟨err', hfails, -⟩ := htwin.fails herr
    exact ⟨err', hfails⟩
  · rintro ⟨err, herr⟩
    obtain ⟨err', hfails, -⟩ := htwin.symm.fails herr
    exact ⟨err', hfails⟩

/-- A context in which `x` stands for a draw below `y`. -/
def swaying : Context :=
  ((Context.initial (.ofSeed 7)).define "y" (.num 2)).define "x" (.call "random" [.ident "y"])

/-- Of `x + x` every sign draws on its own: the two values are different draws of the same
function, although one variable is named twice. -/
theorem draws_for_each_reference :
    let sum : Expr := .binary .add (.ident "x") (.ident "x")
    let x : Expr := .group (.call "random" [.group (.num 2)])
    swaying.scope.Binds sum ∧ swaying.scope.ChainsWithin maxReferences sum ∧
      ∀ g v g', Answers (swaying.scope.evaluate sum) g v g' ↔
        Answers (swaying.scope.evaluate (.binary .add x x)) g v g' := by
  intro sum x
  have hy : swaying.scope.bound "y" = some (.num 2) := rfl
  have hx : swaying.scope.bound "x" = some (.call "random" [.ident "y"]) := rfl
  have hvariables : ∀ name ∈ sum.references, name = "x" := by
    simp [sum, Expr.references]
  have hargument : ∀ name ∈ (Expr.call "random" [.ident "y"]).references, name = "y" := by
    simp [Expr.references, Expr.referencesOf]
  have hbinds : swaying.scope.Binds sum := by
    refine Scope.binds_of_bindings fun name hname => ?_
    obtain rfl := hvariables name hname
    refine ⟨_, hx, Scope.binds_of_bindings fun name hname => ?_⟩
    obtain rfl := hargument name hname
    exact ⟨_, hy, Scope.binds_of_bindings fun _ hnone => absurd hnone List.not_mem_nil⟩
  have hchains : swaying.scope.ChainsWithin 2 sum := by
    refine Scope.chainsWithin_succ fun name hname b hb => Scope.chainsWithin_succ ?_
    obtain rfl := hvariables name hname
    obtain rfl := Option.some.inj (hx.symm.trans hb)
    intro name hname c hc
    obtain rfl := hargument name hname
    obtain rfl := Option.some.inj (hy.symm.trans hc)
    exact Scope.chainsWithin_zero rfl
  obtain ⟨e', -, hunique, hanswers, -⟩ := evaluate_eq_inlined hbinds (hchains.mono (by decide))
  have hnumber : swaying.scope.Inlines (.ident "y") (.group (.num 2)) := .ident hy (.num 2)
  have hdraw : swaying.scope.Inlines (.ident "x") x :=
    .ident hx (.call (.cons hnumber .nil))
  rw [hunique _ (.binary hdraw hdraw)]
  exact ⟨hbinds, hchains.mono (by decide), hanswers⟩

end LSystem.Eval
