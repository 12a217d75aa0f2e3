import LSystem.Proofs.Eval.Answer
import LSystem.Proofs.Syntax.WellFormed

/-!
# Evaluation in turn

The draws of an expression come out of one generator, so its value depends on the order in
which its parts are evaluated.  `Scope.InTurn` says of several expressions that each is
evaluated where the one before it has left the generator, and the arguments of a function are
evaluated so (`answers_evalListWith_iff`).

The limit on nested variables has no part in this: a value that is found with some of it left
is found with more of it left (`answers_evalChain_mono`).
-/

namespace LSystem.Eval

open Syntax Randomness

variable {native : String → Option NativeFunction} {refer refer' : String → EvalM Float}
  {e : Expr} {es : List Expr} {g g' : Generator} {v : Float} {vs : List Float}

/-! ### The first argument and the others -/

/-- No arguments have no values, and take no draws. -/
theorem answers_evalListWith_nil_iff :
    Answers (evalListWith native refer []) g vs g' ↔ vs = [] ∧ g' = g :=
  answers_pure_iff

/-- Arguments have values when the first has one and the others have values from the generator
on that it has left. -/
theorem answers_evalListWith_cons_iff :
    Answers (evalListWith native refer (e :: es)) g vs g' ↔
      ∃ v middle others, vs = v :: others ∧ Answers (evalWith native refer e) g v middle ∧
        Answers (evalListWith native refer es) middle others g' := by
  rw [evalListWith]
  constructor
  · intro h
    obtain ⟨v, middle, hfirst, hrest⟩ := answers_bind_iff.1 h
    obtain ⟨others, last, hothers, hpure⟩ := answers_bind_iff.1 hrest
    obtain ⟨rfl, rfl⟩ := answers_pure_iff.1 hpure
    exact ⟨v, middle, others, rfl, hfirst, hothers⟩
  · rintro ⟨v, middle, others, rfl, hfirst, hothers⟩
    exact answers_bind_iff.2 ⟨v, middle, hfirst,
      answers_bind_iff.2 ⟨others, g', hothers, answers_pure_iff.2 ⟨rfl, rfl⟩⟩⟩

/-! ### More room for variables -/

/-- If a variable that has a value in one way has the same value in another way, then so do
the arguments of a function, given that each of them does. -/
theorem answers_evalListWith_mono
    (h : ∀ e ∈ es, ∀ g v g', Answers (evalWith native refer e) g v g' →
      Answers (evalWith native refer' e) g v g')
    (hvalues : Answers (evalListWith native refer es) g vs g') :
    Answers (evalListWith native refer' es) g vs g' := by
  induction es generalizing g vs g' with
  | nil => exact hvalues
  | cons e es ih =>
      obtain ⟨he, hes⟩ := List.forall_mem_cons.1 h
      obtain ⟨v, middle, others, rfl, hfirst, hothers⟩ := answers_evalListWith_cons_iff.1 hvalues
      exact answers_evalListWith_cons_iff.2
        ⟨v, middle, others, rfl, he _ _ _ hfirst, ih hes hothers⟩

/-- An expression keeps its value, and its draws, when the variables that have values keep
theirs.  What happens at variables without a value is of no account. -/
theorem answers_evalWith_mono
    (hrefer : ∀ name g v g', Answers (refer name) g v g' → Answers (refer' name) g v g')
    (h : Answers (evalWith native refer e) g v g') : Answers (evalWith native refer' e) g v g' := by
  induction e using Expr.inductionOn generalizing g v g' with
  | num value => exact h
  | ident name =>
      rw [evalWith] at h ⊢
      obtain ⟨value, middle, hvalue, hlast⟩ := answers_bind_iff.1 h
      exact answers_bind_iff.2 ⟨value, middle, hrefer _ _ _ _ hvalue, hlast⟩
  | call name args ih =>
      rw [evalWith] at h ⊢
      split at h
      · exact absurd h not_answers_throw
      · obtain ⟨values, middle, hvalues, hrest⟩ := answers_bind_iff.1 h
        exact answers_bind_iff.2 ⟨values, middle,
          answers_evalListWith_mono (fun e he _ _ _ => ih e he) hvalues, hrest⟩
  | group inner ih | neg inner ih =>
      rw [evalWith] at h ⊢
      obtain ⟨value, middle, hvalue, hlast⟩ := answers_bind_iff.1 h
      exact answers_bind_iff.2 ⟨value, middle, ih hvalue, hlast⟩
  | binary op left right ihl ihr =>
      rw [evalWith] at h ⊢
      obtain ⟨l, middle, hl, hrest⟩ := answers_bind_iff.1 h
      obtain ⟨r, middle', hr, hlast⟩ := answers_bind_iff.1 hrest
      exact answers_bind_iff.2 ⟨l, middle, ihl hl,
        answers_bind_iff.2 ⟨r, middle', ihr hr, hlast⟩⟩

namespace Scope

variable {s : Scope} {m n : Nat}

/-- A value that is found by way of some number of nested variables is found by way of any
greater number of them, with the same draws. -/
theorem answers_evalChain_mono (hle : n ≤ m) (h : Answers (s.evalChain n e) g v g') :
    Answers (s.evalChain m e) g v g' := by
  induction n generalizing m e g v g' with
  | zero =>
      cases m with
      | zero => exact h
      | succ m =>
          exact answers_evalWith_mono (fun _ _ _ _ hvalue => absurd hvalue not_answers_throw) h
  | succ n ih =>
      obtain ⟨m, rfl⟩ := Nat.exists_eq_add_one_of_ne_zero (Nat.ne_zero_of_lt hle)
      refine answers_evalWith_mono (fun name g v g' hvalue => ?_) h
      split at hvalue
      · exact absurd hvalue not_answers_throw
      · exact ih (Nat.le_of_succ_le_succ hle) hvalue

/-! ### In turn -/

/-- The expressions have the values one after another: the evaluation of each begins with the
generator that the one before it has left. -/
inductive InTurn (s : Scope) : List Expr → Generator → List Float → Generator → Prop
  | nil (g : Generator) : InTurn s [] g [] g
  | cons {e : Expr} {es : List Expr} {g middle g' : Generator} {v : Float} {vs : List Float}
      (hfirst : Answers (s.evaluate e) g v middle) (hrest : InTurn s es middle vs g') :
      InTurn s (e :: es) g (v :: vs) g'

/-- The arguments of a function are evaluated in turn, where an evaluation of each of them
comes to what `evaluate` answers. -/
theorem inTurn_of_evalListWith
    (h : ∀ e g v g', Answers (evalWith native refer e) g v g' → Answers (s.evaluate e) g v g')
    (hvalues : Answers (evalListWith native refer es) g vs g') : s.InTurn es g vs g' := by
  induction es generalizing g vs g' with
  | nil =>
      obtain ⟨rfl, rfl⟩ := answers_evalListWith_nil_iff.1 hvalues
      exact .nil g'
  | cons e es ih =>
      obtain ⟨v, middle, others, rfl, hfirst, hothers⟩ := answers_evalListWith_cons_iff.1 hvalues
      exact .cons (h _ _ _ _ hfirst) (ih hothers)

/-- Behind any number of nested variables that the limit allows, the arguments of a function
are evaluated in turn. -/
theorem inTurn_of_evalChain (hle : n ≤ maxReferences)
    (hrefer : ∀ e, s.evalChain n e = evalWith s.native refer e)
    (h : Answers (evalListWith s.native refer es) g vs g') : s.InTurn es g vs g' := by
  refine inTurn_of_evalListWith (fun e g v g' hvalue => ?_) h
  rw [← hrefer] at hvalue
  exact answers_evalChain_mono hle hvalue

/-- What is evaluated in turn answers as the arguments of a function do, and the other way
round, when the variables have the values that they have for `evaluate`. -/
theorem answers_evalListWith_iff (hrefer : ∀ e, s.evaluate e = evalWith s.native refer e) :
    Answers (evalListWith s.native refer es) g vs g' ↔ s.InTurn es g vs g' := by
  refine ⟨inTurn_of_evalChain (Nat.le_refl _) hrefer, fun h => ?_⟩
  induction h with
  | nil g => exact answers_evalListWith_nil_iff.2 ⟨rfl, rfl⟩
  | cons hfirst hrest ih =>
      rw [hrefer] at hfirst
      exact answers_evalListWith_cons_iff.2 ⟨_, _, _, rfl, hfirst, ih⟩

end Scope

end LSystem.Eval
