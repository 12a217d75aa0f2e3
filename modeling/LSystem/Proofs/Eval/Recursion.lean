import LSystem.Eval.Builtin
import LSystem.Proofs.Eval.Answer
import LSystem.Proofs.Eval.Order
import LSystem.Proofs.Eval.References
import LSystem.Proofs.Eval.Steady

/-!
# Evaluation through variables that lead back

`Scope.evalFrom` evaluates an expression by following the tree and the bindings wherever
they lead, and counts the nested variables on the way.  Nothing in the way it goes on says
that it ends, so it is given a number of steps and has no answer when they are used up.
There are steps enough, because the limit on the count leaves no other way than into
smaller trees (`comes_evalFrom`), and what it ends with is what `Scope.evaluate` answers.

An evaluation looks at every operand and at every argument.  So it cannot succeed when there
is anything wrong with a variable or a function to which the expression leads, and the
limit is met exactly by the expressions with a chain of references that is too long.  What
else can go wrong is listed by `Scope.Blames`.
-/

namespace LSystem.Eval

open Syntax Randomness

variable {α β : Type}

/-! ### Recursion without a bound -/

/-- Computations with the errors of evaluation that may not have come to their end. -/
abbrev PartialM := ExceptT EvalError (StateT Generator Option)

namespace PartialM

/-- A computation that has not come to its end. -/
def unfinished : PartialM α := ExceptT.mk fun _ => none

/-- A computation that has. -/
def ofEval (m : EvalM α) : PartialM α := ExceptT.mk fun g => some (m.run.run g)

/-- From some number of steps on the computation has come to its end, whatever the
generator. -/
def Comes (m : Nat → PartialM α) (whole : EvalM α) : Prop :=
  ∀ g, ∃ enough, ∀ steps, enough ≤ steps → (m steps).run.run g = some (whole.run.run g)

variable {m : Nat → PartialM α} {f : Nat → α → PartialM β} {whole : EvalM α} {rest : α → EvalM β}

/-- A computation that has come to its end has done so with no further steps. -/
theorem comes_ofEval (whole : EvalM α) : Comes (fun _ => ofEval whole) whole :=
  fun _ => ⟨0, fun _ _ => rfl⟩

/-- It does not matter from which number of steps on a computation has come to its end, so the
first step can be taken at once. -/
theorem comes_of_succ (h : Comes (fun steps => m (steps + 1)) whole) : Comes m whole := by
  intro g
  obtain ⟨enough, hends⟩ := h g
  refine ⟨enough + 1, fun steps hsteps => ?_⟩
  obtain ⟨steps, rfl⟩ := Nat.exists_eq_add_one_of_ne_zero (Nat.ne_zero_of_lt hsteps)
  exact hends steps (Nat.le_of_succ_le_succ hsteps)

/-- Computations that end follow one another to an end. The larger of the two numbers of steps is
enough for both. -/
theorem Comes.bind (h : Comes m whole) (hf : ∀ a, Comes (fun steps => f steps a) (rest a)) :
    Comes (fun steps => m steps >>= f steps) (whole >>= rest) := by
  intro g
  obtain ⟨enough, hends⟩ := h g
  match hwhole : whole.run.run g with
  | (.error err, middle) =>
      refine ⟨enough, fun steps hsteps => ?_⟩
      rw [ExceptT.run_bind, StateT.run_bind, hends steps hsteps, run_bind, hwhole]
      rfl
  | (.ok a, middle) =>
      obtain ⟨more, hmore⟩ := hf a middle
      refine ⟨max enough more, fun steps hsteps => ?_⟩
      rw [ExceptT.run_bind, StateT.run_bind, hends steps (le_of_max_le_left hsteps), run_bind,
        hwhole]
      exact hmore steps (le_of_max_le_right hsteps)

end PartialM

open PartialM

namespace Scope

/-- The value of an expression behind a number of nested variables, unless the steps are
used up before. -/
def evalFrom (s : Scope) : (steps depth : Nat) → Expr → PartialM Float
  | 0, _, _ => unfinished
  | steps + 1, depth, e =>
    match e with
    | .num value => ofEval (finite (.num value) value)
    | .ident name =>
      if maxReferences ≤ depth then ofEval (throw .depthExceeded)
      else match s.bound name with
        | none => ofEval (throw (.unknownVariable name))
        | some b => do
          let value ← s.evalFrom steps (depth + 1) b
          ofEval (finite (.ident name) value)
    | .call name args =>
      match s.native name with
      | none => ofEval (throw (.unknownFunction name))
      | some f => do
        let values ← args.mapM (s.evalFrom steps depth)
        ofEval do
          let value ← f values
          finite (.call name args) value
    | .group inner => do
      let value ← s.evalFrom steps depth inner
      ofEval (finite (.group inner) value)
    | .binary op left right => do
      let l ← s.evalFrom steps depth left
      let r ← s.evalFrom steps depth right
      ofEval do
        let value ← apply op l r
        finite (.binary op left right) value
    | .neg inner => do
      let value ← s.evalFrom steps depth inner
      ofEval (finite (.neg inner) (-value))

variable {s : Scope} {e b : Expr} {es : List Expr} {refer : String → EvalM Float} {depth : Nat}

/-- The recursion ends on arguments when it ends on each of them; the steps that are enough for
all are the most that one needs. -/
theorem comes_mapM_evalFrom
    (h : ∀ e ∈ es, Comes (fun steps => s.evalFrom steps depth e) (evalWith s.native refer e)) :
    Comes (fun steps => es.mapM (s.evalFrom steps depth)) (evalListWith s.native refer es) := by
  induction es with
  | nil => exact comes_ofEval (pure [])
  | cons e es ih =>
      obtain ⟨he, hes⟩ := List.forall_mem_cons.1 h
      simp only [List.mapM_cons]
      rw [evalListWith]
      exact he.bind fun value => (ih hes).bind fun values => comes_ofEval (pure (value :: values))

/-- The recursion ends on a tree when it ends at its variables. The induction is on the tree,
whose other parts cost no levels. -/
theorem comes_evalFrom_of_ident
    (hident : ∀ name, Comes (fun steps => s.evalFrom steps depth (.ident name))
      (evalWith s.native refer (.ident name))) :
    Comes (fun steps => s.evalFrom steps depth e) (evalWith s.native refer e) := by
  induction e using Expr.inductionOn with
  | num value =>
      rw [evalWith]
      exact comes_of_succ (comes_ofEval _)
  | ident name => exact hident name
  | call name args ih =>
      refine comes_of_succ ?_
      simp only [evalFrom, evalWith]
      cases s.native name with
      | none => exact comes_ofEval _
      | some f => exact (comes_mapM_evalFrom ih).bind fun values => comes_ofEval _
  | group inner ih | neg inner ih =>
      rw [evalWith]
      exact comes_of_succ (ih.bind fun value => comes_ofEval _)
  | binary op left right ihl ihr =>
      rw [evalWith]
      exact comes_of_succ (ihl.bind fun l => ihr.bind fun r => comes_ofEval _)

/-- **Termination.**  Behind any number of nested variables the recursion ends, and with
what a chain of as many variables as are left of the limit answers. -/
theorem comes_evalFrom (s : Scope) (depth : Nat) (e : Expr) :
    Comes (fun steps => s.evalFrom steps depth e) (s.evalChain (maxReferences - depth) e) := by
  induction hleft : maxReferences - depth generalizing depth e with
  | zero =>
      refine comes_evalFrom_of_ident fun name => comes_of_succ ?_
      simp only [evalFrom, if_pos (Nat.le_of_sub_eq_zero hleft)]
      exact comes_ofEval _
  | succ left ih =>
      refine comes_evalFrom_of_ident fun name => comes_of_succ ?_
      have hroom : ¬ maxReferences ≤ depth := by omega
      simp only [evalFrom, if_neg hroom, evalWith]
      cases s.bound name with
      | none => exact comes_ofEval _
      | some b => exact (ih (depth + 1) b (by omega)).bind fun value => comes_ofEval _

/-! ### Nothing is left out -/

variable {g g' : Generator} {v : Float} {vs : List Float} {err : EvalError} {name : String}
  {n : Nat}

/-- Every variable of an expression with a value has one, and every function is there. -/
structure Needs (native : String → Option NativeFunction) (refer : String → EvalM Float)
    (references calls : List String) : Prop where
  reference : ∀ name ∈ references, ∃ g v g', Answers (refer name) g v g'
  call : ∀ name ∈ calls, ∃ f, native name = some f

variable {native : String → Option NativeFunction}

theorem needs_nil : Needs native refer [] [] :=
  ⟨fun _ hname => absurd hname List.not_mem_nil, fun _ hname => absurd hname List.not_mem_nil⟩

/-- What two parts of an expression need is what the expression needs. So what an operator needs
is what its two sides need. -/
theorem Needs.append {references references' calls calls' : List String}
    (h : Needs native refer references calls) (h' : Needs native refer references' calls') :
    Needs native refer (references ++ references') (calls ++ calls') :=
  ⟨List.forall_mem_append.2 ⟨h.reference, h'.reference⟩,
    List.forall_mem_append.2 ⟨h.call, h'.call⟩⟩

/-- Arguments that have values have evaluated every variable in each of them. None of them can be
skipped, since a call needs the values of all its arguments. -/
theorem needs_of_evalListWith
    (ih : ∀ e ∈ es, ∀ g v g', Answers (evalWith native refer e) g v g' →
      Needs native refer e.references e.calls)
    (h : Answers (evalListWith native refer es) g vs g') :
    Needs native refer (Expr.referencesOf es) (Expr.callsOf es) := by
  induction es generalizing g vs g' with
  | nil => exact needs_nil
  | cons e es ihes =>
      obtain ⟨he, hes⟩ := List.forall_mem_cons.1 ih
      obtain ⟨v, middle, others, -, hfirst, hothers⟩ := answers_evalListWith_cons_iff.1 h
      exact (he _ _ _ hfirst).append (ihes hes hothers)

/-- An evaluation with a value has evaluated every variable of the expression. No operator and no
function leaves a part of an expression out. -/
theorem needs_of_evalWith (h : Answers (evalWith native refer e) g v g') :
    Needs native refer e.references e.calls := by
  induction e using Expr.inductionOn generalizing g v g' with
  | num value => exact needs_nil
  | ident name =>
      rw [evalWith] at h
      obtain ⟨value, middle, hvalue, -⟩ := answers_bind_iff.1 h
      refine ⟨fun other hother => ?_, fun _ hname => absurd hname List.not_mem_nil⟩
      obtain rfl := List.mem_singleton.1 hother
      exact ⟨_, _, _, hvalue⟩
  | call name args ih =>
      rw [evalWith] at h
      split at h
      · exact absurd h not_answers_throw
      · rename_i f hf
        obtain ⟨values, middle, hvalues, -⟩ := answers_bind_iff.1 h
        have hargs := needs_of_evalListWith (fun e he _ _ _ => ih e he) hvalues
        exact ⟨hargs.reference, List.forall_mem_cons.2 ⟨⟨f, hf⟩, hargs.call⟩⟩
  | group inner ih | neg inner ih =>
      rw [evalWith] at h
      obtain ⟨value, middle, hvalue, -⟩ := answers_bind_iff.1 h
      exact ih hvalue
  | binary op left right ihl ihr =>
      rw [evalWith] at h
      obtain ⟨l, middle, hl, hrest⟩ := answers_bind_iff.1 h
      obtain ⟨r, middle', hr, -⟩ := answers_bind_iff.1 hrest
      exact (ihl hl).append (ihr hr)

/-- The functions behind an expression are there when its own are, and those behind the
expressions that its variables are bound to. -/
theorem provides_of_bindings (hhere : ∀ name ∈ e.calls, ∃ f, s.native name = some f)
    (h : ∀ name ∈ e.references, ∀ b, s.bound name = some b → s.Provides b) : s.Provides e := by
  intro c hc
  cases hc with
  | refl => exact hhere
  | step hname hbound hrest => exact h _ hname _ hbound c hrest

/-- What has a value leads to known names alone, and along chains that are short enough. -/
theorem known_of_evalChain (h : Answers (s.evalChain n e) g v g') :
    s.Binds e ∧ s.Provides e ∧ s.ChainsWithin n e := by
  induction n generalizing e g v g' with
  | zero =>
      obtain ⟨hreferences, hcalls⟩ := needs_of_evalWith h
      have hnone : ∀ name, name ∉ e.references := by
        intro name hname
        obtain ⟨_, _, _, hvalue⟩ := hreferences name hname
        exact not_answers_throw hvalue
      exact ⟨binds_of_bindings fun name hname => absurd hname (hnone name),
        provides_of_bindings hcalls fun name hname => absurd hname (hnone name),
        chainsWithin_zero (List.eq_nil_iff_forall_not_mem.2 hnone)⟩
  | succ n ih =>
      obtain ⟨hreferences, hcalls⟩ := needs_of_evalWith h
      have hbound : ∀ name ∈ e.references, ∃ b, s.bound name = some b ∧
          s.Binds b ∧ s.Provides b ∧ s.ChainsWithin n b := by
        intro name hname
        obtain ⟨_, _, _, hvalue⟩ := hreferences name hname
        split at hvalue
        · exact absurd hvalue not_answers_throw
        · rename_i b hb
          exact ⟨b, hb, ih hvalue⟩
      refine ⟨binds_of_bindings fun name hname => ?_,
        provides_of_bindings hcalls fun name hname b hb => ?_,
        chainsWithin_succ fun name hname b hb => ?_⟩
      · obtain ⟨b, hb, hbinds, -⟩ := hbound name hname
        exact ⟨b, hb, hbinds⟩
      · obtain ⟨c, hc, -, hprovides, -⟩ := hbound name hname
        obtain rfl := Option.some.inj (hb.symm.trans hc)
        exact hprovides
      · obtain ⟨c, hc, -, -, hchains⟩ := hbound name hname
        obtain rfl := Option.some.inj (hb.symm.trans hc)
        exact hchains

/-! ### What goes wrong -/

/-- Where the error of an evaluation comes from.  An error of a function comes from a call of
it, out of the values that the arguments of this call have come to, and it leaves the generator
that the evaluation leaves. -/
inductive Origin (native : String → Option NativeFunction) (refer : String → EvalM Float)
    (references : List String) (applications : List (String × List Expr)) (err : EvalError)
    (g' : Generator) : Prop
  | reference {name : String} {g : Generator} (hname : name ∈ references)
      (h : Fails (refer name) g err g')
  | missing {name : String} {args : List Expr} (hcall : (name, args) ∈ applications)
      (hnone : native name = none) (herr : err = .unknownFunction name)
  | function {name : String} {args : List Expr} {f : NativeFunction} {g middle : Generator}
      {values : List Float} (hcall : (name, args) ∈ applications) (hf : native name = some f)
      (hvalues : Answers (evalListWith native refer args) g values middle)
      (h : Fails (f values) middle err g')
  | division (herr : err = .divisionByZero)
  | nonFinite (e : Expr) (value : Float) (herr : err = .nonFinite e value)

/-- What comes from a part of an expression comes from the expression. -/
theorem Origin.mono {references references' : List String}
    {applications applications' : List (String × List Expr)}
    (h : Origin native refer references applications err g')
    (hreferences : references ⊆ references') (happlications : applications ⊆ applications') :
    Origin native refer references' applications' err g' := by
  cases h with
  | reference hname h => exact .reference (hreferences hname) h
  | missing hcall hnone herr => exact .missing (happlications hcall) hnone herr
  | function hcall hf hvalues h => exact .function (happlications hcall) hf hvalues h
  | division herr => exact .division herr
  | nonFinite e value herr => exact .nonFinite e value herr

/-- The check of a value for being finite has an error of its own and no other. -/
theorem origin_of_finite {references : List String} {applications : List (String × List Expr)}
    {value : Float} (h : Fails (finite e value) g err g') :
    Origin native refer references applications err g' := by
  unfold finite at h
  split at h
  · exact absurd h not_fails_pure
  · exact .nonFinite e value (eq_of_fails_throw h)

/-- Of the operators division alone fails, and it complains of a zero. The quotient is refused
before it is computed. -/
theorem eq_of_fails_apply {op : Operator} {l r : Float} (h : Fails (apply op l r) g err g') :
    err = .divisionByZero := by
  cases op with
  | add | sub | mul => exact absurd h not_fails_pure
  | div =>
      unfold apply at h
      dsimp only at h
      split at h
      · exact eq_of_fails_throw h
      · exact absurd h not_fails_pure

/-- The error of some arguments comes from the first of them that has no value. Those before it
have values and no part in the error, and those behind it are not evaluated. -/
theorem origin_of_evalListWith
    (ih : ∀ e ∈ es, ∀ g g', Fails (evalWith native refer e) g err g' →
      Origin native refer e.references e.applications err g')
    (h : Fails (evalListWith native refer es) g err g') :
    Origin native refer (Expr.referencesOf es) (Expr.applicationsOf es) err g' := by
  induction es generalizing g g' with
  | nil => exact absurd h not_fails_pure
  | cons e es ihes =>
      obtain ⟨he, hes⟩ := List.forall_mem_cons.1 ih
      rw [evalListWith] at h
      rcases fails_bind_cases h with hfirst | ⟨value, middle, -, hrest⟩
      · exact (he _ _ hfirst).mono (List.subset_append_left _ _) (List.subset_append_left _ _)
      · rcases fails_bind_cases hrest with hothers | ⟨values, middle', -, hpure⟩
        · exact (ihes hes hothers).mono (List.subset_append_right _ _)
            (List.subset_append_right _ _)
        · exact absurd hpure not_fails_pure

/-- Every error of an evaluation comes from a variable, a function, a division or a value that
is not finite.  The induction is on the tree, and the error is that of the first part that has
no value. -/
theorem origin_of_evalWith (h : Fails (evalWith native refer e) g err g') :
    Origin native refer e.references e.applications err g' := by
  induction e using Expr.inductionOn generalizing g g' with
  | num value =>
      rw [evalWith] at h
      exact origin_of_finite h
  | ident name =>
      rw [evalWith] at h
      rcases fails_bind_cases h with hvalue | ⟨value, middle, -, hlast⟩
      · exact .reference List.mem_cons_self hvalue
      · exact origin_of_finite hlast
  | call name args ih =>
      rw [evalWith] at h
      split at h
      · rename_i hnone
        exact .missing List.mem_cons_self hnone (eq_of_fails_throw h)
      · rename_i f hf
        rcases fails_bind_cases h with hvalues | ⟨values, middle, hvalues, hrest⟩
        · exact (origin_of_evalListWith (fun e he _ _ => ih e he) hvalues).mono
            (List.Subset.refl _) (List.subset_cons_self _ _)
        · rcases fails_bind_cases hrest with hvalue | ⟨value, middle', -, hlast⟩
          · exact .function List.mem_cons_self hf hvalues hvalue
          · exact origin_of_finite hlast
  | group inner ih | neg inner ih =>
      rw [evalWith] at h
      rcases fails_bind_cases h with hvalue | ⟨value, middle, -, hlast⟩
      · exact ih hvalue
      · exact origin_of_finite hlast
  | binary op left right ihl ihr =>
      rw [evalWith] at h
      rcases fails_bind_cases h with hl | ⟨l, middle, -, hrest⟩
      · exact (ihl hl).mono (List.subset_append_left _ _) (List.subset_append_left _ _)
      · rcases fails_bind_cases hrest with hr | ⟨r, middle', -, hvalue⟩
        · exact (ihr hr).mono (List.subset_append_right _ _) (List.subset_append_right _ _)
        · rcases fails_bind_cases hvalue with happly | ⟨value, middle'', -, hlast⟩
          · exact .division (eq_of_fails_apply happly)
          · exact origin_of_finite hlast

/-- A function that is called where the expression leads to fails with the error, on the values
of the arguments that it is called with, and leaves the generator `g'`. -/
def Raises (s : Scope) (e : Expr) (err : EvalError) (g' : Generator) : Prop :=
  ∃ b, s.Reaches e b ∧ ∃ name args f, (name, args) ∈ b.applications ∧ s.native name = some f ∧
    ∃ g values middle, s.InTurn args g values middle ∧ Fails (f values) middle err g'

/-- What can be wrong with an expression whose references form no chain that is too
long, where the evaluation leaves the generator `g'`. -/
inductive Blames (s : Scope) (e : Expr) (g' : Generator) : EvalError → Prop
  | unbound {b : Expr} {name : String} (hb : s.Reaches e b) (hname : name ∈ b.references)
      (hnone : s.bound name = none) : Blames s e g' (.unknownVariable name)
  | missing {b : Expr} {name : String} (hb : s.Reaches e b) (hname : name ∈ b.calls)
      (hnone : s.native name = none) : Blames s e g' (.unknownFunction name)
  | raised {err : EvalError} (h : s.Raises e err g') : Blames s e g' err
  | division : Blames s e g' .divisionByZero
  | nonFinite (part : Expr) (value : Float) : Blames s e g' (.nonFinite part value)

/-- What is wrong behind a variable of an expression is wrong with the expression. -/
theorem Blames.step (h : s.Blames b g' err) (hname : name ∈ e.references)
    (hbound : s.bound name = some b) : s.Blames e g' err := by
  cases h with
  | unbound hb hother hnone => exact .unbound (.step hname hbound hb) hother hnone
  | missing hb hother hnone => exact .missing (.step hname hbound hb) hother hnone
  | raised h =>
      obtain ⟨c, hc, hcall⟩ := h
      exact .raised ⟨c, .step hname hbound hc, hcall⟩
  | division => exact .division
  | nonFinite part value => exact .nonFinite part value

/-- Wherever an error comes from, something is wrong with the expression, when this is so of
the errors that come from its variables. -/
theorem Origin.blames (h : Origin s.native refer e.references e.applications err g')
    (hturn : ∀ args g values middle, Answers (evalListWith s.native refer args) g values middle →
      s.InTurn args g values middle)
    (hrefer : ∀ name ∈ e.references, ∀ g, Fails (refer name) g err g' → s.Blames e g' err) :
    s.Blames e g' err := by
  cases h with
  | reference hname h => exact hrefer _ hname _ h
  | missing hcall hnone herr =>
      rw [herr]
      exact .missing (.refl e) (Expr.mem_calls hcall) hnone
  | function hcall hf hvalues h =>
      exact .raised ⟨e, .refl e, _, _, _, hcall, hf, _, _, _, hturn _ _ _ _ hvalues, h⟩
  | division herr =>
      rw [herr]
      exact .division
  | nonFinite part value herr =>
      rw [herr]
      exact .nonFinite part value

/-- Where no chain is too long, the limit on nested variables is not met. What fails is then the
tree itself or a tree that one of its chains leads to. -/
theorem blames_of_evalChain (hle : n ≤ maxReferences) (hchains : s.ChainsWithin n e)
    (h : Fails (s.evalChain n e) g err g') : s.Blames e g' err := by
  induction n generalizing e g g' with
  | zero =>
      exact (origin_of_evalWith h).blames (fun _ _ _ _ => inTurn_of_evalChain hle fun _ => rfl)
        fun name hname => absurd rfl (hchains.ne_zero hname)
  | succ n ih =>
      refine (origin_of_evalWith h).blames (fun _ _ _ _ => inTurn_of_evalChain hle fun _ => rfl)
        fun name hname g hfails => ?_
      split at hfails
      · rename_i hnone
        rw [eq_of_fails_throw hfails]
        exact .unbound (.refl e) hname hnone
      · rename_i b hbound
        exact (ih (Nat.le_of_succ_le hle) (hchains.step hname hbound) hfails).step hname hbound

end Scope

/-! ### Builtin functions -/

/-- An error about the number of arguments of a function. -/
def EvalError.IsArity (err : EvalError) : Prop :=
  ∃ function expected found, err = .arity function expected found

variable {g g' : Generator} {args : List Float} {err : EvalError}

/-- A random number between two others never fails: all it does is to draw. -/
theorem not_fails_randomBetween {low high : Float} : ¬ Fails (randomBetween low high) g err g' := by
  intro h
  rcases fails_bind_cases h with hdraw | ⟨u, middle, -, hpure⟩
  · cases hdraw
  · exact not_fails_pure hpure

/-- The function for random numbers takes at most two numbers, and complains of nothing else. -/
theorem isArity_of_fails_random (h : Fails (random args) g err g') : err.IsArity := by
  unfold random at h
  split at h
  · exact absurd h not_fails_randomBetween
  · exact absurd h not_fails_randomBetween
  · exact absurd h not_fails_randomBetween
  · exact ⟨_, _, _, eq_of_fails_throw h⟩

/-- The least or the greatest of some numbers is there unless there are no numbers at all. -/
theorem isArity_of_fails_extremum {function : String} {choose : Float → Float → Float}
    (h : Fails (extremum function choose args) g err g') : err.IsArity := by
  cases args with
  | nil => exact ⟨_, _, _, eq_of_fails_throw h⟩
  | cons first rest => exact absurd h not_fails_pure

/-- The builtin functions complain of the number of their arguments alone. What they compute from
numbers is checked by the evaluator, not by them. -/
theorem isArity_of_fails_builtin {g₀ : Generator} {name : String} {f : NativeFunction}
    (hf : (Context.initial g₀).scope.native name = some f) (h : Fails (f args) g err g') :
    err.IsArity := by
  have hmem := Bindings.mem_of_find? hf
  rcases List.mem_cons.1 hmem with hrandom | hothers
  · obtain ⟨-, rfl⟩ := Prod.mk.inj hrandom
    exact isArity_of_fails_random h
  · rcases List.mem_pair.1 hothers with hmin | hmax
    · obtain ⟨-, rfl⟩ := Prod.mk.inj hmin
      exact isArity_of_fails_extremum h
    · obtain ⟨-, rfl⟩ := Prod.mk.inj hmax
      exact isArity_of_fails_extremum h

/-! ### Recursion is rejected -/

/-- The error is not about the limit, and it is not about an unknown name when all names to
which the expression leads are known. -/
def Scope.Clears (s : Scope) (e : Expr) (err : EvalError) : Prop :=
  err ≠ .depthExceeded ∧ (s.Binds e → s.Provides e → ∀ name,
    err ≠ .unknownVariable name ∧ err ≠ .unknownFunction name)

/-- An error about the number of arguments is none about the limit and none about a name. -/
theorem EvalError.IsArity.clears (h : err.IsArity) (s : Scope) (e : Expr) : s.Clears e err := by
  obtain ⟨function, expected, found, rfl⟩ := h
  exact ⟨nofun, fun _ _ _ => ⟨nofun, nofun⟩⟩

/-- An error that no function of the scope has raised is cleared. The first of the two is left
open for functions that a caller has defined, which may raise what they like. -/
theorem Scope.Blames.raises_or_clears {s : Scope} {e : Expr} (h : s.Blames e g' err) :
    s.Raises e err g' ∨ s.Clears e err := by
  cases h with
  | raised h => exact .inl h
  | @unbound b name hb hname hnone =>
      refine .inr ⟨nofun, fun hbinds _ => absurd hnone ?_⟩
      obtain ⟨c, hbound⟩ := hbinds b hb name hname
      rw [hbound]
      exact Option.some_ne_none c
  | @missing b name hb hname hnone =>
      refine .inr ⟨nofun, fun _ hprovides => absurd hnone ?_⟩
      obtain ⟨f, hf⟩ := hprovides b hb name hname
      rw [hf]
      exact Option.some_ne_none f
  | division | nonFinite part value => exact .inr ⟨nofun, fun _ _ _ => ⟨nofun, nofun⟩⟩

/-- **Recursion through variables is rejected exactly.**  In every scope, whatever leads to
whatever in it, the recursion ends, and with what `evaluate` answers.  An expression that
has a value leads to bound variables and known functions alone; none of its chains of
references is longer than the limit, and none comes back to a name.

Where no chain is longer than the limit, an error of the evaluation is not about the limit,
and not about a name if all names are known, unless a function of the scope has answered with
it where it was called.  The builtin functions give no such error, so with these alone there
is none. -/
theorem evaluation_rejects_recursion (s : Scope) (e : Expr) :
    (∀ depth g, ∃ enough, ∀ steps, enough ≤ steps →
      ((s.evalFrom steps depth e).run.run g).isSome) ∧
    (∀ g, ∃ enough, ∀ steps, enough ≤ steps →
      (s.evalFrom steps 0 e).run.run g = some ((s.evaluate e).run.run g)) ∧
    (∀ g v g', Answers (s.evaluate e) g v g' → s.Binds e ∧ s.Provides e ∧
      ∀ names, s.Chain e names → names.length ≤ maxReferences ∧ names.Nodup) ∧
    (s.ChainsWithin maxReferences e → ∀ g err g', Fails (s.evaluate e) g err g' →
      s.Raises e err g' ∨ s.Clears e err) ∧
    ∀ g₀, s.native = (Context.initial g₀).scope.native → s.ChainsWithin maxReferences e →
      ∀ g err g', Fails (s.evaluate e) g err g' → s.Clears e err := by
  have hclears : s.ChainsWithin maxReferences e → ∀ g err g', Fails (s.evaluate e) g err g' →
      s.Raises e err g' ∨ s.Clears e err := fun hchains g err g' h =>
    (Scope.blames_of_evalChain (Nat.le_refl _) hchains h).raises_or_clears
  refine ⟨fun depth g => ?_, Scope.comes_evalFrom s 0 e, fun g v g' h => ?_, hclears,
    fun g₀ hnative hchains g err g' h => ?_⟩
  · obtain ⟨enough, hends⟩ := Scope.comes_evalFrom s depth e g
    refine ⟨enough, fun steps hsteps => ?_⟩
    rw [hends steps hsteps]
    rfl
  · obtain ⟨hbinds, hprovides, hchains⟩ := Scope.known_of_evalChain h
    exact ⟨hbinds, hprovides, fun names hchain => ⟨hchains names hchain, hchains.nodup hchain⟩⟩
  · rcases hclears hchains g err g' h with
      ⟨b, -, name, args, f, -, hf, g, values, middle, -, hfails⟩ | hother
    · rw [hnative] at hf
      exact (isArity_of_fails_builtin hf hfails).clears s e
    · exact hother

/-- A context in which two variables lead to each other, and another to a number. -/
def chasing : Context :=
  (((Context.initial (.ofSeed 7)).define "a" (.neg (.ident "b"))).define "b" (.ident "a")).define
    "y" (.num 2)

/-- In it `y` has a value and leads nowhere else, `y / 0` fails for another reason than the
limit, and `a` has no value. -/
theorem chasing_rejected :
    (Answers (chasing.scope.evaluate (.ident "y")) (.ofSeed 7) 2 (.ofSeed 7) ∧
      chasing.scope.Binds (.ident "y") ∧ chasing.scope.Provides (.ident "y") ∧
      ∀ names, chasing.scope.Chain (.ident "y") names →
        names.length ≤ maxReferences ∧ names.Nodup) ∧
    (chasing.scope.ChainsWithin maxReferences (.binary .div (.ident "y") (.num 0)) ∧
      Fails (chasing.scope.evaluate (.binary .div (.ident "y") (.num 0))) (.ofSeed 7)
        .divisionByZero (.ofSeed 7) ∧
      chasing.scope.Clears (.binary .div (.ident "y") (.num 0)) .divisionByZero) ∧
    ¬ ∃ g v g', Answers (chasing.scope.evaluate (.ident "a")) g v g' := by
  have hy : Answers (chasing.scope.evaluate (.ident "y")) (.ofSeed 7) 2 (.ofSeed 7) := by rfl
  have hzero : Fails (chasing.scope.evaluate (.binary .div (.ident "y") (.num 0))) (.ofSeed 7)
      .divisionByZero (.ofSeed 7) := by
    have hdiv : apply .div 2 0 = throw .divisionByZero := by
      unfold apply
      exact if_pos (by decide)
    have hnull : Answers (chasing.scope.evaluate (.num 0)) (.ofSeed 7) 0 (.ofSeed 7) := by rfl
    refine hy.bind_fails (hnull.bind_fails ?_)
    rw [hdiv]
    rfl
  have hchains : chasing.scope.ChainsWithin 1 (.binary .div (.ident "y") (.num 0)) := by
    refine Scope.chainsWithin_succ fun name hname b hb => ?_
    obtain rfl : name = "y" := by simpa [Expr.references] using hname
    cases hb
    exact Scope.chainsWithin_zero rfl
  have hlimit := hchains.mono (by decide : 1 ≤ maxReferences)
  have hback : chasing.scope.Chain (.ident "a") ["a", "b", "a"] :=
    .next List.mem_cons_self rfl (.next List.mem_cons_self rfl (.last List.mem_cons_self))
  obtain ⟨-, -, hvalue, -, -⟩ := evaluation_rejects_recursion chasing.scope (.ident "y")
  obtain ⟨-, -, -, -, hclears⟩ :=
    evaluation_rejects_recursion chasing.scope (.binary .div (.ident "y") (.num 0))
  obtain ⟨-, -, hcycle, -, -⟩ := evaluation_rejects_recursion chasing.scope (.ident "a")
  refine ⟨⟨hy, hvalue _ _ _ hy⟩, ⟨hlimit, hzero, hclears (.ofSeed 7) rfl hlimit _ _ _ hzero⟩, ?_⟩
  rintro ⟨g, v, g', ha⟩
  obtain ⟨-, -, hchain⟩ := hcycle g v g' ha
  exact absurd (hchain _ hback).2 (by decide)

end LSystem.Eval
