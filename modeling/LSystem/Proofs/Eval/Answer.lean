import LSystem.Eval.Basic

/-!
# Answers of computations

A computation answers with a value and leaves a generator, or it fails.
`Answers` and `Fails` are the two as relations, with one inversion lemma for
each way to build a computation; the proofs about rules, derivations and
drawings take computations apart with these alone.

The first use is that whatever an expression evaluates to is finite.
-/

namespace LSystem.Eval

open Syntax Randomness

variable {ε ε' α β : Type} {g g' : Generator}

/-- The computation answers with `a` from the generator `g` on and leaves `g'`. -/
def Answers (m : RandomM ε α) (g : Generator) (a : α) (g' : Generator) : Prop :=
  m.run.run g = (.ok a, g')

/-- The computation fails with `e` from the generator `g` on and leaves `g'`. -/
def Fails (m : RandomM ε α) (g : Generator) (e : ε) (g' : Generator) : Prop :=
  m.run.run g = (.error e, g')

/-- An answer that is not an error is some value. -/
theorem exists_of_isOk {x : Except ε α} (h : x.isOk = true) : ∃ a, x = .ok a := by
  cases x with
  | error e => cases h
  | ok a => exact ⟨a, rfl⟩

/-- A test that an answer passes is passed by some value, so it can be decided in place of finding
that value. -/
theorem exists_of_any {x : Except ε α} {p : α → Bool} (h : x.toOption.any p = true) :
    ∃ a, x = .ok a ∧ p a = true := by
  cases x with
  | error e => cases h
  | ok a => exact ⟨a, rfl, h⟩

/-- A sequence runs its first part, and goes on with the answer and the generator of this or ends
with its error. -/
theorem run_bind {m : RandomM ε α} {f : α → RandomM ε β} : (m >>= f).run.run g =
    match m.run.run g with
    | (.ok a, h) => (f a).run.run h
    | (.error e, h) => (.error e, h) := by
  rw [ExceptT.run_bind, StateT.run_bind]
  match m.run.run g with
  | (.ok a, h) => rfl
  | (.error e, h) => rfl

/-- With its errors renamed a computation runs as before. It takes the same draws and ends in the
same place; only the error it ends with has another form. -/
theorem run_adapt {m : RandomM ε α} {f : ε → ε'} : (m.adapt f).run.run g =
    match m.run.run g with
    | (.ok a, h) => (.ok a, h)
    | (.error e, h) => (.error (f e), h) := by
  unfold ExceptT.adapt
  rw [ExceptT.run_mk, StateT.run_map]
  match m.run.run g with
  | (.ok a, h) => rfl
  | (.error e, h) => rfl

/-- A value that is given is the answer, and takes no draw. -/
theorem answers_pure_iff {a b : α} :
    Answers (pure a : RandomM ε α) g b g' ↔ b = a ∧ g' = g := by
  unfold Answers
  constructor
  · intro h
    cases h
    exact ⟨rfl, rfl⟩
  · intro h
    obtain ⟨rfl, rfl⟩ := h
    rfl

theorem not_fails_pure {a : α} {e : ε} : ¬ Fails (pure a : RandomM ε α) g e g' := by
  intro h
  cases h

theorem not_answers_throw {e : ε} {a : α} : ¬ Answers (throw e : RandomM ε α) g a g' := by
  intro h
  cases h

/-- A computation that is given as a failure fails with that error and no other. -/
theorem eq_of_fails_throw {e e' : ε} (h : Fails (throw e : RandomM ε α) g e' g') : e' = e := by
  cases h
  rfl

/-- A draw never fails. It answers with the next value of the generator and leaves the generator
behind it. -/
theorem answers_draw_iff {u : Float} : Answers draw g u g' ↔ u = g.next.1 ∧ g' = g.next.2 := by
  constructor
  · intro h
    cases h
    exact ⟨rfl, rfl⟩
  · rintro ⟨rfl, rfl⟩
    rfl

/-- The second part of a sequence goes on where the first has left the
generator. -/
theorem answers_bind_iff {m : RandomM ε α} {f : α → RandomM ε β} {b : β} :
    Answers (m >>= f) g b g' ↔ ∃ a h, Answers m g a h ∧ Answers (f a) h b g' := by
  unfold Answers
  rw [run_bind]
  constructor
  · intro h
    match hm : m.run.run g, h with
    | (.ok a, middle), h => exact ⟨a, middle, rfl, h⟩
  · intro h
    obtain ⟨a, middle, hm, hf⟩ := h
    rw [hm]
    exact hf

/-- A sequence fails in its first part, or in the second after an answer of the
first. -/
theorem fails_bind_cases {m : RandomM ε α} {f : α → RandomM ε β} {e : ε}
    (h : Fails (m >>= f) g e g') :
    Fails m g e g' ∨ ∃ a middle, Answers m g a middle ∧ Fails (f a) middle e g' := by
  unfold Fails at h
  rw [run_bind] at h
  match hm : m.run.run g, h with
  | (.ok a, middle), h => exact .inr ⟨a, middle, hm, h⟩
  | (.error cause, middle), h =>
      cases h
      exact .inl hm

/-- A sequence fails when its first part does, with its error, and the second part is not
begun. -/
theorem Fails.bind {m : RandomM ε α} {f : α → RandomM ε β} {e : ε} (h : Fails m g e g') :
    Fails (m >>= f) g e g' := by
  unfold Fails at h ⊢
  rw [run_bind, h]

/-- A sequence fails when its second part does from where an answer of the first has left the
generator. -/
theorem Answers.bind_fails {m : RandomM ε α} {f : α → RandomM ε β} {a : α} {middle : Generator}
    {e : ε} (h : Answers m g a middle) (hf : Fails (f a) middle e g') :
    Fails (m >>= f) g e g' := by
  unfold Fails
  rw [run_bind, h]
  exact hf

/-- Renaming errors changes no answer. Answers are not looked at when errors are renamed. -/
theorem answers_adapt_iff {m : RandomM ε α} {f : ε → ε'} {a : α} :
    Answers (m.adapt f) g a g' ↔ Answers m g a g' := by
  unfold Answers
  rw [run_adapt]
  match m.run.run g with
  | (.ok b, h) =>
      constructor
      · intro heq
        cases heq
        rfl
      · intro heq
        cases heq
        rfl
  | (.error e, h) =>
      constructor
      · intro heq
        cases heq
      · intro heq
        cases heq

/-- A renamed error is the name of an error. So the cause can be had back from it. -/
theorem fails_adapt_iff {m : RandomM ε α} {f : ε → ε'} {e : ε'} :
    Fails (m.adapt f) g e g' ↔ ∃ cause, e = f cause ∧ Fails m g cause g' := by
  unfold Fails
  rw [run_adapt]
  match m.run.run g with
  | (.ok a, h) =>
      constructor
      · intro heq
        cases heq
      · rintro ⟨cause, -, heq⟩
        cases heq
  | (.error cause, h) =>
      constructor
      · intro heq
        cases heq
        exact ⟨cause, rfl, rfl⟩
      · rintro ⟨cause, rfl, heq⟩
        cases heq
        rfl

/-! ### Values are finite -/

/-- The check of a value passes it on when it is finite, and takes no draw. -/
theorem answers_finite_iff {e : Expr} {x v : Float} :
    Answers (finite e x) g v g' ↔ x.isFinite ∧ v = x ∧ g' = g := by
  unfold finite
  split
  · rename_i hx
    rw [answers_pure_iff]
    exact ⟨fun h => ⟨hx, h⟩, fun h => h.2⟩
  · rename_i hx
    constructor
    · intro h
      exact absurd h not_answers_throw
    · intro h
      exact absurd h.1 hx

/-- A computation whose last step asks for a finite value has a finite answer. -/
theorem isFinite_of_answers_bind {m : EvalM α} {e : Expr} {value : α → Float} {v : Float}
    (h : Answers (m >>= fun a => finite e (value a)) g v g') : v.isFinite := by
  obtain ⟨a, middle, -, hlast⟩ := answers_bind_iff.1 h
  obtain ⟨hfinite, rfl, -⟩ := answers_finite_iff.1 hlast
  exact hfinite

/-- Whatever the variables are, an expression has a finite value, because every constructor of it
ends with the check. -/
theorem isFinite_of_answers_evalWith {native : String → Option NativeFunction}
    {refer : String → EvalM Float} {e : Expr} {v : Float}
    (h : Answers (evalWith native refer e) g v g') : v.isFinite := by
  cases e with
  | num value =>
      rw [evalWith] at h
      obtain ⟨hfinite, rfl, -⟩ := answers_finite_iff.1 h
      exact hfinite
  | ident name =>
      rw [evalWith] at h
      exact isFinite_of_answers_bind h
  | call name args =>
      rw [evalWith] at h
      split at h
      · exact absurd h not_answers_throw
      · obtain ⟨values, middle, -, hlast⟩ := answers_bind_iff.1 h
        exact isFinite_of_answers_bind hlast
  | group inner =>
      rw [evalWith] at h
      exact isFinite_of_answers_bind h
  | binary op left right =>
      rw [evalWith] at h
      obtain ⟨l, middle, -, hright⟩ := answers_bind_iff.1 h
      obtain ⟨r, middle', -, hlast⟩ := answers_bind_iff.1 hright
      exact isFinite_of_answers_bind hlast
  | neg inner =>
      rw [evalWith] at h
      exact isFinite_of_answers_bind h

/-- Whatever an expression evaluates to is finite, since the value of every expression is checked
before it is handed on, that of a literal included. -/
theorem isFinite_of_answers_evaluate {s : Scope} {e : Expr} {v : Float}
    (h : Answers (s.evaluate e) g v g') : v.isFinite := by
  unfold Scope.evaluate at h
  generalize maxReferences = references at h
  cases references with
  | zero => exact isFinite_of_answers_evalWith h
  | succ references => exact isFinite_of_answers_evalWith h

end LSystem.Eval
