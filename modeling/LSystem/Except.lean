/-!
# Answers with errors

What the answer of a computation that may fail says about its parts.
-/

namespace LSystem

variable {ε ε' α β : Type}

/-- A sequence that succeeds has two parts that do. -/
theorem bind_eq_ok {m : Except ε α} {f : α → Except ε β} {b : β}
    (h : (m >>= f) = .ok b) : ∃ a, m = .ok a ∧ f a = .ok b := by
  cases m with
  | error e => cases h
  | ok a => exact ⟨a, rfl, h⟩

/-- A sequence fails in its first part, or in the second after an answer of the
first. -/
theorem bind_eq_error_iff {m : Except ε α} {f : α → Except ε β} {e : ε} :
    (m >>= f) = .error e ↔ m = .error e ∨ ∃ a, m = .ok a ∧ f a = .error e := by
  cases m with
  | error cause =>
      constructor
      · intro h
        cases h
        exact .inl rfl
      · rintro (h | ⟨a, h, -⟩)
        · cases h
          rfl
        · cases h
  | ok a =>
      constructor
      · intro h
        exact .inr ⟨a, rfl, h⟩
      · rintro (h | ⟨b, h, hf⟩)
        · cases h
        · cases h
          exact hf

/-- Giving errors another form changes no answer. -/
theorem mapError_eq_ok_iff {x : Except ε α} {f : ε → ε'} {a : α} :
    x.mapError f = .ok a ↔ x = .ok a := by
  cases x with
  | error e => constructor <;> intro h <;> cases h
  | ok b => constructor <;> intro h <;> cases h <;> rfl

/-- Whether an answer is a given error can be decided without comparing answers. -/
instance decidableEqError [DecidableEq ε] (x : Except ε α) (e : ε) : Decidable (x = .error e) :=
  match x with
  | .error e' =>
    if h : e' = e then .isTrue (congrArg Except.error h)
    else .isFalse fun heq => h (Except.error.inj heq)
  | .ok _ => .isFalse nofun

end LSystem
