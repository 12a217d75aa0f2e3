import LSystem.Syntax.Lexer

/-!
# Parsers over a token stream

A parser looks at the token in front and moves along the stream one token at
a time.  It answers with a value or a fault, and in both cases with the stream
where it stopped, so that another parser can go on from there.  Moving past a
token that is followed by a fault fails with that fault and moves nothing.

No parser moves backwards: `length_le` is part of the type, and the one loop,
`Parser.loop`, ends because each of its rounds takes a token.
-/

namespace LSystem.Syntax

/-- The token in front of a stream. -/
def TokenStream.lookahead : TokenStream → Token
  | .token t _ => t
  | .cut t _ => t
  | .finish position => ⟨.finish, "", position⟩

/-- A parser that answers with a value of type `α`. -/
structure Parser (α : Type) where
  run : TokenStream → Except Fault α × TokenStream
  /-- A parser leaves at most what it was given. -/
  length_le : ∀ s, (run s).2.length ≤ s.length

namespace Parser

variable {α β σ : Type}

/-- The parser that takes nothing. -/
def succeed (a : α) : Parser α := ⟨fun s => (.ok a, s), fun _ => Nat.le_refl _⟩

/-- One parser after another; a fault of the first is the fault of both. -/
def andThen (p : Parser α) (f : α → Parser β) : Parser β where
  run s :=
    match p.run s with
    | (.ok a, s') => (f a).run s'
    | (.error fault, s') => (.error fault, s')
  length_le s := by
    have h := p.length_le s
    split
    · rename_i a s' hp
      rw [hp] at h
      exact Nat.le_trans ((f a).length_le s') h
    · rename_i fault s' hp
      rw [hp] at h
      exact h

instance : Monad Parser where
  pure := succeed
  bind := andThen

/-- The token in front, which stays there. -/
def lookahead : Parser Token := ⟨fun s => (.ok s.lookahead, s), fun _ => Nat.le_refl _⟩

/-- Fail with a fault. -/
def fail (fault : Fault) : Parser α := ⟨fun s => (.error fault, s), fun _ => Nat.le_refl _⟩

/-- Fail at the token in front. -/
def failHere (cause : SyntaxCause) : Parser α := do
  let t ← lookahead
  fail ⟨cause, t.position⟩

/-- Refuse the token in front. -/
def unexpected (expected : Expectation) : Parser α := do
  let t ← lookahead
  failHere (.unexpectedToken t.kind t.text expected)

/-- A value, or a failure at the token in front. -/
def ofExcept : Except SyntaxCause α → Parser α
  | .ok a => succeed a
  | .error cause => failHere cause

/-- Take the token in front.  The end of the text stays. -/
def advance : Parser Token where
  run
    | .token t rest => (.ok t, rest)
    | .cut t f => (.error f, .cut t f)
    | .finish position => (.ok ⟨.finish, "", position⟩, .finish position)
  length_le s := by cases s <;> simp [TokenStream.length]

/-- Take the token in front, which has to be of one of some kinds. -/
def consumeAny (kinds : List TokenKind) : Parser Token := do
  let t ← lookahead
  if kinds.contains t.kind then advance else unexpected (.oneOf kinds)

/-- Take the token in front, which has to be of a kind. -/
def consume (kind : TokenKind) : Parser Token := consumeAny [kind]

/-- Take the token in front when it is of a kind, and say whether it was. -/
def consumeOptional (kind : TokenKind) : Parser Bool := do
  let t ← lookahead
  if t.kind = kind then do
    let _ ← advance
    return true
  else return false

/-- A parser takes a token whenever it succeeds. -/
def Consumes (p : Parser α) : Prop :=
  ∀ s a s', p.run s = (.ok a, s') → s'.length < s.length

/-- A round of a loop takes a token whenever it asks for another round, which
it does by answering on the left. -/
def Advances (round : Parser (σ ⊕ α)) : Prop :=
  ∀ s y s', round.run s = (.ok (.inl y), s') → s'.length < s.length

/-- The rounds of a loop from a given state on. -/
def loopFrom (step : σ → Parser (σ ⊕ α)) (advances : ∀ x, Advances (step x)) (x : σ)
    (s : TokenStream) :
    { r : Except Fault α × TokenStream // r.2.length ≤ s.length } :=
  match h : (step x).run s with
  | (.error fault, s') => ⟨(.error fault, s'), by
      have hle := (step x).length_le s; rw [h] at hle; exact hle⟩
  | (.ok (.inr a), s') => ⟨(.ok a, s'), by
      have hle := (step x).length_le s; rw [h] at hle; exact hle⟩
  | (.ok (.inl y), s') =>
    have hlt := advances x s y s' h
    let r := loopFrom step advances y s'
    ⟨r.1, Nat.le_trans r.2 (Nat.le_of_lt hlt)⟩
termination_by s.length

/-- Repeat a step, handing a state from round to round, until it answers on
the right. -/
def loop (step : σ → Parser (σ ⊕ α)) (advances : ∀ x, Advances (step x)) (x : σ) :
    Parser α :=
  ⟨fun s => (loopFrom step advances x s).1, fun s => (loopFrom step advances x s).2⟩

/-- One parser after another runs the second on what the first leaves, and a fault of the first
ends both. -/
theorem run_bind (p : Parser α) (f : α → Parser β) (s : TokenStream) :
    (p >>= f).run s =
      match p.run s with
      | (.ok a, s') => (f a).run s'
      | (.error fault, s') => (.error fault, s') := rfl

theorem run_pure (a : α) (s : TokenStream) :
    (Pure.pure a : Parser α).run s = (.ok a, s) := rfl

/-- A sequence that succeeds is made of two parts that do. The second part begins where the first
has stopped. -/
theorem run_bind_eq_ok {p : Parser α} {f : α → Parser β} {s s'' : TokenStream} {b : β}
    (h : (p >>= f).run s = (.ok b, s'')) :
    ∃ a s', p.run s = (.ok a, s') ∧ (f a).run s' = (.ok b, s'') := by
  rw [run_bind] at h
  split at h
  · rename_i a s' hp
    exact ⟨a, s', hp, h⟩
  · simp at h

/-- Taking a token of a kind other than the end takes one off the stream. -/
theorem consumes_consume {kind : TokenKind} (hkind : kind ≠ .finish) :
    Consumes (consume kind) := by
  intro s t s' h
  obtain ⟨t', s₁, h₁, h₂⟩ := run_bind_eq_ok h
  obtain ⟨rfl, rfl⟩ : s.lookahead = t' ∧ s = s₁ := by simpa [lookahead] using h₁
  split at h₂
  · rename_i hc
    have hk : s.lookahead.kind = kind := by simpa using hc
    cases s with
    | token t rest =>
        obtain ⟨-, rfl⟩ : t = _ ∧ rest = s' := by simpa [advance] using h₂
        simp [TokenStream.length]
    | cut t f => simp [advance] at h₂
    | finish position => exact absurd hk.symm hkind
  · simp [unexpected, failHere, fail, run_bind, lookahead] at h₂

/-- A sequence takes a token if its second part always does. -/
theorem Consumes.bind_right {p : Parser α} {f : α → Parser β} (h : ∀ a, Consumes (f a)) :
    Consumes (p >>= f) := by
  intro s b s'' hrun
  obtain ⟨a, s', hp, hf⟩ := run_bind_eq_ok hrun
  have hle := p.length_le s
  rw [hp] at hle
  exact Nat.lt_of_lt_of_le (h a s' b s'' hf) hle

/-- A sequence takes a token if its first part does, since no parser gives one back. -/
theorem Consumes.bind_left {p : Parser α} {f : α → Parser β} (h : Consumes p) :
    Consumes (p >>= f) := by
  intro s b s'' hrun
  obtain ⟨a, s', hp, hf⟩ := run_bind_eq_ok hrun
  have hle := (f a).length_le s'
  rw [hf] at hle
  exact Nat.lt_of_le_of_lt hle (h s a s' hp)

/-- A round that takes a token in any case takes one when it hands on a state. -/
theorem Consumes.advances {round : Parser (σ ⊕ α)} (h : Consumes round) : Advances round :=
  fun s y s' hrun => h s (.inl y) s' hrun

/-- A round may begin with a look at the stream, if it takes a token whatever it has seen. -/
theorem Advances.bind_right {p : Parser β} {f : β → Parser (σ ⊕ α)}
    (h : ∀ b, Advances (f b)) : Advances (p >>= f) := by
  intro s y s'' hrun
  obtain ⟨b, s', hp, hf⟩ := run_bind_eq_ok hrun
  have hle := p.length_le s
  rw [hp] at hle
  exact Nat.lt_of_lt_of_le (h b s' y s'' hf) hle

/-- A round that only ever answers is no burden to a loop. -/
theorem advances_pure_inr (a : α) : Advances (Pure.pure (.inr a) : Parser (σ ⊕ α)) := by
  intro s y s' hrun
  simp [run_pure] at hrun

/-- A round that fails hands on no state. -/
theorem advances_fail (fault : Fault) : Advances (fail fault : Parser (σ ⊕ α)) := by
  intro s y s' hrun
  simp [fail] at hrun

theorem advances_failHere (cause : SyntaxCause) :
    Advances (failHere cause : Parser (σ ⊕ α)) :=
  Advances.bind_right fun _ => advances_fail _

theorem advances_unexpected (expected : Expectation) :
    Advances (unexpected expected : Parser (σ ⊕ α)) :=
  Advances.bind_right fun _ => advances_failHere _

end Parser

end LSystem.Syntax
