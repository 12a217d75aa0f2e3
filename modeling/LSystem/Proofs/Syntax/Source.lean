import LSystem.Proofs.Syntax.Reading

/-!
# Parsers over sources of tokens

A parser is given a stream in which all tokens of a text are there from the
beginning.  `Runs` says what the same descent does over any `TokenSource`, where a
token is looked at in front and taken when it is needed, and taking it may fail.
It goes along the way in which a parser is put together, and its only means are
the two functions of the source.

When the states of a source correspond to streams, a descent over the source is
the run of the parser on the stream (`Runs.run_eq`), and there is one
(`Descends`).  What a descent can complain of is told by `Runs.fault_cases`: a
fault of the source, or a place where it has seen a token.
-/

namespace LSystem.Syntax

/-- Something that tokens are taken from, one at a time. -/
structure TokenSource (σ : Type) where
  /-- The token in front. -/
  front : σ → Token
  /-- What is left when the token in front is taken, which may fail. -/
  next : σ → Except Fault σ

namespace Parser

variable {σ τ α β : Type}

/-- What a parser does over a source: from the first state of the source it comes to
an answer or a fault and to the second state. -/
inductive Runs (source : TokenSource σ) : {α : Type} → Parser α → σ → Except Fault α → σ → Prop
  | succeed {α : Type} (a : α) (x : σ) : Runs source (succeed a) x (.ok a) x
  | lookahead (x : σ) : Runs source lookahead x (.ok (source.front x)) x
  | failHere {α : Type} (cause : SyntaxCause) (x : σ) :
      Runs source (failHere cause : Parser α) x (.error ⟨cause, (source.front x).position⟩) x
  | advance {x y : σ} (hnext : source.next x = .ok y) :
      Runs source advance x (.ok (source.front x)) y
  | stuck {x : σ} {f : Fault} (hnext : source.next x = .error f) :
      Runs source advance x (.error f) x
  /-- Refuse the token that was taken, at its own place. -/
  | reject {α : Type} {p : Token → Parser α} {cause : SyntaxCause} {x y : σ}
      (hnext : source.next x = .ok y)
      (hrefuses : p (source.front x) = fail ⟨cause, (source.front x).position⟩) :
      Runs source (Parser.advance >>= p) x (.error ⟨cause, (source.front x).position⟩) y
  | bind {α β : Type} {p : Parser α} {f : α → Parser β} {a : α} {r : Except Fault β} {x y z : σ}
      (hfirst : Runs source p x (.ok a) y) (hrest : Runs source (f a) y r z) :
      Runs source (p >>= f) x r z
  | bindFault {α β : Type} {p : Parser α} {f : α → Parser β} {fault : Fault} {x y : σ}
      (hfirst : Runs source p x (.error fault) y) : Runs source (p >>= f) x (.error fault) y
  | again {τ α : Type} {step : τ → Parser (τ ⊕ α)} {advances : ∀ t, Advances (step t)} {t u : τ}
      {r : Except Fault α} {x y z : σ} (hround : Runs source (step t) x (.ok (.inl u)) y)
      (hrest : Runs source (loop step advances u) y r z) :
      Runs source (loop step advances t) x r z
  | done {τ α : Type} {step : τ → Parser (τ ⊕ α)} {advances : ∀ t, Advances (step t)} {t : τ}
      {a : α} {x y : σ} (hround : Runs source (step t) x (.ok (.inr a)) y) :
      Runs source (loop step advances t) x (.ok a) y
  | roundFault {τ α : Type} {step : τ → Parser (τ ⊕ α)} {advances : ∀ t, Advances (step t)} {t : τ}
      {fault : Fault} {x y : σ} (hround : Runs source (step t) x (.error fault) y) :
      Runs source (loop step advances t) x (.error fault) y

/-! ### Sources and streams -/

/-- The states of the source correspond to streams: the same token is in front, and
taking it comes to corresponding states or fails with the same fault. -/
structure Simulates (source : TokenSource σ) (R : σ → TokenStream → Prop) : Prop where
  front : ∀ {x s}, R x s → source.front x = s.lookahead
  next : ∀ {x s}, R x s →
    (∃ y s', source.next x = .ok y ∧ Parser.advance.run s = (.ok s.lookahead, s') ∧ R y s') ∨
      ∃ f, source.next x = .error f ∧ Parser.advance.run s = (.error f, s)

variable {source : TokenSource σ} {R : σ → TokenStream → Prop} {p : Parser α}
  {r : Except Fault α} {x y : σ}

/-- Where the source gives up a token, the stream that corresponds does so too, and what is left
corresponds. -/
theorem Simulates.advance (hsim : Simulates source R) {s : TokenStream} (hx : R x s)
    (hnext : source.next x = .ok y) :
    ∃ s', Parser.advance.run s = (.ok (source.front x), s') ∧ R y s' := by
  rcases hsim.next hx with ⟨y', s', hok, hrun, hy⟩ | ⟨f, herror, -⟩
  · rw [hnext] at hok
    cases hok
    exact ⟨s', by rw [hrun, hsim.front hx], hy⟩
  · rw [hnext] at herror
    cases herror

/-- Where the source fails, the stream that corresponds fails with the same fault. -/
theorem Simulates.stuck (hsim : Simulates source R) {s : TokenStream} (hx : R x s) {f : Fault}
    (hnext : source.next x = .error f) : Parser.advance.run s = (.error f, s) := by
  rcases hsim.next hx with ⟨y, s', hok, -⟩ | ⟨g, herror, hrun⟩
  · rw [hnext] at hok
    cases hok
  · rw [hnext] at herror
    cases herror
    exact hrun

/-- A descent over a source comes to what the parser comes to on a corresponding
stream. -/
theorem Runs.run_eq (hsim : Simulates source R) (h : Runs source p x r y) {s : TokenStream}
    (hx : R x s) : ∃ s', p.run s = (r, s') ∧ R y s' := by
  induction h generalizing s with
  | succeed a x => exact ⟨s, rfl, hx⟩
  | lookahead x => exact ⟨s, by rw [hsim.front hx]; rfl, hx⟩
  | failHere cause x => exact ⟨s, by rw [hsim.front hx]; rfl, hx⟩
  | advance hnext => exact hsim.advance hx hnext
  | stuck hnext => exact ⟨s, hsim.stuck hx hnext, hx⟩
  | reject hnext hrefuses =>
      obtain ⟨s', hrun, hy⟩ := hsim.advance hx hnext
      refine ⟨s', ?_, hy⟩
      rw [run_bind_of_eq hrun, hrefuses]
      rfl
  | bind hfirst hrest ihfirst ihrest =>
      obtain ⟨s', hrun, hy⟩ := ihfirst hx
      obtain ⟨s'', hrun', hz⟩ := ihrest hy
      exact ⟨s'', (run_bind_of_eq hrun).trans hrun', hz⟩
  | bindFault hfirst ih =>
      obtain ⟨s', hrun, hy⟩ := ih hx
      exact ⟨s', by rw [run_bind, hrun], hy⟩
  | again hround hrest ihround ihrest =>
      obtain ⟨s', hrun, hy⟩ := ihround hx
      obtain ⟨s'', hrun', hz⟩ := ihrest hy
      exact ⟨s'', by rw [run_loop, hrun]; exact hrun', hz⟩
  | done hround ih =>
      obtain ⟨s', hrun, hy⟩ := ih hx
      exact ⟨s', by rw [run_loop, hrun], hy⟩
  | roundFault hround ih =>
      obtain ⟨s', hrun, hy⟩ := ih hx
      exact ⟨s', by rw [run_loop, hrun], hy⟩

/-- What is kept when a token is taken is kept by a descent. A descent has no other means to
change the state of the source. The induction is on the descent. -/
theorem Runs.invariant {Q : σ → Prop} (hnext : ∀ {x y}, Q x → source.next x = .ok y → Q y)
    (h : Runs source p x r y) : Q x → Q y := by
  induction h with
  | succeed a x => exact id
  | lookahead x => exact id
  | failHere cause x => exact id
  | advance htaken => exact fun hx => hnext hx htaken
  | stuck hstuck => exact id
  | reject htaken hrefuses => exact fun hx => hnext hx htaken
  | bind hfirst hrest ihfirst ihrest => exact fun hx => ihrest (ihfirst hx)
  | bindFault hfirst ih => exact ih
  | again hround hrest ihround ihrest => exact fun hx => ihrest (ihround hx)
  | done hround ih => exact ih
  | roundFault hround ih => exact ih

/-- A descent that ends with a fault could not take a token, or it complains at the
place of a token that it had in front. -/
theorem Runs.fault_cases {Q : σ → Prop} (hnext : ∀ {x y}, Q x → source.next x = .ok y → Q y)
    {fault : Fault} (h : Runs source p x r y) (hx : Q x) (hr : r = .error fault) :
    (∃ z, Q z ∧ source.next z = .error fault) ∨
      ∃ z, Q z ∧ fault.position = (source.front z).position := by
  induction h with
  | succeed a x => cases hr
  | lookahead x => cases hr
  | failHere cause x =>
      cases hr
      exact .inr ⟨x, hx, rfl⟩
  | advance htaken => cases hr
  | stuck hstuck =>
      cases hr
      exact .inl ⟨_, hx, hstuck⟩
  | reject htaken hrefuses =>
      cases hr
      exact .inr ⟨_, hx, rfl⟩
  | bind hfirst hrest ihfirst ihrest => exact ihrest (hfirst.invariant hnext hx) hr
  | bindFault hfirst ih =>
      cases hr
      exact ih hx rfl
  | again hround hrest ihround ihrest => exact ihrest (hround.invariant hnext hx) hr
  | done hround ih => cases hr
  | roundFault hround ih =>
      cases hr
      exact ih hx rfl

/-! ### Descents -/

/-- A descent over the source comes to the answer, and no descent to another. -/
def AnswersOver (source : TokenSource σ) (p : Parser α) (x : σ) (answer : Except Fault α) : Prop :=
  (∃ y, Runs source p x answer y) ∧ ∀ r y, Runs source p x r y → r = answer

/-- Over every source whose states correspond to streams there is a descent of the
parser. -/
def Descends (p : Parser α) : Prop :=
  ∀ ⦃σ : Type⦄ ⦃source : TokenSource σ⦄ ⦃R : σ → TokenStream → Prop⦄, Simulates source R →
    ∀ ⦃x s⦄, R x s → ∃ r y, Runs source p x r y

/-- The descent comes to where the parser comes on a corresponding stream. -/
theorem Descends.runs (hp : Descends p) (hsim : Simulates source R) {s s' : TokenStream}
    (hx : R x s) (hrun : p.run s = (r, s')) : ∃ y, Runs source p x r y ∧ R y s' := by
  obtain ⟨r', y, hruns⟩ := hp hsim hx
  obtain ⟨z, hrun', hy⟩ := hruns.run_eq hsim hx
  rw [hrun] at hrun'
  cases hrun'
  exact ⟨y, hruns, hy⟩

/-- The answer of the descent is that of the parser on a corresponding stream. -/
theorem Descends.answersOver (hp : Descends p) (hsim : Simulates source R) {s : TokenStream}
    (hx : R x s) : AnswersOver source p x (p.run s).1 := by
  obtain ⟨y, hruns, -⟩ := hp.runs hsim hx rfl
  refine ⟨⟨y, hruns⟩, fun r z h => ?_⟩
  obtain ⟨s', hrun, -⟩ := h.run_eq hsim hx
  rw [hrun]

/-- An answer without a look at the source is a descent over any source. -/
theorem descends_succeed (a : α) : Descends (succeed a) :=
  fun _ _ _ _ x _ _ => ⟨.ok a, x, .succeed a x⟩

theorem descends_lookahead : Descends lookahead :=
  fun _ _ _ _ x _ _ => ⟨_, x, .lookahead x⟩

theorem descends_failHere (cause : SyntaxCause) : Descends (failHere cause : Parser α) :=
  fun _ _ _ _ x _ _ => ⟨_, x, .failHere cause x⟩

/-- So is the taking of a token, whether the source gives it up or fails. -/
theorem descends_advance : Descends advance := by
  intro σ source R hsim x s hx
  rcases hsim.next hx with ⟨y, s', hok, -⟩ | ⟨f, herror, -⟩
  · exact ⟨_, y, .advance hok⟩
  · exact ⟨_, x, .stuck herror⟩

/-- One descent after another is a descent; where the first comes to a fault, it is the whole. -/
theorem Descends.bind {f : α → Parser β} (hp : Descends p) (hf : ∀ a, Descends (f a)) :
    Descends (p >>= f) := by
  intro σ source R hsim x s hx
  match hrun : p.run s with
  | (.error fault, s') =>
      obtain ⟨y, hfirst, -⟩ := hp.runs hsim hx hrun
      exact ⟨_, y, hfirst.bindFault⟩
  | (.ok a, s') =>
      obtain ⟨y, hfirst, hy⟩ := hp.runs hsim hx hrun
      obtain ⟨r, z, hrest⟩ := hf a hsim hy
      exact ⟨r, z, hfirst.bind hrest⟩

/-- A loop descends when its rounds do; that it takes a token in each of them bounds
the number of its rounds. -/
theorem Descends.loop {step : τ → Parser (τ ⊕ α)} {advances : ∀ t, Advances (step t)}
    (hstep : ∀ t, Descends (step t)) (t : τ) : Descends (loop step advances t) := by
  intro σ source R hsim x s hx
  induction t, s using loopFrom.induct step advances generalizing x with
  | case1 t s fault s' hrun =>
      obtain ⟨y, hround, -⟩ := (hstep t).runs hsim hx hrun
      exact ⟨_, y, hround.roundFault⟩
  | case2 t s a s' hrun =>
      obtain ⟨y, hround, -⟩ := (hstep t).runs hsim hx hrun
      exact ⟨_, y, hround.done⟩
  | case3 t s u s' hrun hlt ih =>
      obtain ⟨y, hround, hy⟩ := (hstep t).runs hsim hx hrun
      obtain ⟨r, z, hrest⟩ := ih hy
      exact ⟨r, z, hround.again hrest⟩

end Parser

end LSystem.Syntax
