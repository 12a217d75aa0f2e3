import LSystem.Proofs.Syntax.Grammar

/-!
# Parsers against a grammar

A parser is **sound** for a relation when whatever it takes off a stream stands
in that relation to its answer, and **complete** when it finds an answer that
the relation allows, provided that what follows cannot be mistaken for more of
it.  Soundness composes along `>>=`, and `Sound.loop` is its rule for loops, an
invariant of the state and of what has been read so far.

Streams are related by `TokenStream.Reads`, which also keeps account of the
numerals: every one that is read has a finite value.
-/

namespace LSystem.Syntax

/-! ### Streams -/

/-- One stream is left of another after some lexemes, all of them legible. -/
inductive TokenStream.Reads : TokenStream → List Lexeme → TokenStream → Prop
  | refl (s : TokenStream) : Reads s [] s
  | token {t : Token} {rest s : TokenStream} {ls : List Lexeme} (legible : t.lexeme.Legible)
      (tail : Reads rest ls s) : Reads (.token t rest) (t.lexeme :: ls) s

namespace TokenStream

variable {s s' s'' : TokenStream} {l : Lexeme} {ls ms : List Lexeme}

/-- A stream that is left of a second after some lexemes, which is left of a third after others,
is left of the third after all of them. -/
theorem Reads.append (h : s.Reads ls s') (h' : s'.Reads ms s'') : s.Reads (ls ++ ms) s'' := by
  induction h with
  | refl _ => exact h'
  | token legible _ ih => exact .token legible (ih h')

theorem reads_nil_iff : s.Reads [] s' ↔ s = s' := by
  constructor
  · intro h
    cases h
    rfl
  · intro h
    subst h
    exact .refl _

/-- A stream is read through a first lexeme by taking its token, which is legible, and the others
behind it. -/
theorem reads_cons_iff :
    s.Reads (l :: ls) s' ↔
      ∃ t rest, s = .token t rest ∧ t.lexeme = l ∧ l.Legible ∧ rest.Reads ls s' := by
  constructor
  · intro h
    cases h with
    | token legible tail => exact ⟨_, _, rfl, rfl, legible, tail⟩
  · intro h
    obtain ⟨t, rest, rfl, rfl, legible, tail⟩ := h
    exact .token legible tail

/-- Reading two rows of lexemes is reading the first and then the second from what it leaves. -/
theorem reads_append_iff :
    s.Reads (ls ++ ms) s'' ↔ ∃ s', s.Reads ls s' ∧ s'.Reads ms s'' := by
  constructor
  · intro h
    induction ls generalizing s with
    | nil => exact ⟨s, .refl s, h⟩
    | cons l ls ih =>
        obtain ⟨t, rest, rfl, rfl, legible, tail⟩ := reads_cons_iff.1 h
        obtain ⟨middle, hleft, hright⟩ := ih tail
        exact ⟨middle, .token legible hleft, hright⟩
  · intro h
    obtain ⟨_, h, h'⟩ := h
    exact h.append h'

/-- The token in front is the first that is read. -/
theorem Reads.lookahead_kind (h : s.Reads (l :: ls) s') : s.lookahead.kind = l.kind := by
  obtain ⟨t, rest, rfl, rfl, -, -⟩ := reads_cons_iff.1 h
  rfl

end TokenStream

theorem Lexeme.legible_of_kind {l : Lexeme} (h : l.kind ≠ .number) : l.Legible :=
  fun hkind => absurd hkind h

namespace Parser

variable {α β σ : Type} {p : Parser α} {f : α → Parser β} {s s' : TokenStream}

/-! ### Sequences -/

/-- Parsers that answer alike are one. -/
theorem ext {p q : Parser α} (h : ∀ s, p.run s = q.run s) : p = q := by
  cases p
  cases q
  obtain rfl : _ = _ := funext h
  rfl

/-- Mapping the identity over the answer of a parser leaves it as it is, an error included. -/
theorem run_map_id (p : Parser α) (s : TokenStream) : (id <$> p).run s = p.run s := by
  change (p >>= pure).run s = p.run s
  rw [run_bind]
  cases p.run s with
  | mk answer s' => cases answer <;> rfl

/-- Putting three parsers one after the other may be bracketed either way. -/
theorem run_bind_bind {γ : Type} (p : Parser α) (f : α → Parser β) (g : β → Parser γ)
    (s : TokenStream) : (p >>= f >>= g).run s = (p >>= fun a => f a >>= g).run s := by
  simp only [run_bind]
  cases p.run s with
  | mk answer s' => cases answer <;> rfl

instance lawfulMonad : LawfulMonad Parser :=
  .mk' Parser (fun p => ext (run_map_id p)) (fun _ _ => rfl)
    fun p f g => ext (run_bind_bind p f g)

/-! ### The two properties -/

/-- What the parser takes stands in the relation to what it answers. -/
def Sound (p : Parser α) (G : List Lexeme → α → Prop) : Prop :=
  ∀ s a s', p.run s = (.ok a, s') → ∃ ls, s.Reads ls s' ∧ G ls a

/-- The parser takes what the relation allows when a token of the right kind
follows. -/
def Complete (p : Parser α) (G : List Lexeme → α → Prop) (follow : TokenKind → Prop) : Prop :=
  ∀ s ls s' a, s.Reads ls s' → G ls a → follow s'.lookahead.kind → p.run s = (.ok a, s')

/-- A parser that is sound for a relation is sound for whatever follows from it. -/
theorem Sound.mono {G H : List Lexeme → α → Prop} (h : Sound p G) (hGH : ∀ ls a, G ls a → H ls a) :
    Sound p H := by
  intro s a s' hrun
  obtain ⟨ls, hreads, hG⟩ := h s a s' hrun
  exact ⟨ls, hreads, hGH ls a hG⟩

/-- Soundness of a sequence: the second part continues what the first has
read. -/
theorem Sound.bind {G : List Lexeme → α → Prop} {H : List Lexeme → β → Prop} (hp : Sound p G)
    (hf : ∀ ls a, G ls a → Sound (f a) fun ms b => H (ls ++ ms) b) : Sound (p >>= f) H := by
  intro s b s'' hrun
  obtain ⟨a, s', hrun₁, hrun₂⟩ := run_bind_eq_ok hrun
  obtain ⟨ls, hreads₁, hG⟩ := hp s a s' hrun₁
  obtain ⟨ms, hreads₂, hH⟩ := hf ls a hG s' b s'' hrun₂
  exact ⟨ls ++ ms, hreads₁.append hreads₂, hH⟩

/-- An answer without a look at the stream is sound for what may stand for nothing read. -/
theorem sound_pure {a : α} {G : List Lexeme → α → Prop} (h : G [] a) :
    Sound (Pure.pure a : Parser α) G := by
  intro s a' s' hrun
  obtain ⟨rfl, rfl⟩ : a = a' ∧ s = s' := by simpa [run_pure] using hrun
  exact ⟨[], .refl s, h⟩

/-- Looking at the token in front reads nothing. -/
theorem Sound.lookahead {f : Token → Parser β} {H : List Lexeme → β → Prop}
    (hf : ∀ t, Sound (f t) H) : Sound (Parser.lookahead >>= f) H :=
  fun s b s' hrun => hf s.lookahead s b s' hrun

/-- What follows a look may depend on the stream that was looked at. -/
theorem Sound.lookahead_at {f : Token → Parser β} {H : List Lexeme → β → Prop}
    (hf : ∀ s b s', (f s.lookahead).run s = (.ok b, s') → ∃ ls, s.Reads ls s' ∧ H ls b) :
    Sound (Parser.lookahead >>= f) H :=
  hf

/-- A parser that fails has no answer to be unsound. -/
theorem sound_fail {fault : Fault} {G : List Lexeme → α → Prop} :
    Sound (fail fault : Parser α) G := by
  intro s a s' hrun
  simp [fail] at hrun

theorem sound_failHere {cause : SyntaxCause} {G : List Lexeme → α → Prop} :
    Sound (failHere cause : Parser α) G :=
  Sound.lookahead fun _ => sound_fail

theorem sound_unexpected {expected : Expectation} {G : List Lexeme → α → Prop} :
    Sound (unexpected expected : Parser α) G :=
  Sound.lookahead fun _ => sound_failHere

/-- An answer that was computed beforehand is sound if it may stand for nothing read. -/
theorem sound_ofExcept {r : Except SyntaxCause α} {G : List Lexeme → α → Prop}
    (h : ∀ a, r = .ok a → G [] a) : Sound (ofExcept r) G := by
  cases r with
  | ok a => exact sound_pure (h a rfl)
  | error cause => exact sound_failHere

theorem run_ofExcept_ok (a : α) (s : TokenStream) :
    (ofExcept (.ok a) : Parser α).run s = (.ok a, s) := rfl

/-! ### Single tokens -/

/-- The token in front is taken, unless it is the end. At the end nothing is taken, and so no
lexeme can be counted. -/
theorem advance_sound {t : Token} (hkind : s.lookahead.kind ≠ .finish)
    (hrun : advance.run s = (.ok t, s')) :
    t = s.lookahead ∧ (t.lexeme.Legible → s.Reads [t.lexeme] s') := by
  cases s with
  | token u rest =>
      obtain ⟨rfl, rfl⟩ : u = t ∧ rest = s' := by simpa [advance] using hrun
      exact ⟨rfl, fun hlegible => .token hlegible (.refl _)⟩
  | cut u fault => simp [advance] at hrun
  | finish position => exact absurd rfl hkind

/-- Soundness of what follows a token that is taken without asking. The parser knows the kind of
the token by a look at it, and it still has to see to the value of a numeral. -/
theorem advance_bind_sound {f : Token → Parser β} {H : List Lexeme → β → Prop} {b : β}
    (hfinish : s.lookahead.kind ≠ .finish)
    (hf : ∀ t, t.kind = s.lookahead.kind →
      Sound (f t) fun ls b => t.lexeme.Legible ∧ H (t.lexeme :: ls) b)
    (hrun : (advance >>= f).run s = (.ok b, s')) : ∃ ls, s.Reads ls s' ∧ H ls b := by
  obtain ⟨t, s₁, hadvance, hrest⟩ := run_bind_eq_ok hrun
  obtain ⟨rfl, hreads⟩ := advance_sound hfinish hadvance
  obtain ⟨ls, hreads', hlegible, hH⟩ := hf _ rfl s₁ b s' hrest
  exact ⟨_ :: ls, (hreads hlegible).append hreads', hH⟩

/-- Soundness of what follows a token that is no numeral. It is legible without being looked
at. -/
theorem advance_bind_sound_of_ne {f : Token → Parser β} {H : List Lexeme → β → Prop} {b : β}
    (hfinish : s.lookahead.kind ≠ .finish) (hnumber : s.lookahead.kind ≠ .number)
    (hf : ∀ t, t.kind = s.lookahead.kind → Sound (f t) fun ls b => H (t.lexeme :: ls) b)
    (hrun : (advance >>= f).run s = (.ok b, s')) : ∃ ls, s.Reads ls s' ∧ H ls b :=
  advance_bind_sound hfinish (fun t ht => (hf t ht).mono fun _ _ hH =>
    ⟨Lexeme.legible_of_kind fun h => hnumber (ht.symm.trans h), hH⟩) hrun

/-- What is consumed is the token in front, of one of the kinds. -/
theorem consumeAny_sound {kinds : List TokenKind} {t : Token} (hfinish : .finish ∉ kinds)
    (hnumber : .number ∉ kinds) (hrun : (consumeAny kinds).run s = (.ok t, s')) :
    t = s.lookahead ∧ t.kind ∈ kinds ∧ s.Reads [t.lexeme] s' := by
  rw [consumeAny, run_bind] at hrun
  simp only [Parser.lookahead] at hrun
  split at hrun
  · rename_i hcontains
    have hmem : s.lookahead.kind ∈ kinds := by simpa using hcontains
    obtain ⟨rfl, hreads⟩ := advance_sound (fun h => hfinish (h ▸ hmem)) hrun
    exact ⟨rfl, hmem, hreads (Lexeme.legible_of_kind fun h => hnumber (h ▸ hmem))⟩
  · obtain ⟨_, _, hG⟩ := sound_unexpected (G := fun _ _ => False) s t s' hrun
    exact hG.elim

/-- Taking a token of some kinds is sound for the single lexeme of this token. The end and
numerals are left out: the one takes nothing, the others have a value to be checked. -/
theorem sound_consumeAny {kinds : List TokenKind} (hfinish : .finish ∉ kinds)
    (hnumber : .number ∉ kinds) :
    Sound (consumeAny kinds) fun ls t => t.kind ∈ kinds ∧ ls = [t.lexeme] := by
  intro s t s' hrun
  obtain ⟨-, hmem, hreads⟩ := consumeAny_sound hfinish hnumber hrun
  exact ⟨_, hreads, hmem, rfl⟩

/-- Taking a token of one kind is sound for the single lexeme of this token. -/
theorem sound_consume {kind : TokenKind} (hfinish : kind ≠ .finish) (hnumber : kind ≠ .number) :
    Sound (consume kind) fun ls t => t.kind = kind ∧ ls = [t.lexeme] :=
  (sound_consumeAny (by simpa using hfinish.symm) (by simpa using hnumber.symm)).mono
    (by simp)

/-- Taking a token if it is of a kind is sound for one lexeme or for none, as the answer says. -/
theorem sound_consumeOptional {kind : TokenKind} (hfinish : kind ≠ .finish)
    (hnumber : kind ≠ .number) :
    Sound (consumeOptional kind) fun ls found =>
      match found with
      | true => ∃ l : Lexeme, l.kind = kind ∧ ls = [l]
      | false => ls = [] := by
  intro s found s' hrun
  simp only [consumeOptional, run_bind, Parser.lookahead] at hrun
  split at hrun
  · rename_i hkind
    obtain ⟨t, s₁, hadvance, hpure⟩ := run_bind_eq_ok hrun
    obtain ⟨rfl, rfl⟩ : true = found ∧ s₁ = s' := by simpa [run_pure] using hpure
    obtain ⟨rfl, hreads⟩ := advance_sound (hkind ▸ hfinish) hadvance
    exact ⟨_, hreads (Lexeme.legible_of_kind fun h => hnumber (hkind ▸ h)), _, hkind, rfl⟩
  · obtain ⟨rfl, rfl⟩ : false = found ∧ s = s' := by simpa [run_pure] using hrun
    exact ⟨[], .refl s, rfl⟩

/-- Soundness of a choice by the token in front. Where the token is missing nothing has been taken
before the other part. -/
theorem Sound.optional {kind : TokenKind} {found missing : Parser β}
    {H : List Lexeme → β → Prop} (hfinish : kind ≠ .finish) (hnumber : kind ≠ .number)
    (hfound : ∀ l : Lexeme, l.kind = kind → Sound found fun ls b => H (l :: ls) b)
    (hmissing : Sound missing H) :
    Sound (consumeOptional kind >>= fun b => if b = true then found else missing) H := by
  refine (sound_consumeOptional hfinish hnumber).bind fun ls b hread => ?_
  cases b with
  | true =>
      obtain ⟨l, hkind, rfl⟩ := hread
      exact hfound l hkind
  | false =>
      subst hread
      exact hmissing

theorem run_lookahead_bind (f : Token → Parser β) (s : TokenStream) :
    (Parser.lookahead >>= f).run s = (f s.lookahead).run s := rfl

/-- A look at a token that is then taken. So a parser that looks first and then takes is the one
that goes on with the token. -/
theorem run_lookahead_advance {f g : Token → Parser β} {t : Token} {rest : TokenStream}
    {answer : Except Fault β × TokenStream} (hf : f t = advance >>= g)
    (hg : (g t).run rest = answer) :
    (Parser.lookahead >>= f).run (.token t rest) = answer := by
  rw [run_lookahead_bind, TokenStream.lookahead, hf]
  exact hg

/-- The second part of a sequence goes on where the first has come to. -/
theorem run_bind_of_eq {a : α} (h : p.run s = (.ok a, s')) : (p >>= f).run s = (f a).run s' := by
  rw [run_bind, h]

/-- A token in front that is of one of the kinds is taken. -/
theorem run_consumeAny {kinds : List TokenKind} {t : Token} {rest : TokenStream}
    (h : t.kind ∈ kinds) : (consumeAny kinds).run (.token t rest) = (.ok t, rest) := by
  have hcontains : kinds.contains t.kind = true := by simpa using h
  simp only [consumeAny, run_bind, Parser.lookahead, TokenStream.lookahead, hcontains]
  rfl

theorem run_consume {kind : TokenKind} {t : Token} {rest : TokenStream} (h : t.kind = kind) :
    (consume kind).run (.token t rest) = (.ok t, rest) := run_consumeAny (by simp [h])

/-- A token in front that is of the kind is taken, and the answer says so. -/
theorem run_consumeOptional {kind : TokenKind} {t : Token} {rest : TokenStream}
    (h : t.kind = kind) : (consumeOptional kind).run (.token t rest) = (.ok true, rest) := by
  simp only [consumeOptional, run_bind, Parser.lookahead, TokenStream.lookahead, h]
  rfl

theorem run_consumeOptional_of_ne {kind : TokenKind} (h : s.lookahead.kind ≠ kind) :
    (consumeOptional kind).run s = (.ok false, s) := by
  simp [consumeOptional, run_bind, run_pure, Parser.lookahead, h]

/-! ### What a parser that succeeds has done -/

/-- An answer that was computed beforehand is the one that the parser gives, over the same
stream. -/
theorem run_ofExcept_eq_ok {r : Except SyntaxCause α} {a : α}
    (h : (ofExcept r).run s = (.ok a, s')) : r = .ok a ∧ s = s' := by
  cases r with
  | ok b =>
      cases h
      exact ⟨rfl, rfl⟩
  | error cause => cases h

/-- A token that is taken, and that is not the end, was in front of what is left. -/
theorem run_advance_eq_ok {t : Token} (hkind : s.lookahead.kind ≠ .finish)
    (h : advance.run s = (.ok t, s')) : s = .token t s' := by
  cases s with
  | token u rest =>
      cases h
      rfl
  | cut u fault => cases h
  | finish position => exact absurd rfl hkind

/-- A token of a kind that is taken was in front of what is left and is of this kind. -/
theorem run_consume_eq_ok {kind : TokenKind} {t : Token} (hfinish : kind ≠ .finish)
    (h : (consume kind).run s = (.ok t, s')) : s = .token t s' ∧ t.kind = kind := by
  rw [consume, consumeAny, run_lookahead_bind] at h
  split at h
  · rename_i hcontains
    have hkind : s.lookahead.kind = kind := by simpa using hcontains
    obtain rfl := run_advance_eq_ok (hkind ▸ hfinish) h
    exact ⟨rfl, hkind⟩
  · cases h

/-- Taking a token if it is of a kind has either taken one or left the stream with another token
in front. -/
theorem run_consumeOptional_eq_ok {kind : TokenKind} {found : Bool} (hfinish : kind ≠ .finish)
    (h : (consumeOptional kind).run s = (.ok found, s')) :
    (found = true ∧ ∃ t, s = .token t s' ∧ t.kind = kind) ∨
      (found = false ∧ s = s' ∧ s.lookahead.kind ≠ kind) := by
  rw [consumeOptional, run_lookahead_bind] at h
  split at h
  · rename_i hkind
    obtain ⟨t, after, hadvance, h⟩ := run_bind_eq_ok h
    obtain rfl := run_advance_eq_ok (hkind ▸ hfinish) hadvance
    cases h
    exact .inl ⟨rfl, t, rfl, hkind⟩
  · rename_i hkind
    cases h
    exact .inr ⟨rfl, rfl, hkind⟩

/-! ### Loops -/

/-- One round of a loop, and the loop from the state that it hands on. -/
theorem run_loop {step : σ → Parser (σ ⊕ α)} {advances : ∀ x, Advances (step x)} (x : σ)
    (s : TokenStream) :
    (loop step advances x).run s =
      match (step x).run s with
      | (.error fault, s') => (.error fault, s')
      | (.ok (.inr a), s') => (.ok a, s')
      | (.ok (.inl y), s') => (loop step advances y).run s' := by
  simp only [loop]
  rw [loopFrom]
  split <;> rename_i h <;> simp [h]

/-- A loop is a round and, where that asks for more, the loop. -/
theorem loop_eq {step : σ → Parser (σ ⊕ α)} {advances : ∀ x, Advances (step x)} (x : σ) :
    loop step advances x = step x >>= Sum.elim (loop step advances) pure := by
  refine ext fun s => ?_
  rw [run_loop, run_bind]
  cases (step x).run s with
  | mk answer s' =>
      cases answer with
      | error fault => rfl
      | ok r => cases r <;> rfl

/-- What a loop has read after a round: an invariant holds of a state that is
handed on, and an answer is in a relation to it. -/
def Round (Inv : σ → List Lexeme → Prop) (G : List Lexeme → α → Prop) (ls : List Lexeme) :
    σ ⊕ α → Prop
  | .inl y => Inv y ls
  | .inr a => G ls a

@[simp] theorem round_inl {Inv : σ → List Lexeme → Prop} {G : List Lexeme → α → Prop}
    {ls : List Lexeme} {y : σ} : Round Inv G ls (.inl y) ↔ Inv y ls := Iff.rfl

@[simp] theorem round_inr {Inv : σ → List Lexeme → Prop} {G : List Lexeme → α → Prop}
    {ls : List Lexeme} {a : α} : Round Inv G ls (.inr a) ↔ G ls a := Iff.rfl

/-- Soundness of a loop by an invariant of its state and of what it has read. -/
theorem Sound.loop {step : σ → Parser (σ ⊕ α)} {advances : ∀ x, Advances (step x)}
    {Inv : σ → List Lexeme → Prop} {G : List Lexeme → α → Prop}
    (hstep : ∀ x ms, Inv x ms → Sound (step x) fun ls => Round Inv G (ms ++ ls))
    {x : σ} {ms : List Lexeme} (hinv : Inv x ms) :
    Sound (Parser.loop step advances x) fun ls a => G (ms ++ ls) a := by
  intro s
  induction x, s using loopFrom.induct step advances generalizing ms with
  | case1 x s fault s₁ hround =>
      intro a s' hrun
      rw [run_loop, hround] at hrun
      cases hrun
  | case2 x s b s₁ hround =>
      intro a s' hrun
      rw [run_loop, hround] at hrun
      cases hrun
      exact hstep x ms hinv s _ s₁ hround
  | case3 x s y s₁ hround hlt ih =>
      intro a s' hrun
      rw [run_loop, hround] at hrun
      obtain ⟨ls, hreads, hinv'⟩ := hstep x ms hinv s _ s₁ hround
      obtain ⟨ns, hreads', hG⟩ := ih hinv' a s' hrun
      exact ⟨ls ++ ns, hreads.append hreads', by simpa using hG⟩

end Parser

end LSystem.Syntax
