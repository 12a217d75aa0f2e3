import LSystem.Proofs.Syntax.Reading
import LSystem.Proofs.Syntax.Viable.Words

/-!
# Parsers that refuse the first impossible token

A parser **predicts** a language when the token in front always settles how to go on.
What it takes is a word, and whatever goes on with that token goes on behind the word;
where it refuses a token, some word goes on from what it has taken, but none with that
token.  Both are said of a language `K` of what may come behind: the words are those of
`L * K`, which is what makes prediction compose along `>>=`, the rest of a sequence
being a part of what may come behind.

Only the limits on heights and numerals are not predicted, which are no matter of
single tokens.
-/

namespace LSystem.Syntax

/-! ### Streams that no fault cuts short -/

namespace TokenStream

variable {s s' : TokenStream} {ls : List Lexeme}

/-- The stream goes on to the end of the text. -/
def Whole : TokenStream → Prop
  | .token _ rest => rest.Whole
  | .cut _ _ => False
  | .finish _ => True

/-- What is left of a stream that no fault cuts short is cut short by none. -/
theorem Reads.whole (h : s.Reads ls s') (hs : s.Whole) : s'.Whole := by
  induction h with
  | refl _ => exact hs
  | token _ _ ih => exact ih hs

/-- What is read and the token behind it begin with the token in front. -/
theorem Reads.exists_cons (h : s.Reads ls s') (ws : List Lexeme) :
    ∃ rest, ls ++ s'.lookahead.lexeme :: ws = s.lookahead.lexeme :: rest := by
  cases h with
  | refl _ => exact ⟨ws, rfl⟩
  | token _ _ => exact ⟨_, rfl⟩

end TokenStream

/-- The causes that are no matter of a single token. -/
def SyntaxCause.Limits : SyntaxCause → Prop
  | .invalidNumber _ => True
  | .tooDeep => True
  | _ => False

namespace Parser

variable {α β σ : Type} {p q : Parser α} {f : α → Parser β} {L M K : Language Lexeme}
  {s : TokenStream} {kinds : List TokenKind} {kind : TokenKind}

/-! ### Sequences -/

/-- What is left when a parser stops is not longer than what it was given. -/
theorem length_le_of_run {s' : TokenStream} {r : Except Fault α} (h : p.run s = (r, s')) :
    s'.length ≤ s.length := by
  have hle := p.length_le s
  rwa [h] at hle

/-! ### Prediction -/

/-- From a stream on the parser takes words of one language and refuses the first token
that goes on with no word of it, when another language says what may come behind. -/
structure Predicts (p : Parser α) (L K : Language Lexeme) (s : TokenStream) : Prop where
  taken : ∀ a s', p.run s = (.ok a, s') → ∃ ls, s.Reads ls s' ∧ ls ∈ L ∧
    ∀ ws, ls ++ s'.lookahead.lexeme :: ws ∈ L * K → s'.lookahead.lexeme :: ws ∈ K
  refused : ∀ fault s', p.run s = (.error fault, s') → ¬fault.cause.Limits →
    fault.position = s'.lookahead.position ∧ ∃ ls, s.Reads ls s' ∧ (∃ ms, ls ++ ms ∈ L) ∧
      ∀ ws, ls ++ s'.lookahead.lexeme :: ws ∉ L * K

/-- The parser predicts the language wherever a token of the right kind has to follow. -/
def Predictive (p : Parser α) (L : Language Lexeme) (follow : TokenKind → Prop) : Prop :=
  ∀ s K, s.Whole → Opens K follow → Predicts p L K s

/-- A parser that predicts where some kinds of token may follow does so where fewer may. -/
theorem Predictive.mono {follow follow' : TokenKind → Prop} (h : Predictive p L follow)
    (himp : ∀ kind, follow' kind → follow kind) : Predictive p L follow' :=
  fun s K hs hK => h s K hs (hK.mono himp)

/-- A language that says more than a parser reads from here on. The token in front has to rule out
whatever is only in the larger language. -/
theorem Predicts.narrow (h : Predicts p L K s) (hle : L ≤ M)
    (hcut : ∀ ws, s.lookahead.lexeme :: ws ∈ M * K → s.lookahead.lexeme :: ws ∈ L * K) :
    Predicts p M K s := by
  constructor
  · intro a s' hrun
    obtain ⟨ls, hreads, hmem, hends⟩ := h.taken a s' hrun
    refine ⟨ls, hreads, hle hmem, fun ws hws => hends ws ?_⟩
    obtain ⟨rest, hrest⟩ := hreads.exists_cons ws
    rw [hrest] at hws ⊢
    exact hcut rest hws
  · intro fault s' hrun hcause
    obtain ⟨hplace, ls, hreads, ⟨ms, hms⟩, hnone⟩ := h.refused fault s' hrun hcause
    refine ⟨hplace, ls, hreads, ⟨ms, hle hms⟩, fun ws hws => hnone ws ?_⟩
    obtain ⟨rest, hrest⟩ := hreads.exists_cons ws
    rw [hrest] at hws ⊢
    exact hcut rest hws

/-- The token in front does not begin the second alternative. -/
theorem Predicts.left (h : Predicts p L K s) (hM : Opens (M * K) (· ≠ s.lookahead.kind)) :
    Predicts p (L + M) K s := by
  refine h.narrow le_self_add fun ws hws => ?_
  rw [right_distrib, Language.mem_add] at hws
  exact hws.resolve_right (hM.not_mem_cons (by simp [Token.lexeme]) ws)

/-- The token in front does not begin the first alternative. -/
theorem Predicts.right (h : Predicts p M K s) (hL : Opens (L * K) (· ≠ s.lookahead.kind)) :
    Predicts p (L + M) K s := by
  rw [add_comm]
  exact h.left hL

/-- An answer without a look at the stream predicts the empty word: whatever comes behind comes
next. -/
theorem Predicts.pure (a : α) : Predicts (pure a) 1 K s := by
  constructor
  · rintro _ _ ⟨⟩
    refine ⟨[], .refl s, Language.nil_mem_one, fun ws hws => ?_⟩
    rwa [one_mul] at hws
  · rintro _ _ ⟨⟩

/-- **Sequences.**  What the second part reads is a part of what may come behind the
first. -/
theorem Predicts.bind (hs : s.Whole) (hp : Predicts p L (M * K) s) (hM : ∃ ms, ms ∈ M)
    (hf : ∀ a s', p.run s = (.ok a, s') → s'.Whole → Predicts (f a) M K s') :
    Predicts (p >>= f) (L * M) K s := by
  constructor
  · intro b s'' hrun
    obtain ⟨a, s', hfirst, hrest⟩ := run_bind_eq_ok hrun
    obtain ⟨ls, hreads, hls, hends⟩ := hp.taken a s' hfirst
    obtain ⟨ms, hreads', hms, hends'⟩ := (hf a s' hfirst (hreads.whole hs)).taken b s'' hrest
    refine ⟨ls ++ ms, hreads.append hreads', Language.append_mem_mul hls hms, fun ws hws => ?_⟩
    obtain ⟨rest, hcons⟩ := hreads'.exists_cons ws
    rw [mul_assoc, List.append_assoc, hcons] at hws
    exact hends' ws (hcons ▸ hends rest hws)
  · intro fault s'' hrun hcause
    cases hfirst : p.run s with
    | mk answer s' =>
        rw [run_bind, hfirst] at hrun
        cases answer with
        | error fault' =>
            cases hrun
            obtain ⟨hplace, ls, hreads, ⟨ms, hms⟩, hnone⟩ := hp.refused fault s'' hfirst hcause
            obtain ⟨ns, hns⟩ := hM
            refine ⟨hplace, ls, hreads, ⟨ms ++ ns, ?_⟩, fun ws hws => hnone ws ?_⟩
            · rw [← List.append_assoc]
              exact Language.append_mem_mul hms hns
            · rwa [mul_assoc] at hws
        | ok a =>
            obtain ⟨ls, hreads, hls, hends⟩ := hp.taken a s' hfirst
            obtain ⟨hplace, ms, hreads', ⟨ns, hns⟩, hnone⟩ :=
              (hf a s' hfirst (hreads.whole hs)).refused fault s'' hrun hcause
            refine ⟨hplace, ls ++ ms, hreads.append hreads', ⟨ns, ?_⟩, fun ws hws => ?_⟩
            · rw [List.append_assoc]
              exact Language.append_mem_mul hls hns
            · obtain ⟨rest, hcons⟩ := hreads'.exists_cons ws
              rw [mul_assoc, List.append_assoc, hcons] at hws
              exact hnone ws (hcons ▸ hends rest hws)

/-- An answer that is turned into another changes nothing about the tokens that are taken or
refused. -/
theorem Predicts.map (hs : s.Whole) (hp : Predicts p L K s) (g : α → β) :
    Predicts (p >>= fun a => Pure.pure (g a)) L K s := by
  have h : Predicts (p >>= fun a => Pure.pure (g a)) (L * 1) K s :=
    .bind hs (by rwa [one_mul]) exists_mem_one fun _ _ _ _ => .pure _
  rwa [mul_one] at h

/-- Sequences of parts that predict wherever the right token follows. -/
theorem Predictive.bind {follow between : TokenKind → Prop} (hp : Predictive p L between)
    (hM : ∃ ms, ms ∈ M) (hopens : ∀ K, Opens K follow → Opens (M * K) between)
    (hf : ∀ a, Predictive (f a) M follow) : Predictive (p >>= f) (L * M) follow :=
  fun s K hs hK => .bind hs (hp s _ hs (hopens K hK)) hM fun a s' _ hs' => hf a s' K hs' hK

/-- Changing the answer of a parser changes nothing about the tokens, so it predicts what it
did. -/
theorem Predictive.map {follow : TokenKind → Prop} (hp : Predictive p L follow) (g : α → β) :
    Predictive (p >>= fun a => Pure.pure (g a)) L follow :=
  fun s K hs hK => (hp s K hs hK).map hs g

/-- **Loops.**  A round goes on with the same loop on a shorter stream. -/
theorem Predictive.loop {step : σ → Parser (σ ⊕ α)} {advances : ∀ x, Advances (step x)}
    {follow : TokenKind → Prop}
    (hstep : ∀ x s K, s.Whole → Opens K follow →
      (∀ y s', s'.length < s.length → s'.Whole → Predicts (Parser.loop step advances y) L K s') →
        Predicts (step x >>= Sum.elim (Parser.loop step advances) Pure.pure) L K s) (x : σ) :
    Predictive (Parser.loop step advances x) L follow := by
  intro s K hs hK
  induction hn : s.length using Nat.strongRecOn generalizing x s with
  | ind n ih =>
      rw [loop_eq]
      exact hstep x s K hs hK fun y s' hlt hs' => ih s'.length (hn ▸ hlt) y s' hs' rfl

/-! ### Faults -/

/-- A token is refused that begins no word. The cause does not matter, as long as some word could
have been read there. -/
theorem Predicts.failHere {cause : SyntaxCause} (hL : ∃ ls, ls ∈ L)
    (hopens : Opens (L * K) (· ≠ s.lookahead.kind)) :
    Predicts (failHere cause : Parser α) L K s := by
  constructor
  · rintro _ _ ⟨⟩
  · rintro _ _ ⟨⟩ -
    exact ⟨rfl, [], .refl s, hL, hopens.not_mem_cons (by simp [Token.lexeme])⟩

/-- Refusing the token in front is right when no word begins with it; that there is some word at
all says that the text could have gone on. -/
theorem Predicts.unexpected {expected : Expectation} (hL : ∃ ls, ls ∈ L)
    (hopens : Opens (L * K) (· ≠ s.lookahead.kind)) :
    Predicts (unexpected expected : Parser α) L K s :=
  ⟨(Predicts.failHere hL hopens).taken, (Predicts.failHere hL hopens).refused⟩

/-- Nothing has to be predicted of a limit. The parser fails there whatever token is in front. -/
theorem Predicts.limit {cause : SyntaxCause} (hcause : cause.Limits) :
    Predicts (Parser.failHere cause : Parser α) L K s := by
  constructor
  · rintro _ _ ⟨⟩
  · rintro _ _ ⟨⟩ hmisplaced
    exact absurd hcause hmisplaced

/-- An answer that was computed beforehand predicts the empty word, if it fails for a limit
only. -/
theorem Predicts.ofExcept {r : Except SyntaxCause α}
    (hr : ∀ cause, r = .error cause → cause.Limits) : Predicts (ofExcept r) 1 K s := by
  cases r with
  | ok a => exact .pure a
  | error cause => exact .limit (hr cause rfl)

/-- A value that only a limit can refuse is no part of what is read. -/
theorem Predicts.ofExcept_bind {r : Except SyntaxCause α}
    (hr : ∀ cause, r = .error cause → cause.Limits) (hf : ∀ a, Predicts (f a) L K s) :
    Predicts (Parser.ofExcept r >>= f) L K s := by
  cases r with
  | ok a => exact hf a
  | error cause =>
      have h : Predicts (Parser.failHere cause : Parser β) L K s := .limit (hr cause rfl)
      exact ⟨h.taken, h.refused⟩

/-- A value that is made of what was read, and that only a limit can refuse. -/
theorem Predicts.bind_ofExcept {r : α → Except SyntaxCause β} (hs : s.Whole)
    (hp : Predicts p L K s) (hr : ∀ a cause, r a = .error cause → cause.Limits) :
    Predicts (p >>= fun a => Parser.ofExcept (r a)) L K s := by
  have h : Predicts (p >>= fun a => Parser.ofExcept (r a)) (L * 1) K s :=
    .bind hs (by rwa [one_mul]) exists_mem_one fun a _ _ _ => .ofExcept (hr a)
  rwa [mul_one] at h

/-! ### Single tokens -/

/-- Looking at the token in front reads nothing. -/
theorem Predicts.lookahead {f : Token → Parser β} (h : Predicts (f s.lookahead) L K s) :
    Predicts (Parser.lookahead >>= f) L K s :=
  ⟨h.taken, h.refused⟩

/-- The token in front is taken when its kind is known. It is a word of one lexeme then, and what
goes on behind it goes on behind that word. -/
theorem Predicts.advance (hs : s.Whole) (hkind : s.lookahead.kind ∈ kinds)
    (hfinish : .finish ∉ kinds) (hnumber : .number ∉ kinds) :
    Predicts Parser.advance (oneOf kinds) K s := by
  cases s with
  | cut t fault => exact hs.elim
  | finish position => exact absurd hkind hfinish
  | token t rest =>
      constructor
      · rintro _ _ ⟨⟩
        have hlegible : t.lexeme.Legible :=
          Lexeme.legible_of_kind (l := t.lexeme) fun h => hnumber (h ▸ hkind)
        refine ⟨_, .token hlegible (.refl _), singleton_mem_oneOf.2 hkind, fun ws hws => ?_⟩
        exact (cons_mem_oneOf_mul.1 hws).2
      · rintro _ _ ⟨⟩

/-- A token that has been looked at is consumed. The kinds of the word may be more than this
one. -/
theorem Predicts.consume_of_kind (hs : s.Whole) (hkind : s.lookahead.kind = kind)
    (hmem : kind ∈ kinds) (hfinish : .finish ∉ kinds) (hnumber : .number ∉ kinds) :
    Predicts (Parser.consume kind) (oneOf kinds) K s := by
  refine .lookahead ?_
  rw [if_pos (by simp [hkind])]
  exact .advance hs (hkind ▸ hmem) hfinish hnumber

/-- Taking a token of some kinds predicts a word of one such token, and refuses exactly the
others. -/
theorem Predicts.consumeAny (hs : s.Whole) (hfinish : .finish ∉ kind :: kinds)
    (hnumber : .number ∉ kind :: kinds) :
    Predicts (Parser.consumeAny (kind :: kinds)) (oneOf (kind :: kinds)) K s := by
  refine .lookahead ?_
  split
  · rename_i hcontains
    exact .advance hs (by simpa using hcontains) hfinish hnumber
  · rename_i hcontains
    refine .unexpected (exists_mem_oneOf kind kinds) (opens_oneOf_mul ?_)
    rintro k hmem rfl
    exact hcontains (by simpa using hmem)

theorem Predicts.consume (hs : s.Whole) (hfinish : kind ≠ .finish) (hnumber : kind ≠ .number) :
    Predicts (Parser.consume kind) (oneOf [kind]) K s :=
  .consumeAny hs (by simpa using hfinish.symm) (by simpa using hnumber.symm)

/-- A part that is there when a token of its own opens it. What may follow in its absence must not
begin with that token, so a look at one token is enough. -/
theorem Predicts.optional {f : Bool → Parser β} (hs : s.Whole) (hfinish : kind ≠ .finish)
    (hnumber : kind ≠ .number) (hL : ∃ ls, ls ∈ L)
    (hfound : ∀ s', s'.length < s.length → s'.Whole → Predicts (f true) L K s')
    (hmissing : Predicts (f false) M K s) (hopens : Opens (M * K) (· ≠ kind)) :
    Predicts (consumeOptional kind >>= f) (oneOf [kind] * L + M) K s := by
  rw [consumeOptional, bind_assoc]
  refine .lookahead ?_
  split
  · rename_i hkind
    rw [bind_assoc]
    have hadvance : Predicts Parser.advance (oneOf [kind]) (L * K) s :=
      .advance hs (by simp [hkind]) (by simpa using hfinish.symm) (by simpa using hnumber.symm)
    refine (Predicts.bind hs hadvance hL fun t s' hrun hs' => ?_).left (hkind ▸ hopens)
    refine hfound s' ?_ hs'
    obtain rfl := run_advance_eq_ok (hkind ▸ hfinish) hrun
    exact Nat.lt_succ_self _
  · rename_i hkind
    refine Predicts.right hmissing (Opens.mul (Opens.mul (opens_oneOf ?_)))
    simpa using fun h => hkind h.symm

end Parser

end LSystem.Syntax
