import LSystem.Proofs.Syntax.Descent
import LSystem.Proofs.Syntax.Lexical.Partition

/-!
# Layout means nothing

The tokens of a text can be laid out anew: each behind another gap, as long as all gaps
but the first begin with a blank.  The new text is cut into the same lexemes, because in
front of a blank every token is the longest one.

A parser that is `Blind` answers alike on streams that are alike but for the places of
their tokens.  The parsers of the grammar are, so the same program is read off both
texts, or both are refused with the same message.
-/

namespace LSystem.Syntax

open LSystem.Syntax.Parser

/-! ### Parsers that do not see places -/

/-- Two streams have the same lexemes, and the same is wrong where they are cut short. -/
inductive TokenStream.Alike : TokenStream → TokenStream → Prop
  | token {t t' : Token} {rest rest' : TokenStream} (hlexeme : t.lexeme = t'.lexeme)
      (hrest : Alike rest rest') : Alike (.token t rest) (.token t' rest')
  | cut {t t' : Token} {f f' : Fault} (hlexeme : t.lexeme = t'.lexeme)
      (hcause : f.cause = f'.cause) : Alike (.cut t f) (.cut t' f')
  | finish (place place' : Position) : Alike (.finish place) (.finish place')

/-- The tokens in front of two streams that are alike have the same kind and text. -/
theorem TokenStream.Alike.lookahead {s s' : TokenStream} (h : s.Alike s') :
    s.lookahead.lexeme = s'.lookahead.lexeme := by
  cases h with
  | token hlexeme _ => exact hlexeme
  | cut hlexeme _ => exact hlexeme
  | finish place place' => rfl

namespace Parser

variable {α β τ : Type} {p : Parser α} {f : Token → Parser α} {t t' : Token}

/-- Two answers are the same value or have the same cause, and what is left is alike. -/
def Agree (answer answer' : Except Fault α × TokenStream) : Prop :=
  answer.1.mapError Fault.cause = answer'.1.mapError Fault.cause ∧ answer.2.Alike answer'.2

/-- A parser that answers alike on streams that are alike. -/
def Blind (p : Parser α) : Prop := ∀ ⦃s s'⦄, s.Alike s' → Agree (p.run s) (p.run s')

/-- What is made of a token without regard to its place is the same for two tokens with the same
kind and text. -/
theorem Placeless.eq_of_lexeme (hf : Placeless f) (h : t.lexeme = t'.lexeme) : f t = f t' := by
  obtain ⟨kind, text, place⟩ := t
  obtain ⟨kind', text', place'⟩ := t'
  cases h
  exact hf kind text place place'

/-- What answers agree on is a value, or a cause. What is left is alike in both cases, so the two
streams can be read on side by side. -/
theorem Agree.cases {answer answer' : Except Fault α × TokenStream} (h : Agree answer answer') :
    ∃ s s', s.Alike s' ∧ ((∃ a, answer = (.ok a, s) ∧ answer' = (.ok a, s')) ∨
      ∃ f f', answer = (.error f, s) ∧ answer' = (.error f', s') ∧ f.cause = f'.cause) := by
  obtain ⟨r, s⟩ := answer
  obtain ⟨r', s'⟩ := answer'
  obtain ⟨hr, hs⟩ := h
  refine ⟨s, s', hs, ?_⟩
  match r, r' with
  | .ok a, .ok a' =>
      obtain rfl : a = a' := Except.ok.inj hr
      exact .inl ⟨a, rfl, rfl⟩
  | .error f, .error f' => exact .inr ⟨f, f', rfl, rfl, Except.error.inj hr⟩
  | .ok _, .error _ => cases hr
  | .error _, .ok _ => cases hr

/-- Answers that agree are shown alike, whatever the texts. The message is made of the cause; only
the line and its number come from the text. -/
theorem Agree.message_eq {answer answer' : Except Fault α × TokenStream}
    (h : Agree answer answer') (source source' : String) :
    (answer.1.mapError (Fault.toError source)).mapError SyntaxError.message =
      (answer'.1.mapError (Fault.toError source')).mapError SyntaxError.message := by
  obtain ⟨z, z', -, ⟨a, rfl, rfl⟩ | ⟨f, f', rfl, rfl, hcause⟩⟩ := h.cases
  · rfl
  · exact congrArg (fun cause => Except.error (SyntaxCause.message cause)) hcause

/-- Where a blind parser succeeds, it succeeds with the same value on every stream that is alike,
and leaves alike what is left. -/
theorem Blind.of_ok {s s' z : TokenStream} {a : α} (hp : Blind p) (hs : s.Alike s')
    (hrun : p.run s = (.ok a, z)) : ∃ z', p.run s' = (.ok a, z') ∧ z.Alike z' := by
  obtain ⟨_, z', hz, ⟨_, h, hrun'⟩ | ⟨_, _, h, -, -⟩⟩ := (hp hs).cases
  · rw [hrun] at h
    cases h
    exact ⟨z', hrun', hz⟩
  · rw [hrun] at h
    cases h

/-- Where a blind parser fails, it fails for the same cause on every stream that is alike,
possibly at another place. -/
theorem Blind.of_error {s s' z : TokenStream} {f : Fault} (hp : Blind p) (hs : s.Alike s')
    (hrun : p.run s = (.error f, z)) :
    ∃ f' z', p.run s' = (.error f', z') ∧ f.cause = f'.cause ∧ z.Alike z' := by
  obtain ⟨_, z', hz, ⟨_, h, -⟩ | ⟨_, f', h, hrun', hcause⟩⟩ := (hp hs).cases
  · rw [hrun] at h
    cases h
  · rw [hrun] at h
    cases h
    exact ⟨f', z', hrun', hcause, hz⟩

/-- One blind parser after another is blind: the second begins with the same value on streams that
are alike. -/
theorem Blind.bind {f : α → Parser β} (hp : Blind p) (hf : ∀ a, Blind (f a)) : Blind (p >>= f) := by
  intro s s' hs
  rw [run_bind, run_bind]
  match hrun : p.run s with
  | (.ok a, z) =>
      obtain ⟨z', hrun', hz⟩ := hp.of_ok hs hrun
      rw [hrun']
      exact hf a hz
  | (.error fault, z) =>
      obtain ⟨fault', z', hrun', hcause, hz⟩ := hp.of_error hs hrun
      rw [hrun']
      exact ⟨congrArg Except.error hcause, hz⟩

/-- A loop of blind rounds is blind, by induction on the stream: both loops take the same rounds
and end in the same one. -/
theorem Blind.loop {step : τ → Parser (τ ⊕ α)} {advances : ∀ x, Advances (step x)}
    (hstep : ∀ x, Blind (step x)) (x : τ) : Blind (loop step advances x) := by
  intro s s' hs
  induction x, s using loopFrom.induct step advances generalizing s' with
  | case1 x s fault z hrun =>
      obtain ⟨fault', z', hrun', hcause, hz⟩ := (hstep x).of_error hs hrun
      rw [run_loop, run_loop, hrun, hrun']
      exact ⟨congrArg Except.error hcause, hz⟩
  | case2 x s a z hrun =>
      obtain ⟨z', hrun', hz⟩ := (hstep x).of_ok hs hrun
      rw [run_loop, run_loop, hrun, hrun']
      exact ⟨rfl, hz⟩
  | case3 x s y z hrun hlt ih =>
      obtain ⟨z', hrun', hz⟩ := (hstep x).of_ok hs hrun
      rw [run_loop, run_loop, hrun, hrun']
      exact ih hz

/-- Looking at the token in front and going on by its kind and text is blind. -/
theorem blind_look (hf : Placeless f) (hrest : ∀ t, Blind (f t)) : Blind (lookahead >>= f) := by
  intro s s' hs
  have hsame : f s.lookahead = f s'.lookahead := hf.eq_of_lexeme hs.lookahead
  change Agree ((f s.lookahead).run s) ((f s'.lookahead).run s')
  rw [hsame]
  exact hrest _ hs

/-- Taking a token fails on both streams or on none. Where it succeeds the tokens have the same
kind and text, and what is left is alike. -/
theorem blind_take {s s' : TokenStream} (hs : s.Alike s')
    (h : ∀ t t' z z', t.lexeme = t'.lexeme → z.Alike z' → Agree ((f t).run z) ((f t').run z')) :
    Agree ((advance >>= f).run s) ((advance >>= f).run s') := by
  cases hs with
  | token hlexeme hrest => exact h _ _ _ _ hlexeme hrest
  | cut hlexeme hcause => exact ⟨congrArg Except.error hcause, .cut hlexeme hcause⟩
  | finish place place' => exact h _ _ _ _ rfl (.finish place place')

/-- Refusing the token in front is blind: the cause names the kind and the text of the token, not
its place. -/
theorem blind_unexpected (expected : Expectation) : Blind (unexpected expected : Parser α) := by
  intro s s' hs
  have hlexeme := hs.lookahead
  have hkind : s.lookahead.kind = s'.lookahead.kind := congrArg Lexeme.kind hlexeme
  have htext : s.lookahead.text = s'.lookahead.text := congrArg Lexeme.text hlexeme
  refine ⟨?_, hs⟩
  change Except.error (SyntaxCause.unexpectedToken s.lookahead.kind s.lookahead.text expected) =
    Except.error (SyntaxCause.unexpectedToken s'.lookahead.kind s'.lookahead.text expected)
  rw [hkind, htext]

/-- A numeral that has been taken is judged alike wherever it stands. -/
theorem agree_numeral (h : t.lexeme = t'.lexeme) {s s' : TokenStream} (hs : s.Alike s') :
    Agree ((numeral t).run s) ((numeral t').run s') := by
  have htext : t'.text = t.text := (congrArg Lexeme.text h).symm
  rcases numeral_cases t.text with ⟨a, hnumeral⟩ | hnumeral
  · rw [hnumeral t rfl, hnumeral t' htext]
    exact ⟨rfl, hs⟩
  · rw [hnumeral t rfl, hnumeral t' htext]
    exact ⟨rfl, hs⟩

/-- The parsers of the grammar do not see places. What is made of a token is made of its kind and
its text, throughout the grammar. -/
theorem compositional_blind : Compositional @Blind where
  succeed a _ _ hs := ⟨rfl, hs⟩
  look := blind_look
  take hf hrest _ _ hs := blind_take hs fun t t' z z' hlexeme hz => by
    rw [hf.eq_of_lexeme hlexeme]
    exact hrest t' hz
  refuse _ _ _ hs := ⟨rfl, hs⟩
  unexpected := blind_unexpected
  numeral _ _ hs := blind_take hs fun _ _ _ _ hlexeme hz => agree_numeral hlexeme hz
  bind := Blind.bind
  loop := Blind.loop

end Parser

/-- Streams of the same lexemes are alike. The induction is on the stream, and neither of the two
is cut short. -/
theorem TokenStream.alike_of_collect {s s' : TokenStream} {tokens tokens' : List Token}
    (hs : s.collect = .ok tokens) (hs' : s'.collect = .ok tokens')
    (h : tokens.map Token.lexeme = tokens'.map Token.lexeme) : s.Alike s' := by
  induction s generalizing s' tokens tokens' with
  | cut t f => cases hs
  | finish place =>
      cases hs
      cases s' with
      | cut t f => cases hs'
      | finish place' => exact .finish place place'
      | token t rest =>
          obtain ⟨others, hrest, rfl⟩ := collect_token_eq_ok hs'
          obtain ⟨more, rfl⟩ := collect_eq_cons hrest
          cases (List.cons.inj h).2
  | token t rest ih =>
      obtain ⟨others, hrest, rfl⟩ := collect_token_eq_ok hs
      cases s' with
      | cut t f => cases hs'
      | finish place' =>
          cases hs'
          obtain ⟨more, rfl⟩ := collect_eq_cons hrest
          cases (List.cons.inj h).2
      | token t' rest' =>
          obtain ⟨others', hrest', rfl⟩ := collect_token_eq_ok hs'
          obtain ⟨hlexeme, hothers⟩ := List.cons.inj h
          exact .token hlexeme (ih hrest hrest' hothers)

/-- Texts that are cut into the same lexemes are read as the same program or refused with
the same message. -/
theorem message_parseProgram_of_lexemes {source source' : String} {tokens tokens' : List Token}
    (htokens : tokenize source = .ok tokens) (htokens' : tokenize source' = .ok tokens')
    (h : tokens.map Token.lexeme = tokens'.map Token.lexeme) :
    (parseProgram source).mapError SyntaxError.message =
      (parseProgram source').mapError SyntaxError.message := by
  obtain ⟨s, hs, hcollect⟩ := tokenize_eq_ok.1 htokens
  obtain ⟨s', hs', hcollect'⟩ := tokenize_eq_ok.1 htokens'
  have halike := TokenStream.alike_of_collect hcollect hcollect' h
  rw [parseProgram_of_stream hs, parseProgram_of_stream hs']
  exact (compositional_blind.program halike).message_eq source source'

/-! ### Tokens in front of a blank -/

variable {kind : TokenKind} {front rest gap : List Char} {c : Char}

/-- A text without blanks that begins in front of a blank ends there. -/
theorem begins_of_begins_blank {text : List Char} (hplain : ∀ d ∈ text, isBlank d = false)
    (hblank : isBlank c = true) (h : text <+: front ++ c :: rest) : text <+: front := by
  rcases Nat.lt_or_ge front.length text.length with hlt | hle
  · have hbegins : front ++ [c] <+: text := by
      refine List.prefix_of_prefix_length_le ⟨rest, by simp⟩ h ?_
      simpa using hlt
    have hmem : c ∈ text := hbegins.subset (by simp)
    rw [hplain c hmem] at hblank
    cases hblank
  · exact List.prefix_of_prefix_length_le h (List.prefix_append _ _) hle

/-- In front of a blank every token is the longest one. No token has a blank in it, so none can
reach beyond the blank. -/
theorem Spells.longest (h : Spells kind front) (hblank : isBlank c = true) :
    Longest kind front (front ++ c :: rest) where
  spells := h
  begins := List.prefix_append _ _
  longest hother hbegins :=
    (begins_of_begins_blank (fun d hd => (hother.plain d hd).1) hblank hbegins).length_le

/-- What is solid does not become a gap when something else stands behind the token. -/
theorem Solid.before_blank (h : Solid (front ++ rest)) (hne : front ≠ []) {text : List Char}
    (hblank : isBlank c = true) : Solid (front ++ c :: text) := by
  constructor
  · intro d hd
    refine h.blank d ?_
    rwa [List.head?_append_of_ne_nil _ hne] at hd ⊢
  · intro mark hmark hbegins
    have hplain : ∀ d ∈ mark, isBlank d = false := by
      simp only [commentMarks, List.mem_cons, List.not_mem_nil, or_false] at hmark
      rcases hmark with rfl | rfl <;> simp [isBlank]
    exact h.comment mark hmark
      ((begins_of_begins_blank hplain hblank hbegins).trans (List.prefix_append _ _))

/-! ### Laying out tokens -/

/-- The text of some tokens, each behind a gap of its own. -/
def spread (gaps : List (List Char)) (tokens : List Token) : List Char :=
  (List.zipWith (fun gap t => gap ++ t.text.toList) gaps tokens).flatten

/-- A gap that begins with a blank. -/
def Separates (gap : List Char) : Prop := ∃ c ∈ gap.head?, isBlank c

/-- A token has a text of its kind, with which no comment begins. -/
def Token.Spelled (t : Token) : Prop :=
  Spells t.kind t.text.toList ∧ ∃ rest, Solid (t.text.toList ++ rest)

/-- The first token of a text that is laid out stands behind the first gap, and the others are
laid out behind it. -/
theorem spread_cons (gap : List Char) (gaps : List (List Char)) (t : Token) (tokens : List Token) :
    spread (gap :: gaps) (t :: tokens) = gap ++ (t.text.toList ++ spread gaps tokens) :=
  List.append_assoc _ _ _

/-- In front of a gap that begins with a blank a token is as good as alone. -/
theorem Token.Spelled.before_blank {t : Token} (h : t.Spelled) (hseparates : Separates gap) :
    Solid (t.text.toList ++ (gap ++ rest)) ∧
      Longest t.kind t.text.toList (t.text.toList ++ (gap ++ rest)) := by
  obtain ⟨hspells, behind, hsolid⟩ := h
  obtain ⟨c, hc, hblank⟩ := hseparates
  obtain ⟨gap, rfl⟩ := List.head?_eq_some_iff.1 hc
  exact ⟨hsolid.before_blank hspells.ne_nil hblank, hspells.longest hblank⟩

/-- Tokens that are laid out anew are the tokens of the new text, which ends with the
last gap. -/
theorem cuts_spread {tokens : List Token} {gaps : List (List Char)} {eof : Token}
    (htokens : ∀ t ∈ tokens, t.Spelled) (heof : eof.text = "")
    (hlength : gaps.length = tokens.length + 1) (hgaps : ∀ gap ∈ gaps, Gap False gap)
    (hseparate : ∀ gap ∈ gaps.tail, Separates gap) (p : Position) : ∃ cells last,
      Cuts p (spread gaps (tokens ++ [eof])) cells last ∧ Gap True last ∧
        cells.map (Token.lexeme ∘ Cell.token) = tokens.map Token.lexeme := by
  induction tokens generalizing gaps p with
  | nil =>
      obtain ⟨gap, rfl⟩ := List.length_eq_one_iff.1 hlength
      refine ⟨[], _, .nil p _, ?_, rfl⟩
      have hgap : Gap True gap := (hgaps gap List.mem_cons_self).mono False.elim
      rw [List.nil_append, spread_cons, heof]
      simpa [spread] using hgap
  | cons t tokens ih =>
      obtain ⟨ht, htail⟩ := List.forall_mem_cons.1 htokens
      match gaps, hlength with
      | gap :: next :: gaps, hlength =>
          obtain ⟨hgap, hothers⟩ := List.forall_mem_cons.1 hgaps
          obtain ⟨hnext, hbehind⟩ := List.forall_mem_cons.1 hseparate
          obtain ⟨cells, last, hcuts, hlast, hlexemes⟩ :=
            ih htail (Nat.succ.inj hlength) hothers hbehind ((p.after gap).after t.text.toList)
          obtain ⟨u, others, hothers⟩ := List.exists_cons_of_ne_nil (List.concat_ne_nil eof tokens)
          rw [List.cons_append, spread_cons]
          rw [hothers, spread_cons] at hcuts ⊢
          obtain ⟨hsolid, hlongest⟩ := ht.before_blank hnext
          refine ⟨_, last, .cons hgap hsolid hlongest hcuts, hlast, ?_⟩
          rw [List.map_cons, List.map_cons, hlexemes]
          simp [Token.lexeme]

/-- **Layout means nothing.**  The tokens of a text are laid out anew, each behind a gap
of blanks and of comments with the end of their line, all but the first of which begin
with a blank.  The new text is cut into the same kinds and texts.  It is read as the same
program, or both texts are refused with the same message. -/
theorem relayout_preserves_meaning {source : String} {tokens : List Token}
    {gaps : List (List Char)} (htokens : tokenize source = .ok tokens)
    (hlength : gaps.length = tokens.length) (hgaps : ∀ gap ∈ gaps, Gap False gap)
    (hseparate : ∀ gap ∈ gaps.tail, Separates gap) :
    (∃ others, tokenize (String.ofList (spread gaps tokens)) = .ok others ∧
        others.map Token.lexeme = tokens.map Token.lexeme) ∧
      (parseProgram (String.ofList (spread gaps tokens))).mapError SyntaxError.message =
        (parseProgram source).mapError SyntaxError.message := by
  obtain ⟨cells, gap, hcuts, -, rfl⟩ := tokenize_eq_ok_iff_cuts.1 htokens
  have hspelled : ∀ t ∈ cells.map Cell.token, t.Spelled := by
    intro t ht
    obtain ⟨cell, hcell, rfl⟩ := List.mem_map.1 ht
    obtain ⟨front, behind, hcells⟩ := List.append_of_mem hcell
    obtain ⟨-, hsolid, hlongest, -⟩ := hcuts.cell_at hcells
    exact ⟨hlongest.spells, _, hsolid⟩
  have heof : (Token.mk .finish "" (.behind source.toList)).text = "" := rfl
  rw [List.length_append, List.length_singleton] at hlength
  obtain ⟨others, last, hcuts', hlast, hlexemes⟩ :=
    cuts_spread hspelled heof hlength hgaps hseparate .start
  generalize htext : spread gaps _ = text at hcuts' ⊢
  rw [← String.toList_ofList (l := text)] at hcuts'
  have htokens' := tokenize_eq_ok_iff_cuts.2 ⟨others, last, hcuts', hlast, rfl⟩
  have hsame (place place' : Position) :
      (others.map Cell.token ++ [Token.mk .finish "" place]).map Token.lexeme =
        (cells.map Cell.token ++ [Token.mk .finish "" place']).map Token.lexeme := by
    rw [List.map_append, List.map_append, List.map_map, hlexemes]
    rfl
  exact ⟨⟨_, htokens', hsame _ _⟩, message_parseProgram_of_lexemes htokens' htokens (hsame _ _)⟩

/-- Two numerals that touch each other are moved apart, with a comment between them. The tokens
are the same and so is the error, although the places are others. -/
theorem relayout_touching_numerals : ∃ tokens, tokenize "length 1.5.5" = .ok tokens ∧
    (∃ others, tokenize "length\n1.5 //é\n.5\t" = .ok others ∧
      others.map Token.lexeme = tokens.map Token.lexeme) ∧
    (parseProgram "length\n1.5 //é\n.5\t").mapError SyntaxError.message =
      (parseProgram "length 1.5.5").mapError SyntaxError.message := by
  have htokens : tokenize "length 1.5.5" = .ok [⟨.keyword .length, "length", ⟨1, 1⟩⟩,
      ⟨.number, "1.5", ⟨1, 8⟩⟩, ⟨.number, ".5", ⟨1, 11⟩⟩, ⟨.finish, "", ⟨1, 13⟩⟩] := by cbv
  have hcomment : Gap False (['/', '/'] ++ ['é'] ++ ['\n']) :=
    .comment (by decide) (by decide) (.inl rfl) (.blank rfl .nil)
  have hgaps : ∀ gap ∈ [[], ['\n'], [' ', '/', '/', 'é', '\n'], ['\t']], Gap False gap := by
    simp only [List.forall_mem_cons, List.not_mem_nil, false_imp_iff, implies_true, and_true]
    exact ⟨.nil, .blank rfl .nil, .blank rfl hcomment, .blank rfl .nil⟩
  have hseparate : ∀ gap ∈ [['\n'], [' ', '/', '/', 'é', '\n'], ['\t']], Separates gap := by
    simp [Separates, isBlank]
  have hlayout := relayout_preserves_meaning htokens rfl hgaps hseparate
  have htext : String.ofList (spread [[], ['\n'], [' ', '/', '/', 'é', '\n'], ['\t']]
      [⟨.keyword .length, "length", ⟨1, 1⟩⟩, ⟨.number, "1.5", ⟨1, 8⟩⟩, ⟨.number, ".5", ⟨1, 11⟩⟩,
        ⟨.finish, "", ⟨1, 13⟩⟩]) = "length\n1.5 //é\n.5\t" := by cbv
  rw [htext] at hlayout
  exact ⟨_, htokens, hlayout⟩

end LSystem.Syntax
