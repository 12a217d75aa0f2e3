import LSystem.Proofs.Syntax.Blame
import LSystem.Proofs.Syntax.Layout
import LSystem.Proofs.Syntax.Reuse.Agreement

/-!
# One parser, many calls

A parser may be asked for an expression or for a program again and again, after errors as
well as after answers.  Between two calls a reader `Rests`: it counts nothing, and it
delivers what some tokens of its text leave.  A call keeps this, wherever it ends.

What a reader delivers, a new one delivers from the text that begins with its token in
front, apart from the places of the tokens; and the parsers of the grammar do not see
places.  So the next call gives the answer of a new parser.
-/

namespace LSystem.Syntax

open LSystem.Syntax.Parser

/-! ### Lexers in front of the same text -/

namespace Lexer

variable {l m n : Lexer} {t : Token} {f : Fault}

/-- Behind their gaps two lexers read the same token off the same text. -/
theorem next_ok_of_behindGap (h : l.behindGap = m.behindGap) (hnext : l.next = (.ok t, n)) :
    ∃ t' n', m.next = (.ok t', n') ∧ t.lexeme = t'.lexeme ∧ n.behindGap = n'.behindGap := by
  unfold behindGap at h
  simp only [next, h] at hnext ⊢
  split at hnext
  · cases hnext
    exact ⟨_, _, rfl, rfl, rfl⟩
  · cases hnext

/-- Two lexers with the same text behind their gaps refuse the same character, if one of them
does, possibly at different places. -/
theorem next_error_of_behindGap (h : l.behindGap = m.behindGap) (hnext : l.next = (.error f, n)) :
    ∃ f' n', m.next = (.error f', n') ∧ f.cause = f'.cause := by
  unfold behindGap at h
  simp only [next, h] at hnext ⊢
  split at hnext
  · cases hnext
  · cases hnext
    exact ⟨_, _, rfl, rfl⟩

end Lexer

/-- Two streams are alike, or there are none for the same cause. -/
def AlikeStreams : Except Fault TokenStream → Except Fault TokenStream → Prop
  | .ok s, .ok s' => s.Alike s'
  | .error f, .error f' => f.cause = f'.cause
  | _, _ => False

/-- One token read by both of two lexers keeps their streams alike. A stream may be cut short
behind the token, and then both are, for the same cause. -/
theorem Lexer.alikeStreams_of_next {l m n n' : Lexer} {t t' : Token}
    (hnext : l.next = (.ok t, n)) (hnext' : m.next = (.ok t', n')) (hlexeme : t.lexeme = t'.lexeme)
    (hkind : ¬ t.kind = .finish) (hrest : AlikeStreams n.stream n'.stream) :
    AlikeStreams l.stream m.stream := by
  have hkind' : ¬ t'.kind = .finish := fun hk => hkind ((congrArg Lexeme.kind hlexeme).trans hk)
  rw [stream_eq l, stream_eq m, hnext, hnext']
  simp only [if_neg hkind, if_neg hkind']
  cases hs : n.stream with
  | ok s =>
      cases hs' : n'.stream with
      | ok s' =>
          rw [hs, hs'] at hrest
          exact .token hlexeme hrest
      | error f' =>
          rw [hs, hs'] at hrest
          exact hrest.elim
  | error f =>
      cases hs' : n'.stream with
      | ok s' =>
          rw [hs, hs'] at hrest
          exact hrest.elim
      | error f' =>
          rw [hs, hs'] at hrest
          exact .cut hlexeme hrest

/-- Lexers with the same text behind their gaps have alike streams. They come to the same tokens
from there on, at places of their own. -/
theorem Lexer.alikeStreams_of_behindGap {l m : Lexer} (h : l.behindGap = m.behindGap) :
    AlikeStreams l.stream m.stream := by
  induction l using Lexer.stream.induct generalizing m with
  | case1 l f n hnext =>
      obtain ⟨f', n', hnext', hcause⟩ := next_error_of_behindGap h hnext
      rw [stream_eq l, stream_eq m, hnext, hnext']
      exact hcause
  | case2 l t n hnext hkind =>
      obtain ⟨t', n', hnext', hlexeme, -⟩ := next_ok_of_behindGap h hnext
      have hkind' : t'.kind = .finish := (congrArg Lexeme.kind hlexeme).symm.trans hkind
      rw [stream_of_finish hnext hkind, stream_of_finish hnext' hkind']
      exact .finish _ _
  | case3 l t n hnext hkind f hfault ih =>
      obtain ⟨t', n', hnext', hlexeme, hbehind⟩ := next_ok_of_behindGap h hnext
      exact alikeStreams_of_next hnext hnext' hlexeme hkind (ih hbehind)
  | case4 l t n hnext hkind rest hstream ih =>
      obtain ⟨t', n', hnext', hlexeme, hbehind⟩ := next_ok_of_behindGap h hnext
      exact alikeStreams_of_next hnext hnext' hlexeme hkind (ih hbehind)

/-- A text without a gap in front is what a lexer has behind its gap. -/
theorem Lexer.behindGap_ofSource (l : Lexer) :
    (ofSource (String.ofList l.behindGap)).behindGap = l.behindGap := by
  obtain ⟨-, -, hsolid⟩ := spanTrivia_eq_iff.1 (rfl : spanTrivia false l.rest = (_, _))
  have hspan : spanTrivia false l.behindGap = ([], l.behindGap) :=
    spanTrivia_eq_iff.2 ⟨rfl, .nil, hsolid⟩
  unfold Lexer.behindGap at hspan ⊢
  rw [ofSource, String.toList_ofList, hspan]

/-! ### Calls -/

/-- The calls that a parser takes. -/
inductive Call where
  | expression
  | program

/-- What a call asks for. -/
def Call.Tree : Call → Type
  | .expression => Expr
  | .program => Program

/-- The parser of a call, on the stream of the tokens. -/
def Call.parser : (call : Call) → Parser call.Tree
  | .expression => Syntax.expression
  | .program => Syntax.program

/-- The same call to a reader, with the steps that it may take. -/
def Call.counting : (call : Call) → (steps : Nat) → CountingM call.Tree
  | .expression => Counting.expression
  | .program => Counting.program

/-- The counting reader of a call follows its parser from a count of zero, for an expression as
for a program. -/
theorem Call.follows (call : Call) : Counting.Follows call.counting 0 call.parser := by
  cases call with
  | expression => exact Counting.follows_expression
  | program => exact Counting.follows_program

/-- A compositional property holds of the parser of every call. -/
theorem Call.compositional {P : ∀ ⦃α : Type⦄, Parser α → Prop} (h : Compositional P)
    (call : Call) : P call.parser := by
  cases call with
  | expression => exact h.expression
  | program => exact h.program

/-- A parser leaves a tail of its stream, also when it fails. -/
theorem Parser.Descends.tail {α : Type} {p : Parser α} (hp : Descends p) (s : TokenStream) :
    (p.run s).2.Tail s := by
  obtain ⟨_, hruns, rfl⟩ := hp.runs simulates_streamed rfl (rfl : p.run s = (_, _))
  refine hruns.invariant (Q := fun z => z.Tail s) (fun {x y} hx hnext => ?_) (.refl s)
  cases x with
  | token t rest =>
      cases hnext
      exact (TokenStream.Tail.refl y).token.trans hx
  | cut t f => cases hnext
  | finish place =>
      cases hnext
      exact hx

/-- A call comes back with an answer or a fault, and leaves the reader where it stopped. -/
def Reader.Returns (r : Reader) (call : Call) (answer : Except Fault call.Tree)
    (r' : Reader) : Prop :=
  ∃ enough, ∀ steps, enough ≤ steps → (call.counting steps).run.run r = some (answer, r')

/-- Calls one after the other, each on what the one before has left. -/
inductive Session : Reader → List Call → Reader → Prop
  | nil (r : Reader) : Session r [] r
  | cons {r r' r'' : Reader} {call : Call} {calls : List Call} {answer : Except Fault call.Tree}
      (hcall : r.Returns call answer r') (hrest : Session r' calls r'') :
      Session r (call :: calls) r''

/-- Between two calls a reader counts nothing, and it delivers a tail of the stream of its
text. -/
structure Reader.Rests (whole : TokenStream) (r : Reader) (s : TokenStream) : Prop where
  nesting : r.nesting = 0
  delivers : r.cursor.Delivers s
  tail : s.Tail whole

namespace Reader

variable {whole s : TokenStream} {r r' r'' : Reader} {call : Call} {calls : List Call}
  {answer answer' : Except Fault call.Tree}

/-- Between two calls the reader has the token in front that its stream has. -/
theorem Rests.front (h : r.Rests whole s) : r.cursor.ahead = s.lookahead :=
  simulates_lexing.front h.delivers

/-- A call comes back in one way only: however many steps two runs were given, both are the run
with the larger number. -/
theorem Returns.unique (h : r.Returns call answer r') (h' : r.Returns call answer' r'') :
    answer = answer' ∧ r' = r'' := by
  obtain ⟨enough, hruns⟩ := h
  obtain ⟨enough', hruns'⟩ := h'
  have hsame := (hruns _ (Nat.le_max_left enough enough')).symm.trans
    (hruns' _ (Nat.le_max_right enough enough'))
  cases hsame
  exact ⟨rfl, rfl⟩

/-- **A call keeps the rest.**  It answers what the parser answers on the stream, and the
reader rests where the parser stops. -/
theorem Rests.returns (h : r.Rests whole s) (call : Call) :
    ∃ r', r.Returns call (call.parser.run s).1 r' ∧ r'.Rests whole (call.parser.run s).2 := by
  obtain ⟨cursor, nesting⟩ := r
  obtain ⟨hnesting, hdelivers, htail⟩ := h
  obtain rfl : nesting = 0 := hnesting
  obtain ⟨enough, cursor', hcursor', hruns⟩ := call.follows s hdelivers
  refine ⟨⟨cursor', 0⟩, ⟨enough, hruns⟩, rfl, hcursor', ?_⟩
  exact ((call.compositional compositional_descends).tail s).trans htail

end Reader

namespace Session

variable {whole s : TokenStream} {r r' : Reader} {calls : List Call}

/-- Every row of calls comes to an end. Each call comes back with an answer or a fault, given
enough steps. -/
theorem exists_of_rests (h : r.Rests whole s) (calls : List Call) : ∃ r', Session r calls r' := by
  induction calls generalizing r s with
  | nil => exact ⟨r, .nil r⟩
  | cons call calls ih =>
      obtain ⟨r', hcall, hrests⟩ := h.returns call
      obtain ⟨r'', hrest⟩ := ih hrests
      exact ⟨r'', .cons hcall hrest⟩

/-- After any calls a reader rests. The induction is on the calls, each of which leaves the count
at zero and the stream at a tail. -/
theorem rests (h : Session r calls r') (hr : r.Rests whole s) : ∃ s', r'.Rests whole s' := by
  induction h generalizing s with
  | nil r => exact ⟨s, hr⟩
  | @cons r middle r' call calls answer hcall _ ih =>
      obtain ⟨_, hreturns, hmiddle⟩ := hr.returns call
      obtain ⟨-, rfl⟩ := hcall.unique hreturns
      exact ih hmiddle

end Session

/-- The reader at the front of a text rests. It delivers the whole stream of the text, which
exists because a first token was read. -/
theorem Reader.rests_ofSource {source : String} {r : Reader} (h : ofSource source = .ok r) :
    ∃ whole, TokenStream.ofSource source = .ok whole ∧ r.Rests whole whole := by
  unfold ofSource at h
  rcases Cursor.ofSource_cases source with ⟨f, herror, -⟩ | ⟨cursor, s, hok, hs, hdelivers⟩
  · rw [herror] at h
    cases h
  · rw [hok] at h
    cases h
    exact ⟨s, hs, rfl, hdelivers, .refl s⟩

/-- What a reader delivers begins in its text with the token in front, and a new reader of
the text from there on delivers the same but for the places. -/
theorem Reader.Rests.exists_fresh {source : String} {whole s : TokenStream} {r : Reader}
    (h : r.Rests whole s) (hwhole : TokenStream.ofSource source = .ok whole) :
    ∃ before suffix, source.toList = before ++ suffix ∧
      r.cursor.ahead.position = .behind before ∧ r.cursor.ahead.text.toList <+: suffix ∧
      ∃ fresh s', ofSource (String.ofList suffix) = .ok fresh ∧
        TokenStream.ofSource (String.ofList suffix) = .ok s' ∧ fresh.Rests s' s' ∧ s.Alike s' := by
  obtain ⟨ts, l, htakes, hstream⟩ := Lexer.takes_of_tail h.tail hwhole
  obtain ⟨before, hsource, -, hplace⟩ := htakes.exists_before
  obtain ⟨l', hnext⟩ := Lexer.next_of_stream_ok hstream
  obtain ⟨hbehind, hposition⟩ := Lexer.next_eq_ok hnext
  have halike := Lexer.alikeStreams_of_behindGap l.behindGap_ofSource.symm
  rw [hstream] at halike
  cases hfresh : (Lexer.ofSource (String.ofList l.behindGap)).stream with
  | error f =>
      rw [hfresh] at halike
      exact halike.elim
  | ok s' =>
      rw [hfresh] at halike
      refine ⟨before, l.behindGap, hsource, ?_, ?_, ?_⟩
      · rw [h.front, hposition, hplace]
      · rw [h.front, hbehind]
        exact List.prefix_append _ _
      · rcases Cursor.ofSource_cases (String.ofList l.behindGap) with
          ⟨f, -, herror⟩ | ⟨cursor, s'', hok, hs, hdelivers⟩
        · exact absurd (hfresh.symm.trans herror) nofun
        · cases hfresh.symm.trans hs
          refine ⟨⟨cursor, 0⟩, s', ?_, hs, ⟨rfl, hdelivers, .refl s'⟩, halike⟩
          rw [ofSource, hok]
          rfl

/-- **A parser can be used again after any errors.**  Every row of calls on one reader comes
to an end, whatever goes wrong in them.  The reader counts nothing when a call has come
back, and the token in front of it begins some suffix of the text.  The next call comes back
with the same tree, or with the same message, as on a new reader of this suffix; and what a
new reader answers is what the parser answers on the text. -/
theorem calls_resume_at_lookahead {source : String} {r₀ : Reader}
    (h : Reader.ofSource source = .ok r₀) :
    (∀ calls, ∃ r, Session r₀ calls r) ∧
    ∀ calls r, Session r₀ calls r → r.nesting = 0 ∧
      ∃ before suffix fresh, source.toList = before ++ suffix ∧
        r.cursor.ahead.position = .behind before ∧ r.cursor.ahead.text.toList <+: suffix ∧
        Reader.ofSource (String.ofList suffix) = .ok fresh ∧
        fresh.cursor.ahead.lexeme = r.cursor.ahead.lexeme ∧
        ∀ call answer r', r.Returns call answer r' → ∃ answer' fresh',
          fresh.Returns call answer' fresh' ∧
          (answer.mapError (Fault.toError source)).mapError SyntaxError.message =
            (answer'.mapError (Fault.toError (String.ofList suffix))).mapError
              SyntaxError.message ∧
          answer'.mapError (Fault.toError (String.ofList suffix)) =
            call.parser.parse (String.ofList suffix) := by
  obtain ⟨whole, hwhole, hrests⟩ := Reader.rests_ofSource h
  refine ⟨Session.exists_of_rests hrests, fun calls r hsession => ?_⟩
  obtain ⟨s, hr⟩ := hsession.rests hrests
  obtain ⟨before, suffix, hsource, hplace, hprefix, fresh, s', hfresh, hs', hr', halike⟩ :=
    hr.exists_fresh hwhole
  have hlexeme : fresh.cursor.ahead.lexeme = r.cursor.ahead.lexeme := by
    rw [hr.front, hr'.front]
    exact halike.lookahead.symm
  refine ⟨hr.nesting, before, suffix, fresh, hsource, hplace, hprefix, hfresh, hlexeme,
    fun call answer r' hcall => ?_⟩
  obtain ⟨_, hreturns, -⟩ := hr.returns call
  obtain ⟨fresh', hreturns', -⟩ := hr'.returns call
  obtain ⟨rfl, -⟩ := hcall.unique hreturns
  have hagree := call.compositional compositional_blind halike
  exact ⟨_, fresh', hreturns', hagree.message_eq _ _, (parse_of_stream hs').symm⟩

/-- An expression is refused inside of a group and a chain, and the next call begins at the
word that it was refused for. -/
theorem reader_resumes_at_length : ∃ r₀ r, Reader.ofSource "(1 + length 2;" = .ok r₀ ∧
    Session r₀ [.expression] r ∧ r.nesting = 0 ∧
    ∃ before suffix fresh, "(1 + length 2;".toList = before ++ suffix ∧
      r.cursor.ahead.position = .behind before ∧
      Reader.ofSource (String.ofList suffix) = .ok fresh ∧
      fresh.cursor.ahead.lexeme = r.cursor.ahead.lexeme := by
  obtain ⟨r₀, hr₀⟩ : ∃ r₀, Reader.ofSource "(1 + length 2;" = .ok r₀ := ⟨_, rfl⟩
  obtain ⟨hends, hresumes⟩ := calls_resume_at_lookahead hr₀
  obtain ⟨r, hsession⟩ := hends [.expression]
  obtain ⟨hnesting, before, suffix, fresh, hsource, hplace, -, hfresh, hlexeme, -⟩ :=
    hresumes _ r hsession
  exact ⟨r₀, r, hr₀, hsession, hnesting, before, suffix, fresh, hsource, hplace, hfresh, hlexeme⟩

end LSystem.Syntax
