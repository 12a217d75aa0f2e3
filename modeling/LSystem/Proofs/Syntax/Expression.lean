import LSystem.Proofs.Syntax.Chain

/-!
# Expressions are read by the grammar

Operands are read soundly at every budget of levels, and completely at every
budget that their height does not exceed: the budget is one less inside a group,
a call or a negation, and so is the height.
-/

namespace LSystem.Syntax

open LSystem.Syntax.Parser

theorem Expr.height_pos (e : Expr) : 0 < e.height := by
  cases e <;> simp [Expr.height]

/-- The height of two rows of expressions together is the larger of their heights. -/
theorem Expr.heightList_append (es es' : List Expr) :
    Expr.heightList (es ++ es') = max (Expr.heightList es) (Expr.heightList es') := by
  induction es with
  | nil => simp [Expr.heightList]
  | cons e es ih => simp [Expr.heightList, ih, Nat.max_assoc]

/-- The height of a row of expressions does not depend on their order; the reader of arguments
collects them from the last to the first. -/
theorem Expr.heightList_reverse (es : List Expr) :
    Expr.heightList es.reverse = Expr.heightList es := by
  induction es with
  | nil => rfl
  | cons e es ih =>
      rw [List.reverse_cons, Expr.heightList_append, ih]
      simp only [Expr.heightList]
      omega

theorem Operand.fits_leaf {e : Expr} (h : e.height = 1) : (Operand.leaf e).Fits maxNesting := by
  refine ⟨h.symm, ?_⟩
  simp [Operand.leaf, maxNesting]

section Operands

variable {Item : List Lexeme → Expr → Prop} {argument inner : Parser Operand} {limit : Nat}
  {ls : List Lexeme} {es : List Expr} {s s' rest : TokenStream} {t : Token}

/-! ### Soundness -/

/-- What the reader of arguments has read: a row that lacks its last items. -/
def ArgumentsSoFar (Item : List Lexeme → Expr → Prop) (state : List Expr × Nat)
    (ms : List Lexeme) : Prop :=
  state.2 = Expr.heightList state.1 ∧
    ∀ ls es, Grammar.Row Item ls es → Grammar.Row Item (ms ++ ls) (state.1.reverse ++ es)

/-- A row of arguments and the parenthesis that closes it. -/
def ClosedRow (Item : List Lexeme → Expr → Prop) (ls : List Lexeme) (r : List Expr × Nat) : Prop :=
  r.2 = Expr.heightList r.1 ∧ ∃ row closing, ls = row ++ [closing] ∧
    closing.kind = .rightParen ∧ Grammar.Row Item row r.1.reverse

/-- One round of reading arguments keeps the invariant: an argument and a comma more have been
read, or the row is complete and closed. -/
theorem sound_argumentStep (hargument : Sound argument (Weighed Item maxNesting))
    (state : List Expr × Nat) (ms : List Lexeme) (hsofar : ArgumentsSoFar Item state ms) :
    Sound (argumentStep argument state) fun ls =>
      Round (ArgumentsSoFar Item) (ClosedRow Item) (ms ++ ls) := by
  obtain ⟨before, height⟩ := state
  obtain ⟨hheight, hrow⟩ := hsofar
  refine hargument.bind fun ls arg harg => ?_
  have hmax : max height arg.height = Expr.heightList (arg.expr :: before) := by
    simp only at hheight
    rw [Expr.heightList, ← harg.2.1, hheight, Nat.max_comm]
  refine Sound.optional (by decide) (by decide) (fun closing hclosing => sound_pure ?_) ?_
  · refine ⟨hmax, ms ++ ls, closing, by simp, hclosing, ?_⟩
    simpa using hrow ls [arg.expr] (.last harg.1)
  · refine (sound_consume (by decide) (by decide)).bind ?_
    intro _ comma h
    obtain ⟨hcomma, rfl⟩ := h
    refine sound_pure ⟨hmax, fun ns es hrest => ?_⟩
    have hmark : comma.lexeme.kind = .comma := hcomma
    simpa using hrow _ _ (.more harg.1 hmark hrest)

/-- A name before what is read as a call is a call by the grammar, with the height that the reader
keeps account of. -/
theorem sound_call
    (hargument : Sound argument (Weighed (Grammar.Chain Grammar.Operand 0) maxNesting))
    {name : Lexeme} (hname : name.kind = .identifier) :
    Sound (call argument name.text) fun ls =>
      Weighed Grammar.Operand maxNesting (name :: ls) := by
  refine (sound_consume (by decide) (by decide)).bind ?_
  intro _ opening h
  obtain ⟨hopening, rfl⟩ := h
  refine Sound.optional (by decide) (by decide) (fun closing hclosing => ?_) ?_
  · refine sound_ofExcept fun o h => ?_
    obtain ⟨hexpr, hfits⟩ := Operand.fits_of_nested (by simp [Expr.height, Expr.heightList]) h
    exact ⟨hexpr ▸ .callEmpty hname hopening hclosing, hfits⟩
  · have hsofar : ArgumentsSoFar (Grammar.Chain Grammar.Operand 0) ([], 0) [] :=
      ⟨rfl, fun _ _ h => h⟩
    refine (Sound.loop (sound_argumentStep hargument) hsofar).bind ?_
    intro _ h h'
    obtain ⟨args, height⟩ := h
    obtain ⟨hheight, row, closing, rfl, hclosing, hrow⟩ := h'
    refine sound_ofExcept fun o h => ?_
    obtain ⟨hexpr, hfits⟩ := Operand.fits_of_nested
      (by rw [Expr.height, Expr.heightList_reverse, ← hheight]) h
    exact ⟨hexpr ▸ by simpa using .call hname hopening hrow hclosing, hfits⟩

/-- A numeral with a finite value is a leaf with this value, and nothing more is taken from the
stream. -/
theorem run_numeral_of_legible (h : (Number.readNumeral t.text.toList).isFinite) :
    (numeral t).run s = (.ok (Operand.leaf (.num (Number.readNumeral t.text.toList))), s) := by
  rw [numeral, if_pos h]
  rfl

/-- A numeral that is read has a finite value. This is the one thing that is asked of a lexeme
beyond its kind. -/
theorem sound_numeral (hkind : t.kind = .number) :
    Sound (numeral t) fun ls o =>
      t.lexeme.Legible ∧ Weighed Grammar.Operand maxNesting (t.lexeme :: ls) o := by
  by_cases hfinite : (Number.readNumeral t.text.toList).isFinite
  · rw [numeral, if_pos hfinite]
    have hnumber := Grammar.Operand.number (l := t.lexeme) hkind
    exact sound_pure ⟨fun _ => hfinite, hnumber, Operand.fits_leaf (by rw [Expr.height])⟩
  · rw [numeral, if_neg hfinite]
    exact sound_fail

/-- An opening parenthesis before a chain and the closing one is a group by the grammar, one level
higher than the chain. -/
theorem sound_group (hinner : Sound inner (Weighed Grammar.Operand maxNesting)) {opening : Lexeme}
    (hopening : opening.kind = .leftParen) :
    Sound (do
      let content ← chain inner
      let _ ← consume .rightParen
      ofExcept (Operand.nested (.group content.expr) (content.height + 1)))
      fun ls => Weighed Grammar.Operand maxNesting (opening :: ls) := by
  refine (sound_chain hinner).bind fun ls content hcontent => ?_
  refine (sound_consume (by decide) (by decide)).bind ?_
  intro _ closing h
  obtain ⟨hclosing, rfl⟩ := h
  refine sound_ofExcept fun o h => ?_
  obtain ⟨hexpr, hfits⟩ := Operand.fits_of_nested (by rw [Expr.height, hcontent.2.1]) h
  have hgroup : Grammar.Operand (opening :: (ls ++ [closing.lexeme])) (.group content.expr) :=
    .group hopening hcontent.1 hclosing
  refine ⟨?_, hfits⟩
  rw [hexpr]
  simpa using hgroup

/-- A minus sign before an operand is its negation by the grammar, one level higher than the
operand. -/
theorem sound_negation (hinner : Sound inner (Weighed Grammar.Operand maxNesting)) {minus : Lexeme}
    (hminus : minus.kind = .minus) :
    Sound (do
      let negated ← inner
      ofExcept (Operand.nested (.neg negated.expr) (negated.height + 1)))
      fun ls => Weighed Grammar.Operand maxNesting (minus :: ls) := by
  refine hinner.bind fun ls negated hnegated => sound_ofExcept fun o h => ?_
  obtain ⟨hexpr, hfits⟩ := Operand.fits_of_nested (by rw [Expr.height, hnegated.2.1]) h
  refine ⟨?_, hfits⟩
  rw [hexpr]
  simpa using Grammar.Operand.neg hminus hnegated.1

/-- The reader of operands is sound if the reader of what stands inside them is, one case for each
kind of token that an operand begins with. -/
theorem sound_operandWith (hinner : Sound inner (Weighed Grammar.Operand maxNesting)) :
    Sound (operandWith inner) (Weighed Grammar.Operand maxNesting) := by
  refine Sound.lookahead_at fun s o s' hrun => ?_
  split at hrun
  · rename_i hkind
    refine advance_bind_sound (by simp [hkind]) (fun t ht => ?_) hrun
    exact sound_numeral (ht.trans hkind)
  · rename_i hkind
    refine advance_bind_sound_of_ne (by simp [hkind]) (by simp [hkind]) (fun name hname => ?_) hrun
    have hident : name.lexeme.kind = .identifier := hname.trans hkind
    refine Sound.lookahead fun next => ?_
    split
    · exact sound_call (sound_chain hinner) hident
    · exact sound_pure ⟨.ident hident, Operand.fits_leaf (by rw [Expr.height])⟩
  · rename_i hkind
    refine advance_bind_sound_of_ne (by simp [hkind]) (by simp [hkind])
      (fun opening hopening => ?_) hrun
    have hmark : opening.lexeme.kind = .leftParen := hopening.trans hkind
    exact sound_group hinner hmark
  · rename_i hkind
    refine advance_bind_sound_of_ne (by simp [hkind]) (by simp [hkind])
      (fun minus hminus => ?_) hrun
    have hmark : minus.lexeme.kind = .minus := hminus.trans hkind
    exact sound_negation hinner hmark
  · exact sound_unexpected s o s' hrun

/-- Operands are read soundly at every budget, by induction on the budget: at zero nothing is
read. -/
theorem sound_operand (limit : Nat) :
    Sound (operand limit) (Weighed Grammar.Operand maxNesting) := by
  induction limit with
  | zero => exact sound_failHere
  | succ limit ih => exact sound_operandWith ih

/-! ### Completeness -/

/-- A numeral with a finite value is read as an operand whatever follows it. -/
theorem run_operandWith_numeral (ht : t.kind = .number)
    (h : (Number.readNumeral t.text.toList).isFinite) :
    (operandWith inner).run (.token t rest) =
      (.ok (Operand.leaf (.num (Number.readNumeral t.text.toList))), rest) := by
  refine run_lookahead_advance (g := numeral) ?_ (run_numeral_of_legible h)
  simp only [ht]

/-- A name that no opening parenthesis follows is read as a variable. -/
theorem run_operandWith_ident (ht : t.kind = .identifier)
    (hfollow : rest.lookahead.kind ≠ .leftParen) :
    (operandWith inner).run (.token t rest) = (.ok (.leaf (.ident t.text)), rest) := by
  refine run_lookahead_advance (by simp only [ht]; rfl) ?_
  rw [run_lookahead_bind, if_neg hfollow]
  rfl

/-- A name that an opening parenthesis follows is read as a call, by its own reader. -/
theorem run_operandWith_call (rest : TokenStream) (ht : t.kind = .identifier)
    (hfollow : rest.lookahead.kind = .leftParen) :
    (operandWith inner).run (.token t rest) = (call (chain inner) t.text).run rest := by
  refine run_lookahead_advance (by simp only [ht]; rfl) ?_
  rw [run_lookahead_bind, if_pos hfollow]

/-- An expression in parentheses is read as a group if it is not too high for another level. -/
theorem run_operandWith_group {content : Operand} {closing : Token} (ht : t.kind = .leftParen)
    (hcontent : (chain inner).run s = (.ok content, .token closing rest))
    (hclosing : closing.kind = .rightParen) (hheight : content.height + 1 ≤ maxNesting) :
    (operandWith inner).run (.token t s) =
      (.ok ⟨.group content.expr, content.height + 1⟩, rest) := by
  refine run_lookahead_advance (by simp only [ht]; rfl) ?_
  rw [run_bind_of_eq hcontent, run_bind_of_eq (run_consume hclosing),
    Operand.nested_of_le hheight, run_ofExcept_ok]

/-- A minus sign and an operand are read as a negation if the operand is not too high for another
level. -/
theorem run_operandWith_negation {negated : Operand} (ht : t.kind = .minus)
    (hnegated : inner.run s = (.ok negated, rest)) (hheight : negated.height + 1 ≤ maxNesting) :
    (operandWith inner).run (.token t s) = (.ok ⟨.neg negated.expr, negated.height + 1⟩, rest) := by
  refine run_lookahead_advance (by simp only [ht]; rfl) ?_
  rw [run_bind_of_eq hnegated, Operand.nested_of_le hheight, run_ofExcept_ok]

/-- Arguments are read to their end, behind the ones that were there before. The induction is on
the row, and heights are kept as the largest so far. -/
theorem run_arguments (hargument : Complete argument (Weighed Item limit) EndsExpression)
    (hrow : Grammar.Row Item ls es) (hheight : Expr.heightList es ≤ limit) {closing : Token}
    (hclosing : closing.kind = .rightParen) (before : List Expr) (height : Nat)
    (hreads : s.Reads ls (.token closing rest)) :
    (loop (argumentStep argument) (advances_argumentStep argument) (before, height)).run s =
      (.ok (es.reverse ++ before, max height (Expr.heightList es)), rest) := by
  induction hrow generalizing s before height with
  | @last ls e item =>
      have hle : e.height ≤ limit := by simpa [Expr.heightList] using hheight
      have harg : argument.run s = (.ok ⟨e, e.height⟩, .token closing rest) :=
        hargument s ls _ _ hreads ⟨item, rfl, hle⟩
          (by rw [TokenStream.lookahead, hclosing]; exact ⟨by decide, rfl⟩)
      have hround : (argumentStep argument (before, height)).run s =
          (.ok (.inr (e :: before, max height e.height)), rest) := by
        rw [argumentStep, run_bind_of_eq harg, run_bind_of_eq (run_consumeOptional hclosing)]
        rfl
      rw [run_loop, hround]
      simp [Expr.heightList]
  | @more ls ms comma e es item hcomma row ih =>
      have hle : e.height ≤ limit ∧ Expr.heightList es ≤ limit := by
        simpa [Expr.heightList, Nat.max_le] using hheight
      obtain ⟨middle, hleft, hright⟩ := TokenStream.reads_append_iff.1 hreads
      obtain ⟨t, after, rfl, rfl, -, htail⟩ := TokenStream.reads_cons_iff.1 hright
      have hkind : t.kind = .comma := hcomma
      have harg : argument.run s = (.ok ⟨e, e.height⟩, .token t after) :=
        hargument s ls _ _ hleft ⟨item, rfl, hle.1⟩
          (by rw [TokenStream.lookahead, hkind]; exact ⟨by decide, rfl⟩)
      have hopen : (consumeOptional .rightParen).run (.token t after) =
          (.ok false, .token t after) :=
        run_consumeOptional_of_ne (by rw [TokenStream.lookahead, hkind]; decide)
      have hround : (argumentStep argument (before, height)).run s =
          (.ok (.inl (e :: before, max height e.height)), after) := by
        rw [argumentStep, run_bind_of_eq harg, run_bind_of_eq hopen]
        exact run_bind_of_eq (run_consume hkind)
      rw [run_loop, hround]
      simp only
      rw [ih hle.2 _ _ htail]
      simp [Expr.heightList, Nat.max_assoc]

/-- A call without arguments is read when its two parentheses follow each other. -/
theorem run_call_empty {name : String} {opening closing : Token}
    (hopening : opening.kind = .leftParen) (hclosing : closing.kind = .rightParen) :
    (call argument name).run (.token opening (.token closing rest)) =
      (.ok ⟨.call name [], 1⟩, rest) := by
  rw [call, run_bind_of_eq (run_consume hopening), run_bind_of_eq (run_consumeOptional hclosing)]
  rfl

/-- A row of arguments does not begin with its closing parenthesis. So the reader does not take it
for an empty call, and it reads the arguments up to the parenthesis that closes them. -/
theorem run_call {name : String} {opening closing : Token}
    (hargument : Complete argument (Weighed Item limit) EndsExpression)
    (hopening : opening.kind = .leftParen) (hclosing : closing.kind = .rightParen)
    (hrow : Grammar.Row Item ls es) (hheight : Expr.heightList es ≤ limit)
    (hlimit : Expr.heightList es + 1 ≤ maxNesting)
    (hfirst : s.lookahead.kind ≠ .rightParen) (hreads : s.Reads ls (.token closing rest)) :
    (call argument name).run (.token opening s) =
      (.ok ⟨.call name es, Expr.heightList es + 1⟩, rest) := by
  have hargs := run_arguments hargument hrow hheight hclosing [] 0 hreads
  rw [call, run_bind_of_eq (run_consume hopening),
    run_bind_of_eq (run_consumeOptional_of_ne hfirst)]
  refine (run_bind_of_eq hargs).trans ?_
  simp only [List.append_nil, List.reverse_reverse, Nat.zero_max, Operand.nested_of_le hlimit,
    run_ofExcept_ok]

end Operands

/-- The kinds of token that an expression can begin with. -/
def BeginsOperand (kind : TokenKind) : Prop :=
  kind ∈ [.number, .identifier, .leftParen, .minus]

/-- Every operand begins with a numeral, a name, a parenthesis or a minus sign, so the reader can
tell one by the token in front. -/
theorem Grammar.Operand.begins {ls : List Lexeme} {e : Expr} (h : Grammar.Operand ls e) :
    ∃ l rest, ls = l :: rest ∧ BeginsOperand l.kind := by
  cases h with
  | number hkind => exact ⟨_, _, rfl, by simp [BeginsOperand, hkind]⟩
  | ident hkind => exact ⟨_, _, rfl, by simp [BeginsOperand, hkind]⟩
  | callEmpty hname _ _ => exact ⟨_, _, rfl, by simp [BeginsOperand, hname]⟩
  | call hname _ _ _ => exact ⟨_, _, rfl, by simp [BeginsOperand, hname]⟩
  | group hopening _ _ => exact ⟨_, _, rfl, by simp [BeginsOperand, hopening]⟩
  | neg hminus _ => exact ⟨_, _, rfl, by simp [BeginsOperand, hminus]⟩

/-- A chain begins with its first operand, by induction on the derivation. -/
theorem Grammar.Chain.begins {level : Nat} {ls : List Lexeme} {e : Expr}
    (h : Grammar.Chain Grammar.Operand level ls e) :
    ∃ l rest, ls = l :: rest ∧ BeginsOperand l.kind := by
  induction h with
  | operand whole => exact whole.begins
  | binary _ _ _ _ ih _ =>
      obtain ⟨l, rest, rfl, hbegins⟩ := ih
      exact ⟨l, _, rfl, hbegins⟩

/-- A row of arguments begins with its first argument, so it cannot be taken for the end of an
empty call. -/
theorem Grammar.Row.begins {ls : List Lexeme} {es : List Expr}
    (h : Grammar.Row (Grammar.Chain Grammar.Operand 0) ls es) :
    ∃ l rest, ls = l :: rest ∧ BeginsOperand l.kind := by
  cases h with
  | last item => exact item.begins
  | more item _ _ =>
      obtain ⟨l, rest, rfl, hbegins⟩ := item.begins
      exact ⟨l, _, rfl, hbegins⟩

/-- **Operands are read completely.**  A budget of levels suffices for every
tree that is not higher. -/
theorem complete_operand {limit : Nat} (hlimit : limit ≤ maxNesting) :
    Complete (operand limit) (Weighed Grammar.Operand limit) (· ≠ .leftParen) := by
  induction limit with
  | zero =>
      intro s ls s' h _ h' _
      obtain ⟨e, height⟩ := h
      obtain ⟨-, hexact, hheight⟩ := h'
      obtain rfl : height = e.height := hexact
      exact absurd hheight (Nat.not_le_of_gt e.height_pos)
  | succ limit ih =>
      have hinner := ih (by omega)
      have hchain := complete_chain hinner (by omega)
      intro s ls s' h hreads h' hfollow
      obtain ⟨e, height⟩ := h
      obtain ⟨hop, hexact, hheight⟩ := h'
      obtain rfl : height = e.height := hexact
      simp only at hop hheight
      rw [operand]
      cases hop with
      | @number l hkind =>
          obtain ⟨t, rest, rfl, rfl, hlegible, htail⟩ := TokenStream.reads_cons_iff.1 hreads
          obtain rfl := TokenStream.reads_nil_iff.1 htail
          rw [run_operandWith_numeral hkind (hlegible hkind)]
          simp only [Operand.leaf, Expr.height, Token.lexeme]
      | @ident l hkind =>
          obtain ⟨t, rest, rfl, rfl, -, htail⟩ := TokenStream.reads_cons_iff.1 hreads
          obtain rfl := TokenStream.reads_nil_iff.1 htail
          rw [run_operandWith_ident hkind hfollow]
          simp only [Operand.leaf, Expr.height, Token.lexeme]
      | @callEmpty name opening closing hname hopening hclosing =>
          obtain ⟨t, s₁, rfl, rfl, -, htail₁⟩ := TokenStream.reads_cons_iff.1 hreads
          obtain ⟨t₁, s₂, rfl, rfl, -, htail₂⟩ := TokenStream.reads_cons_iff.1 htail₁
          obtain ⟨t₂, s₃, rfl, rfl, -, htail₃⟩ := TokenStream.reads_cons_iff.1 htail₂
          obtain rfl := TokenStream.reads_nil_iff.1 htail₃
          rw [run_operandWith_call (.token t₁ _) hname hopening,
            run_call_empty hopening hclosing]
          simp only [Expr.height, Expr.heightList, Token.lexeme]
      | @call name opening closing ms args hname hopening row hclosing =>
          rw [Expr.height] at hheight
          obtain ⟨t, s₁, rfl, rfl, -, htail₁⟩ := TokenStream.reads_cons_iff.1 hreads
          obtain ⟨t₁, s₂, rfl, rfl, -, htail₂⟩ := TokenStream.reads_cons_iff.1 htail₁
          obtain ⟨s₃, hrow, hlast⟩ := TokenStream.reads_append_iff.1 htail₂
          obtain ⟨t₃, s₄, rfl, rfl, -, htail₄⟩ := TokenStream.reads_cons_iff.1 hlast
          obtain rfl := TokenStream.reads_nil_iff.1 htail₄
          have hfirst : s₂.lookahead.kind ≠ .rightParen := by
            obtain ⟨l, rest, rfl, hbegins⟩ := row.begins
            rw [hrow.lookahead_kind]
            intro heq
            simp [BeginsOperand, heq] at hbegins
          rw [run_operandWith_call (.token t₁ s₂) hname hopening,
            run_call hchain hopening hclosing row (by omega) (by omega) hfirst hrow, Expr.height]
          rfl
      | @group opening closing ms e hopening inner hclosing =>
          rw [Expr.height] at hheight
          obtain ⟨t, s₁, rfl, rfl, -, htail₁⟩ := TokenStream.reads_cons_iff.1 hreads
          obtain ⟨s₂, hcontent, hlast⟩ := TokenStream.reads_append_iff.1 htail₁
          obtain ⟨t₂, s₃, rfl, rfl, -, htail₃⟩ := TokenStream.reads_cons_iff.1 hlast
          obtain rfl := TokenStream.reads_nil_iff.1 htail₃
          have hrun := hchain s₁ ms _ ⟨e, e.height⟩ hcontent ⟨inner, rfl, by simpa using hheight⟩
            (by rw [TokenStream.lookahead, show t₂.kind = .rightParen from hclosing]
                exact ⟨by decide, rfl⟩)
          rw [run_operandWith_group hopening hrun hclosing (by simp only; omega), Expr.height]
      | @neg minus ms e hminus inner =>
          rw [Expr.height] at hheight
          obtain ⟨t, s₁, rfl, rfl, -, htail⟩ := TokenStream.reads_cons_iff.1 hreads
          have hrun := hinner s₁ ms s' ⟨e, e.height⟩ htail ⟨inner, rfl, by simpa using hheight⟩
            hfollow
          rw [run_operandWith_negation hminus hrun (by simp only; omega), Expr.height]

/-! ### Whole expressions -/

/-- What an expression may be: by the grammar, and not too high. -/
def Admits (ls : List Lexeme) (e : Expr) : Prop :=
  Grammar.Expression ls e ∧ e.height ≤ maxNesting

/-- What is read as an expression is one by the grammar and is not too high, whatever comes behind
it. -/
theorem sound_expression : Sound expression Admits := by
  refine (sound_chain (sound_operand maxNesting)).bind fun ls o ho => sound_pure ?_
  refine ⟨by simpa using ho.1, ?_⟩
  rw [← ho.2.1]
  exact ho.2.2

/-- Every expression of the grammar that is not too high is read, up to a token that cannot go on
with it. -/
theorem complete_expression : Complete expression Admits EndsExpression := by
  intro s ls s' e hreads he hfollow
  have hchain := complete_chain (complete_operand (Nat.le_refl maxNesting)) (Nat.le_refl _)
  have hrun := hchain s ls s' ⟨e, e.height⟩ hreads ⟨he.1, rfl, he.2⟩ hfollow
  exact run_bind_of_eq hrun

end LSystem.Syntax
