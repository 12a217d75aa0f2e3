import LSystem.Syntax.Lexer

/-!
# Places of tokens

Places are ordered by line and then by column, and whatever is read of a text moves
on in this order.  So the tokens before a fault of a lexer stand before the fault.
`TokenStream.CutBy` says this of a stream as a whole, together with what else is
known of a stream that a fault cuts short: it has no end.
-/

namespace LSystem.Syntax

namespace Position

variable {p q r : Position} {text : List Char}

/-- One place is before another: in an earlier line, or further left in the same. -/
def Before (p q : Position) : Prop := p.line < q.line ∨ p.line = q.line ∧ p.column < q.column

/-- One place is before another or the same. -/
def UpTo (p q : Position) : Prop := p = q ∨ p.Before q

instance (p q : Position) : Decidable (p.Before q) :=
  inferInstanceAs (Decidable (p.line < q.line ∨ p.line = q.line ∧ p.column < q.column))

theorem Before.trans (h : p.Before q) (h' : q.Before r) : p.Before r := by
  unfold Before at h h' ⊢
  omega

theorem UpTo.trans (h : p.UpTo q) (h' : q.UpTo r) : p.UpTo r := by
  rcases h with rfl | h
  · exact h'
  · rcases h' with rfl | h'
    · exact .inr h
    · exact .inr (h.trans h')

theorem Before.trans_upTo (h : p.Before q) (h' : q.UpTo r) : p.Before r := by
  rcases h' with rfl | h'
  · exact h
  · exact h.trans h'

/-- Every character moves on. A line end moves to the next line, and every other character fills a
column at least. -/
theorem before_advance (p : Position) (c : Char) : p.Before (p.advance c) := by
  have hsize := c.utf8Size_pos
  unfold Before advance
  by_cases hc : c = '\n'
  · rw [if_pos hc]
    exact .inl (Nat.lt_succ_self _)
  · rw [if_neg hc]
    exact .inr ⟨rfl, Nat.lt_add_of_pos_right hsize⟩

/-- Going over a text never leads back, whatever line ends are in it. -/
theorem upTo_after (p : Position) (text : List Char) : p.UpTo (p.after text) := by
  induction text generalizing p with
  | nil => exact .inl rfl
  | cons c rest ih => exact UpTo.trans (.inr (p.before_advance c)) (ih (p.advance c))

/-- Going over a text that is not empty leads on, by a column at least or to a later line. -/
theorem before_after (p : Position) (h : text ≠ []) : p.Before (p.after text) := by
  cases text with
  | nil => exact absurd rfl h
  | cons c rest => exact (p.before_advance c).trans_upTo ((p.advance c).upTo_after rest)

end Position

/-! ### One token -/

namespace Lexer

variable {l l' : Lexer} {t : Token} {f : Fault} {s : TokenStream}

/-- A token stands where the lexer is or behind it, and the lexer is behind the token
then, unless it is the end. -/
theorem places_of_next (h : l.next = (.ok t, l')) :
    l.position.UpTo t.position ∧ (t.kind ≠ .finish → t.position.Before l'.position) := by
  have hplace := l.position.upTo_after (spanTrivia false l.rest).1
  simp only [next] at h
  split at h
  · rename_i kind text after hlexeme
    cases h
    exact ⟨hplace, fun hkind => Position.before_after _ (lexeme_ne_nil hlexeme hkind)⟩
  · cases h

/-- A fault stands where the lexer is or behind it. The gap in front is skipped first, and then
the character is refused. -/
theorem place_of_fault (h : l.next = (.error f, l')) : l.position.UpTo f.position := by
  have hplace := l.position.upTo_after (spanTrivia false l.rest).1
  simp only [next] at h
  split at h
  · cases h
  · cases h
    exact hplace

end Lexer

/-! ### All tokens -/

/-- The stream ends at a fault, and the tokens before it, none of which is an end,
stand before it. -/
def TokenStream.CutBy (f : Fault) : TokenStream → Prop
  | .token t rest => t.kind ≠ .finish ∧ t.position.Before f.position ∧ rest.CutBy f
  | .cut t g => t.kind ≠ .finish ∧ t.position.Before f.position ∧ g = f
  | .finish _ => False

/-- What a lexer complains of is not before the place where it is, and all tokens
that it reads until then are. -/
theorem Lexer.cutBy_of_fault {l : Lexer} {f : Fault}
    (h : (l.stream >>= TokenStream.collect) = .error f) :
    l.position.UpTo f.position ∧ ∀ s, l.stream = .ok s → s.CutBy f := by
  fun_induction Lexer.stream l with
  | case1 l g l' hnext =>
      cases h
      refine ⟨place_of_fault hnext, fun s hs => ?_⟩
      cases hs
  | case2 l t l' hnext hkind => cases h
  | case3 l t l' hnext hkind g hrest ih =>
      cases h
      obtain ⟨hfront, hbehind⟩ := places_of_next hnext
      rw [hrest] at ih
      obtain ⟨hplace, -⟩ := ih rfl
      have hbefore : t.position.Before f.position := (hbehind hkind).trans_upTo hplace
      refine ⟨hfront.trans (.inr hbefore), fun s hs => ?_⟩
      cases hs
      exact ⟨hkind, hbefore, rfl⟩
  | case4 l t l' hnext hkind rest hrest ih =>
      obtain ⟨hfront, hbehind⟩ := places_of_next hnext
      have hcollect : rest.collect = .error f := by
        change rest.collect.map (t :: ·) = .error f at h
        cases hfault : rest.collect with
        | error g =>
            rw [hfault] at h
            exact h
        | ok tokens =>
            rw [hfault] at h
            cases h
      rw [hrest] at ih
      obtain ⟨hplace, hcut⟩ := ih hcollect
      have hbefore : t.position.Before f.position := (hbehind hkind).trans_upTo hplace
      refine ⟨hfront.trans (.inr hbefore), fun s hs => ?_⟩
      cases hs
      exact ⟨hkind, hbefore, hcut rest rfl⟩

end LSystem.Syntax
