import LSystem.Proofs.Syntax.Lexical.Bytes

/-!
# A text is the sum of its tokens and gaps

A text is cut into cells, each a gap and the token behind it, and at the end there is one
more gap, or a gap and a character that begins no token.  `Cuts` says this of any text.
The calls of a lexer come to such a cut, and a text that can be cut in this way is cut in
this way: `Lexer.Takes.cuts` and `Lexer.takes_of_cuts`.
-/

namespace LSystem.Syntax

/-! ### Calls of a lexer -/

/-- A lexer reads some tokens, none of them the end, and comes to another state. -/
inductive Lexer.Takes : Lexer → List Token → Lexer → Prop
  | nil (l : Lexer) : Takes l [] l
  | cons {l m n : Lexer} {t : Token} {ts : List Token} (hnext : l.next = (.ok t, m))
      (hkind : t.kind ≠ .finish) (htail : Takes m ts n) : Takes l (t :: ts) n

namespace Lexer

variable {l m n : Lexer} {t eof : Token} {ts : List Token} {f : Fault}

/-- Every lexer comes to the end of its text or to a fault. -/
theorem exists_takes (l : Lexer) : ∃ ts m, l.Takes ts m ∧
    ((∃ eof n, m.next = (.ok eof, n) ∧ eof.kind = .finish) ∨ ∃ f n, m.next = (.error f, n)) := by
  induction l using Lexer.stream.induct with
  | case1 l f n hnext => exact ⟨[], l, .nil l, .inr ⟨f, n, hnext⟩⟩
  | case2 l t n hnext hkind => exact ⟨[], l, .nil l, .inl ⟨t, n, hnext, hkind⟩⟩
  | case3 l t m hnext hkind _ _ ih | case4 l t m hnext hkind _ _ ih =>
      obtain ⟨ts, n, htakes, hend⟩ := ih
      exact ⟨t :: ts, n, .cons hnext hkind htakes, hend⟩

/-- A token that is not the end comes in front of what is collected behind it. -/
theorem collect_of_next (hnext : l.next = (.ok t, m)) (hkind : t.kind ≠ .finish) :
    (l.stream >>= TokenStream.collect) = (m.stream >>= TokenStream.collect).map (t :: ·) := by
  rw [stream_eq, hnext]
  simp only [if_neg hkind]
  cases m.stream <;> rfl

/-- What a lexer comes to in the end is the tokens that it has taken, with what it comes to from
there on behind them. -/
theorem Takes.collect (h : l.Takes ts m) : (l.stream >>= TokenStream.collect) =
    (m.stream >>= TokenStream.collect).map (ts ++ ·) := by
  induction h with
  | nil l => cases l.stream >>= TokenStream.collect <;> rfl
  | @cons l m n t ts hnext hkind htail ih =>
      rw [collect_of_next hnext hkind, ih]
      cases n.stream >>= TokenStream.collect <;> rfl

/-- The tokens that are read before the end are all tokens. -/
theorem Takes.collect_of_finish (h : l.Takes ts m) (hnext : m.next = (.ok eof, n))
    (hkind : eof.kind = .finish) : (l.stream >>= TokenStream.collect) = .ok (ts ++ [eof]) := by
  have heof := (next_finish hnext hkind).1
  rw [h.collect, stream_of_finish hnext hkind, heof]
  rfl

/-- A fault behind the tokens that are read is the fault of the whole. -/
theorem Takes.collect_of_error (h : l.Takes ts m) (hnext : m.next = (.error f, n)) :
    (l.stream >>= TokenStream.collect) = .error f := by
  rw [h.collect, stream_eq, hnext]
  rfl

end Lexer

/-! ### Cells -/

/-- A token and the gap in front of it. -/
structure Cell where
  gap : List Char
  token : Token

/-- The characters of a cell. -/
def Cell.text (cell : Cell) : List Char := cell.gap ++ cell.token.text.toList

/-- The text that some cells make up. -/
def layout (cells : List Cell) : List Char := cells.flatMap Cell.text

@[simp] theorem layout_nil : layout [] = [] := rfl

@[simp] theorem layout_cons (cell : Cell) (cells : List Cell) :
    layout (cell :: cells) = cell.gap ++ (cell.token.text.toList ++ layout cells) :=
  List.append_assoc _ _ _

@[simp] theorem layout_append (cells others : List Cell) :
    layout (cells ++ others) = layout cells ++ layout others := List.flatMap_append

/-- A text that begins at a place is cut into cells and a rest.  In each cell a gap is
followed by something solid, of which the token is the longest in front. -/
inductive Cuts : Position → List Char → List Cell → List Char → Prop
  | nil (p : Position) (text : List Char) : Cuts p text [] text
  | cons {p : Position} {kind : TokenKind} {gap front rest after : List Char} {cells : List Cell}
      (hgap : Gap False gap) (hsolid : Solid (front ++ rest))
      (hlongest : Longest kind front (front ++ rest))
      (htail : Cuts ((p.after gap).after front) rest cells after) :
      Cuts p (gap ++ (front ++ rest))
        (⟨gap, ⟨kind, String.ofList front, p.after gap⟩⟩ :: cells) after

namespace Lexer

variable {l m : Lexer} {t : Token} {f : Fault}

/-- The lexer reads a token: behind a gap stands something solid, and the token is the
longest in front of it. -/
theorem next_eq_token_iff (hkind : t.kind ≠ .finish) : l.next = (.ok t, m) ↔
    ∃ gap front rest, l.rest = gap ++ (front ++ rest) ∧ Gap False gap ∧ Solid (front ++ rest) ∧
      Longest t.kind front (front ++ rest) ∧
      t = ⟨t.kind, String.ofList front, l.position.after gap⟩ ∧
      m = ⟨rest, (l.position.after gap).after front, l.position.after gap⟩ := by
  constructor
  · intro h
    simp only [next] at h
    split at h
    · rename_i kind front rest hlexeme
      cases h
      obtain ⟨hrest, hgap, hsolid⟩ := spanTrivia_eq_iff.1 (rfl : spanTrivia false l.rest = (_, _))
      obtain ⟨hfront, hlongest⟩ := (lexeme?_eq_some_iff hkind).1 hlexeme
      rw [hfront] at hrest hgap hsolid hlongest
      have hne : front ++ rest ≠ [] := List.append_ne_nil_of_left_ne_nil hlongest.spells.ne_nil _
      exact ⟨_, front, rest, hrest, hgap.mono hne, hsolid, hlongest, rfl, rfl⟩
    · cases h
  · intro h
    obtain ⟨gap, front, rest, hrest, hgap, hsolid, hlongest, ht, rfl⟩ := h
    have hspan : spanTrivia false l.rest = (gap, front ++ rest) :=
      spanTrivia_eq_iff.2 ⟨hrest, hgap.mono False.elim, hsolid⟩
    rw [ht]
    simp only [next, hspan, lexeme?_of_longest hlongest]

/-- The lexer reads the end: there is a gap and nothing else. Only there may a comment be without
the end of its line. -/
theorem next_eq_finish_iff : l.next = (.ok t, m) ∧ t.kind = .finish ↔
    Gap True l.rest ∧ t = ⟨.finish, "", l.position.after l.rest⟩ ∧
      m = ⟨[], l.position.after l.rest, l.position.after l.rest⟩ := by
  constructor
  · intro h
    obtain ⟨h, hkind⟩ := h
    obtain ⟨ht, hm⟩ := next_finish h hkind
    obtain ⟨hrest, hgap, -⟩ := spanTrivia_eq_iff.1 (rfl : spanTrivia false l.rest = (_, _))
    simp only [next] at h
    split at h
    · rename_i kind front rest hlexeme
      obtain rfl : kind = .finish := by
        rw [← hkind, ← (Except.ok.inj (Prod.mk.inj h).1)]
      rw [eq_nil_of_lexeme? hlexeme, List.append_nil] at hrest
      have hplace : t.position = l.position.after l.rest := by
        rw [← (Except.ok.inj (Prod.mk.inj h).1), ← hrest]
      rw [← hrest] at hgap
      rw [hplace] at ht hm
      exact ⟨hgap.mono fun _ => trivial, ht, hm⟩
    · cases h
  · intro h
    obtain ⟨hgap, rfl, rfl⟩ := h
    have hspan : spanTrivia false l.rest = (l.rest, []) :=
      spanTrivia_eq_iff.2 ⟨(List.append_nil _).symm, hgap.mono fun _ => rfl, solid_nil⟩
    refine ⟨?_, rfl⟩
    simp only [next, hspan]
    rfl

/-- The lexer refuses a character: behind a gap stands something solid that begins with
no token. -/
theorem next_eq_error (h : l.next = (.error f, m)) : ∃ gap c rest,
    l.rest = gap ++ c :: rest ∧ Gap False gap ∧ Solid (c :: rest) ∧
      (∀ kind front, Spells kind front → ¬front <+: c :: rest) ∧
      f = ⟨.unexpectedCharacter c, l.position.after gap⟩ ∧
      m = ⟨c :: rest, l.position.after gap, l.position.after gap⟩ := by
  simp only [next] at h
  split at h
  · cases h
  · rename_i hlexeme
    cases h
    obtain ⟨hrest, hgap, hsolid⟩ := spanTrivia_eq_iff.1 (rfl : spanTrivia false l.rest = (_, _))
    cases hbehind : (spanTrivia false l.rest).2 with
    | nil =>
        rw [hbehind] at hlexeme
        cases hlexeme
    | cons c rest =>
        rw [hbehind] at hrest hgap hsolid hlexeme
        exact ⟨_, c, rest, hrest, hgap.mono (List.cons_ne_nil c rest), hsolid,
          fun kind front hspells => not_begins_of_lexeme? hlexeme hspells, rfl, rfl⟩

/-- What the calls of a lexer come to is how its text is cut. The induction is on the calls, each
of which takes one cell. -/
theorem Takes.cuts {n : Lexer} {ts : List Token} (h : l.Takes ts n) : ∃ cells,
    cells.map Cell.token = ts ∧ Cuts l.position l.rest cells n.rest ∧
      l.rest = layout cells ++ n.rest ∧ n.position = l.position.after (layout cells) := by
  induction h with
  | nil l => exact ⟨[], rfl, .nil _ _, rfl, rfl⟩
  | @cons l m n t ts hnext hkind htail ih =>
      obtain ⟨gap, front, rest, hrest, hgap, hsolid, hlongest, ht, rfl⟩ :=
        (next_eq_token_iff hkind).1 hnext
      obtain ⟨cells, rfl, hcuts, happend, hplace⟩ := ih
      refine ⟨⟨gap, t⟩ :: cells, rfl, ?_, ?_, ?_⟩
      · rw [hrest, ht]
        exact .cons hgap hsolid hlongest hcuts
      · rw [ht]
        simpa [hrest] using happend
      · rw [ht, hplace]
        simp [Position.after_append]

/-- A text that can be cut is cut so by the calls of a lexer. So the cut is the only one, which
makes the lexer a matter of the text alone. -/
theorem takes_of_cuts {p : Position} {text after : List Char} {cells : List Cell}
    (h : Cuts p text cells after) (tokenPosition : Position) : ∃ n,
    (Lexer.mk text p tokenPosition).Takes (cells.map Cell.token) n ∧ n.rest = after ∧
      n.position = p.after (layout cells) := by
  induction h generalizing tokenPosition with
  | nil p text => exact ⟨_, .nil _, rfl, rfl⟩
  | @cons p kind gap front rest after cells hgap hsolid hlongest htail ih =>
      obtain ⟨n, htakes, hrest, hplace⟩ := ih (p.after gap)
      have hkind := hlongest.spells.kind_ne_finish
      have hnext : (Lexer.mk (gap ++ (front ++ rest)) p tokenPosition).next =
          (.ok ⟨kind, String.ofList front, p.after gap⟩,
            ⟨rest, (p.after gap).after front, p.after gap⟩) :=
        (next_eq_token_iff hkind).2 ⟨gap, front, rest, rfl, hgap, hsolid, hlongest, rfl, rfl⟩
      refine ⟨n, .cons hnext hkind htakes, hrest, ?_⟩
      rw [hplace]
      simp [Position.after_append]

end Lexer

/-! ### The cells of a text -/

/-- How a cell stands in a text, between what is before it and what is behind it. -/
structure Cell.Fits (source : String) (before : List Char) (cell : Cell) (after : List Char) :
    Prop where
  gap : Gap False cell.gap
  solid : Solid (cell.token.text.toList ++ after)
  longest : Longest cell.token.kind cell.token.text.toList (cell.token.text.toList ++ after)
  place : cell.token.position = .behind (before ++ cell.gap)
  /-- The token begins between two characters, and so it ends. -/
  starts : (⟨bytes (before ++ cell.gap)⟩ : String.Pos.Raw).IsValid source
  stops : (⟨bytes (before ++ cell.text)⟩ : String.Pos.Raw).IsValid source
  /-- The bytes from there to there are its text. -/
  slice : source.toByteArray.extract (bytes (before ++ cell.gap)) (bytes (before ++ cell.text)) =
    cell.token.text.toByteArray

namespace Cuts

variable {p : Position} {text after : List Char} {cells front behind : List Cell} {cell : Cell}

/-- A text is its cells and its rest: nothing is lost between two cells, and nothing is read
twice. -/
theorem append (h : Cuts p text cells after) : text = layout cells ++ after := by
  induction h with
  | nil p text => rfl
  | cons hgap hsolid hlongest htail ih => simp [ih]

/-- Every cell of a text that is cut stands as it should. The induction is on the cells in front
of it. -/
theorem cell_at (h : Cuts p text cells after) (hcells : cells = front ++ cell :: behind) :
    Gap False cell.gap ∧ Solid (cell.token.text.toList ++ (layout behind ++ after)) ∧
      Longest cell.token.kind cell.token.text.toList
        (cell.token.text.toList ++ (layout behind ++ after)) ∧
      cell.token.position = p.after (layout front ++ cell.gap) := by
  induction h generalizing front with
  | nil p text => cases front <;> cases hcells
  | @cons p kind gap x rest after cells hgap hsolid hlongest htail ih =>
      cases front with
      | nil =>
          obtain ⟨rfl, rfl⟩ := List.cons.inj hcells
          have hrest := htail.append
          rw [hrest] at hsolid hlongest
          rw [String.toList_ofList]
          exact ⟨hgap, hsolid, hlongest, rfl⟩
      | cons head front =>
          obtain ⟨rfl, htail'⟩ := List.cons.inj hcells
          obtain ⟨hgap', hsolid', hlongest', hplace⟩ := ih htail'
          refine ⟨hgap', hsolid', hlongest', ?_⟩
          rw [hplace]
          simp [Position.after_append]

/-- Every cell of a cut stands in the whole text as it should: its gap is one, its token the
longest there, its place and its bytes those of the text. -/
theorem fits {source : String} (h : Cuts .start source.toList cells after)
    (hcells : cells = front ++ cell :: behind) :
    cell.Fits source (layout front) (layout behind ++ after) := by
  obtain ⟨hgap, hsolid, hlongest, hplace⟩ := h.cell_at hcells
  have hsource : source.toList = (layout front ++ cell.gap) ++
      (cell.token.text.toList ++ (layout behind ++ after)) := by
    rw [h.append, hcells]
    simp
  have htext : layout front ++ cell.text = layout front ++ cell.gap ++ cell.token.text.toList :=
    (List.append_assoc _ _ _).symm
  constructor
  · exact hgap
  · exact hsolid
  · exact hlongest
  · rw [hplace, Position.start_after]
  · exact isValid_bytes hsource
  · rw [← List.append_assoc, ← htext] at hsource
    exact isValid_bytes hsource
  · rw [htext, extract_bytes hsource, String.ofList_toList]

end Cuts

/-! ### From the front of a text -/

section Source

variable {source : String} {ts : List Token} {m n : Lexer}

/-- Where a lexer is after some tokens of a text: behind the cells that have these tokens, with
the rest of the text before it and at the place behind the cells. -/
theorem Lexer.Takes.cuts_source (h : (ofSource source).Takes ts m) : ∃ cells,
    cells.map Cell.token = ts ∧ Cuts .start source.toList cells m.rest ∧
      source.toList = layout cells ++ m.rest ∧
      ∀ gap, m.position.after gap = .behind (layout cells ++ gap) := by
  obtain ⟨cells, htokens, hcuts, hrest, hplace⟩ := h.cuts
  refine ⟨cells, htokens, hcuts, hrest, fun gap => ?_⟩
  rw [hplace, ← Position.after_append]
  exact Position.start_after _

/-- A text is cut into tokens when it can be cut up to a last gap. -/
theorem tokenize_eq_ok_iff_cuts {tokens : List Token} : tokenize source = .ok tokens ↔
    ∃ cells gap, Cuts .start source.toList cells gap ∧ Gap True gap ∧
      tokens = cells.map Cell.token ++ [⟨.finish, "", .behind source.toList⟩] := by
  constructor
  · intro h
    obtain ⟨ts, m, htakes, hend⟩ := (Lexer.ofSource source).exists_takes
    obtain ⟨cells, rfl, hcuts, hrest, hplace⟩ := htakes.cuts_source
    rcases hend with ⟨eof, n, hnext, hkind⟩ | ⟨f, n, hnext⟩
    · have htokens : tokenize source = .ok (cells.map Cell.token ++ [eof]) :=
        congrArg (Except.mapError (Fault.toError source)) (htakes.collect_of_finish hnext hkind)
      obtain ⟨hgap, rfl, -⟩ := Lexer.next_eq_finish_iff.1 ⟨hnext, hkind⟩
      rw [hplace, ← hrest, h] at htokens
      exact ⟨cells, m.rest, hcuts, hgap, Except.ok.inj htokens⟩
    · have herror : tokenize source = .error (f.toError source) :=
        congrArg (Except.mapError (Fault.toError source)) (htakes.collect_of_error hnext)
      rw [h] at herror
      cases herror
  · intro h
    obtain ⟨cells, gap, hcuts, hgap, rfl⟩ := h
    obtain ⟨m, htakes, rfl, hplace⟩ := Lexer.takes_of_cuts hcuts .start
    obtain ⟨hnext, hkind⟩ := Lexer.next_eq_finish_iff.2 ⟨hgap, rfl, rfl⟩
    have hend : m.position.after m.rest = .behind source.toList := by
      rw [hplace, ← Position.after_append, Position.start_after, ← hcuts.append]
    have hcollect := Lexer.Takes.collect_of_finish htakes hnext hkind
    rw [hend] at hcollect
    exact congrArg (Except.mapError (Fault.toError source)) hcollect

/-- A text that is not cut into tokens is cut up to a character that begins neither a gap
nor a token. -/
theorem cuts_of_tokenize_error {e : SyntaxError} (h : tokenize source = .error e) :
    ∃ cells gap c rest m n, Cuts .start source.toList cells (gap ++ c :: rest) ∧ Gap False gap ∧
      Solid (c :: rest) ∧ (∀ kind front, Spells kind front → ¬front <+: c :: rest) ∧
      (Lexer.ofSource source).Takes (cells.map Cell.token) m ∧
      m.next = (.error ⟨.unexpectedCharacter c, .behind (layout cells ++ gap)⟩, n) ∧
      e = Fault.toError source ⟨.unexpectedCharacter c, .behind (layout cells ++ gap)⟩ := by
  obtain ⟨ts, m, htakes, hend⟩ := (Lexer.ofSource source).exists_takes
  obtain ⟨cells, rfl, hcuts, hrest, hplace⟩ := htakes.cuts_source
  rcases hend with ⟨eof, n, hnext, hkind⟩ | ⟨f, n, hnext⟩
  · have htokens : tokenize source = .ok (cells.map Cell.token ++ [eof]) :=
      congrArg (Except.mapError (Fault.toError source)) (htakes.collect_of_finish hnext hkind)
    rw [h] at htokens
    cases htokens
  · have herror : tokenize source = .error (f.toError source) :=
      congrArg (Except.mapError (Fault.toError source)) (htakes.collect_of_error hnext)
    obtain ⟨gap, c, rest, hm, hgap, hsolid, hnone, rfl, -⟩ := Lexer.next_eq_error hnext
    rw [hplace] at hnext herror
    rw [hm] at hcuts
    rw [h] at herror
    exact ⟨cells, gap, c, rest, m, n, hcuts, hgap, hsolid, hnone, htakes, hnext,
      Except.error.inj herror⟩

end Source

/-- **Partition.**  The tokens of a text and the gaps between them are the text.  Each
token is the longest in front of what is left behind its gap, it begins and ends between
two characters, and its place counts the lines before it and the bytes of its line.  A
text that cannot be cut to its end is cut in the same way up to its first character that
begins neither a gap nor a token.  A lexer with a cursor that goes byte by byte gives the
same answers, always with the cursor between two characters. -/
theorem tokens_partition_text (source : String) :
    (∀ tokens, tokenize source = .ok tokens → ∃ cells gap,
      source.toList = layout cells ++ gap ∧ Gap True gap ∧
        tokens = cells.map Cell.token ++ [⟨.finish, "", .behind source.toList⟩] ∧
        ∀ front cell behind, cells = front ++ cell :: behind →
          cell.Fits source (layout front) (layout behind ++ gap)) ∧
    (∀ e, tokenize source = .error e → ∃ cells gap c rest,
      source.toList = layout cells ++ (gap ++ c :: rest) ∧ Gap False gap ∧ Solid (c :: rest) ∧
        (∀ kind front, Spells kind front → ¬front <+: c :: rest) ∧
        e = Fault.toError source ⟨.unexpectedCharacter c, .behind (layout cells ++ gap)⟩ ∧
        (∃ m n, (Lexer.ofSource source).Takes (cells.map Cell.token) m ∧
          m.next = (.error ⟨.unexpectedCharacter c, .behind (layout cells ++ gap)⟩, n)) ∧
        ∀ front cell behind, cells = front ++ cell :: behind →
          cell.Fits source (layout front) (layout behind ++ (gap ++ c :: rest))) ∧
    ∀ n, ((ByteLexer.ofSource source).afterCalls n).Follows
        ((Lexer.ofSource source).afterCalls n) ∧
      ((ByteLexer.ofSource source).afterCalls n).next =
        some (((Lexer.ofSource source).afterCalls n).next.1,
          (ByteLexer.ofSource source).afterCalls (n + 1)) := by
  refine ⟨?_, ?_, fun n => ((ByteLexer.follows_ofSource source).afterCalls n).2⟩
  · intro tokens h
    obtain ⟨cells, gap, hcuts, hgap, htokens⟩ := tokenize_eq_ok_iff_cuts.1 h
    exact ⟨cells, gap, hcuts.append, hgap, htokens, fun _ _ _ hcells => hcuts.fits hcells⟩
  · intro e h
    obtain ⟨cells, gap, c, rest, m, n, hcuts, hgap, hsolid, hnone, htakes, hnext, he⟩ :=
      cuts_of_tokenize_error h
    exact ⟨cells, gap, c, rest, hcuts.append, hgap, hsolid, hnone, he, ⟨m, n, htakes, hnext⟩,
      fun _ _ _ hcells => hcuts.fits hcells⟩

/-- Two numerals and a word that touch each other, with a comment between this word and
the next; and a text that is cut up to a letter that begins no token. -/
theorem partition_numerals_and_letter :
    (∃ tokens, tokenize "1.5.5a# é\nwidth" = .ok tokens ∧ tokens.length = 5 ∧ ∃ cells gap,
        "1.5.5a# é\nwidth".toList = layout cells ++ gap ∧ Gap True gap ∧
          tokens.map Token.text = cells.map (Token.text ∘ Cell.token) ++ [""]) ∧
      ∃ e, tokenize "# é\na é" = .error e ∧ ∃ cells gap c rest,
        "# é\na é".toList = layout cells ++ (gap ++ c :: rest) ∧
          e = Fault.toError "# é\na é" ⟨.unexpectedCharacter c, .behind (layout cells ++ gap)⟩ := by
  have htokens : tokenize "1.5.5a# é\nwidth" = .ok [⟨.number, "1.5", ⟨1, 1⟩⟩,
      ⟨.number, ".5", ⟨1, 4⟩⟩, ⟨.identifier, "a", ⟨1, 6⟩⟩, ⟨.keyword .width, "width", ⟨2, 1⟩⟩,
      ⟨.finish, "", ⟨2, 6⟩⟩] := by cbv
  have hcut : TokenStream.ofSource "# é\na é" =
      .ok (.cut ⟨.identifier, "a", ⟨2, 1⟩⟩ ⟨.unexpectedCharacter 'é', ⟨2, 3⟩⟩) := by cbv
  have hfault : tokenize "# é\na é" =
      .error (Fault.toError "# é\na é" ⟨.unexpectedCharacter 'é', ⟨2, 3⟩⟩) :=
    tokenize_of_stream hcut
  obtain ⟨cells, gap, happend, hgap, heq, -⟩ := (tokens_partition_text _).1 _ htokens
  obtain ⟨cells', gap', c, rest, happend', -, -, -, he, -⟩ := (tokens_partition_text _).2.1 _ hfault
  refine ⟨⟨_, htokens, rfl, cells, gap, happend, hgap, ?_⟩, _, hfault, cells', gap', c, rest,
    happend', he⟩
  rw [heq]
  simp

end LSystem.Syntax
