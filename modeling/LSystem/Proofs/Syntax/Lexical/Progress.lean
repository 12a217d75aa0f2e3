import LSystem.Proofs.Syntax.Lexical.Partition

/-!
# The lexer goes on and then stays

Call after call a lexer comes to tokens that stand further and further behind in the
text.  There are not more of them than the text has bytes, and then comes the end of the
text or a character that is refused.  From there on every call gives the same answer and
leaves the lexer as it is.

So what asks a lexer for tokens until the end comes to an end itself: `collectWithin`
counts the calls of the loop that cuts a text into tokens, and the descent of the grammar
over a cursor is finite.
-/

namespace LSystem.Syntax

open LSystem.Syntax.Parser

namespace Lexer

variable {l m n : Lexer} {t : Token} {ts : List Token} {f : Fault} {i : Nat}

/-- What is left of the text when the gap in front is skipped. -/
def behindGap (l : Lexer) : List Char := (spanTrivia false l.rest).2

/-! ### Calls that come to tokens -/

/-- A lexer that has taken some tokens is where as many calls lead. -/
theorem Takes.afterCalls (h : l.Takes ts m) : l.afterCalls ts.length = m := by
  induction h with
  | nil l => rfl
  | cons hnext _ _ ih =>
      rw [List.length_cons, afterCalls_succ, hnext]
      exact ih

/-- The calls before the last token come to the tokens before it. The induction is on the tokens
that were taken. -/
theorem Takes.split (h : l.Takes ts m) (hi : i < ts.length) :
    l.Takes (ts.take i) (l.afterCalls i) ∧
      (l.afterCalls i).next = (.ok ts[i], l.afterCalls (i + 1)) ∧ ts[i].kind ≠ .finish := by
  induction h generalizing i with
  | nil l => exact absurd hi (Nat.not_lt_zero i)
  | @cons l m n t ts hnext hkind htail ih =>
      cases i with
      | zero =>
          refine ⟨.nil l, ?_, hkind⟩
          rw [afterCalls_succ, hnext]
          exact hnext
      | succ i =>
          obtain ⟨htakes, hcall, hother⟩ := ih (Nat.lt_of_succ_lt_succ hi)
          rw [afterCalls_succ, afterCalls_succ, hnext]
          exact ⟨.cons hnext hkind htakes, hcall, hother⟩

/-- What begins behind the next gap is shorter by the token in front at least. -/
theorem bytes_behindGap_lt (h : l.next = (.ok t, m)) (hkind : t.kind ≠ .finish) :
    bytes m.behindGap < bytes l.behindGap := by
  obtain ⟨gap, front, rest, hrest, hgap, hsolid, hlongest, -, rfl⟩ := (next_eq_token_iff hkind).1 h
  have hbehind : l.behindGap = front ++ rest :=
    congrArg Prod.snd (spanTrivia_eq_iff.2 ⟨hrest, hgap.mono False.elim, hsolid⟩)
  have hsplit := congrArg bytes (spanTrivia_append false rest)
  have hfront := length_le_bytes front
  have hpos := List.length_pos_iff.2 hlongest.spells.ne_nil
  rw [bytes_append] at hsplit
  rw [hbehind, bytes_append]
  change bytes (spanTrivia false rest).2 < _
  omega

/-! ### Calls that stay -/

/-- Behind the end the lexer comes to the end again. -/
theorem next_of_finish (h : l.next = (.ok t, m)) (hkind : t.kind = .finish) :
    m.next = (.ok t, m) := by
  obtain ⟨ht, rfl⟩ := next_finish h hkind
  rw [ht]
  rfl

/-- A character that is refused is refused again. The lexer stays in front of it, and it skips no
gap the second time. -/
theorem next_of_error (h : l.next = (.error f, m)) : m.next = (.error f, m) := by
  simp only [next] at h
  split at h
  · cases h
  · rename_i hlexeme
    cases h
    obtain ⟨-, -, hsolid⟩ := spanTrivia_eq_iff.1 (rfl : spanTrivia false l.rest = (_, _))
    have hspan : spanTrivia false (spanTrivia false l.rest).2 = ([], (spanTrivia false l.rest).2) :=
      spanTrivia_eq_iff.2 ⟨rfl, .nil, hsolid⟩
    simp only [next, hspan, hlexeme]
    rfl

/-- A lexer that a call leaves as it is stays for all calls. -/
theorem afterCalls_of_fixed (h : m.next.2 = m) (i : Nat) : m.afterCalls i = m :=
  Function.iterate_fixed h i

/-! ### Counting the calls -/

/-- The tokens that a number of calls come to, up to the end or the first fault; nothing
when the end is further away. -/
def collectWithin (l : Lexer) : Nat → Option (Except Fault (List Token))
  | 0 => none
  | calls + 1 =>
    match l.next with
    | (.error f, _) => some (.error f)
    | (.ok t, m) =>
      if t.kind = .finish then some (.ok [t])
      else (collectWithin m calls).map fun others => others.map (t :: ·)

/-- As many calls as there are tokens, and one more, are enough. The last call comes to the end or
to the fault, and it is the only one that takes no token. -/
theorem Takes.collectWithin (h : l.Takes ts m) {calls : Nat} (hcalls : ts.length < calls)
    (hend : (∃ eof n, m.next = (.ok eof, n) ∧ eof.kind = .finish) ∨ ∃ f n, m.next = (.error f, n)) :
    l.collectWithin calls = some (l.stream >>= TokenStream.collect) := by
  induction h generalizing calls with
  | nil l =>
      obtain ⟨calls, rfl⟩ := Nat.exists_eq_succ_of_ne_zero (Nat.ne_zero_of_lt hcalls)
      rcases hend with ⟨eof, n, hnext, hkind⟩ | ⟨f, n, hnext⟩
      · have hcollect := (Takes.nil l).collect_of_finish hnext hkind
        simp only [Lexer.collectWithin, hnext, if_pos hkind, hcollect, List.nil_append]
      · have hcollect := (Takes.nil l).collect_of_error hnext
        simp only [Lexer.collectWithin, hnext, hcollect]
  | cons hnext hkind _ ih =>
      obtain ⟨calls, rfl⟩ := Nat.exists_eq_succ_of_ne_zero (Nat.ne_zero_of_lt hcalls)
      rw [collect_of_next hnext hkind]
      simp only [Lexer.collectWithin, hnext, if_neg hkind, ih (Nat.lt_of_succ_lt_succ hcalls) hend,
        Option.map_some]

/-! ### Offsets -/

/-- The answer of a call is about the place behind the gap. -/
theorem next_eq_ok (h : l.next = (.ok t, m)) :
    l.behindGap = t.text.toList ++ m.rest ∧
      t.position = l.position.after (spanTrivia false l.rest).1 := by
  simp only [next] at h
  split at h
  · rename_i hlexeme
    cases h
    rw [String.toList_ofList]
    exact ⟨(lexeme_append hlexeme).symm, rfl⟩
  · cases h

/-- A fault is laid to the character behind the gap in front, at the place of that character. -/
theorem behindGap_of_error (h : l.next = (.error f, m)) : ∃ c, l.behindGap = c :: m.rest.tail ∧
    f = ⟨.unexpectedCharacter c, l.position.after (spanTrivia false l.rest).1⟩ := by
  obtain ⟨gap, c, rest, hrest, hgap, hsolid, -, rfl, rfl⟩ := next_eq_error h
  have hspan : spanTrivia false l.rest = (gap, c :: rest) :=
    spanTrivia_eq_iff.2 ⟨hrest, hgap.mono False.elim, hsolid⟩
  refine ⟨c, congrArg Prod.snd hspan, ?_⟩
  rw [hspan]

/-- What a lexer comes to stands behind a front part of the text. -/
theorem Takes.exists_before {source : String} (h : (ofSource source).Takes ts l) : ∃ before,
    source.toList = before ++ l.behindGap ∧
      source.utf8ByteSize - bytes l.behindGap = bytes before ∧
      l.position.after (spanTrivia false l.rest).1 = .behind before := by
  obtain ⟨cells, -, -, hrest, hplace⟩ := h.cuts_source
  have hsource : source.toList = layout cells ++ (spanTrivia false l.rest).1 ++ l.behindGap := by
    rw [hrest, List.append_assoc]
    exact congrArg (layout cells ++ ·) (spanTrivia_append false l.rest).symm
  refine ⟨_, hsource, ?_, hplace _⟩
  rw [← bytes_toList, hsource, bytes_append _ l.behindGap, Nat.add_sub_cancel_right]

end Lexer

/-- A token stands in a text behind a number of bytes. -/
def Token.StandsAt (t : Token) (source : String) (offset : Nat) : Prop :=
  ∃ before after, source.toList = before ++ (t.text.toList ++ after) ∧ bytes before = offset ∧
    t.position = .behind before

/-- A character stands in a text behind a number of bytes and is refused there. -/
def Fault.StandsAt (f : Fault) (source : String) (offset : Nat) : Prop :=
  ∃ before c after, source.toList = before ++ c :: after ∧ bytes before = offset ∧
    f = ⟨.unexpectedCharacter c, .behind before⟩

namespace Lexer

variable {source : String} {l m n : Lexer} {t : Token} {ts : List Token} {f : Fault} {i : Nat}
  {answer : Except Fault Token}

/-- A token stands in the text at the offset that is told by what is left behind its gap, so later
tokens stand further behind. -/
theorem Takes.standsAt (h : (ofSource source).Takes ts l) (hnext : l.next = (.ok t, m)) :
    t.StandsAt source (source.utf8ByteSize - bytes l.behindGap) := by
  obtain ⟨before, hsource, hbytes, hplace⟩ := h.exists_before
  obtain ⟨hbehind, hposition⟩ := next_eq_ok hnext
  exact ⟨before, m.rest, hbehind ▸ hsource, hbytes.symm, hposition.trans hplace⟩

theorem Takes.fault_standsAt (h : (ofSource source).Takes ts l) (hnext : l.next = (.error f, m)) :
    f.StandsAt source (source.utf8ByteSize - bytes l.behindGap) := by
  obtain ⟨before, hsource, hbytes, hplace⟩ := h.exists_before
  obtain ⟨c, hbehind, hf⟩ := behindGap_of_error hnext
  exact ⟨before, c, m.rest.tail, hbehind ▸ hsource, hbytes.symm, hplace ▸ hf⟩

/-- Every token stands further behind than the one before. Between the two stands a token, which
has a byte at least. -/
theorem Takes.offset_lt (h : (ofSource source).Takes ts m) (hi : i < ts.length) :
    source.utf8ByteSize - bytes ((ofSource source).afterCalls i).behindGap <
      source.utf8ByteSize - bytes ((ofSource source).afterCalls (i + 1)).behindGap := by
  obtain ⟨hfront, hnext, hkind⟩ := h.split hi
  obtain ⟨before, hsource, -, -⟩ := hfront.exists_before
  have hle := congrArg bytes hsource
  have hlt := bytes_behindGap_lt hnext hkind
  rw [bytes_toList, bytes_append] at hle
  omega

/-- There are no more tokens than bytes. Each of them takes a byte at least, so the calls that
come to tokens are bounded. -/
theorem Takes.length_le (h : (ofSource source).Takes ts m) : ts.length ≤ source.utf8ByteSize := by
  have hcount : ∀ i ≤ ts.length,
      i ≤ source.utf8ByteSize - bytes ((ofSource source).afterCalls i).behindGap := by
    intro i hi
    induction i with
    | zero => exact Nat.zero_le _
    | succ i ih => exact Nat.lt_of_le_of_lt (ih (Nat.le_of_succ_le hi)) (h.offset_lt hi)
  exact Nat.le_trans (hcount ts.length (Nat.le_refl _)) (Nat.sub_le _ _)

/-- A call that is repeated is the answer of all calls from then on. -/
theorem afterCalls_stays {k : Nat} (hcall : (l.afterCalls k).next = (answer, n))
    (hagain : n.next = (answer, n)) (i : Nat) :
    l.afterCalls (k + 1 + i) = n ∧ (l.afterCalls (k + 1 + i)).next.1 = answer := by
  have hfixed : n.next.2 = n := congrArg Prod.snd hagain
  have hfirst : l.afterCalls (k + 1) = n :=
    (Function.iterate_succ_apply' _ _ _).trans (congrArg Prod.snd hcall)
  have hlater : l.afterCalls (k + 1 + i) = n := by
    rw [Nat.add_comm]
    refine (Function.iterate_add_apply _ _ _ _).trans ?_
    change (l.afterCalls (k + 1)).afterCalls i = n
    rw [hfirst, afterCalls_of_fixed hfixed]
  exact ⟨hlater, by rw [hlater, hagain]⟩

end Lexer

/-- **Progress, and then rest.**  The calls of a lexer come to tokens further and further
behind in the text.  After at most as many of them as the text has bytes comes the end or
a fault, and all later calls give the same answer and leave the lexer as it is.  A text is
cut into tokens with one call more than it has bytes, and reading a program off a cursor
comes to an answer. -/
theorem lexer_progresses_then_stays (source : String) :
    ∃ k ≤ source.utf8ByteSize, ∃ offset : Nat → Nat,
      (∀ i < k, offset i < offset (i + 1) ∧ ∃ t,
        ((Lexer.ofSource source).afterCalls i).next.1 = .ok t ∧ t.kind ≠ .finish ∧
          t.StandsAt source (offset i)) ∧
      ((∃ t, ((Lexer.ofSource source).afterCalls k).next.1 = .ok t ∧ t.kind = .finish ∧
          offset k = source.utf8ByteSize ∧ t.StandsAt source (offset k)) ∨
        ∃ f, ((Lexer.ofSource source).afterCalls k).next.1 = .error f ∧
          f.StandsAt source (offset k)) ∧
      (∀ i, (Lexer.ofSource source).afterCalls (k + 1 + i) =
          (Lexer.ofSource source).afterCalls (k + 1) ∧
        (ByteLexer.ofSource source).afterCalls (k + 1 + i) =
          (ByteLexer.ofSource source).afterCalls (k + 1) ∧
        ((Lexer.ofSource source).afterCalls (k + 1 + i)).next.1 =
          ((Lexer.ofSource source).afterCalls k).next.1) ∧
      (∃ answer,
        (Lexer.ofSource source).collectWithin (source.utf8ByteSize + 1) = some answer ∧
          tokenize source = answer.mapError (Fault.toError source)) ∧
      ∀ cursor, Cursor.ofSource source = .ok cursor → ∃ answer,
        AnswersOver lexing program cursor answer ∧
          parseProgram source = answer.mapError (Fault.toError source) := by
  obtain ⟨ts, m, htakes, hend⟩ := (Lexer.ofSource source).exists_takes
  have hcollect := htakes.collectWithin (Nat.lt_succ_of_le htakes.length_le) hend
  have hlast := htakes.afterCalls
  refine ⟨ts.length, htakes.length_le,
    fun i => source.utf8ByteSize - bytes ((Lexer.ofSource source).afterCalls i).behindGap,
    fun i hi => ?_, ?_, ?_, ⟨_, hcollect, rfl⟩, fun cursor => exists_answersOver_of_cursor⟩
  · obtain ⟨hfront, hnext, hkind⟩ := htakes.split hi
    exact ⟨htakes.offset_lt hi, _, congrArg Prod.fst hnext, hkind, hfront.standsAt hnext⟩
  · simp only [hlast]
    rcases hend with ⟨eof, n, hnext, hkind⟩ | ⟨f, n, hnext⟩
    · refine .inl ⟨eof, congrArg Prod.fst hnext, hkind, ?_, htakes.standsAt hnext⟩
      obtain ⟨hbehind, -⟩ := Lexer.next_eq_ok hnext
      obtain ⟨ht, rfl⟩ := Lexer.next_finish hnext hkind
      rw [hbehind, ht]
      rfl
    · exact .inr ⟨f, congrArg Prod.fst hnext, htakes.fault_standsAt hnext⟩
  · obtain ⟨answer, n, hnext, hagain⟩ :
        ∃ answer n, m.next = (answer, n) ∧ n.next = (answer, n) := by
      rcases hend with ⟨eof, n, hnext, hkind⟩ | ⟨f, n, hnext⟩
      · exact ⟨_, n, hnext, Lexer.next_of_finish hnext hkind⟩
      · exact ⟨_, n, hnext, Lexer.next_of_error hnext⟩
    rw [← hlast] at hnext
    intro i
    obtain ⟨hstays, hsame⟩ := Lexer.afterCalls_stays hnext hagain i
    obtain ⟨hfirst, -⟩ := Lexer.afterCalls_stays hnext hagain 0
    refine ⟨hstays.trans hfirst.symm, ?_, by rw [hsame, hnext]⟩
    have hbytes := (ByteLexer.follows_ofSource source).afterCalls
    obtain ⟨hsource, hfollows, -⟩ := hbytes (ts.length + 1 + i)
    obtain ⟨hsource', hfollows', -⟩ := hbytes (ts.length + 1)
    rw [hstays] at hfollows
    rw [hfirst] at hfollows'
    exact hfollows.unique hfollows' (hsource.trans hsource'.symm)

/-- A text of five bytes with two tokens in front of a letter that is refused for good. -/
theorem lexer_stays_at_letter : "a/ é".utf8ByteSize = 5 ∧ (∃ k ≤ 5, ∀ i,
      ((Lexer.ofSource "a/ é").afterCalls (k + 1 + i)).next.1 =
        ((Lexer.ofSource "a/ é").afterCalls k).next.1) ∧
    (∃ answer, (Lexer.ofSource "a/ é").collectWithin 6 = some answer ∧
      tokenize "a/ é" = answer.mapError (Fault.toError "a/ é")) ∧
    ∃ cursor, Cursor.ofSource "a/ é" = .ok cursor ∧ ∃ answer,
      AnswersOver lexing program cursor answer ∧
        parseProgram "a/ é" = answer.mapError (Fault.toError "a/ é") := by
  obtain ⟨k, hk, offset, -, -, hstays, hcollect, hreads⟩ := lexer_progresses_then_stays "a/ é"
  exact ⟨rfl, ⟨k, hk, fun i => (hstays i).2.2⟩, hcollect, _, rfl, hreads _ rfl⟩

end LSystem.Syntax
