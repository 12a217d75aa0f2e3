import LSystem.Proofs.Syntax.Spelling

/-!
# Gaps and token patterns

What may stand in a text is told here without a lexer.  A `Gap` is made of blanks and
of comments that run to the end of their line, and `Spells` says which texts a kind of
token has.  A text then begins with at most one gap that is followed by something
`Solid`, and with at most one longest token.

The lexer finds both: `spanTrivia_eq_iff` and `lexeme?_eq_some_iff` hold in both
directions, so that they tell what a text was cut into as well as how another text is
going to be cut.
-/

namespace LSystem.Syntax

variable {text rest gap front : List Char} {c : Char} {kind : TokenKind}

/-! ### Gaps -/

/-- The marks that begin a comment. -/
def commentMarks : List (List Char) := [['#'], ['/', '/']]

/-- Blanks, and comments that run to the end of their line.  The end of the line belongs
to the gap; only a gap that may be the `last` can end without one. -/
inductive Gap (last : Prop) : List Char → Prop
  | nil : Gap last []
  | blank {c : Char} {gap : List Char} (hblank : isBlank c) (hgap : Gap last gap) :
      Gap last (c :: gap)
  | comment {mark body gap : List Char} (hmark : mark ∈ commentMarks) (hbody : '\n' ∉ body)
      (hend : gap.head? = some '\n' ∨ last ∧ gap = []) (hgap : Gap last gap) :
      Gap last (mark ++ body ++ gap)

/-- A text that begins with neither a blank nor a comment. -/
structure Solid (text : List Char) : Prop where
  blank : ∀ c ∈ text.head?, isBlank c = false
  comment : ∀ mark ∈ commentMarks, ¬mark <+: text

/-- A gap that may not be the last of its text is one that may; only a comment at the end of a
text needs the leave. -/
theorem Gap.mono {p q : Prop} (h : Gap p gap) (himp : p → q) : Gap q gap := by
  induction h with
  | nil => exact .nil
  | blank hblank _ ih => exact .blank hblank ih
  | comment hmark hbody hend _ ih =>
      exact .comment hmark hbody (hend.imp_right fun h => ⟨himp h.1, h.2⟩) ih

theorem solid_nil : Solid [] := by
  refine ⟨nofun, fun mark hmark hfront => ?_⟩
  rw [List.prefix_nil.1 hfront] at hmark
  exact absurd hmark (by decide)

/-- The test of the lexer, which looks at two characters, tells whether one of the marks of a
comment stands in front. -/
theorem opensComment_iff :
    opensComment c rest = true ↔ ∃ mark ∈ commentMarks, mark <+: c :: rest := by
  cases rest with
  | nil => simp [opensComment, commentMarks, @eq_comm Char c]
  | cons d rest => simp [opensComment, commentMarks, @eq_comm Char c, @eq_comm Char d]

/-- A text with a first character is solid exactly if the two tests of the lexer say so. -/
theorem solid_cons_iff :
    Solid (c :: rest) ↔ isBlank c = false ∧ opensComment c rest = false := by
  rw [← Bool.not_eq_true (opensComment c rest), opensComment_iff]
  constructor
  · intro h
    refine ⟨h.blank c rfl, fun hopens => ?_⟩
    obtain ⟨mark, hmark, hfront⟩ := hopens
    exact h.comment mark hmark hfront
  · intro h
    refine ⟨fun d hd => ?_, fun mark hmark hfront => h.2 ⟨mark, hmark, hfront⟩⟩
    obtain rfl : c = d := Option.some.inj hd
    exact h.1

/-- Inside a comment the rest of the line is skipped first. The line end is a blank, so the gap
goes on behind it with the next line. -/
theorem spanTrivia_true (text : List Char) :
    spanTrivia true text =
      (text.takeWhile (· != '\n') ++ (spanTrivia false (text.dropWhile (· != '\n'))).1,
        (spanTrivia false (text.dropWhile (· != '\n'))).2) := by
  induction text with
  | nil => rfl
  | cons c rest ih =>
      by_cases hc : c = '\n'
      · subst hc
        rfl
      · have hne : (c != '\n') = true := bne_iff_ne.2 hc
        simp only [spanTrivia, List.takeWhile_cons, List.dropWhile_cons, hne, ih, if_true,
          List.cons_append]

/-- Behind the rest of a line is the end of the line, which is skipped, or the end of the
text. -/
theorem head?_spanTrivia_dropWhile (text : List Char) :
    (spanTrivia false (text.dropWhile (· != '\n'))).1.head? = some '\n' ∨
      (spanTrivia false (text.dropWhile (· != '\n'))).2 = [] ∧
        (spanTrivia false (text.dropWhile (· != '\n'))).1 = [] := by
  cases hrest : text.dropWhile (· != '\n') with
  | nil => exact .inr ⟨rfl, rfl⟩
  | cons c rest =>
      have hne : text.dropWhile (· != '\n') ≠ [] := hrest ▸ List.cons_ne_nil c rest
      obtain rfl : c = '\n' := by simpa [hrest] using List.head_dropWhile_not (· != '\n') hne
      exact .inl rfl

/-- A comment in front is skipped up to the end of its line. What stands before the line end has
none in it and belongs to the comment as it is. -/
theorem gap_comment (hblank : isBlank c = false) (hopens : opensComment c rest = true) {last : Prop}
    (hend : gap.head? = some '\n' ∨ last ∧ gap = []) (hgap : Gap last gap) :
    Gap last (c :: (rest.takeWhile (· != '\n') ++ gap)) := by
  obtain ⟨mark, hmark, behind, hfront⟩ := opensComment_iff.1 hopens
  have hc : (c != '\n') = true := by
    rw [bne_iff_ne]
    rintro rfl
    exact absurd hblank (by decide)
  have hplain : ∀ d ∈ mark, (d != '\n') = true := by
    simp only [commentMarks, List.mem_cons, List.not_mem_nil, or_false] at hmark
    rcases hmark with rfl | rfl <;> simp
  have hcons : (c :: rest).takeWhile (· != '\n') = c :: rest.takeWhile (· != '\n') :=
    List.takeWhile_cons_of_pos hc
  have hline : c :: rest.takeWhile (· != '\n') = mark ++ behind.takeWhile (· != '\n') := by
    rw [← hcons, ← hfront, List.takeWhile_append_of_pos hplain]
  have hbody : '\n' ∉ behind.takeWhile (· != '\n') :=
    fun hmem => absurd (List.mem_takeWhile_imp hmem) (by decide)
  rw [← List.cons_append, hline]
  exact .comment hmark hbody hend hgap

/-- What is skipped is a gap, and what follows it is solid. The induction is on the length of the
text, since a comment takes many characters at once. -/
theorem gap_spanTrivia (text : List Char) :
    Gap ((spanTrivia false text).2 = []) (spanTrivia false text).1 ∧
      Solid (spanTrivia false text).2 := by
  induction hn : text.length using Nat.strongRecOn generalizing text with
  | ind n ih =>
      cases text with
      | nil => exact ⟨.nil, solid_nil⟩
      | cons c rest =>
          rw [List.length_cons] at hn
          by_cases hblank : isBlank c = true
          · obtain ⟨hgap, hsolid⟩ := ih rest.length (by omega) rest rfl
            have hspan : spanTrivia false (c :: rest) =
                (c :: (spanTrivia false rest).1, (spanTrivia false rest).2) := by
              simp [spanTrivia, hblank]
            rw [hspan]
            exact ⟨.blank hblank hgap, hsolid⟩
          rw [Bool.not_eq_true] at hblank
          by_cases hopens : opensComment c rest = true
          · have hle : (rest.dropWhile (· != '\n')).length ≤ rest.length :=
              (List.dropWhile_suffix _).length_le
            obtain ⟨hgap, hsolid⟩ := ih _ (by omega) (rest.dropWhile (· != '\n')) rfl
            have hspan : spanTrivia false (c :: rest) =
                (c :: (spanTrivia true rest).1, (spanTrivia true rest).2) := by
              simp [spanTrivia, hblank, hopens]
            rw [hspan, spanTrivia_true]
            exact ⟨gap_comment hblank hopens (head?_spanTrivia_dropWhile rest) hgap, hsolid⟩
          · rw [Bool.not_eq_true] at hopens
            rw [spanTrivia_eq_nil hblank hopens]
            exact ⟨.nil, solid_cons_iff.2 ⟨hblank, hopens⟩⟩

/-- A comment is skipped as far as its line goes. Behind it either the text is at its end or a
line end follows. -/
theorem spanTrivia_comment {body : List Char} (hbody : '\n' ∉ body)
    (hend : ∀ c ∈ text.head?, c = '\n') :
    spanTrivia true (body ++ text) =
      (body ++ (spanTrivia false text).1, (spanTrivia false text).2) := by
  have hline : ∀ c ∈ body, (c != '\n') = true := fun c hc =>
    bne_iff_ne.2 fun heq => hbody (heq ▸ hc)
  have hnone : text.takeWhile (· != '\n') = [] ∧ text.dropWhile (· != '\n') = text := by
    cases text with
    | nil => exact ⟨rfl, rfl⟩
    | cons c rest =>
        obtain rfl : c = '\n' := hend c rfl
        exact ⟨rfl, rfl⟩
  rw [spanTrivia_true, List.takeWhile_append_of_pos hline, List.dropWhile_append_of_pos hline,
    hnone.1, hnone.2, List.append_nil]

/-- A gap in front of something solid is skipped, and nothing else is. The induction is on the way
in which the gap is made up. -/
theorem spanTrivia_append_gap (hsolid : Solid rest) (h : Gap (rest = []) gap) :
    spanTrivia false (gap ++ rest) = (gap, rest) := by
  induction h with
  | nil =>
      cases rest with
      | nil => rfl
      | cons c rest =>
          obtain ⟨hblank, hopens⟩ := solid_cons_iff.1 hsolid
          exact spanTrivia_eq_nil hblank hopens
  | blank hblank hgap ih =>
      rw [List.cons_append]
      simp [spanTrivia, hblank, ih]
  | @comment mark body gap hmark hbody hend hgap ih =>
      have hline : ∀ c ∈ (gap ++ rest).head?, c = '\n' := by
        rcases hend with hend | ⟨rfl, rfl⟩
        · intro c hc
          rw [List.head?_append, hend] at hc
          exact (Option.some.inj hc).symm
        · intro c hc
          cases hc
      have hspan := spanTrivia_comment hbody hline
      rw [ih] at hspan
      simp only [commentMarks, List.mem_cons, List.not_mem_nil, or_false] at hmark
      rcases hmark with rfl | rfl
      · simp [spanTrivia, isBlank, opensComment, hspan]
      · simp [spanTrivia, isBlank, opensComment, hspan]

/-- What the lexer skips is the gap in front, and it stops at something solid. The other direction
tells how any text is cut: there is one such gap only. -/
theorem spanTrivia_eq_iff : spanTrivia false text = (gap, rest) ↔
    text = gap ++ rest ∧ Gap (rest = []) gap ∧ Solid rest := by
  constructor
  · intro h
    have happend := spanTrivia_append false text
    have hgap := gap_spanTrivia text
    rw [h] at happend hgap
    exact ⟨happend.symm, hgap⟩
  · intro h
    obtain ⟨rfl, hgap, hsolid⟩ := h
    exact spanTrivia_append_gap hsolid hgap

/-! ### Token patterns -/

/-- Digits, or a point with digits behind it and perhaps digits in front of it. -/
inductive NumeralText : List Char → Prop
  | whole {digits : List Char} (hne : digits ≠ []) (hdigits : ∀ c ∈ digits, c.isDigit) :
      NumeralText digits
  | fraction {digits places : List Char} (hdigits : ∀ c ∈ digits, c.isDigit) (hne : places ≠ [])
      (hplaces : ∀ c ∈ places, c.isDigit) : NumeralText (digits ++ '.' :: places)

/-- The texts of a kind of token.  A word is reserved when the whole of it is. -/
inductive Spells : TokenKind → List Char → Prop
  | numeral {digits : List Char} (h : NumeralText digits) : Spells .number digits
  | keyword (word : Keyword) : Spells (.keyword word) word.text.toList
  | name {word : String} (h : IsName word) : Spells .identifier word.toList
  | mark {c : Char} {kind : TokenKind} (h : TokenKind.ofMark? c = some kind) : Spells kind [c]

/-- A token in front of a text, of a kind that its text has, and no longer text in front
of the text is that of any token. -/
structure Longest (kind : TokenKind) (front text : List Char) : Prop where
  spells : Spells kind front
  begins : front <+: text
  longest : ∀ {kind' : TokenKind} {other : List Char}, Spells kind' other → other <+: text →
    other.length ≤ front.length

theorem isWord_keyword (word : Keyword) : isWord word.text.toList = true := by
  cases word <;> decide

theorem wordKind_keyword (word : Keyword) : wordKind word.text = .keyword word := by
  cases word <;> decide

theorem wordKind_name {word : String} (h : IsName word) : wordKind word = .identifier := by
  rw [wordKind, (ofText?_eq_none_iff word).2 h.free]

/-- The words are the texts of keywords and names. Whether a word is reserved decides which of the
two it is. -/
theorem spells_wordKind (h : isWord front = true) :
    Spells (wordKind (String.ofList front)) front := by
  cases hkeyword : Keyword.ofText? (String.ofList front) with
  | none =>
      have hname : IsName (String.ofList front) :=
        ⟨by rw [String.toList_ofList]; exact (isWord_iff front).1 h,
          (ofText?_eq_none_iff _).1 hkeyword⟩
      have hspells := Spells.name hname
      rwa [String.toList_ofList, ← wordKind_name hname] at hspells
  | some word =>
      have htext : word.text = String.ofList front := by
        simpa [Keyword.ofText?] using List.find?_some hkeyword
      have hspells := Spells.keyword word
      rwa [← wordKind_keyword, htext, String.toList_ofList] at hspells

/-- Every token is a numeral, a word or a mark. These are the three branches of the lexer, told by
the text of the token. -/
theorem Spells.cases_text (h : Spells kind front) :
    (kind = .number ∧ NumeralText front) ∨
      (isWord front = true ∧ kind = wordKind (String.ofList front)) ∨
        ∃ c, front = [c] ∧ TokenKind.ofMark? c = some kind := by
  cases h with
  | numeral h => exact .inl ⟨rfl, h⟩
  | keyword word =>
      exact .inr (.inl ⟨isWord_keyword word, by rw [String.ofList_toList, wordKind_keyword]⟩)
  | @name word h =>
      refine .inr (.inl ⟨(isWord_iff _).2 h.word, ?_⟩)
      rw [String.ofList_toList, wordKind_name h]
  | mark h => exact .inr (.inr ⟨_, rfl, h⟩)

/-- A point with digits behind it begins a fraction, whatever follows the digits. -/
theorem startsFraction_append {places : List Char} (hne : places ≠ [])
    (hplaces : ∀ d ∈ places, d.isDigit) : startsFraction ('.' :: (places ++ rest)) = true := by
  obtain ⟨d, places, rfl⟩ := List.exists_cons_of_ne_nil hne
  exact hplaces d List.mem_cons_self

/-- A numeral begins with a digit, or with a point and a digit. This is what the lexer asks before
it reads one. -/
theorem NumeralText.opens (h : NumeralText front) (hfront : front <+: c :: rest) :
    (c.isDigit || startsFraction (c :: rest)) = true := by
  obtain ⟨behind, hfront⟩ := hfront
  cases h with
  | whole hne hdigits =>
      obtain ⟨d, digits, rfl⟩ := List.exists_cons_of_ne_nil hne
      obtain rfl : d = c := (List.cons.inj hfront).1
      rw [hdigits d List.mem_cons_self, Bool.true_or]
  | @fraction digits places hdigits hne hplaces =>
      rw [List.append_assoc, List.cons_append] at hfront
      cases digits with
      | nil =>
          rw [← hfront, List.nil_append, startsFraction_append hne hplaces, Bool.or_true]
      | cons d digits =>
          obtain rfl : d = c := (List.cons.inj hfront).1
          rw [hdigits d List.mem_cons_self, Bool.true_or]

/-- The lexer takes as many digits as any numeral in front has. A numeral with a point is the
longer one where both begin a text. -/
theorem NumeralText.length_le (h : NumeralText front) (hfront : front <+: text) :
    front.length ≤ (spanNumeral text).1.length := by
  obtain ⟨behind, rfl⟩ := hfront
  cases h with
  | whole hne hdigits =>
      have htake : ((front ++ behind).takeWhile Char.isDigit).length ≤
          (spanNumeral (front ++ behind)).1.length := by
        simp only [spanNumeral]
        split
        · simp only [List.length_append]
          omega
        · exact Nat.le_refl _
      rw [List.takeWhile_append_of_pos hdigits, List.length_append] at htake
      omega
  | @fraction digits places hdigits hne hplaces =>
      have htake : (digits ++ '.' :: (places ++ behind)).takeWhile Char.isDigit = digits := by
        rw [List.takeWhile_append_of_pos hdigits, List.takeWhile_cons_of_neg (by decide),
          List.append_nil]
      have hdrop : (digits ++ '.' :: (places ++ behind)).dropWhile Char.isDigit =
          '.' :: (places ++ behind) := by
        rw [List.dropWhile_append_of_pos hdigits, List.dropWhile_cons_of_neg (by decide)]
      rw [List.append_assoc, List.cons_append]
      simp only [spanNumeral, htake, hdrop, startsFraction_append hne hplaces, if_true,
        List.drop_succ_cons, List.drop_zero, List.take_succ_cons, List.take_zero,
        List.takeWhile_append_of_pos hplaces, List.length_append, List.length_cons, List.length_nil]
      omega

/-- What the lexer takes for a numeral is one. With a digit in front it has a whole part, and with
a point in front it has places behind the point. -/
theorem numeralText_spanNumeral (h : (c.isDigit || startsFraction (c :: rest)) = true) :
    NumeralText (spanNumeral (c :: rest)).1 := by
  have hdigits : ∀ d ∈ (c :: rest).takeWhile Char.isDigit, d.isDigit :=
    fun d hd => List.mem_takeWhile_imp hd
  have hne := spanNumeral_ne_nil h
  simp only [spanNumeral] at hne ⊢
  split
  · rename_i hstarts
    generalize (c :: rest).dropWhile Char.isDigit = behind at hstarts ⊢
    unfold startsFraction at hstarts
    split at hstarts
    · rename_i d behind
      rw [List.append_assoc]
      refine .fraction hdigits ?_ fun e he => List.mem_takeWhile_imp he
      rw [List.drop_succ_cons, List.drop_zero, List.takeWhile_cons_of_pos hstarts]
      exact List.cons_ne_nil _ _
    · cases hstarts
  · rename_i hstarts
    rw [if_neg hstarts] at hne
    exact .whole hne hdigits

/-! ### The first token of a text -/

/-- A text that begins with a word begins with a character that can start one. -/
theorem isWordStart_of_begins (hword : isWord front = true) (hfront : front <+: c :: rest) :
    isWordStart c = true := by
  obtain ⟨d, word, rfl, hstart, -⟩ := (isWord_iff front).1 hword
  obtain ⟨behind, hfront⟩ := hfront
  obtain rfl : d = c := (List.cons.inj hfront).1
  exact hstart

theorem isWordChar_of_isWord (hword : isWord front = true) : ∀ d ∈ front, isWordChar d = true := by
  obtain ⟨d, word, rfl, hstart, hchars⟩ := (isWord_iff front).1 hword
  exact List.forall_mem_cons.2 ⟨isWordChar_of_isWordStart hstart, hchars⟩

/-- The characters of a token are no blanks, and each has one byte. So a blank, and a character of
several bytes, always stand between tokens. -/
theorem Spells.plain (h : Spells kind front) : ∀ c ∈ front, isBlank c = false ∧ c.toNat < 128 := by
  rcases h.cases_text with ⟨-, hnumeral⟩ | ⟨hword, -⟩ | ⟨d, rfl, hmark⟩
  · intro c hc
    have hchar : c.isDigit ∨ c = '.' := by
      cases hnumeral with
      | whole _ hdigits => exact .inl (hdigits c hc)
      | fraction hdigits _ hplaces =>
          rcases List.mem_append.1 hc with hc | hc
          · exact .inl (hdigits c hc)
          · rcases List.mem_cons.1 hc with rfl | hc
            · exact .inr rfl
            · exact .inl (hplaces c hc)
    rcases hchar with hdigit | rfl
    · exact plain_of_isWordChar (isWordChar_of_isDigit hdigit)
    · decide
  · exact fun c hc => plain_of_isWordChar (isWordChar_of_isWord hword c hc)
  · intro c hc
    obtain rfl : c = d := List.mem_singleton.1 hc
    unfold TokenKind.ofMark? at hmark
    split at hmark
    all_goals first
      | decide
      | cases hmark
/-- What begins a word begins no numeral. -/
theorem not_opens_of_isWordStart (hstart : isWordStart c = true) :
    (c.isDigit || startsFraction (c :: rest)) = false := by
  rw [not_isDigit_of_isWordStart hstart,
    not_startsFraction_of_isWordChar (isWordChar_of_isWordStart hstart), Bool.or_self]

/-- A mark begins neither a numeral nor a word. So the three branches of the lexer exclude each
other. -/
theorem not_opens_of_ofMark? (hmark : TokenKind.ofMark? c = some kind) :
    (c.isDigit || startsFraction (c :: rest)) = false ∧ isWordStart c = false := by
  obtain ⟨-, -, hdigit, hpoint, hstart⟩ := plain_of_ofMark? hmark
  refine ⟨?_, hstart⟩
  rw [hdigit, Bool.false_or, Bool.eq_false_iff]
  intro hstarts
  unfold startsFraction at hstarts
  split at hstarts
  · rename_i heq
    exact hpoint (List.cons.inj heq).1
  · cases hstarts

/-- The three ways in which the lexer goes on, by the first character: a numeral, a word, or a
single mark if there is one. -/
theorem lexeme?_cons (c : Char) (rest : List Char) :
    lexeme? (c :: rest) =
      if c.isDigit || startsFraction (c :: rest) then
        some (.number, (spanNumeral (c :: rest)).1, (spanNumeral (c :: rest)).2)
      else if isWordStart c then
        some (wordKind (String.ofList ((c :: rest).takeWhile isWordChar)),
          (c :: rest).takeWhile isWordChar, (c :: rest).dropWhile isWordChar)
      else (TokenKind.ofMark? c).map fun kind => (kind, [c], rest) := rfl

/-- The longest piece of word characters in front is a word, if the first of them can start
one. -/
theorem isWord_takeWhile (hstart : isWordStart c = true) :
    isWord ((c :: rest).takeWhile isWordChar) = true := by
  rw [List.takeWhile_cons_of_pos (isWordChar_of_isWordStart hstart), isWord_iff]
  exact ⟨c, _, rfl, hstart, fun d hd => List.mem_takeWhile_imp hd⟩

/-- What the lexer takes off a text is the longest token in front. In each branch no token of
another kind begins in front, and none of the same kind is longer. -/
theorem longest_of_lexeme? (h : lexeme? text = some (kind, front, rest)) (hkind : kind ≠ .finish) :
    Longest kind front text := by
  have happend := lexeme_append h
  have hlength := List.length_pos_iff.2 (lexeme_ne_nil h hkind)
  cases text with
  | nil =>
      cases h
      exact absurd rfl hkind
  | cons c behind =>
      rw [lexeme?_cons] at h
      by_cases hopens : (c.isDigit || startsFraction (c :: behind)) = true
      · rw [if_pos hopens] at h
        cases h
        refine ⟨.numeral (numeralText_spanNumeral hopens), ⟨_, happend⟩, fun hother hfront => ?_⟩
        rcases hother.cases_text with ⟨-, hnumeral⟩ | ⟨hword, -⟩ | ⟨d, rfl, -⟩
        · exact hnumeral.length_le hfront
        · rw [not_opens_of_isWordStart (isWordStart_of_begins hword hfront)] at hopens
          cases hopens
        · exact hlength
      · rw [if_neg hopens] at h
        by_cases hstart : isWordStart c = true
        · rw [if_pos hstart] at h
          cases h
          refine ⟨spells_wordKind (isWord_takeWhile hstart), ⟨_, happend⟩,
            fun hother hfront => ?_⟩
          rcases hother.cases_text with ⟨-, hnumeral⟩ | ⟨hword, -⟩ | ⟨d, rfl, -⟩
          · exact absurd (hnumeral.opens hfront) hopens
          · obtain ⟨after, hfront⟩ := hfront
            rw [← hfront, List.takeWhile_append_of_pos (isWordChar_of_isWord hword),
              List.length_append]
            exact Nat.le_add_right _ _
          · exact hlength
        · rw [if_neg hstart] at h
          obtain ⟨_, hmark, heq⟩ := Option.map_eq_some_iff.1 h
          cases heq
          refine ⟨.mark hmark, ⟨_, happend⟩, fun hother hfront => ?_⟩
          rcases hother.cases_text with ⟨-, hnumeral⟩ | ⟨hword, -⟩ | ⟨d, rfl, -⟩
          · exact absurd (hnumeral.opens hfront) hopens
          · exact absurd (isWordStart_of_begins hword hfront) hstart
          · exact Nat.le_refl _

/-- No token is empty, so every token that is read makes the text shorter. -/
theorem Spells.ne_nil (h : Spells kind front) : front ≠ [] := by
  intro hnil
  rcases h.cases_text with ⟨-, hnumeral⟩ | ⟨hword, -⟩ | ⟨d, hmark, -⟩
  · cases hnumeral with
    | whole hne _ => exact hne hnil
    | fraction _ _ _ => simp at hnil
  · rw [hnil] at hword
    cases hword
  · rw [hnil] at hmark
    cases hmark

/-- The end of the text has no text of its own. No pattern belongs to it. -/
theorem Spells.kind_ne_finish (h : Spells kind front) : kind ≠ .finish := by
  cases h with
  | mark hmark =>
      rintro rfl
      unfold TokenKind.ofMark? at hmark
      split at hmark <;> cases hmark
  | _ => exact nofun

/-- The longest token in front of a text is the one that the lexer takes off it. -/
theorem lexeme?_of_longest (h : Longest kind front (front ++ rest)) :
    lexeme? (front ++ rest) = some (kind, front, rest) := by
  -- what the lexer takes is a token, so no longer than this one, and it is no shorter
  have hsame {word after : List Char} {kind' : TokenKind} (happend : word ++ after = front ++ rest)
      (hspells : Spells kind' word) (hge : front.length ≤ word.length) :
      word = front ∧ after = rest :=
    List.append_inj happend (Nat.le_antisymm (h.longest hspells ⟨after, happend⟩) hge)
  obtain ⟨c, tail, hcons⟩ := List.exists_cons_of_ne_nil h.spells.ne_nil
  have htext : front ++ rest = c :: (tail ++ rest) := by rw [hcons, List.cons_append]
  have hbegins : front <+: c :: (tail ++ rest) := ⟨rest, htext⟩
  rw [htext] at hsame ⊢
  rw [lexeme?_cons]
  rcases h.spells.cases_text with ⟨rfl, hnumeral⟩ | ⟨hword, rfl⟩ | ⟨d, rfl, hmark⟩
  · have hopens := hnumeral.opens hbegins
    obtain ⟨hfront, hrest⟩ := hsame (spanNumeral_append _)
      (.numeral (numeralText_spanNumeral hopens)) (hnumeral.length_le hbegins)
    rw [if_pos hopens, hfront, hrest]
  · have hstart := isWordStart_of_begins hword hbegins
    have hge : front.length ≤ ((c :: (tail ++ rest)).takeWhile isWordChar).length := by
      rw [← htext, List.takeWhile_append_of_pos (isWordChar_of_isWord hword), List.length_append]
      exact Nat.le_add_right _ _
    obtain ⟨hfront, hrest⟩ := hsame List.takeWhile_append_dropWhile
      (spells_wordKind (isWord_takeWhile hstart)) hge
    rw [not_opens_of_isWordStart hstart, if_neg Bool.false_ne_true, if_pos hstart, hfront, hrest]
  · cases hcons
    have hnone : (c.isDigit || startsFraction (c :: ([] ++ rest))) = false ∧
        isWordStart c = false := not_opens_of_ofMark? hmark
    obtain ⟨hopens, hstart⟩ := hnone
    rw [hopens, hstart, hmark]
    rfl

/-- The lexer reads a token in front of a text exactly if it is the longest one there, of the kind
that its text has. -/
theorem lexeme?_eq_some_iff (hkind : kind ≠ .finish) :
    lexeme? text = some (kind, front, rest) ↔ text = front ++ rest ∧ Longest kind front text := by
  constructor
  · intro h
    exact ⟨(lexeme_append h).symm, longest_of_lexeme? h hkind⟩
  · intro h
    obtain ⟨rfl, hlongest⟩ := h
    exact lexeme?_of_longest hlongest

/-- A text of which the lexer takes nothing begins with no token. The first character of a token
tells its branch, and each branch takes something. -/
theorem not_begins_of_lexeme? (h : lexeme? text = none) (hspells : Spells kind front) :
    ¬front <+: text := by
  intro hfront
  cases text with
  | nil => exact hspells.ne_nil (List.prefix_nil.1 hfront)
  | cons c rest =>
      rw [lexeme?_cons] at h
      by_cases hopens : (c.isDigit || startsFraction (c :: rest)) = true
      · rw [if_pos hopens] at h
        cases h
      · rw [if_neg hopens] at h
        by_cases hstart : isWordStart c = true
        · rw [if_pos hstart] at h
          cases h
        · rw [if_neg hstart, Option.map_eq_none_iff] at h
          rcases hspells.cases_text with ⟨-, hnumeral⟩ | ⟨hword, -⟩ | ⟨d, rfl, hmark⟩
          · exact hopens (hnumeral.opens hfront)
          · exact hstart (isWordStart_of_begins hword hfront)
          · obtain rfl : d = c := (List.cons_prefix_cons.1 hfront).1
            rw [h] at hmark
            cases hmark

end LSystem.Syntax
