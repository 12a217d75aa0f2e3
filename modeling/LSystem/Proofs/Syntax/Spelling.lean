import LSystem.Proofs.Number.Numeral
import LSystem.Proofs.Syntax.WellFormed

/-!
# Texts spelt lexeme by lexeme

`Lexes` says which lexemes a text is cut into, wherever it begins.  A text is
built up from its end: a blank in front changes nothing, and a word, a numeral or
a mark in front adds its lexeme.  Words and numerals need a boundary behind them,
a character that goes on with neither.
-/

namespace LSystem.Syntax

/-! ### Streams step by step -/

/-- A lexer whose next token is the end has a stream that is this end. -/
theorem Lexer.stream_of_finish {l l' : Lexer} {t : Token} (hnext : l.next = (.ok t, l'))
    (hkind : t.kind = .finish) : l.stream = .ok (.finish t.position) := by
  rw [stream_eq, hnext]
  exact if_pos hkind

/-- A lexer whose next token is another has a stream that begins with it and goes on with the
stream behind it. -/
theorem Lexer.stream_of_token {l l' : Lexer} {t : Token} {s : TokenStream}
    (hnext : l.next = (.ok t, l')) (hkind : t.kind ≠ .finish) (hs : l'.stream = .ok s) :
    l.stream = .ok (.token t s) := by
  rw [stream_eq, hnext]
  simp only [if_neg hkind, hs]

/-- The stream depends on the first token and what comes after it. -/
theorem Lexer.stream_congr {l m : Lexer} (h : l.next = m.next) : l.stream = m.stream := by
  rw [stream_eq l, h, ← stream_eq m]

/-! ### Lexemes of a text -/

/-- A text is cut into lexemes, wherever it begins. -/
def Lexes (text : List Char) (ls : List Lexeme) : Prop :=
  ∀ position tokenPosition, ∃ s place,
    (Lexer.mk text position tokenPosition).stream = .ok s ∧ s.Reads ls (.finish place)

/-- A text that goes on with neither a word nor a numeral. -/
def Boundary (text : List Char) : Prop :=
  ∀ c ∈ text.head?, isWordChar c = false ∧ c ≠ '.'

section Lexing

variable {text rest front : List Char} {ls : List Lexeme} {c : Char} {kind : TokenKind}

/-- A text is bounded in front if its first character goes on with neither a word nor a
numeral. -/
theorem boundary_cons (hword : isWordChar c = false) (hpoint : c ≠ '.') :
    Boundary (c :: rest) := by
  intro d hd
  obtain rfl : c = d := by simpa using hd
  exact ⟨hword, hpoint⟩

theorem lexes_nil : Lexes [] [] := by
  intro position tokenPosition
  have hnext : (Lexer.mk [] position tokenPosition).next =
      (.ok ⟨.finish, "", position⟩, ⟨[], position, position⟩) := rfl
  exact ⟨_, position, Lexer.stream_of_finish hnext rfl, .refl _⟩

/-- A blank in front changes nothing. It is skipped as a part of the gap, which moves the places
on and nothing else. -/
theorem Lexes.blank (hc : isBlank c) (h : Lexes text ls) : Lexes (c :: text) ls := by
  intro position tokenPosition
  obtain ⟨s, place, hs, hreads⟩ := h (position.advance c) tokenPosition
  refine ⟨s, place, ?_, hreads⟩
  rw [← hs]
  apply Lexer.stream_congr
  have htrivia : spanTrivia false (c :: text) =
      (c :: (spanTrivia false text).1, (spanTrivia false text).2) := by
    simp [spanTrivia, hc]
  simp only [Lexer.next, htrivia]
  rfl

/-- A text that begins with a token, and with no gap before it, is cut into the lexeme of this
token and those of the rest. -/
theorem Lexes.token (hlexeme : lexeme? text = some (kind, front, rest)) (hkind : kind ≠ .finish)
    (htrivia : spanTrivia false text = ([], text))
    (hlegible : Lexeme.Legible ⟨kind, String.ofList front⟩) (h : Lexes rest ls) :
    Lexes text (⟨kind, String.ofList front⟩ :: ls) := by
  intro position tokenPosition
  obtain ⟨s, place, hs, hreads⟩ := h (position.after front) position
  have hnext : (Lexer.mk text position tokenPosition).next =
      (.ok ⟨kind, String.ofList front, position⟩, ⟨rest, position.after front, position⟩) := by
    simp only [Lexer.next, htrivia, hlexeme]
    rfl
  exact ⟨_, place, Lexer.stream_of_token hnext hkind hs, .token hlegible hreads⟩

/-- Nothing is skipped in front of a character that is neither a blank nor the
beginning of a comment. -/
theorem spanTrivia_eq_nil (hblank : isBlank c = false) (hcomment : opensComment c rest = false) :
    spanTrivia false (c :: rest) = ([], c :: rest) := by
  simp [spanTrivia, hblank, hcomment]

/-- The characters of a word are no blanks, and each has one byte. They are letters and digits of
the first 128 characters, and the underscore. -/
theorem plain_of_isWordChar (h : isWordChar c) : isBlank c = false ∧ c.toNat < 128 := by
  constructor
  · rw [Bool.eq_false_iff]
    intro hblank
    simp only [isBlank, Bool.or_eq_true, beq_iff_eq] at hblank
    rcases hblank with (((rfl | rfl) | rfl) | rfl) | rfl <;> exact absurd h (by decide)
  · simp only [isWordChar, Char.isAlphanum, Char.isAlpha, Char.isUpper, Char.isLower, Char.isDigit,
      Bool.or_eq_true, Bool.and_eq_true, decide_eq_true_eq, beq_iff_eq, ge_iff_le,
      UInt32.le_iff_toNat_le] at h
    rcases h with ((⟨-, h⟩ | ⟨-, h⟩) | ⟨-, h⟩) | rfl
    · exact Nat.lt_of_le_of_lt h (by decide)
    · exact Nat.lt_of_le_of_lt h (by decide)
    · exact Nat.lt_of_le_of_lt h (by decide)
    · decide

/-- In front of a character of a word there is no gap to skip. -/
theorem spanTrivia_of_isWordChar (h : isWordChar c) :
    spanTrivia false (c :: rest) = ([], c :: rest) := by
  apply spanTrivia_eq_nil (plain_of_isWordChar h).1
  rw [Bool.eq_false_iff]
  intro hcomment
  simp only [opensComment, Bool.or_eq_true, Bool.and_eq_true, beq_iff_eq] at hcomment
  rcases hcomment with rfl | ⟨rfl, -⟩ <;> exact absurd h (by decide)

theorem isWordChar_of_isDigit (h : c.isDigit) : isWordChar c := by
  simp [isWordChar, Char.isAlphanum, h]

theorem not_isDigit_of_isWordStart (h : isWordStart c) : c.isDigit = false := by
  rw [Bool.eq_false_iff]
  intro hdigit
  simp only [isWordStart, Bool.or_eq_true, beq_iff_eq] at h
  rcases h with h | rfl
  · simp only [Char.isAlpha, Char.isUpper, Char.isLower, Char.isDigit, Bool.or_eq_true,
      Bool.and_eq_true, decide_eq_true_eq] at h hdigit
    grind
  · exact absurd hdigit (by decide)

/-- A character of a word begins no fraction, which begins with a point. -/
theorem not_startsFraction_of_isWordChar (h : isWordChar c) :
    startsFraction (c :: rest) = false := by
  unfold startsFraction
  split
  · rename_i heq
    obtain rfl : c = '.' := (List.cons.inj heq).1
    exact absurd h (by decide)
  · rfl

/-- The longest front part of a text is what stands before a boundary. The boundary begins with a
character that the piece cannot go on with. -/
theorem takeWhile_append_boundary {p : Char → Bool} (hp : ∀ d, p d → isWordChar d)
    (hword : ∀ d ∈ front, p d) (hrest : Boundary rest) :
    (front ++ rest).takeWhile p = front ∧ (front ++ rest).dropWhile p = rest := by
  rw [List.takeWhile_append_of_pos hword, List.dropWhile_append_of_pos hword]
  cases rest with
  | nil => simp
  | cons d rest =>
      have hd : ¬ p d := by
        intro hpd
        have hboundary := (hrest d rfl).1
        rw [hp d hpd] at hboundary
        exact absurd hboundary (by decide)
      rw [List.takeWhile_cons_of_neg hd, List.dropWhile_cons_of_neg hd]
      simp

/-- A word in front of a boundary is one lexeme. The boundary keeps it from running on into what
follows, and its first character from being a numeral. -/
theorem Lexes.word (hc : isWordStart c) (hword : ∀ d ∈ front, isWordChar d) (hrest : Boundary rest)
    (h : Lexes rest ls) :
    Lexes (c :: front ++ rest)
      (⟨wordKind (String.ofList (c :: front)), String.ofList (c :: front)⟩ :: ls) := by
  have hchar := isWordChar_of_isWordStart hc
  have hall : ∀ d ∈ c :: front, isWordChar d := List.forall_mem_cons.2 ⟨hchar, hword⟩
  obtain ⟨htake, hdrop⟩ := takeWhile_append_boundary (fun _ h => h) hall hrest
  have hlexeme : lexeme? (c :: front ++ rest) =
      some (wordKind (String.ofList (c :: front)), c :: front, rest) := by
    rw [List.cons_append] at htake hdrop ⊢
    simp only [lexeme?, not_isDigit_of_isWordStart hc, not_startsFraction_of_isWordChar hchar, hc,
      htake, hdrop]
    rfl
  have hkind : wordKind (String.ofList (c :: front)) ≠ .finish ∧
      wordKind (String.ofList (c :: front)) ≠ .number := by
    unfold wordKind
    split <;> simp
  exact h.token hlexeme hkind.1 (spanTrivia_of_isWordChar hchar)
    (Lexeme.legible_of_kind hkind.2)

/-- A name before a boundary adds its lexeme to those of the rest. -/
theorem Lexes.name {name : String} (hname : IsName name) (hrest : Boundary rest)
    (h : Lexes rest ls) : Lexes (name.toList ++ rest) (⟨.identifier, name⟩ :: ls) := by
  obtain ⟨c, front, hlist, hstart, hfront⟩ := hname.word
  have hkind : wordKind name = .identifier := by
    rw [wordKind, (ofText?_eq_none_iff name).2 hname.free]
  have hlexes := h.word hstart hfront hrest
  rw [← hlist, String.ofList_toList, hkind] at hlexes
  exact hlexes

/-- A keyword before a boundary adds its lexeme to those of the rest. -/
theorem Lexes.keyword (k : Keyword) (hrest : Boundary rest) (h : Lexes rest ls) :
    Lexes (k.text.toList ++ rest) (⟨.keyword k, k.text⟩ :: ls) := by
  have hkind : wordKind k.text = .keyword k := by cases k <;> decide
  obtain ⟨c, front, hlist, hstart, hfront⟩ : ∃ c front, k.text.toList = c :: front ∧
      isWordStart c ∧ ∀ d ∈ front, isWordChar d := by
    cases k <;> exact ⟨_, _, rfl, by decide, List.all_eq_true.1 (by decide)⟩
  have hlexes := h.word hstart hfront hrest
  rw [← hlist, String.ofList_toList, hkind] at hlexes
  exact hlexes

/-- A numeral before a boundary is read to its end and no further. -/
theorem spanNumeral_of_isNumeral (hfront : Number.IsNumeral front) (hrest : Boundary rest) :
    spanNumeral (front ++ rest) = (front, rest) := by
  have hnot : startsFraction rest = false := by
    unfold startsFraction
    split
    · exact absurd rfl (hrest '.' rfl).2
    · rfl
  cases hfront with
  | whole hne hdigits =>
      obtain ⟨htake, hdrop⟩ :=
        takeWhile_append_boundary (fun _ => isWordChar_of_isDigit) hdigits hrest
      simp only [spanNumeral, htake, hdrop, hnot]
      rfl
  | @fraction digits places hne hdigits hne' hplaces =>
      obtain ⟨htake, hdrop⟩ := takeWhile_append_boundary (p := Char.isDigit)
        (fun _ => isWordChar_of_isDigit) hplaces hrest
      have htake' : (digits ++ '.' :: (places ++ rest)).takeWhile Char.isDigit = digits := by
        rw [List.takeWhile_append_of_pos hdigits, List.takeWhile_cons_of_neg (by decide),
          List.append_nil]
      have hdrop' : (digits ++ '.' :: (places ++ rest)).dropWhile Char.isDigit =
          '.' :: (places ++ rest) := by
        rw [List.dropWhile_append_of_pos hdigits, List.dropWhile_cons_of_neg (by decide)]
      have hstarts : startsFraction ('.' :: (places ++ rest)) = true := by
        cases places with
        | nil => exact absurd rfl hne'
        | cons d places => exact hplaces d List.mem_cons_self
      rw [List.append_assoc, List.cons_append]
      simp only [spanNumeral, htake', hdrop', hstarts, if_true, List.take_succ_cons, List.take_zero,
        List.drop_succ_cons, List.drop_zero, htake, hdrop, List.append_assoc, List.cons_append,
        List.nil_append]

/-- A numeral in front of a boundary is one lexeme. The boundary goes on with neither a digit nor
a point. -/
theorem Lexes.numeral (hfront : Number.IsNumeral front)
    (hlegible : Lexeme.Legible ⟨.number, String.ofList front⟩) (hrest : Boundary rest)
    (h : Lexes rest ls) : Lexes (front ++ rest) (⟨.number, String.ofList front⟩ :: ls) := by
  obtain ⟨c, tail, rfl, hc⟩ : ∃ c tail, front = c :: tail ∧ c.isDigit := by
    cases hfront with
    | whole hne hdigits =>
        obtain ⟨c, tail, rfl⟩ := List.exists_cons_of_ne_nil hne
        exact ⟨c, tail, rfl, hdigits c List.mem_cons_self⟩
    | fraction hne hdigits _ _ =>
        obtain ⟨c, tail, rfl⟩ := List.exists_cons_of_ne_nil hne
        exact ⟨c, _, rfl, hdigits c List.mem_cons_self⟩
  have hlexeme : lexeme? (c :: tail ++ rest) = some (.number, c :: tail, rest) := by
    have hspan := spanNumeral_of_isNumeral hfront hrest
    rw [List.cons_append] at hspan ⊢
    simp only [lexeme?, hc, Bool.true_or, if_true, hspan]
  exact h.token hlexeme (by decide) (spanTrivia_of_isWordChar (isWordChar_of_isDigit hc)) hlegible

/-- A mark is no blank and begins no numeral, no word and no comment of the sharp
sign. -/
theorem plain_of_ofMark? (hmark : TokenKind.ofMark? c = some kind) :
    isBlank c = false ∧ c ≠ '#' ∧ c.isDigit = false ∧ c ≠ '.' ∧ isWordStart c = false := by
  unfold TokenKind.ofMark? at hmark
  split at hmark
  all_goals first
    | decide
    | cases hmark

/-- A mark is one lexeme, except that two slashes begin a comment. Every other mark is a token
whatever follows it. -/
theorem Lexes.mark (hmark : TokenKind.ofMark? c = some kind)
    (hslash : c = '/' → rest.head? ≠ some '/') (h : Lexes rest ls) :
    Lexes (c :: rest) (⟨kind, String.ofList [c]⟩ :: ls) := by
  have hkind := eq_of_ofMark? hmark
  obtain ⟨hblank, hhash, hdigit, hpoint, hstart⟩ := plain_of_ofMark? hmark
  have hcomment : opensComment c rest = false := by
    rw [Bool.eq_false_iff]
    intro hopens
    simp only [opensComment, Bool.or_eq_true, Bool.and_eq_true, beq_iff_eq] at hopens
    rcases hopens with hc | ⟨hc, hhead⟩
    · exact hhash hc
    · exact hslash hc hhead
  have hfraction : startsFraction (c :: rest) = false := by
    unfold startsFraction
    split
    · rename_i heq
      exact absurd (List.cons.inj heq).1 hpoint
    · rfl
  have hlexeme : lexeme? (c :: rest) = some (kind, [c], rest) := by
    simp [lexeme?, hdigit, hfraction, hstart, hmark]
  have hfinish : kind ≠ .finish := by
    intro h
    subst h
    unfold TokenKind.ofMark? at hmark
    split at hmark <;> simp at hmark
  exact h.token hlexeme hfinish (spanTrivia_eq_nil hblank hcomment)
    (Lexeme.legible_of_kind hkind.2.1)

end Lexing

end LSystem.Syntax
