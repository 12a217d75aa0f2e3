import Mathlib.Logic.Function.Iterate
import LSystem.Proofs.Syntax.Lexical.Pattern
import LSystem.Proofs.Syntax.Lines
import LSystem.Proofs.Syntax.Streaming

/-!
# Lexing byte by byte

A `ByteLexer` goes through the UTF-8 form of a text with a cursor that moves by one byte.
It looks at bytes only, and a token is the slice of the text between two states of the
cursor.  A slice that begins or ends inside of a character does not exist.

It comes to the same answers as the lexer over characters (`Follows.next_eq`), so
it never asks for such a slice.  This rests on how bytes look: a character beyond the first
128 has no byte that is one of them, and so no byte that a token or a blank has.
-/

namespace LSystem.Syntax

/-! ### The bytes of a text -/

/-- The bytes of a character in UTF-8, each read as the character of its number. -/
def charBytes (c : Char) : List Char := (String.utf8EncodeChar c).map Char.ofUInt8

/-- The bytes of a text. -/
def textBytes (text : List Char) : List Char := text.flatMap charBytes

variable {text rest front gap : List Char} {c d : Char} {kind : TokenKind}

@[simp] theorem textBytes_nil : textBytes [] = [] := rfl

@[simp] theorem textBytes_cons (c : Char) (text : List Char) :
    textBytes (c :: text) = charBytes c ++ textBytes text := rfl

@[simp] theorem textBytes_append (text rest : List Char) :
    textBytes (text ++ rest) = textBytes text ++ textBytes rest := List.flatMap_append

/-- The bytes of a string, each read as a character, are those of its characters in UTF-8. -/
theorem toByteArray_map_ofUInt8 (source : String) :
    source.toByteArray.data.toList.map Char.ofUInt8 = textBytes source.toList := by
  conv_lhs => rw [← String.ofList_toList (s := source)]
  rw [String.toByteArray_ofList, List.utf8Encode, List.toList_data_toByteArray, List.map_flatMap]
  rfl

/-- A character of one byte is its byte. The byte has the number of the character. -/
theorem charBytes_of_ascii (h : c.toNat < 128) : charBytes c = [c] := by
  have hsize : c.utf8Size = 1 := Char.utf8Size_eq_one_iff.2 (Nat.le_of_lt_succ h)
  have hbyte : Char.ofUInt8 c.val.toUInt8 = c := by
    have hlt : c.val.toNat < 256 := Nat.lt_trans h (by decide : 128 < 256)
    have hround : c.val.toUInt8.toUInt32.toNat = c.val.toNat := by
      rw [UInt8.toNat_toUInt32, UInt32.toNat_toUInt8, Nat.mod_eq_of_lt hlt]
    exact Char.ext (UInt32.toNat_inj.1 hround)
  rw [charBytes, String.utf8EncodeChar_eq_singleton hsize, List.map_singleton, hbyte]

/-- The bytes of any other character are beyond the first 128. So none of them is mistaken for a
blank, a mark, a letter or a digit. -/
theorem le_of_mem_charBytes (h : 128 ≤ c.toNat) : ∀ d ∈ charBytes c, 128 ≤ d.toNat := by
  have hmark {x mark : UInt8} (hmark : 128 ≤ mark.toNat) :
      128 ≤ (Char.ofUInt8 (x ||| mark)).toNat := by
    have hor : (Char.ofUInt8 (x ||| mark)).toNat = x.toNat ||| mark.toNat := UInt8.toNat_or x mark
    exact hor ▸ Nat.le_trans hmark Nat.right_le_or
  have hsize : c.utf8Size ≠ 1 := fun hone =>
    absurd (Char.utf8Size_eq_one_iff.1 hone) (Nat.not_le_of_lt h)
  have hfour := c.utf8Size_le_four
  have hpos := c.utf8Size_pos
  obtain htwo | hthree | hfour : c.utf8Size = 2 ∨ c.utf8Size = 3 ∨ c.utf8Size = 4 := by omega
  · simp only [charBytes, String.utf8EncodeChar_eq_cons_cons htwo, List.map_cons, List.map_nil,
      List.forall_mem_cons]
    exact ⟨hmark (by decide), hmark (by decide), nofun⟩
  · simp only [charBytes, String.utf8EncodeChar_eq_cons_cons_cons hthree, List.map_cons,
      List.map_nil, List.forall_mem_cons]
    exact ⟨hmark (by decide), hmark (by decide), hmark (by decide), nofun⟩
  · simp only [charBytes, String.utf8EncodeChar_eq_cons_cons_cons_cons hfour, List.map_cons,
      List.map_nil, List.forall_mem_cons]
    exact ⟨hmark (by decide), hmark (by decide), hmark (by decide), hmark (by decide), nofun⟩

theorem length_charBytes (c : Char) : (charBytes c).length = c.utf8Size := by
  rw [charBytes, List.length_map, String.length_utf8EncodeChar]

/-- A text has as many bytes as its string counts, so cursors and offsets can be compared. -/
theorem length_textBytes (text : List Char) : (textBytes text).length = bytes text := by
  induction text with
  | nil => rfl
  | cons c text ih =>
      rw [textBytes_cons, List.length_append, length_charBytes, ih, bytes_cons]

/-- A text of characters of one byte is its bytes. The induction is on the text. -/
theorem textBytes_of_ascii (h : Ascii text) : textBytes text = text := by
  induction text with
  | nil => rfl
  | cons c text ih =>
      obtain ⟨hc, htext⟩ := List.forall_mem_cons.1 h
      rw [textBytes_cons, charBytes_of_ascii hc, ih htext, List.singleton_append]

/-- What a character of one byte does not occur in it does not occur in as a byte. -/
theorem mem_textBytes_iff (hd : d.toNat < 128) : d ∈ textBytes text ↔ d ∈ text := by
  induction text with
  | nil => rfl
  | cons c text ih =>
      rw [textBytes_cons, List.mem_append, List.mem_cons, ih]
      refine or_congr_left ?_
      by_cases hc : c.toNat < 128
      · rw [charBytes_of_ascii hc, List.mem_singleton]
      · constructor
        · intro hmem
          exact absurd (le_of_mem_charBytes (Nat.le_of_not_lt hc) d hmem) (Nat.not_le_of_lt hd)
        · intro heq
          exact absurd (heq ▸ hd) hc

/-- A text of characters of one byte is in front of the bytes when it is in front of the
text. -/
theorem begins_textBytes_iff (h : Ascii front) : front <+: textBytes text ↔ front <+: text := by
  induction front generalizing text with
  | nil => simp
  | cons d front ih =>
      obtain ⟨hd, hfront⟩ := List.forall_mem_cons.1 h
      cases text with
      | nil => simp
      | cons c text =>
          rw [textBytes_cons, List.cons_prefix_cons]
          by_cases hc : c.toNat < 128
          · rw [charBytes_of_ascii hc, List.singleton_append, List.cons_prefix_cons, ih hfront]
          · have hbytes := le_of_mem_charBytes (Nat.le_of_not_lt hc)
            have hlength := length_charBytes c
            have hpos := c.utf8Size_pos
            obtain ⟨e, others, hcons⟩ := List.exists_cons_of_length_pos (hlength ▸ hpos)
            have he : 128 ≤ e.toNat := hbytes e (hcons ▸ List.mem_cons_self)
            rw [hcons, List.cons_append, List.cons_prefix_cons]
            constructor
            · intro hbegins
              exact absurd (hbegins.1 ▸ hd) (Nat.not_lt_of_le he)
            · intro hbegins
              exact absurd (hbegins.1 ▸ hd) hc

/-- Whether a text begins with a given character of one byte can be read off its first byte: no
longer character begins with such a byte. -/
theorem head?_textBytes (hd : d.toNat < 128) :
    (textBytes text).head? = some d ↔ text.head? = some d := by
  have hone : Ascii [d] := List.forall_mem_singleton.2 hd
  have hbegins : [d] <+: textBytes text ↔ [d] <+: text := begins_textBytes_iff hone
  have hhead (other : List Char) : [d] <+: other ↔ other.head? = some d := by
    cases other with
    | nil => simp
    | cons c other => simp [eq_comm]
  rwa [hhead, hhead] at hbegins

/-! ### Gaps and tokens among the bytes -/

theorem ascii_of_isBlank (h : isBlank c = true) : c.toNat < 128 := by
  simp only [isBlank, Bool.or_eq_true, beq_iff_eq] at h
  rcases h with (((rfl | rfl) | rfl) | rfl) | rfl <;> decide

theorem ascii_commentMark {mark : List Char} (h : mark ∈ commentMarks) : Ascii mark := by
  simp only [commentMarks, List.mem_cons, List.not_mem_nil, or_false] at h
  rcases h with rfl | rfl <;> simp [Ascii]

/-- Every token is made of characters of one byte, so its bytes are its characters. -/
theorem Spells.ascii (h : Spells kind front) : Ascii front := fun c hc => (h.plain c hc).2

/-- The bytes of a gap are a gap again. Those of its blanks and marks are themselves, and no byte
in a comment is a line end that its characters are not. -/
theorem Gap.textBytes {last : Prop} (h : Gap last gap) : Gap last (textBytes gap) := by
  induction h with
  | nil => exact .nil
  | blank hblank _ ih =>
      rw [textBytes_cons, charBytes_of_ascii (ascii_of_isBlank hblank)]
      exact .blank hblank ih
  | @comment mark body gap hmark hbody hend _ ih =>
      have hline : '\n' ∉ Syntax.textBytes body := mt (mem_textBytes_iff (by decide)).1 hbody
      have hbehind : (Syntax.textBytes gap).head? = some '\n' ∨
          last ∧ Syntax.textBytes gap = [] := by
        rcases hend with hhead | ⟨hlast, rfl⟩
        · exact .inl ((head?_textBytes (by decide)).2 hhead)
        · exact .inr ⟨hlast, rfl⟩
      rw [textBytes_append, textBytes_append, textBytes_of_ascii (ascii_commentMark hmark)]
      exact .comment hmark hline hbehind ih

/-- A text that begins with neither a blank nor a comment does not do so byte by byte either. -/
theorem Solid.textBytes (h : Solid text) : Solid (textBytes text) := by
  constructor
  · intro c hc
    rw [Bool.eq_false_iff]
    intro hblank
    have hhead : text.head? = some c := (head?_textBytes (ascii_of_isBlank hblank)).1 hc
    rw [h.blank c hhead] at hblank
    cases hblank
  · intro mark hmark hbegins
    exact h.comment mark hmark ((begins_textBytes_iff (ascii_commentMark hmark)).1 hbegins)

/-- The gap in front is the same among the bytes. -/
theorem spanTrivia_textBytes (h : spanTrivia false text = (gap, rest)) :
    spanTrivia false (textBytes text) = (textBytes gap, textBytes rest) := by
  obtain ⟨rfl, hgap, hsolid⟩ := spanTrivia_eq_iff.1 h
  refine spanTrivia_eq_iff.2 ⟨textBytes_append gap rest, ?_, hsolid.textBytes⟩
  exact hgap.textBytes.mono fun hnil => congrArg textBytes hnil

/-- The token in front is the same among the bytes. It is made of characters of one byte, and it
ends where the next byte, too, belongs to no longer token. -/
theorem lexeme?_textBytes (h : lexeme? text = some (kind, front, rest)) (hkind : kind ≠ .finish) :
    lexeme? (textBytes text) = some (kind, front, textBytes rest) := by
  obtain ⟨rfl, hlongest⟩ := (lexeme?_eq_some_iff hkind).1 h
  have htext : textBytes (front ++ rest) = front ++ textBytes rest := by
    rw [textBytes_append, textBytes_of_ascii hlongest.spells.ascii]
  refine (lexeme?_eq_some_iff hkind).2 ⟨htext, hlongest.spells, ⟨_, htext.symm⟩, ?_⟩
  intro kind' other hother hbegins
  exact hlongest.longest hother ((begins_textBytes_iff hother.ascii).1 hbegins)

/-- Where no token begins among the characters, none begins among the bytes: the first byte of a
longer character begins nothing. -/
theorem lexeme?_textBytes_of_none (h : lexeme? text = none) : lexeme? (textBytes text) = none := by
  cases hbytes : lexeme? (textBytes text) with
  | none => rfl
  | some found =>
      obtain ⟨kind, front, rest⟩ := found
      by_cases hkind : kind = .finish
      · subst hkind
        have hlength := length_textBytes text
        have hle := length_le_bytes text
        rw [eq_nil_of_lexeme? hbytes, List.length_nil] at hlength
        rw [← hlength] at hle
        rw [List.length_eq_zero_iff.1 (Nat.le_zero.1 hle)] at h
        cases h
      · obtain ⟨-, hlongest⟩ := (lexeme?_eq_some_iff hkind).1 hbytes
        exact absurd ((begins_textBytes_iff hlongest.spells.ascii).1 hlongest.begins)
          (not_begins_of_lexeme? h hlongest.spells)

/-! ### The lexer over bytes -/

/-- A lexer after a number of calls. -/
def Lexer.afterCalls (l : Lexer) (calls : Nat) : Lexer := (fun l => l.next.2)^[calls] l

theorem Lexer.afterCalls_succ (l : Lexer) (i : Nat) :
    l.afterCalls (i + 1) = l.next.2.afterCalls i := Function.iterate_succ_apply _ _ _

/-- The text between two offsets, when both are between two characters. -/
def slice (source : String) (start stop : Nat) : Option String :=
  if (⟨start⟩ : String.Pos.Raw).IsValid source ∧ (⟨stop⟩ : String.Pos.Raw).IsValid source then
    String.fromUTF8? (source.toByteArray.extract start stop)
  else none

/-- The place behind one more byte. -/
def Position.overByte (p : Position) (c : Char) : Position :=
  if c = '\n' then ⟨p.line + 1, 1⟩ else ⟨p.line, p.column + 1⟩

/-- A lexer in the middle of the bytes of a text. -/
structure ByteLexer where
  source : String
  /-- The number of bytes in front of the cursor. -/
  cursor : Nat
  position : Position
  tokenPosition : Position

namespace ByteLexer

def ofSource (source : String) : ByteLexer := ⟨source, 0, .start, .start⟩

/-- The bytes from the cursor on. -/
def remaining (b : ByteLexer) : List Char :=
  (b.source.toByteArray.data.toList.map Char.ofUInt8).drop b.cursor

/-- Move the cursor by one byte. -/
def bump (b : ByteLexer) : ByteLexer :=
  match b.remaining with
  | [] => b
  | c :: _ => { b with cursor := b.cursor + 1, position := b.position.overByte c }

/-- A lexer behind some of its bytes. -/
def moved (b : ByteLexer) (front : List Char) : ByteLexer :=
  { b with
    cursor := b.cursor + front.length
    position := front.foldl Position.overByte b.position }

variable {b : ByteLexer}

theorem moved_moved (b : ByteLexer) (front rest : List Char) :
    (b.moved front).moved rest = b.moved (front ++ rest) := by
  simp [moved, Nat.add_assoc]

/-- Behind some of the bytes that are left the others are left. -/
theorem remaining_moved (h : b.remaining = front ++ rest) : (b.moved front).remaining = rest := by
  change (b.source.toByteArray.data.toList.map Char.ofUInt8).drop (b.cursor + front.length) = rest
  rw [← List.drop_drop]
  change b.remaining.drop front.length = rest
  rw [h, List.drop_left]

/-- Moving the cursor by one byte is moving it over the text that is this byte. -/
theorem bump_eq (h : b.remaining = c :: rest) : b.bump = b.moved [c] := by
  simp [bump, moved, h]

/-- Behind one byte the others are left, which is why the loops over bytes end. -/
theorem remaining_bump (h : b.remaining = c :: rest) : b.bump.remaining = rest := by
  rw [bump_eq h]
  exact remaining_moved (List.singleton_append ▸ h)

/-- Move the cursor over bytes of a kind. -/
def bumpWhile (keep : Char → Bool) (b : ByteLexer) : ByteLexer :=
  match _ : b.remaining with
  | [] => b
  | c :: _ => if keep c then b.bump.bumpWhile keep else b
termination_by b.remaining.length
decreasing_by
  rename_i rest hcons _
  rw [remaining_bump hcons, hcons]
  exact Nat.lt_succ_self _

/-- Moving the cursor over bytes of a kind moves it over the longest such piece in front, by
induction on what is left. -/
theorem bumpWhile_eq (keep : Char → Bool) (b : ByteLexer) :
    b.bumpWhile keep = b.moved (b.remaining.takeWhile keep) := by
  fun_induction bumpWhile keep b with
  | case1 b hnil =>
      rw [hnil]
      rfl
  | case2 b c rest hcons hc ih =>
      rw [ih, remaining_bump hcons, bump_eq hcons, moved_moved, hcons,
        List.takeWhile_cons_of_pos hc, List.singleton_append]
  | case3 b c rest hcons hc =>
      rw [hcons, List.takeWhile_cons_of_neg hc]
      rfl

/-- Behind the bytes of a kind the text goes on with one that is not of the kind. -/
theorem remaining_bumpWhile (keep : Char → Bool) (b : ByteLexer) :
    (b.bumpWhile keep).remaining = b.remaining.dropWhile keep := by
  rw [bumpWhile_eq]
  exact remaining_moved List.takeWhile_append_dropWhile.symm

/-- What opens a comment is not the end of its line. The mark of a comment and the line end are
different characters. -/
theorem line_of_opensComment (h : opensComment c rest = true) :
    (c :: rest).takeWhile (· != '\n') = c :: rest.takeWhile (· != '\n') ∧
      (c :: rest).dropWhile (· != '\n') = rest.dropWhile (· != '\n') := by
  have hc : (c != '\n') = true := by
    rw [bne_iff_ne]
    rintro rfl
    simp [opensComment] at h
  exact ⟨List.takeWhile_cons_of_pos hc, List.dropWhile_cons_of_pos hc⟩

/-- Move the cursor over blanks and comments. -/
def skipTrivia (b : ByteLexer) : ByteLexer :=
  match _ : b.remaining with
  | [] => b
  | c :: rest =>
    if isBlank c then b.bump.skipTrivia
    else if opensComment c rest then (b.bumpWhile (· != '\n')).skipTrivia
    else b
termination_by b.remaining.length
decreasing_by
  · have hcons : b.remaining = c :: rest := ‹_›
    rw [remaining_bump hcons, hcons]
    exact Nat.lt_succ_self _
  · have hcons : b.remaining = c :: rest := ‹_›
    have hopens : opensComment c rest = true := ‹_›
    rw [remaining_bumpWhile, hcons, (line_of_opensComment hopens).2]
    exact Nat.lt_succ_of_le (List.dropWhile_suffix _).length_le

/-- Skipping blanks and comments moves the cursor over the gap in front, the same piece that the
lexer over characters skips in these bytes. -/
theorem skipTrivia_eq (b : ByteLexer) :
    b.skipTrivia = b.moved (spanTrivia false b.remaining).1 := by
  fun_induction skipTrivia b with
  | case1 b hnil =>
      rw [hnil]
      rfl
  | case2 b c rest hcons hblank ih =>
      have hspan : (spanTrivia false (c :: rest)).1 = [c] ++ (spanTrivia false rest).1 := by
        simp [spanTrivia, hblank]
      rw [ih, remaining_bump hcons, bump_eq hcons, moved_moved, hcons, hspan]
  | case3 b c rest hcons hblank hopens ih =>
      obtain ⟨htake, hline⟩ := line_of_opensComment hopens
      have hdrop := remaining_bumpWhile (· != '\n') b
      rw [hcons, hline] at hdrop
      rw [Bool.not_eq_true] at hblank
      have hspan : (spanTrivia false (c :: rest)).1 = (c :: rest).takeWhile (· != '\n') ++
          (spanTrivia false (rest.dropWhile (· != '\n'))).1 := by
        rw [htake]
        simp [spanTrivia, hblank, hopens, spanTrivia_true]
      rw [ih, hdrop, bumpWhile_eq, moved_moved, hcons, hspan]
  | case4 b c rest hcons hblank hopens =>
      rw [Bool.not_eq_true] at hblank hopens
      rw [hcons, spanTrivia_eq_nil hblank hopens]
      rfl

/-- Move the cursor over a numeral. -/
def number (b : ByteLexer) : ByteLexer :=
  let whole := b.bumpWhile Char.isDigit
  if startsFraction whole.remaining then whole.bump.bumpWhile Char.isDigit else whole

/-- Reading a numeral moves the cursor over the numeral in front, its places behind the point
included. -/
theorem number_eq (b : ByteLexer) : b.number = b.moved (spanNumeral b.remaining).1 := by
  have hdrop := remaining_bumpWhile Char.isDigit b
  simp only [number, spanNumeral]
  rw [hdrop]
  split
  · rename_i hstarts
    generalize b.remaining.dropWhile Char.isDigit = behind at hstarts hdrop ⊢
    unfold startsFraction at hstarts
    split at hstarts
    · rename_i d rest
      rw [bumpWhile_eq, remaining_bump hdrop, bump_eq hdrop, bumpWhile_eq, moved_moved, moved_moved,
        ← List.append_assoc]
      rfl
    · cases hstarts
  · exact bumpWhile_eq Char.isDigit b

/-- The token between an offset and the cursor. -/
def token (b : ByteLexer) (kind : TokenKind) (start : Nat) :
    Option (Except Fault Token × ByteLexer) := do
  let text ← slice b.source start b.cursor
  return (.ok ⟨kind, text, b.tokenPosition⟩, b)

/-- The token at the cursor, the end of the text being one, or the character that is no
token; nothing when a slice is asked for that does not exist. -/
def readToken (b : ByteLexer) : Option (Except Fault Token × ByteLexer) :=
  match b.remaining with
  | [] => b.token .finish b.cursor
  | c :: rest =>
    if c.isDigit || startsFraction (c :: rest) then b.number.token .number b.cursor
    else if isWordStart c then do
      let word := b.bumpWhile isWordChar
      let text ← slice b.source b.cursor word.cursor
      word.token (wordKind text) b.cursor
    else match TokenKind.ofMark? c with
      | some kind => b.bump.token kind b.cursor
      | none => do
        let behind ← slice b.source b.cursor b.source.utf8ByteSize
        return (.error ⟨.unexpectedCharacter (behind.toList.headD '?'), b.position⟩, b)

/-- The next token. -/
def next (b : ByteLexer) : Option (Except Fault Token × ByteLexer) :=
  let b := b.skipTrivia
  { b with tokenPosition := b.position }.readToken

/-! ### Between two characters -/

/-- The cursor stands where the lexer over characters is. -/
structure Follows (b : ByteLexer) (l : Lexer) : Prop where
  text : ∃ before, b.source.toList = before ++ l.rest ∧ b.cursor = bytes before
  position : b.position = l.position
  tokenPosition : b.tokenPosition = l.tokenPosition

/-- At the beginning of a text both lexers stand before its first character. -/
theorem follows_ofSource (source : String) : (ofSource source).Follows (.ofSource source) :=
  ⟨⟨[], rfl, rfl⟩, rfl, rfl⟩

variable {l : Lexer}

/-- The bytes that are left of a cursor are those of the characters that are left of the lexer it
follows. -/
theorem Follows.remaining_eq (h : b.Follows l) : b.remaining = textBytes l.rest := by
  obtain ⟨before, hsource, hcursor⟩ := h.text
  rw [remaining, toByteArray_map_ofUInt8, hsource, textBytes_append, hcursor, ← length_textBytes,
    List.drop_left]

/-- Bytes that end no line fill a column each. The line is the same throughout, by induction on
the text. -/
theorem foldl_overByte (p : Position) (h : '\n' ∉ text) :
    text.foldl Position.overByte p = ⟨p.line, p.column + text.length⟩ := by
  induction text generalizing p with
  | nil => rfl
  | cons c text ih =>
      rw [List.mem_cons, not_or] at h
      rw [List.foldl_cons, ih _ h.2, Position.overByte, if_neg (Ne.symm h.1), List.length_cons,
        Nat.add_assoc, Nat.add_comm 1]

/-- Counting a character byte by byte comes to the place behind the character: columns count
bytes, and only a line end of one byte begins a line. -/
theorem foldl_charBytes (p : Position) (c : Char) :
    (charBytes c).foldl Position.overByte p = p.advance c := by
  by_cases hc : c.toNat < 128
  · have hsize : c.utf8Size = 1 := Char.utf8Size_eq_one_iff.2 (Nat.le_of_lt_succ hc)
    rw [charBytes_of_ascii hc, Position.advance, hsize]
    rfl
  · have hbytes := le_of_mem_charBytes (Nat.le_of_not_lt hc)
    have hline : '\n' ∉ charBytes c := fun hmem => absurd (hbytes _ hmem) (by decide)
    have hne : c ≠ '\n' := by
      rintro rfl
      exact hc (by decide)
    rw [foldl_overByte p hline, Position.advance, if_neg hne, length_charBytes]

/-- The bytes of a text lead to the place behind the text. -/
theorem foldl_textBytes (p : Position) (text : List Char) :
    (textBytes text).foldl Position.overByte p = p.after text := by
  induction text generalizing p with
  | nil => rfl
  | cons c text ih =>
      rw [textBytes_cons, List.foldl_append, foldl_charBytes, ih]
      rfl

/-- A cursor that is moved over the bytes of some characters follows the lexer over these
characters. -/
theorem Follows.moved (h : b.Follows l) (hrest : l.rest = front ++ rest) :
    (b.moved (textBytes front)).Follows ⟨rest, l.position.after front, l.tokenPosition⟩ := by
  obtain ⟨before, hsource, hcursor⟩ := h.text
  refine ⟨⟨before ++ front, ?_, ?_⟩, ?_, h.tokenPosition⟩
  · rw [List.append_assoc, ← hrest]
    exact hsource
  · change b.cursor + (textBytes front).length = bytes (before ++ front)
    rw [hcursor, length_textBytes, bytes_append]
  · change (textBytes front).foldl Position.overByte b.position = l.position.after front
    rw [h.position, foldl_textBytes]

/-- A slice between two characters is the text between them. The two offsets are valid places of
the string, and the bytes between them are those of the text. -/
theorem slice_eq {source : String} {before : List Char}
    (h : source.toList = before ++ (text ++ rest)) :
    slice source (bytes before) (bytes before + bytes text) = some (String.ofList text) := by
  have hstart := isValid_bytes h
  rw [← List.append_assoc] at h
  have hstop := isValid_bytes h
  rw [List.append_assoc] at h
  have hextract := extract_bytes h
  rw [bytes_append] at hstop hextract
  rw [slice, if_pos ⟨hstart, hstop⟩, hextract]
  exact dif_pos (String.ofList text).isValidUTF8

/-- The slice over the bytes of some characters in front exists, since it begins and ends between
two characters, and it is these characters. -/
theorem Follows.slice_eq (h : b.Follows l) (hrest : l.rest = front ++ rest) :
    slice b.source b.cursor (b.moved (textBytes front)).cursor = some (String.ofList front) := by
  obtain ⟨before, hsource, hcursor⟩ := h.text
  rw [hrest] at hsource
  change slice b.source b.cursor (b.cursor + (textBytes front).length) = _
  rw [hcursor, length_textBytes]
  exact ByteLexer.slice_eq hsource

/-- The token of a front part of what is left. Its slice begins and ends between two characters,
so it exists. -/
theorem Follows.token_eq (h : b.Follows l) (hrest : l.rest = front ++ rest) (kind : TokenKind) :
    (b.moved (textBytes front)).token kind b.cursor =
      some (.ok ⟨kind, String.ofList front, l.tokenPosition⟩, b.moved (textBytes front)) := by
  have hslice := h.slice_eq hrest
  have hplace : (b.moved (textBytes front)).tokenPosition = l.tokenPosition := h.tokenPosition
  unfold token
  rw [hplace]
  change (slice b.source b.cursor _).bind _ = _
  rw [hslice]
  rfl

/-- Behind the gap both lexers stand in front of the same token. -/
theorem Follows.skipTrivia (h : b.Follows l) (hspan : spanTrivia false l.rest = (gap, rest)) :
    Follows { b.skipTrivia with tokenPosition := b.skipTrivia.position }
      ⟨rest, l.position.after gap, l.position.after gap⟩ := by
  obtain ⟨hrest, -, -⟩ := spanTrivia_eq_iff.1 hspan
  have hskip : b.skipTrivia = b.moved (textBytes gap) := by
    rw [skipTrivia_eq, h.remaining_eq, spanTrivia_textBytes hspan]
  have hmoved := h.moved hrest
  rw [hskip]
  exact ⟨hmoved.text, hmoved.position, hmoved.position⟩

/-- A token that the lexer over characters finds is found among the bytes. There is one case for
each branch of the lexer, and in each the slice is the token. -/
theorem Follows.readToken_eq (h : b.Follows l)
    (hlexeme : lexeme? l.rest = some (kind, front, rest)) :
    b.readToken =
      some (.ok ⟨kind, String.ofList front, l.tokenPosition⟩, b.moved (textBytes front)) := by
  have happend := lexeme_append hlexeme
  have htoken := h.token_eq happend.symm
  unfold readToken
  by_cases hkind : kind = .finish
  · subst hkind
    have hnil := eq_nil_of_lexeme? hlexeme
    rw [hnil] at hlexeme happend
    cases hlexeme
    rw [h.remaining_eq, hnil]
    exact htoken .finish
  · have hascii := (longest_of_lexeme? hlexeme hkind).spells.ascii
    have hslice := h.slice_eq happend.symm
    have hbytes := lexeme?_textBytes hlexeme hkind
    rw [← h.remaining_eq] at hbytes
    rw [textBytes_of_ascii hascii] at htoken hslice ⊢
    generalize textBytes rest = after at hbytes
    split
    · rename_i hnil
      rw [hnil] at hbytes
      cases hbytes
      exact absurd rfl hkind
    · rename_i c others hcons
      rw [hcons, lexeme?_cons] at hbytes
      split at hbytes
      · rename_i hopens
        cases hbytes
        rw [if_pos hopens, number_eq, hcons]
        exact htoken .number
      · rename_i hopens
        rw [if_neg hopens]
        split at hbytes
        · rename_i hstart
          cases hbytes
          rw [if_pos hstart, bumpWhile_eq, hcons]
          change (slice b.source b.cursor (b.moved _).cursor).bind _ = _
          rw [hslice]
          exact htoken _
        · rename_i hstart
          obtain ⟨_, hmark, heq⟩ := Option.map_eq_some_iff.1 hbytes
          cases heq
          rw [if_neg hstart, hmark, bump_eq hcons]
          exact htoken _

/-- A character that the lexer over characters refuses is refused among the bytes. The rest of the
text is sliced there, from between two characters, so that the whole character can be shown. -/
theorem Follows.readToken_eq_error (h : b.Follows l) (hlexeme : lexeme? l.rest = none) :
    b.readToken = some (.error ⟨.unexpectedCharacter (l.rest.headD '?'), l.position⟩, b) := by
  obtain ⟨before, hsource, hcursor⟩ := h.text
  have hbytes := lexeme?_textBytes_of_none hlexeme
  rw [← h.remaining_eq] at hbytes
  have hslice : slice b.source b.cursor b.source.utf8ByteSize = some (String.ofList l.rest) := by
    rw [← List.append_nil l.rest] at hsource
    have hwhole := ByteLexer.slice_eq hsource
    rw [hcursor, ← bytes_toList, hsource, List.append_nil, bytes_append]
    exact hwhole
  unfold readToken
  split
  · rename_i hnil
    rw [hnil] at hbytes
    cases hbytes
  · rename_i c others hcons
    rw [hcons, lexeme?_cons] at hbytes
    split at hbytes
    · cases hbytes
    · rename_i hopens
      split at hbytes
      · cases hbytes
      · rename_i hstart
        rw [if_neg hopens, if_neg hstart, Option.map_eq_none_iff.1 hbytes, hslice, h.position]
        change some _ = some _
        rw [String.toList_ofList]

/-- The lexer over bytes follows the lexer over characters.  A call never asks for a slice
that does not exist, it gives the same answer, and the cursor stands between two characters
again. -/
theorem Follows.next_eq (h : b.Follows l) : ∃ b', b.next = some (l.next.1, b') ∧
    b'.Follows l.next.2 ∧ b'.source = b.source := by
  obtain ⟨gap, rest, hspan⟩ : ∃ gap rest, spanTrivia false l.rest = (gap, rest) := ⟨_, _, rfl⟩
  have hfollows := h.skipTrivia hspan
  have hsource : b.skipTrivia.source = b.source := by
    rw [skipTrivia_eq]
    rfl
  unfold next
  simp only [Lexer.next, hspan]
  split
  · rename_i kind front behind hlexeme
    exact ⟨_, hfollows.readToken_eq hlexeme, hfollows.moved (lexeme_append hlexeme).symm, hsource⟩
  · rename_i hlexeme
    exact ⟨_, hfollows.readToken_eq_error hlexeme, hfollows, hsource⟩

/-- A lexer over characters says where the lexer over bytes is. The number of bytes before it is
told by what is left of the text. -/
theorem Follows.unique {b' : ByteLexer} (h : b.Follows l) (h' : b'.Follows l)
    (hsource : b.source = b'.source) : b = b' := by
  obtain ⟨source, cursor, position, tokenPosition⟩ := b
  obtain ⟨source', cursor', position', tokenPosition'⟩ := b'
  obtain ⟨⟨before, happend, rfl⟩, rfl, rfl⟩ := h
  obtain ⟨⟨before', happend', rfl⟩, rfl, rfl⟩ := h'
  obtain rfl : source = source' := hsource
  rw [List.append_cancel_right (happend.symm.trans happend')]

/-- A lexer after a number of calls. -/
def afterCalls (b : ByteLexer) (calls : Nat) : ByteLexer :=
  (fun b => (b.next.map Prod.snd).getD b)^[calls] b

/-- Call after call one lexer follows the other. They come to the same tokens and faults, and none
of the slices in between is missing. -/
theorem Follows.afterCalls (h : b.Follows l) (n : Nat) :
    (b.afterCalls n).source = b.source ∧ (b.afterCalls n).Follows (l.afterCalls n) ∧
      (b.afterCalls n).next = some ((l.afterCalls n).next.1, b.afterCalls (n + 1)) := by
  induction n generalizing b l with
  | zero =>
      obtain ⟨b', hnext, -⟩ := h.next_eq
      have hcall : b.afterCalls 1 = b' := by
        change (b.next.map Prod.snd).getD b = b'
        rw [hnext]
        rfl
      exact ⟨rfl, h, by rw [hcall]; exact hnext⟩
  | succ n ih =>
      obtain ⟨b', hnext, hfollows, hsource⟩ := h.next_eq
      have hcalls (n : Nat) : b.afterCalls (n + 1) = b'.afterCalls n := by
        change ((b.next.map Prod.snd).getD b).afterCalls n = b'.afterCalls n
        rw [hnext]
        rfl
      rw [hcalls, hcalls, Lexer.afterCalls_succ]
      obtain ⟨hkept, hothers⟩ := ih hfollows
      exact ⟨hkept.trans hsource, hothers⟩

end ByteLexer

end LSystem.Syntax
