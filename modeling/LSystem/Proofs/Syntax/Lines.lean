import LSystem.Proofs.Syntax.Places
import Mathlib.Data.List.DropRight

/-!
# Lines and columns

The lines of a text are the pieces that its line ends cut it into.  A place counts the
line ends before it and the bytes since the last of them, and the line that is shown
with an error is the piece of that number.
-/

namespace LSystem.Syntax

/-- The number of bytes of a text in UTF-8. -/
def bytes (text : List Char) : Nat := (String.ofList text).utf8ByteSize

/-- The line that a text ends in, as far as it goes. -/
def lastLine (text : List Char) : List Char := text.rtakeWhile (· != '\n')

/-- The line that a text begins with. -/
def firstLine (text : List Char) : List Char := text.takeWhile (· != '\n')

variable {text before rest : List Char} {c : Char} {p : Position}

/-! ### Bytes -/

@[simp] theorem bytes_nil : bytes [] = 0 := rfl

@[simp] theorem bytes_append (text rest : List Char) :
    bytes (text ++ rest) = bytes text + bytes rest := by
  unfold bytes
  rw [String.ofList_append, String.utf8ByteSize_append]

@[simp] theorem bytes_singleton (c : Char) : bytes [c] = c.utf8Size := by
  unfold bytes
  rw [← String.singleton_eq_ofList, String.utf8ByteSize_singleton]

theorem bytes_cons (c : Char) (text : List Char) : bytes (c :: text) = c.utf8Size + bytes text := by
  rw [← List.singleton_append, bytes_append, bytes_singleton]

theorem bytes_toList (source : String) : bytes source.toList = source.utf8ByteSize := by
  rw [bytes, String.ofList_toList]

/-- A character has a byte at least. So what is counted in characters is bounded by what is
counted in bytes. -/
theorem length_le_bytes (text : List Char) : text.length ≤ bytes text := by
  induction text with
  | nil => exact Nat.le_refl _
  | cons c text ih =>
      have hsize := c.utf8Size_pos
      rw [bytes_cons, List.length_cons]
      omega

/-- Between two characters a position in bytes is valid. -/
theorem isValid_bytes {source : String} (h : source.toList = before ++ rest) :
    (⟨bytes before⟩ : String.Pos.Raw).IsValid source := by
  refine String.Pos.Raw.isValid_iff_exists_append.2
    ⟨String.ofList before, String.ofList rest, ?_, rfl⟩
  rw [← String.ofList_append, ← h, String.ofList_toList]

/-- A piece of a text by its bytes. The text before it and the text up to its end are told by
their numbers of bytes. -/
theorem extract_bytes {source : String} (h : source.toList = before ++ (text ++ rest)) :
    source.toByteArray.extract (bytes before) (bytes (before ++ text)) =
      (String.ofList text).toByteArray := by
  have hsource : source.toByteArray = (String.ofList before).toByteArray ++
      ((String.ofList text).toByteArray ++ (String.ofList rest).toByteArray) := by
    rw [← String.toByteArray_append, ← String.toByteArray_append, ← String.ofList_append,
      ← String.ofList_append, ← h, String.ofList_toList]
  have hskip := @ByteArray.extract_append_size_add (String.ofList before).toByteArray
    ((String.ofList text).toByteArray ++ (String.ofList rest).toByteArray) 0 (bytes text)
  rw [bytes_append, hsource]
  rw [Nat.add_zero] at hskip
  exact hskip.trans (ByteArray.extract_append_eq_left rfl)

/-! ### Places -/

/-- The place behind a text: it counts the line ends and the bytes since the last of
them. -/
def Position.behind (text : List Char) : Position :=
  ⟨1 + text.count '\n', 1 + bytes (lastLine text)⟩

theorem Position.after_append (p : Position) (text rest : List Char) :
    p.after (text ++ rest) = (p.after text).after rest := List.foldl_append

/-- Going over a text from the start, character by character, comes to the place behind it, which
counts line ends and the bytes since the last one. -/
theorem Position.start_after (text : List Char) : Position.start.after text = .behind text := by
  induction text using List.reverseRecOn with
  | nil => rfl
  | append_singleton text c ih =>
      rw [after_append, ih]
      by_cases hc : c = '\n'
      · subst hc
        simp [behind, after, advance, lastLine, Nat.add_assoc]
      · simp [behind, after, advance, lastLine, hc, Nat.add_assoc]

/-! ### Lines -/

/-- A line end begins a new last line, and any other character goes on with the one that there
is. -/
theorem lastLine_concat (text : List Char) (c : Char) :
    lastLine (text ++ [c]) = if c = '\n' then [] else lastLine text ++ [c] := by
  by_cases hc : c = '\n' <;> simp [lastLine, hc]

/-- A line that begins in the rest has nothing of what stands before. -/
theorem lastLine_append_of_mem (before : List Char) (h : '\n' ∈ rest) :
    lastLine (before ++ rest) = lastLine rest := by
  induction rest using List.reverseRecOn with
  | nil => cases h
  | append_singleton rest c ih =>
      rw [← List.append_assoc, lastLine_concat, lastLine_concat]
      by_cases hc : c = '\n'
      · rw [if_pos hc, if_pos hc]
      · have hmem : '\n' ∈ rest := by simpa [hc, eq_comm] using h
        rw [if_neg hc, if_neg hc, ih hmem]

theorem lastLine_of_not_mem (h : '\n' ∉ text) : lastLine text = text :=
  List.rtakeWhile_eq_self_iff.2 fun _ hc => bne_iff_ne.2 fun heq => h (heq ▸ hc)

/-- A text without a line end goes on with the last line of the text before it. -/
theorem lastLine_append_of_not_mem (before : List Char) (h : '\n' ∉ rest) :
    lastLine (before ++ rest) = lastLine before ++ rest := by
  induction rest using List.reverseRecOn with
  | nil => simp
  | append_singleton rest c ih =>
      rw [List.mem_append, List.mem_singleton, not_or] at h
      rw [← List.append_assoc, lastLine_concat, if_neg (Ne.symm h.2), ih h.1, List.append_assoc]

/-- A text by its first line and what follows the end of it. It turns statements about all lines
into inductions from line to line. -/
theorem splitOn_eq (text : List Char) : text.splitOn '\n' =
    firstLine text :: match text.dropWhile (· != '\n') with
      | [] => []
      | _ :: rest => rest.splitOn '\n' := by
  have hfree : '\n' ∉ firstLine text :=
    fun hmem => absurd (List.mem_takeWhile_imp hmem) (by decide)
  have hsplit : firstLine text ++ text.dropWhile (· != '\n') = text :=
    List.takeWhile_append_dropWhile
  cases hrest : text.dropWhile (· != '\n') with
  | nil =>
      rw [hrest, List.append_nil] at hsplit
      rw [hsplit] at hfree ⊢
      exact List.splitOn_eq_singleton hfree
  | cons c rest =>
      have hne : text.dropWhile (· != '\n') ≠ [] := hrest ▸ List.cons_ne_nil c rest
      obtain rfl : c = '\n' := by simpa [hrest] using List.head_dropWhile_not (· != '\n') hne
      rw [hrest] at hsplit
      conv_lhs => rw [← hsplit]
      exact List.splitOn_append_cons_self_of_not_mem hfree rest

/-- The line with a given number of lines before it. The function that an error uses goes through
the text, and this says that it finds the piece of that number. -/
theorem lineAfter_eq (n : Nat) (text : List Char) :
    lineAfter n text = ((text.splitOn '\n')[n]?).getD [] := by
  induction n generalizing text with
  | zero =>
      rw [splitOn_eq]
      cases text <;> rfl
  | succ n ih =>
      rw [splitOn_eq]
      cases text with
      | nil => rfl
      | cons c text =>
          change lineAfter n (((c :: text).dropWhile (· != '\n')).drop 1) = _
          rw [ih, List.getElem?_cons_succ]
          cases (c :: text).dropWhile (· != '\n') with
          | nil => cases n <;> rfl
          | cons d rest => rfl

/-- The line of a place is what stands since the last line end and up to the next. -/
theorem splitOn_getElem? (before rest : List Char) :
    ((before ++ rest).splitOn '\n')[before.count '\n']? =
      some (lastLine before ++ firstLine rest) := by
  induction before with
  | nil =>
      rw [List.nil_append, splitOn_eq]
      rfl
  | cons c before ih =>
      rw [List.cons_append, List.splitOn_cons_eq_if_modifyHead]
      by_cases hmem : '\n' ∈ before
      · have hlast : lastLine (c :: before) = lastLine before := lastLine_append_of_mem [c] hmem
        have hcount : before.count '\n' ≠ 0 := mt List.count_eq_zero.1 (not_not.2 hmem)
        rw [hlast, List.count_cons]
        split
        · rw [List.getElem?_cons_succ, ih]
        · rw [Nat.add_zero, List.getElem?_modifyHead, if_neg hcount, ih]
      · have hlast : lastLine (c :: before) = lastLine [c] ++ before :=
          lastLine_append_of_not_mem [c] hmem
        have hcount : before.count '\n' = 0 := List.count_eq_zero.2 hmem
        rw [lastLine_of_not_mem hmem, hcount] at ih
        rw [hlast, List.count_cons, hcount]
        by_cases hc : c = '\n'
        · subst hc
          simp [lastLine, ih]
        · have hne : (c == '\n') = false := beq_eq_false_iff_ne.2 hc
          have hone : lastLine [c] = [c] := lastLine_of_not_mem (by simpa [eq_comm] using hc)
          rw [hne, if_neg Bool.false_ne_true, if_neg Bool.false_ne_true, Nat.add_zero,
            List.getElem?_modifyHead_zero, ih, hone]
          rfl

/-! ### Characters of one byte -/

/-- A text of characters of one byte each. -/
def Ascii (text : List Char) : Prop := ∀ c ∈ text, c.toNat < 128

/-- A text of characters of one byte each has as many bytes as characters. -/
theorem bytes_of_ascii (h : Ascii text) : bytes text = text.length := by
  induction text with
  | nil => rfl
  | cons c text ih =>
      obtain ⟨hc, htext⟩ := List.forall_mem_cons.1 h
      have hsize : c.utf8Size = 1 := Char.utf8Size_eq_one_iff.2 (Nat.le_of_lt_succ hc)
      rw [bytes_cons, hsize, ih htext, List.length_cons, Nat.add_comm]

/-- A last line of characters of one byte stays one when a text of such characters follows. -/
theorem ascii_lastLine_append (h : Ascii (lastLine before)) (htext : Ascii text) :
    Ascii (lastLine (before ++ text)) := by
  induction text generalizing before with
  | nil => rwa [List.append_nil]
  | cons c text ih =>
      obtain ⟨hc, htext⟩ := List.forall_mem_cons.1 htext
      rw [← List.singleton_append, ← List.append_assoc]
      refine ih ?_ htext
      rw [lastLine_concat]
      split
      · exact fun d hd => absurd hd List.not_mem_nil
      · intro d hd
        rcases List.mem_append.1 hd with hd | hd
        · exact h d hd
        · exact List.mem_singleton.1 hd ▸ hc

/-! ### Lines that are shown -/

/-- The carriage returns at the end of a line are behind any other character. -/
theorem rdropWhile_append_cons (p : Char → Bool) (hc : ¬p c = true) (before after : List Char) :
    (before ++ c :: after).rdropWhile p = before ++ c :: after.rdropWhile p := by
  induction after using List.reverseRecOn with
  | nil => exact List.rdropWhile_concat_neg p before c hc
  | append_singleton after d ih =>
      rw [← List.cons_append, ← List.append_assoc]
      by_cases hd : p d = true
      · rw [List.rdropWhile_concat_pos p _ d hd, List.rdropWhile_concat_pos p _ d hd, ih]
      · rw [List.rdropWhile_concat_neg p _ d hd, List.rdropWhile_concat_neg p _ d hd,
          List.append_assoc, List.cons_append]

/-- An error shows a line of a text with a caret below it. -/
structure SyntaxError.Shows (e : SyntaxError) (source : String) (line : List Char) : Prop where
  first : 1 ≤ e.line
  last : e.line ≤ (source.toList.splitOn '\n').length
  found : (source.toList.splitOn '\n')[e.line - 1]? = some line
  column : 1 ≤ e.column
  within : e.column - 1 ≤ bytes line
  excerpt : e.excerpt = String.ofList (line.rdropWhile (· == '\r') ++
    '\n' :: (List.replicate (e.column - 1) ' ' ++ ['^']))

/-- A fault in the middle of a text is shown with the line around it. The number of line ends
before it is the number of its line, and the bytes since the last one are its column. -/
theorem Fault.toError_shows {source : String} {f : Fault} (h : source.toList = before ++ rest)
    (hplace : f.position = .behind before) :
    (f.toError source).Shows source (lastLine before ++ firstLine rest) := by
  have hline : (f.toError source).line = 1 + before.count '\n' := congrArg Position.line hplace
  have hcolumn : (f.toError source).column = 1 + bytes (lastLine before) :=
    congrArg Position.column hplace
  have hfound : (source.toList.splitOn '\n')[(f.toError source).line - 1]? =
      some (lastLine before ++ firstLine rest) := by
    rw [hline, Nat.add_sub_cancel_left, h]
    exact splitOn_getElem? before rest
  constructor
  · exact hline ▸ Nat.le_add_right _ _
  · exact Nat.le_of_pred_lt (List.getElem?_eq_some_iff.1 hfound).1
  · exact hfound
  · exact hcolumn ▸ Nat.le_add_right _ _
  · rw [hcolumn, Nat.add_sub_cancel_left, bytes_append]
    exact Nat.le_add_right _ _
  · change excerptAt source (f.toError source).line (f.toError source).column = _
    rw [excerptAt, lineAfter_eq, hfound]
    rfl

end LSystem.Syntax
