import LSystem.Proofs.Number.Numeral
import LSystem.Proofs.Output.Canvas
import LSystem.Proofs.Output.Reach

/-!
# Documents without infinities

What holds of the numbers of a canvas is read off its document: the text of every number is part
of it, and its other pieces have neither an `f` nor an `N`, the letters by which the texts of
infinities and of the NaN are told.  So a document shows whether its drawing fits.
-/

namespace LSystem

open Syntax Eval Randomness Number

section Documents

variable {x : Float} {c : Char} {canvas : Canvas Float} {piece : String}

/-- The digits of a number, possibly after a sign. -/
def IsSignedNumeral (text : List Char) : Prop :=
  ∃ numeral, IsNumeral numeral ∧ (text = numeral ∨ text = '-' :: numeral)

/-- Neither letter by which the texts of infinities and of the NaN are told. -/
def Plain (text : List Char) : Prop := 'f' ∉ text ∧ 'N' ∉ text

instance (text : List Char) : Decidable (Plain text) :=
  inferInstanceAs (Decidable ('f' ∉ text ∧ 'N' ∉ text))

/-- A text of digits, points and minus signs has neither letter, since neither is one of these
characters. -/
theorem plain_of_forall {text : List Char} (h : ∀ c ∈ text, c.isDigit ∨ c = '.' ∨ c = '-') :
    Plain text := by
  constructor <;> intro hmem <;> exact absurd (h _ hmem) (by decide)

/-- A numeral, with a sign or without, consists of digits, a point and a minus sign and so has
neither letter. -/
theorem IsSignedNumeral.plain {text : List Char} (h : IsSignedNumeral text) : Plain text := by
  obtain ⟨numeral, hnumeral, htext⟩ := h
  have hnumerals : ∀ c ∈ numeral, c.isDigit ∨ c = '.' ∨ c = '-' := by
    cases hnumeral with
    | whole hne hdigits => exact fun c hc => .inl (hdigits c hc)
    | fraction hne hdigits hne' hplaces =>
        rw [List.forall_mem_append, List.forall_mem_cons]
        exact ⟨fun c hc => .inl (hdigits c hc), .inr (.inl rfl), fun c hc => .inl (hplaces c hc)⟩
  rcases htext with rfl | rfl
  · exact plain_of_forall hnumerals
  · exact plain_of_forall (List.forall_mem_cons.2 ⟨.inr (.inr rfl), hnumerals⟩)

/-- Finite numbers are written as numerals, and the infinities by their names. -/
theorem isSignedNumeral_svgNumber (hx : x.isFinite) : IsSignedNumeral (svgNumber x).toList := by
  have hbits := (isFinite_iff x).1 hx
  refine ⟨_, isNumeral_magnitude (magnitudeBits x), ?_⟩
  unfold svgNumber NumberFormat.write
  simp only
  rw [if_neg (by omega), if_neg (by omega), String.toList_ofList]
  cases isNegative x with
  | false => exact .inl rfl
  | true => exact .inr rfl

/-- The two infinities are written by their names, which is where an `f` can come from in a
document. -/
theorem svgNumber_infinity : svgNumber infinity = "inf" ∧ svgNumber (-infinity) = "-inf" := by
  decide +kernel

/-- Nothing but a NaN is written with its letter. Finite numbers are written in digits, and the
infinities have other letters. -/
theorem not_mem_svgNumber (hx : IsNumber x) : 'N' ∉ (svgNumber x).toList := by
  obtain ⟨hinfinity, hinfinity'⟩ := svgNumber_infinity
  rcases number_cases hx with hfinite | rfl | rfl
  · exact (isSignedNumeral_svgNumber hfinite).plain.2
  · rw [hinfinity]
    decide
  · rw [hinfinity']
    decide

/-- The text of a number that is no NaN has the name of infinity in it exactly if the number is
infinite. -/
theorem infix_svgNumber_iff (hx : IsNumber x) :
    "inf".toList <:+: (svgNumber x).toList ↔ ¬ x.isFinite := by
  obtain ⟨hinfinity, hinfinity'⟩ := svgNumber_infinity
  rcases number_cases hx with hfinite | rfl | rfl
  · have hplain := (isSignedNumeral_svgNumber hfinite).plain.1
    exact iff_of_false (fun h => hplain (h.subset (by decide))) (not_not_intro hfinite)
  · rw [hinfinity]
    exact iff_of_true (by decide) not_isFinite_infinity.1
  · rw [hinfinity']
    exact iff_of_true (by decide) not_isFinite_infinity.2

/-- A color is written as three decimal numbers between brackets and commas, so it has neither
letter. -/
theorem plain_svgColor (color : Rgb Nat) : Plain (svgColor color).toList := by
  have hnumber (n : Nat) : Plain (Nat.toDigits 10 n) :=
    plain_of_forall fun c hc => .inl (isDigit_of_mem_digitsOf hc)
  obtain ⟨hr, hr'⟩ := hnumber color.r
  obtain ⟨hg, hg'⟩ := hnumber color.g
  obtain ⟨hb, hb'⟩ := hnumber color.b
  constructor <;> simp [svgColor, hr, hr', hg, hg', hb, hb']

/-- The parts of the text of a line. -/
def CanvasLine.pieces (line : CanvasLine Float) : List String :=
  ["<line x1=\"", svgNumber line.start.x, "\" y1=\"", svgNumber line.start.y, "\" x2=\"",
    svgNumber line.finish.x, "\" y2=\"", svgNumber line.finish.y, "\" stroke=\"",
    svgColor line.color, "\" stroke-width=\"", svgNumber line.width,
    "\" stroke-linecap=\"round\"/>\n"]

/-- The parts of the text of a picture. -/
def Canvas.pieces (canvas : Canvas Float) : List String :=
  ["<svg xmlns=\"http://www.w3.org/2000/svg\" width=\"", svgNumber canvas.size.x, "\" height=\"",
    svgNumber canvas.size.y, "\" viewBox=\"0 0 ", svgNumber canvas.size.x, " ",
    svgNumber canvas.size.y, "\">\n"] ++ canvas.lines.flatMap CanvasLine.pieces ++ ["</svg>\n"]

/-- The text of a line is its parts joined, numbers and fixed pieces in turn. -/
theorem CanvasLine.text_eq (line : CanvasLine Float) : line.text = String.join line.pieces := by
  unfold text pieces
  simp only [String.join_cons, String.join_nil, String.append_empty, String.append_assoc]

/-- The text of a picture is its parts joined, those of the opening tag, of every line and of the
closing tag. -/
theorem Canvas.join_pieces (canvas : Canvas Float) : canvas.text = String.join canvas.pieces := by
  have hlines (lines : List (CanvasLine Float)) : String.join (lines.map CanvasLine.text) =
      String.join (lines.flatMap CanvasLine.pieces) := by
    induction lines with
    | nil => rfl
    | cons line rest ih =>
        rw [List.map_cons, List.flatMap_cons, String.join_cons, String.join_append, ih,
          CanvasLine.text_eq]
  have htext := canvas.text_eq
  rw [hlines] at htext
  unfold opening at htext
  unfold pieces
  simp only [String.join_append, String.join_cons, String.join_nil, String.append_empty,
    String.append_assoc] at htext ⊢
  exact htext

/-- The piece is the text of one of the numbers, or has neither letter. -/
inductive IsPiece (numbers : List Float) : String → Prop
  | number {x : Float} (hx : x ∈ numbers) : IsPiece numbers (svgNumber x)
  | plain {piece : String} (h : Plain piece.toList) : IsPiece numbers piece

theorem IsPiece.mono {numbers others : List Float} (h : IsPiece numbers piece)
    (hsub : numbers ⊆ others) : IsPiece others piece := by
  cases h with
  | number hx => exact .number (hsub hx)
  | plain h => exact .plain h

/-- Every part of the text of a line is the text of one of its five numbers or a fixed piece
without either letter. -/
theorem CanvasLine.isPiece (line : CanvasLine Float) :
    ∀ piece ∈ line.pieces, IsPiece line.numbers piece := by
  unfold pieces
  simp only [List.forall_mem_cons]
  exact ⟨.plain (by decide), .number (.head _), .plain (by decide), .number (.tail _ (.head _)),
    .plain (by decide), .number (.tail _ (.tail _ (.head _))), .plain (by decide),
    .number (.tail _ (.tail _ (.tail _ (.head _)))), .plain (by decide),
    .plain (plain_svgColor line.color), .plain (by decide),
    .number (.tail _ (.tail _ (.tail _ (.tail _ (.head _))))), .plain (by decide),
    List.forall_mem_nil _⟩

/-- Every part of the text of a picture is the text of one of its numbers, of the size or of a
line, or has neither letter. -/
theorem Canvas.isPiece (canvas : Canvas Float) :
    ∀ piece ∈ canvas.pieces, IsPiece canvas.numbers piece := by
  have hwidth : IsPiece canvas.numbers (svgNumber canvas.size.x) := .number (.head _)
  have hheight : IsPiece canvas.numbers (svgNumber canvas.size.y) := .number (.tail _ (.head _))
  unfold pieces
  simp only [List.forall_mem_append, List.forall_mem_cons, List.forall_mem_flatMap]
  refine ⟨⟨⟨.plain (by decide), hwidth, .plain (by decide), hheight, .plain (by decide), hwidth,
    .plain (by decide), hheight, .plain (by decide), List.forall_mem_nil _⟩, ?_⟩,
    .plain (by decide), List.forall_mem_nil _⟩
  intro line hline piece hpiece
  have hsub : line.numbers ⊆ canvas.numbers := fun x hx =>
    .tail _ (.tail _ (List.mem_flatMap.2 ⟨line, hline, hx⟩))
  exact (line.isPiece piece hpiece).mono hsub

/-- Every number of a picture is written: its text is among the parts, whether it belongs to the
size or to a line. -/
theorem Canvas.svgNumber_mem_pieces (hx : x ∈ canvas.numbers) : svgNumber x ∈ canvas.pieces := by
  simp only [numbers, List.mem_cons, List.mem_flatMap] at hx
  simp only [pieces, List.mem_append, List.mem_flatMap]
  rcases hx with rfl | rfl | ⟨line, hline, hx⟩
  · exact .inl (.inl (.tail _ (.head _)))
  · exact .inl (.inl (.tail _ (.tail _ (.tail _ (.head _)))))
  · refine .inl (.inr ⟨line, hline, ?_⟩)
    simp only [CanvasLine.numbers, List.mem_cons, List.not_mem_nil, or_false] at hx
    rcases hx with rfl | rfl | rfl | rfl | rfl <;> simp [CanvasLine.pieces]

/-- A letter that no other piece has is in a document if it is in one of its numbers. -/
theorem Canvas.mem_text (hletter : c = 'f' ∨ c = 'N') (hmem : c ∈ canvas.text.toList) :
    ∃ x ∈ canvas.numbers, c ∈ (svgNumber x).toList := by
  rw [canvas.join_pieces, String.toList_join] at hmem
  obtain ⟨piece, hpiece, hc⟩ := List.mem_flatMap.1 hmem
  cases canvas.isPiece piece hpiece with
  | number hx => exact ⟨_, hx, hc⟩
  | plain h =>
      rcases hletter with rfl | rfl
      · exact absurd hc h.1
      · exact absurd hc h.2

/-- The text of a number of a picture stands in the document without a break, so an infinite
number can be seen there. -/
theorem Canvas.infix_text (hx : x ∈ canvas.numbers) :
    (svgNumber x).toList <:+: canvas.text.toList := by
  rw [canvas.join_pieces, String.toList_join, List.flatMap_def]
  exact List.infix_of_mem_flatten (List.mem_map_of_mem (svgNumber_mem_pieces hx))

/-- The document of a picture without NaN tells whether all its numbers are finite. -/
theorem Canvas.infix_text_iff (h : ∀ x ∈ canvas.numbers, IsNumber x) :
    "inf".toList <:+: canvas.text.toList ↔ ¬ ∀ x ∈ canvas.numbers, x.isFinite := by
  constructor
  · intro hpart hfinite
    obtain ⟨x, hx, hletter⟩ := mem_text (.inl rfl) (hpart.subset (by decide : 'f' ∈ "inf".toList))
    exact (isSignedNumeral_svgNumber (hfinite x hx)).plain.1 hletter
  · intro hnot
    obtain ⟨x, hx⟩ := not_forall.1 hnot
    obtain ⟨hmem, hinfinite⟩ := not_forall.1 hx
    exact ((infix_svgNumber_iff (h x hmem)).2 hinfinite).trans (infix_text hmem)

end Documents

/-- **A document shows whether its drawing fits.**  Whatever was rendered, no document has a NaN
in it, and it is free of infinities exactly if the drawing is no larger and its lines no wider
than what fits.  Then all numbers of the canvas are finite, and each is written as a numeral. -/
theorem svg_overflows_iff {config : RenderConfig} {spec : Specification} {c : Context}
    {u : List Symbol} {d : Drawing Float} (h : render config spec c u = .ok d) :
    let canvas := SvgConfig.standard.canvas nearestNat d
    let document := (d.svg .standard).toList
    ¬ "NaN".toList <:+: document ∧ ("inf".toList <:+: document ↔ ¬ d.Fits) ∧
      ((∀ x ∈ canvas.numbers, x.isFinite) ↔ d.Fits) ∧
      (d.Fits → ∀ x ∈ canvas.numbers, IsSignedNumeral (svgNumber x).toList) := by
  intro canvas document
  obtain ⟨hnumbers, hfinite⟩ := (isBoxed_of_render_eq_ok h).numbers
  refine ⟨fun hnan => ?_, ?_, hfinite, fun hfits x hx => ?_⟩
  · obtain ⟨x, hx, hletter⟩ := canvas.mem_text (.inr rfl)
      (hnan.subset (by decide : 'N' ∈ "NaN".toList))
    exact not_mem_svgNumber (hnumbers x hx) hletter
  · rw [← hfinite]
    exact canvas.infix_text_iff hnumbers
  · exact isSignedNumeral_svgNumber (hfinite.2 hfits x hx)

/-- Three strides are as wide as they are long and still fit. -/
theorem strides_svg : ∃ d, render .standard strides (strides.context (.ofSeed 7))
      [.named "east", .push, .named "east", .pop, .named "east"] = .ok d ∧
    ¬ "NaN".toList <:+: (d.svg .standard).toList ∧
    ¬ "inf".toList <:+: (d.svg .standard).toList := by
  have hfits : (render .standard strides (strides.context (.ofSeed 7))
      [.named "east", .push, .named "east", .pop, .named "east"]).toOption.any
        (fun d => decide d.Fits) = true := by
    decide +kernel
  obtain ⟨d, hd, hdecide⟩ := exists_of_any hfits
  obtain ⟨hnan, hinf, -⟩ := svg_overflows_iff hd
  exact ⟨d, hd, hnan, fun h => hinf.1 h (of_decide_eq_true hdecide)⟩

/-- One step to the east, by a line that is wider than what fits. -/
def broad : Specification where
  start := [.named "F"]
  length := .num 1
  width := .num 1
  color := .black
  iterate := .num 0
  rules := #[]
  index := .empty
  transforms := ⟨[("F", .shift (.num 1) (.num 0) ⟨.num 1e307, .black⟩)]⟩
  definitions := []

/-- The drawing is finite, but its line comes out infinitely wide. Its width is a finite double,
and the product with the scale of the canvas is not. -/
theorem broad_overflows : ∃ d, render .standard broad (broad.context (.ofSeed 7)) broad.start =
      .ok d ∧ d.IsFinite ∧
    (∃ x ∈ (SvgConfig.standard.canvas nearestNat d).numbers, ¬ x.isFinite) ∧
    "inf".toList <:+: (d.svg .standard).toList := by
  have hwidth : (render .standard broad (broad.context (.ofSeed 7)) broad.start).toOption.any
      (fun d => decide (∃ x ∈ (SvgConfig.standard.canvas nearestNat d).numbers, x = infinity)) =
        true := by
    decide +kernel
  obtain ⟨d, hd, hdecide⟩ := exists_of_any hwidth
  obtain ⟨_, hmem, rfl⟩ := of_decide_eq_true hdecide
  have hpart : "inf".toList <:+: (d.svg .standard).toList := by
    rw [← svgNumber_infinity.1]
    exact Canvas.infix_text hmem
  exact ⟨d, hd, (isBoxed_of_render_eq_ok hd).finite, ⟨_, hmem, not_isFinite_infinity.1⟩, hpart⟩

end LSystem
