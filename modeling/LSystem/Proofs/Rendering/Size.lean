import LSystem.Proofs.Rendering.Trail
import Mathlib.Data.List.Forall2

/-!
# The size of a drawing

How many lines a drawing has is told by the string and by which names turn the turtle; how
complex it is, by the string alone.  There is one line for every name that does not turn, in
the order of the names, and the complexity adds up the branches that are open at each name.
Neither the turtle nor any number has a part in it, so two drawings of one string by one
specification are equally large.
-/

namespace LSystem

open Syntax Eval Randomness

/-! ### Counting symbols -/

/-- Whether a symbol is a name. -/
def Syntax.Symbol.isName : Symbol → Bool
  | .named _ => true
  | .push | .pop => false

/-- Whether a symbol is a name with a translation for its transform, or with none, so that the
default moves the turtle. -/
def Specification.translates (spec : Specification) : Symbol → Bool
  | .named name =>
    match spec.transforms.find? name with
    | none | some (.forward _ _) | some (.shift _ _ _) => true
    | some (.rotate _ _) => false
  | .push | .pop => false

/-- The places of a string with a symbol of a kind, in order. -/
def places (kind : Symbol → Bool) (u : List Symbol) : List Nat :=
  (List.range u.length).filter fun p => u[p]?.any kind

/-- The branches that are open at the names of a string, all added up. -/
def openAtNames (u : List Symbol) : Int :=
  ((places Symbol.isName u).map fun p => level (u.take p)).sum

variable {spec : Specification} {kind : Symbol → Bool} {u : List Symbol} {symbol : Symbol}

/-- The symbols that draw are the names that translate the turtle, whether by a transform of
theirs or by the default motion. -/
theorem Specification.draws_eq_translates (spec : Specification) :
    spec.draws = spec.translates := by
  funext symbol
  cases symbol with
  | push => rfl
  | pop => rfl
  | named name =>
      rw [draws, translates, motion]
      rcases spec.transforms.find? name with _ | ⟨_ | _ | _⟩ <;> rfl

/-- One more symbol adds one place at the end if it is of the kind, and none otherwise, so what is
said of places goes by induction from the right. -/
theorem places_concat : places kind (u ++ [symbol]) =
    places kind u ++ if kind symbol then [u.length] else [] := by
  unfold places
  rw [List.length_append, List.length_singleton, List.range_succ, List.filter_append]
  congr 1
  · refine List.filter_congr fun p hp => ?_
    rw [List.getElem?_append_left (List.mem_range.1 hp)]
  · rw [List.filter_singleton, List.getElem?_concat_length, Option.any_some, cond_eq_ite]

theorem lt_length_of_mem_places {p : Nat} (h : p ∈ places kind u) : p < u.length :=
  List.mem_range.1 (List.mem_filter.1 h).1

/-- One more symbol adds the branches that are open before it, if it is a name, and nothing if it
is a bracket. -/
theorem openAtNames_concat : openAtNames (u ++ [symbol]) =
    openAtNames u + if symbol.isName then level u else 0 := by
  unfold openAtNames
  rw [places_concat, List.map_append, List.sum_append]
  congr 1
  · refine congrArg List.sum (List.map_congr_left fun p hp => ?_)
    rw [List.take_append_of_le_length (lt_length_of_mem_places hp).le]
  · split
    · simp
    · rfl

/-! ### Lines and the symbols that drew them -/

/-- The line that the symbol at a place draws: the one to which its motion takes the turtle from
where the symbols before have left it. -/
def DrawnAt (config : RenderConfig) (spec : Specification) (c : Context) (u : List Symbol) (p : Nat)
    (line : Segment Float) : Prop :=
  ∃ name walk pose g g', u[p]? = some (.named name) ∧
    Follows config spec c (.start config) (u.take p) c.generator walk g ∧
      Moves config.epsilon (walk.context c).scope walk.pose (spec.motion name) g pose (some line) g'

variable {config : RenderConfig} {c : Context} {walk next last : Walk} {g g' : Generator}

/-- What comes behind a place changes nothing about its line. The line is told by the symbols up
to the place. -/
theorem DrawnAt.append {p : Nat} {line : Segment Float} (h : DrawnAt config spec c u p line)
    (hp : p < u.length) (v : List Symbol) : DrawnAt config spec c (u ++ v) p line := by
  obtain ⟨name, walk, pose, g, g', hname, hfollows, hmoves⟩ := h
  refine ⟨name, walk, pose, g, g', ?_, ?_, hmoves⟩
  · rw [List.getElem?_append_left hp, hname]
  · rw [List.take_append_of_le_length hp.le]
    exact hfollows

/-- A symbol behind the start string adds its line, if it translates, and to the complexity the
branches that are open, if it is a name. -/
theorem Visits.adds (hu : Follows config spec c (.start config) u c.generator walk g)
    (h : Visits config spec c walk symbol g next g') :
    (∃ lines : List (Segment Float),
      next.drawing.segments.toList = walk.drawing.segments.toList ++ lines ∧
        List.Forall₂ (DrawnAt config spec c (u ++ [symbol]))
          (if spec.translates symbol then [u.length] else []) lines) ∧
      (next.drawing.complexity : Int) =
        walk.drawing.complexity + if symbol.isName then level u else 0 := by
  have hdepth := hu.depth_start
  cases h with
  | push hroom => exact ⟨⟨[], (List.append_nil _).symm, .nil⟩, (Int.add_zero _).symm⟩
  | pop hsaved => exact ⟨⟨[], (List.append_nil _).symm, .nil⟩, (Int.add_zero _).symm⟩
  | named hmoves hfinite =>
      rename_i name pose line
      have hsome := hmoves.isSome_line
      have hdraws : (spec.motion name).draws = spec.translates (.named name) :=
        congrFun spec.draws_eq_translates (.named name)
      rw [hdraws] at hsome
      constructor
      · cases line with
        | none =>
            refine ⟨[], (List.append_nil _).symm, ?_⟩
            rw [← hsome]
            exact .nil
        | some line =>
            refine ⟨[line], Array.toList_push .., ?_⟩
            rw [← hsome]
            refine .cons ⟨name, walk, pose, g, g', List.getElem?_concat_length, ?_, hmoves⟩ .nil
            rw [List.take_left]
            exact hu
      · cases line <;> simp [Walk.moveTo, Walk.turnTo, Walk.count, Drawing.addSegment,
          Symbol.isName, ← hdepth]

/-- The lines of a walk are those of its names that translate, and its complexity adds up the
branches that are open at its names. -/
theorem Follows.size : ∀ {last : Walk} {g : Generator},
    Follows config spec c (.start config) u c.generator last g →
      List.Forall₂ (DrawnAt config spec c u) (places spec.translates u)
          last.drawing.segments.toList ∧
        (last.drawing.complexity : Int) = openAtNames u := by
  induction u using List.reverseRecOn with
  | nil =>
      intro last g h
      cases h
      exact ⟨.nil, rfl⟩
  | append_singleton u symbol ih =>
      intro last g h
      obtain ⟨walk, middle, hu, hsymbol⟩ := follows_append_iff.1 h
      obtain ⟨hlines, hcomplexity⟩ := ih hu
      obtain ⟨⟨lines, hsegments, hnew⟩, hadds⟩ := Visits.adds hu (follows_singleton_iff.1 hsymbol)
      constructor
      · rw [places_concat, hsegments]
        refine List.rel_append ?_ hnew
        have hplaces := (List.forall₂_and_left _ _).2 ⟨fun p => lt_length_of_mem_places, hlines⟩
        exact hplaces.imp fun p line hdrawn => hdrawn.2.append hdrawn.1 [symbol]
      · rw [openAtNames_concat, hadds, hcomplexity]

/-- **The size of a drawing is told by the symbols.**  A drawing has one line for each name of the
string with a translation for its transform or with none, in the order of the names, each drawn
by the motion of its name, and no line for turns and brackets.  Its complexity adds up the
branches that are open at all names, turns among them.  So every other drawing of the string by
the specification, whatever the configuration and the context, has as many lines and the same
complexity. -/
theorem size_of_symbols {d : Drawing Float} (h : render config spec c u = .ok d) :
    d.segments.size = u.countP spec.translates ∧
      List.Forall₂ (DrawnAt config spec c u) (places spec.translates u) d.segments.toList ∧
      (d.complexity : Int) = openAtNames u ∧
      ∀ config' c' d', render config' spec c' u = .ok d' →
        d'.segments.size = d.segments.size ∧ d'.complexity = d.complexity := by
  have hsize {config : RenderConfig} {c : Context} {d : Drawing Float}
      (h : render config spec c u = .ok d) : d.segments.size = u.countP spec.translates ∧
        List.Forall₂ (DrawnAt config spec c u) (places spec.translates u) d.segments.toList ∧
          (d.complexity : Int) = openAtNames u := by
    obtain ⟨last, g, hfollows, rfl⟩ := render_eq_ok_iff.1 h
    refine ⟨?_, hfollows.size⟩
    rw [hfollows.size_segments, Specification.lines, spec.draws_eq_translates]
  obtain ⟨hcount, hlines, hcomplexity⟩ := hsize h
  refine ⟨hcount, hlines, hcomplexity, fun config' c' d' h' => ?_⟩
  obtain ⟨hcount', -, hcomplexity'⟩ := hsize h'
  exact ⟨hcount'.trans hcount.symm, by omega⟩

/-- Steps to the east, and turns that lead nowhere. -/
def garland : Specification where
  start := []
  length := .num 1
  width := .num 1
  color := .black
  iterate := .num 1
  rules := #[]
  index := .empty
  transforms := ⟨[("step", .shift (.call "random" [.num 3]) (.num 0) ⟨.num 1, .black⟩),
    ("turn", .rotate (.num 90) .deg)]⟩
  definitions := []

/-- The theorem at steps and turns in two open branches: two lines, one for each step, and the
complexity of the three names in the branches. -/
theorem garland_size : ∃ d, render .standard garland (garland.context (.ofSeed 7))
      [.named "step", .push, .named "turn", .named "step", .push, .named "turn"] = .ok d ∧
    d.segments.size = 2 ∧ d.complexity = 4 := by
  have hok : (render .standard garland (garland.context (.ofSeed 7))
      [.named "step", .push, .named "turn", .named "step", .push, .named "turn"]).isOk = true := by
    decide +kernel
  obtain ⟨d, hd⟩ := exists_of_isOk hok
  obtain ⟨hsize, -, hcomplexity, -⟩ := size_of_symbols hd
  exact ⟨d, hd, hsize, Int.ofNat_inj.1 hcomplexity⟩

end LSystem
