import LSystem.Proofs.Eval.Answer
import LSystem.Rendering

/-!
# Walks

What a motion does depends on the pose of the turtle and on the number of open
branches, not on what was drawn before.  `Moves` says so of one motion, `Visits`
of one symbol and `Follows` of a string; none of them mentions the place of a
symbol, which only an error tells.  A computation of the walk that succeeds is
one of these relations, and what is proved of walks goes by induction on
`Follows`.

A walk adds its lines to the drawing that it finds.  `Follows.frame` gives the
lines, one for each symbol that draws, and says that the same walk over any
other drawing adds the same ones.
-/

namespace LSystem

open Syntax Eval Randomness

/-! ### Motions -/

/-- What a motion does to a turtle at a pose: the pose that it leads to and the
line that it draws, if it is no turn. -/
inductive Moves (epsilon : Float) (s : Scope) (pose : Pose) :
    Motion Stroke → Generator → Pose → Option (Segment Float) → Generator → Prop
  | turn {g g' : Generator} {angle : Expr} {unit : AngleUnit} {value : Float}
      (hangle : Answers (s.evaluate angle) g value g') :
      Moves epsilon s pose (.rotate angle unit) g (pose.rotate (unit.toRadians value) epsilon)
        none g'
  | advance {g middle g' : Generator} {distance : Expr} {stroke : Stroke} {length width : Float}
      {color : Rgb Float} (hdistance : Answers (s.evaluate distance) g length middle)
      (hstroke : Answers (evaluateStroke s stroke) middle (width, color) g') :
      Moves epsilon s pose (.forward distance stroke) g (pose.advance length epsilon)
        (some ⟨pose.position, (pose.advance length epsilon).position, width, color⟩) g'
  | shift {g g₁ g₂ g' : Generator} {dx dy : Expr} {stroke : Stroke} {x y width : Float}
      {color : Rgb Float} (hx : Answers (s.evaluate dx) g x g₁)
      (hy : Answers (s.evaluate dy) g₁ y g₂)
      (hstroke : Answers (evaluateStroke s stroke) g₂ (width, color) g') :
      Moves epsilon s pose (.shift dx dy stroke) g (pose.translate ⟨x, y⟩ epsilon)
        (some ⟨pose.position, (pose.translate ⟨x, y⟩ epsilon).position, width, color⟩) g'

/-- The walk with the turtle at a new pose, and with a line to it if there is
one. -/
def Walk.moveTo (walk : Walk) (pose : Pose) : Option (Segment Float) → Walk
  | none => walk.turnTo pose
  | some line => { walk with pose, drawing := walk.drawing.addSegment line }

variable {config : RenderConfig} {spec : Specification} {c : Context} {walk next last : Walk}
  {g middle g' : Generator} {symbol : Symbol} {u v : List Symbol}

/-- Performing a motion succeeds exactly by one of the three moves, and the walk after it is the
walk before with the turtle moved and the line of the motion added. -/
theorem answers_perform_iff {epsilon : Float} {s : Scope} {motion : Motion Stroke} :
    Answers (walk.perform epsilon s motion) g next g' ↔
      ∃ pose line, Moves epsilon s walk.pose motion g pose line g' ∧
        next = walk.moveTo pose line := by
  constructor
  · intro h
    cases motion with
    | rotate angle unit =>
        obtain ⟨value, middle, hangle, hpure⟩ := answers_bind_iff.1 h
        obtain ⟨rfl, rfl⟩ := answers_pure_iff.1 hpure
        exact ⟨_, _, .turn hangle, rfl⟩
    | forward distance stroke =>
        obtain ⟨length, middle, hdistance, hrest⟩ := answers_bind_iff.1 h
        obtain ⟨⟨width, color⟩, g₁, hstroke, hpure⟩ := answers_bind_iff.1 hrest
        obtain ⟨rfl, rfl⟩ := answers_pure_iff.1 hpure
        exact ⟨_, _, .advance hdistance hstroke, rfl⟩
    | shift dx dy stroke =>
        obtain ⟨x, g₁, hx, hrest⟩ := answers_bind_iff.1 h
        obtain ⟨y, g₂, hy, hrest⟩ := answers_bind_iff.1 hrest
        obtain ⟨⟨width, color⟩, g₃, hstroke, hpure⟩ := answers_bind_iff.1 hrest
        obtain ⟨rfl, rfl⟩ := answers_pure_iff.1 hpure
        exact ⟨_, _, .shift hx hy hstroke, rfl⟩
  · intro h
    obtain ⟨pose, line, hmoves, rfl⟩ := h
    cases hmoves with
    | turn hangle =>
        exact answers_bind_iff.2 ⟨_, _, hangle, answers_pure_iff.2 ⟨rfl, rfl⟩⟩
    | advance hdistance hstroke =>
        refine answers_bind_iff.2 ⟨_, _, hdistance, ?_⟩
        exact answers_bind_iff.2 ⟨_, _, hstroke, answers_pure_iff.2 ⟨rfl, rfl⟩⟩
    | shift hx hy hstroke =>
        refine answers_bind_iff.2 ⟨_, _, hx, answers_bind_iff.2 ⟨_, _, hy, ?_⟩⟩
        exact answers_bind_iff.2 ⟨_, _, hstroke, answers_pure_iff.2 ⟨rfl, rfl⟩⟩

/-! ### Symbols -/

/-- What a symbol does to a walk. -/
inductive Visits (config : RenderConfig) (spec : Specification) (c : Context) (walk : Walk) :
    Symbol → Generator → Walk → Generator → Prop
  | push {g : Generator} (hroom : walk.depth < config.maxDepth) :
      Visits config spec c walk .push g { walk with saved := walk.pose :: walk.saved } g
  | pop {g : Generator} {pose : Pose} {saved : List Pose} (hsaved : walk.saved = pose :: saved) :
      Visits config spec c walk .pop g { walk with pose, saved } g
  | named {g g' : Generator} {name : String} {pose : Pose} {line : Option (Segment Float)}
      (hmoves : Moves config.epsilon (walk.context c).scope walk.pose (spec.motion name) g pose
        line g') (hfinite : pose.isFinite) :
      Visits config spec c walk (.named name) g (walk.count.moveTo pose line) g'

theorem pose_moveTo (walk : Walk) (pose : Pose) (line : Option (Segment Float)) :
    (walk.moveTo pose line).pose = pose := by
  cases line with
  | none => rfl
  | some line => rfl

theorem saved_moveTo (walk : Walk) (pose : Pose) (line : Option (Segment Float)) :
    (walk.moveTo pose line).saved = walk.saved := by
  cases line with
  | none => rfl
  | some line => rfl

/-- Visiting a symbol succeeds exactly as `Visits` says, which no longer mentions the place of the
symbol. -/
theorem answers_visit_iff {i : Nat} :
    Answers (walk.visit config spec c i symbol) g next g' ↔
      Visits config spec c walk symbol g next g' := by
  constructor
  · intro h
    cases symbol with
    | push =>
        rw [Walk.visit] at h
        split at h
        · exact absurd h not_answers_throw
        · rename_i hroom
          obtain ⟨rfl, rfl⟩ := answers_pure_iff.1 h
          exact .push (Nat.lt_of_not_le hroom)
    | pop =>
        rw [Walk.visit] at h
        split at h
        · exact absurd h not_answers_throw
        · rename_i pose saved hsaved
          obtain ⟨rfl, rfl⟩ := answers_pure_iff.1 h
          exact .pop hsaved
    | named name =>
        obtain ⟨moved, middle, hperform, hrest⟩ := answers_bind_iff.1 h
        obtain ⟨pose, line, hmoves, rfl⟩ := answers_perform_iff.1 (answers_adapt_iff.1 hperform)
        rw [pose_moveTo] at hrest
        split at hrest
        · rename_i hfinite
          obtain ⟨rfl, rfl⟩ := answers_pure_iff.1 hrest
          exact .named hmoves hfinite
        · exact absurd hrest not_answers_throw
  · intro h
    cases h with
    | push hroom =>
        rw [Walk.visit, if_neg (Nat.not_le_of_lt hroom)]
        exact answers_pure_iff.2 ⟨rfl, rfl⟩
    | pop hsaved =>
        rw [Walk.visit, hsaved]
        exact answers_pure_iff.2 ⟨rfl, rfl⟩
    | named hmoves hfinite =>
        rename_i name pose line
        have hperform : Answers (walk.count.perform config.epsilon (walk.context c).scope
            (spec.motion name)) g (walk.count.moveTo pose line) g' :=
          answers_perform_iff.2 ⟨pose, line, hmoves, rfl⟩
        refine answers_bind_iff.2 ⟨_, _, answers_adapt_iff.2 hperform, ?_⟩
        rw [pose_moveTo, if_pos hfinite]
        exact answers_pure_iff.2 ⟨rfl, rfl⟩

/-! ### Strings -/

/-- What a string does to a walk. -/
inductive Follows (config : RenderConfig) (spec : Specification) (c : Context) :
    Walk → List Symbol → Generator → Walk → Generator → Prop
  | nil (walk : Walk) (g : Generator) : Follows config spec c walk [] g walk g
  | cons {walk next last : Walk} {g middle g' : Generator} {symbol : Symbol} {rest : List Symbol}
      (hvisits : Visits config spec c walk symbol g next middle)
      (hrest : Follows config spec c next rest middle last g') :
      Follows config spec c walk (symbol :: rest) g last g'

/-- Following a string succeeds exactly as `Follows` says, by induction on the string; the place
that is counted along matters to errors only. -/
theorem answers_follow_iff : ∀ {i : Nat} {walk : Walk} {g : Generator},
    Answers (Walk.follow config spec c i u walk) g last g' ↔
      Follows config spec c walk u g last g' := by
  induction u with
  | nil =>
      intro i walk g
      constructor
      · intro h
        obtain ⟨rfl, rfl⟩ := answers_pure_iff.1 h
        exact .nil _ _
      · intro h
        cases h
        exact answers_pure_iff.2 ⟨rfl, rfl⟩
  | cons symbol rest ih =>
      intro i walk g
      constructor
      · intro h
        obtain ⟨next, middle, hvisit, hrest⟩ := answers_bind_iff.1 h
        exact .cons (answers_visit_iff.1 hvisit) (ih.1 hrest)
      · intro h
        cases h with
        | cons hvisits hrest =>
            exact answers_bind_iff.2 ⟨_, _, answers_visit_iff.2 hvisits, ih.2 hrest⟩

/-- Following two strings one behind the other is following the first, and then the second from
where the first has led. -/
theorem follows_append_iff : Follows config spec c walk (u ++ v) g last g' ↔
    ∃ next middle, Follows config spec c walk u g next middle ∧
      Follows config spec c next v middle last g' := by
  constructor
  · intro h
    induction u generalizing walk g with
    | nil => exact ⟨walk, g, .nil walk g, h⟩
    | cons symbol rest ih =>
        cases h with
        | cons hvisits hrest =>
            obtain ⟨next, middle, hu, hv⟩ := ih hrest
            exact ⟨next, middle, .cons hvisits hu, hv⟩
  · intro h
    obtain ⟨next, middle, hu, hv⟩ := h
    induction hu with
    | nil walk g => exact hv
    | cons hvisits hrest ih => exact .cons hvisits (ih hv)

theorem follows_singleton_iff : Follows config spec c walk [symbol] g next g' ↔
    Visits config spec c walk symbol g next g' := by
  constructor
  · intro h
    cases h with
    | cons hvisits hrest =>
        cases hrest
        exact hvisits
  · intro h
    exact .cons h (.nil _ _)

/-- What every symbol keeps, a string keeps. This is the induction on the string once and for all;
every invariant of a walk is shown for one symbol only. -/
theorem Follows.keeps {P : Walk → Prop} (hkeeps : ∀ {walk next : Walk} {g g' : Generator}
      {symbol : Symbol}, Visits config spec c walk symbol g next g' → P walk → P next)
    (h : Follows config spec c walk u g last g') (hwalk : P walk) : P last := by
  induction h with
  | nil walk g => exact hwalk
  | cons hvisits hrest ih => exact ih (hkeeps hvisits hwalk)

/-- A drawing is what a walk along the whole string has drawn. So all that is shown of walks holds
of drawings. -/
theorem render_eq_ok_iff {d : Drawing Float} : render config spec c u = .ok d ↔
    ∃ last g, Follows config spec c (.start config) u c.generator last g ∧ d = last.drawing := by
  unfold render
  constructor
  · intro h
    match hrun : (Walk.follow config spec c 0 u (.start config)).run.run c.generator with
    | (.ok last, g) =>
        rw [hrun] at h
        cases h
        exact ⟨last, g, answers_follow_iff.1 hrun, rfl⟩
    | (.error e, g) =>
        rw [hrun] at h
        cases h
  · intro h
    obtain ⟨last, g, hfollows, rfl⟩ := h
    have hrun : (Walk.follow config spec c 0 u (.start config)).run.run c.generator =
        (.ok last, g) := answers_follow_iff.2 hfollows
    rw [hrun]
    rfl

/-! ### What a walk adds to a drawing -/

/-- A box grown to hold both ends of lines. -/
def BoundingBox.coverAll (box : BoundingBox Float) (lines : List (Segment Float)) :
    BoundingBox Float :=
  lines.foldl (fun box line => (box.cover line.start).cover line.finish) box

/-- A drawing with lines at its end and with more complexity. -/
def Drawing.extend (d : Drawing Float) (lines : List (Segment Float)) (complexity : Nat) :
    Drawing Float where
  segments := d.segments ++ lines.toArray
  bounds := d.bounds.coverAll lines
  complexity := d.complexity + complexity

theorem Drawing.extend_nil (d : Drawing Float) : d.extend [] 0 = d := by
  cases d
  simp [Drawing.extend, BoundingBox.coverAll]

/-- Adding lines twice is adding all of them at once, with both complexities. -/
theorem Drawing.extend_extend (d : Drawing Float) (lines more : List (Segment Float))
    (m n : Nat) : (d.extend lines m).extend more n = d.extend (lines ++ more) (m + n) := by
  simp [Drawing.extend, BoundingBox.coverAll, Nat.add_assoc]

/-- Whether a motion draws a line. -/
def Syntax.Motion.draws {σ : Type} : Motion σ → Bool
  | .rotate _ _ => false
  | .forward _ _ | .shift _ _ _ => true

/-- Whether a symbol draws a line. -/
def Specification.draws (spec : Specification) : Symbol → Bool
  | .named name => (spec.motion name).draws
  | .push | .pop => false

/-- The number of lines that a string draws. -/
def Specification.lines (spec : Specification) (u : List Symbol) : Nat := u.countP spec.draws

theorem Specification.lines_append (spec : Specification) (u v : List Symbol) :
    spec.lines (u ++ v) = spec.lines u + spec.lines v := List.countP_append

/-- The sum, over the names of a string, of the number of branches that are open
there, when so many are open before the string. -/
def openBranches : Nat → List Symbol → Nat
  | _, [] => 0
  | depth, .push :: rest => openBranches (depth + 1) rest
  | depth, .pop :: rest => openBranches (depth - 1) rest
  | depth, .named _ :: rest => depth + openBranches depth rest

/-- The same walk over another drawing. -/
def Walk.over (walk : Walk) (drawing : Drawing Float) : Walk := { walk with drawing }

/-- Whether a move draws a line is told by the motion alone, not by the scope, the turtle or the
draws. -/
theorem Moves.isSome_line {epsilon : Float} {s : Scope} {pose moved : Pose}
    {motion : Motion Stroke} {line : Option (Segment Float)}
    (h : Moves epsilon s pose motion g moved line g') : line.isSome = motion.draws := by
  cases h with
  | turn hangle => rfl
  | advance hdistance hstroke => rfl
  | shift hx hy hstroke => rfl

/-- A counted move over a larger drawing is the same move with its line and its complexity added
to that drawing: the turtle does not look at what is drawn. -/
theorem count_moveTo_over (walk : Walk) (pose : Pose) (line : Option (Segment Float))
    (d : Drawing Float) :
    (walk.over d).count.moveTo pose line =
      (walk.count.moveTo pose line).over (d.extend line.toList walk.depth) := by
  cases line with
  | none => simp [Walk.moveTo, Walk.turnTo, Walk.count, Walk.over, Walk.depth, Drawing.extend,
      BoundingBox.coverAll]
  | some line => simp [Walk.moveTo, Walk.count, Walk.over, Walk.depth, Drawing.extend,
      BoundingBox.coverAll, Drawing.addSegment]

/-- A symbol adds lines to the drawing, one if it draws and none if it does not,
and it adds the same lines to any other drawing. -/
theorem Visits.frame (h : Visits config spec c walk symbol g next g') :
    ∃ lines : List (Segment Float), lines.length = spec.lines [symbol] ∧
      next.drawing = walk.drawing.extend lines (openBranches walk.depth [symbol]) ∧
      ∀ d, Visits config spec c (walk.over d) symbol g
        (next.over (d.extend lines (openBranches walk.depth [symbol]))) g' := by
  cases h with
  | push hroom =>
      refine ⟨[], rfl, (Drawing.extend_nil _).symm, fun d => ?_⟩
      rw [openBranches, openBranches, Drawing.extend_nil]
      exact .push hroom
  | pop hsaved =>
      refine ⟨[], rfl, (Drawing.extend_nil _).symm, fun d => ?_⟩
      rw [openBranches, openBranches, Drawing.extend_nil]
      exact .pop hsaved
  | named hmoves hfinite =>
      rename_i name pose line
      have hover (d : Drawing Float) := count_moveTo_over walk pose line d
      refine ⟨line.toList, ?_, ?_, fun d => ?_⟩
      · have hline := hmoves.isSome_line
        rw [Specification.lines, List.countP_singleton, Specification.draws, ← hline]
        cases line with
        | none => rfl
        | some line => rfl
      · exact congrArg Walk.drawing (hover walk.drawing)
      · rw [openBranches, openBranches, Nat.add_zero, ← hover]
        exact .named hmoves hfinite

/-- The branches that are open at the first name, and those at the names behind
it. -/
theorem Visits.openBranches_cons (h : Visits config spec c walk symbol g next g')
    (rest : List Symbol) : openBranches walk.depth (symbol :: rest) =
      openBranches walk.depth [symbol] + openBranches next.depth rest := by
  cases h with
  | push hroom => rw [openBranches, openBranches, openBranches, Nat.zero_add]; rfl
  | pop hsaved =>
      rw [openBranches, openBranches, openBranches, Nat.zero_add, Walk.depth, hsaved]
      rfl
  | named hmoves hfinite =>
      rw [openBranches, openBranches, openBranches, Nat.add_zero, Walk.depth, Walk.depth,
        saved_moveTo]
      rfl

/-- **A walk over another drawing.**  A walk adds lines to the drawing that it
finds, one for each symbol that draws, and to the complexity the branches that
are open at its names; the same walk over any other drawing adds the same. -/
theorem Follows.frame (h : Follows config spec c walk u g last g') :
    ∃ lines : List (Segment Float), lines.length = spec.lines u ∧
      last.drawing = walk.drawing.extend lines (openBranches walk.depth u) ∧
      ∀ d, Follows config spec c (walk.over d) u g
        (last.over (d.extend lines (openBranches walk.depth u))) g' := by
  induction h with
  | nil walk g =>
      refine ⟨[], rfl, (Drawing.extend_nil _).symm, fun d => ?_⟩
      rw [openBranches, Drawing.extend_nil]
      exact .nil _ g
  | cons hvisits hrest ih =>
      rename_i walk next last g middle g' symbol rest
      obtain ⟨first, hfirst, hnext, hvisits_over⟩ := hvisits.frame
      obtain ⟨others, hothers, hlast, hrest_over⟩ := ih
      rw [hvisits.openBranches_cons rest]
      refine ⟨first ++ others, ?_, ?_, fun d => ?_⟩
      · rw [List.length_append, hfirst, hothers]
        exact (spec.lines_append [symbol] rest).symm
      · rw [hlast, hnext, Drawing.extend_extend]
      · rw [← Drawing.extend_extend]
        exact .cons (hvisits_over d) (hrest_over _)

end LSystem
