import LSystem.Proofs.Eval.Drawless
import LSystem.Proofs.Rendering.Composition
import LSystem.Proofs.Rendering.Stack

/-!
# Branches

A branch is a balanced string between brackets.  At its end the saved poses are
those at its beginning, so the turtle takes up the pose that it had before the
branch.  Nothing else could tell the symbols behind a branch that it was there:
the drawing is not looked at, what the symbols of a branch bind is bound anew
for every other symbol, and a branch that takes no draw leaves the generator
alone.

So a branch can be left out, and the drawing loses the lines of the branch.
-/

namespace LSystem

open Syntax Eval Randomness

variable {config : RenderConfig} {spec : Specification} {c : Context} {walk next last : Walk}
  {g g' : Generator} {symbol : Symbol} {u v w : List Symbol}

/-! ### The saved poses at the end of a branch -/

/-- A symbol that does not go below some of the saved poses leaves them saved. So the saved poses
of a stem are still there at the end of its branch. -/
theorem Visits.saved_append (h : Visits config spec c walk symbol g next g')
    {above below : List Pose} (hsaved : walk.saved = above ++ below)
    (hlevel : 0 ≤ above.length + level [symbol]) :
    ∃ above' : List Pose, next.saved = above' ++ below ∧
      (above'.length : Int) = above.length + level [symbol] := by
  cases h with
  | push hroom =>
      refine ⟨walk.pose :: above, ?_, ?_⟩
      · rw [hsaved, List.cons_append]
      · rw [level_push, List.length_cons]
        omega
  | pop hpop =>
      cases above with
      | nil =>
          rw [level_pop, List.length_nil] at hlevel
          omega
      | cons top above =>
          rw [hpop, List.cons_append] at hsaved
          refine ⟨above, (List.cons.inj hsaved).2, ?_⟩
          rw [level_pop, List.length_cons]
          omega
  | named hmoves hfinite =>
      refine ⟨above, ?_, ?_⟩
      · rw [saved_moveTo]
        exact hsaved
      · rw [level_named, Int.add_zero]

/-- A string none of whose prefixes goes below some of the saved poses leaves
them saved. -/
theorem Follows.saved_append (h : Follows config spec c walk u g last g') :
    ∀ {above below : List Pose}, walk.saved = above ++ below →
      (∀ p, p <+: u → 0 ≤ above.length + level p) →
        ∃ above' : List Pose, last.saved = above' ++ below ∧
          (above'.length : Int) = above.length + level u := by
  induction h with
  | nil walk g =>
      intro above below hsaved _
      exact ⟨above, hsaved, by rw [level_nil, Int.add_zero]⟩
  | cons hvisits hrest ih =>
      intro above below hsaved hlevels
      rename_i walk next last g middle g' symbol rest
      have hfirst := hlevels [symbol] (List.prefix_append [symbol] rest)
      obtain ⟨between, hbetween, hcount⟩ := hvisits.saved_append hsaved hfirst
      have hothers (p : List Symbol) (hp : p <+: rest) : 0 ≤ between.length + level p := by
        have hlevel := hlevels (symbol :: p) (List.cons_prefix_cons.2 ⟨rfl, hp⟩)
        rw [level_cons] at hlevel
        omega
      obtain ⟨above', hlast, hlength⟩ := ih hbetween hothers
      refine ⟨above', hlast, ?_⟩
      rw [level_cons symbol rest]
      omega

/-- A balanced string leaves the saved poses as they were: it never goes below them, and at its
end none of those that it saved is left. -/
theorem Follows.saved_of_balanced (h : Follows config spec c walk u g last g')
    (hbalanced : Balanced u) : last.saved = walk.saved := by
  obtain ⟨hprefixes, hlevel⟩ := balanced_iff.1 hbalanced
  obtain ⟨above, hsaved, hlength⟩ := h.saved_append (List.nil_append walk.saved).symm
    (fun p hp => by
      have hlow := hprefixes p hp
      rw [List.length_nil]
      omega)
  rw [hlevel, List.length_nil] at hlength
  have hnone : above = [] := List.length_eq_zero_iff.1 (by omega)
  rw [hsaved, hnone, List.nil_append]

/-! ### Draws of a branch -/

/-- The motion of a name takes no draw: none of its expressions does, with the
variables that they lead to, wherever the turtle is. -/
def Specification.DrawlessAt (spec : Specification) (c : Context) (name : String) : Prop :=
  ∀ e ∈ (spec.motion name).parameters, ∀ walk : Walk,
    Drawless ((walk.context c).scope.evaluate e)

/-- A string whose names take no draw takes none. -/
theorem drawless_follow (h : ∀ name, .named name ∈ u → spec.DrawlessAt c name) :
    ∀ (i : Nat) (walk : Walk), Drawless (Walk.follow config spec c i u walk) :=
  compositional_drawless.follow h

/-! ### Leaving out a branch -/

/-- Behind a branch the turtle has the pose and the saved poses that it had
before the branch, and what the branch has drawn. -/
theorem Follows.branch {entry exit : Walk} {g₁ g₂ g₃ g₄ : Generator}
    (hpush : Visits config spec c walk .push g₁ entry g₂)
    (hbranch : Follows config spec c entry w g₂ exit g₃) (hbalanced : Balanced w)
    (hpop : Visits config spec c exit .pop g₃ last g₄) :
    g₂ = g₁ ∧ g₄ = g₃ ∧ entry.drawing = walk.drawing ∧ last = walk.over exit.drawing := by
  have hexit := hbranch.saved_of_balanced hbalanced
  cases hpush with
  | push hroom =>
      cases hpop with
      | pop hsaved =>
          rw [hsaved] at hexit
          obtain ⟨rfl, rfl⟩ := List.cons.inj hexit
          exact ⟨rfl, rfl, rfl, rfl⟩

/-- **A branch can be left out.**  When a string with a branch draws, and the
names in the branch take no draw, then the string without the branch draws too.
It draws the same lines but for those of the branch, which stand together at the
place to which the walk along the branch adds them, and its complexity is less
by the branches that are open at the names in the branch. -/
theorem render_without_branch {d : Drawing Float} (hbalanced : Balanced w)
    (hdrawless : ∀ name, .named name ∈ w → spec.DrawlessAt c name)
    (h : render config spec c (u ++ [Symbol.push] ++ w ++ [Symbol.pop] ++ v) = .ok d) :
    ∃ (d' : Drawing Float) (entry exit : Walk) (g : Generator)
      (branch after : List (Segment Float)),
      render config spec c (u ++ v) = .ok d' ∧
        Follows config spec c (.start config) (u ++ [Symbol.push]) c.generator entry g ∧
        Follows config spec c entry w g exit g ∧
        exit.drawing.segments.toList = entry.drawing.segments.toList ++ branch ∧
        d.segments.toList = entry.drawing.segments.toList ++ branch ++ after ∧
        d'.segments.toList = entry.drawing.segments.toList ++ after ∧
        branch.length = spec.lines w ∧ after.length = spec.lines v ∧
        d.complexity = d'.complexity + openBranches ((level u).toNat + 1) w := by
  obtain ⟨last, g₅, hfollows, rfl⟩ := render_eq_ok_iff.1 h
  obtain ⟨behind, g₄, hbehind, hv⟩ := follows_append_iff.1 hfollows
  obtain ⟨exit, g₃, hexit, hpop⟩ := follows_append_iff.1 hbehind
  obtain ⟨entry, g₂, hentry, hw⟩ := follows_append_iff.1 hexit
  obtain ⟨before, g₁, hu, hpush⟩ := follows_append_iff.1 hentry
  obtain ⟨rfl, rfl, hkept, rfl⟩ := Follows.branch (follows_singleton_iff.1 hpush) hw hbalanced
    (follows_singleton_iff.1 hpop)
  obtain rfl : g₄ = g₂ := (drawless_follow hdrawless 0 entry).eq_of_answers
    (answers_follow_iff.2 hw)
  obtain ⟨branch, hbranch_length, hbranch, -⟩ := hw.frame
  obtain ⟨after, hafter_length, hafter, hover⟩ := hv.frame
  have hwithout := hover before.drawing
  have hdepth : entry.depth = (level u).toNat + 1 := by
    have hstart : (Walk.start config).depth = 0 := rfl
    have hlevel := hentry.depth_eq
    have hbefore := hu.depth_eq
    rw [hstart] at hlevel hbefore
    rw [level_append, level_push] at hlevel
    omega
  refine ⟨_, entry, exit, g₄, branch, after,
    render_eq_ok_iff.2 ⟨_, g₅, follows_append_iff.2 ⟨before, g₄, hu, hwithout⟩, rfl⟩,
    hentry, hw, ?_, ?_, ?_, hbranch_length, hafter_length, ?_⟩
  · rw [hbranch]
    simp [Drawing.extend]
  · rw [hafter]
    simp [Drawing.extend, Walk.over, hbranch]
  · simp [Drawing.extend, Walk.over, hkept]
  · rw [hafter, ← hdepth]
    simp only [Drawing.extend, Walk.over, hbranch, hkept]
    omega

/-- Stems whose lines go to random heights, and leaves whose size depends on the
turtle alone. -/
def twig : Specification where
  start := []
  length := .num 1
  width := .num 1
  color := .black
  iterate := .num 1
  rules := #[]
  index := .empty
  transforms := ⟨[("stem", .shift (.num 1) (.call "random" [.num 3]) ⟨.num 1, .black⟩),
    ("leaf", .shift (.ident "y") (.call "max" [.num 1, .ident "size"]) ⟨.ident "size", .black⟩)]⟩
  definitions := [("size", .binary .add (.ident "depth") (.ident "x"))]

/-- A leaf, and another one on a branch of its own. -/
def leaves : List Symbol := [.named "leaf", .push, .named "leaf", .pop]

/-- A leaf takes no draw wherever the turtle is: its expressions lead to numbers, to the larger of
two values and to variables of the turtle, and to nothing random. -/
theorem drawlessAt_leaf (g : Generator) : twig.DrawlessAt (twig.context g) "leaf" := by
  intro e he walk
  have hcalm : (walk.context (twig.context g)).scope.Calm "max" := by
    intro f hf args
    cases hf
    exact compositional_drawless.extremum _ _ args
  apply drawless_evaluate (V := fun name => name ∈ ["x", "y", "depth", "size"])
  · intro name hname e he
    simp only [List.mem_cons, List.not_mem_nil, or_false] at hname
    rcases hname with rfl | rfl | rfl | rfl
    · cases he
      trivial
    · cases he
      trivial
    · cases he
      trivial
    · cases he
      simp [Expr.Names]
  · change e ∈ [Expr.ident "y", .call "max" [.num 1, .ident "size"], .ident "size", .num 0,
      .num 0, .num 0] at he
    simp only [List.mem_cons, List.not_mem_nil, or_false] at he
    rcases he with rfl | rfl | rfl | rfl | rfl | rfl <;> simp [Expr.Names, Expr.AllName, hcalm]

/-- The theorem at a stem with random heights and a branch of two leaves: without the branch the
drawing is still drawn, and less complex by three. -/
theorem twig_without_leaves : ∃ d d' : Drawing Float,
    render .standard twig (twig.context (.ofSeed 7)) ([Symbol.named "stem"] ++ [Symbol.push] ++
        leaves ++ [Symbol.pop] ++ [Symbol.named "stem"]) = .ok d ∧
      render .standard twig (twig.context (.ofSeed 7))
        ([Symbol.named "stem"] ++ [Symbol.named "stem"]) = .ok d' ∧
      d.complexity = d'.complexity + 3 := by
  have hok : (render .standard twig (twig.context (.ofSeed 7)) ([Symbol.named "stem"] ++
      [Symbol.push] ++ leaves ++ [Symbol.pop] ++ [Symbol.named "stem"])).isOk = true := by
    decide +kernel
  obtain ⟨d, hd⟩ := exists_of_isOk hok
  have hleaves (name : String) (hname : .named name ∈ leaves) :
      twig.DrawlessAt (twig.context (.ofSeed 7)) name := by
    obtain rfl : name = "leaf" := by simpa [leaves] using hname
    exact drawlessAt_leaf (.ofSeed 7)
  obtain ⟨d', entry, exit, g, branch, after, hd', -, -, -, -, -, -, -, hcomplexity⟩ :=
    render_without_branch (by decide) hleaves hd
  exact ⟨d, d', hd, hd', hcomplexity⟩

end LSystem
