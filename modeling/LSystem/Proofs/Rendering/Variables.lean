import LSystem.Proofs.Development.Alike
import LSystem.Proofs.Rendering.Composition
import LSystem.Proofs.Rendering.Trail

/-!
# The variables of the turtle

Four variables tell where the turtle is: `x`, `y`, `heading` and `depth`.  While a motion is
evaluated they have the pose before the motion and the number of open branches for their
values, whatever they were bound to before; `Scope.facing` is the scope in which this is so.
All expressions of a motion are evaluated in it, before the turtle moves.  So a drawing does
not depend on what the context binds these variables to, not even where other variables lead
to them.
-/

namespace LSystem

open Syntax Eval Randomness

/-- The variables that tell where the turtle is. -/
def turtleNames : List String := ["x", "y", "heading", "depth"]

namespace Eval

/-- Contexts with the same functions and generator, in which all variables but some are bound
to the same. -/
structure Context.AgreeOff (names : List String) (c c' : Context) : Prop where
  bound : ∀ name, name ∉ names → c.scope.bound name = c'.scope.bound name
  native : c.scope.native = c'.scope.native
  generator : c.generator = c'.generator

namespace Context.AgreeOff

variable {names : List String} {c c' : Context} {name : String}

theorem refl (c : Context) : c.AgreeOff names c := ⟨fun _ _ => rfl, rfl, rfl⟩

/-- What is bound under one of the names makes no difference. The value may even lead to other
variables. -/
theorem define (h : c.AgreeOff names c') (hname : name ∈ names) (value : Expr) :
    c.AgreeOff names (c'.define name value) := by
  refine ⟨fun other hother => ?_, h.native, h.generator⟩
  have hne : name ≠ other := by
    rintro rfl
    exact hother hname
  have hfind := Bindings.find?_insert c'.definitions name other value
  rw [if_neg hne] at hfind
  exact (h.bound other hother).trans hfind.symm

end Context.AgreeOff

/-- The scope in which the variables of the turtle tell a pose and a number of branches, and
all others mean what they mean. -/
def Scope.facing (s : Scope) (pose : Pose) (depth : Nat) : Scope where
  bound name :=
    if name = "x" then some (.num pose.position.x)
    else if name = "y" then some (.num pose.position.y)
    else if name = "heading" then some (.num pose.heading)
    else if name = "depth" then some (.num (Number.ofNat depth))
    else s.bound name
  native := s.native

/-- What the variables of the turtle meant before is not seen. All four are bound anew, and every
other variable is bound alike in both. -/
theorem Context.AgreeOff.facing {c c' : Context} (h : c.AgreeOff turtleNames c') (pose : Pose)
    (depth : Nat) : c.scope.facing pose depth = c'.scope.facing pose depth := by
  unfold Scope.facing
  rw [h.native]
  congr 1
  funext name
  split_ifs with hx hy hheading hdepth
  · rfl
  · rfl
  · rfl
  · rfl
  · exact h.bound name (by simp [turtleNames, hx, hy, hheading, hdepth])

end Eval

variable {config : RenderConfig} {spec : Specification} {c c' : Context} {walk : Walk}
  {g : Generator} {u v : List Symbol}

namespace Walk

/-- The scope of a motion faces the turtle. The context of a motion binds the four names to the
pose and to the number of open branches, and it changes nothing else. -/
theorem scope_context (walk : Walk) (c : Context) :
    (walk.context c).scope = c.scope.facing walk.pose walk.depth := by
  have hbound (name : String) : (walk.context c).scope.bound name =
      (c.scope.facing walk.pose walk.depth).bound name := by
    simp only [context, Context.assign, Context.define, Context.scope, Bindings.find?_insert,
      Scope.facing]
    -- the last assignment is looked up first, and the names differ
    grind
  unfold Scope.facing at hbound
  exact congrArg (Scope.mk · c.scope.native) (funext hbound)

/-- The walk after a motion whose expressions have some values. -/
def moved (walk : Walk) (epsilon : Float) : Motion Stroke → List Float → Walk
  | .rotate _ unit, [angle] => walk.turnTo (walk.pose.rotate (unit.toRadians angle) epsilon)
  | .forward _ _, [distance, width, r, g, b] =>
    walk.drawTo (walk.pose.advance distance epsilon) width ⟨r, g, b⟩
  | .shift _ _ _, [dx, dy, width, r, g, b] =>
    walk.drawTo (walk.pose.translate ⟨dx, dy⟩ epsilon) width ⟨r, g, b⟩
  | _, _ => walk

/-- A motion evaluates its expressions one after the other, and then moves the turtle. -/
theorem perform_eq (walk : Walk) (epsilon : Float) (s : Scope) (motion : Motion Stroke) :
    walk.perform epsilon s motion =
      walk.moved epsilon motion <$> motion.parameters.mapM s.evaluate := by
  cases motion with
  | rotate angle unit =>
      simp [perform, moved, Motion.parameters]
  | forward distance stroke =>
      simp [perform, moved, Motion.parameters, Stroke.parameters, evaluateStroke, evaluateColor]
  | shift dx dy stroke =>
      simp [perform, moved, Motion.parameters, Stroke.parameters, evaluateStroke, evaluateColor]

/-- What a motion does whose expressions are all evaluated in one scope, one after the other and
before the turtle moves. -/
def moveIn (walk : Walk) (s : Scope) (epsilon : Float) (motion : Motion Stroke) (position : Nat) :
    RandomM RenderError Walk := do
  let values ← (motion.parameters.mapM s.evaluate).adapt .evaluation
  let next := walk.count.moved epsilon motion values
  if next.pose.isFinite then return next else throw (.nonFinitePose position)

/-- A name moves the turtle in the scope that faces it. All values are there before the turtle
moves, and the pose that it comes to is checked. -/
theorem visit_named (walk : Walk) (position : Nat) (name : String) :
    walk.visit config spec c position (.named name) =
      walk.moveIn (c.scope.facing walk.pose walk.depth) config.epsilon (spec.motion name)
        position := by
  rw [visit, perform_eq, adapt_map, bind_map_left, scope_context]
  rfl

end Walk

/-- The walk along two strings is that along the one and then the other. The places of the second
string are counted on from the end of the first. -/
theorem Walk.follow_append (u v : List Symbol) : ∀ (position : Nat) (walk : Walk),
    Walk.follow config spec c position (u ++ v) walk =
      Walk.follow config spec c position u walk >>=
        Walk.follow config spec c (position + u.length) v := by
  induction u with
  | nil =>
      intro position walk
      rw [List.nil_append, follow, pure_bind]
      rfl
  | cons symbol rest ih =>
      intro position walk
      rw [List.cons_append, follow, follow, bind_assoc, List.length_cons]
      refine bind_congr fun next => ?_
      rw [ih, Nat.add_assoc, Nat.add_comm 1]

/-- A drawing goes on from where the first symbols have led. -/
theorem render_append (h : Answers (Walk.follow config spec c 0 u (.start config)) c.generator
      walk g) : render config spec c (u ++ v) =
    ((Walk.follow config spec c u.length v walk).run.run g).1.map Walk.drawing := by
  unfold Answers at h
  rw [render, Walk.follow_append, run_bind, h, Nat.zero_add]

/-- Behind a closing bracket the turtle has the pose that it had before the opening one. -/
theorem pose_behind_branch {w : List Symbol}
    (h : Follows config spec c (.start config) (w ++ [.pop]) c.generator walk g) :
    ∃ v b before middle, w = v ++ .push :: b ∧ Balanced b ∧
      Follows config spec c (.start config) v c.generator before middle ∧
        walk.pose = before.pose := by
  obtain ⟨exit, g₁, hw, hpop⟩ := follows_append_iff.1 h
  have hlevel : 1 ≤ level w := by
    have hclosed := (h.level_range (List.prefix_refl (w ++ [.pop]))).1
    rw [level_append, level_pop] at hclosed
    omega
  obtain ⟨v, b, rfl, hb⟩ := exists_open_branch (fun p hp => (hw.level_range hp).1) hlevel
  obtain ⟨before, g₂, hv, hbranch⟩ := follows_append_iff.1 hw
  obtain ⟨entry, g₃, hpush, hinside⟩ := follows_append_iff (u := [.push]).1 hbranch
  obtain ⟨-, -, -, hexit⟩ := Follows.branch (follows_singleton_iff.1 hpush) hinside hb
    (follows_singleton_iff.1 hpop)
  exact ⟨v, b, before, g₂, rfl, hb, hv, by rw [hexit]; rfl⟩

/-- **The variables of the turtle tell where it is.**  Two contexts that differ only in what
they bind these variables to have the same drawing or the same error.  When a drawing comes to a
name, all expressions are evaluated in the scope that faces the turtle at the pose to which the
symbols before have led, with the branches that they leave open.  If the last of these symbols
is a closing bracket, this is the pose that the turtle had before the bracket was opened. -/
theorem variables_tell_turtle (config : RenderConfig) (spec : Specification) :
    (∀ (c c' : Context) (u : List Symbol), c.AgreeOff turtleNames c' →
      render config spec c u = render config spec c' u) ∧
    ∀ (c : Context) (u : List Symbol) (walk : Walk) (g : Generator),
      Answers (Walk.follow config spec c 0 u (.start config)) c.generator walk g →
        (∀ (name : String) (v : List Symbol),
          render config spec c (u ++ .named name :: v) =
            ((walk.moveIn (c.scope.facing walk.pose (level u).toNat) config.epsilon
                (spec.motion name) u.length >>=
              Walk.follow config spec c (u.length + 1) v).run.run g).1.map Walk.drawing) ∧
        ∀ w, u = w ++ [.pop] → ∃ v b before middle, w = v ++ .push :: b ∧ Balanced b ∧
          Answers (Walk.follow config spec c 0 v (.start config)) c.generator before middle ∧
            walk.pose = before.pose := by
  refine ⟨fun c c' u h => ?_, fun c u walk g h => ⟨fun name v => ?_, ?_⟩⟩
  · refine render_congr rfl (fun walk => ?_) h.generator u
    rw [walk.scope_context, walk.scope_context, h.facing]
  · have hdepth : (level u).toNat = walk.depth := by
      rw [← (answers_follow_iff.1 h).depth_start, Int.toNat_natCast]
    rw [render_append h, Walk.follow, Walk.visit_named, hdepth]
  · rintro w rfl
    obtain ⟨v, b, before, middle, hw, hb, hbefore, hpose⟩ :=
      pose_behind_branch (answers_follow_iff.1 h)
    exact ⟨v, b, before, middle, hw, hb, answers_follow_iff.2 hbefore, hpose⟩

/-- Steps that are as long as a variable says, which goes by where the turtle is. -/
def tendril : Specification where
  start := []
  length := .num 1
  width := .num 1
  color := .black
  iterate := .num 1
  rules := #[]
  index := .empty
  transforms := ⟨[("step", .shift (.call "random" [.ident "reach"]) (.num 1)
    ⟨.ident "depth", .black⟩)]⟩
  definitions := [("reach", .binary .add (.ident "x") (.ident "y"))]

/-- The theorem at a variable that leads to `x` and `y`: a context that binds two of the four
names to something else draws the same, and a walk that closes its branch is back at the pose
before it. -/
theorem tendril_sees_turtle :
    let c := tendril.context (.ofSeed 7)
    let c' := (c.define "x" (.call "random" [])).define "depth" (.ident "depth")
    let fork : List Symbol := [.named "step", .push, .named "step"]
    c.AgreeOff turtleNames c' ∧
      render .standard tendril c (fork ++ [.pop, .named "step"]) =
        render .standard tendril c' (fork ++ [.pop, .named "step"]) ∧
      ∃ walk g v before middle,
        Answers (Walk.follow .standard tendril c 0 (fork ++ [.pop]) (.start .standard))
            c.generator walk g ∧
          Answers (Walk.follow .standard tendril c 0 v (.start .standard)) c.generator before
            middle ∧ walk.pose = before.pose := by
  intro c c' fork
  have hagree : c.AgreeOff turtleNames c' :=
    ((Context.AgreeOff.refl c).define (by decide) _).define (by decide) _
  obtain ⟨hrender, hwalks⟩ := variables_tell_turtle .standard tendril
  refine ⟨hagree, hrender c c' _ hagree, ?_⟩
  have hok : ((Walk.follow .standard tendril c 0 (fork ++ [.pop])
      (.start .standard)).run.run c.generator).1.isOk = true := by
    decide +kernel
  obtain ⟨walk, hwalk⟩ := exists_of_isOk hok
  have hanswers : Answers (Walk.follow .standard tendril c 0 (fork ++ [.pop])
      (.start .standard)) c.generator walk _ := Prod.ext hwalk rfl
  obtain ⟨v, b, before, middle, -, -, hbefore, hpose⟩ := (hwalks c _ walk _ hanswers).2 fork rfl
  exact ⟨walk, _, v, before, middle, hanswers, hbefore, hpose⟩

end LSystem
