import LSystem.Proofs.Eval.Answer
import LSystem.Proofs.Syntax.WellFormed
import Mathlib.Logic.Relation

/-!
# Evaluation step by step

The value of an expression is found by calls within calls: one for each part of a tree, and one
for the tree behind each variable.  `Scope.evaluate` answers with the value and does not show the
calls.  The machine of this module takes the same way in steps.  Its stack has a frame for every
call that waits for a call inside it, so at every step the calls under way are these and the one
at work.

That it is the same way is `steps_call`: from a call the machine comes to the end that
`Scope.evalChain` has, whatever waits below.  That the stack stays low is an invariant of a step.
Behind `depth` nested variables there are `depth + 1` trees under way at most, each of them as
high as a tree may be, and `Room` says that the tree of a call still fits in.
-/

namespace LSystem.Syntax

/-- No argument is higher than the highest of them. So a limit on the height of a call is one on
each of its arguments. -/
theorem Expr.height_le_heightList {e : Expr} {es : List Expr} (h : e ∈ es) :
    e.height ≤ Expr.heightList es := by
  induction es with
  | nil => cases h
  | cons first rest ih =>
      rw [Expr.heightList]
      rcases List.mem_cons.1 h with rfl | hrest
      · exact Nat.le_max_left _ _
      · exact Nat.le_trans (ih hrest) (Nat.le_max_right _ _)

end LSystem.Syntax

namespace LSystem.Eval

open Syntax Randomness

namespace Machine

/-! ### The machine -/

/-- A call that waits for the value of a call inside it.  A call that has more calls to make
keeps the number of nested variables behind which it stands. -/
inductive Frame where
  | ident (name : String)
  /-- With the values of the arguments before the one at work, and the arguments after it. -/
  | argument (depth : Nat) (name : String) (args : List Expr) (f : NativeFunction)
      (values : List Float) (rest : List Expr)
  | group (inner : Expr)
  | left (depth : Nat) (op : Operator) (left right : Expr)
  | right (op : Operator) (left right : Expr) (value : Float)
  | neg (inner : Expr)

/-- What the innermost call is about to do. -/
inductive Control where
  /-- Begin with an expression, behind a number of nested variables. -/
  | call (depth : Nat) (e : Expr)
  /-- End with an answer. -/
  | ret (answer : Except EvalError Float)

structure State where
  control : Control
  /-- The calls that wait, the innermost first. -/
  stack : List Frame
  generator : Generator

/-- The number of calls under way: those that wait, and the one at work. -/
def State.calls (st : State) : Nat := st.stack.length + 1

/-- The innermost call ends with what a computation comes to. -/
def ended (m : EvalM Float) (stack : List Frame) (g : Generator) : State :=
  ⟨.ret (m.run.run g).1, stack, (m.run.run g).2⟩

/-- A call of a function takes up its next argument, or the function when all have values. -/
def pass (depth : Nat) (name : String) (args : List Expr) (f : NativeFunction)
    (values : List Float) (stack : List Frame) (g : Generator) : (rest : List Expr) → State
  | [] => ended (f values >>= finite (.call name args)) stack g
  | e :: rest => ⟨.call depth e, .argument depth name args f values rest :: stack, g⟩

/-- A call begins. -/
def enter (s : Scope) (depth : Nat) (stack : List Frame) (g : Generator) : Expr → State
  | .num value => ended (finite (.num value) value) stack g
  | .ident name =>
    if maxReferences ≤ depth then ended (throw .depthExceeded) stack g
    else match s.bound name with
      | none => ended (throw (.unknownVariable name)) stack g
      | some b => ⟨.call (depth + 1) b, .ident name :: stack, g⟩
  | .call name args =>
    match s.native name with
    | none => ended (throw (.unknownFunction name)) stack g
    | some f => pass depth name args f [] stack g args
  | .group inner => ⟨.call depth inner, .group inner :: stack, g⟩
  | .binary op left right => ⟨.call depth left, .left depth op left right :: stack, g⟩
  | .neg inner => ⟨.call depth inner, .neg inner :: stack, g⟩

/-- A call that waited goes on with the value it waited for. -/
def resume (value : Float) (stack : List Frame) (g : Generator) : Frame → State
  | .ident name => ended (finite (.ident name) value) stack g
  | .argument depth name args f values rest =>
    pass depth name args f (values ++ [value]) stack g rest
  | .group inner => ended (finite (.group inner) value) stack g
  | .left depth op left right => ⟨.call depth right, .right op left right value :: stack, g⟩
  | .right op left right l => ended (apply op l value >>= finite (.binary op left right)) stack g
  | .neg inner => ended (finite (.neg inner) (-value)) stack g

/-- One step.  An error ends the calls that wait one after the other, and the machine is at its
end when no call waits for an answer. -/
def step (s : Scope) : State → Option State
  | ⟨.call depth e, stack, g⟩ => some (enter s depth stack g e)
  | ⟨.ret (.ok value), frame :: stack, g⟩ => some (resume value stack g frame)
  | ⟨.ret (.error err), _ :: stack, g⟩ => some ⟨.ret (.error err), stack, g⟩
  | ⟨.ret _, [], _⟩ => none

/-- One state comes after another, or is the same. -/
abbrev Steps (s : Scope) : State → State → Prop :=
  Relation.ReflTransGen fun st st' => step s st = some st'

/-- The machine before the first step of an evaluation. -/
def start (e : Expr) (g : Generator) : State := ⟨.call 0 e, [], g⟩

variable {s : Scope} {st st' : State} {stack : List Frame} {frame : Frame} {g : Generator}
  {m : EvalM Float} {e : Expr} {depth : Nat}

/-! ### It takes the way of the evaluation -/

theorem Steps.call (h : Steps s (enter s depth stack g e) st) :
    Steps s ⟨.call depth e, stack, g⟩ st := .head rfl h

/-- The machine comes from a call inside to the end of the call that waits for it. -/
theorem Steps.bind {rest : Float → EvalM Float} (h : Steps s st (ended m (frame :: stack) g))
    (hrest : ∀ value g', Steps s (resume value stack g' frame) (ended (rest value) stack g')) :
    Steps s st (ended (m >>= rest) stack g) := by
  refine h.trans ?_
  unfold ended
  rw [run_bind]
  match m.run.run g with
  | (.ok value, g') => exact .head rfl (hrest value g')
  | (.error err, g') => exact .single rfl

/-- Arguments are taken up from left to right. Each of them is called at the same depth, and its
value waits on the frame of the call until all are there. -/
theorem steps_pass {refer : String → EvalM Float} {name : String} {args rest : List Expr}
    {f : NativeFunction}
    (h : ∀ e ∈ rest, ∀ stack g, Steps s ⟨.call depth e, stack, g⟩
      (ended (evalWith s.native refer e) stack g)) (values : List Float) (stack : List Frame)
    (g : Generator) : Steps s (pass depth name args f values stack g rest)
      (ended (do
        let others ← evalListWith s.native refer rest
        let value ← f (values ++ others)
        finite (.call name args) value) stack g) := by
  induction rest generalizing values g with
  | nil =>
      rw [evalListWith, pure_bind, List.append_nil]
      exact .refl
  | cons e rest ih =>
      obtain ⟨he, hrest⟩ := List.forall_mem_cons.1 h
      rw [evalListWith, bind_assoc]
      refine (he (.argument depth name args f values rest :: stack) g).bind fun value g' => ?_
      rw [resume, bind_assoc]
      have hothers := ih hrest (values ++ [value]) g'
      simpa only [pure_bind, List.append_assoc, List.singleton_append] using hothers

/-- The machine takes the way of an evaluation on a tree when it does at the variables. -/
theorem steps_call_of_ident {refer : String → EvalM Float}
    (hident : ∀ name stack g, Steps s ⟨.call depth (.ident name), stack, g⟩
      (ended (evalWith s.native refer (.ident name)) stack g)) (e : Expr) (stack : List Frame)
    (g : Generator) :
    Steps s ⟨.call depth e, stack, g⟩ (ended (evalWith s.native refer e) stack g) := by
  induction e using Expr.inductionOn generalizing stack g with
  | num value =>
      rw [evalWith]
      exact .call .refl
  | ident name => exact hident name stack g
  | call name args ih =>
      refine .call ?_
      rw [enter, evalWith]
      cases s.native name with
      | none => exact .refl
      | some f => exact steps_pass ih [] stack g
  | group inner ih =>
      rw [evalWith]
      exact .call ((ih (.group inner :: stack) g).bind fun _ _ => .refl)
  | binary op left right ihl ihr =>
      rw [evalWith]
      refine .call ((ihl (.left depth op left right :: stack) g).bind fun l g' => ?_)
      exact (ihr (.right op left right l :: stack) g').bind fun _ _ => .refl
  | neg inner ih =>
      rw [evalWith]
      exact .call ((ih (.neg inner :: stack) g).bind fun _ _ => .refl)

/-- From a call behind some nested variables the machine comes to what a chain of as many
variables as are left of the limit answers. -/
theorem steps_call (s : Scope) (depth : Nat) (e : Expr) (stack : List Frame) (g : Generator) :
    Steps s ⟨.call depth e, stack, g⟩ (ended (s.evalChain (maxReferences - depth) e) stack g) := by
  induction hleft : maxReferences - depth generalizing depth e stack g with
  | zero =>
      refine steps_call_of_ident (fun name stack g => .call ?_) e stack g
      rw [enter, if_pos (Nat.le_of_sub_eq_zero hleft)]
      exact .refl
  | succ left ih =>
      refine steps_call_of_ident (fun name stack g => .call ?_) e stack g
      have hroom : ¬ maxReferences ≤ depth := by omega
      rw [enter, if_neg hroom, evalWith]
      cases s.bound name with
      | none => exact .refl
      | some b => exact (ih (depth + 1) b (.ident name :: stack) g (by omega)).bind fun _ _ => .refl

/-! ### The stack stays low -/

/-- The most calls that may be under way. -/
def maxCalls : Nat := (maxReferences + 1) * maxNesting

/-- Above the calls that wait there is room for a tree behind some nested variables. -/
structure Room (waiting depth : Nat) (e : Expr) : Prop where
  references : depth ≤ maxReferences
  height : waiting + e.height ≤ (depth + 1) * maxNesting

/-- There is room for one call more, because every tree has at least one level. -/
theorem Room.lt {waiting : Nat} (h : Room waiting depth e) : waiting < maxCalls := by
  have hpos := e.height_pos
  have hlevels : (depth + 1) * maxNesting ≤ maxCalls :=
    Nat.mul_le_mul_right maxNesting (Nat.succ_le_succ h.references)
  have hheight := h.height
  omega

/-- A call for a part of a tree finds room above the call for the tree. -/
theorem Room.part {waiting : Nat} {part : Expr} (h : Room waiting depth e)
    (hpart : part.height < e.height) : Room (waiting + 1) depth part := by
  refine ⟨h.references, ?_⟩
  have hheight := h.height
  omega

/-- A call for the tree behind a variable does, where variables may nest deeper. -/
theorem Room.bound {waiting : Nat} {b : Expr} (h : Room waiting depth e)
    (hdepth : depth < maxReferences) (hb : b.height ≤ maxNesting) :
    Room (waiting + 1) (depth + 1) b := by
  refine ⟨hdepth, ?_⟩
  have hpos := e.height_pos
  have hheight := h.height
  rw [Nat.succ_mul (depth + 1)]
  omega

/-- There is room for the calls that a waiting call has still to make. -/
def Frame.Fits (waiting : Nat) : Frame → Prop
  | .argument depth _ _ _ _ rest => ∀ e ∈ rest, Room waiting depth e
  | .left depth _ _ r => Room waiting depth r
  | .ident _ | .group _ | .right _ _ _ _ | .neg _ => True

/-- There is room for all calls that are still to be made. -/
inductive Fits : List Frame → Prop
  | nil : Fits []
  | cons {frame : Frame} {stack : List Frame} (hframe : frame.Fits (frame :: stack).length)
      (hstack : Fits stack) : Fits (frame :: stack)

/-- The invariant of the machine. -/
structure State.Low (st : State) : Prop where
  fits : Fits st.stack
  calls : st.stack.length < maxCalls
  room : ∀ depth e, st.control = .call depth e → Room st.stack.length depth e

/-- The machine is low before a call for which there is room above the calls that wait. -/
theorem low_call (hstack : Fits stack) (h : Room stack.length depth e) :
    State.Low ⟨.call depth e, stack, g⟩ := by
  refine ⟨hstack, h.lt, fun depth e heq => ?_⟩
  cases heq
  exact h

/-- The machine is low with an answer when the calls that wait are within the bound. -/
theorem low_ret {answer : Except EvalError Float} (hstack : Fits stack)
    (hcalls : stack.length < maxCalls) : State.Low ⟨.ret answer, stack, g⟩ :=
  ⟨hstack, hcalls, nofun⟩

/-- Whether there are arguments left or not. With one left, its call waits on a frame of its own;
with none left, the frame of the call is gone. -/
theorem low_pass {name : String} {args rest : List Expr} {f : NativeFunction} {values : List Float}
    (hstack : Fits stack) (hcalls : stack.length < maxCalls)
    (h : ∀ e ∈ rest, Room (stack.length + 1) depth e) :
    State.Low (pass depth name args f values stack g rest) := by
  cases rest with
  | nil => exact low_ret hstack hcalls
  | cons e rest =>
      obtain ⟨he, hrest⟩ := List.forall_mem_cons.1 h
      exact low_call (.cons hrest hstack) he

/-- A call leads to a low state: it ends at once, or it calls for a part of its tree or for the
tree behind a variable, and there is room for either. -/
theorem low_enter (hbound : ∀ name b, s.bound name = some b → b.height ≤ maxNesting)
    (hstack : Fits stack) (h : Room stack.length depth e) :
    State.Low (enter s depth stack g e) := by
  cases e with
  | num value => exact low_ret hstack h.lt
  | ident name =>
      rw [enter]
      split
      · exact low_ret hstack h.lt
      · rename_i hdepth
        split
        · exact low_ret hstack h.lt
        · rename_i b hb
          exact low_call (.cons trivial hstack)
            (h.bound (Nat.lt_of_not_le hdepth) (hbound name b hb))
  | call name args =>
      rw [enter]
      split
      · exact low_ret hstack h.lt
      · refine low_pass hstack h.lt fun arg harg => ?_
        refine h.part ?_
        rw [Expr.height]
        exact Nat.lt_succ_of_le (Expr.height_le_heightList harg)
  | group inner | neg inner =>
      refine low_call (.cons trivial hstack) (h.part ?_)
      rw [Expr.height]
      exact Nat.lt_succ_self _
  | binary op left right =>
      refine low_call (.cons (h.part ?_) hstack) (h.part ?_)
      · rw [Expr.height]
        omega
      · rw [Expr.height]
        omega

/-- A call that goes on leads to a low state, since the room for the calls that it has still to
make was kept while it waited. -/
theorem low_resume {value : Float} (hframe : frame.Fits (frame :: stack).length)
    (hstack : Fits stack) (hcalls : (frame :: stack).length < maxCalls) :
    State.Low (resume value stack g frame) := by
  have hfewer : stack.length < maxCalls := Nat.lt_of_succ_lt hcalls
  cases frame with
  | ident name => exact low_ret hstack hfewer
  | argument depth name args f values rest => exact low_pass hstack hfewer hframe
  | group inner => exact low_ret hstack hfewer
  | left depth op left right => exact low_call (.cons trivial hstack) hframe
  | right op left right value => exact low_ret hstack hfewer
  | neg inner => exact low_ret hstack hfewer

/-- A step keeps the stack low. A call goes one level further into a tree or to a variable, and
the room on the stack is counted by what is left of both. -/
theorem State.Low.step (hbound : ∀ name b, s.bound name = some b → b.height ≤ maxNesting)
    (hlow : st.Low) (h : step s st = some st') : st'.Low := by
  obtain ⟨hstack, hcalls, hroom⟩ := hlow
  obtain ⟨control, stack, g⟩ := st
  cases control with
  | call depth e =>
      cases h
      exact low_enter hbound hstack (hroom depth e rfl)
  | ret answer =>
      cases hstack with
      | nil => cases answer <;> cases h
      | cons hframe hrest =>
          cases answer with
          | ok value =>
              cases h
              exact low_resume hframe hrest hcalls
          | error err =>
              cases h
              exact low_ret hrest (Nat.lt_of_succ_lt hcalls)

/-- All steps keep the stack low, by induction on their number. -/
theorem State.Low.steps (hbound : ∀ name b, s.bound name = some b → b.height ≤ maxNesting)
    (hlow : st.Low) (h : Steps s st st') : st'.Low := by
  induction h with
  | refl => exact hlow
  | tail _ hstep ih => exact ih.step hbound hstep

/-- An expression that is no higher than the limit has room at the start, where no call waits. -/
theorem low_start (he : e.height ≤ maxNesting) : (start e g).Low := by
  refine low_call .nil ⟨Nat.zero_le _, ?_⟩
  simpa using he

/-! ### Evaluations -/

/-- A machine that comes to an end comes there by way of every state that it comes to. -/
theorem Steps.to_end {final : State} (h : Steps s st st') (hend : Steps s st final)
    (hfinal : step s final = none) : Steps s st' final := by
  have hunique : Relator.RightUnique fun st st' => step s st = some st' :=
    fun _ _ _ hfirst hsecond => Option.some.inj (hfirst.symm.trans hsecond)
  rcases Relation.ReflTransGen.total_of_right_unique hunique h hend with hafter | hbefore
  · exact hafter
  · rcases Relation.ReflTransGen.cases_head hbefore with rfl | ⟨next, hnext, -⟩
    · exact .refl
    · rw [hfinal] at hnext
      cases hnext

/-- **The calls of an evaluation are bounded.**  Take an expression and a scope in which the
expression and all that variables are bound to are within the limit of nesting, whatever leads to
whatever in it.  The machine ends with the answer of the evaluation and the generator that it
leaves, and every state that it comes to is on the way there.  In none of them are more calls
under way than there are levels in one tree of the greatest height for the expression and one for
each of the variables that may nest. -/
theorem evaluation_calls_bounded (s : Scope) (e : Expr) (he : e.height ≤ maxNesting)
    (hbound : ∀ name b, s.bound name = some b → b.height ≤ maxNesting) (g : Generator) :
    let final : State := ⟨.ret ((s.evaluate e).run.run g).1, [], ((s.evaluate e).run.run g).2⟩
    Steps s (start e g) final ∧ step s final = none ∧
      ∀ st, Steps s (start e g) st →
        Steps s st final ∧ st.calls ≤ (maxReferences + 1) * maxNesting := by
  intro final
  have hend : Steps s (start e g) final := steps_call s 0 e [] g
  have hfinal : step s final = none := by
    match hanswer : ((s.evaluate e).run.run g).1 with
    | .ok value => simp only [final, hanswer, step]
    | .error err => simp only [final, hanswer, step]
  exact ⟨hend, hfinal, fun st hst =>
    ⟨hst.to_end hend hfinal, ((low_start he).steps hbound hst).calls⟩⟩

/-! ### A scope that meets the bound -/

/-- An expression behind some minus signs. -/
def negated (e : Expr) : Nat → Expr
  | 0 => e
  | n + 1 => .neg (negated e n)

/-- Every minus sign adds a level. It is the number of levels that makes the stack as high as it
can be. -/
theorem height_negated (e : Expr) (n : Nat) : (negated e n).height = e.height + n := by
  induction n with
  | zero => rfl
  | succ n ih => rw [negated, Expr.height, ih, Nat.add_assoc]

/-- Behind the minus signs as many more calls wait. The machine waits at each of them for the
value behind it. -/
theorem steps_negated (s : Scope) (depth : Nat) (e : Expr) (n : Nat) (stack : List Frame)
    (g : Generator) : ∃ deeper : List Frame, deeper.length = stack.length + n ∧
      Steps s ⟨.call depth (negated e n), stack, g⟩ ⟨.call depth e, deeper, g⟩ := by
  induction n generalizing stack with
  | zero => exact ⟨stack, rfl, .refl⟩
  | succ n ih =>
      obtain ⟨deeper, hlength, hsteps⟩ := ih (.neg (negated e n) :: stack)
      refine ⟨deeper, ?_, .call hsteps⟩
      rw [hlength, List.length_cons]
      omega

/-- A tree as high as the limit of nesting, with a variable at the bottom. -/
def turn : Expr := negated (.ident "a") (maxNesting - 1)

/-- The variable stands for the tree that it stands in. -/
def spiral : Scope := ⟨fun name => if name = "a" then some turn else none, fun _ => none⟩

/-- The tree is begun as often as variables may nest, each time at the bottom of the one before. -/
theorem steps_spiral (hdepth : depth ≤ maxReferences) :
    ∃ stack : List Frame, stack.length = depth * maxNesting ∧
      Steps spiral (start turn g) ⟨.call depth turn, stack, g⟩ := by
  induction depth with
  | zero => exact ⟨[], (Nat.zero_mul _).symm, .refl⟩
  | succ depth ih =>
      obtain ⟨stack, hlength, hsteps⟩ := ih (Nat.le_of_succ_le hdepth)
      obtain ⟨deeper, hdeeper, hdown⟩ :=
        steps_negated spiral depth (.ident "a") (maxNesting - 1) stack g
      have hroom : ¬ maxReferences ≤ depth := Nat.not_le_of_lt hdepth
      refine ⟨.ident "a" :: deeper, ?_, hsteps.trans (hdown.trans (Steps.call ?_))⟩
      · rw [List.length_cons, hdeeper, hlength, Nat.succ_mul]
        simp only [maxNesting]
      · rw [enter, if_neg hroom]
        exact .refl

/-- The tree is within the limit, and its evaluation meets the bound. -/
theorem spiral_meets_bound : turn.height ≤ maxNesting ∧
    (∀ name b, spiral.bound name = some b → b.height ≤ maxNesting) ∧
    (∀ st, Steps spiral (start turn (.ofSeed 7)) st →
      st.calls ≤ (maxReferences + 1) * maxNesting) ∧
    ∃ st, Steps spiral (start turn (.ofSeed 7)) st ∧
      st.calls = (maxReferences + 1) * maxNesting := by
  have hturn : turn.height ≤ maxNesting := by
    rw [turn, height_negated, Expr.height]
    decide
  have hspiral : ∀ name b, spiral.bound name = some b → b.height ≤ maxNesting := by
    intro name b hb
    obtain ⟨-, rfl⟩ : name = "a" ∧ turn = b := by simpa [spiral] using hb
    exact hturn
  obtain ⟨-, -, hcalls⟩ := evaluation_calls_bounded spiral turn hturn hspiral (.ofSeed 7)
  refine ⟨hturn, hspiral, fun st hst => (hcalls st hst).2, ?_⟩
  obtain ⟨stack, hlength, hsteps⟩ := steps_spiral (g := .ofSeed 7) (Nat.le_refl maxReferences)
  obtain ⟨deeper, hdeeper, hdown⟩ :=
    steps_negated spiral maxReferences (.ident "a") (maxNesting - 1) stack (.ofSeed 7)
  refine ⟨_, hsteps.trans hdown, ?_⟩
  rw [State.calls, hdeeper, hlength]
  decide

end Machine

end LSystem.Eval
