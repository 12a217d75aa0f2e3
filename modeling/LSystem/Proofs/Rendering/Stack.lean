import LSystem.Proofs.Derivation.Balance
import LSystem.Proofs.Rendering.Walk

/-!
# The saved poses

While the turtle follows a string it has as many poses saved as the string so
far has left branches open.  So a drawing fails at a bracket exactly where the
level of the string leaves the range from zero to the greatest depth, unless it has
failed before, and the strings that come of balanced rules have no such place.
-/

namespace LSystem

open Syntax Eval Randomness

variable {config : RenderConfig} {spec : Specification} {c : Context} {walk next last : Walk}
  {g g' : Generator} {position : Nat} {symbol : Symbol} {u : List Symbol}

/-! ### One symbol -/

/-- A symbol changes the number of saved poses by its level. An opening bracket saves one more, a
closing one takes one back and a name leaves them alone. -/
theorem Visits.depth_eq (h : Visits config spec c walk symbol g next g') :
    (next.depth : Int) = walk.depth + level [symbol] := by
  cases h with
  | push hroom =>
      rw [level_push]
      rfl
  | pop hsaved =>
      rename_i pose saved
      have hdepth : walk.depth = saved.length + 1 := by
        rw [Walk.depth, hsaved, List.length_cons]
      rw [level_pop, hdepth]
      exact (by omega : (saved.length : Int) = (saved.length + 1 : Nat) + -1)
  | named hmoves hfinite =>
      rw [level_named, Int.add_zero, Walk.depth, saved_moveTo]
      rfl

/-- A string changes the number of saved poses by its level. The levels of the symbols add up, by
induction on the string. -/
theorem Follows.depth_eq (h : Follows config spec c walk u g last g') :
    (last.depth : Int) = walk.depth + level u := by
  induction h with
  | nil walk g => rw [level_nil, Int.add_zero]
  | cons hvisits hrest ih =>
      rename_i walk next last g middle g' symbol rest
      have hnext := hvisits.depth_eq
      rw [ih, level_cons symbol rest]
      omega

/-- No symbol saves more poses than may be saved. An opening bracket on a full stack is
refused. -/
theorem Visits.depth_le (h : Visits config spec c walk symbol g next g')
    (hwalk : walk.depth ≤ config.maxDepth) : next.depth ≤ config.maxDepth := by
  cases h with
  | push hroom => exact hroom
  | pop hsaved =>
      rw [Walk.depth, hsaved] at hwalk
      exact Nat.le_of_succ_le hwalk
  | named hmoves hfinite =>
      rw [Walk.depth, saved_moveTo]
      exact hwalk

/-- A walk never has more poses saved than the configuration allows, since an opening bracket has
been checked against it. -/
theorem Follows.depth_le (h : Follows config spec c walk u g last g')
    (hwalk : walk.depth ≤ config.maxDepth) : last.depth ≤ config.maxDepth :=
  h.keeps Visits.depth_le hwalk

/-- From the start on, the number of saved poses is the level. -/
theorem Follows.depth_start (h : Follows config spec c (.start config) u g last g') :
    (last.depth : Int) = level u := by
  have hstart : (Walk.start config).depth = 0 := rfl
  rw [h.depth_eq, hstart, Int.natCast_zero, Int.zero_add]

/-- The levels of a string that is followed from the start stay between zero and the
greatest depth. -/
theorem Follows.level_range (h : Follows config spec c (.start config) u g last g')
    {p : List Symbol} (hp : p <+: u) : 0 ≤ level p ∧ level p ≤ config.maxDepth := by
  obtain ⟨rest, rfl⟩ := hp
  obtain ⟨reached, middle, hreached, -⟩ := follows_append_iff.1 h
  have hdepth := hreached.depth_start
  have hle := hreached.depth_le (Nat.zero_le _)
  omega

namespace Walk

/-- How a symbol can fail: a bracket by the number of saved poses, a name by its
motion. -/
theorem fails_visit_cases {e : RenderError}
    (h : Fails (walk.visit config spec c position symbol) g e g') :
    (symbol = .push ∧ config.maxDepth ≤ walk.depth ∧
        e = .stackOverflow position config.maxDepth) ∨
      (symbol = .pop ∧ walk.depth = 0 ∧ e = .stackUnderflow position) ∨
      ∃ name, symbol = .named name ∧
        ((∃ cause, e = .evaluation cause) ∨ e = .nonFinitePose position) := by
  cases symbol with
  | push =>
      rw [visit] at h
      split at h
      · rename_i hdepth
        exact .inl ⟨rfl, hdepth, eq_of_fails_throw h⟩
      · exact absurd h not_fails_pure
  | pop =>
      rw [visit] at h
      split at h
      · rename_i hsaved
        have hdepth : walk.depth = 0 := by
          rw [depth, hsaved, List.length_nil]
        exact .inr (.inl ⟨rfl, hdepth, eq_of_fails_throw h⟩)
      · exact absurd h not_fails_pure
  | named name =>
      refine .inr (.inr ⟨name, rfl, ?_⟩)
      obtain hperform | ⟨moved, middle, -, hrest⟩ := fails_bind_cases h
      · obtain ⟨cause, hcause, -⟩ := fails_adapt_iff.1 hperform
        exact .inl ⟨cause, hcause⟩
      · split at hrest
        · exact absurd hrest not_fails_pure
        · exact .inr (eq_of_fails_throw hrest)

/-- An opening bracket on a full stack is the error that tells its place and the greatest depth,
and takes no draw. -/
theorem fails_visit_push (hfull : config.maxDepth ≤ walk.depth) :
    Fails (walk.visit config spec c position .push) g (.stackOverflow position config.maxDepth)
      g := by
  rw [visit, if_pos hfull]
  rfl

/-- A closing bracket without a saved pose is the error that tells its place, and takes no
draw. -/
theorem fails_visit_pop (hroot : walk.depth = 0) :
    Fails (walk.visit config spec c position .pop) g (.stackUnderflow position) g := by
  rw [visit, List.length_eq_zero_iff.1 hroot]
  rfl

/-! ### A whole string -/

/-- A walk along a string fails at a symbol that it reaches. The induction is on the string, with
the place of its first symbol counted along. -/
theorem fails_follow_iff {e : RenderError} :
    ∀ {position : Nat} {walk : Walk} {g : Generator},
      Fails (follow config spec c position u walk) g e g' ↔
        ∃ i symbol reached middle, u[i]? = some symbol ∧
          Follows config spec c walk (u.take i) g reached middle ∧
          Fails (reached.visit config spec c (position + i) symbol) middle e g' := by
  induction u with
  | nil =>
      intro position walk g
      constructor
      · intro h
        exact absurd h not_fails_pure
      · rintro ⟨i, symbol, reached, middle, hsymbol, -⟩
        cases hsymbol
  | cons first rest ih =>
      intro position walk g
      constructor
      · intro h
        obtain hvisit | ⟨next, middle, hvisit, hrest⟩ := fails_bind_cases h
        · exact ⟨0, first, walk, g, rfl, .nil walk g, hvisit⟩
        · obtain ⟨i, symbol, reached, start, hsymbol, hreached, hfails⟩ := ih.1 hrest
          refine ⟨i + 1, symbol, reached, start, hsymbol,
            .cons (answers_visit_iff.1 hvisit) hreached, ?_⟩
          rw [Nat.add_right_comm, Nat.add_assoc] at hfails
          exact hfails
      · rintro ⟨i, symbol, reached, middle, hsymbol, hreached, hfails⟩
        cases i with
        | zero =>
            cases hsymbol
            cases hreached
            exact hfails.bind
        | succ i =>
            cases hreached with
            | cons hvisits hrest =>
                refine (answers_visit_iff.2 hvisits).bind_fails (ih.2 ?_)
                refine ⟨i, symbol, reached, middle, hsymbol, hrest, ?_⟩
                rw [Nat.add_right_comm, Nat.add_assoc]
                exact hfails

end Walk

/-! ### Drawings -/

/-- A drawing fails at a symbol that the walk reaches. It is the first symbol whose visit fails,
and the symbols before it have been followed. -/
theorem render_eq_error_iff {e : RenderError} : render config spec c u = .error e ↔
    ∃ i symbol reached middle g', u[i]? = some symbol ∧
      Follows config spec c (.start config) (u.take i) c.generator reached middle ∧
      Fails (reached.visit config spec c i symbol) middle e g' := by
  have hfollow : render config spec c u = .error e ↔
      ∃ g', Fails (Walk.follow config spec c 0 u (.start config)) c.generator e g' := by
    unfold render Fails
    match (Walk.follow config spec c 0 u (.start config)).run.run c.generator with
    | (.ok last, g) =>
        constructor
        · intro h
          cases h
        · rintro ⟨g', h⟩
          cases h
    | (.error cause, g) =>
        constructor
        · intro h
          cases h
          exact ⟨g, rfl⟩
        · rintro ⟨g', h⟩
          cases h
          rfl
  rw [hfollow]
  constructor
  · rintro ⟨g', hfails⟩
    obtain ⟨i, symbol, reached, middle, hsymbol, hreached, hvisit⟩ := Walk.fails_follow_iff.1 hfails
    rw [Nat.zero_add] at hvisit
    exact ⟨i, symbol, reached, middle, g', hsymbol, hreached, hvisit⟩
  · rintro ⟨i, symbol, reached, middle, g', hsymbol, hreached, hvisit⟩
    rw [← Nat.zero_add i] at hvisit
    exact ⟨g', Walk.fails_follow_iff.2 ⟨i, symbol, reached, middle, hsymbol, hreached, hvisit⟩⟩

/-- A prefix of a string can be drawn exactly when the walk comes to its end, and then
it has saved as many poses as the prefix has left branches open. -/
theorem exists_render_eq_ok_iff : (∃ d, render config spec c u = .ok d) ↔
    ∃ last g, Follows config spec c (.start config) u c.generator last g ∧
      (last.depth : Int) = level u := by
  constructor
  · rintro ⟨d, h⟩
    obtain ⟨last, g, hfollows, -⟩ := render_eq_ok_iff.1 h
    exact ⟨last, g, hfollows, hfollows.depth_start⟩
  · rintro ⟨last, g, hfollows, -⟩
    exact ⟨_, render_eq_ok_iff.2 ⟨last, g, hfollows, rfl⟩⟩

/-- A closing bracket fails where no branch is open. The symbols before it draw without an error,
and they have closed as many branches as they have opened. -/
theorem render_eq_stackUnderflow_iff {i : Nat} :
    render config spec c u = .error (.stackUnderflow i) ↔
      (∃ d, render config spec c (u.take i) = .ok d) ∧ u[i]? = some .pop ∧
        level (u.take i) = 0 := by
  rw [render_eq_error_iff, exists_render_eq_ok_iff]
  constructor
  · rintro ⟨j, symbol, reached, middle, g', hsymbol, hreached, hvisit⟩
    have hdepth := hreached.depth_start
    obtain ⟨-, -, he⟩ | ⟨rfl, hnone, he⟩ | ⟨name, -, ⟨cause, he⟩ | he⟩ :=
      Walk.fails_visit_cases hvisit
    · cases he
    · cases he
      exact ⟨⟨reached, middle, hreached, hdepth⟩, hsymbol, by omega⟩
    · cases he
    · cases he
  · rintro ⟨⟨last, g, hfollows, hdepth⟩, hsymbol, hlevel⟩
    have hroot : last.depth = 0 := by omega
    exact ⟨i, .pop, last, g, g, hsymbol, hfollows, Walk.fails_visit_pop hroot⟩

/-- An opening bracket fails where as many branches are open as may be. The symbols before it draw
without an error, and they have left as many branches open as may be. -/
theorem render_eq_stackOverflow_iff {i limit : Nat} :
    render config spec c u = .error (.stackOverflow i limit) ↔
      limit = config.maxDepth ∧ (∃ d, render config spec c (u.take i) = .ok d) ∧
        u[i]? = some .push ∧ level (u.take i) = config.maxDepth := by
  rw [render_eq_error_iff, exists_render_eq_ok_iff]
  constructor
  · rintro ⟨j, symbol, reached, middle, g', hsymbol, hreached, hvisit⟩
    have hdepth := hreached.depth_start
    have hle := hreached.depth_le (Nat.zero_le _)
    obtain ⟨rfl, hfull, he⟩ | ⟨-, -, he⟩ | ⟨name, -, ⟨cause, he⟩ | he⟩ :=
      Walk.fails_visit_cases hvisit
    · cases he
      exact ⟨rfl, ⟨reached, middle, hreached, hdepth⟩, hsymbol, by omega⟩
    · cases he
    · cases he
    · cases he
  · rintro ⟨rfl, ⟨last, g, hfollows, hdepth⟩, hsymbol, hlevel⟩
    have hfull : config.maxDepth ≤ last.depth := by omega
    exact ⟨i, .push, last, g, g, hsymbol, hfollows, Walk.fails_visit_push hfull⟩

/-- The poses of a walk, from where the turtle stands down to the one it set out
with. -/
def Walk.stack (walk : Walk) : List Pose := walk.pose :: walk.saved

/-- **The stack errors are where the level leaves its range.**  A walk that has come
through a prefix has one pose more than the level of the prefix.  A drawing fails for
want of a saved pose at a place exactly when there is a closing bracket on level zero,
and for too many at an opening one on the level of the greatest depth, provided what
stands before can be drawn.  So all levels of a string that can be drawn are in the
range. -/
theorem stack_errors_at_ends_of_range (config : RenderConfig) (spec : Specification)
    (c : Context) (u : List Symbol) :
    (∀ i walk g, Answers (Walk.follow config spec c 0 (u.take i) (.start config)) c.generator
        walk g → walk.stack ≠ [] ∧ (walk.stack.length : Int) = level (u.take i) + 1) ∧
      (∀ i, render config spec c u = .error (.stackUnderflow i) ↔
        (∃ d, render config spec c (u.take i) = .ok d) ∧ u[i]? = some .pop ∧
          level (u.take i) = 0) ∧
      (∀ i limit, render config spec c u = .error (.stackOverflow i limit) ↔
        limit = config.maxDepth ∧ (∃ d, render config spec c (u.take i) = .ok d) ∧
          u[i]? = some .push ∧ level (u.take i) = config.maxDepth) ∧
      ∀ d, render config spec c u = .ok d →
        ∀ i, 0 ≤ level (u.take i) ∧ level (u.take i) ≤ config.maxDepth := by
  refine ⟨fun i walk g h => ⟨List.cons_ne_nil _ _, ?_⟩,
    fun i => render_eq_stackUnderflow_iff, fun i limit => render_eq_stackOverflow_iff,
    fun d h i => ?_⟩
  · rw [← (answers_follow_iff.1 h).depth_start]
    rfl
  · obtain ⟨last, g, hfollows, -⟩ := render_eq_ok_iff.1 h
    exact hfollows.level_range (List.take_prefix i u)

/-- Where no pose may be saved, no branch may be opened. -/
example : render ⟨90, 1e-10, 0⟩ spec c [.push] = .error (.stackOverflow 0 0) := rfl

/-! ### Balanced programs -/

/-- A closing bracket without a saved pose closes more than was opened before. -/
theorem level_of_stackUnderflow {i : Nat}
    (h : render config spec c u = .error (.stackUnderflow i)) : ∃ p, p <+: u ∧ level p < 0 := by
  obtain ⟨-, hpop, hlevel⟩ := render_eq_stackUnderflow_iff.1 h
  refine ⟨u.take (i + 1), List.take_prefix _ _, ?_⟩
  rw [List.take_add_one, hpop, Option.toList_some, level_append, level_pop, hlevel]
  decide

/-- An opening bracket that saves a pose too many opens more branches than may
be open. -/
theorem level_of_stackOverflow {i limit : Nat}
    (h : render config spec c u = .error (.stackOverflow i limit)) :
    ∃ p, p <+: u ∧ config.maxDepth < level p := by
  obtain ⟨-, -, hpush, hlevel⟩ := render_eq_stackOverflow_iff.1 h
  refine ⟨u.take (i + 1), List.take_prefix _ _, ?_⟩
  rw [List.take_add_one, hpush, Option.toList_some, level_append, level_push, hlevel]
  omega

/-- **Balanced programs never break the stack.**  When the start string and all
bodies of rules are balanced, so are the symbols after any calls, and drawing
them never closes a branch that is not open; nor does it open one too many when
the nesting of the start string and, for each generation, that of a body fit
below the limit. -/
theorem balanced_after_calls {program : Program} {spec : Specification}
    (h : Specification.ofProgram program = .ok spec) (hstart : Balanced spec.start)
    (hbodies : spec.BalancedBodies) (maxSymbols : Nat) (context : Context)
    (calls : List Run.Call) :
    let run := (⟨.new spec maxSymbols, context⟩ : Run).after calls
    Balanced run.derivation.symbols ∧
      ∀ (config : RenderConfig) (c : Context),
        (∀ i, render config spec c run.derivation.symbols ≠ .error (.stackUnderflow i)) ∧
          (nesting spec.start + run.derivation.generations * spec.bodyNesting ≤ config.maxDepth →
            ∀ i limit,
              render config spec c run.derivation.symbols ≠ .error (.stackOverflow i limit)) := by
  intro run
  have hindex := Specification.indexed_ofProgram h
  obtain ⟨older, hlineage, hlength⟩ := (Run.traced_after hindex maxSymbols context calls).lineage
  obtain ⟨hbalanced, hnesting⟩ := hlineage.balanced hbodies hstart
  rw [hlength] at hnesting
  refine ⟨hbalanced, ?_⟩
  intro config c
  constructor
  · intro i hrender
    obtain ⟨p, hp, hlevel⟩ := level_of_stackUnderflow hrender
    have hlow := (balanced_iff.1 hbalanced).1 p hp
    omega
  · intro hfits i limit hrender
    obtain ⟨p, hp, hlevel⟩ := level_of_stackOverflow hrender
    have hhigh := level_le_nesting hp
    have hmax : nesting run.derivation.symbols ≤ config.maxDepth := Nat.le_trans hnesting hfits
    omega

/-- A tree that grows a branch in every generation. -/
def tree : Program :=
  [.start [.named "F"], .rule "F" [.named "F", .push, .named "+", .named "F", .pop] none]

/-- The theorem at a tree with one branch more in every generation: after two steps its string is
balanced, and drawing it never overflows the stack. -/
theorem tree_stays_balanced : ∃ spec, Specification.ofProgram tree = .ok spec ∧
    let run := (⟨.new spec 100, .initial (.ofSeed 7)⟩ : Run).after [.step, .step]
    run.derivation.generations = 2 ∧ Balanced run.derivation.symbols ∧
      ∀ i limit, render .standard spec (.initial (.ofSeed 7)) run.derivation.symbols ≠
        .error (.stackOverflow i limit) := by
  refine ⟨_, rfl, rfl, ?_⟩
  obtain ⟨hbalanced, hrender⟩ := balanced_after_calls
    (show Specification.ofProgram tree = .ok _ from rfl) (by decide) (by decide) 100
    (.initial (.ofSeed 7)) [.step, .step]
  exact ⟨hbalanced, (hrender .standard (.initial (.ofSeed 7))).2 (by decide)⟩

end LSystem
