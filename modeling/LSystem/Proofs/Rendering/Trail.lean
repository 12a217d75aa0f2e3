import LSystem.Proofs.Rendering.Branch
import Mathlib.Data.List.Induction
import Mathlib.Logic.Relation

/-!
# The trail of the turtle

Where a line starts is told by the brackets before its symbol.  A branch that is
closed leaves no trace behind it: the turtle stands where it stood before the
branch.  So a line starts at the end of the line that was drawn last outside of
the branches that are closed by then, or at the origin where there is no such
line.

The invariant of a walk, `Walk.OnTrail`, says this of the position of the turtle
behind any string.  It goes by the length of the string, not symbol by symbol: a
closing bracket takes the turtle back to a string that may be much shorter.
-/

namespace LSystem

open Syntax Eval Randomness

/-! ### Closed branches -/

/-- The symbol at a place lies in a branch that is closed within the string. -/
def InClosedBranch (u : List Symbol) (i : Nat) : Prop :=
  ∃ before branch after : List Symbol, u = before ++ .push :: (branch ++ .pop :: after) ∧
    Balanced branch ∧ before.length < i ∧ i ≤ before.length + branch.length

variable {u v w b : List Symbol} {symbol : Symbol} {i : Nat}

/-- What lies in a closed branch lies in one however the string goes on, since the branch is
closed within the string so far. -/
theorem InClosedBranch.append (h : InClosedBranch u i) (v : List Symbol) :
    InClosedBranch (u ++ v) i := by
  obtain ⟨before, branch, after, rfl, hbalanced, hfrom, hto⟩ := h
  exact ⟨before, branch, after ++ v, by simp, hbalanced, hfrom, hto⟩

/-- Only a closing bracket closes a branch. A branch that lies in the longer string and is closed
there ends before the new symbol. -/
theorem inClosedBranch_append_singleton (hsymbol : symbol ≠ .pop) :
    InClosedBranch (u ++ [symbol]) i ↔ InClosedBranch u i := by
  refine ⟨?_, fun h => h.append [symbol]⟩
  rintro ⟨before, branch, after, hu, hbalanced, hfrom, hto⟩
  rcases List.eq_nil_or_concat after with rfl | ⟨after, last, rfl⟩
  · -- the closing bracket would be the last symbol
    have hlast : u ++ [symbol] = (before ++ .push :: branch) ++ [.pop] := by
      rw [hu, List.append_assoc, List.cons_append]
    exact absurd (List.append_inj_right' hlast rfl) (by simpa using hsymbol)
  · have hinit : u ++ [symbol] = (before ++ .push :: (branch ++ .pop :: after)) ++ [last] := by
      simpa using hu
    exact ⟨before, branch, after, List.append_inj_left' hinit rfl, hbalanced, hfrom, hto⟩

/-- A balanced string that is closed ends before a balanced branch begins behind it. If the branch
reached past `inner`, it would have to close the bracket there, which `b` leaves open. -/
theorem Balanced.length_lt {inner branch after : List Symbol}
    (hbranch : Balanced branch) (hb : Balanced b)
    (heq : inner ++ .push :: (b ++ [.pop]) = branch ++ .pop :: after) :
    branch.length < inner.length := by
  obtain ⟨hbranchLow, hbranchLevel⟩ := balanced_iff.1 hbranch
  obtain ⟨hbLow, -⟩ := balanced_iff.1 hb
  rcases List.append_eq_append_iff.1 heq with ⟨tail, hsplit, htail⟩ | ⟨tail, hsplit, htail⟩
  · cases tail with
    | nil =>
        rw [List.nil_append] at htail
        cases htail
    | cons first tail =>
        obtain ⟨rfl, hrest⟩ := List.cons.inj htail
        -- `tail`, the rest of the branch, begins `b` and has to close `push`
        have hprefix : tail <+: b := by
          rcases List.eq_nil_or_concat after with rfl | ⟨after, last, rfl⟩
          · exact ⟨[], by simpa using (List.append_inj_left' hrest rfl).symm⟩
          · have hinit : b ++ [Symbol.pop] = (tail ++ .pop :: after) ++ [last] := by
              simpa using hrest
            exact ⟨_, (List.append_inj_left' hinit rfl).symm⟩
        have hlow := hbLow tail hprefix
        have hinnerLow := hbranchLow inner ⟨_, hsplit.symm⟩
        rw [hsplit, level_append, level_cons, level_push] at hbranchLevel
        omega
  · cases tail with
    | nil =>
        rw [List.nil_append] at htail
        cases htail
    | cons first tail =>
        rw [hsplit, List.length_append, List.length_cons]
        omega

/-- Two branches that are closed lie one in the other or one behind the other. Where they
overlapped, the level inside of one would fall below zero. -/
theorem length_le_of_overlap {before branch after : List Symbol}
    (heq : w ++ .push :: (b ++ [.pop]) = before ++ .push :: (branch ++ .pop :: after))
    (hb : Balanced b) (hbranch : Balanced branch) (hlt : before.length < w.length) :
    before.length + branch.length + 2 ≤ w.length := by
  -- what follows the first opening bracket in `w`
  obtain ⟨inner, hw, hinner⟩ : ∃ inner, w = before ++ .push :: inner ∧
      inner ++ .push :: (b ++ [.pop]) = branch ++ .pop :: after := by
    rcases List.append_eq_append_iff.1 heq with ⟨tail, rfl, -⟩ | ⟨tail, rfl, htail⟩
    · rw [List.length_append] at hlt
      omega
    · cases tail with
      | nil =>
          rw [List.append_nil] at hlt
          omega
      | cons first inner =>
          rw [List.cons_append] at htail
          obtain ⟨rfl, hinner⟩ := List.cons.inj htail
          exact ⟨inner, rfl, hinner.symm⟩
  have hless := hbranch.length_lt hb hinner
  rw [hw, List.length_append, List.length_cons]
  omega

/-- What a closing bracket closes: the branch that it ends, and the branches that were
closed before that one. -/
theorem inClosedBranch_closed_iff (hb : Balanced b) :
    InClosedBranch (w ++ .push :: (b ++ [.pop])) i ↔
      InClosedBranch w i ∨ w.length < i ∧ i ≤ w.length + b.length := by
  constructor
  · rintro ⟨before, branch, after, heq, hbranch, hfrom, hto⟩
    have hlength := congrArg List.length heq
    simp only [List.length_append, List.length_cons, List.length_nil] at hlength
    by_cases hlt : before.length < w.length
    · have hle := length_le_of_overlap heq hb hbranch hlt
      left
      have hword : before ++ .push :: (branch ++ [.pop]) <+: w ++ .push :: (b ++ [.pop]) :=
        ⟨after, by rw [heq]; simp⟩
      have hcut : before ++ .push :: (branch ++ [.pop]) <+: w := by
        refine List.prefix_of_prefix_length_le hword (List.prefix_append _ _) ?_
        simp only [List.length_append, List.length_cons, List.length_nil]
        omega
      obtain ⟨rest, rfl⟩ := hcut
      exact ⟨before, branch, rest, by simp, hbranch, hfrom, hto⟩
    · exact .inr ⟨by omega, by omega⟩
  · rintro (h | ⟨hfrom, hto⟩)
    · exact h.append _
    · exact ⟨w, b, [], rfl, hb, hfrom, hto⟩

/-- A balanced string behind a balanced one is balanced: what begins the two together begins the
first, or is the first with what begins the second. -/
theorem Balanced.append (hu : Balanced u) (hv : Balanced v) : Balanced (u ++ v) := by
  refine balanced_iff.2 ⟨fun p hp => ?_, ?_⟩
  · rcases prefix_append_cases hp with hp | ⟨q, hq, rfl⟩
    · exact (balanced_iff.1 hu).1 p hp
    · rw [level_append, hu.2, Int.zero_add]
      exact (balanced_iff.1 hv).1 q hq
  · rw [level_append, hu.2, hv.2, Int.add_zero]

/-- A single name is a balanced string, the smallest branch that draws. -/
theorem balanced_named (name : String) : Balanced [.named name] := by
  refine balanced_iff.2 ⟨fun p hp => ?_, level_named name⟩
  rcases List.prefix_cons_iff.1 hp with rfl | ⟨q, rfl, hq⟩
  · exact Int.le_refl _
  · rw [List.prefix_nil.1 hq, level_named]

/-- A branch is balanced with its brackets when it is without. The brackets raise the level inside
by one and come back to zero at the end. -/
theorem Balanced.closed (hb : Balanced b) : Balanced (.push :: (b ++ [.pop])) := by
  refine balanced_iff.2 ⟨fun p hp => ?_, ?_⟩
  · rcases List.prefix_cons_iff.1 hp with rfl | ⟨inner, rfl, hinner⟩
    · exact Int.le_refl _
    · rw [level_cons, level_push]
      rcases prefix_append_cases hinner with hinside | ⟨q, hq, rfl⟩
      · have hlow := (balanced_iff.1 hb).1 inner hinside
        omega
      · rcases List.prefix_cons_iff.1 hq with rfl | ⟨rest, rfl, hrest⟩
        · rw [List.append_nil, hb.2]
          omega
        · rw [List.prefix_nil.1 hrest, level_append, hb.2, level_pop]
          omega
  · rw [level_cons, level_append, level_push, level_pop, hb.2]
    omega

/-- A string that leaves branches open ends with the inside of the one that was opened
last. -/
theorem exists_open_branch : ∀ {u : List Symbol}, (∀ p, p <+: u → 0 ≤ level p) → 1 ≤ level u →
    ∃ w b, u = w ++ .push :: b ∧ Balanced b := by
  intro u
  induction hn : u.length using Nat.strongRecOn generalizing u with
  | ind n ih =>
      intro hlow hlevel
      rcases List.eq_nil_or_concat u with rfl | ⟨u, last, rfl⟩
      · rw [level_nil] at hlevel
        omega
      · rw [List.concat_eq_append] at hn hlow hlevel ⊢
        have hlowInit (p : List Symbol) (hp : p <+: u) : 0 ≤ level p :=
          hlow p (hp.trans (List.prefix_append u [last]))
        rw [List.length_append, List.length_singleton] at hn
        rw [level_append] at hlevel
        cases last with
        | push => exact ⟨u, [], rfl, by decide⟩
        | named name =>
            rw [level_named] at hlevel
            obtain ⟨w, b, rfl, hb⟩ := ih u.length (by omega) rfl hlowInit (by omega)
            exact ⟨w, b ++ [.named name], by simp, hb.append (balanced_named name)⟩
        | pop =>
            -- the bracket closes a branch, which lies in the one that stays open
            rw [level_pop] at hlevel
            obtain ⟨w, b, rfl, hb⟩ := ih u.length (by omega) rfl hlowInit (by omega)
            rw [level_append, level_cons, level_push, hb.2] at hlevel
            rw [List.length_append, List.length_cons] at hn
            obtain ⟨w, b', rfl, hb'⟩ := ih w.length (by omega) rfl
              (fun p hp => hlowInit p (hp.trans (List.prefix_append w _))) (by omega)
            exact ⟨w, b' ++ .push :: (b ++ [.pop]), by simp, hb'.append hb.closed⟩

/-! ### The line that was drawn last -/

variable {spec : Specification}

/-- The symbol at a place of the string draws. -/
def Specification.DrawsAt (spec : Specification) (u : List Symbol) (i : Nat) : Prop :=
  ∃ symbol, u[i]? = some symbol ∧ spec.draws symbol

/-- The symbol at a place draws, it lies in no closed branch of the string, and all
symbols behind it that draw lie in one. -/
structure Specification.DrawsLast (spec : Specification) (u : List Symbol) (i : Nat) : Prop where
  draws : spec.DrawsAt u i
  outside : ¬ InClosedBranch u i
  last : ∀ j, i < j → spec.DrawsAt u j → InClosedBranch u j

theorem Specification.DrawsAt.lt_length (h : spec.DrawsAt u i) : i < u.length := by
  obtain ⟨symbol, hi, -⟩ := h
  exact (List.getElem?_eq_some_iff.1 hi).1

/-- Whether the symbol at a place of a string draws does not depend on what comes behind the
string. -/
theorem Specification.drawsAt_append_left (hi : i < u.length) :
    spec.DrawsAt (u ++ v) i ↔ spec.DrawsAt u i := by
  unfold DrawsAt
  rw [List.getElem?_append_left hi]

/-- The place behind a string is that of the symbol that is added there. -/
theorem Specification.drawsAt_length : spec.DrawsAt (u ++ symbol :: v) u.length ↔
    spec.draws symbol := by
  unfold DrawsAt
  rw [List.getElem?_append_right (Nat.le_refl _), Nat.sub_self, List.getElem?_cons_zero]
  simp

/-- A place in a closed branch is a place of the string, the closing bracket behind it being one
too. -/
theorem InClosedBranch.lt_length (h : InClosedBranch u i) : i < u.length := by
  obtain ⟨before, branch, after, rfl, -, -, hto⟩ := h
  simp only [List.length_append, List.length_cons]
  omega

/-- Behind a symbol that does not draw and closes no branch the same symbol has drawn
last. -/
theorem Specification.drawsLast_append_of_not_draws (hdraws : ¬ spec.draws symbol)
    (hsymbol : symbol ≠ .pop) : spec.DrawsLast (u ++ [symbol]) i ↔ spec.DrawsLast u i := by
  have hdrawsAt (j : Nat) : spec.DrawsAt (u ++ [symbol]) j ↔ spec.DrawsAt u j := by
    rcases Nat.lt_trichotomy j u.length with hlt | rfl | hgt
    · exact drawsAt_append_left hlt
    · refine iff_of_false (fun h => hdraws (drawsAt_length.1 h)) fun h => ?_
      exact absurd h.lt_length (Nat.lt_irrefl _)
    · refine iff_of_false (fun h => ?_) fun h => absurd h.lt_length (Nat.lt_asymm hgt)
      have hlt := h.lt_length
      rw [List.length_append, List.length_singleton] at hlt
      omega
  constructor
  · rintro ⟨hi, houtside, hlast⟩
    rw [inClosedBranch_append_singleton hsymbol] at houtside
    refine ⟨(hdrawsAt i).1 hi, houtside, fun j hj hdraws => ?_⟩
    exact (inClosedBranch_append_singleton hsymbol).1 (hlast j hj ((hdrawsAt j).2 hdraws))
  · rintro ⟨hi, houtside, hlast⟩
    refine ⟨(hdrawsAt i).2 hi, ?_, fun j hj hdraws => ?_⟩
    · rwa [inClosedBranch_append_singleton hsymbol]
    · exact (hlast j hj ((hdrawsAt j).1 hdraws)).append [symbol]

/-- A symbol that draws has drawn last. No branch is closed behind it yet. -/
theorem Specification.drawsLast_append_of_draws (hdraws : spec.draws symbol) :
    spec.DrawsLast (u ++ [symbol]) i ↔ i = u.length := by
  have hsymbol : symbol ≠ .pop := by
    rintro rfl
    cases hdraws
  have houtside : ¬ InClosedBranch (u ++ [symbol]) u.length := fun h =>
    absurd ((inClosedBranch_append_singleton hsymbol).1 h).lt_length (Nat.lt_irrefl _)
  constructor
  · rintro ⟨hi, -, hlast⟩
    have hlt := hi.lt_length
    rw [List.length_append, List.length_singleton] at hlt
    by_contra hne
    exact houtside (hlast u.length (by omega) (drawsAt_length.2 hdraws))
  · rintro rfl
    refine ⟨drawsAt_length.2 hdraws, houtside, fun j hj hdraws => ?_⟩
    have hlt := hdraws.lt_length
    rw [List.length_append, List.length_singleton] at hlt
    omega

/-- Behind a branch the symbol that had drawn last before it has drawn last. All symbols of the
branch lie in it, and it is closed. -/
theorem Specification.drawsLast_closed_iff (hb : Balanced b) :
    spec.DrawsLast (w ++ .push :: (b ++ [.pop])) i ↔ spec.DrawsLast w i := by
  -- a place that draws is before the branch or in it
  have hplace {j : Nat} (h : spec.DrawsAt (w ++ .push :: (b ++ [.pop])) j) :
      j < w.length ∨ w.length < j ∧ j ≤ w.length + b.length := by
    have hlt := h.lt_length
    simp only [List.length_append, List.length_cons, List.length_nil] at hlt
    by_contra hbracket
    obtain rfl | rfl : j = w.length ∨ j = (w ++ .push :: b).length := by
      rw [List.length_append, List.length_cons]
      omega
    · cases drawsAt_length.1 h
    · rw [← List.cons_append, ← List.append_assoc] at h
      cases drawsAt_length.1 h
  constructor
  · rintro ⟨hi, houtside, hlast⟩
    rw [inClosedBranch_closed_iff hb, not_or] at houtside
    obtain hlt | hin := hplace hi
    · refine ⟨(drawsAt_append_left hlt).1 hi, houtside.1, fun j hj hdraws => ?_⟩
      have hjlt := hdraws.lt_length
      rcases (inClosedBranch_closed_iff hb).1
        (hlast j hj ((drawsAt_append_left hjlt).2 hdraws)) with h | h
      · exact h
      · omega
    · exact absurd hin houtside.2
  · rintro ⟨hi, houtside, hlast⟩
    have hlt := hi.lt_length
    refine ⟨(drawsAt_append_left hlt).2 hi, ?_, fun j hj hdraws => ?_⟩
    · rw [inClosedBranch_closed_iff hb, not_or]
      exact ⟨houtside, by omega⟩
    · rw [inClosedBranch_closed_iff hb]
      obtain hjlt | hin := hplace hdraws
      · exact .inl (hlast j hj ((drawsAt_append_left hjlt).1 hdraws))
      · exact .inr hin

/-! ### The position of the turtle -/

variable {config : RenderConfig} {c : Context} {walk next last : Walk} {g g' : Generator}

/-- A motion draws a line from the old position to the new one, or it leaves the turtle
where it is. -/
theorem Moves.position_cases {epsilon : Float} {s : Scope} {pose moved : Pose}
    {motion : Motion Stroke} {line : Option (Segment Float)}
    (h : Moves epsilon s pose motion g moved line g') :
    (line = none ∧ moved.position = pose.position) ∨
      ∃ l, line = some l ∧ l.start = pose.position ∧ l.finish = moved.position := by
  cases h with
  | turn hangle => exact .inl ⟨rfl, rfl⟩
  | advance hdistance hstroke => exact .inr ⟨_, rfl, rfl, rfl⟩
  | shift hx hy hstroke => exact .inr ⟨_, rfl, rfl, rfl⟩

/-- A symbol that draws adds a line from the old position to the new one. Only a turn draws
nothing, and a turn is no symbol that draws. -/
theorem Visits.line_of_draws (h : Visits config spec c walk symbol g next g')
    (hdraws : spec.draws symbol) : ∃ line : Segment Float, line.start = walk.pose.position ∧
      line.finish = next.pose.position ∧
        next.drawing.segments = walk.drawing.segments.push line := by
  cases h with
  | push hroom => cases hdraws
  | pop hsaved => cases hdraws
  | named hmoves hfinite =>
      have hsome := hmoves.isSome_line
      rw [Specification.draws] at hdraws
      rw [hdraws] at hsome
      rcases hmoves.position_cases with ⟨rfl, -⟩ | ⟨line, rfl, hstart, hfinish⟩
      · cases hsome
      · exact ⟨line, hstart, hfinish, rfl⟩

/-- A symbol that neither draws nor closes a branch leaves the position and the lines. -/
theorem Visits.position_of_not_draws (h : Visits config spec c walk symbol g next g')
    (hdraws : ¬ spec.draws symbol) (hsymbol : symbol ≠ .pop) :
    next.pose.position = walk.pose.position ∧
      next.drawing.segments = walk.drawing.segments := by
  cases h with
  | push hroom => exact ⟨rfl, rfl⟩
  | pop hsaved => exact absurd rfl hsymbol
  | named hmoves hfinite =>
      have hsome := hmoves.isSome_line
      rcases hmoves.position_cases with ⟨rfl, hposition⟩ | ⟨line, rfl, -⟩
      · exact ⟨hposition, rfl⟩
      · exact absurd hsome.symm hdraws

/-- A walk adds one line for every symbol that draws, behind the lines that were there, so lines
are counted by counting symbols. -/
theorem Follows.segments_eq (h : Follows config spec c walk u g last g') :
    ∃ lines : List (Segment Float), lines.length = spec.lines u ∧
      last.drawing.segments = walk.drawing.segments ++ lines.toArray := by
  obtain ⟨lines, hlength, hdrawing, -⟩ := h.frame
  exact ⟨lines, hlength, by rw [hdrawing, Drawing.extend]⟩

/-- What was drawn stays drawn. Lines are only ever added at the end. -/
theorem Follows.getElem?_segments (h : Follows config spec c walk u g last g')
    {line : Segment Float} (hline : walk.drawing.segments[i]? = some line) :
    last.drawing.segments[i]? = some line := by
  obtain ⟨lines, -, hsegments⟩ := h.segments_eq
  have hlt : i < walk.drawing.segments.size := (Array.getElem?_eq_some_iff.1 hline).1
  rw [hsegments, Array.getElem?_append_left hlt]
  exact hline

/-- From the start as many lines are drawn as there are symbols that draw. -/
theorem Follows.size_segments (h : Follows config spec c (.start config) u g last g') :
    last.drawing.segments.size = spec.lines u := by
  obtain ⟨lines, hlength, hsegments⟩ := h.segments_eq
  rw [hsegments]
  simpa [Walk.start, Drawing.empty] using hlength

/-- The turtle stands where the line ends that was drawn last outside of closed
branches, and at the origin without such a line. -/
structure Walk.OnTrail (walk : Walk) (spec : Specification) (u : List Symbol) : Prop where
  resumes : ∀ p, spec.DrawsLast u p → ∃ line : Segment Float,
    walk.drawing.segments[spec.lines (u.take p)]? = some line ∧ walk.pose.position = line.finish
  fresh : (∀ p, ¬ spec.DrawsLast u p) → walk.pose.position = ⟨0, 0⟩

/-- A symbol that draws leaves the turtle at the end of its line. -/
theorem Walk.OnTrail.of_draws (hu : Follows config spec c (.start config) u g walk g')
    {g'' : Generator} (h : Visits config spec c walk symbol g' next g'')
    (hdraws : spec.draws symbol) : next.OnTrail spec (u ++ [symbol]) := by
  obtain ⟨line, -, hfinish, hsegments⟩ := h.line_of_draws hdraws
  refine ⟨fun p hp => ⟨line, ?_, hfinish.symm⟩, fun hnone => ?_⟩
  · obtain rfl := (Specification.drawsLast_append_of_draws hdraws).1 hp
    rw [List.take_left, ← hu.size_segments, hsegments, Array.getElem?_push_size]
  · exact absurd ((Specification.drawsLast_append_of_draws hdraws).2 rfl) (hnone u.length)

/-- A symbol that neither draws nor closes a branch leaves the turtle where it is. -/
theorem Walk.OnTrail.of_not_draws (hwalk : walk.OnTrail spec u)
    (h : Visits config spec c walk symbol g next g') (hdraws : ¬ spec.draws symbol)
    (hsymbol : symbol ≠ .pop) : next.OnTrail spec (u ++ [symbol]) := by
  obtain ⟨hposition, hsegments⟩ := h.position_of_not_draws hdraws hsymbol
  refine ⟨fun p hp => ?_, fun hnone => ?_⟩
  · have hlast := (Specification.drawsLast_append_of_not_draws hdraws hsymbol).1 hp
    rw [hposition, hsegments, List.take_append_of_le_length hlast.draws.lt_length.le]
    exact hwalk.resumes p hlast
  · rw [hposition]
    refine hwalk.fresh fun p hp => hnone p ?_
    exact (Specification.drawsLast_append_of_not_draws hdraws hsymbol).2 hp

/-- A closing bracket takes the turtle back to where it was before the branch. -/
theorem Walk.OnTrail.of_closed {g'' : Generator} (hwalk : walk.OnTrail spec w)
    (hb : Balanced b) (hbranch : Follows config spec c walk (.push :: b) g next g')
    (hpop : Visits config spec c next .pop g' last g'') :
    last.OnTrail spec (w ++ .push :: (b ++ [.pop])) := by
  obtain ⟨entry, middle, hpush, hinside⟩ := follows_append_iff (u := [.push]).1 hbranch
  obtain ⟨-, -, -, rfl⟩ := Follows.branch (follows_singleton_iff.1 hpush) hinside hb hpop
  refine ⟨fun p hp => ?_, fun hnone => ?_⟩
  · have hlast := (Specification.drawsLast_closed_iff hb).1 hp
    obtain ⟨line, hline, hposition⟩ := hwalk.resumes p hlast
    rw [List.take_append_of_le_length hlast.draws.lt_length.le]
    exact ⟨line, hbranch.getElem?_segments hline, hposition⟩
  · exact hwalk.fresh fun p hp => hnone p ((Specification.drawsLast_closed_iff hb).2 hp)

/-- **The turtle is on its trail** behind every string that it has followed. The induction is on
the length of the string, as a closing bracket refers to the string before its branch. -/
theorem Follows.onTrail {u : List Symbol} {last : Walk} {g' : Generator}
    (h : Follows config spec c (.start config) u g last g') : last.OnTrail spec u := by
  induction hn : u.length using Nat.strongRecOn generalizing u last g' with
  | ind n ih =>
      rcases List.eq_nil_or_concat u with rfl | ⟨u, symbol, rfl⟩
      · cases h
        exact ⟨fun p hp => absurd hp.draws.lt_length (Nat.not_lt_zero p), fun _ => rfl⟩
      · rw [List.concat_eq_append] at hn h ⊢
        rw [List.length_append, List.length_singleton] at hn
        obtain ⟨walk, middle, hu, hsymbol⟩ := follows_append_iff.1 h
        have hvisits := follows_singleton_iff.1 hsymbol
        by_cases hdraws : spec.draws symbol
        · exact .of_draws hu hvisits hdraws
        · by_cases hpop : symbol = .pop
          · subst hpop
            have hlevel : 1 ≤ level u := by
              have hclosed := (h.level_range (List.prefix_refl (u ++ [.pop]))).1
              rw [level_append, level_pop] at hclosed
              omega
            obtain ⟨w, b, rfl, hb⟩ := exists_open_branch (fun p hp => (hu.level_range hp).1) hlevel
            obtain ⟨before, g₁, hw, hbranch⟩ := follows_append_iff.1 hu
            rw [List.length_append] at hn
            rw [List.append_assoc, List.cons_append]
            exact (ih w.length (by omega) hw rfl).of_closed hb hbranch hvisits
          · exact (ih u.length (by omega) hu rfl).of_not_draws hvisits hdraws hpop

/-! ### The lines of a drawing -/

/-- The symbol at a place draws the line with a number: so many symbols before it draw. -/
def Specification.DrawsLine (spec : Specification) (u : List Symbol) (p i : Nat) : Prop :=
  spec.DrawsAt u p ∧ spec.lines (u.take p) = i

/-- Every line starts at the origin or at the end of an earlier line. -/
def Drawing.Chained (d : Drawing Float) : Prop :=
  ∀ (i : Nat) (line : Segment Float), d.segments[i]? = some line → line.start = ⟨0, 0⟩ ∨
    ∃ (j : Nat) (earlier : Segment Float), j < i ∧ d.segments[j]? = some earlier ∧
      line.start = earlier.finish

/-- A point can be reached from another along lines, each from its start to its end. -/
def Drawing.Reaches (d : Drawing Float) : Vec2 Float → Vec2 Float → Prop :=
  Relation.ReflTransGen fun a b => ∃ line ∈ d.segments, line.start = a ∧ line.finish = b

/-- Both ends of every line can be reached from the origin. -/
def Drawing.Connected (d : Drawing Float) : Prop :=
  ∀ line ∈ d.segments, d.Reaches ⟨0, 0⟩ line.start ∧ d.Reaches ⟨0, 0⟩ line.finish

/-- Where every line starts at the origin or at the end of an earlier line, all of them hang
together with the origin, by strong induction on the number of the line. -/
theorem Drawing.Chained.connected {d : Drawing Float} (h : d.Chained) : d.Connected := by
  have hreaches (i : Nat) : ∀ line, d.segments[i]? = some line →
      d.Reaches ⟨0, 0⟩ line.start ∧ d.Reaches ⟨0, 0⟩ line.finish := by
    induction i using Nat.strongRecOn with
    | ind i ih =>
        intro line hline
        have hstart : d.Reaches ⟨0, 0⟩ line.start := by
          obtain horigin | ⟨j, earlier, hj, hearlier, hjoin⟩ := h i line hline
          · rw [horigin]
            exact .refl
          · rw [hjoin]
            exact (ih j hj earlier hearlier).2
        exact ⟨hstart, hstart.tail ⟨line, Array.mem_of_getElem? hline, rfl, rfl⟩⟩
  intro line hline
  obtain ⟨i, hi⟩ := Array.mem_iff_getElem?.1 hline
  exact hreaches i line hi

namespace Specification

variable {p q : Nat}

/-- Behind a symbol that draws there is one line more. So the number of lines tells two places
with a symbol that draws apart. -/
theorem lines_take_lt (hq : spec.DrawsAt u q) (hlt : q < p) :
    spec.lines (u.take q) < spec.lines (u.take p) := by
  obtain ⟨symbol, hsymbol, hdraws⟩ := hq
  have hnext : u.take (q + 1) = u.take q ++ [symbol] := by
    rw [List.take_add_one, hsymbol]
    rfl
  have hone : spec.lines [symbol] = 1 := by
    rw [lines, List.countP_singleton, if_pos hdraws]
  obtain ⟨rest, hrest⟩ : u.take (q + 1) <+: u.take p := List.take_prefix_take_left hlt
  rw [← hrest, hnext, lines_append, lines_append, hone]
  omega

/-- Every line is drawn by one symbol and no other. The places of symbols that draw are numbered
by the lines before them. -/
theorem existsUnique_drawsLine (hi : i < spec.lines u) : ∃! p, spec.DrawsLine u p i := by
  refine existsUnique_of_exists_of_unique ?_ fun p q hp hq => ?_
  · induction u using List.reverseRecOn with
    | nil => exact absurd hi (Nat.not_lt_zero i)
    | append_singleton u symbol ih =>
        by_cases hlt : i < spec.lines u
        · obtain ⟨p, hp, hline⟩ := ih hlt
          refine ⟨p, (drawsAt_append_left hp.lt_length).2 hp, ?_⟩
          rw [List.take_append_of_le_length hp.lt_length.le]
          exact hline
        · rw [lines_append, lines, lines, List.countP_singleton] at hi
          rw [lines] at hlt
          split at hi
          · rename_i hdraws
            refine ⟨u.length, drawsAt_length.2 hdraws, ?_⟩
            rw [List.take_left, lines]
            omega
          · omega
  · rcases Nat.lt_trichotomy p q with hlt | heq | hgt
    · have hless := lines_take_lt hp.1 hlt
      rw [hp.2, hq.2] at hless
      exact absurd hless (Nat.lt_irrefl i)
    · exact heq
    · have hless := lines_take_lt hq.1 hgt
      rw [hp.2, hq.2] at hless
      exact absurd hless (Nat.lt_irrefl i)

/-- The symbol that draws last before a place lies before this place, and it draws in the whole
string as well. -/
theorem DrawsLast.of_take (h : spec.DrawsLast (u.take p) q) : q < p ∧ spec.DrawsAt u q := by
  have hlt := h.draws.lt_length
  rw [List.length_take] at hlt
  obtain ⟨symbol, hsymbol, hdraws⟩ := h.draws
  rw [List.getElem?_take_of_lt (by omega)] at hsymbol
  exact ⟨by omega, symbol, hsymbol, hdraws⟩

end Specification

/-- A walk passes through every place of its string. It can be cut before and behind any symbol,
and in between lies the visit of this symbol. -/
theorem Follows.split_at (h : Follows config spec c walk u g last g') {p : Nat}
    (hp : u[p]? = some symbol) : ∃ reached middle next g₁,
      Follows config spec c walk (u.take p) g reached middle ∧
        Visits config spec c reached symbol middle next g₁ ∧
          Follows config spec c next (u.drop (p + 1)) g₁ last g' := by
  have hu : u = u.take p ++ ([symbol] ++ u.drop (p + 1)) := by
    have hdrop : u.drop p = symbol :: u.drop (p + 1) := by
      obtain ⟨hlt, rfl⟩ := List.getElem?_eq_some_iff.1 hp
      exact List.drop_eq_getElem_cons hlt
    rw [List.singleton_append, ← hdrop, List.take_append_drop]
  rw [hu] at h
  obtain ⟨reached, middle, hbefore, hrest⟩ := follows_append_iff.1 h
  obtain ⟨next, g₁, hsymbol, hafter⟩ := follows_append_iff.1 hrest
  exact ⟨reached, middle, next, g₁, hbefore, follows_singleton_iff.1 hsymbol, hafter⟩

/-- The line of a symbol starts where the line ends that was drawn last outside of the
branches that are closed before the symbol. -/
theorem Follows.line_start (h : Follows config spec c (.start config) u g last g') {p i : Nat}
    (hline : spec.DrawsLine u p i) : ∃ line : Segment Float,
      last.drawing.segments[i]? = some line ∧
        (∀ q j, spec.DrawsLast (u.take p) q → spec.DrawsLine u q j →
          ∃ earlier : Segment Float, last.drawing.segments[j]? = some earlier ∧
            line.start = earlier.finish) ∧
          ((∀ q, ¬ spec.DrawsLast (u.take p) q) → line.start = ⟨0, 0⟩) := by
  obtain ⟨⟨symbol, hsymbol, hdraws⟩, rfl⟩ := hline
  obtain ⟨reached, middle, next, g₁, hbefore, hvisits, hafter⟩ := h.split_at hsymbol
  obtain ⟨line, hstart, -, hsegments⟩ := hvisits.line_of_draws hdraws
  have htrail := hbefore.onTrail
  refine ⟨line, ?_, fun q j hlast hq => ?_, fun hnone => ?_⟩
  · apply hafter.getElem?_segments
    rw [hsegments, ← hbefore.size_segments, Array.getElem?_push_size]
  · obtain ⟨earlier, hearlier, hposition⟩ := htrail.resumes q hlast
    refine ⟨earlier, ?_, hstart.trans hposition⟩
    have hqp := hlast.of_take.1
    rw [List.take_take, Nat.min_eq_left hqp.le, hq.2] at hearlier
    exact (Follows.cons hvisits hafter).getElem?_segments hearlier
  · exact hstart.trans (htrail.fresh hnone)

/-- A prefix of a string that draws has the first lines of the drawing. -/
theorem render_take {d : Drawing Float} (h : render config spec c u = .ok d) (p : Nat) :
    ∃ d', render config spec c (u.take p) = .ok d' ∧
      d'.segments.toList = d.segments.toList.take (spec.lines (u.take p)) := by
  obtain ⟨last, g, hfollows, rfl⟩ := render_eq_ok_iff.1 h
  rw [← List.take_append_drop p u] at hfollows
  obtain ⟨reached, middle, hbefore, hafter⟩ := follows_append_iff.1 hfollows
  obtain ⟨lines, -, hsegments⟩ := hafter.segments_eq
  refine ⟨_, render_eq_ok_iff.2 ⟨reached, middle, hbefore, rfl⟩, ?_⟩
  rw [hsegments, ← hbefore.size_segments]
  simp

/-- **Lines follow the brackets.**  Every line of a drawing is drawn by one symbol, the
symbols of a prefix drawing the first lines.  It starts where the line ends that is
drawn by the last symbol before its own that draws and does not lie in a branch closed
before its own, and at the origin if there is no such symbol.  So every line starts at
the origin or at the end of an earlier one, and the drawing is connected. -/
theorem lines_follow_brackets {d : Drawing Float} (h : render config spec c u = .ok d) :
    (∀ i, i < d.segments.size → ∃! p, spec.DrawsLine u p i) ∧
      (∀ p, ∃ d', render config spec c (u.take p) = .ok d' ∧
        d'.segments.toList = d.segments.toList.take (spec.lines (u.take p))) ∧
      (∀ p i, spec.DrawsLine u p i → ∃ line : Segment Float, d.segments[i]? = some line ∧
        (∀ q j, spec.DrawsLast (u.take p) q → spec.DrawsLine u q j →
          ∃ earlier : Segment Float, d.segments[j]? = some earlier ∧
            line.start = earlier.finish) ∧
        ((∀ q, ¬ spec.DrawsLast (u.take p) q) → line.start = ⟨0, 0⟩)) ∧
      d.Chained ∧ d.Connected := by
  have htake := render_take h
  obtain ⟨last, g, hfollows, rfl⟩ := render_eq_ok_iff.1 h
  have hunique (i : Nat) (hi : i < last.drawing.segments.size) : ∃! p, spec.DrawsLine u p i :=
    Specification.existsUnique_drawsLine (hfollows.size_segments ▸ hi)
  have hchained : last.drawing.Chained := by
    intro i line hline
    obtain ⟨p, hp, -⟩ := hunique i (Array.getElem?_eq_some_iff.1 hline).1
    obtain ⟨_, hsame, hresumes, hfresh⟩ := hfollows.line_start hp
    rw [hline] at hsame
    cases hsame
    by_cases hnone : ∀ q, ¬ spec.DrawsLast (u.take p) q
    · exact .inl (hfresh hnone)
    · obtain ⟨q, hq⟩ := not_forall_not.1 hnone
      obtain ⟨hqp, hdraws⟩ := hq.of_take
      obtain ⟨earlier, hearlier, hjoin⟩ := hresumes q _ hq ⟨hdraws, rfl⟩
      have hless := Specification.lines_take_lt hdraws hqp
      rw [hp.2] at hless
      exact .inr ⟨_, earlier, hless, hearlier, hjoin⟩
  exact ⟨hunique, htake, fun p i hp => hfollows.line_start hp, hchained, hchained.connected⟩

/-- Behind a branch the turtle goes on where the stem ended. The last leaf stands behind a branch
with a leaf of its own. -/
theorem leaf_behind_branch : ∃ d : Drawing Float,
    render .standard twig (twig.context (.ofSeed 7)) (leaves ++ [.named "leaf"]) = .ok d ∧
      ∃ stem leaf : Segment Float, d.segments[0]? = some stem ∧ d.segments[2]? = some leaf ∧
        leaf.start = stem.finish := by
  have hok : (render .standard twig (twig.context (.ofSeed 7))
      (leaves ++ [.named "leaf"])).isOk = true := by
    decide +kernel
  obtain ⟨d, hd⟩ := exists_of_isOk hok
  obtain ⟨-, -, hlines, -, -⟩ := lines_follow_brackets hd
  obtain ⟨leaf, hleaf, hresumes, -⟩ := hlines 4 2 ⟨⟨_, rfl, rfl⟩, rfl⟩
  have hlast : twig.DrawsLast leaves 0 :=
    (Specification.drawsLast_closed_iff (w := [.named "leaf"]) (balanced_named "leaf")).2
      ((Specification.drawsLast_append_of_draws (u := []) rfl).2 rfl)
  obtain ⟨stem, hstem, hjoin⟩ := hresumes 0 0 hlast ⟨⟨_, rfl, rfl⟩, rfl⟩
  exact ⟨d, hd, stem, leaf, hstem, hleaf, hjoin⟩

end LSystem
