import LSystem.Proofs.Syntax.Plain.Chain
import LSystem.Proofs.Syntax.WellFormed

/-!
# The reader of chains from operand to operand

A chain is read with a list of operands that wait for the right side of their operator.
`AfterOperand` are the moments of such a reading at which an operand is complete, and `Climbing`
is what holds then: the operators that wait bind the tighter the further in they are, the
operands and operators spell the tokens that were taken, and the heights are true.  It follows
from the invariant `SoFar` of the loop, which a round keeps.

Whatever operator comes next, the nodes that are built for it follow from the same invariant.
`Pending.build` gives waiting operators their right side and keeps account of the nodes; it is
`Pending.reduce` and `Pending.reduceAll` with this account.
-/

namespace LSystem.Syntax

open LSystem.Syntax.Parser

/-! ### The nodes that are built -/

/-- An operator between sides that need no parentheses: none on the left binds less tightly, and
none on the right less or equally tightly. -/
def Expr.Joins (e : Expr) : Prop :=
  ∃ op left right, e = .binary op left right ∧
    (∀ inner a b, left = .binary inner a b → op.precedence ≤ inner.precedence) ∧
    ∀ inner a b, right = .binary inner a b → op.precedence < inner.precedence

/-- Give their right side to the waiting operators, the innermost first, until one is not ready,
with every node that is built. -/
def Pending.build (ready : Operator → Bool) :
    Pending → Operand → List Operand × Except SyntaxCause (Pending × Operand)
  | [], current => ([], .ok ([], current))
  | (left, op) :: rest, current =>
    if ready op then
      match left.combine op current with
      | .error cause => ([], .error cause)
      | .ok node =>
        let built := Pending.build ready rest node
        (node :: built.1, built.2)
    else ([], .ok ((left, op) :: rest, current))

section Building

variable {pending : Pending} {current : Operand} {ready : Operator → Bool}

/-- The reduction before an operator builds nodes as long as the waiting operators bind at least
as tightly as that operator. -/
theorem Pending.reduce_eq_build (next : Operator) : pending.reduce next current =
    (pending.build (fun op => next.precedence ≤ op.precedence) current).2 := by
  induction pending generalizing current with
  | nil => rfl
  | cons waiting rest ih =>
      obtain ⟨left, op⟩ := waiting
      rw [reduce, build]
      by_cases hready : next.precedence ≤ op.precedence
      · rw [if_pos hready, if_pos (decide_eq_true hready)]
        cases left.combine op current with
        | error cause => rfl
        | ok node => exact ih
      · rw [if_neg hready, if_neg (by simpa using hready)]

/-- The reduction at the end of a chain builds the nodes of all waiting operators. -/
theorem Pending.reduceAll_eq_build : pending.reduceAll current =
    (pending.build (fun _ => true) current).2.map Prod.snd := by
  induction pending generalizing current with
  | nil => rfl
  | cons waiting rest ih =>
      obtain ⟨left, op⟩ := waiting
      rw [reduceAll, build, if_pos rfl]
      cases left.combine op current with
      | error cause => rfl
      | ok node => exact ih

end Building

/-! ### Operands that wait -/

/-- Operands that wait, each with its operator behind it, spell a row of lexemes from the
outermost one on. -/
def Pending.Spells : Pending → List Lexeme → Prop
  | [], ls => ls = []
  | (left, op) :: outer, ls => ∃ before own mark, ls = before ++ (own ++ [mark]) ∧
      Pending.Spells outer before ∧ Grammar.Expression own left.expr ∧ mark.kind = op.kind

section Waiting

variable {Op : List Lexeme → Expr → Prop} {pending : Pending} {current : Operand}
  {level r : Nat} {ls ms ns : List Lexeme} {e : Expr}

/-- All operators that wait bind less tightly than the level at which the next operand stands. -/
theorem Waiting.precedence_lt (h : Waiting Op pending level ls) :
    ∀ waiting ∈ pending, waiting.2.precedence < level := by
  induction h with
  | nil => exact List.forall_mem_nil _
  | cons outer hlevel chain hmark ih =>
      refine List.forall_mem_cons.2 ⟨Nat.lt_succ_self _, fun waiting hwaiting => ?_⟩
      have hlt := ih waiting hwaiting
      omega

/-- The further in an operator waits, the tighter it binds. An operator waits only behind one that
binds less tightly; one as tight would have taken its right side before. -/
theorem Waiting.pairwise (h : Waiting Op pending level ls) :
    pending.Pairwise fun inner outer => outer.2.precedence < inner.2.precedence := by
  induction h with
  | nil => exact .nil
  | cons outer hlevel chain hmark ih =>
      refine .cons (fun waiting hwaiting => ?_) ih
      exact Nat.lt_of_lt_of_le (outer.precedence_lt waiting hwaiting) hlevel

/-- So there are no more of them than levels. -/
theorem Waiting.length_le (h : Waiting Op pending level ls) : pending.length ≤ level := by
  induction h with
  | nil => exact Nat.le_refl 0
  | cons outer hlevel chain hmark ih => exact Nat.succ_le_succ (Nat.le_trans ih hlevel)

/-- The level never exceeds two, one more than the tightest operator, so no more than two operands
can wait. -/
theorem Waiting.level_le_two (h : Waiting Op pending level ls) : level ≤ 2 := by
  cases h with
  | nil => exact Nat.zero_le 2
  | @cons rest level left op ls ms mark outer hlevel chain hmark =>
      exact Nat.succ_le_succ op.precedence_le_one

/-- All operands that wait have true heights, within the greatest. -/
theorem Waiting.fits (h : Waiting Op pending level ls) :
    ∀ waiting ∈ pending, waiting.1.Fits maxNesting := by
  induction h with
  | nil => exact List.forall_mem_nil _
  | cons outer hlevel chain hmark ih => exact List.forall_mem_cons.2 ⟨chain.2, ih⟩

/-- The operands that wait and their operators spell the lexemes that were read before the current
operand, from the outermost on. -/
theorem Waiting.spells (h : Waiting Grammar.Operand pending level ls) : pending.Spells ls := by
  induction h with
  | nil => rfl
  | @cons rest level left op ls ms mark outer hlevel chain hmark ih =>
      exact ⟨ls, ms, mark, rfl, ih, chain.1.mono (Nat.zero_le _), hmark⟩

/-- Sides that stand at the level of their operator, and above it. -/
theorem Expr.joins_of_chain {op : Operator} {left right : Expr}
    (hleft : Grammar.Chain Grammar.Operand op.precedence ms left)
    (hright : Grammar.Chain Grammar.Operand (op.precedence + 1) ns right) :
    (Expr.binary op left right).Joins := by
  have hop := op.precedence_le_one
  refine ⟨op, left, right, rfl, ?_, ?_⟩
  · intro inner a b h
    subst h
    exact hleft.level_le (by omega)
  · intro inner a b h
    subst h
    exact hright.level_le (by omega)

/-- Whichever operators are ready, the nodes that are built for them join their sides, and
their heights are true. -/
theorem Waiting.build (hwaiting : Waiting Grammar.Operand pending level ms)
    (hcurrent : Weighed (Grammar.Chain Grammar.Operand r) maxNesting ns current)
    (hlevel : level ≤ r) (ready : Operator → Bool) :
    ∀ node ∈ (pending.build ready current).1, node.expr.Joins ∧ node.height = node.expr.height := by
  induction hwaiting generalizing current ns r with
  | nil => exact List.forall_mem_nil _
  | @cons rest level left op ls ms mark outer hop chain hmark ih =>
      rw [Pending.build]
      split
      · cases hcombine : left.combine op current with
        | error cause => exact List.forall_mem_nil _
        | ok node =>
            have hnode := chain.combine hmark hcurrent hlevel hcombine
            obtain ⟨hexpr, hfits⟩ := Operand.fits_of_combine chain.2 hcurrent.2 hcombine
            have hjoins : node.expr.Joins := by
              rw [hexpr]
              exact Expr.joins_of_chain chain.1 (hcurrent.1.mono hlevel)
            exact List.forall_mem_cons.2 ⟨⟨hjoins, hfits.1⟩, ih hnode hop⟩
      · exact List.forall_mem_nil _

end Waiting

/-! ### From operand to operand -/

/-- The moments at which the reader of a chain that begins at `s` has just read an operand. -/
inductive AfterOperand (operand : Parser Operand) (s : TokenStream) :
    Pending × Operand → TokenStream → Prop
  | first {first : Operand} {s' : TokenStream} (h : operand.run s = (.ok first, s')) :
      AfterOperand operand s ([], first) s'
  | next {state state' : Pending × Operand} {s' s'' : TokenStream}
      (before : AfterOperand operand s state s')
      (hround : (chainStep operand state).run s' = (.ok (.inl state'), s'')) :
      AfterOperand operand s state' s''

/-- What holds of a chain when an operand has been read: `s` is where the chain began, and `s'`
what is left. -/
structure Climbing (s : TokenStream) (pending : Pending) (current : Operand) (s' : TokenStream) :
    Prop where
  /-- From the outermost operator on they bind tighter and tighter. -/
  rising : (pending.reverse.map fun waiting => waiting.2.precedence).Pairwise (· < ·)
  length_le : pending.length ≤ 2
  taken : ∃ before own, s.Reads (before ++ own) s' ∧ pending.Spells before ∧
    Grammar.Expression own current.expr
  counted : current.height = current.expr.height ∧
    ∀ waiting ∈ pending, waiting.1.height = waiting.1.expr.height
  /-- Whichever of the waiting operators get their right side next. -/
  joins : ∀ ready, ∀ node ∈ (pending.build ready current).1,
    node.expr.Joins ∧ node.height = node.expr.height

section Moments

variable {operand : Parser Operand} {state : Pending × Operand} {whole : Operand}
  {s s' s'' : TokenStream}

/-- At every moment after an operand the invariant of the loop holds of the tokens taken since the
chain began. The induction is on the rounds. -/
theorem AfterOperand.soFar {Op : List Lexeme → Expr → Prop}
    (hoperand : Sound operand (Weighed Op maxNesting)) (h : AfterOperand operand s state s') :
    ∃ ls, s.Reads ls s' ∧ SoFar Op state ls := by
  induction h with
  | @first first s' hfirst =>
      obtain ⟨ls, hreads, hweighed⟩ := hoperand s first s' hfirst
      exact ⟨ls, hreads, 0, [], ls, .nil, hweighed, rfl⟩
  | @next state state' s' s'' before hround ih =>
      obtain ⟨ls, hreads, hsofar⟩ := ih
      obtain ⟨ms, hmore, hnext⟩ := sound_chainStep hoperand state ls hsofar s' _ s'' hround
      exact ⟨ls ++ ms, hreads.append hmore, hnext⟩

/-- The reading goes on from such a moment as the loop does. -/
theorem AfterOperand.run_chain (h : AfterOperand operand s state s') : (chain operand).run s =
    (loop (chainStep operand) (advances_chainStep operand) state).run s' := by
  induction h with
  | first h => exact run_bind_of_eq h
  | next before hround ih => rw [ih, run_loop, hround]

/-- The tree of a chain is made after its last operand. The last round of the loop takes nothing,
so the stream is where it was left behind the operand. -/
theorem exists_afterOperand_of_loop (h : AfterOperand operand s state s')
    (hloop : (loop (chainStep operand) (advances_chainStep operand) state).run s' =
      (.ok whole, s'')) :
    ∃ pending current, AfterOperand operand s (pending, current) s'' ∧
      Operator.ofKind? s''.lookahead.kind = none ∧ pending.reduceAll current = .ok whole := by
  obtain ⟨⟨pending, current⟩, after, hlast, hround⟩ := exists_last_round
    (Q := AfterOperand operand s) (fun _ _ _ _ hbefore hround => hbefore.next hround) h hloop
  obtain ⟨_, heq, rfl, hkind, hreduce⟩ | ⟨_, _, _, _, _, _, heq, _⟩ := run_chainStep_cases hround
  · cases heq
    exact ⟨pending, current, hlast, hkind, hreduce⟩
  · cases heq

end Moments

/-- **The loop invariant of precedence climbing.**  Take a chain that is read from any place of
any stream, with any number of levels left for its operands.  Whenever an operand has just been
read, the operators that wait rise strictly in precedence, two of them at most; the operands and
operators from left to right are the tokens that were taken; every height that is noted is true;
and the nodes that are built next, before an operator or at the end, join sides that need no
parentheses.  What the chain is read as is made in this way after its last operand. -/
theorem climbing_invariant (levels : Nat) (s : TokenStream) :
    (∀ pending current s', AfterOperand (operand levels) s (pending, current) s' →
      Climbing s pending current s') ∧
    (∀ next (pending : Pending) current, pending.reduce next current =
      (pending.build (fun op => next.precedence ≤ op.precedence) current).2) ∧
    (∀ (pending : Pending) current, pending.reduceAll current =
      (pending.build (fun _ => true) current).2.map Prod.snd) ∧
    ∀ whole s', (chain (operand levels)).run s = (.ok whole, s') ↔
      ∃ pending current, AfterOperand (operand levels) s (pending, current) s' ∧
        Operator.ofKind? s'.lookahead.kind = none ∧ pending.reduceAll current = .ok whole := by
  refine ⟨fun pending current s' h => ?_, fun next pending current => Pending.reduce_eq_build next,
    fun pending current => Pending.reduceAll_eq_build, fun whole s' => ⟨fun h => ?_, ?_⟩⟩
  · obtain ⟨_, hreads, level, before, own, hwaiting, hcurrent, rfl⟩ :=
      h.soFar (sound_operand levels)
    have hchain : Weighed (Grammar.Chain Grammar.Operand level) maxNesting own current :=
      ⟨.operand hcurrent.1, hcurrent.2⟩
    refine ⟨?_, Nat.le_trans hwaiting.length_le hwaiting.level_le_two,
      ⟨before, own, hreads, hwaiting.spells, .operand hcurrent.1⟩,
      ⟨hcurrent.2.1, fun waiting hmem => (hwaiting.fits waiting hmem).1⟩,
      hwaiting.build hchain (Nat.le_refl level)⟩
    exact List.pairwise_map.2 (List.pairwise_reverse.2 hwaiting.pairwise)
  · obtain ⟨first, after, hfirst, hloop⟩ := run_bind_eq_ok h
    exact exists_afterOperand_of_loop (.first hfirst) hloop
  · intro h
    obtain ⟨pending, current, hmoment, hkind, hreduce⟩ := h
    rw [hmoment.run_chain, run_loop_end hkind hreduce]

/-- The tokens of `a - b * -c / d`. -/
def difference : TokenStream :=
  .token ⟨.identifier, "a", ⟨1, 1⟩⟩ <| .token ⟨.minus, "-", ⟨1, 3⟩⟩ <|
  .token ⟨.identifier, "b", ⟨1, 5⟩⟩ <| .token ⟨.star, "*", ⟨1, 7⟩⟩ <|
  .token ⟨.minus, "-", ⟨1, 9⟩⟩ <| .token ⟨.identifier, "c", ⟨1, 10⟩⟩ <|
  .token ⟨.slash, "/", ⟨1, 12⟩⟩ <| .token ⟨.identifier, "d", ⟨1, 14⟩⟩ <| .finish ⟨1, 15⟩

/-- The operands that wait when the last one has been read: a product and what it is taken
from. -/
def differenceSoFar : Pending :=
  [(⟨.binary .mul (.ident "b") (.neg (.ident "c")), 3⟩, .div), (.leaf (.ident "a"), .sub)]

/-- Two operators wait at the end of a difference, and its tree has five levels. All nodes are
built behind the last operand, from the product outwards. -/
theorem difference_climbs :
    (TokenStream.ofSource "a - b * -c / d").toOption = some difference ∧
    AfterOperand (operand 2) difference (differenceSoFar, .leaf (.ident "d")) (.finish ⟨1, 15⟩) ∧
    Climbing difference differenceSoFar (.leaf (.ident "d")) (.finish ⟨1, 15⟩) ∧
    ∃ whole, (chain (operand 2)).run difference = (.ok whole, .finish ⟨1, 15⟩) ∧
      whole.height = 5 := by
  have hmoment : AfterOperand (operand 2) difference
      (differenceSoFar, .leaf (.ident "d")) (.finish ⟨1, 15⟩) :=
    .next (.next (.next (.first rfl) rfl) rfl) rfl
  obtain ⟨whole, hwhole, hheight⟩ : ∃ whole,
      differenceSoFar.reduceAll (.leaf (.ident "d")) = .ok whole ∧ whole.height = 5 :=
    ⟨_, rfl, rfl⟩
  obtain ⟨hclimbing, -, -, hchain⟩ := climbing_invariant 2 difference
  exact ⟨by decide +kernel, hmoment, hclimbing _ _ _ hmoment, whole,
    (hchain whole _).2 ⟨_, _, hmoment, rfl, hwhole⟩, hheight⟩

end LSystem.Syntax
