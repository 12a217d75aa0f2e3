import LSystem.Proofs.Syntax.Reading

/-!
# Chains of operators

The reader of chains keeps operands that wait for the right side of their
operator.  What it has read is described by `Waiting`: from the outermost
operand inwards the levels only rise, so there are never more waiting operands
than levels.  Soundness is this invariant, carried through every reduction.

Completeness follows the derivation instead.  A chain that has been read leaves
the reader in a state that `Settles` to the tree of the chain: as soon as an
operator follows that binds no tighter, or no operator at all, the reader goes
on as if the whole tree had been its operand.
-/

namespace LSystem.Syntax

open LSystem.Syntax.Parser

/-- The recorded height of an operand is that of its tree, and within a limit. -/
def Operand.Fits (limit : Nat) (o : Operand) : Prop :=
  o.height = o.expr.height ∧ o.height ≤ limit

/-- A relation between lexemes and trees, of operands that fit. -/
def Weighed (G : List Lexeme → Expr → Prop) (limit : Nat) (ls : List Lexeme) (o : Operand) :
    Prop :=
  G ls o.expr ∧ o.Fits limit

/-- A node that passes the check of its height fits: its height is the one of its tree and within
the greatest. -/
theorem Operand.fits_of_nested {e : Expr} {height : Nat} {o : Operand}
    (hheight : height = e.height) (h : Operand.nested e height = .ok o) :
    o.expr = e ∧ o.Fits maxNesting := by
  simp only [Operand.nested] at h
  split at h
  · simp at h
  · obtain rfl : _ = o := by simpa using h
    exact ⟨rfl, hheight, Nat.le_of_not_lt ‹_›⟩

/-- A node within the greatest height passes the check, with its tree and height as they are. -/
theorem Operand.nested_of_le {e : Expr} {height : Nat} (h : height ≤ maxNesting) :
    Operand.nested e height = .ok ⟨e, height⟩ := by
  rw [Operand.nested, if_neg (by omega)]

/-- An operator over operands that fit is weighed rightly. The height is one more than the larger
of the two, as that of the tree is. -/
theorem Operand.fits_of_combine {left right o : Operand} {op : Operator}
    (hleft : left.Fits maxNesting) (hright : right.Fits maxNesting)
    (h : left.combine op right = .ok o) :
    o.expr = .binary op left.expr right.expr ∧ o.Fits maxNesting := by
  apply Operand.fits_of_nested ?_ h
  rw [hleft.1, hright.1, Expr.height]

/-- An operator is read from tokens of one kind only, the one that it is written by. -/
theorem Operator.ofKind?_eq_some_iff {kind : TokenKind} {op : Operator} :
    Operator.ofKind? kind = some op ↔ kind = op.kind := by
  constructor
  · intro h
    simp only [Operator.ofKind?] at h
    split at h <;> simp at h <;> subst h <;> rfl
  · intro h
    subst h
    cases op <;> rfl

theorem Operator.kind_ne_finish (op : Operator) : op.kind ≠ .finish := by cases op <;> decide

theorem Operator.kind_ne_number (op : Operator) : op.kind ≠ .number := by cases op <;> decide

theorem Operator.kind_ne_leftParen (op : Operator) : op.kind ≠ .leftParen := by
  cases op <;> decide

/-- The kinds of token that cannot go on with an expression. -/
def EndsExpression (kind : TokenKind) : Prop := kind ≠ .leftParen ∧ Operator.ofKind? kind = none

section Chains

variable {Op : List Lexeme → Expr → Prop} {operand : Parser Operand} {pending pending' : Pending}
  {current current' whole : Operand} {level r limit : Nat} {ls ms ns : List Lexeme} {e : Expr}
  {s s' : TokenStream}

/-! ### Soundness of chains -/

/-- The operands that wait and their operators have been read, and what comes
next stands at a level. -/
inductive Waiting (Op : List Lexeme → Expr → Prop) : Pending → Nat → List Lexeme → Prop
  | nil : Waiting Op [] 0 []
  | cons {rest : Pending} {level : Nat} {left : Operand} {op : Operator} {ls ms : List Lexeme}
      {mark : Lexeme} (outer : Waiting Op rest level ls) (hlevel : level ≤ op.precedence)
      (chain : Weighed (Grammar.Chain Op op.precedence) maxNesting ms left)
      (hmark : mark.kind = op.kind) :
      Waiting Op ((left, op) :: rest) (op.precedence + 1) (ls ++ (ms ++ [mark]))

/-- Giving its right side to the innermost waiting operand makes a chain of the operator between
them, at the level of this operator and with its true height. -/
theorem Weighed.combine {left combined : Operand} {op : Operator} {mark : Lexeme}
    (hleft : Weighed (Grammar.Chain Op op.precedence) maxNesting ms left)
    (hmark : mark.kind = op.kind) (hright : Weighed (Grammar.Chain Op r) maxNesting ns current)
    (hlevel : op.precedence + 1 ≤ r) (h : left.combine op current = .ok combined) :
    Weighed (Grammar.Chain Op op.precedence) maxNesting (ms ++ mark :: ns) combined := by
  obtain ⟨hexpr, hfits⟩ := Operand.fits_of_combine hleft.2 hright.2 h
  refine ⟨?_, hfits⟩
  rw [hexpr]
  exact .binary (Nat.le_refl _) hleft.1 hmark (hright.1.mono hlevel)

/-- Reducing before an operator keeps what was read, and leaves room for the operator. The
induction is on the operands that wait, of which those that bind as tightly are combined. -/
theorem Waiting.reduce {next : Operator} (hwaiting : Waiting Op pending level ms)
    (hcurrent : Weighed (Grammar.Chain Op r) maxNesting ns current) (hlevel : level ≤ r)
    (hnext : next.precedence ≤ r) (h : pending.reduce next current = .ok (pending', current')) :
    ∃ level' ms' ns', Waiting Op pending' level' ms' ∧ level' ≤ next.precedence ∧
      Weighed (Grammar.Chain Op next.precedence) maxNesting ns' current' ∧
      ms ++ ns = ms' ++ ns' := by
  induction hwaiting generalizing current ns r with
  | nil =>
      obtain ⟨rfl, rfl⟩ : [] = pending' ∧ current = current' := by simpa [Pending.reduce] using h
      exact ⟨0, [], ns, .nil, Nat.zero_le _, ⟨hcurrent.1.mono hnext, hcurrent.2⟩, rfl⟩
  | @cons rest level left op ls ms mark outer hop chain hmark ih =>
      simp only [Pending.reduce] at h
      split at h
      · rename_i hle
        cases hcombine : left.combine op current with
        | error cause => simp [hcombine, bind, Except.bind] at h
        | ok combined =>
            obtain ⟨level', ms', ns', hrest⟩ :=
              ih (chain.combine hmark hcurrent hlevel hcombine) hop hle
                (by simpa [hcombine, bind, Except.bind] using h)
            exact ⟨level', ms', ns', by simpa using hrest⟩
      · obtain ⟨rfl, rfl⟩ : (left, op) :: rest = pending' ∧ current = current' := by
          simpa using h
        exact ⟨_, _, ns, .cons outer hop chain hmark, by omega,
          ⟨hcurrent.1.mono hnext, hcurrent.2⟩, rfl⟩

/-- Reducing everything gives the tree of all that was read. The induction is on the operands that
wait, the innermost of which is given its right side first. -/
theorem Waiting.reduceAll (hwaiting : Waiting Op pending level ms)
    (hcurrent : Weighed (Grammar.Chain Op r) maxNesting ns current) (hlevel : level ≤ r)
    (h : pending.reduceAll current = .ok whole) :
    Weighed (Grammar.Chain Op 0) maxNesting (ms ++ ns) whole := by
  induction hwaiting generalizing current ns r with
  | nil =>
      obtain rfl : current = whole := by simpa [Pending.reduceAll] using h
      exact ⟨hcurrent.1.mono (Nat.zero_le _), hcurrent.2⟩
  | @cons rest level left op ls ms mark outer hop chain hmark ih =>
      simp only [Pending.reduceAll] at h
      cases hcombine : left.combine op current with
      | error cause => simp [hcombine, bind, Except.bind] at h
      | ok combined =>
          simpa using ih (chain.combine hmark hcurrent hlevel hcombine) hop
            (by simpa [hcombine, bind, Except.bind] using h)

/-- What the reader of a chain has read when an operand is complete. -/
def SoFar (Op : List Lexeme → Expr → Prop) (state : Pending × Operand) (ls : List Lexeme) : Prop :=
  ∃ level ms ns, Waiting Op state.1 level ms ∧ Weighed Op maxNesting ns state.2 ∧ ls = ms ++ ns

/-- One round of the loop keeps the invariant: either an operator and an operand more have been
read, or the chain is complete and derived by the grammar. -/
theorem sound_chainStep (hoperand : Sound operand (Weighed Op maxNesting))
    (state : Pending × Operand) (ms : List Lexeme) (hsofar : SoFar Op state ms) :
    Sound (chainStep operand state) fun ls =>
      Round (SoFar Op) (Weighed (Grammar.Chain Op 0) maxNesting) (ms ++ ls) := by
  obtain ⟨pending, current⟩ := state
  obtain ⟨level, ms, ns, hwaiting, hop, rfl⟩ := hsofar
  have hcurrent : ∀ r, Weighed (Grammar.Chain Op r) maxNesting ns current :=
    fun r => ⟨.operand hop.1, hop.2⟩
  refine Sound.lookahead fun t => ?_
  split
  · refine Sound.bind (sound_ofExcept (G := fun ls whole =>
      ls = [] ∧ Weighed (Grammar.Chain Op 0) maxNesting (ms ++ ns) whole) fun whole h => ?_) ?_
    · exact ⟨rfl, hwaiting.reduceAll (hcurrent level) (Nat.le_refl _) h⟩
    · intro _ whole h
      obtain ⟨rfl, hwhole⟩ := h
      exact sound_pure (by simpa using hwhole)
  · rename_i op _
    refine Sound.bind (sound_ofExcept (G := fun ls r => ls = [] ∧ ∃ level' ms' ns',
      Waiting Op r.1 level' ms' ∧ level' ≤ op.precedence ∧
      Weighed (Grammar.Chain Op op.precedence) maxNesting ns' r.2 ∧ ms ++ ns = ms' ++ ns')
      fun r h => ?_) ?_
    · exact ⟨rfl, hwaiting.reduce (hcurrent _) (Nat.le_max_left _ _) (Nat.le_max_right _ _) h⟩
    · intro _ h h'
      obtain ⟨pending, current⟩ := h
      obtain ⟨rfl, level', ms', ns', hwaiting', hlevel', hchain', heq⟩ := h'
      refine (sound_consume op.kind_ne_finish op.kind_ne_number).bind ?_
      intro _ mark h
      obtain ⟨hmark, rfl⟩ := h
      refine hoperand.bind fun ls right hright => sound_pure ?_
      have hkind : mark.lexeme.kind = op.kind := hmark
      exact ⟨_, _, ls, .cons hwaiting' hlevel' hchain' hkind, hright,
        by simp [heq]⟩

/-- Chains of sound operands are read soundly. The invariant holds of the first operand alone, and
it is all that the rule for loops asks. -/
theorem sound_chain (hoperand : Sound operand (Weighed Op maxNesting)) :
    Sound (chain operand) (Weighed (Grammar.Chain Op 0) maxNesting) := by
  refine hoperand.bind fun ls first hfirst => ?_
  have hsofar : SoFar Op ([], first) ls := ⟨0, [], ls, .nil, hfirst, rfl⟩
  exact Sound.loop (sound_chainStep hoperand) hsofar

/-! ### Completeness of chains -/

/-- The rest of a chain, from an operand on, when some operands wait already. -/
def chainAfter (operand : Parser Operand) (pending : Pending) : Parser Operand := do
  let next ← operand
  loop (chainStep operand) (advances_chainStep operand) (pending, next)

/-- A state goes on like one with a single operand in place of its innermost
ones, when no operator above a level comes next. -/
structure Settles (state : Pending × Operand) (pending : Pending) (o : Operand) (level : Nat) :
    Prop where
  reduce : ∀ op : Operator, op.precedence ≤ level →
    state.1.reduce op state.2 = pending.reduce op o
  reduceAll : state.1.reduceAll state.2 = pending.reduceAll o

/-- No waiting operator takes its right side before an operator at a level. -/
def Blocked (pending : Pending) (level : Nat) : Prop :=
  ∀ (op : Operator) (o : Operand), level ≤ op.precedence →
    pending.reduce op o = .ok (pending, o)

/-- Behind an operator that waits, an operator that binds tighter reduces nothing: the operand in
between is taken by the tighter one first. -/
theorem blocked_cons (pending : Pending) (left : Operand) (op : Operator) :
    Blocked ((left, op) :: pending) (op.precedence + 1) := by
  intro next o hlevel
  rw [Pending.reduce, if_neg (by omega)]

/-- An operator behind an operand makes it wait. Before that the waiting operators that bind as
tightly have been given their right sides. -/
theorem run_loop_operator {state : Pending × Operand} {op : Operator} {t : Token}
    {rest : TokenStream} (hkind : t.kind = op.kind)
    (hreduce : state.1.reduce op state.2 = .ok (pending, current)) :
    (loop (chainStep operand) (advances_chainStep operand) state).run (.token t rest) =
      (chainAfter operand ((current, op) :: pending)).run rest := by
  have hop : Operator.ofKind? t.kind = some op := Operator.ofKind?_eq_some_iff.2 hkind
  have hstep : (chainStep operand state).run (.token t rest) =
      (operand >>= fun right => Pure.pure (.inl ((current, op) :: pending, right))).run rest := by
    simp only [chainStep, run_bind, Parser.lookahead, TokenStream.lookahead, hop, hreduce,
      run_ofExcept_ok, run_consume hkind]
  rw [run_loop, hstep]
  simp only [chainAfter, run_bind, run_pure]
  cases operand.run rest with
  | mk answer s' => cases answer <;> rfl

/-- Without an operator a chain ends. All waiting operators are given their right sides then, and
nothing is taken off the stream. -/
theorem run_loop_end {state : Pending × Operand}
    (hkind : Operator.ofKind? s.lookahead.kind = none)
    (hreduce : state.1.reduceAll state.2 = .ok whole) :
    (loop (chainStep operand) (advances_chainStep operand) state).run s = (.ok whole, s) := by
  have hstep : (chainStep operand state).run s = (.ok (.inr whole), s) := by
    simp only [chainStep, run_bind, Parser.lookahead, hkind, hreduce, run_ofExcept_ok, run_pure]
  rw [run_loop, hstep]

/-- **Reading a chain.**  The reader comes to a state that settles to the tree. The induction is
on the derivation: behind the left side the operator makes the state wait, and the right side
settles above it. -/
theorem exists_settles (hoperand : Complete operand (Weighed Op limit) (· ≠ .leftParen))
    (hlimit : limit ≤ maxNesting) (hchain : Grammar.Chain Op level ls e)
    (hheight : e.height ≤ limit) (hreads : s.Reads ls s')
    (hfollow : s'.lookahead.kind ≠ .leftParen) (hblocked : Blocked pending level) :
    ∃ state, Settles state pending ⟨e, e.height⟩ level ∧ (chainAfter operand pending).run s =
      (loop (chainStep operand) (advances_chainStep operand) state).run s' := by
  induction hchain generalizing pending s s' with
  | @operand level ls e hop =>
      refine ⟨(pending, ⟨e, e.height⟩), ⟨fun _ _ => rfl, rfl⟩, ?_⟩
      have hrun := hoperand s ls s' ⟨e, e.height⟩ hreads ⟨hop, rfl, hheight⟩ hfollow
      simp only [chainAfter, run_bind, hrun]
  | @binary level op ls ms mark l r hlevel left hmark right ihl ihr =>
      rw [Expr.height] at hheight
      obtain ⟨middle, hleft, hrest⟩ := TokenStream.reads_append_iff.1 hreads
      obtain ⟨t, rest, rfl, rfl, -, hright⟩ := TokenStream.reads_cons_iff.1 hrest
      have hkind : t.kind = op.kind := hmark
      obtain ⟨state, hsettles, hrun⟩ := ihl (by omega) hleft
        (fun h => op.kind_ne_leftParen (hkind.symm.trans h))
        (show Blocked pending op.precedence from fun next o h => hblocked next o (by omega))
      obtain ⟨state', hsettles', hrun'⟩ :=
        ihr (by omega) hright hfollow (blocked_cons pending ⟨l, l.height⟩ op)
      have hreduce : state.1.reduce op state.2 = .ok (pending, ⟨l, l.height⟩) := by
        rw [hsettles.reduce op (Nat.le_refl _), hblocked op _ hlevel]
      have hcombine : Operand.combine ⟨l, l.height⟩ op ⟨r, r.height⟩ =
          .ok ⟨.binary op l r, (Expr.binary op l r).height⟩ := by
        rw [Operand.combine, Expr.height]
        exact Operand.nested_of_le (Nat.le_trans hheight hlimit)
      refine ⟨state', ⟨fun next hnext => ?_, ?_⟩, ?_⟩
      · rw [hsettles'.reduce next (by omega), Pending.reduce, if_pos (by omega), hcombine]
        rfl
      · rw [hsettles'.reduceAll, Pending.reduceAll, hcombine]
        rfl
      · rw [hrun, run_loop_operator hkind hreduce, hrun']

/-- Chains are read completely when their operands are. From the first operand on the state
settles to the tree of the derivation, and at the end there is nothing else left. -/
theorem complete_chain (hoperand : Complete operand (Weighed Op limit) (· ≠ .leftParen))
    (hlimit : limit ≤ maxNesting) :
    Complete (chain operand) (Weighed (Grammar.Chain Op 0) limit) EndsExpression := by
  intro s ls s' h hreads h' h''
  obtain ⟨e, height⟩ := h
  obtain ⟨hchain, hexact, hheight⟩ := h'
  obtain ⟨hparen, hoperator⟩ := h''
  obtain rfl : height = e.height := hexact
  obtain ⟨state, hsettles, hrun⟩ := exists_settles hoperand hlimit hchain hheight hreads hparen
    (show Blocked [] 0 from fun _ _ _ => rfl)
  have hchainRun : (chain operand).run s = (chainAfter operand []).run s := rfl
  rw [hchainRun, hrun, run_loop_end hoperator (by rw [hsettles.reduceAll, Pending.reduceAll])]

end Chains

end LSystem.Syntax
