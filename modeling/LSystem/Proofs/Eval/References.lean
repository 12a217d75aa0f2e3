import LSystem.Eval.Basic
import LSystem.Proofs.Syntax.WellFormed

/-!
# References between variables

A variable stands for the expression that it is bound to, in which other variables
stand.  `Chain` follows such references by name, and `Reaches` collects the expressions
behind them.  A scope may have bindings that lead back to themselves; the chains of an
expression that leads to one of them have no greatest length, which is
`ChainsWithin.nodup` turned around.
-/

namespace LSystem.Syntax

mutual

/-- The variables of an expression, from left to right. -/
def Expr.references : Expr → List String
  | .num _ => []
  | .ident name => [name]
  | .call _ args => Expr.referencesOf args
  | .group inner => inner.references
  | .binary _ left right => left.references ++ right.references
  | .neg inner => inner.references

/-- The variables of some expressions. -/
def Expr.referencesOf : List Expr → List String
  | [] => []
  | e :: es => e.references ++ Expr.referencesOf es

end

mutual

/-- The functions that an expression calls. -/
def Expr.calls : Expr → List String
  | .num _ => []
  | .ident _ => []
  | .call name args => name :: Expr.callsOf args
  | .group inner => inner.calls
  | .binary _ left right => left.calls ++ right.calls
  | .neg inner => inner.calls

/-- The functions that some expressions call. -/
def Expr.callsOf : List Expr → List String
  | [] => []
  | e :: es => e.calls ++ Expr.callsOf es

end

mutual

/-- The calls of functions in an expression, each with its arguments. -/
def Expr.applications : Expr → List (String × List Expr)
  | .num _ => []
  | .ident _ => []
  | .call name args => (name, args) :: Expr.applicationsOf args
  | .group inner => inner.applications
  | .binary _ left right => left.applications ++ right.applications
  | .neg inner => inner.applications

/-- The calls of functions in some expressions. -/
def Expr.applicationsOf : List Expr → List (String × List Expr)
  | [] => []
  | e :: es => e.applications ++ Expr.applicationsOf es

end

variable {name : String} {es : List Expr}

/-- The functions that some expressions call are those of their calls, when this holds of each
of the expressions. -/
theorem Expr.map_fst_applicationsOf (h : ∀ e ∈ es, e.applications.map Prod.fst = e.calls) :
    (Expr.applicationsOf es).map Prod.fst = Expr.callsOf es := by
  induction es with
  | nil => rfl
  | cons e es ih =>
      obtain ⟨he, hes⟩ := List.forall_mem_cons.1 h
      rw [Expr.applicationsOf, Expr.callsOf, List.map_append, he, ih hes]

/-- The functions that an expression calls are those of its calls, from left to right. -/
theorem Expr.map_fst_applications (e : Expr) : e.applications.map Prod.fst = e.calls := by
  induction e using Expr.inductionOn with
  | num value | ident name => rfl
  | call name args ih =>
      rw [Expr.applications, Expr.calls, List.map_cons, Expr.map_fst_applicationsOf ih]
  | group inner ih | neg inner ih => exact ih
  | binary op left right ihl ihr =>
      rw [Expr.applications, Expr.calls, List.map_append, ihl, ihr]

/-- A function that is called with some arguments is called. -/
theorem Expr.mem_calls {e : Expr} {args : List Expr} (h : (name, args) ∈ e.applications) :
    name ∈ e.calls := by
  rw [← e.map_fst_applications]
  exact List.mem_map_of_mem h

/-- A variable of some arguments is one of an argument among them. -/
theorem Expr.mem_referencesOf_iff :
    name ∈ Expr.referencesOf es ↔ ∃ e ∈ es, name ∈ e.references := by
  induction es with
  | nil => simp [Expr.referencesOf]
  | cons e es ih => simp [Expr.referencesOf, ih]

end LSystem.Syntax

namespace LSystem.Eval

open Syntax

namespace Scope

variable {s : Scope} {e b c : Expr} {name : String} {names others : List String} {n : Nat}

/-- The names on a way into the bindings: the first is a variable of the expression, and
each of the others a variable of what the one before it is bound to.  The last one need
not be bound. -/
inductive Chain (s : Scope) : Expr → List String → Prop
  | last {e : Expr} {name : String} (hname : name ∈ e.references) : Chain s e [name]
  | next {e b : Expr} {name : String} {names : List String} (hname : name ∈ e.references)
      (hbound : s.bound name = some b) (hrest : Chain s b names) : Chain s e (name :: names)

/-- The expressions to which variables lead, the first one among them. -/
inductive Reaches (s : Scope) : Expr → Expr → Prop
  | refl (e : Expr) : Reaches s e e
  | step {e b c : Expr} {name : String} (hname : name ∈ e.references)
      (hbound : s.bound name = some b) (hrest : Reaches s b c) : Reaches s e c

/-- No chain of references is longer. -/
def ChainsWithin (s : Scope) (n : Nat) (e : Expr) : Prop :=
  ∀ names, s.Chain e names → names.length ≤ n

/-- All variables to which an expression leads are bound. -/
def Binds (s : Scope) (e : Expr) : Prop :=
  ∀ b, s.Reaches e b → ∀ name ∈ b.references, ∃ c, s.bound name = some c

/-- All functions that are called where an expression leads to are there. -/
def Provides (s : Scope) (e : Expr) : Prop :=
  ∀ b, s.Reaches e b → ∀ name ∈ b.calls, ∃ f, s.native name = some f

/-! ### Along a reference -/

/-- A chain begins with a variable of the expression, and ends there or goes on in what this
variable is bound to. -/
theorem chain_cons_iff : s.Chain e (name :: names) ↔
    name ∈ e.references ∧ (names = [] ∨ ∃ b, s.bound name = some b ∧ s.Chain b names) := by
  constructor
  · intro h
    cases h with
    | last hname => exact ⟨hname, .inl rfl⟩
    | next hname hbound hrest => exact ⟨hname, .inr ⟨_, hbound, hrest⟩⟩
  · rintro ⟨hname, rfl | ⟨b, hbound, hrest⟩⟩
    · exact .last hname
    · exact .next hname hbound hrest

/-- The variables of the expression are themselves among those to which it leads. -/
theorem Binds.bound (h : s.Binds e) (hname : name ∈ e.references) : ∃ b, s.bound name = some b :=
  h e (.refl e) name hname

/-- What a variable is bound to leads to bound variables alone when the expression does. -/
theorem Binds.step (h : s.Binds e) (hname : name ∈ e.references) (hbound : s.bound name = some b) :
    s.Binds b := fun c hc => h c (.step hname hbound hc)

/-- An expression leads to bound variables alone when its own are bound, to expressions of which
the same holds. -/
theorem binds_of_bindings (h : ∀ name ∈ e.references, ∃ b, s.bound name = some b ∧ s.Binds b) :
    s.Binds e := by
  intro c hc
  cases hc with
  | refl =>
      intro name hname
      obtain ⟨b, hbound, -⟩ := h name hname
      exact ⟨b, hbound⟩
  | step hname hbound hrest =>
      obtain ⟨b, hother, hbinds⟩ := h _ hname
      obtain rfl := Option.some.inj (hbound.symm.trans hother)
      exact hbinds c hrest

/-- A variable is a chain by itself, so an expression with a variable has a chain of length one at
least. -/
theorem ChainsWithin.ne_zero (h : s.ChainsWithin n e) (hname : name ∈ e.references) : n ≠ 0 := by
  have hlength : 1 ≤ n := h [name] (.last hname)
  exact Nat.ne_zero_of_lt hlength

/-- Behind a variable all chains are shorter by one. -/
theorem ChainsWithin.step (h : s.ChainsWithin (n + 1) e) (hname : name ∈ e.references)
    (hbound : s.bound name = some b) : s.ChainsWithin n b := by
  intro names hchain
  exact Nat.le_of_succ_le_succ (h (name :: names) (.next hname hbound hchain))

theorem ChainsWithin.mono {m : Nat} (h : s.ChainsWithin n e) (hle : n ≤ m) : s.ChainsWithin m e :=
  fun names hchain => Nat.le_trans (h names hchain) hle

/-- An expression without variables has no chains. A chain of one name would begin at a variable
of the expression. -/
theorem chainsWithin_zero (h : e.references = []) : s.ChainsWithin 0 e := by
  intro names hchain
  cases hchain with
  | last hname | next hname _ _ =>
      rw [h] at hname
      cases hname

/-- The chains of an expression are bounded when those of the bindings of its variables
are, and variables that are not bound are counted too. -/
theorem chainsWithin_succ (h : ∀ name ∈ e.references, ∀ b, s.bound name = some b →
    s.ChainsWithin n b) : s.ChainsWithin (n + 1) e := by
  intro names hchain
  cases hchain with
  | last hname => exact Nat.succ_le_succ (Nat.zero_le n)
  | next hname hbound hrest => exact Nat.succ_le_succ (h _ hname _ hbound _ hrest)

/-! ### Chains that come back -/

/-- Behind the last name of a chain there is less room than before the first. -/
theorem ChainsWithin.behind (h : s.ChainsWithin n e) (hchain : s.Chain e (names ++ [name]))
    (hbound : s.bound name = some b) : ∃ m < n, s.ChainsWithin m b := by
  induction names generalizing n e with
  | nil =>
      obtain ⟨hname, -⟩ := chain_cons_iff.1 hchain
      obtain ⟨m, rfl⟩ := Nat.exists_eq_succ_of_ne_zero (h.ne_zero hname)
      exact ⟨m, Nat.lt_succ_self m, h.step hname hbound⟩
  | cons first names ih =>
      obtain ⟨hname, hnone | ⟨c, hfirst, hrest⟩⟩ := chain_cons_iff.1 hchain
      · exact absurd hnone (List.concat_ne_nil name names)
      · obtain ⟨m, rfl⟩ := Nat.exists_eq_succ_of_ne_zero (h.ne_zero hname)
        obtain ⟨k, hk, hwithin⟩ := ih (h.step hname hfirst) hrest
        exact ⟨k, Nat.lt_succ_of_lt hk, hwithin⟩

/-- A variable that leads back to itself leads to chains without bound. Going round once more
makes a chain longer, and no bound holds for all of them. -/
theorem ChainsWithin.not_back (h : s.ChainsWithin n b) (hbound : s.bound name = some b) :
    ¬ s.Chain b (names ++ [name]) := by
  induction n using Nat.strongRecOn with
  | ind n ih =>
      intro hchain
      obtain ⟨m, hm, hwithin⟩ := h.behind hchain hbound
      exact ih m hm hwithin hchain

/-- A chain may end earlier. What a chain leads to is told by its last name, so every name on it
is led to as well. -/
theorem Chain.until (h : s.Chain e (names ++ name :: others)) : s.Chain e (names ++ [name]) := by
  induction names generalizing e with
  | nil => exact .last (chain_cons_iff.1 h).1
  | cons first names ih =>
      obtain ⟨hname, hnone | ⟨b, hbound, hrest⟩⟩ := chain_cons_iff.1 h
      · exact absurd hnone (List.append_ne_nil_of_right_ne_nil names (List.cons_ne_nil _ _))
      · exact .next hname hbound (ih hrest)

/-- Where chains have a greatest length, none comes to a name for the second time. -/
theorem ChainsWithin.nodup (h : s.ChainsWithin n e) (hchain : s.Chain e names) : names.Nodup := by
  induction hchain generalizing n with
  | last hname => exact List.nodup_singleton _
  | @next e b name names hname hbound hrest ih =>
      obtain ⟨m, rfl⟩ := Nat.exists_eq_succ_of_ne_zero (h.ne_zero hname)
      have hwithin := h.step hname hbound
      refine List.nodup_cons.2 ⟨fun hmem => ?_, ih hwithin⟩
      obtain ⟨before, after, rfl⟩ := List.append_of_mem hmem
      exact hwithin.not_back hbound hrest.until

end Scope

end LSystem.Eval
