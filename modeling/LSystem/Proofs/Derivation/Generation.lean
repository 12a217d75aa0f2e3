import LSystem.Derivation.Basic
import LSystem.Proofs.Specification.Weights

/-!
# One generation

`Rewrites` says what may come of one symbol in a generation, from the rules of
its name alone and without the index, the draws and the order of the scan.
`Generation` puts the pieces of all symbols together in their places.  A scan
that succeeds is a generation, and a generation never shortens a string.
-/

namespace LSystem

open Syntax Eval Randomness

/-- What comes of a symbol in one generation, and how it moves the generator.  A
bracket and a name without rules stay; the only rule of a name replaces it; of
several rules the weights are evaluated in turn, and any whose weight came out
above zero may replace the name. -/
inductive Rewrites (spec : Specification) (s : Scope) :
    Generator → Symbol → List Symbol → Generator → Prop
  | push {g : Generator} : Rewrites spec s g .push [.push] g
  | pop {g : Generator} : Rewrites spec s g .pop [.pop] g
  | keep {g : Generator} {name : String} (hnone : spec.rulesOf name = []) :
      Rewrites spec s g (.named name) [.named name] g
  | only {g : Generator} {name : String} {rule : Rule} (honly : spec.rulesOf name = [rule]) :
      Rewrites spec s g (.named name) rule.body g
  | weighed {g middle : Generator} {name : String} {rule : Rule} {w : Float}
      {weights : List (Rule × Float)} (hseveral : 2 ≤ (spec.rulesOf name).length)
      (hweights : Weights s g (spec.rulesOf name) weights middle)
      (hchosen : (rule, w) ∈ weights) (hpos : 0 < w) :
      Rewrites spec s g (.named name) rule.body middle.next.2

/-- One generation: every symbol is replaced in its place, all at once, and what
has replaced it is not looked at.  The draws are taken from left to right. -/
inductive Generation (spec : Specification) (s : Scope) :
    Generator → List Symbol → List Symbol → Generator → Prop
  | nil (g : Generator) : Generation spec s g [] [] g
  | cons {g middle g' : Generator} {symbol : Symbol} {piece rest next : List Symbol}
      (hpiece : Rewrites spec s g symbol piece middle)
      (hrest : Generation spec s middle rest next g') :
      Generation spec s g (symbol :: rest) (piece ++ next) g'

/-- Whether a symbol has rules. -/
def Specification.Rewritable (spec : Specification) (symbol : Symbol) : Prop :=
  ∃ name, symbol = .named name ∧ spec.rulesOf name ≠ []

variable {spec : Specification} {s : Scope} {g g' : Generator} {u v : List Symbol}

/-- What replaces a symbol is the symbol itself or the body of a rule. So a piece never has a
symbol that is neither in the string nor in a rule. -/
theorem Rewrites.piece_cases {symbol : Symbol} {piece : List Symbol}
    (h : Rewrites spec s g symbol piece g') :
    piece = [symbol] ∨ ∃ rule ∈ spec.rules, symbol = .named rule.name ∧ piece = rule.body := by
  have hbody {name : String} {rule : Rule} (hrule : rule ∈ spec.rulesOf name) :
      ∃ other ∈ spec.rules, Symbol.named name = .named other.name ∧ rule.body = other.body := by
    obtain ⟨hmem, hname⟩ := Specification.mem_rulesOf_iff.1 hrule
    exact ⟨rule, hmem, by rw [hname], rfl⟩
  cases h with
  | push => exact .inl rfl
  | pop => exact .inl rfl
  | keep hnone => exact .inl rfl
  | only honly =>
      apply Or.inr
      apply hbody
      rw [honly]
      exact List.mem_singleton_self _
  | weighed hseveral hweights hchosen hpos =>
      apply Or.inr
      apply hbody
      rw [← hweights.map_fst]
      exact List.mem_map_of_mem (f := Prod.fst) hchosen

/-- A generation never shortens a string. Every symbol is replaced by one symbol at least, by
induction on the generation. -/
theorem Generation.length_le (hbodies : ∀ rule ∈ spec.rules, rule.body ≠ [])
    (h : Generation spec s g u v g') : u.length ≤ v.length := by
  induction h with
  | nil g => exact Nat.le_refl 0
  | cons hpiece hrest ih =>
      rename_i symbol piece rest next
      have hone : 1 ≤ piece.length := by
        obtain rfl | ⟨rule, hrule, -, rfl⟩ := hpiece.piece_cases
        · exact Nat.le_refl 1
        · exact List.length_pos_iff.2 (hbodies rule hrule)
      rw [List.length_cons, List.length_append]
      omega

/-! ### Scans are generations -/

/-- What a scan writes for a symbol and its choice. -/
def replacement (symbol : Symbol) : Option Choice → List Symbol
  | some choice => choice.rule.body
  | none => [symbol]

/-- A scan writes the body of the chosen rule, or the symbol itself where there is none, behind
what it has written so far. -/
theorem Scan.symbols_add (scan : Scan) (symbol : Symbol) (choice : Option Choice) :
    (scan.add symbol choice).symbols = scan.symbols ++ replacement symbol choice := by
  cases choice with
  | none => simp [add, symbols, replacement]
  | some choice => simp [add, symbols, replacement, List.reverseAux_eq]

/-- The rule for a name is one that may rewrite it. With the index in step with the rules, what is
chosen among the candidates is a rule of the name, and with none the symbol stays. -/
theorem choose_rewrites (hindex : Indexed spec.rules spec.index) {name : String}
    {choice : Option Choice} (h : Answers (spec.choose s name) g choice g') :
    Rewrites spec s g (.named name) (replacement (.named name) choice) g' := by
  have hrules := Specification.map_snd_candidates hindex name
  unfold Specification.choose at h
  split at h
  · rename_i hcandidates
    obtain ⟨rfl, rfl⟩ := answers_pure_iff.1 h
    rw [hcandidates] at hrules
    exact .keep hrules.symm
  · rename_i i rule hcandidates
    obtain ⟨rfl, rfl⟩ := answers_pure_iff.1 h
    rw [hcandidates] at hrules
    exact .only hrules.symm
  · rename_i hnone hone
    obtain ⟨chosen, w, weights, middle, rfl, hweights, hchosen, hpos, rfl⟩ :=
      chooseWeighted_spec h
    have hseveral : 2 ≤ (spec.candidates name).length := by
      match hcandidates : spec.candidates name with
      | [] => exact absurd hcandidates hnone
      | [(i, rule)] => exact absurd hcandidates (hone i rule)
      | _ :: _ :: _ => simp
    rw [hrules] at hweights
    rw [← List.length_map, hrules] at hseveral
    exact .weighed hseveral hweights hchosen hpos

/-- A rule is found for a name exactly when it has any. A choice that finds no rule among some has
failed before. -/
theorem isSome_of_choose (hindex : Indexed spec.rules spec.index) {name : String}
    {choice : Option Choice} (h : Answers (spec.choose s name) g choice g') :
    choice.isSome ↔ spec.rulesOf name ≠ [] := by
  have hrules := Specification.map_snd_candidates hindex name
  have hempty : spec.rulesOf name = [] ↔ spec.candidates name = [] := by
    rw [← hrules, List.map_eq_nil_iff]
  rw [ne_eq, hempty]
  unfold Specification.choose at h
  split at h
  · rename_i hcandidates
    obtain ⟨rfl, -⟩ := answers_pure_iff.1 h
    simp [hcandidates]
  · rename_i i rule hcandidates
    obtain ⟨rfl, -⟩ := answers_pure_iff.1 h
    simp [hcandidates]
  · rename_i hnone hone
    obtain ⟨chosen, w, weights, middle, rfl, -⟩ := chooseWeighted_spec h
    exact ⟨fun _ => hnone, fun _ => rfl⟩

/-- A choice that does not fail finds a rule exactly for the symbols with rules. Whether a step
takes a generation is thus told by its string and the names of the rules. -/
theorem isSome_of_chooseFor (hindex : Indexed spec.rules spec.index) {symbol : Symbol}
    {choice : Option Choice} (h : Answers (chooseFor spec s symbol) g choice g') :
    choice.isSome ↔ spec.Rewritable symbol := by
  unfold Specification.Rewritable
  cases symbol with
  | named name =>
      rw [isSome_of_choose hindex h]
      simp
  | push =>
      obtain ⟨rfl, -⟩ := answers_pure_iff.1 h
      simp
  | pop =>
      obtain ⟨rfl, -⟩ := answers_pure_iff.1 h
      simp

/-- A scan has applied a rule when it has found one for this symbol or for one before. -/
theorem Scan.matched_add (scan : Scan) (symbol : Symbol) (choice : Option Choice) :
    (scan.add symbol choice).matched = true ↔ scan.matched = true ∨ choice.isSome := by
  cases choice with
  | none => simp [add]
  | some choice => simp [add]

/-- What a choice makes of a symbol is what the rules of its name allow, and it moves the
generator accordingly. -/
theorem chooseFor_rewrites (hindex : Indexed spec.rules spec.index) {symbol : Symbol}
    {choice : Option Choice} (h : Answers (chooseFor spec s symbol) g choice g') :
    Rewrites spec s g symbol (replacement symbol choice) g' := by
  cases symbol with
  | named name => exact choose_rewrites hindex h
  | push =>
      obtain ⟨rfl, rfl⟩ := answers_pure_iff.1 h
      exact .push
  | pop =>
      obtain ⟨rfl, rfl⟩ := answers_pure_iff.1 h
      exact .pop

namespace Derivation

/-- One symbol of a scan: the rule is chosen, and what is written has not become
too long. -/
theorem answers_scanSymbol {d : Derivation} {scan next : Scan} {symbol : Symbol}
    (h : Answers (d.scanSymbol s scan symbol) g next g') :
    ∃ choice, Answers (chooseFor d.spec s symbol) g choice g' ∧
      next = scan.add symbol choice ∧ next.length ≤ d.maxSymbols := by
  obtain ⟨choice, middle, hchoice, hallow⟩ := answers_bind_iff.1 h
  rw [answers_adapt_iff] at hchoice
  unfold allow at hallow
  split at hallow
  · exact absurd hallow not_answers_throw
  · rename_i hlength
    obtain ⟨rfl, rfl⟩ := answers_pure_iff.1 hallow
    exact ⟨choice, hchoice, rfl, Nat.le_of_not_lt hlength⟩

/-- One symbol of a scan fails in its choice, or because what is written has become
too long. -/
theorem fails_scanSymbol_cases {d : Derivation} {scan : Scan} {symbol : Symbol}
    {e : DerivationError} (h : Fails (d.scanSymbol s scan symbol) g e g') :
    (∃ cause, e = .evaluation cause ∧ Fails (chooseFor d.spec s symbol) g cause g') ∨
      ∃ choice, Answers (chooseFor d.spec s symbol) g choice g' ∧
        d.maxSymbols < (scan.add symbol choice).length ∧
        e = .tooLong (d.generations + 1) (scan.add symbol choice).length d.maxSymbols := by
  obtain hfails | ⟨choice, middle, hchoice, hallow⟩ := fails_bind_cases h
  · exact .inl (fails_adapt_iff.1 hfails)
  · rw [answers_adapt_iff] at hchoice
    unfold allow at hallow
    split at hallow
    · rename_i hlong
      cases hallow
      exact .inr ⟨choice, hchoice, hlong, rfl⟩
    · exact absurd hallow not_fails_pure

/-- The symbols of a scan are what it began with and a generation of what it has
read, and it has applied a rule when it began with one or has read a symbol that
has any. -/
theorem foldlM_scanSymbol {d : Derivation} (hindex : Indexed d.spec.rules d.spec.index) :
    ∀ {scan last : Scan} {g g' : Generator},
      Answers (u.foldlM (d.scanSymbol s) scan) g last g' →
        (∃ v, Generation d.spec s g u v g' ∧ last.symbols = scan.symbols ++ v) ∧
          (last.matched = true ↔ scan.matched = true ∨ ∃ symbol ∈ u, d.spec.Rewritable symbol) := by
  induction u with
  | nil =>
      intro scan last g g' h
      obtain ⟨rfl, rfl⟩ := answers_pure_iff.1 h
      refine ⟨⟨[], .nil _, (List.append_nil _).symm⟩, ?_⟩
      simp
  | cons symbol rest ih =>
      intro scan last g g' h
      rw [List.foldlM_cons] at h
      obtain ⟨next, middle, hsymbol, hrest⟩ := answers_bind_iff.1 h
      obtain ⟨choice, hchoice, rfl, -⟩ := answers_scanSymbol hsymbol
      obtain ⟨⟨v, hgeneration, hlast⟩, hmatched⟩ := ih hrest
      constructor
      · refine ⟨replacement symbol choice ++ v,
          .cons (chooseFor_rewrites hindex hchoice) hgeneration, ?_⟩
        rw [hlast, Scan.symbols_add, List.append_assoc]
      · rw [hmatched, Scan.matched_add, isSome_of_chooseFor hindex hchoice, or_assoc]
        simp only [List.mem_cons, exists_eq_or_imp]

/-- A scan that succeeds has written the next generation, and has applied a rule
when some symbol has any. -/
theorem scan_generation {d : Derivation} (hindex : Indexed d.spec.rules d.spec.index)
    {scan : Scan} (h : Answers (d.scan s) g scan g') :
    Generation d.spec s g d.symbols scan.symbols g' ∧
      (scan.matched = true ↔ ∃ symbol ∈ d.symbols, d.spec.Rewritable symbol) := by
  obtain ⟨⟨v, hgeneration, hsymbols⟩, hmatched⟩ := foldlM_scanSymbol hindex h
  have hempty : (Scan.empty.matched = true) = False := by simp [Scan.empty]
  rw [hempty, false_or] at hmatched
  refine ⟨?_, hmatched⟩
  rw [hsymbols]
  exact hgeneration

end Derivation

end LSystem
