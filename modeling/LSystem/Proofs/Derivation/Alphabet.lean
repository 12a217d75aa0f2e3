import LSystem.Proofs.Derivation.Calls
import LSystem.Proofs.Specification.Validation
import LSystem.Proofs.Syntax.RoundTrip
import LSystem.Development

/-!
# The symbols of a derivation

A derivation invents no symbol: whatever stands in one of its strings stands in the
start string or in the body of a rule.  In a program that was read from a text all
of these can be written, so the string of a run can be printed at any time, and the
text is read as the string again.
-/

namespace LSystem

open Syntax Eval Randomness

/-- The symbol stands in the start string or in the body of a rule. -/
def Specification.InAlphabet (spec : Specification) (symbol : Symbol) : Prop :=
  symbol ∈ spec.start ∨ ∃ rule ∈ spec.rules, symbol ∈ rule.body

variable {spec : Specification} {s : Scope} {g g' : Generator} {u v : List Symbol}

/-! ### Generations -/

/-- A generation takes its symbols from the string before it and from the bodies of
rules. -/
theorem Generation.mem_cases {x : Symbol} (h : Generation spec s g u v g') (hx : x ∈ v) :
    x ∈ u ∨ ∃ rule ∈ spec.rules, x ∈ rule.body := by
  induction h with
  | nil g => cases hx
  | cons hpiece hrest ih =>
      rcases List.mem_append.1 hx with hfirst | hothers
      · rcases hpiece.piece_cases with rfl | ⟨rule, hrule, -, rfl⟩
        · obtain rfl := List.mem_singleton.1 hfirst
          exact .inl List.mem_cons_self
        · exact .inr ⟨rule, hrule, hfirst⟩
      · rcases ih hothers with hkept | hbody
        · exact .inl (List.mem_cons_of_mem _ hkept)
        · exact .inr hbody

/-- A generation of a string over the alphabet is over the alphabet: a symbol stays, or a body of
a rule takes its place. -/
theorem Generation.inAlphabet (h : Generation spec s g u v g')
    (hu : ∀ x ∈ u, spec.InAlphabet x) : ∀ x ∈ v, spec.InAlphabet x := by
  intro x hx
  rcases h.mem_cases hx with hkept | hbody
  · exact hu x hkept
  · exact .inr hbody

/-- A lineage invents no symbol. The start string is of the alphabet, and each generation replaces
symbols by bodies, which are; the induction is on the lineage. -/
theorem Lineage.inAlphabet {contexts : List Context} {strings : List (List Symbol)}
    (h : Lineage spec contexts strings) : ∀ u ∈ strings, ∀ x ∈ u, spec.InAlphabet x := by
  induction h with
  | start =>
      intro u hu x hx
      obtain rfl := List.mem_singleton.1 hu
      exact .inl hx
  | next hold hscope hgeneration ih =>
      intro w hw
      rcases List.mem_cons.1 hw with rfl | holder
      · exact hgeneration.inAlphabet (ih _ List.mem_cons_self)
      · exact ih w holder

/-- Whatever the calls, a run at the start string comes to symbols of the alphabet
alone. -/
theorem Run.inAlphabet_after (hindex : Indexed spec.rules spec.index) (maxSymbols : Nat)
    (context : Context) (calls : List Run.Call) :
    ∀ x ∈ ((⟨.new spec maxSymbols, context⟩ : Run).after calls).derivation.symbols,
      spec.InAlphabet x := by
  obtain ⟨older, hlineage, -⟩ := (Run.traced_after hindex maxSymbols context calls).lineage
  exact hlineage.inAlphabet _ List.mem_cons_self

/-! ### Printing -/

/-- The alphabet of a program that can be written can be written. -/
theorem Specification.Holds.wellFormed {program : Program} (h : spec.Holds program)
    (hprogram : program.WellFormed) {x : Symbol} (hx : spec.InAlphabet x) : x.WellFormed := by
  rcases hx with hstart | ⟨rule, hrule, hbody⟩
  · obtain ⟨d, hd, hglobal⟩ := List.mem_filterMap.1 (List.mem_of_head? h.start)
    have hnamed := hprogram.named d hd
    cases d <;> cases hglobal
    exact hnamed x hstart
  · have hmem := Array.mem_toList_iff.2 hrule
    rw [h.rules] at hmem
    obtain ⟨d, hd, hrule⟩ := List.mem_filterMap.1 hmem
    have hnamed := hprogram.named d hd
    cases d <;> cases hrule
    exact hnamed.2 x hbody

/-- **The string of a run can be printed and read back.**  When a source compiles,
then after any calls, from any context on and with any limit, the text of the string
that the run has come to, between the word `axiom` and a semicolon, is read as the
declaration of this string and nothing else. -/
theorem parseProgram_axiom_after_calls {source : String} (h : compile source = .ok spec)
    (maxSymbols : Nat) (context : Context) (calls : List Run.Call) :
    let held := ((⟨.new spec maxSymbols, context⟩ : Run).after calls).derivation.symbols
    parseProgram ("axiom " ++ symbolsText held ++ ";") = .ok [.start held] := by
  intro held
  obtain ⟨program, hparse, hspec⟩ := compile_eq_ok_iff.1 h
  have hindex := Specification.indexed_ofProgram hspec
  have hheld : ∀ x ∈ held, x.WellFormed := by
    intro x hx
    have halphabet := Run.inAlphabet_after hindex maxSymbols context calls x hx
    exact (Specification.holds_ofProgram hspec).wellFormed (wellFormed_of_parseProgram hparse)
      halphabet
  apply parseProgram_text (d := .start held)
  · exact hheld
  · intro e he
    cases he

/-- A twig with a branch on the left. -/
def fork : Program :=
  [.start [.named "F"],
    .rule "F" [.named "F", .push, .named "+", .named "F", .pop, .named "-", .named "F"] none]

/-- After one step of the fork, its string can be printed as the start of a program and read
back. -/
theorem fork_axiom_after_step : ∃ spec, compile (programText fork) = .ok spec ∧
    let held := ((spec.begin 100 7).after [.step]).derivation.symbols
    symbolsText held = "F [ + F ] - F" ∧
      parseProgram ("axiom " ++ symbolsText held ++ ";") = .ok [.start held] := by
  have hparse := parseProgram_programText (p := fork) (by decide +kernel)
  obtain ⟨spec, hspec, htext⟩ : ∃ spec, Specification.ofProgram fork = .ok spec ∧
      symbolsText ((spec.begin 100 7).after [.step]).derivation.symbols = "F [ + F ] - F" :=
    ⟨_, rfl, by decide +kernel⟩
  have hcompile := compile_eq_ok_iff.2 ⟨fork, hparse, hspec⟩
  exact ⟨spec, hcompile, htext, parseProgram_axiom_after_calls hcompile 100 _ [.step]⟩

end LSystem
