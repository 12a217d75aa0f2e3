import LSystem.Proofs.Derivation.Balance

/-!
# The limit on symbols

A scan looks at the limit after every symbol, and so it stops in the middle of a
generation that would become too long.  `pieces` is the generation without the limit:
what replaces every symbol, however many symbols that makes in all.

`ScanEnds` compares the two.  Up to the symbol where a scan stops it has written the
pieces of the symbols before, and these still fit.  As pieces never make a string
shorter, the scan stops for the limit exactly when all pieces together are too long,
unless a choice fails first.  With one more piece than fits the string is longer than
the limit by a body at most.
-/

namespace LSystem

open Syntax Eval Randomness

/-- What replaces the symbols of a string, in their order and without a limit. -/
def Specification.pieces (spec : Specification) (s : Scope) (u : List Symbol) :
    EvalM (List (List Symbol)) :=
  u.mapM fun symbol => replacement symbol <$> chooseFor spec s symbol

/-- The length of the longest rule body. -/
def Specification.longestBody (spec : Specification) : Nat :=
  greatest (spec.rules.toList.map fun rule => rule.body.length)

variable {spec : Specification} {s : Scope} {g g' : Generator}

/-! ### Bodies -/

/-- A rule that is chosen is a rule of the specification. Candidates are looked up in the rules,
and all choices are made among candidates. -/
theorem mem_rules_of_choose {name : String} {choice : Choice}
    (h : Answers (spec.choose s name) g (some choice) g') : choice.rule ∈ spec.rules := by
  unfold Specification.choose at h
  split at h
  · cases (answers_pure_iff.1 h).1
  · rename_i i rule hcandidates
    cases (answers_pure_iff.1 h).1
    have hmem : (i, rule) ∈ spec.candidates name := by
      rw [hcandidates]
      exact List.mem_singleton_self _
    exact Specification.mem_rules_of_mem_rulesAt hmem
  · obtain ⟨found, w, weights, middle, hfound, hweights, hmem, -⟩ := chooseWeighted_spec h
    cases hfound
    have hrule := List.mem_map_of_mem (f := Prod.fst) hmem
    rw [hweights.map_fst] at hrule
    obtain ⟨entry, hentry, heq⟩ := List.mem_map.1 hrule
    have hbody := Specification.mem_rules_of_mem_rulesAt hentry
    rw [heq] at hbody
    exact hbody

/-- What replaces a symbol is one symbol, or no longer than the longest body. -/
theorem length_replacement_le {symbol : Symbol} {choice : Option Choice}
    (h : Answers (chooseFor spec s symbol) g choice g') :
    (replacement symbol choice).length ≤ max 1 spec.longestBody := by
  cases choice with
  | none => exact Nat.le_max_left 1 _
  | some choice =>
      cases symbol with
      | push => cases (answers_pure_iff.1 h).1
      | pop => cases (answers_pure_iff.1 h).1
      | named name =>
          have hmem := Array.mem_toList_iff.2 (mem_rules_of_choose h)
          have hle := le_greatest (List.mem_map_of_mem (f := fun rule => rule.body.length) hmem)
          exact Nat.le_trans hle (Nat.le_max_right 1 _)

/-! ### Pieces -/

namespace Specification

/-- The pieces of a string in two parts are those of the first part and then those of the second,
which draws where the first has stopped. -/
theorem pieces_append (spec : Specification) (s : Scope) (u v : List Symbol) :
    spec.pieces s (u ++ v) = (do
      let first ← spec.pieces s u
      let others ← spec.pieces s v
      return first ++ others) :=
  List.mapM_append

/-- The pieces of a string with one more symbol are those of the string, and then the piece of
that symbol. -/
theorem pieces_concat (spec : Specification) (s : Scope) (u : List Symbol) (symbol : Symbol) :
    spec.pieces s (u ++ [symbol]) = (do
      let first ← spec.pieces s u
      let choice ← chooseFor spec s symbol
      return first ++ [replacement symbol choice]) := by
  rw [pieces_append]
  unfold pieces
  simp only [List.mapM_cons, List.mapM_nil, bind_map_left, pure_bind, bind_assoc]

/-- The pieces of a string with one more symbol are there when those of the string are and a
choice for the symbol succeeds behind them. -/
theorem answers_pieces_concat_iff {u : List Symbol} {symbol : Symbol}
    {all : List (List Symbol)} : Answers (spec.pieces s (u ++ [symbol])) g all g' ↔
      ∃ first middle choice, Answers (spec.pieces s u) g first middle ∧
        Answers (chooseFor spec s symbol) middle choice g' ∧
        all = first ++ [replacement symbol choice] := by
  rw [pieces_concat, answers_bind_iff]
  refine exists_congr fun first => exists_congr fun middle => ?_
  rw [answers_bind_iff]
  constructor
  · rintro ⟨hfirst, choice, last, hchoice, hall⟩
    obtain ⟨rfl, rfl⟩ := answers_pure_iff.1 hall
    exact ⟨choice, hfirst, hchoice, rfl⟩
  · rintro ⟨choice, hfirst, hchoice, rfl⟩
    exact ⟨hfirst, choice, g', hchoice, answers_pure_iff.2 ⟨rfl, rfl⟩⟩

/-- The pieces of a prefix are a prefix of the pieces. Pieces are found from left to right, so
those of a prefix do not wait for what comes behind. -/
theorem exists_of_answers_pieces_append {u v : List Symbol} {all : List (List Symbol)}
    (h : Answers (spec.pieces s (u ++ v)) g all g') :
    ∃ first middle, Answers (spec.pieces s u) g first middle ∧ first <+: all := by
  rw [pieces_append] at h
  obtain ⟨first, middle, hfirst, hothers⟩ := answers_bind_iff.1 h
  obtain ⟨others, last, -, hall⟩ := answers_bind_iff.1 hothers
  obtain ⟨rfl, rfl⟩ := answers_pure_iff.1 hall
  exact ⟨first, middle, hfirst, List.prefix_append first others⟩

/-- Pieces fail at the first symbol whose choice fails. The pieces of the symbols before it have
been found by then, and none of those behind it is looked for. -/
theorem fails_pieces_cases {u : List Symbol} {e : EvalError}
    (h : Fails (spec.pieces s u) g e g') :
    ∃ p symbol rest first middle, u = p ++ symbol :: rest ∧
      Answers (spec.pieces s p) g first middle ∧ Fails (chooseFor spec s symbol) middle e g' := by
  induction u using List.reverseRecOn generalizing e g' with
  | nil => exact absurd h not_fails_pure
  | append_singleton u symbol ih =>
      rw [pieces_concat] at h
      obtain hu | ⟨first, middle, hfirst, hlast⟩ := fails_bind_cases h
      · obtain ⟨p, other, rest, first, middle, rfl, hfirst, hother⟩ := ih hu
        exact ⟨p, other, rest ++ [symbol], first, middle, List.append_assoc p _ _, hfirst, hother⟩
      · obtain hchoice | ⟨choice, last, -, hpure⟩ := fails_bind_cases hlast
        · exact ⟨u, symbol, [], first, middle, rfl, hfirst, hchoice⟩
        · exact absurd hpure not_fails_pure

end Specification

/-! ### How a scan ends -/

/-- A scan counts the symbols that it writes, for a rule as well as for a symbol that stays. -/
theorem Scan.length_add (scan : Scan) (symbol : Symbol) (choice : Option Choice) :
    (scan.add symbol choice).length = scan.length + (replacement symbol choice).length := by
  cases choice with
  | none => rfl
  | some choice => rfl

/-- What the pieces have made of a string is what a scan holds, with its length. -/
structure Scan.Holds (scan : Scan) (u : List Symbol) (pieces : List (List Symbol)) : Prop where
  symbols : scan.symbols = pieces.flatten
  length : scan.length = pieces.flatten.length
  /-- A scan that has applied no rule has written what it has read. -/
  kept : scan.matched = false → pieces.flatten = u

theorem Scan.holds_empty : Scan.empty.Holds [] [] := ⟨rfl, rfl, fun _ => rfl⟩

/-- A scan that holds the pieces of a string holds one piece more behind the next symbol. -/
theorem Scan.Holds.add {scan : Scan} {u : List Symbol} {pieces : List (List Symbol)}
    (h : scan.Holds u pieces) (symbol : Symbol) (choice : Option Choice) :
    (scan.add symbol choice).Holds (u ++ [symbol]) (pieces ++ [replacement symbol choice]) := by
  constructor
  · rw [Scan.symbols_add, h.symbols, List.flatten_concat]
  · rw [Scan.length_add, h.length, List.flatten_concat, List.length_append]
  · intro hmatched
    cases choice with
    | none => rw [List.flatten_concat, h.kept hmatched, replacement]
    | some choice => cases hmatched

namespace Derivation

/-- How a scan of a string ends.  It comes to the end with pieces that fit; or the
pieces of some symbols fit and the next piece does not; or they fit and the next
choice fails. -/
inductive ScanEnds (d : Derivation) (s : Scope) (u : List Symbol) (g : Generator) :
    Except DerivationError Scan → Generator → Prop
  | fits {pieces : List (List Symbol)} {scan : Scan} {g' : Generator}
      (hpieces : Answers (d.spec.pieces s u) g pieces g') (hscan : scan.Holds u pieces)
      (hfits : pieces.flatten.length ≤ d.maxSymbols) : ScanEnds d s u g (.ok scan) g'
  | tooLong {p rest : List Symbol} {symbol : Symbol} {pieces : List (List Symbol)}
      {piece : List Symbol} {g' : Generator} (hu : u = p ++ [symbol] ++ rest)
      (hpieces : Answers (d.spec.pieces s (p ++ [symbol])) g (pieces ++ [piece]) g')
      (hfits : pieces.flatten.length ≤ d.maxSymbols)
      (hpiece : piece.length ≤ max 1 d.spec.longestBody)
      (hlong : d.maxSymbols < (pieces ++ [piece]).flatten.length) :
      ScanEnds d s u g (.error (.tooLong (d.generations + 1) (pieces ++ [piece]).flatten.length
        d.maxSymbols)) g'
  | failed {p rest : List Symbol} {symbol : Symbol} {pieces : List (List Symbol)}
      {middle g' : Generator} {e : EvalError} (hu : u = p ++ [symbol] ++ rest)
      (hpieces : Answers (d.spec.pieces s p) g pieces middle)
      (hfits : pieces.flatten.length ≤ d.maxSymbols)
      (hfails : Fails (chooseFor d.spec s symbol) middle e g') :
      ScanEnds d s u g (.error (.evaluation e)) g'

/-- A scan that has stopped looks at no further symbol. The draws that it has taken are not taken
back either. -/
theorem ScanEnds.error_concat {d : Derivation} {u : List Symbol} {e : DerivationError}
    (h : ScanEnds d s u g (.error e) g') (symbol : Symbol) :
    ScanEnds d s (u ++ [symbol]) g (.error e) g' := by
  cases h with
  | tooLong hu hpieces hfits hpiece hlong =>
      subst hu
      exact .tooLong (List.append_assoc _ _ _) hpieces hfits hpiece hlong
  | failed hu hpieces hfits hfails =>
      subst hu
      exact .failed (List.append_assoc _ _ _) hpieces hfits hfails

/-- A scan ends in one of the three ways.  The induction takes the string from its end, so that
the last symbol decides between a scan that goes on and one that has already stopped. -/
theorem scanEnds {d : Derivation} {u : List Symbol} {answer : Except DerivationError Scan}
    (h : (u.foldlM (d.scanSymbol s) .empty).run.run g = (answer, g')) :
    ScanEnds d s u g answer g' := by
  induction u using List.reverseRecOn generalizing answer g' with
  | nil =>
      cases h
      exact .fits (answers_pure_iff.2 ⟨rfl, rfl⟩) Scan.holds_empty (Nat.zero_le _)
  | append_singleton u symbol ih =>
      simp only [List.foldlM_append, List.foldlM_cons, List.foldlM_nil, bind_pure] at h
      cases answer with
      | ok last =>
          obtain ⟨scan, middle, hscan, hsymbol⟩ := answers_bind_iff.1 h
          obtain ⟨choice, hchoice, rfl, hlength⟩ := answers_scanSymbol hsymbol
          obtain ⟨hpieces, hholds, -⟩ := ih hscan
          have hadd := hholds.add symbol choice
          refine .fits (Specification.answers_pieces_concat_iff.2 ⟨_, _, _, hpieces, hchoice, rfl⟩)
            hadd ?_
          rw [← hadd.length]
          exact hlength
      | error e =>
          obtain hfails | ⟨scan, middle, hscan, hsymbol⟩ := fails_bind_cases h
          · exact (ih hfails).error_concat symbol
          · obtain ⟨hpieces, hholds, hfits⟩ := ih hscan
            obtain ⟨cause, rfl, hchoice⟩ | ⟨choice, hchoice, hlong, rfl⟩ :=
              fails_scanSymbol_cases hsymbol
            · exact .failed (List.append_nil _).symm hpieces hfits hchoice
            · rw [(hholds.add symbol choice).length] at hlong ⊢
              exact .tooLong (List.append_nil _).symm
                (Specification.answers_pieces_concat_iff.2 ⟨_, _, _, hpieces, hchoice, rfl⟩)
                hfits (length_replacement_le hchoice) hlong

/-- Where pieces are found for a string, its scan answers with them if they fit and
stops at the limit if they do not. -/
theorem scan_of_answers_pieces {d : Derivation} {u : List Symbol} {pieces : List (List Symbol)}
    (h : Answers (d.spec.pieces s u) g pieces g') :
    (pieces.flatten.length ≤ d.maxSymbols ∧
        ∃ scan, Answers (u.foldlM (d.scanSymbol s) .empty) g scan g' ∧ scan.Holds u pieces) ∨
      (d.maxSymbols < pieces.flatten.length ∧
        ∃ length middle, Fails (u.foldlM (d.scanSymbol s) .empty) g
          (.tooLong (d.generations + 1) length d.maxSymbols) middle) := by
  match hscan : (u.foldlM (d.scanSymbol s) .empty).run.run g with
  | (answer, last) =>
      cases scanEnds hscan with
      | fits hpieces hholds hfits =>
          cases hpieces.symm.trans h
          exact .inl ⟨hfits, _, hscan, hholds⟩
      | tooLong hu hpieces hfits hpiece hlong =>
          subst hu
          obtain ⟨first, middle, hfirst, hfront⟩ :=
            Specification.exists_of_answers_pieces_append h
          cases hpieces.symm.trans hfirst
          have hle := hfront.flatten.length_le
          exact .inr ⟨Nat.lt_of_lt_of_le hlong hle, _, _, hscan⟩
      | failed hu hpieces hfits hfails =>
          subst hu
          obtain ⟨first, middle, hfirst, -⟩ := Specification.exists_of_answers_pieces_append h
          obtain ⟨others, last, choice, hothers, hchoice, -⟩ :=
            Specification.answers_pieces_concat_iff.1 hfirst
          cases hpieces.symm.trans hothers
          cases hfails.symm.trans hchoice

/-- Where pieces fail for a string, its scan fails with them if the pieces up to there
fit, and stops at the limit if they do not. -/
theorem scan_of_fails_pieces {d : Derivation} {u : List Symbol} {e : EvalError}
    (h : Fails (d.spec.pieces s u) g e g') :
    ∃ p symbol rest pieces middle, u = p ++ symbol :: rest ∧
      Answers (d.spec.pieces s p) g pieces middle ∧
      Fails (chooseFor d.spec s symbol) middle e g' ∧
      ((pieces.flatten.length ≤ d.maxSymbols ∧
          Fails (u.foldlM (d.scanSymbol s) .empty) g (.evaluation e) g') ∨
        (d.maxSymbols < pieces.flatten.length ∧
          ∃ length last, Fails (u.foldlM (d.scanSymbol s) .empty) g
            (.tooLong (d.generations + 1) length d.maxSymbols) last)) := by
  obtain ⟨p, symbol, rest, pieces, middle, rfl, hpieces, hfails⟩ :=
    Specification.fails_pieces_cases h
  refine ⟨p, symbol, rest, pieces, middle, rfl, hpieces, hfails, ?_⟩
  simp only [List.foldlM_append, List.foldlM_cons]
  obtain ⟨hfits, scan, hscan, -⟩ | ⟨hlong, length, last, hscan⟩ := scan_of_answers_pieces hpieces
  · refine .inl ⟨hfits, hscan.bind_fails ?_⟩
    exact (fails_adapt_iff.2 ⟨e, rfl, hfails⟩).bind.bind
  · exact .inr ⟨hlong, length, last, hscan.bind⟩

end Derivation

/-! ### Steps -/

namespace Run

variable {d : Derivation} {c : Context}

/-- What the limit does to a step from a derivation in a context. -/
structure ObeysLimit (d : Derivation) (c : Context) : Prop where
  /-- Where all choices succeed, the limit stops the step exactly when the whole
  generation is too long, and otherwise the step comes to the whole generation. -/
  whole : ∀ {pieces : List (List Symbol)} {g' : Generator},
    Answers (d.spec.pieces c.scope d.symbols) c.generator pieces g' →
      ((∃ k n l, (step ⟨d, c⟩).1 = .error (.tooLong k n l)) ↔
        d.maxSymbols < pieces.flatten.length) ∧
      (pieces.flatten.length ≤ d.maxSymbols → ∃ applied, (step ⟨d, c⟩).1 = .ok applied ∧
        (step ⟨d, c⟩).2.derivation.symbols = pieces.flatten)
  /-- Where a choice fails, the step fails with it or stops at the limit, according to
  whether what is written before that choice fits. -/
  first : ∀ {e : EvalError} {g' : Generator},
    Fails (d.spec.pieces c.scope d.symbols) c.generator e g' →
      ∃ p symbol rest pieces middle, d.symbols = p ++ symbol :: rest ∧
        Answers (d.spec.pieces c.scope p) c.generator pieces middle ∧
        Fails (chooseFor d.spec c.scope symbol) middle e g' ∧
        if pieces.flatten.length ≤ d.maxSymbols then (step ⟨d, c⟩).1 = .error (.evaluation e)
        else ∃ k n l, (step ⟨d, c⟩).1 = .error (.tooLong k n l)
  /-- The length that is reported is the first that does not fit. -/
  reported : ∀ {k n l : Nat}, (step ⟨d, c⟩).1 = .error (.tooLong k n l) →
    k = d.generations + 1 ∧ l = d.maxSymbols ∧ d.maxSymbols < n ∧
      n ≤ d.maxSymbols + max 1 d.spec.longestBody ∧
      ∃ p symbol rest pieces piece g', d.symbols = p ++ [symbol] ++ rest ∧
        Answers (d.spec.pieces c.scope (p ++ [symbol])) c.generator (pieces ++ [piece]) g' ∧
        pieces.flatten.length ≤ d.maxSymbols ∧ n = (pieces ++ [piece]).flatten.length
  /-- What is written on the way is never longer than what can be reported. -/
  buffer : ∀ {p rest : List Symbol} {symbol : Symbol} {scan : Scan} {choice : Option Choice}
    {middle g' : Generator}, d.symbols = p ++ symbol :: rest →
      Answers (p.foldlM (d.scanSymbol c.scope) .empty) c.generator scan middle →
      Answers (chooseFor d.spec c.scope symbol) middle choice g' →
        scan.symbols.length ≤ d.maxSymbols ∧
          (scan.add symbol choice).symbols.length ≤ d.maxSymbols + max 1 d.spec.longestBody
  /-- A step that fails has drawn and nothing else. -/
  atomic : ∀ {e : DerivationError}, (step ⟨d, c⟩).1 = .error e →
    ∃ g', (step ⟨d, c⟩).2 = ⟨d, c.withGenerator g'⟩

/-- A step whose scan comes to its end takes over what the scan holds, and says whether any rule
was applied. -/
theorem step_of_holds {pieces : List (List Symbol)} {scan : Scan} {g : Generator}
    (hscan : Answers (d.scan c.scope) c.generator scan g) (hholds : scan.Holds d.symbols pieces) :
    (step ⟨d, c⟩).1 = .ok scan.matched ∧
      (step ⟨d, c⟩).2.derivation.symbols = pieces.flatten := by
  rw [step_of_answers ⟨d, c⟩ hscan]
  cases hmatched : scan.matched with
  | false => exact ⟨rfl, (hholds.kept hmatched).symm⟩
  | true => exact ⟨rfl, hholds.symbols⟩

/-- Every step obeys the limit, whatever the derivation and the context. The three parts follow
from how a scan ends: with all pieces written, at the first error of a choice, or at the first
piece that does not fit. -/
theorem obeysLimit (d : Derivation) (c : Context) : ObeysLimit d c where
  whole hpieces := by
    obtain ⟨hfits, scan, hscan, hholds⟩ | ⟨hlong, length, last, hscan⟩ :=
      Derivation.scan_of_answers_pieces hpieces
    · obtain ⟨hanswer, hsymbols⟩ := step_of_holds hscan hholds
      refine ⟨⟨?_, fun hlong => absurd hlong (Nat.not_lt_of_le hfits)⟩,
        fun _ => ⟨_, hanswer, hsymbols⟩⟩
      rintro ⟨k, n, l, herror⟩
      rw [hanswer] at herror
      cases herror
    · have hstep := step_of_fails ⟨d, c⟩ hscan
      refine ⟨⟨fun _ => hlong, fun _ => ⟨_, _, _, congrArg Prod.fst hstep⟩⟩, ?_⟩
      exact fun hfits => absurd hlong (Nat.not_lt_of_le hfits)
  first hfails := by
    obtain ⟨p, symbol, rest, pieces, middle, hu, hpieces, hchoice, hends⟩ :=
      Derivation.scan_of_fails_pieces hfails
    refine ⟨p, symbol, rest, pieces, middle, hu, hpieces, hchoice, ?_⟩
    obtain ⟨hfits, hscan⟩ | ⟨hlong, length, last, hscan⟩ := hends
    · rw [if_pos hfits, step_of_fails ⟨d, c⟩ hscan]
    · rw [if_neg (Nat.not_le_of_lt hlong), step_of_fails ⟨d, c⟩ hscan]
      exact ⟨_, _, _, rfl⟩
  reported hstep := by
    obtain ⟨g', -, hscan⟩ := eq_afterDraws_of_step_error (Prod.ext hstep rfl)
    cases Derivation.scanEnds hscan with
    | tooLong hu hpieces hfits hpiece hlong =>
        refine ⟨rfl, rfl, hlong, ?_, _, _, _, _, _, _, hu, hpieces, hfits, rfl⟩
        rw [List.flatten_concat, List.length_append]
        exact Nat.add_le_add hfits hpiece
  buffer _ hscan hchoice := by
    cases Derivation.scanEnds hscan with
    | fits hpieces hholds hfits =>
        rw [Scan.symbols_add, List.length_append, hholds.symbols]
        exact ⟨hfits, Nat.add_le_add hfits (length_replacement_le hchoice)⟩
  atomic hstep := by
    obtain ⟨g', hnext, -⟩ := eq_afterDraws_of_step_error (Prod.ext hstep rfl)
    exact ⟨g', hnext⟩

/-! ### Runs -/

/-- The run has the limit, and its string is no longer than the limit or the start
string. -/
structure Within (spec : Specification) (maxSymbols : Nat) (run : Run) : Prop where
  same_spec : run.derivation.spec = spec
  same_limit : run.derivation.maxSymbols = maxSymbols
  length_le : run.derivation.symbols.length ≤ max maxSymbols spec.start.length

/-- A step keeps a run within its limit: it takes a generation that fits, or keeps its string. -/
theorem Within.step {maxSymbols : Nat} {run : Run} (h : Within spec maxSymbols run) :
    Within spec maxSymbols run.step.2 := by
  obtain ⟨e, g, -, hstep⟩ | ⟨scan, g, hscan, hstep⟩ := run.step_scan
  · rw [hstep]
    exact ⟨h.same_spec, h.same_limit, h.length_le⟩
  · rw [hstep]
    split
    · refine ⟨h.same_spec, h.same_limit, ?_⟩
      cases Derivation.scanEnds hscan with
      | fits hpieces hholds hfits =>
          rw [h.same_limit, ← hholds.symbols] at hfits
          exact Nat.le_trans hfits (Nat.le_max_left _ _)
    · exact ⟨h.same_spec, h.same_limit, h.length_le⟩

/-- Back at its start string, a run is as long as that. -/
theorem Within.restart {maxSymbols : Nat} {run : Run} (h : Within spec maxSymbols run)
    (target : Nat) : Within spec maxSymbols (run.restart target) := by
  refine ⟨h.same_spec, h.same_limit, ?_⟩
  obtain rfl := h.same_spec
  exact Nat.le_max_right _ _

/-- Whatever a caller does with a run, it stays within its limit. -/
theorem invariant_within (spec : Specification) (maxSymbols : Nat) :
    Invariant (Within spec maxSymbols) :=
  ⟨fun h _ => ⟨h.same_spec, h.same_limit, h.length_le⟩, Within.step, Within.restart⟩

/-- **The limit is exact, and it bounds all strings.**  A step that could choose a rule
for every symbol stops at the limit exactly when the whole next generation is too
long; where a choice fails, the step ends with what comes first.  The length that it
reports, and so whatever it has written by then, is above the limit by the longest
body or one symbol at most, and a step that fails changes nothing but the generator.
Whatever is called, no string of a run is longer than the limit, or than the start
string if that is longer. -/
theorem limit_exact_and_kept :
    (∀ d c, ObeysLimit d c) ∧
      ∀ (spec : Specification) (maxSymbols : Nat) (context : Context) (calls : List Call),
        ((⟨.new spec maxSymbols, context⟩ : Run).after calls).derivation.symbols.length ≤
          max maxSymbols spec.start.length := by
  refine ⟨obeysLimit, fun spec maxSymbols context calls => ?_⟩
  have hwithin : Within spec maxSymbols ((⟨.new spec maxSymbols, context⟩ : Run).after calls) := by
    apply (invariant_within spec maxSymbols).after
    · exact fun _ _ run h => ⟨h.same_spec, h.same_limit, h.length_le⟩
    · exact ⟨rfl, rfl, Nat.le_max_right _ _⟩
  exact hwithin.length_le

end Run

end LSystem
