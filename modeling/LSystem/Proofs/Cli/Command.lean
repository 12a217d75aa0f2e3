import LSystem.Cli.Command
import LSystem.Proofs.Cli.FileTree
import LSystem.Proofs.Derivation.Calls

/-!
# All or nothing

Without what it tells, the command is a chain of stages that may fail,
`Arguments.text`, and a write at its end.  `CommandM.Yields` takes the log away
from a command, step by step; `WorldM.Ends` says what a command on files comes
to and which files it leaves.

The program then writes one file after all stages have succeeded, and otherwise
changes none, whatever the log shows and whether the symbols are printed.
-/

namespace LSystem

open Syntax

/-- A run goes on with the specification that it begins with. So the text that a command writes is
one of the program that it has read. -/
theorem Specification.spec_of_iterate {program : Program} {spec : Specification} {maxSymbols : Nat}
    {seed : UInt64} {run : Run} (hspec : ofProgram program = .ok spec)
    (hrun : (spec.begin maxSymbols seed).iterate = (.ok (), run)) : run.derivation.spec = spec := by
  have htraced := Run.traced_after (indexed_ofProgram hspec) maxSymbols
    (spec.context (.ofSeed seed)) [.iterate]
  have hlast : (⟨.new spec maxSymbols, spec.context (.ofSeed seed)⟩ : Run).after [.iterate] = run :=
    congrArg Prod.snd hrun
  rw [hlast] at htraced
  exact htraced.same_spec

namespace Cli

variable {α β : Type} {args : Arguments} {detail : Bool} {fresh : UInt64}
  {contents : Except FileError ByteArray} {t t' after : FileTree} {path : String}

/-! ### Without the log -/

/-- A command comes to a result, whatever was shown before it. -/
def CommandM.Yields (m : CommandM α) (result : Except CommandError α) : Prop :=
  ∀ before, (m.run.run before).1 = result

namespace CommandM

/-- A command that only answers comes to its answer, and shows nothing on the way there. -/
theorem yields_pure (a : α) : Yields (pure a) (.ok a) := fun _ => rfl

/-- A command that only fails comes to its failure, whatever was shown before it. -/
theorem yields_throw (e : CommandError) : Yields (throw e : CommandM α) (.error e) := fun _ => rfl

/-- To show something is a success, so it can stand between two steps without any effect on the
result of the second. -/
theorem yields_tell (shown : Shown) : Yields (tell shown) (.ok ()) := fun _ => rfl

/-- A message to the user is one of the things that can be shown, and succeeds like all of them. -/
theorem yields_inform (message : String) : Yields (inform message) (.ok ()) := fun _ => rfl

/-- The entries of a log are shown one after the other, and no entry can make the command fail or
write. -/
theorem yields_tellAll (entries : List LogEntry) : Yields (tellAll entries) (.ok ()) :=
  fun _ => rfl

/-- Results follow one another as the commands do, with what was shown taken away from both of
them. -/
theorem Yields.bind {m : CommandM α} {f : α → CommandM β} {x : Except CommandError α}
    {y : α → Except CommandError β} (hm : Yields m x) (hf : ∀ a, Yields (f a) (y a)) :
    Yields (m >>= f) (x >>= y) := by
  intro before
  rw [ExceptT.run_bind, StateT.run_bind]
  have hresult := hm before
  match hrun : m.run.run before with
  | (.ok a, shown) =>
    obtain rfl : .ok a = x := by rw [← hresult, hrun]
    exact hf a shown
  | (.error e, shown) =>
    obtain rfl : .error e = x := by rw [← hresult, hrun]
    rfl

theorem Yields.next {m : CommandM Unit} {k : CommandM α} {x : Except CommandError α}
    (hm : Yields m (.ok ())) (hk : Yields k x) : Yields (m >>= fun _ => k) x :=
  hm.bind fun _ => hk

/-- A stage comes to its result, with its failure as one of the command.  Its entries in the log,
before or after, change nothing about it. -/
theorem yields_stage (name : String) (entries : List LogEntry) (result : Except Failure α) :
    Yields (stage name entries result) (result.mapError .stage) := by
  apply (yields_tellAll entries).next
  apply (yields_inform _).next
  cases result with
  | ok a => exact yields_pure a
  | error e => exact yields_throw _

end CommandM

open CommandM

/-- What is to be written for the contents of the input, or the failure of a stage. -/
def Arguments.text (args : Arguments) (fresh : UInt64) (contents : Except FileError ByteArray) :
    Except CommandError String := do
  let source ← (contents >>= textOf).mapError (.read args.input)
  let program ← ((parseProgram source).mapError .source).mapError .stage
  let spec ← ((Specification.ofProgram program).mapError .specification).mapError .stage
  let start := spec.begin (args.maxSymbols.getD defaultMaxSymbols)
    ((args.seed.map UInt64.ofNat).getD fresh)
  let run ← start.develop.mapError .stage
  let drawing ← (run.draw .standard).mapError .stage
  return args.serialize drawing

/-- What is told on the way, and whether the symbols are printed, is all that `prepare` adds. -/
theorem yields_prepare :
    Yields (prepare args detail fresh contents) (args.text fresh contents) := by
  unfold prepare Arguments.text
  cases contents >>= textOf with
  | error e => exact fun _ => rfl
  | ok source =>
    refine (yields_pure source).bind fun source => ?_
    refine (yields_inform _).next ?_
    refine (yields_stage _ _ _).bind fun program => ?_
    refine (yields_stage _ _ _).bind fun spec => ?_
    refine (yields_stage _ _ _).bind fun run => ?_
    refine (yields_inform _).next ?_
    have hdraw : Yields (do
        let drawing ← stage "rendering" (drawingEntries (run.draw .standard)) (run.draw .standard)
        inform ("Rendered " ++ toString drawing.segments.size ++
          " segment(s), complexity rating " ++ toString drawing.complexity)
        stage "serialization" [] (.ok (args.serialize drawing)))
        ((run.draw .standard).mapError .stage >>= fun drawing => .ok (args.serialize drawing)) :=
      (yields_stage _ _ _).bind fun drawing => (yields_inform _).next (yields_stage _ _ _)
    by_cases hprint : args.printSymbols = true
    · rw [if_pos hprint]
      exact (yields_tell _).next hdraw
    · rw [if_neg hprint]
      exact hdraw

/-! ### Stages that succeed -/

/-- What the contents of an input are drawn as: they are a text, the text is read as a program,
the program has a specification, the derivation ends without an error, and the turtle can follow
its symbols. -/
inductive Draws (maxSymbols : Nat) (seed : UInt64) (bytes : ByteArray) : Drawing Float → Prop
  | intro {source : String} {program : Program} {spec : Specification} {run : Run}
      {drawing : Drawing Float}
      (read : String.fromUTF8? bytes = some source)
      (parse : parseProgram source = .ok program)
      (build : Specification.ofProgram program = .ok spec)
      (iterate : (spec.begin maxSymbols seed).iterate = (.ok (), run))
      (render : render .standard spec run.context run.derivation.symbols = .ok drawing) :
      Draws maxSymbols seed bytes drawing

/-- The contents of a file are a text exactly when they are UTF-8, and then they are the text that
they encode. -/
theorem textOf_eq_ok_iff {bytes : ByteArray} {source : String} :
    textOf bytes = .ok source ↔ String.fromUTF8? bytes = some source := by
  unfold textOf
  cases String.fromUTF8? bytes <;> simp

/-- The limit and the seed of a run come from the arguments. With a seed given nothing else comes
from outside but the contents of the input. -/
theorem Arguments.text_eq_ok_iff {seed : Nat} (hseed : args.seed = some seed) {text : String} :
    args.text fresh contents = .ok text ↔
      ∃ bytes drawing, contents = .ok bytes ∧
        Draws (args.maxSymbols.getD defaultMaxSymbols) (.ofNat seed) bytes drawing ∧
        text = args.serialize drawing := by
  constructor
  · intro h
    obtain ⟨source, hsource, h⟩ := bind_eq_ok h
    obtain ⟨program, hprogram, h⟩ := bind_eq_ok h
    obtain ⟨spec, hspec, h⟩ := bind_eq_ok h
    obtain ⟨run, hrun, h⟩ := bind_eq_ok h
    obtain ⟨drawing, hdrawing, h⟩ := bind_eq_ok h
    obtain ⟨bytes, hbytes, hsource⟩ := bind_eq_ok (mapError_eq_ok_iff.1 hsource)
    rw [mapError_eq_ok_iff, mapError_eq_ok_iff] at hprogram hspec
    rw [mapError_eq_ok_iff, hseed, Run.develop_eq_ok_iff] at hrun
    rw [mapError_eq_ok_iff, Run.draw, mapError_eq_ok_iff,
      Specification.spec_of_iterate hspec hrun] at hdrawing
    exact ⟨bytes, drawing, hbytes,
      ⟨textOf_eq_ok_iff.1 hsource, hprogram, hspec, hrun, hdrawing⟩, (Except.ok.inj h).symm⟩
  · rintro ⟨bytes, drawing, rfl, ⟨hsource, hprogram, hspec, hrun, hdrawing⟩, rfl⟩
    have hdraw := Specification.spec_of_iterate hspec hrun ▸ hdrawing
    have hdevelop := Run.develop_eq_ok_iff.2 hrun
    simp [Arguments.text, textOf_eq_ok_iff.2 hsource, hprogram, hspec, hseed, hdevelop, Run.draw,
      hdraw, Except.mapError, bind, Except.bind, pure, Except.pure]

/-! ### With the files -/

/-- A command comes to a result and leaves a tree, whatever was shown before it. -/
def WorldM.Ends (m : WorldM α) (t : FileTree) (result : Except CommandError α) (t' : FileTree) :
    Prop :=
  ∀ before, (m.run.run ⟨t, before⟩).1 = result ∧ (m.run.run ⟨t, before⟩).2.tree = t'

namespace WorldM

theorem ends_pure (a : α) : Ends (pure a) t (.ok a) t := fun _ => ⟨rfl, rfl⟩

/-- A command without files leaves all files as they are, and comes to the result that it comes to
on its own. -/
theorem ends_aside {m : CommandM α} {result : Except CommandError α} (h : m.Yields result) :
    Ends (aside m) t result t := fun before => ⟨h before, rfl⟩

/-- A command ends in its tree, with something shown by then. What was shown before stays at the
front and has no part in how it ends. -/
theorem Ends.exists_run {m : WorldM α} {result : Except CommandError α} (h : Ends m t result t')
    (before : Array Shown) : ∃ shown, m.run.run ⟨t, before⟩ = (result, ⟨t', shown⟩) := by
  obtain ⟨hresult, htree⟩ := h before
  match hrun : m.run.run ⟨t, before⟩ with
  | (answer, ⟨tree, shown⟩) =>
    rw [hrun] at hresult htree
    subst hresult htree
    exact ⟨shown, rfl⟩

/-- When the first of two commands succeeds, the second starts from the tree that the first has
left, and its end is the end of both. -/
theorem Ends.bind {m : WorldM α} {f : α → WorldM β} {a : α} {result : Except CommandError β}
    (hm : Ends m t (.ok a) t') (hf : Ends (f a) t' result after) :
    Ends (m >>= f) t result after := by
  intro before
  obtain ⟨shown, hrun⟩ := hm.exists_run before
  rw [ExceptT.run_bind, StateT.run_bind, hrun]
  exact hf shown

/-- When the first of two commands fails, the second is not begun: the files stay as the first has
left them. -/
theorem Ends.bind_error {m : WorldM α} {f : α → WorldM β} {e : CommandError}
    (hm : Ends m t (.error e) t') : Ends (m >>= f) t (.error e) t' := by
  intro before
  obtain ⟨shown, hrun⟩ := hm.exists_run before
  rw [ExceptT.run_bind, StateT.run_bind, hrun]
  exact ⟨rfl, rfl⟩

/-- A command that looks at the files sees the tree before it.  What was shown so far it may see
as well, so its end has to be the same for all of that. -/
theorem ends_get_bind {f : World → WorldM α} {result : Except CommandError α}
    (h : ∀ shown, Ends (f ⟨t, shown⟩) t result t') : Ends (get >>= f) t result t' :=
  fun before => h before before

theorem ends_set (shown : Array Shown) : Ends (set (⟨t', shown⟩ : World)) t (.ok ()) t' :=
  fun _ => ⟨rfl, rfl⟩

end WorldM

open WorldM

/-- A text that cannot be written leaves the files alone. The error is handed on as an answer, so
that the command can report it with what it has shown. -/
theorem deliver_of_error {text : String} {e : FileError}
    (h : t.write path text.toUTF8 = .error e) : Ends (deliver path text) t (.ok (.error e)) t := by
  apply ends_get_bind
  intro shown
  simp only [h]
  exact ends_pure _

/-- A text that can be written is written.  If its path means the display, it is shown besides,
and this changes no file. -/
theorem deliver_of_ok {text : String} (h : t.write path text.toUTF8 = .ok after) :
    Ends (deliver path text) t (.ok (.ok ())) after := by
  apply ends_get_bind
  intro shown
  simp only [h]
  refine (ends_set shown).bind ?_
  by_cases hdisplays : t.displays path = true
  · rw [if_pos hdisplays]
    exact (ends_aside (yields_tell _)).bind (ends_pure _)
  · rw [if_neg hdisplays]
    exact ends_pure _

/-- A stage that fails ends the command before anything is written. All stages before the last one
only read the tree, whichever of them it is that fails. -/
theorem command_of_text_error {e : CommandError}
    (h : args.text fresh (t.read args.input) = .error e) :
    Ends (command args detail fresh) t (.error e) t := by
  apply ends_get_bind
  intro shown
  exact (ends_aside (h ▸ yields_prepare)).bind_error

/-- Where all stages succeed and the output cannot be written, the error names the path of the
output, and no file has changed. -/
theorem command_of_write_error {text : String} {e : FileError}
    (htext : args.text fresh (t.read args.input) = .ok text)
    (hwrite : t.write args.outputPath text.toUTF8 = .error e) :
    Ends (command args detail fresh) t (.error (.write args.outputPath e)) t := by
  apply ends_get_bind
  intro shown
  refine (ends_aside (htext ▸ yields_prepare)).bind ?_
  exact (deliver_of_error hwrite).bind (ends_aside (yields_throw _))

/-- Where all stages succeed and the output can be written, the command succeeds with the files as
they are after this one write. -/
theorem command_of_write {text : String}
    (htext : args.text fresh (t.read args.input) = .ok text)
    (hwrite : t.write args.outputPath text.toUTF8 = .ok after) :
    Ends (command args detail fresh) t (.ok ()) after := by
  apply ends_get_bind
  intro shown
  refine (ends_aside (htext ▸ yields_prepare)).bind ?_
  exact (deliver_of_ok hwrite).bind (ends_aside ((yields_inform _).next (yields_pure ())))

/-! ### From outside -/

/-- The status of a program tells whether its command succeeds, and its files are those that the
command leaves, for every filter on the log. -/
theorem execute_of_ends {filter : LogFilter} {result : Except CommandError Unit}
    (h : Ends (command args (filter.mayShow .debug) fresh) t result after) :
    (execute args filter fresh t).status = (if result.isOk then .success else .failure) ∧
      (execute args filter fresh t).tree = after := by
  obtain ⟨hresult, htree⟩ := h #[]
  have hstatus : (execute args filter fresh t).status =
      if ((command args (filter.mayShow .debug) fresh).run.run ⟨t, #[]⟩).1.isOk then .success
      else .failure := rfl
  exact ⟨by rw [hstatus, hresult], htree⟩

/-- The whole of a run that succeeds: the input can be read, all stages succeed, and the text of
the drawing can be written to the path that is given, or else to that of the input with the
extension of the format.  The canvas is the standard one but for its scale. -/
structure Arguments.Succeeds (args : Arguments) (seed : Nat) (t : FileTree) (text : String)
    (after : FileTree) : Prop where
  drawn : ∃ bytes drawing, t.read args.input = .ok bytes ∧
    Draws (args.maxSymbols.getD defaultMaxSymbols) (.ofNat seed) bytes drawing ∧
    text = match args.format with
      | .svg =>
        drawing.svg { SvgConfig.standard with scale := args.scale.getD SvgConfig.standard.scale }
      | .json => drawing.json
  written : t.write (args.output.getD (withExtension args.input args.format.extension))
    text.toUTF8 = .ok after

/-- A run with a seed of its own succeeds as a whole exactly when the stages come to its text and
this text can be written.  The fresh seed has no part in it. -/
theorem Arguments.succeeds_iff {seed : Nat} (hseed : args.seed = some seed) {text : String} :
    args.Succeeds seed t text after ↔
      args.text fresh (t.read args.input) = .ok text ∧
        t.write args.outputPath text.toUTF8 = .ok after := by
  rw [text_eq_ok_iff hseed]
  exact ⟨fun h => ⟨h.drawn, h.written⟩, fun h => ⟨h.1, h.2⟩⟩

/-- A run that succeeds as a whole ends with success and leaves the files of its one write, with
every filter and every fresh seed. -/
theorem execute_of_succeeds {seed : Nat} (hseed : args.seed = some seed) (filter : LogFilter)
    (fresh : UInt64) {text : String} (h : args.Succeeds seed t text after) :
    (execute args filter fresh t).status = .success ∧
      (execute args filter fresh t).tree = after := by
  obtain ⟨htext, hwrite⟩ := Arguments.succeeds_iff hseed |>.1 h
  exact execute_of_ends (command_of_write htext hwrite)

/-- What does not succeed fails and leaves the files alone. The status and the tree are those of a
failure under every log filter, since a filter decides only what is shown. -/
theorem execute_of_not_succeeds {seed : Nat} (hseed : args.seed = some seed) (filter : LogFilter)
    (fresh : UInt64) (h : ∀ text after, ¬ args.Succeeds seed t text after) :
    (execute args filter fresh t).status = .failure ∧ (execute args filter fresh t).tree = t := by
  cases htext : args.text fresh (t.read args.input) with
  | error e => exact execute_of_ends (command_of_text_error htext)
  | ok text =>
    cases hwrite : t.write args.outputPath text.toUTF8 with
    | error e => exact execute_of_ends (command_of_write_error htext hwrite)
    | ok after => exact absurd ((Arguments.succeeds_iff hseed).2 ⟨htext, hwrite⟩) (h text after)

/-- Arguments with which the same succeeds do the same, whatever the filters show. By it two runs
of a program are compared without going through its stages a second time. -/
theorem execute_congr (args args' : Arguments) {seed : Nat} (hseed : args.seed = some seed)
    (hseed' : args'.seed = some seed)
    (h : ∀ text after, args.Succeeds seed t text after ↔ args'.Succeeds seed t text after)
    (filter filter' : LogFilter) (fresh fresh' : UInt64) :
    (execute args' filter' fresh' t).status = (execute args filter fresh t).status ∧
      (execute args' filter' fresh' t).tree = (execute args filter fresh t).tree := by
  by_cases hsome : ∃ text after, args.Succeeds seed t text after
  · obtain ⟨text, after, hsucceeds⟩ := hsome
    obtain ⟨hstatus, htree⟩ := execute_of_succeeds hseed filter fresh hsucceeds
    obtain ⟨hstatus', htree'⟩ :=
      execute_of_succeeds hseed' filter' fresh' ((h text after).1 hsucceeds)
    exact ⟨hstatus'.trans hstatus.symm, htree'.trans htree.symm⟩
  · have hnone (text : String) (after : FileTree) : ¬ args.Succeeds seed t text after :=
      fun hsucceeds => hsome ⟨text, after, hsucceeds⟩
    obtain ⟨hstatus, htree⟩ := execute_of_not_succeeds hseed filter fresh hnone
    obtain ⟨hstatus', htree'⟩ := execute_of_not_succeeds hseed' filter' fresh'
      fun text after => mt (h text after).2 (hnone text after)
    exact ⟨hstatus'.trans hstatus.symm, htree'.trans htree.symm⟩

/-- Words that are understood as a request are carried out as that request. -/
theorem runProgram_eq_execute {words : List String} {filterText : Option String}
    {filter : LogFilter} (hrequest : readRequest words filterText = .ok (args, filter))
    (fresh : UInt64) (t : FileTree) :
    runProgram words filterText fresh t = execute args filter fresh t := by
  rw [runProgram, hrequest]

/-- **The program does all or nothing.**  With arguments that can be read and a seed among them,
it either takes all stages and writes the text of the drawing to one path, changing nothing else,
and ends with code 0; or some stage fails, and it changes no file and ends with code 1.  Neither
the filter of the log nor the flag that prints the symbols makes a difference to that. -/
theorem runProgram_all_or_nothing {words : List String} {filterText : Option String}
    {args : Arguments} {filter : LogFilter} {seed : Nat}
    (hrequest : readRequest words filterText = .ok (args, filter))
    (hseed : args.seed = some seed) (fresh : UInt64) (t : FileTree) :
    let report := runProgram words filterText fresh t
    (∀ text after, args.Succeeds seed t text after →
        report.status.code = 0 ∧ report.tree = after ∧
          t.Wrote (args.output.getD (withExtension args.input args.format.extension))
            text.toUTF8 after) ∧
      ((∀ text after, ¬ args.Succeeds seed t text after) →
        report.status.code = 1 ∧ report.tree = t) ∧
      ∀ words' filterText' printSymbols filter' fresh',
        readRequest words' filterText' = .ok ({ args with printSymbols }, filter') →
          (runProgram words' filterText' fresh' t).status = report.status ∧
            (runProgram words' filterText' fresh' t).tree = report.tree := by
  intro report
  have hreport : report = execute args filter fresh t := runProgram_eq_execute hrequest fresh t
  rw [hreport]
  refine ⟨fun text after h => ?_, fun h => ?_, ?_⟩
  · obtain ⟨hstatus, htree⟩ := execute_of_succeeds hseed filter fresh h
    exact ⟨by rw [hstatus, Status.code], htree, FileTree.wrote_of_write h.written⟩
  · obtain ⟨hstatus, htree⟩ := execute_of_not_succeeds hseed filter fresh h
    exact ⟨by rw [hstatus, Status.code], htree⟩
  · intro words' filterText' printSymbols filter' fresh' hrequest'
    rw [runProgram_eq_execute hrequest']
    refine execute_congr args { args with printSymbols } hseed hseed (fun text after => ?_)
      filter filter' fresh fresh'
    exact ⟨fun h => ⟨h.drawn, h.written⟩, fun h => ⟨h.drawn, h.written⟩⟩

/-- A directory with one source in it, whose drawing is a single line. -/
def sketch : FileTree := .ofFiles [("in.l", "axiom F; transform F translate 1, 2;".toUTF8)]

/-- With a seed of its own the sketch is drawn into a text beside it.  A run that prints the
symbols, shows no log and has another fresh seed leaves the same files. -/
theorem runProgram_sketch :
    let report := runProgram ["in.l", "--seed", "7"] none 0 sketch
    let quiet := runProgram ["in.l", "--seed=7", "--print-lstring"] (some "off") 1 sketch
    ∃ text : String, report.status.code = 0 ∧ report.tree.read "in.svg" = .ok text.toUTF8 ∧
      quiet.status = report.status ∧ quiet.tree = report.tree := by
  intro report quiet
  let args : Arguments := ⟨"in.l", none, .svg, some 7, none, none, false⟩
  have hrequest : readRequest ["in.l", "--seed", "7"] none = .ok (args, .standard) := rfl
  have hfilter : LogFilter.ofText? "off" = some [⟨none, none, none, 0⟩] := by decide +kernel
  have hquiet : readRequest ["in.l", "--seed=7", "--print-lstring"] (some "off") =
      .ok ({ args with printSymbols := true }, [⟨none, none, none, 0⟩]) := by
    rw [readRequest, hfilter]
    rfl
  obtain ⟨hsuccess, hfailure, hsame⟩ := runProgram_all_or_nothing hrequest rfl 0 sketch
  have hcode : report.status = .success := by decide +kernel
  by_cases hsome : ∃ text after, args.Succeeds 7 sketch text after
  · obtain ⟨text, after, hsucceeds⟩ := hsome
    obtain ⟨hzero, htree, hwrote⟩ := hsuccess text after hsucceeds
    have hpath : args.output.getD (withExtension args.input args.format.extension) = "in.svg" := by
      decide +kernel
    have htarget : sketch.target "in.svg" = .ok (.file ["in.svg", "", "tmp"]) := by decide +kernel
    rw [hpath, ← htree] at hwrote
    exact ⟨text, hzero, hwrote.read _ htarget, hsame _ _ true _ 1 hquiet⟩
  · have hone := (hfailure fun text after h => hsome ⟨text, after, h⟩).1
    rw [show (runProgram ["in.l", "--seed", "7"] none 0 sketch).status = .success from hcode]
      at hone
    cases hone

end Cli

end LSystem
