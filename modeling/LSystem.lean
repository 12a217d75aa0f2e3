import LSystem.Number.Format
import LSystem.Number.Reading
import LSystem.Syntax.Fault
import LSystem.Syntax.Lexer
import LSystem.Syntax.Printer
import LSystem.Syntax.Parser.Basic
import LSystem.Syntax.Parser.Expression
import LSystem.Syntax.Parser.Program
import LSystem.Randomness.ChaCha
import LSystem.Randomness.Generator
import LSystem.Eval.Basic
import LSystem.Eval.Builtin
import LSystem.Specification.Basic
import LSystem.Specification.Build
import LSystem.Specification.Choice
import LSystem.Geometry.Basic
import LSystem.Geometry.Pose
import LSystem.Derivation.Basic
import LSystem.Output.Json
import LSystem.Output.Svg
import LSystem.Rendering
import LSystem.Development
import LSystem.Cli.Arguments
import LSystem.Cli.FileTree
import LSystem.Derivation.History
import LSystem.Cli.Command
import LSystem.Except
import LSystem.Proofs.Cli.FileTree
import LSystem.Main
import LSystem.Text.Alphanumeric
import LSystem.Text.Blank
import LSystem.Text.Split
import LSystem.Pattern.Reading
import LSystem.Proofs.Syntax.Grammar
import LSystem.Proofs.Syntax.Reading
import LSystem.Proofs.Syntax.Chain
import LSystem.Proofs.Syntax.Expression
import LSystem.Proofs.Syntax.Plain.Reader
import LSystem.Proofs.Syntax.Plain.Chain
import LSystem.Proofs.Syntax.Plain.Expression
import LSystem.Proofs.Syntax.Program
import LSystem.Proofs.Syntax.Acceptance
import LSystem.Proofs.Number.Numeral
import LSystem.Proofs.Syntax.WellFormed
import LSystem.Proofs.Syntax.RoundTrip
import LSystem.Proofs.Eval.Answer
import LSystem.Proofs.Number.Order
import LSystem.Proofs.Specification.Rules
import LSystem.Proofs.Specification.Weights
import LSystem.Proofs.Derivation.Calls
import LSystem.Proofs.Cli.Command
import LSystem.Proofs.Cli.DefaultOutput
import LSystem.Proofs.Derivation.Balance
import LSystem.Proofs.Rendering.Stack
import LSystem.Proofs.Rendering.Walk
import LSystem.Proofs.Eval.Drawless
import LSystem.Proofs.Rendering.Finite
import LSystem.Proofs.Rendering.Branch
import LSystem.Proofs.Rendering.Trail
import LSystem.Proofs.Derivation.Unmatched
import LSystem.Proofs.Development.Alike
import LSystem.Proofs.Specification.Inventory
import LSystem.Proofs.Specification.Selection
import LSystem.Proofs.Development.Reordering
import LSystem.Proofs.Derivation.Morphism
import LSystem.Proofs.Eval.Composition
import LSystem.Proofs.Eval.Steady
import LSystem.Proofs.Rendering.Composition
import LSystem.Proofs.Development.Seeds
import LSystem.Proofs.Derivation.Alphabet
import LSystem.Proofs.Syntax.Source
import LSystem.Proofs.Syntax.Descent
import LSystem.Proofs.Syntax.Places
import LSystem.Proofs.Syntax.Streaming
import LSystem.Proofs.Syntax.Viable.Words
import LSystem.Proofs.Syntax.Viable.Prediction
import LSystem.Proofs.Syntax.Viable.Expression
import LSystem.Proofs.Syntax.Viable.Program
import LSystem.Proofs.Syntax.Viable.Refusal
import LSystem.Proofs.Syntax.Lexical.Partition
import LSystem.Proofs.Syntax.Layout
import LSystem.Proofs.Syntax.Blame
import LSystem.Proofs.Syntax.Lexical.Progress
import LSystem.Proofs.Eval.References
import LSystem.Proofs.Eval.Inlining
import LSystem.Proofs.Eval.Recursion
import LSystem.Proofs.Specification.Intervals
import LSystem.Proofs.Syntax.Reuse.Counting
import LSystem.Proofs.Syntax.Reuse.Agreement
import LSystem.Proofs.Syntax.Reuse.Session
import LSystem.Proofs.Specification.Rounding
import LSystem.Proofs.Specification.Validation
import LSystem.Proofs.Derivation.Limit
import LSystem.Proofs.Number.Comparison
import LSystem.Proofs.Number.Nearest
import LSystem.Proofs.Number.Value
import LSystem.Proofs.Number.Mantissa
import LSystem.Proofs.Number.Arithmetic
import LSystem.Proofs.Eval.Range
import LSystem.Proofs.Rendering.Hull
import LSystem.Proofs.Output.Canvas
import LSystem.Proofs.Rendering.Variables
import LSystem.Proofs.Rendering.Size
import LSystem.Proofs.Rendering.Residue
import LSystem.Proofs.Number.Infinity
import LSystem.Proofs.Output.Reach
import LSystem.Proofs.Output.Document
import LSystem.Proofs.Eval.Machine
import LSystem.Proofs.Syntax.Climbing
import LSystem.Proofs.Specification.Index
