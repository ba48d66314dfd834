import LineScript.Decimal.Basic
import LineScript.Decimal.Text
import LineScript.Text.Span
import LineScript.Text.Split
import LineScript.Text.Utf8
import LineScript.Text.Lines
import LineScript.Json
import LineScript.Value.Kind
import LineScript.Value.Entries
import LineScript.Value.Basic
import LineScript.Token.Basic
import LineScript.Token.Pattern
import LineScript.Token.Scan
import LineScript.Expr.Operator
import LineScript.Expr.Basic
import LineScript.Expr.Chain
import LineScript.Expr.Dump
import LineScript.Grammar.Literal
import LineScript.Grammar.Stream
import LineScript.Grammar.Expression
import LineScript.Grammar.Program
import LineScript.Code.Instruction
import LineScript.Code.Emit
import LineScript.Code.Lowering
import LineScript.Machine.Fault
import LineScript.Machine.Registers
import LineScript.Machine.Effect
import LineScript.Machine.Run
import LineScript.Session
import LineScript.Report.Diagnostic
import LineScript.Report.Render
import LineScript.Report.Record
import LineScript.Report.Codes
import LineScript.Command.Arguments
import LineScript.Command.Files
import LineScript.Command.Execute
import LineScript.Main
import LineScript.Proofs.Machine.Instruction
import LineScript.Proofs.Code.Logic
import LineScript.Proofs.Code.Growth
import LineScript.Proofs.Value.Bare
import LineScript.Proofs.Evaluator
import LineScript.Proofs.Refinement
import LineScript.Proofs.Value.Conforms
import LineScript.Proofs.Code.Sites
import LineScript.Proofs.Code.Hints
import LineScript.Proofs.HintSoundness
import LineScript.Proofs.ElementKinds
import LineScript.Proofs.DefiniteAssignment
import LineScript.Proofs.Halting
import LineScript.Proofs.VariableSeparation
import LineScript.Proofs.RegisterDiscipline
import LineScript.Proofs.Spelling
import LineScript.Proofs.PrefixStability
import LineScript.Proofs.Decimal.Canonical
import LineScript.Proofs.Decimal.Digits
import LineScript.Proofs.DecimalText
import LineScript.Proofs.Text.Utf8
import LineScript.Proofs.Grammar.Literal
import LineScript.Proofs.Expr.WellFormed
import LineScript.Proofs.Grammar.Shapes
import LineScript.Proofs.Grammar.Completeness
import LineScript.Proofs.Printing
import LineScript.Proofs.Grammar.Statements
import LineScript.Proofs.Token.Newline
import LineScript.Proofs.Token.Lines
import LineScript.Proofs.Grammar.Places
import LineScript.Proofs.LineComposition
import LineScript.Proofs.Token.Language
import LineScript.Proofs.Token.Choice
import LineScript.Proofs.LongestMatch
import LineScript.Proofs.Text.Slice
import LineScript.Proofs.LosslessScan
import LineScript.Proofs.LayoutInvariance
import LineScript.Proofs.Text.Position
import LineScript.Proofs.SourcePlaces
import LineScript.Proofs.Machine.Steps
import LineScript.Proofs.StepLimit
import LineScript.Proofs.LimitedOutput
import LineScript.Proofs.Json.Lexemes
import LineScript.Proofs.Json.Reader
import LineScript.Proofs.ReportRecords
import LineScript.Proofs.ProgramDump
import LineScript.Proofs.OperatorChains
import LineScript.Proofs.Decimal.Truncation
import LineScript.Proofs.DivisionPrecision
import LineScript.Proofs.Decimal.Range
import LineScript.Proofs.ProductPrecision
import LineScript.Proofs.NumberOrder
import LineScript.Proofs.ExactArithmetic
import LineScript.Proofs.QuotientBounds
import LineScript.Proofs.Code.Passage
import LineScript.Proofs.Code.Operation
import LineScript.Proofs.OperandValues
import LineScript.Proofs.Value.Place
import LineScript.Proofs.Code.Reading
import LineScript.Proofs.Code.ElementStores
import LineScript.Proofs.KeyedAssignment
import LineScript.Proofs.LiteralFaults
import LineScript.Proofs.UnguardedReading
import LineScript.Proofs.Machine.InPlace
import LineScript.Proofs.InstructionFrame
import LineScript.Proofs.Normalization
import LineScript.Proofs.NumberGrammar
import LineScript.Proofs.QuotedLiterals
import LineScript.Proofs.Text.ByteOrder
import LineScript.Proofs.Value.Entries
import LineScript.Proofs.Value.InOrder
import LineScript.Proofs.ContainerLaws
import LineScript.Proofs.Value.Equality
import LineScript.Proofs.EqualValues
import LineScript.Proofs.TextualData
import LineScript.Proofs.LinePositions
import LineScript.Proofs.LineTable
import LineScript.Proofs.ReportColours
import LineScript.Proofs.CaretRows
