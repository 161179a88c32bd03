import MatrixScript.Fraction
import MatrixScript.Grid
import MatrixScript.Elimination
import MatrixScript.RatMatrix
import MatrixScript.Reduction
import MatrixScript.Span
import MatrixScript.Token
import MatrixScript.Fault
import MatrixScript.Report
import MatrixScript.Infix
import MatrixScript.Postfix
import MatrixScript.Program
import MatrixScript.Program.Printer
import MatrixScript.Cursor
import MatrixScript.Program.Parser
import MatrixScript.Value
import MatrixScript.InvocationError
import MatrixScript.Builtin
import MatrixScript.Session
import MatrixScript.Evaluation
import MatrixScript.Location
import MatrixScript.WorkingDirectory
import MatrixScript.Console
import MatrixScript.Main
import MatrixScript.Proofs.GridValues
import MatrixScript.Proofs.PivotStep
import MatrixScript.Proofs.RowOperations
import MatrixScript.Proofs.EliminationSound
import MatrixScript.Proofs.FullRank
import MatrixScript.Proofs.DeterminantSound
import MatrixScript.Proofs.InverseSound
import MatrixScript.Proofs.ExpressionTrees
import MatrixScript.Proofs.TreePrograms
import MatrixScript.Proofs.EvaluationSound
import MatrixScript.Proofs.RrefSound
import MatrixScript.Proofs.RankSound
import MatrixScript.Proofs.Grammar
import MatrixScript.Proofs.Moves
import MatrixScript.Proofs.ParsedPrograms
import MatrixScript.Proofs.MalformedExpressions
import MatrixScript.Proofs.FaultSpans
import MatrixScript.Proofs.ExactArithmetic
import MatrixScript.Proofs.ReadExpressions
import MatrixScript.Proofs.Words
import MatrixScript.Proofs.LegiblePrograms
import MatrixScript.Proofs.MatrixShapes
import MatrixScript.Proofs.LawfulSessions
import MatrixScript.Proofs.PrintedWords
import MatrixScript.Proofs.ShownWords
import MatrixScript.Proofs.ReadingBack
import MatrixScript.Proofs.Instructions
import MatrixScript.Proofs.EmittedInstructions
import MatrixScript.Proofs.LimitedOutput
import MatrixScript.Proofs.StatementFrames
import MatrixScript.Proofs.LocalRuns
import MatrixScript.Proofs.Relocation
import MatrixScript.Proofs.ReorderedItems
import MatrixScript.Proofs.PlacedWords
import MatrixScript.Proofs.TokenYields
import MatrixScript.Proofs.TokensRead
import MatrixScript.Proofs.AbsorbedSigns
import MatrixScript.Proofs.Views
import MatrixScript.Proofs.RereadOperands
import MatrixScript.Proofs.RereadItems
import MatrixScript.Proofs.RereadTokens
import MatrixScript.Proofs.MovedEvaluation
import MatrixScript.Proofs.MovedTokens
import MatrixScript.Proofs.JoinedScripts
import MatrixScript.Proofs.SettledSigns
import MatrixScript.Proofs.Layout
import MatrixScript.Proofs.ProgramNodes
import MatrixScript.Proofs.Slices
import MatrixScript.Proofs.RereadNodes
import MatrixScript.Proofs.LongDeclarations
import MatrixScript.Proofs.GuardedElimination
import MatrixScript.Proofs.GuardedMatrices
import MatrixScript.Proofs.GuardedEvaluation
import MatrixScript.Proofs.Formulas
import MatrixScript.Proofs.PairedParentheses
import MatrixScript.Proofs.LabelledFaults
import MatrixScript.Proofs.LabelledRuns
import MatrixScript.Proofs.MirroredSteps
import MatrixScript.Proofs.MirroredParses
import MatrixScript.Proofs.SeamTokens
import MatrixScript.Proofs.ContinuedScripts
import MatrixScript.Proofs.FinishedColumns
import MatrixScript.Proofs.ReducedForms
import MatrixScript.Proofs.RepeatedReductions
import MatrixScript.Proofs.ComparedModes
import MatrixScript.Proofs.DiagonalForms
import MatrixScript.Proofs.LeadingColumns
import MatrixScript.Proofs.ConsistentReductions
import MatrixScript.Proofs.ReductionOutcomes
import MatrixScript.Proofs.TokenPatterns
import MatrixScript.Proofs.ExpressionEnds
import MatrixScript.Proofs.ProgramPieces
import MatrixScript.Proofs.RepresentableResults
import MatrixScript.Proofs.OperatorOutcomes
import MatrixScript.Proofs.WideArithmetic
import MatrixScript.Proofs.EqualValues
import MatrixScript.Proofs.PastedNumbers
import MatrixScript.Proofs.ParserProgress
import MatrixScript.Proofs.ParserRecursion
