import Abacus.Engine
import Abacus.Evaluator
import Abacus.Evaluator.Direct
import Abacus.Expr
import Abacus.Grammar
import Abacus.Lexeme
import Abacus.Operator
import Abacus.Parser
import Abacus.Proofs.AssignmentOrder
import Abacus.Proofs.CanonicalShape
import Abacus.Proofs.ComparisonChains
import Abacus.Proofs.Consultation
import Abacus.Proofs.ConsultationOrder
import Abacus.Proofs.DepthBound
import Abacus.Proofs.DepthLimit
import Abacus.Proofs.DepthTruncation
import Abacus.Proofs.DirectEvaluation
import Abacus.Proofs.ErrorPlace
import Abacus.Proofs.EvaluationDepth
import Abacus.Proofs.EvaluationRules
import Abacus.Proofs.EvaluatorReuse
import Abacus.Proofs.GroupingNeutrality
import Abacus.Proofs.LexemeCover
import Abacus.Proofs.LexemeText
import Abacus.Proofs.LiteralValue
import Abacus.Proofs.Memoization
import Abacus.Proofs.NestingLimit
import Abacus.Proofs.NumeralStatement
import Abacus.Proofs.NumeralValue
import Abacus.Proofs.ParserMirror
import Abacus.Proofs.ParserProgress
import Abacus.Proofs.ParserRoutines
import Abacus.Proofs.ProgramGrammar
import Abacus.Proofs.ReadingCompleteness
import Abacus.Proofs.ReadingCompletion
import Abacus.Proofs.ReadingInduction
import Abacus.Proofs.ReadingLocality
import Abacus.Proofs.ReadingOutcome
import Abacus.Proofs.ReadingRefusal
import Abacus.Proofs.ReadingSoundness
import Abacus.Proofs.RelatedRuns
import Abacus.Proofs.Relayout
import Abacus.Proofs.RenderedLocation
import Abacus.Proofs.ResolverFaults
import Abacus.Proofs.ResolverValues
import Abacus.Proofs.RoundTrip
import Abacus.Proofs.RunFrame
import Abacus.Proofs.RunHistory
import Abacus.Proofs.ScanConcat
import Abacus.Proofs.ScanLexemes
import Abacus.Proofs.ScanTiling
import Abacus.Proofs.Sequencing
import Abacus.Proofs.Surroundings
import Abacus.Proofs.TextLines
import Abacus.Proofs.TextScan
import Abacus.Proofs.ValidPrefix
import Abacus.Proofs.WellBound
import Abacus.Proofs.WrappingArithmetic
import Abacus.Reading
import Abacus.Report
import Abacus.Resolver
import Abacus.Resolver.Script
import Abacus.Text
import Abacus.Text.Width
import Abacus.Token
import Abacus.World
