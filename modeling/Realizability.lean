import Realizability.Main
import Realizability.Proofs.Meaning.Formula
import Realizability.Proofs.Meaning.Symbol
import Realizability.Proofs.Meaning.Applied
import Realizability.Proofs.Meaning.Relation
import Realizability.Proofs.Encoding.Constant
import Realizability.Proofs.Encoding.Evaluation
import Realizability.Proofs.Encoding.Premise
import Realizability.Proofs.Encoding.Clause
import Realizability.Proofs.Encoding.Table
import Realizability.Proofs.Encoding.Formulas
import Realizability.Proofs.Encoding.Correctness
import Realizability.Proofs.Encoding.Query
import Realizability.Proofs.Examples.Transposition
import Realizability.Proofs.Examples.Sorts
import Realizability.Proofs.Theory.Lacking
import Realizability.Proofs.Resolution.Place
import Realizability.Proofs.Resolution.Resolved
import Realizability.Proofs.Resolution.Sorting
import Realizability.Proofs.Resolution.Reported
import Realizability.Proofs.Encoding.Formation
import Realizability.Proofs.Reindexing.Table
import Realizability.Proofs.Reindexing.Success
import Realizability.Proofs.Reindexing.Verdict
import Realizability.Proofs.Grammar.Tree
import Realizability.Proofs.Grammar.Coverage
import Realizability.Proofs.Problem.Acceptance
import Realizability.Proofs.Problem.Content
import Realizability.Proofs.Problem.Interleaving
import Realizability.Proofs.Format.Field
import Realizability.Proofs.Format.Term
import Realizability.Proofs.Format.Printer
import Realizability.Proofs.Format.TermRoundTrip
import Realizability.Proofs.Format.GrammarRoundTrip
import Realizability.Proofs.Format.RoundTrip
import Realizability.Proofs.Format.Location
import Realizability.Proofs.Format.TermLocation
import Realizability.Proofs.Format.EventLocation
import Realizability.Proofs.Format.Message
import Realizability.Proofs.Shape.Expression
import Realizability.Proofs.Shape.Premise
import Realizability.Proofs.Shape.Clause
import Realizability.Proofs.Shape.Encoding
import Realizability.Proofs.Renaming.Expression
import Realizability.Proofs.Relevance.Called
import Realizability.Proofs.Relevance.Meaning
import Realizability.Proofs.Relevance.Restriction
import Realizability.Proofs.Horn.Position
import Realizability.Proofs.Horn.Polarity
import Realizability.Proofs.Horn.Premise
import Realizability.Proofs.Horn.Clause
import Realizability.Proofs.Format.FirstFault
import Realizability.Proofs.Problem.Integrity
import Realizability.Proofs.Run.Course
import Realizability.Proofs.Timing.Block
import Realizability.Proofs.Run.History
import Realizability.Proofs.Reindexing.Sorts
import Realizability.Proofs.Encoding.Pointwise
import Realizability.Proofs.Theory.Application
import Realizability.Proofs.Renaming.Encoding
import Realizability.Proofs.Grammar.Graph
import Realizability.Proofs.Grammar.Closure
import Realizability.Proofs.Grammar.Reachability
import Realizability.Proofs.Grammar.Productivity
import Realizability.Proofs.Format.Bits
import Realizability.Proofs.Format.TermLanguage
import Realizability.Proofs.Format.GrammarReferences
import Realizability.Proofs.Format.ClauseVariables
import Realizability.Proofs.Format.EventAgreement
import Realizability.Proofs.Script.Encoding
import Realizability.Proofs.Format.BitsNotation
import Realizability.Proofs.Timing.Iteration
import Realizability.Proofs.Problem.ParsedStream
import Realizability.Proofs.Resolution.Visit
import Realizability.Proofs.Resolution.Reached
