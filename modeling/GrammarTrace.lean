import GrammarTrace.Main
import GrammarTrace.Proofs.Search.Moves
import GrammarTrace.Proofs.Search.Soundness
import GrammarTrace.Proofs.Derivability
import GrammarTrace.Proofs.Scanning
import GrammarTrace.Proofs.Search.Exhaustion
import GrammarTrace.Proofs.DerivationSearch
import GrammarTrace.Proofs.Reduction
import GrammarTrace.Proofs.Normalization
import GrammarTrace.Proofs.ReductionSearch
import GrammarTrace.Proofs.Classification
import GrammarTrace.Proofs.Search.Verdicts
import GrammarTrace.Proofs.Agreement
import GrammarTrace.Proofs.History
import GrammarTrace.Proofs.Views
import GrammarTrace.Proofs.Search.Links
import GrammarTrace.Proofs.Search.Replay
import GrammarTrace.Proofs.Backtracking
import GrammarTrace.Proofs.Search.Priority
import GrammarTrace.Proofs.FirstMatch
import GrammarTrace.Proofs.Replay
import GrammarTrace.Proofs.Decision
import GrammarTrace.Proofs.Limit
import GrammarTrace.Proofs.Overrun
import GrammarTrace.Proofs.Search.Termination
import GrammarTrace.Proofs.LeftRecursion
import GrammarTrace.Proofs.UnitCycles
import GrammarTrace.Proofs.Lines
import GrammarTrace.Proofs.RuleLines
import GrammarTrace.Proofs.RuleTexts
import GrammarTrace.RuleText.Token
import GrammarTrace.Proofs.RuleOutcomes
import GrammarTrace.Proofs.LineReports
import GrammarTrace.Proofs.Redefinitions
import GrammarTrace.Proofs.CanonicalForms
import GrammarTrace.Proofs.Trees
import GrammarTrace.Proofs.Sentences
import GrammarTrace.Proofs.StrictReading
import GrammarTrace.Proofs.Reports
import GrammarTrace.Proofs.Lists
import GrammarTrace.Proofs.UnclosedBrackets
import GrammarTrace.Proofs.Granularities
import GrammarTrace.Proofs.Search.Alternatives
import GrammarTrace.Proofs.Candidates
import GrammarTrace.Proofs.Repetitions
import GrammarTrace.Proofs.Marks
import GrammarTrace.Proofs.Encoding
import GrammarTrace.Proofs.FileReading
import GrammarTrace.Proofs.Search.Ledger
import GrammarTrace.Proofs.Displays
import GrammarTrace.Proofs.Draws
import GrammarTrace.Proofs.RecursionLimit
import GrammarTrace.Proofs.ClassPass
import GrammarTrace.Proofs.CommandLines
import GrammarTrace.Proofs.Responses
import GrammarTrace.Proofs.Search.Lookups
import GrammarTrace.Proofs.Lookups
