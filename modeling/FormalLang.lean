import FormalLang.Ordered
import FormalLang.Ordered.Set
import FormalLang.Ordered.Map
import FormalLang.Text.Blank
import FormalLang.Text.Layout
import FormalLang.Text.Alphanumeric
import FormalLang.Json
import FormalLang.Regex.Basic
import FormalLang.Regex.Language
import FormalLang.Regex.Error
import FormalLang.Regex.Token
import FormalLang.Regex.Postfix
import FormalLang.Rounds
import FormalLang.Fault
import FormalLang.Automaton.Nfa
import FormalLang.Automaton.Builder
import FormalLang.Automaton.Step
import FormalLang.Automaton.Thompson
import FormalLang.Automaton.Dfa
import FormalLang.Automaton.Exploration
import FormalLang.Automaton.Subset
import FormalLang.Position.Tree
import FormalLang.Position.SyntaxTree
import FormalLang.Position.Followpos
import FormalLang.Conversion
import FormalLang.Report.Dot
import FormalLang.Report.Automaton
import FormalLang.Report.Regex
import FormalLang.Journal.Record
import FormalLang.Journal.Regex
import FormalLang.Grammar.Symbol
import FormalLang.Grammar.Error
import FormalLang.Grammar.Basic
import FormalLang.Grammar.Derivation
import FormalLang.Grammar.Builder
import FormalLang.Grammar.Options
import FormalLang.Grammar.Reader
import FormalLang.Grammar.LeftRecursion
import FormalLang.Grammar.First
import FormalLang.Grammar.Follow
import FormalLang.Grammar.Leading
import FormalLang.Predictive.Table
import FormalLang.Predictive.Parser
import FormalLang.Predictive.Trace
import FormalLang.Predictive.Analysis
import FormalLang.Report.Grammar
import FormalLang.Journal.Grammar
import FormalLang.Diagnostic
import FormalLang.CommandLine.Arguments
import FormalLang.CommandLine.Invocation
import FormalLang.CommandLine.Outcome
import FormalLang.Main
import FormalLang.Proofs.Grammar.Removal
import FormalLang.Proofs.Grammar.Obtained
import FormalLang.Proofs.Grammar.Yield
import FormalLang.Proofs.Repetition
import FormalLang.Proofs.Grammar.LeftRecursion
import FormalLang.Proofs.Grammar.Introduced
import FormalLang.Proofs.Ordered.Growth
import FormalLang.Proofs.Grammar.First
import FormalLang.Proofs.Grammar.Beginning
import FormalLang.Proofs.Grammar.Forms
import FormalLang.Proofs.Grammar.FirstMeaning
import FormalLang.Proofs.Grammar.Follow
import FormalLang.Proofs.Grammar.FollowMeaning
import FormalLang.Proofs.Grammar.Leads
import FormalLang.Proofs.Grammar.NoLeftRecursion
import FormalLang.Proofs.Predictive.Table
import FormalLang.Proofs.Predictive.Conflict
import FormalLang.Proofs.Predictive.Exactness
import FormalLang.Proofs.Predictive.Termination
import FormalLang.Proofs.Predictive.Analysis
import FormalLang.Proofs.Regex.Listing
import FormalLang.Proofs.Regex.Reading
import FormalLang.Proofs.Regex.Acceptance
import FormalLang.Proofs.Automaton.Thompson
import FormalLang.Proofs.Automaton.Building
import FormalLang.Proofs.Automaton.Closure
import FormalLang.Proofs.Automaton.Exploration
import FormalLang.Proofs.Automaton.Subset
import FormalLang.Proofs.Position.Words
import FormalLang.Proofs.Position.Tables
import FormalLang.Proofs.Position.Followpos
import FormalLang.Proofs.Automaton.Silent
import FormalLang.Proofs.Automaton.Quotient
import FormalLang.Proofs.Conversion.Leaves
import FormalLang.Proofs.Conversion.Quotient
import FormalLang.Proofs.Text.Pieces
import FormalLang.Proofs.Grammar.Legible
import FormalLang.Proofs.Grammar.Printing
import FormalLang.Proofs.Lapse
import FormalLang.Proofs.Grammar.Store
import FormalLang.Proofs.Grammar.Leading
import FormalLang.Proofs.Predictive.Lookups
import FormalLang.Proofs.Regex.Operands
import FormalLang.Proofs.Regex.Machine
import FormalLang.Proofs.Automaton.Compiling
import FormalLang.Proofs.Automaton.Interning
import FormalLang.Proofs.Automaton.Determinizing
import FormalLang.Proofs.Rounds
import FormalLang.Proofs.Automaton.ClosureOperator
import FormalLang.Proofs.Position.Growing
import FormalLang.Proofs.Conversion.Safety
import FormalLang.Proofs.Grammar.Detection
import FormalLang.Proofs.Grammar.Productive
import FormalLang.Proofs.Grammar.Leftmost
import FormalLang.Proofs.Predictive.Runs
import FormalLang.Proofs.Predictive.Recursion
import FormalLang.Proofs.Predictive.Trace
import FormalLang.Proofs.Predictive.Earliest
import FormalLang.Proofs.Regex.Augmentation
import FormalLang.Proofs.Position.Meaning
import FormalLang.Proofs.Automaton.Trim
import FormalLang.Proofs.Conversion.Trim
import FormalLang.Proofs.Automaton.Discovery
import FormalLang.Proofs.Automaton.Replay
import FormalLang.Proofs.Conversion.Steps
import FormalLang.Proofs.Grammar.Substitution
import FormalLang.Proofs.Predictive.Endings
import FormalLang.Proofs.Text.Lines
import FormalLang.Proofs.Grammar.Malformed
import FormalLang.Proofs.Regex.Partners
import FormalLang.Proofs.Regex.Blame
import FormalLang.Proofs.Regex.Nested
import FormalLang.Proofs.Report.Cells
import FormalLang.Proofs.Automaton.Shape
import FormalLang.Proofs.Position.PostOrder
import FormalLang.Proofs.Diagnostic
import FormalLang.Proofs.Predictive.FreshNames
