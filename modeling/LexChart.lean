import LexChart.Automaton.Path
import LexChart.Automaton.Print
import LexChart.Charset.Print
import LexChart.Expr.Language
import LexChart.Expr.Normal
import LexChart.Expr.Print
import LexChart.Grammar.Denotation
import LexChart.Grammar.Derivation
import LexChart.Lexer.Munch
import LexChart.Parser
import LexChart.Pattern.Notation
import LexChart.Proofs.Automaton.Exploration
import LexChart.Proofs.Automaton.Region
import LexChart.Recognizer.Print
import LexChart.Recognizer.Run
import LexChart.Proofs.Automaton.Fragment
import LexChart.Proofs.Charset.Cover
import LexChart.Proofs.Charset.Partition
import LexChart.Proofs.Answers
import LexChart.Proofs.Automaton.Subset
import LexChart.Proofs.Automaton.Building
import LexChart.Proofs.Automaton.Determinism
import LexChart.Proofs.Automaton.Dispatch
import LexChart.Proofs.Lexer.Rules
import LexChart.Proofs.Lexer.Captures
import LexChart.Proofs.Lexer.Tokens
import LexChart.Proofs.Grammar.Interpretation
import LexChart.Proofs.Expr.Language
import LexChart.Proofs.Grammar.Flatten
import LexChart.Proofs.Grammar.Resolve
import LexChart.Proofs.Grammar.Build
import LexChart.Proofs.Grammar.Exposed
import LexChart.Proofs.Recognizer.Walks
import LexChart.Proofs.Automaton.Exits
import LexChart.Proofs.Recognizer.Items
import LexChart.Proofs.Recognizer.RuleFragment
import LexChart.Proofs.Recognizer.Draft
import LexChart.Proofs.Recognizer.Network
import LexChart.Proofs.Recognizer.Silent
import LexChart.Proofs.Recognizer.Edges
import LexChart.Proofs.Recognizer.Machine
import LexChart.Proofs.Recognizer.Sets
import LexChart.Proofs.Recognizer.Advance
import LexChart.Proofs.Recognizer.Correctness
import LexChart.Proofs.Recognizer.Exactness
import LexChart.Proofs.Recognizer.Prediction
import LexChart.Proofs.Recognizer.Layout
import LexChart.Proofs.Recognizer.Steps
import LexChart.Proofs.Recognizer.Resolution
import LexChart.Proofs.Recognizer.Resolved
import LexChart.Proofs.Parsing
import LexChart.Proofs.Pattern.Quantifier
import LexChart.Proofs.Pattern.CharSet
import LexChart.Proofs.Pattern.Readers
import LexChart.Proofs.Pattern.Reading
import LexChart.Proofs.Pattern.Leftover
import LexChart.Proofs.Pattern.Counts
import LexChart.Proofs.Pattern.Lookahead
import LexChart.Proofs.Pattern.SetReading
import LexChart.Proofs.Checked.Steps
import LexChart.Proofs.Checked.CodePoints
import LexChart.Proofs.Checked.Patterns
import LexChart.Proofs.Checked.Fragments
import LexChart.Proofs.Checked.Graphs
import LexChart.Proofs.Checked.Lexer
import LexChart.Proofs.Automaton.Words
import LexChart.Proofs.Checked.Network
import LexChart.Proofs.Checked.Machine
import LexChart.Proofs.Checked.Recognizer
import LexChart.Proofs.Checked.Tokens
import LexChart.Proofs.Checked.Parser
import LexChart.Proofs.Lexer.Pieces
import LexChart.Proofs.Checked.Calls
import LexChart.Proofs.Checked.Nullable
import LexChart.Proofs.Recognizer.Structure
import LexChart.Proofs.Recognizer.LeastSet
import LexChart.Proofs.Charset.Invariance
import LexChart.Proofs.Charset.NormalForm
import LexChart.Proofs.Charset.Refinement
import LexChart.Proofs.Automaton.Relabelling
import LexChart.Proofs.Automaton.Transport
import LexChart.Proofs.Automaton.Renumbering
import LexChart.Proofs.Options
import LexChart.Proofs.Expr.Terminals
import LexChart.Proofs.Expr.Simplified
import LexChart.Proofs.Expr.Operators
import LexChart.Proofs.Expr.Conversion
import LexChart.Proofs.Grammar.Calls
import LexChart.Proofs.Grammar.Literals
import LexChart.Proofs.Grammar.Declared
import LexChart.Proofs.Grammar.Closed
import LexChart.Proofs.Grammar.Generated
import LexChart.Proofs.Grammar.Built
import LexChart.Proofs.Text.Escape
import LexChart.Proofs.Grammar.Names
import LexChart.Proofs.Grammar.LiteralTokens
import LexChart.Proofs.Pattern.RepetitionText
import LexChart.Proofs.Charset.Operations
import LexChart.Proofs.Automaton.BreadthFirst
import LexChart.Proofs.Automaton.Sweeps
import LexChart.Proofs.Checked.Sweeps
