import ArrayExpr.Scanner.Call
import ArrayExpr.Parser.Parse
import ArrayExpr.Parser.Term
import ArrayExpr.Parser.DepthSetting
import ArrayExpr.Expr.Walk
import ArrayExpr.Expr.Shape
import ArrayExpr.Expr.Graph
import ArrayExpr.Reference.Machine
import ArrayExpr.CommandLine
import ArrayExpr.Main
import ArrayExpr.Proofs.Grammar.Derivation
import ArrayExpr.Proofs.Rule.Stream
import ArrayExpr.Proofs.Grammar.Bracket
import ArrayExpr.Proofs.Grammar.Condition
import ArrayExpr.Proofs.Rule.Outcome
import ArrayExpr.Proofs.Grammar.Unrolled
import ArrayExpr.Proofs.Rule.Reads
import ArrayExpr.Proofs.Parser.Reading
import ArrayExpr.Proofs.Scanner.Round
import ArrayExpr.Proofs.Parser.Acceptance
import ArrayExpr.Proofs.Reference.Completeness
import ArrayExpr.Proofs.Reference.Means
import ArrayExpr.Proofs.Reference.Soundness
import ArrayExpr.Proofs.Reference.Production
import ArrayExpr.Proofs.Reference.Agreement
import ArrayExpr.Proofs.Grammar.LeftOperand
import ArrayExpr.Proofs.Reference.Viable
import ArrayExpr.Proofs.Parser.Overrun
import ArrayExpr.Proofs.Parser.Fault
import ArrayExpr.Proofs.Parser.Blame
import ArrayExpr.Proofs.Parser.Leftmost
import ArrayExpr.Proofs.Grammar.Ownership
import ArrayExpr.Proofs.Parser.Spans
import ArrayExpr.Proofs.Layout.Basic
import ArrayExpr.Proofs.Layout.Tree
import ArrayExpr.Proofs.Layout.Rule
import ArrayExpr.Proofs.Layout.Parser
import ArrayExpr.Proofs.Scanner.Tiling
import ArrayExpr.Proofs.Scanner.Excerpt
import ArrayExpr.Proofs.Parser.DepthLimit
import ArrayExpr.Proofs.Parser.Relayout
import ArrayExpr.Proofs.Rule.Visits
import ArrayExpr.Proofs.Parser.Linear
import ArrayExpr.Proofs.Grammar.Subtrees
import ArrayExpr.Proofs.Parser.Subtrees
import ArrayExpr.Proofs.Scanner.Gap
import ArrayExpr.Proofs.Scanner.Places
import ArrayExpr.Proofs.Scanner.Covering
import ArrayExpr.Proofs.Scanner.LexicalGrammar
import ArrayExpr.Proofs.Scanner.Munch
import ArrayExpr.Proofs.Reference.Tokens
import ArrayExpr.Proofs.Reference.Reading
import ArrayExpr.Proofs.Parser.Overlong
import ArrayExpr.Proofs.Grammar.Unclosed
import ArrayExpr.Proofs.Reference.Closers
import ArrayExpr.Proofs.Scanner.NextLine
import ArrayExpr.Proofs.Parser.Unterminated
import ArrayExpr.Proofs.Rule.Counting
import ArrayExpr.Proofs.Parser.Counting
import ArrayExpr.Proofs.Parser.Sessions
import ArrayExpr.Proofs.Rule.Activations
import ArrayExpr.Proofs.Parser.Activations
import ArrayExpr.Proofs.Parser.Termination
import ArrayExpr.Proofs.Rule.Progress
import ArrayExpr.Proofs.Parser.Progress
import ArrayExpr.Proofs.Parser.Discipline
import ArrayExpr.Proofs.Scanner.Calls
import ArrayExpr.Proofs.Rule.Loop
import ArrayExpr.Proofs.Rule.OnePass
import ArrayExpr.Proofs.Parser.TwoBranchList
import ArrayExpr.Proofs.Rule.Bill
import ArrayExpr.Proofs.Grammar.Pairs
import ArrayExpr.Proofs.Parser.Price
import ArrayExpr.Proofs.Parser.Bills
import ArrayExpr.Proofs.Parser.Cost
import ArrayExpr.Proofs.Grammar.Spread
import ArrayExpr.Proofs.Grammar.Lists
import ArrayExpr.Proofs.Reference.Separators
import ArrayExpr.Proofs.Reference.Shape
import ArrayExpr.Proofs.Scanner.Apart
import ArrayExpr.Proofs.Parser.Trailing
import ArrayExpr.Proofs.Scanner.Script
import ArrayExpr.Proofs.Scanner.Emitted
import ArrayExpr.Proofs.Scanner.Splitting
import ArrayExpr.Proofs.Scanner.CommentText
import ArrayExpr.Proofs.Parser.StringLiteral
import ArrayExpr.Proofs.Parser.Export
import ArrayExpr.Proofs.Parser.ErrorPlace
import ArrayExpr.Proofs.Expr.Unfolding
import ArrayExpr.Proofs.Expr.Sharing
import ArrayExpr.Proofs.Reference.Enclosure
import ArrayExpr.Proofs.Parser.Alternative
import ArrayExpr.Proofs.Rule.OrderedChoice
import ArrayExpr.Proofs.Parser.WalkOrder
import ArrayExpr.Proofs.Text.Lines
