import SafeSubset.Calls.Graphviz
import SafeSubset.Calls.Listing
import SafeSubset.Calls.Recursion
import SafeSubset.Checked.Rewrite
import SafeSubset.CommandLine.Arguments
import SafeSubset.CommandLine.Files
import SafeSubset.Grammar.SourceUnit
import SafeSubset.Main
import SafeSubset.Review
import SafeSubset.Source.Position
import SafeSubset.Syntax.Subexpressions
import SafeSubset.Token.Scan
import SafeSubset.Typing.SourceUnit
import SafeSubset.Proofs.Calls.Search
import SafeSubset.Proofs.Calls.Verdict
import SafeSubset.Proofs.Syntax.Map
import SafeSubset.Proofs.Checked.Rule
import SafeSubset.Proofs.Checked.Tree
import SafeSubset.Proofs.Checked.Typing
import SafeSubset.Proofs.Grammar.Progress
import SafeSubset.Proofs.Source.Bytes
import SafeSubset.Proofs.Token.Spaced
import SafeSubset.Proofs.Grammar.Meaning
import SafeSubset.Proofs.Grammar.Language
import SafeSubset.Proofs.Grammar.Layout
import SafeSubset.Proofs.Grammar.Combinators
import SafeSubset.Proofs.Grammar.Soundness
import SafeSubset.Proofs.Grammar.Placement
import SafeSubset.Proofs.Typing.Forget
import SafeSubset.Proofs.Grammar.File
import SafeSubset.Proofs.Edits.Arranged
import SafeSubset.Proofs.Grammar.Nested
import SafeSubset.Proofs.Checked.Pending
import SafeSubset.Proofs.Checked.Text
import SafeSubset.Proofs.Token.Boundary
import SafeSubset.Proofs.Token.Lexes
import SafeSubset.Proofs.Edits.Fills
import SafeSubset.Proofs.Grammar.Spelled
import SafeSubset.Proofs.Grammar.Separating
import SafeSubset.Proofs.Checked.Rewoven
import SafeSubset.Proofs.Checked.Inserted
import SafeSubset.Proofs.Checked.Rewritten
import SafeSubset.Proofs.Checked.Reread
import SafeSubset.Proofs.Checked.Produced
import SafeSubset.Proofs.Grammar.NormalForm
import SafeSubset.Proofs.Grammar.Spans
import SafeSubset.Proofs.Source.Nest
import SafeSubset.Proofs.Token.Divides
import SafeSubset.Proofs.Edits.Seams
import SafeSubset.Proofs.Edits.Emission
import SafeSubset.Proofs.Checked.Tokens
import SafeSubset.Proofs.Checked.Emitted
import SafeSubset.Proofs.Checked.Copies
import SafeSubset.Proofs.Calls.Elementary
import SafeSubset.Proofs.Calls.Building
import SafeSubset.Proofs.Grammar.PostOrder
import SafeSubset.Proofs.Calls.States
import SafeSubset.Proofs.Calls.Direct
import SafeSubset.Proofs.Calls.Alike
import SafeSubset.Proofs.Checked.Calls
import SafeSubset.Proofs.CommandLine.Stages
import SafeSubset.Proofs.Token.Pattern
import SafeSubset.Proofs.Token.Faults
import SafeSubset.Proofs.Token.Tiling
import SafeSubset.Proofs.Grammar.Failures
import SafeSubset.Proofs.CommandLine.Rejected
import SafeSubset.Proofs.Grammar.Definitions
import SafeSubset.Proofs.Checked.Report
import SafeSubset.Proofs.Token.Twins
import SafeSubset.Proofs.Checked.Again
import SafeSubset.Proofs.Syntax.Stripped
import SafeSubset.Proofs.Grammar.Blind
import SafeSubset.Proofs.Grammar.Respaced
import SafeSubset.Proofs.Typing.Stripped
import SafeSubset.Proofs.Calls.Stripped
import SafeSubset.Proofs.Checked.Trivia
import SafeSubset.Proofs.Calls.Plain
import SafeSubset.Proofs.Edits.Histories
import SafeSubset.Proofs.Checked.Antichain
import SafeSubset.Proofs.Typing.Fields
import SafeSubset.Proofs.Typing.StateVariables
import SafeSubset.Proofs.Typing.Collecting
import SafeSubset.Proofs.Syntax.Places
import SafeSubset.Proofs.Typing.Afresh
import SafeSubset.Proofs.Typing.Scoping
import SafeSubset.Proofs.Checked.Expanded
import SafeSubset.Proofs.Types.Join
import SafeSubset.Proofs.Checked.Reported
import SafeSubset.Proofs.Syntax.Listing
import SafeSubset.Proofs.Token.Comments
import SafeSubset.Proofs.Token.Retained
import SafeSubset.Proofs.Edits.Comments
import SafeSubset.Proofs.Checked.Comments
import SafeSubset.Proofs.Source.Position
import SafeSubset.Proofs.Token.Joined
import SafeSubset.Proofs.Calls.Again
import SafeSubset.Proofs.Grammar.Names
import SafeSubset.Proofs.Json.Reading
import SafeSubset.Proofs.Calls.Drawing
import SafeSubset.Proofs.Calls.Outputs
import SafeSubset.Proofs.Grammar.ElementaryNames
import SafeSubset.Proofs.Calls.Stack
import SafeSubset.Proofs.Grammar.Unlimited
