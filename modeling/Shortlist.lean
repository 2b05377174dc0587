import Shortlist.Catalog.Answer
import Shortlist.Catalog.Basic
import Shortlist.Catalog.Bundle
import Shortlist.Catalog.Document
import Shortlist.Catalog.Legacy
import Shortlist.Catalog.Loading
import Shortlist.Catalog.Problem
import Shortlist.Catalog.Stored
import Shortlist.Catalog.Variable
import Shortlist.Command.Argument
import Shortlist.Command.Invocation
import Shortlist.Command.Pair
import Shortlist.Command.Report
import Shortlist.Command.Run
import Shortlist.Command.Sample
import Shortlist.Decision.Evaluation
import Shortlist.Decision.Feasibility
import Shortlist.Decision.Ranking
import Shortlist.Decision.Relevance
import Shortlist.Decision.Softmax
import Shortlist.Entries
import Shortlist.Fault
import Shortlist.Files.Folder
import Shortlist.Files.Path
import Shortlist.Json.Error
import Shortlist.Json.Reader
import Shortlist.Main
import Shortlist.Number.Basic
import Shortlist.Number.Binary64
import Shortlist.Number.Decimal
import Shortlist.Number.Exponential
import Shortlist.Number.Nearest
import Shortlist.Number.Numeral
import Shortlist.Number.Written
import Shortlist.Proofs.Fallible
import Shortlist.Proofs.Rule.Dependence
import Shortlist.Proofs.Rule.Evaluation
import Shortlist.Proofs.Rule.Grammar
import Shortlist.Proofs.Rule.Judgement
import Shortlist.Proofs.Rule.Numeral
import Shortlist.Proofs.Rule.Parsing
import Shortlist.Proofs.Rule.Tokens
import Shortlist.Proofs.Rule.Yield
import Shortlist.Rule.Basic
import Shortlist.Rule.Evaluation
import Shortlist.Rule.Expr
import Shortlist.Rule.Lexer
import Shortlist.Rule.Parser
import Shortlist.Rule.Reading
import Shortlist.Rule.Token
import Shortlist.Rule.Truth
import Shortlist.Session
import Shortlist.Text.Blank
import Shortlist.Text.Digit
import Shortlist.Text.Identifier
import Shortlist.Text.Letter
import Shortlist.Text.Order
import Shortlist.Text.Printable
import Shortlist.Text.Quoted
import Shortlist.Text.Ranges
import Shortlist.Value.Basic
import Shortlist.Value.Written
import Shortlist.Proofs.Catalog.Answer
import Shortlist.Proofs.Decision.Filter
import Shortlist.Proofs.Catalog.Sound
import Shortlist.Proofs.Decision.Fields
import Shortlist.Proofs.Decision.Agreement
import Shortlist.Proofs.Decision.Evaluation
import Shortlist.Proofs.Session.Change
import Shortlist.Proofs.Session.Run
import Shortlist.Proofs.Decision.Filling
import Shortlist.Proofs.Session.Guarantees
import Shortlist.Proofs.Session.History
import Shortlist.Proofs.Decision.Reasons
import Shortlist.Proofs.Command.Report
import Shortlist.Proofs.Session.Batch
import Shortlist.Proofs.Document.Faults
import Shortlist.Proofs.Document.Migration
import Shortlist.Proofs.Document.WellFormed
import Shortlist.Proofs.Decision.Ranking
import Shortlist.Proofs.Decision.Reordering
import Shortlist.Proofs.Rule.Words
import Shortlist.Proofs.Document.Naming
import Shortlist.Proofs.Rule.Lexeme
import Shortlist.Proofs.Rule.Composition
import Shortlist.Proofs.Rule.Respelling
import Shortlist.Proofs.Rule.Quoting
import Shortlist.Proofs.Document.Conditions
import Shortlist.Proofs.Number.Exponential
import Shortlist.Proofs.Number.Line
import Shortlist.Proofs.Number.Order
import Shortlist.Proofs.Number.Range
import Shortlist.Proofs.Number.Remainder
import Shortlist.Proofs.Number.Rounding
import Shortlist.Proofs.Decision.Shares
import Shortlist.Proofs.Decision.Sorting
import Shortlist.Proofs.Catalog.Acceptance
import Shortlist.Proofs.Command.Pair
import Shortlist.Proofs.Session.Choices
import Shortlist.Proofs.Decision.Scores
import Shortlist.Proofs.Number.Separation
import Shortlist.Proofs.Number.Shortest
import Shortlist.Proofs.Number.Spelling
import Shortlist.Proofs.Catalog.Projection
import Shortlist.Proofs.Document.Rekeying
import Shortlist.Proofs.Document.Spots
import Shortlist.Proofs.Catalog.Stored
import Shortlist.Proofs.Command.Check
import Shortlist.Proofs.Document.Sections
import Shortlist.Proofs.Rule.Arithmetic
import Shortlist.Proofs.Rule.Literal
import Shortlist.Proofs.Rule.Overflow
import Shortlist.Proofs.Rule.Comparison
import Shortlist.Proofs.Rule.Laws
import Shortlist.Proofs.Rule.Walk
import Shortlist.Proofs.Rule.Discipline
