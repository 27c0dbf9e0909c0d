import BellaLang.Command.Respond
import BellaLang.Execute
import BellaLang.Json.Reader
import BellaLang.Json.Writer
import BellaLang.Main
import BellaLang.Node.Document
import BellaLang.Proofs.Bounds
import BellaLang.Proofs.Operators
import BellaLang.Proofs.Rules
import BellaLang.Proofs.Sorts
import BellaLang.Proofs.Views
import BellaLang.Proofs.Walk
import BellaLang.Source.Parse
import BellaLang.Subject
import BellaLang.Proofs.Expressions
import BellaLang.Proofs.Programs
import BellaLang.Proofs.Guards
import BellaLang.Proofs.Numerals
import BellaLang.Proofs.Reading
import BellaLang.Proofs.Endings
import BellaLang.Proofs.Rounding
import BellaLang.Proofs.Decimals
import BellaLang.Proofs.Documents
import BellaLang.Proofs.Grammar
import BellaLang.Proofs.Unambiguity
import BellaLang.Proofs.Acceptance
import BellaLang.Proofs.Derivations
import BellaLang.Proofs.Lexing
import BellaLang.Proofs.Parsing
import BellaLang.Proofs.Spacing
import BellaLang.Proofs.Wording
import BellaLang.Proofs.Printing
import BellaLang.Proofs.PrintedValues
import BellaLang.Proofs.Observing
import BellaLang.Proofs.Unrolling
import BellaLang.Proofs.Completions
import BellaLang.Proofs.Refusals
import BellaLang.Proofs.Encoding
import BellaLang.Proofs.Literals
import BellaLang.Proofs.Rereading
import BellaLang.Proofs.StoredTrees
import BellaLang.Proofs.Sight
import BellaLang.Proofs.Joining
import BellaLang.Proofs.Namespace
import BellaLang.Proofs.Enacting
import BellaLang.Proofs.Hoisting
import BellaLang.Proofs.CallGraph
import BellaLang.Proofs.Nesting
import BellaLang.Proofs.Defects
import BellaLang.Proofs.Leading
import BellaLang.Proofs.TreeFiles
import BellaLang.Proofs.Layout
import BellaLang.Proofs.Rationals
import BellaLang.Proofs.Remainders
import BellaLang.Proofs.Subscripts
import BellaLang.Proofs.Image
import BellaLang.Proofs.Watching
import BellaLang.Proofs.Traces
