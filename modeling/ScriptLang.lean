import ScriptLang.Arguments
import ScriptLang.Artifact
import ScriptLang.Checksum
import ScriptLang.CommandLine
import ScriptLang.Compilation
import ScriptLang.Deflate
import ScriptLang.Entries
import ScriptLang.Evaluator
import ScriptLang.Fault
import ScriptLang.FileTree
import ScriptLang.Grammar
import ScriptLang.Gzip
import ScriptLang.HostPath
import ScriptLang.Json
import ScriptLang.Json.Display
import ScriptLang.Json.Reader
import ScriptLang.Json.Writer
import ScriptLang.Linked
import ScriptLang.Machine
import ScriptLang.Main
import ScriptLang.Node
import ScriptLang.Node.Document
import ScriptLang.Number.Binary64
import ScriptLang.Number.IntText
import ScriptLang.Number.Numeral
import ScriptLang.Number.Shortest
import ScriptLang.Operator
import ScriptLang.Proofs.Arguments
import ScriptLang.Proofs.Artifact
import ScriptLang.Proofs.ClosingSink
import ScriptLang.Proofs.CommandLine
import ScriptLang.Proofs.Compilation
import ScriptLang.Proofs.Compression
import ScriptLang.Proofs.Decoding
import ScriptLang.Proofs.Evaluator.Abrupt
import ScriptLang.Proofs.Evaluator.Activity
import ScriptLang.Proofs.Evaluator.CallStack
import ScriptLang.Proofs.Evaluator.Confined
import ScriptLang.Proofs.Evaluator.Documented
import ScriptLang.Proofs.Evaluator.Faults
import ScriptLang.Proofs.Evaluator.Framing
import ScriptLang.Proofs.Evaluator.Grounding
import ScriptLang.Proofs.Evaluator.Guise
import ScriptLang.Proofs.Evaluator.Invariant
import ScriptLang.Proofs.Evaluator.Isolation
import ScriptLang.Proofs.Evaluator.Logic
import ScriptLang.Proofs.Evaluator.Naming
import ScriptLang.Proofs.Evaluator.Plain
import ScriptLang.Proofs.Evaluator.Recording
import ScriptLang.Proofs.Evaluator.Refusal
import ScriptLang.Proofs.Evaluator.Region
import ScriptLang.Proofs.Evaluator.Reordering
import ScriptLang.Proofs.Evaluator.Retention
import ScriptLang.Proofs.Evaluator.Trace
import ScriptLang.Proofs.Evaluator.Unwinding
import ScriptLang.Proofs.Exits
import ScriptLang.Proofs.Fault
import ScriptLang.Proofs.FileTree
import ScriptLang.Proofs.Globals
import ScriptLang.Proofs.Grammar.Completeness
import ScriptLang.Proofs.Grammar.Cursor
import ScriptLang.Proofs.Grammar.Derivation
import ScriptLang.Proofs.Grammar.FirstError
import ScriptLang.Proofs.Grammar.Fuel
import ScriptLang.Proofs.Grammar.Image
import ScriptLang.Proofs.Grammar.Lookahead
import ScriptLang.Proofs.Grammar.Numbers
import ScriptLang.Proofs.Grammar.Places
import ScriptLang.Proofs.Grammar.Printing
import ScriptLang.Proofs.Grammar.Safety
import ScriptLang.Proofs.Grammar.Soundness
import ScriptLang.Proofs.Grammar.Sources
import ScriptLang.Proofs.Grammar.Steps
import ScriptLang.Proofs.Grammar.Storable
import ScriptLang.Proofs.Grammar.Tracking
import ScriptLang.Proofs.Grammar.Viable
import ScriptLang.Proofs.History
import ScriptLang.Proofs.HostPath
import ScriptLang.Proofs.Json.Documents
import ScriptLang.Proofs.Json.Numbers
import ScriptLang.Proofs.Json.Sound
import ScriptLang.Proofs.Json.Strings
import ScriptLang.Proofs.Linked.Closure
import ScriptLang.Proofs.Linked.DepthFirst
import ScriptLang.Proofs.Linked.Gather
import ScriptLang.Proofs.Linked.Order
import ScriptLang.Proofs.Linked.Reads
import ScriptLang.Proofs.Linked.Source
import ScriptLang.Proofs.Linked.Spliced
import ScriptLang.Proofs.Linked.Stores
import ScriptLang.Proofs.Linked.Walk
import ScriptLang.Proofs.Messages
import ScriptLang.Proofs.Node.Documents
import ScriptLang.Proofs.Node.Faults
import ScriptLang.Proofs.Node.WellFormed
import ScriptLang.Proofs.Number.Bits
import ScriptLang.Proofs.Number.Decimal
import ScriptLang.Proofs.Number.Digits
import ScriptLang.Proofs.Number.Exact
import ScriptLang.Proofs.Number.Rounding
import ScriptLang.Proofs.Number.Shortest
import ScriptLang.Proofs.Number.Sign
import ScriptLang.Proofs.Operator
import ScriptLang.Proofs.Operator.Comparison
import ScriptLang.Proofs.Reached
import ScriptLang.Proofs.Retention
import ScriptLang.Proofs.Roots
import ScriptLang.Proofs.Scope
import ScriptLang.Proofs.Scope.Chains
import ScriptLang.Proofs.Scope.Forest
import ScriptLang.Proofs.Scope.Grounded
import ScriptLang.Proofs.Session
import ScriptLang.Proofs.StepLog
import ScriptLang.Proofs.Store.Rooted
import ScriptLang.Proofs.Text.Utf8
import ScriptLang.Proofs.Token.Layout
import ScriptLang.Proofs.Token.Longest
import ScriptLang.Proofs.Token.Respacing
import ScriptLang.Proofs.Token.Scanner
import ScriptLang.Proofs.Token.Spans
import ScriptLang.Proofs.Token.Words
import ScriptLang.Proofs.Traceback
import ScriptLang.Proofs.Value
import ScriptLang.Proofs.Verbosity
import ScriptLang.Proofs.VirtualPath.Composition
import ScriptLang.Proofs.VirtualPath.Mark
import ScriptLang.Proofs.VirtualPath.Normal
import ScriptLang.Scope
import ScriptLang.Session
import ScriptLang.StepLog
import ScriptLang.Store
import ScriptLang.Store.Memory
import ScriptLang.Store.Rooted
import ScriptLang.Text.Printable
import ScriptLang.Text.Quoted
import ScriptLang.Text.Utf8
import ScriptLang.Token
import ScriptLang.Token.Lexeme
import ScriptLang.Traceback
import ScriptLang.Value
import ScriptLang.VirtualPath
