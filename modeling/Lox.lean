import Lox.Main
import Lox.CommandLine.Directory
import Lox.Trace
import Lox.Tree.Occurrences
import Lox.Proofs.Numbering
import Lox.Proofs.Grammar.Heads
import Lox.Proofs.Grammar.DanglingElse
import Lox.Proofs.Parser.StatementSound
import Lox.Proofs.Parser.Steps
import Lox.Proofs.Resolution.Visits
import Lox.Proofs.Parser.ExpressionComplete
import Lox.Proofs.Parser.StatementComplete
import Lox.Proofs.Parser.Acceptance
import Lox.Proofs.Resolution.Walk
import Lox.Proofs.Resolution.Distances
import Lox.Proofs.Token.Spelling
import Lox.Proofs.Tree.Shape
import Lox.Proofs.Compiled
import Lox.Proofs.Frames.Mirroring
import Lox.Proofs.Execution.Parts
import Lox.Proofs.Execution.Lookup
import Lox.Proofs.Execution.Evaluation
import Lox.Proofs.Execution.Moments
import Lox.Proofs.Execution.Restored
import Lox.Proofs.Session.Reached
import Lox.Proofs.Session.Methods
import Lox.Proofs.Session.Signals
import Lox.Proofs.Likeness.Code
import Lox.Proofs.Likeness.Machine
import Lox.Proofs.Likeness.Lookup
import Lox.Proofs.Likeness.Values
import Lox.Proofs.Likeness.Evaluation
import Lox.Proofs.Likeness.Runs
import Lox.Proofs.Likeness.Reflexive
import Lox.Proofs.Token.Scanning
import Lox.Proofs.Token.Semicolons
import Lox.Proofs.Resolution.Offences
import Lox.Proofs.Likeness.Derivations
import Lox.Proofs.Likeness.Numbering
import Lox.Proofs.Likeness.Resolution
import Lox.Proofs.Execution.Bound
import Lox.Proofs.Likeness.Moved
import Lox.Proofs.Likeness.Sources
import Lox.Proofs.Session.LineByLine
import Lox.Proofs.Session.Renamed
import Lox.Proofs.Parser.Ending
import Lox.Proofs.Parser.Progress
import Lox.Proofs.Parser.InPlace
import Lox.Proofs.Parser.Interspersed
import Lox.Proofs.Likeness.Identified
import Lox.Proofs.Session.Rejected
import Lox.Proofs.Resolution.Mentions
import Lox.Proofs.Resolution.Outlooks
import Lox.Proofs.Frames.Searching
import Lox.Proofs.Execution.Confined
import Lox.Proofs.Execution.Searching
import Lox.Proofs.Execution.Agreement
import Lox.Proofs.Session.Searched
import Lox.Proofs.Session.CallLimit
import Lox.Proofs.Resolution.Lexical
import Lox.Proofs.Session.Respaced
import Lox.Proofs.Session.Unrolled
import Lox.Proofs.Session.Contained
import Lox.Proofs.Token.LineNumbers
import Lox.Proofs.Session.Properties
import Lox.Proofs.Session.Constructors
import Lox.Proofs.Session.Truncated
import Lox.Proofs.Frames.Chains
import Lox.Proofs.Resolution.Balance
import Lox.Proofs.Number.ReadBack
import Lox.Proofs.Tree.Recovered
import Lox.Proofs.Session.Identities
import Lox.Proofs.Token.Bytewise
