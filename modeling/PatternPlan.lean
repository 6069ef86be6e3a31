import PatternPlan.Check.Module
import PatternPlan.Cli.Run
import PatternPlan.Compile.Compilation
import PatternPlan.Config.Discovery
import PatternPlan.Diagnostic.Report
import PatternPlan.Document.Reader
import PatternPlan.Editor.Server
import PatternPlan.Json.Writer
import PatternPlan.Main
import PatternPlan.Plan.Printer
import PatternPlan.Plan.Trace
import PatternPlan.Sample.Generator
import PatternPlan.Service.Call
import PatternPlan.Session
import PatternPlan.Store.Memory
import PatternPlan.Store.Table
import PatternPlan.Surface.Printer
import PatternPlan.Proofs.Matching.Value
import PatternPlan.Proofs.Matching.WellFormed
import PatternPlan.Proofs.Matching.Exhaustive
import PatternPlan.Proofs.Matching.Compared
import PatternPlan.Proofs.Matching.Covers
import PatternPlan.Proofs.Matching.Shadowing
import PatternPlan.Proofs.Matching.Unreachable
import PatternPlan.Proofs.Matching.Calls
import PatternPlan.Proofs.Matching.Witness
import PatternPlan.Proofs.Matching.Genuine
import PatternPlan.Proofs.Matching.Hiding
import PatternPlan.Proofs.Matching.Fields
import PatternPlan.Proofs.Matching.Lengths
import PatternPlan.Proofs.Matching.Search
import PatternPlan.Proofs.Plan.Selection
import PatternPlan.Proofs.Plan.Protocol
import PatternPlan.Proofs.Plan.Miss
import PatternPlan.Proofs.Plan.Always
import PatternPlan.Proofs.Surface.Parsed
import PatternPlan.Proofs.Typed.Typing
import PatternPlan.Proofs.Typed.Pattern
import PatternPlan.Proofs.Lowered.Contract
import PatternPlan.Proofs.Lowered.Accepted
import PatternPlan.Proofs.Lowered.Raised
import PatternPlan.Proofs.Compile.Valid
import PatternPlan.Proofs.Lowered.Table
import PatternPlan.Proofs.Lowered.Matches
import PatternPlan.Proofs.Number.Nearest
import PatternPlan.Proofs.Number.Shortest
import PatternPlan.Proofs.Source.Word
import PatternPlan.Proofs.Surface.Writable
import PatternPlan.Proofs.Surface.Words
import PatternPlan.Proofs.Surface.Written
import PatternPlan.Proofs.Surface.Lines
import PatternPlan.Proofs.Surface.Runs
import PatternPlan.Proofs.Surface.TypeRead
import PatternPlan.Proofs.Surface.PatternRules
import PatternPlan.Proofs.Surface.PatternRead
import PatternPlan.Proofs.Surface.ExprRead
import PatternPlan.Proofs.Source.Sound
import PatternPlan.Proofs.Surface.Gives
import PatternPlan.Proofs.Surface.ParsedWritable
import PatternPlan.Proofs.Surface.ProgramRead
import PatternPlan.Proofs.Compile.Formatting
import PatternPlan.Proofs.Sample.Words
import PatternPlan.Proofs.Sample.Levels
import PatternPlan.Proofs.Sample.Parses
import PatternPlan.Proofs.Json.Numeral
import PatternPlan.Proofs.Json.Text
import PatternPlan.Proofs.Document.Modules
import PatternPlan.Proofs.Lowered.Storable
import PatternPlan.Proofs.Compile.Documents
import PatternPlan.Proofs.Surface.Accounts
import PatternPlan.Proofs.Surface.Constructs
import PatternPlan.Proofs.Surface.Opening
import PatternPlan.Proofs.Surface.Tiling
import PatternPlan.Proofs.Surface.Unfinished
import PatternPlan.Proofs.Document.Plans
import PatternPlan.Proofs.Store.Saved
import PatternPlan.Proofs.Check.Places
import PatternPlan.Proofs.Check.Effects
import PatternPlan.Proofs.Check.Names
import PatternPlan.Proofs.Compile.Reported
import PatternPlan.Proofs.Editor.Documents
import PatternPlan.Proofs.Editor.Answers
import PatternPlan.Proofs.Service.Remote
import PatternPlan.Proofs.Text.Utf8
import PatternPlan.Proofs.Source.Layout
import PatternPlan.Proofs.Source.Positions
import PatternPlan.Proofs.Source.Order
import PatternPlan.Proofs.Source.Joined
import PatternPlan.Proofs.Surface.Repeats
import PatternPlan.Proofs.Surface.Repeated
import PatternPlan.Proofs.Surface.Nesting
import PatternPlan.Proofs.Surface.Edge
import PatternPlan.Proofs.Surface.Stopped
import PatternPlan.Proofs.Surface.Recovery
import PatternPlan.Proofs.Surface.Laminar
import PatternPlan.Proofs.Surface.Leads
import PatternPlan.Proofs.Surface.Placed
import PatternPlan.Proofs.Editor.Hover
import PatternPlan.Proofs.Surface.Steady
import PatternPlan.Proofs.Surface.Extends
import PatternPlan.Proofs.Surface.Extended
import PatternPlan.Proofs.Surface.Appended
import PatternPlan.Proofs.Session.Declarations
import PatternPlan.Proofs.Surface.PatternCost
import PatternPlan.Proofs.Surface.PatternPrinted
import PatternPlan.Proofs.Surface.ExprPrinted
import PatternPlan.Proofs.Surface.PatternExtended
import PatternPlan.Proofs.Surface.Framed
import PatternPlan.Proofs.Surface.ArmOrder
import PatternPlan.Proofs.Typed.Branches
import PatternPlan.Proofs.Typed.Places
import PatternPlan.Proofs.Typed.Orders
import PatternPlan.Proofs.Types.Declared
import PatternPlan.Proofs.Types.Constructors
import PatternPlan.Proofs.Diagnostic.Collected
import PatternPlan.Proofs.Editor.Framing
import PatternPlan.Proofs.Editor.Positions
