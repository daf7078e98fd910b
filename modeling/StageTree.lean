import StageTree.Backend.Basic
import StageTree.Backend.Handler
import StageTree.Backend.Rehearsed
import StageTree.CommandLine.Answer
import StageTree.CommandLine.Request
import StageTree.CommandLine.Summary
import StageTree.Config
import StageTree.Event.Basic
import StageTree.File
import StageTree.Group.Rehearsal
import StageTree.Ledger.Record
import StageTree.Main
import StageTree.Pipeline.Reference
import StageTree.Pipeline.Validation
import StageTree.Process.Call
import StageTree.Process.Container
import StageTree.Process.Dispatch
import StageTree.Process.Host
import StageTree.Process.Plan
import StageTree.Process.StandIn
import StageTree.Proofs.Activity.Acts
import StageTree.Proofs.Activity.Coherent
import StageTree.Proofs.Activity.Marks
import StageTree.Proofs.Activity.Tree
import StageTree.Proofs.Activity.Yield
import StageTree.Proofs.Group.Join
import StageTree.Proofs.Pipeline.Proper
import StageTree.Proofs.Pipeline.Repeats
import StageTree.Proofs.Results.Insert
import StageTree.Proofs.Run.History
import StageTree.Proofs.Run.Ledger
import StageTree.Proofs.Run.Moves
import StageTree.Results
import StageTree.Run.Activity
import StageTree.Run.Basic
import StageTree.Run.Launch
import StageTree.Run.Outcome
import StageTree.Run.Schedule
import StageTree.Run.Trace
import StageTree.Source.Parser
import StageTree.Text.Control
import StageTree.Text.Utf8
import StageTree.Unit.Basic
import StageTree.Unit.Retrying
import StageTree.Unit.Runner
import StageTree.Unit.Scripted
import StageTree.Unit.Solo
import StageTree.Proofs.Activity.Blame
import StageTree.Proofs.Run.Blame
import StageTree.Proofs.Activity.Ready
import StageTree.Proofs.Activity.Work
import StageTree.Proofs.Timed.Moves
import StageTree.Proofs.Timed.Length
import StageTree.Proofs.Timed.Schedule
import StageTree.Proofs.Activity.Doomed
import StageTree.Proofs.Activity.InFlight
import StageTree.Proofs.Run.InFlight
import StageTree.Proofs.Timed.FailFast
import StageTree.Proofs.Fate.Basic
import StageTree.Proofs.Fate.Laws
import StageTree.Proofs.Activity.Dated
import StageTree.Proofs.Activity.Bounds
import StageTree.Proofs.Activity.Still
import StageTree.Proofs.Activity.Calm
import StageTree.Proofs.Activity.Foresight
import StageTree.Proofs.Activity.Rivals
import StageTree.Proofs.Activity.Reason
import StageTree.Proofs.Run.Fates
import StageTree.Proofs.Timed.Foreseen
import StageTree.Proofs.Timed.Fates
import StageTree.Proofs.Activity.Story
import StageTree.Proofs.Run.Story
import StageTree.Proofs.Run.Records
import StageTree.Proofs.Activity.Place
import StageTree.Proofs.Run.Status
import StageTree.Proofs.Source.Grammar
import StageTree.Proofs.Source.Reads
import StageTree.Proofs.Source.Derivation
import StageTree.Proofs.Source.Spelling
import StageTree.Proofs.Source.Tokenize
import StageTree.Proofs.Scope.Lineage
import StageTree.Proofs.Group.Outcome
import StageTree.Proofs.Unit.Played
import StageTree.Proofs.Unit.Course
import StageTree.Proofs.Unit.Cancelled
import StageTree.Proofs.Pipeline.Valid
import StageTree.Proofs.Process.Course
import StageTree.Proofs.Process.Container
import StageTree.Proofs.Run.Handed
import StageTree.Proofs.Run.InTurn
import StageTree.Proofs.Activity.Notice
import StageTree.Proofs.Run.Bracket
import StageTree.Proofs.Run.Log
import StageTree.Proofs.Source.Layout
import StageTree.Proofs.Source.Places
import StageTree.Proofs.Source.Relaid
import StageTree.Proofs.Source.Printed
import StageTree.Proofs.Activity.Errors
import StageTree.Proofs.Run.Turned
import StageTree.Proofs.CommandLine.Verdict
import StageTree.Proofs.Activity.Width
import StageTree.Proofs.Activity.Heard
import StageTree.Proofs.Run.Journal
import StageTree.Proofs.Scope.Descent
import StageTree.Proofs.Retry.Delay
import StageTree.Proofs.Json.Shuffled
import StageTree.Proofs.Bindings
import StageTree.Proofs.Json.Record
import StageTree.Proofs.Json.Forms
import StageTree.Proofs.Source.Limits
import StageTree.Proofs.Source.Strict
import StageTree.Proofs.Source.Misfit
import StageTree.Proofs.Shell.Words
import StageTree.Proofs.Backend.Rendered
import StageTree.Proofs.Process.Shells
import StageTree.Proofs.Json.Printed
import StageTree.Proofs.Results.Built
import StageTree.Proofs.Results.Text
import StageTree.Proofs.Pipeline.Paths
import StageTree.Proofs.Source.Shown
import StageTree.Proofs.Group.Dropped
import StageTree.Proofs.Config
import StageTree.Proofs.Pipeline.Parameters
import StageTree.Proofs.CommandLine.Variables
