import DirectiveEngine.Host.Scripted
import DirectiveEngine.Main
import DirectiveEngine.Proofs.Arithmetic.Error
import DirectiveEngine.Proofs.Arithmetic.Expression
import DirectiveEngine.Proofs.Arithmetic.Formula
import DirectiveEngine.Proofs.Arithmetic.Malformed
import DirectiveEngine.Proofs.Arithmetic.Range
import DirectiveEngine.Proofs.Blacklist
import DirectiveEngine.Proofs.Condition
import DirectiveEngine.Proofs.Directive.Marker
import DirectiveEngine.Proofs.Directive.RoundTrip
import DirectiveEngine.Proofs.Directive.Unmarked
import DirectiveEngine.Proofs.Directive.WellFormed
import DirectiveEngine.Proofs.Engine.Arguments
import DirectiveEngine.Proofs.Engine.Assignment
import DirectiveEngine.Proofs.Engine.Capability
import DirectiveEngine.Proofs.Engine.CommandGroups
import DirectiveEngine.Proofs.Engine.CommandLoop
import DirectiveEngine.Proofs.Engine.Console
import DirectiveEngine.Proofs.Engine.Dash
import DirectiveEngine.Proofs.Engine.Dispatch
import DirectiveEngine.Proofs.Engine.ExternalCalls
import DirectiveEngine.Proofs.Engine.FileWrites
import DirectiveEngine.Proofs.Engine.Frame
import DirectiveEngine.Proofs.Engine.History
import DirectiveEngine.Proofs.Engine.Tasks
import DirectiveEngine.Proofs.Engine.Local
import DirectiveEngine.Proofs.Engine.Members
import DirectiveEngine.Proofs.Engine.PlainLine
import DirectiveEngine.Proofs.Engine.Progress
import DirectiveEngine.Proofs.Engine.Quiet
import DirectiveEngine.Proofs.Engine.Replay
import DirectiveEngine.Proofs.Engine.Scopes
import DirectiveEngine.Proofs.Engine.Sentinels
import DirectiveEngine.Proofs.Engine.Session
import DirectiveEngine.Proofs.Engine.Substitution
import DirectiveEngine.Proofs.Engine.Timetable
import DirectiveEngine.Proofs.Engine.Trail
import DirectiveEngine.Proofs.Engine.Webhooks
import DirectiveEngine.Proofs.File.Blocked
import DirectiveEngine.Proofs.File.Containment
import DirectiveEngine.Proofs.File.Failure
import DirectiveEngine.Proofs.File.ReadBack
import DirectiveEngine.Proofs.Host.Players
import DirectiveEngine.Proofs.Json.Compose
import DirectiveEngine.Proofs.Json.Lookup
import DirectiveEngine.Proofs.Store.LastWrite
import DirectiveEngine.Proofs.Template.ArgumentTable
import DirectiveEngine.Proofs.Template.Opaque
import DirectiveEngine.Proofs.Template.Protect
import DirectiveEngine.Proofs.Template.VariableName
import DirectiveEngine.Proofs.Webhook.Headers
