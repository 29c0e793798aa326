import ElementLens.Total
import ElementLens.Bisection
import ElementLens.Text.Units
import ElementLens.Text.Position
import ElementLens.Text.Lines
import ElementLens.Text.Utf8
import ElementLens.Text.Pattern
import ElementLens.Json
import ElementLens.Path
import ElementLens.Uri.Percent
import ElementLens.Uri.Address
import ElementLens.Uri.Punycode
import ElementLens.Uri.Domain
import ElementLens.Uri.Basic
import ElementLens.Uri.Parse
import ElementLens.Document
import ElementLens.Syntax.Tree
import ElementLens.Syntax.Cursor
import ElementLens.Script.Char
import ElementLens.Script.Grammar
import ElementLens.Script.Kind
import ElementLens.Script.Lexer
import ElementLens.Script.Parse
import ElementLens.Script.Semicolon
import ElementLens.Script.Token
import ElementLens.Text.Hex
import ElementLens.Markup.Kind
import ElementLens.Markup.Name
import ElementLens.Grammar.Rule
import ElementLens.Grammar.Table
import ElementLens.Grammar.Automaton
import ElementLens.Parsing.Shape
import ElementLens.Parsing.Stack
import ElementLens.Parsing.Parser
import ElementLens.Parsing.Recovery
import ElementLens.Parsing.Run
import ElementLens.Syntax.Cut
import ElementLens.Markup.Grammar
import ElementLens.Markup.OpenTags
import ElementLens.Markup.Lexer
import ElementLens.Markup.Parse
import ElementLens.Markup.Layout
import ElementLens.Markup.Event
import ElementLens.Markup.Tokenizer
import ElementLens.Template.Cooked
import ElementLens.Template.Literal
import ElementLens.Component.Record
import ElementLens.Component.Json
import ElementLens.Component.Registration
import ElementLens.Component.Definition
import ElementLens.Component.Import
import ElementLens.Component.Extract
import ElementLens.RecencyCache
import ElementLens.Settings
import ElementLens.Store
import ElementLens.Navigation.Link
import ElementLens.Navigation.Hover
import ElementLens.Diagnostic
import ElementLens.FileSystem
import ElementLens.Notice
import ElementLens.Workbench
import ElementLens.Session
import ElementLens.Debounce.Basic
import ElementLens.Debounce.Timeline
import ElementLens.Protocol.Encode
import ElementLens.Protocol.Form
import ElementLens.Protocol.Capabilities
import ElementLens.Protocol.Params
import ElementLens.Protocol.Unoffered
import ElementLens.Protocol.Message
import ElementLens.Server.Basic
import ElementLens.Server.Dispatch
import ElementLens.Proofs.Text.Boundary
import ElementLens.Proofs.Text.LineTable
import ElementLens.Proofs.Text.Place
import ElementLens.Proofs.Text.RoundTrip
import ElementLens.Proofs.Document.Synchronised
import ElementLens.Proofs.Text.Order
import ElementLens.Proofs.Text.Matches
import ElementLens.Proofs.Syntax.Preorder
import ElementLens.Proofs.Syntax.Walk
import ElementLens.Proofs.Syntax.Places
import ElementLens.Proofs.Text.Digits
import ElementLens.Proofs.Template.Segments
import ElementLens.Proofs.Template.Units
import ElementLens.Proofs.Template.Pieces
import ElementLens.Proofs.Template.Grammar
import ElementLens.Proofs.Template.Acceptance
import ElementLens.Proofs.Template.Surrogates
import ElementLens.Proofs.Markup.Pieces
import ElementLens.Proofs.Markup.Names
import ElementLens.Proofs.Markup.Seams
import ElementLens.Proofs.Component.Contents
import ElementLens.Proofs.Component.Occurrences
import ElementLens.Proofs.Component.Tokens
import ElementLens.Proofs.Component.Fidelity
import ElementLens.Proofs.Component.Nesting
import ElementLens.Proofs.Component.SourceOrder
import ElementLens.Proofs.Cache.Linked
import ElementLens.Proofs.Cache.Recency
import ElementLens.Proofs.Debounce.Locks
import ElementLens.Proofs.Debounce.Execution
import ElementLens.Proofs.Debounce.Chronicle
import ElementLens.Proofs.Debounce.Newest
import ElementLens.Proofs.Debounce.Progress
import ElementLens.Proofs.Cache.Kept
import ElementLens.Proofs.Store.Uses
import ElementLens.Proofs.Store.Traces
import ElementLens.Proofs.Workspace.Run
import ElementLens.Proofs.Workspace.Provenance
import ElementLens.Proofs.Navigation.Texts
import ElementLens.Proofs.Store.LookUps
import ElementLens.Proofs.Store.Repetition
import ElementLens.Proofs.Workspace.Refresh
import ElementLens.Proofs.Debounce.Stages
import ElementLens.Proofs.Debounce.Simulation
import ElementLens.Proofs.Debounce.Requests
import ElementLens.Proofs.Debounce.Exclusion
import ElementLens.Proofs.Component.Failures
import ElementLens.Proofs.Workspace.Failures
import ElementLens.Proofs.Path.Components
import ElementLens.Proofs.Component.Edges
import ElementLens.Proofs.Workspace.Imports
import ElementLens.Proofs.Workspace.Confluence
import ElementLens.Proofs.Session.Idempotence
import ElementLens.Proofs.Session.Queries
import ElementLens.Proofs.Workspace.Unsaved
import ElementLens.Proofs.Session.Agreement
import ElementLens.Proofs.Server.Turns
import ElementLens.Proofs.Server.Log
import ElementLens.Proofs.Server.Settings
import ElementLens.Proofs.Debounce.Asleep
import ElementLens.Proofs.Server.Alarms
import ElementLens.Proofs.Server.Standing
import ElementLens.Proofs.Server.Notices
import ElementLens.Proofs.Server.Publishing
import ElementLens.Proofs.Server.Limits
import ElementLens.Proofs.Component.Registered
import ElementLens.Proofs.Debounce.Line
import ElementLens.Proofs.Debounce.Leftovers
import ElementLens.Proofs.Uri.Standard
import ElementLens.Proofs.Workspace.Sharing
import ElementLens.Proofs.Server.Suspended
import ElementLens.Proofs.Store.Frame
import ElementLens.Proofs.Component.Declared
import ElementLens.Proofs.Script.Comments
import ElementLens.Proofs.Component.Options
import ElementLens.Proofs.Component.Hidden
import ElementLens.Proofs.Template.Partition
import ElementLens.Proofs.Document.Order
import ElementLens.Proofs.Path.Resolution
import ElementLens.Proofs.Markup.Events
import ElementLens.Proofs.Cache.Stamps
import ElementLens.Proofs.Text.LineStarts
import ElementLens.Proofs.Markup.Seating
