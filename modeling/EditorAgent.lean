import EditorAgent.Agent.Basic
import EditorAgent.Agent.Broker
import EditorAgent.Agent.Builtin
import EditorAgent.Agent.Command
import EditorAgent.Agent.Settings
import EditorAgent.Codec.Basic
import EditorAgent.Codec.Cbor
import EditorAgent.Codec.Json
import EditorAgent.Codec.JsonWriter
import EditorAgent.Codec.MessagePack
import EditorAgent.Codec.Reader
import EditorAgent.Disk.Basic
import EditorAgent.Disk.Edit
import EditorAgent.Go.Archive
import EditorAgent.Go.Build
import EditorAgent.Go.Check
import EditorAgent.Go.Constraint
import EditorAgent.Go.Grammar
import EditorAgent.Go.ImportError
import EditorAgent.Go.Importer
import EditorAgent.Go.Lexicon
import EditorAgent.Go.ModFile
import EditorAgent.Go.Package
import EditorAgent.Go.Resolve
import EditorAgent.Go.Session
import EditorAgent.Go.SourceFile
import EditorAgent.Go.TypeCheck
import EditorAgent.Go.Version
import EditorAgent.Go.Workers
import EditorAgent.Main
import EditorAgent.Memo.Basic
import EditorAgent.Number.Binary
import EditorAgent.Number.Decimal
import EditorAgent.Path.Basic
import EditorAgent.Path.Clean
import EditorAgent.Proofs.Agent.Answers
import EditorAgent.Proofs.Agent.Diagnostics
import EditorAgent.Proofs.Agent.OwnPackage
import EditorAgent.Proofs.Agent.Replica
import EditorAgent.Proofs.Agent.Service
import EditorAgent.Proofs.Codec.Requests
import EditorAgent.Proofs.Codec.Streams
import EditorAgent.Proofs.Go.Archive
import EditorAgent.Proofs.Go.CacheNames
import EditorAgent.Proofs.Go.Changes
import EditorAgent.Proofs.Go.Consistency
import EditorAgent.Proofs.Go.Constraint
import EditorAgent.Proofs.Go.ConstraintLines
import EditorAgent.Proofs.Go.Containment
import EditorAgent.Proofs.Go.Contexts
import EditorAgent.Proofs.Go.Crew
import EditorAgent.Proofs.Go.Crowded
import EditorAgent.Proofs.Go.Dependents
import EditorAgent.Proofs.Go.Directories
import EditorAgent.Proofs.Go.FanOut
import EditorAgent.Proofs.Go.Fingerprints
import EditorAgent.Proofs.Go.Header
import EditorAgent.Proofs.Go.ImportPaths
import EditorAgent.Proofs.Go.Members
import EditorAgent.Proofs.Go.ModuleFile
import EditorAgent.Proofs.Go.ModuleLayout
import EditorAgent.Proofs.Go.Overwritten
import EditorAgent.Proofs.Go.Provenance
import EditorAgent.Proofs.Go.Questions
import EditorAgent.Proofs.Go.Readers
import EditorAgent.Proofs.Go.Roster
import EditorAgent.Proofs.Go.Serving
import EditorAgent.Proofs.Go.Subdirectories
import EditorAgent.Proofs.Go.Versions
import EditorAgent.Proofs.Go.Visibility
import EditorAgent.Proofs.Go.Waits
import EditorAgent.Proofs.Memo.Clearing
import EditorAgent.Proofs.Memo.Computing
import EditorAgent.Proofs.Path.Locations
import EditorAgent.Proofs.Path.Parents
import EditorAgent.Proofs.Path.Resolved
import EditorAgent.Proofs.Store.Arena
import EditorAgent.Proofs.Store.Calls
import EditorAgent.Proofs.Store.Cursor
import EditorAgent.Proofs.Store.Durations
import EditorAgent.Proofs.Store.Fifo
import EditorAgent.Proofs.Store.Lifecycle
import EditorAgent.Proofs.Store.Quiet
import EditorAgent.Proofs.Vfs.Freshness
import EditorAgent.Proofs.Vfs.Listings
import EditorAgent.Proofs.Vfs.Relisting
import EditorAgent.Proofs.Vfs.Rewrites
import EditorAgent.Proofs.Vfs.Scanning
import EditorAgent.Store.Action
import EditorAgent.Store.Basic
import EditorAgent.Store.Duration
import EditorAgent.Store.Env
import EditorAgent.Store.Pipeline
import EditorAgent.Store.Profile
import EditorAgent.Store.Props
import EditorAgent.Store.Reducer
import EditorAgent.Store.State
import EditorAgent.Store.View
import EditorAgent.Syntax.Automaton
import EditorAgent.Syntax.Clash
import EditorAgent.Syntax.Item
import EditorAgent.Syntax.Language
import EditorAgent.Syntax.Lookahead
import EditorAgent.Syntax.Merge
import EditorAgent.Syntax.Node
import EditorAgent.Syntax.ParseState
import EditorAgent.Syntax.Pattern
import EditorAgent.Syntax.Recovery
import EditorAgent.Syntax.Reduction
import EditorAgent.Syntax.Rule
import EditorAgent.Syntax.Run
import EditorAgent.Syntax.Source
import EditorAgent.Syntax.Stack
import EditorAgent.Syntax.Token
import EditorAgent.Syntax.Tree
import EditorAgent.Text.Base64
import EditorAgent.Text.Blank
import EditorAgent.Text.Digest
import EditorAgent.Text.Digit
import EditorAgent.Text.Quoted
import EditorAgent.Text.Ranges
import EditorAgent.Text.Search
import EditorAgent.Text.Utf8
import EditorAgent.Text.Word
import EditorAgent.Toml.Document
import EditorAgent.Toml.Scalar
import EditorAgent.Value.Basic
import EditorAgent.Vfs.Basic
import EditorAgent.Vfs.Cell
import EditorAgent.Vfs.Scan
import EditorAgent.Vfs.Stat
import EditorAgent.Wire.Line
import EditorAgent.Wire.Request
