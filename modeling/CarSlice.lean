import CarSlice.Archive.Block
import CarSlice.Archive.Carried
import CarSlice.Archive.Cases
import CarSlice.Archive.Header
import CarSlice.Archive.Progress
import CarSlice.Archive.Reader
import CarSlice.Archive.Writer
import CarSlice.Base32
import CarSlice.Base58
import CarSlice.ByteRange
import CarSlice.Bytes
import CarSlice.Cbor
import CarSlice.Cid
import CarSlice.Command
import CarSlice.Directory
import CarSlice.Error
import CarSlice.Event
import CarSlice.Event.Bus
import CarSlice.Event.Json
import CarSlice.Event.Log
import CarSlice.Event.Timestamp
import CarSlice.Layout
import CarSlice.Main
import CarSlice.Multihash
import CarSlice.Protobuf
import CarSlice.Query
import CarSlice.Selection
import CarSlice.Session
import CarSlice.Session.Carried
import CarSlice.Session.Cases
import CarSlice.Session.Run
import CarSlice.Settings
import CarSlice.Sha2
import CarSlice.Sink
import CarSlice.Source
import CarSlice.UnixFs
import CarSlice.Varint
import CarSlice.Proofs.Archive.Calls
import CarSlice.Proofs.Archive.Checking
import CarSlice.Proofs.Archive.Chunking
import CarSlice.Proofs.Archive.Consumption
import CarSlice.Proofs.Archive.CutHeaders
import CarSlice.Proofs.Archive.Digests
import CarSlice.Proofs.Archive.EndOfArchive
import CarSlice.Proofs.Archive.Failures
import CarSlice.Proofs.Archive.Framing
import CarSlice.Proofs.Archive.HeaderBody
import CarSlice.Proofs.Archive.HeaderGrammar
import CarSlice.Proofs.Archive.HeaderTurns
import CarSlice.Proofs.Archive.Positions
import CarSlice.Proofs.Archive.Rereading
import CarSlice.Proofs.Archive.RoundTrip
import CarSlice.Proofs.Archive.SectionAhead
import CarSlice.Proofs.Archive.Shapes
import CarSlice.Proofs.Archive.Unread
import CarSlice.Proofs.Archive.Writing
import CarSlice.Proofs.Base32
import CarSlice.Proofs.Base32.Groups
import CarSlice.Proofs.Base58
import CarSlice.Proofs.Cbor
import CarSlice.Proofs.Cbor.Grammar
import CarSlice.Proofs.Cbor.Skipping
import CarSlice.Proofs.Cbor.Turns
import CarSlice.Proofs.Cid
import CarSlice.Proofs.Cid.Grammar
import CarSlice.Proofs.Cid.Making
import CarSlice.Proofs.Cid.Text
import CarSlice.Proofs.Event.Delivery
import CarSlice.Proofs.Event.Lines
import CarSlice.Proofs.Event.Objects
import CarSlice.Proofs.Event.Protection
import CarSlice.Proofs.Json
import CarSlice.Proofs.Layout.Failures
import CarSlice.Proofs.Layout.FileTree
import CarSlice.Proofs.Layout.Grammar
import CarSlice.Proofs.Layout.Metadata
import CarSlice.Proofs.Layout.Safety
import CarSlice.Proofs.Layout.Slots
import CarSlice.Proofs.Layout.Tiling
import CarSlice.Proofs.NodeSizes
import CarSlice.Proofs.Numerals
import CarSlice.Proofs.Protobuf.Grammar
import CarSlice.Proofs.Query
import CarSlice.Proofs.Query.Grammar
import CarSlice.Proofs.Query.RoundTrip
import CarSlice.Proofs.Selection.Offsets
import CarSlice.Proofs.Selection.Positions
import CarSlice.Proofs.Selection.Seeking
import CarSlice.Proofs.Session.Accepting
import CarSlice.Proofs.Session.Accounting
import CarSlice.Proofs.Session.Budgets
import CarSlice.Proofs.Session.Chunking
import CarSlice.Proofs.Session.Contents
import CarSlice.Proofs.Session.Counts
import CarSlice.Proofs.Session.Coupling
import CarSlice.Proofs.Session.Coverage
import CarSlice.Proofs.Session.Demands
import CarSlice.Proofs.Session.Digests
import CarSlice.Proofs.Session.Distances
import CarSlice.Proofs.Session.Endings
import CarSlice.Proofs.Session.ExactSelection
import CarSlice.Proofs.Session.Intake
import CarSlice.Proofs.Session.Journal
import CarSlice.Proofs.Session.Lockstep
import CarSlice.Proofs.Session.Nesting
import CarSlice.Proofs.Session.Opening
import CarSlice.Proofs.Session.Operations
import CarSlice.Proofs.Session.Passthrough
import CarSlice.Proofs.Session.PhaseEvents
import CarSlice.Proofs.Session.PrefixRange
import CarSlice.Proofs.Session.Refiltering
import CarSlice.Proofs.Session.Remarks
import CarSlice.Proofs.Session.StepBounds
import CarSlice.Proofs.Session.Success
import CarSlice.Proofs.Session.TerminalEvents
import CarSlice.Proofs.Session.Truncation
import CarSlice.Proofs.Session.View
import CarSlice.Proofs.Session.Work
import CarSlice.Proofs.Sink
import CarSlice.Proofs.Source
import CarSlice.Proofs.UnixFs.Layouts
import CarSlice.Proofs.Varint
import CarSlice.Proofs.Varint.Agreement
