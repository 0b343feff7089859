import Varve.Lib.Except
import Varve.Lib.Run
import Varve.Lib.Path
import Varve.Lib.Bytes
import Varve.Lib.Blake3
import Varve.Lib.Disk
import Varve.Lib.DiskSizes
import Varve.Lib.Text
import Varve.Lib.Json
import Varve.Lib.JsonRead
import Varve.Lib.JsonFront
import Varve.Lib.Map
import Varve.Lib.Sorted
import Varve.Lib.Slots
import Varve.Lib.Packing
import Varve.Lib.Admission
import Varve.Flow.Machine
import Varve.Flow.Safety
import Varve.Flow.Ring
import Varve.Flow.Frame
import Varve.Journal.Format
import Varve.Journal.Operations
import Varve.Journal.Codec
import Varve.Journal.Recovery
import Varve.Journal.History
import Varve.Journal.Stored
import Varve.Journal.Interrupted
import Varve.Journal.Writing
import Varve.Journal.Durability
import Varve.Journal.Canonical
import Varve.Journal.Capacity
import Varve.Journal.CommitLog
import Varve.Disk.Budget
import Varve.Wal.Frame
import Varve.Tier.Object
import Varve.Tier.Transport
import Varve.Tier.Restore
import Varve.Tier.Intent
import Varve.Tier.Publication
import Varve.Tier.Binding
import Varve.Tier.Vacuum
import Varve.Tier.Collection
import Varve.Files.Threads
import Varve.Files.Reclaim
import Varve.Commit.Epoch
import Varve.Commit.Safety
import Varve.Commit.Floors
import Varve.Commit.FloorChoice
import Varve.Commit.FloorSafety
import Varve.Engine.Model
import Varve.Engine.Catalog
import Varve.Wal.Encoding
import Varve.Engine.Partition
import Varve.Engine.Pages
import Varve.Engine.Projection
import Varve.Engine.Packing
import Varve.Engine.Accounting
import Varve.Engine.Hydration
import Varve.Memory.Budget
import Varve.Memory.Safety
import Varve.Rollup.Source
import Varve.Rollup.Summary
import Varve.Rollup.Tracks
import Varve.Rollup.Safety
import Varve.Rollup.Index
import Varve.Store.Segments
import Varve.Store.Machine
import Varve.Store.Records
import Varve.Store.Safety
import Varve.Store.Moves
import Varve.Store.Steps
import Varve.Store.Compaction
import Varve.Store.Scan
import Varve.Store.Retention
import Varve.Jobs.Runtime
import Varve.Jobs.Machine
import Varve.Jobs.Safety
import Varve.Query.Lexical
import Varve.Query.Guard
import Varve.Query.Plan
import Varve.Query.Pruning
import Varve.Store.Queries
import Varve.Lib.Effect
import Varve.Lib.Inodes
import Varve.Dependency.Batch
import Varve.Dependency.Durability
import Varve.Commit.Driver
import Varve.Commit.Attempts
import Varve.Commit.Rounds
import Varve.Commit.Batching
import Varve.Query.Scan
import Varve.Control.Call
import Varve.Lib.Selection
import Varve.Remote.Keys
import Varve.Remote.Listing
import Varve.Remote.Paging
import Varve.Typescript.Client
import Varve.Typescript.Ledger
import Varve.Typescript.Settlement
import Varve.Lib.JsonSizes
import Varve.Lib.Growth
import Varve.Wal.Admission
import Varve.Commit.Admission
import Varve.Ingest.Workers
import Varve.Ingest.Registry
import Varve.Ingest.Groups
import Varve.Ingest.Outcomes
import Varve.Ingest.Progress
