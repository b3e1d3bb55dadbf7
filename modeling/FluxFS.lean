import FluxFS.Lib.Rows
import FluxFS.Lib.Txn
import FluxFS.Lib.Word
import FluxFS.Lib.Run
import FluxFS.Types
import FluxFS.Chunk.PackRefines
import FluxFS.Meta.Tables
import FluxFS.Lib.Search
import FluxFS.Lib.Sorted
import FluxFS.Lib.Pages
import FluxFS.Lib.Spread
import FluxFS.Meta.Namespace
import FluxFS.Meta.Data
import FluxFS.Meta.Gc
import FluxFS.Meta.Apply
import FluxFS.Meta.Edits
import FluxFS.Meta.Steps
import FluxFS.Meta.DataSteps
import FluxFS.Meta.Runs
import FluxFS.Meta.Membership
import FluxFS.Meta.Fence
import FluxFS.Lib.Reach
import FluxFS.Meta.Tree
import FluxFS.Meta.Presence
import FluxFS.Meta.Updates
import FluxFS.Meta.Flush
import FluxFS.Client.Handles
import FluxFS.Client.Cluster
import FluxFS.Client.Reclaim
import FluxFS.Meta.References
import FluxFS.Client.Backed
import FluxFS.Client.ReadPath
import FluxFS.Client.Sweep
import FluxFS.Client.Reader
import FluxFS.Meta.RaftTypes
import FluxFS.Meta.Ledger
import FluxFS.Meta.RaftLog
import FluxFS.Meta.StateMachine
import FluxFS.Lib.Frames
import FluxFS.Meta.Snapshot
import FluxFS.Meta.SnapshotInstall
import FluxFS.Meta.Integrity
import FluxFS.Client.Extents
import FluxFS.Meta.Links
import FluxFS.Meta.Rename
import FluxFS.Meta.Rollback
import FluxFS.Meta.Tombstones
import FluxFS.Meta.Names
import FluxFS.Meta.Xattrs
import FluxFS.Client.Paths
import FluxFS.Client.Imports
import FluxFS.Client.Readdir
import FluxFS.Chunk.Device
import FluxFS.Chunk.Recovery
import FluxFS.Chunk.Inventory
import FluxFS.Chunk.Crash
import FluxFS.Chunk.Placement
import FluxFS.Chunk.Remote
import FluxFS.Chunk.Walk
import FluxFS.Chunk.Listing
import FluxFS.Chunk.Repair
import FluxFS.Chunk.Put
import FluxFS.Chunk.RepairRun
import FluxFS.Chunk.RepairExact
import FluxFS.Auth.Identity
import FluxFS.Auth.OtherName
import FluxFS.Lib.Serde
import FluxFS.Wire.ExtentJson
import FluxFS.Client.DataPath
import FluxFS.Client.FileBytes
import FluxFS.Client.Contents
import FluxFS.Wire.Digest
import FluxFS.Wire.Keys
import FluxFS.Ufs.PartCache
import FluxFS.Ufs.Publish
import FluxFS.Client.FileModel
import FluxFS.Client.Flusher
import FluxFS.Client.WriteBack
