import Pgfs.Foundation.Effect
import Pgfs.Foundation.Table
import Pgfs.Foundation.Vec
import Pgfs.Foundation.MachineInt
import Pgfs.Path
import Pgfs.Db.Schema
import Pgfs.Db.Connection
import Pgfs.Db.BlockStorage
import Pgfs.Db.Namespace
import Pgfs.Fs.HandleBuffer
import Pgfs.Fs.InodeMaps
import Pgfs.Fs.State
import Pgfs.Fs.Callbacks
import Pgfs.Db.Rules
import Pgfs.Db.Contents
import Pgfs.Db.Reading
import Pgfs.Db.Tree
import Pgfs.Fs.Mount
import Pgfs.Fs.Serving
import Pgfs.Db.Answers
import Pgfs.Foundation.Trace
import Pgfs.Fs.Run
import Pgfs.Inodes.Numbering
import Pgfs.Inodes.Resolving
import Pgfs.Handles.Buffering
import Pgfs.Handles.Batches
import Pgfs.Handles.Ledger
import Pgfs.Handles.Attachment
import Pgfs.Fs.Kernel
import Pgfs.Tree.Owners
import Pgfs.Tree.Coherence
import Pgfs.Db.Calls
import Pgfs.Db.Failures
import Pgfs.Replica.Routing
import Pgfs.Replica.Visibility
import Pgfs.Db.Agreement
import Pgfs.Db.Lockstep
import Pgfs.Db.MethodsInStep
import Pgfs.Replica.Independence
import Pgfs.Replica.Staleness
import Pgfs.Replica.OwnWrites
import Pgfs.Tree.Subtree
import Pgfs.Db.Succeeding
import Pgfs.Fs.RenameGuards
import Pgfs.Foundation.Paging
import Pgfs.Fs.Enumeration
import Pgfs.Foundation.ReadCommitted
import Pgfs.Pool.Statements
import Pgfs.Pool.LostUpdates
import Pgfs.Foundation.Alike
import Pgfs.Foundation.Unwinding
import Pgfs.Db.SideBySide
import Pgfs.Path.Names
import Pgfs.Inodes.Moving
import Pgfs.Handles.Overlay
import Pgfs.Db.Overwriting
import Pgfs.Metrics.Liveness
import Pgfs.Metrics.Histogram
import Pgfs.Metrics.ErrorCounts
import Pgfs.Handles.Fallback
import Pgfs.Handles.Addressing
import Pgfs.Isolation.OneFile
import Pgfs.Isolation.Files
import Pgfs.Db.FlatFile
import Pgfs.Handles.Quietly
import Pgfs.Handles.TruncateOrder
import Pgfs.Handles.WriteBack
import Pgfs.Handles.PendingReads
import Pgfs.Foundation.NameTree
import Pgfs.Namespace.Requests
import Pgfs.Namespace.Representing
import Pgfs.Stored.Rows
import Pgfs.Foundation.Turns
import Pgfs.Fs.Fleet
import Pgfs.Stored.Runs
import Pgfs.Namespace.Renaming
import Pgfs.Foundation.Machine
import Pgfs.Namespace.CachedPaths
import Pgfs.Namespace.Answering
import Pgfs.Namespace.Runs
import Pgfs.Namespace.Listings
import Pgfs.Foundation.Reliance
import Pgfs.Pool.Requests
import Pgfs.Pool.Serving
import Pgfs.Pool.Races
import Pgfs.Foundation.Mirror
import Pgfs.Db.Reordering
import Pgfs.Fs.Reordering
import Pgfs.Process.Daemon
import Pgfs.Process.Shutdown
import Pgfs.Replica.Counters
