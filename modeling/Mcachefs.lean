import Mcachefs.CBuffer
import Mcachefs.CString
import Mcachefs.CachePath
import Mcachefs.CleanupBacking
import Mcachefs.Config
import Mcachefs.File.Descriptors
import Mcachefs.File.Freshen
import Mcachefs.File.Mfile
import Mcachefs.File.Timeslices
import Mcachefs.File.UseCounts
import Mcachefs.File.Writes
import Mcachefs.File.WritesTracked
import Mcachefs.Journal.Append
import Mcachefs.Journal.Apply
import Mcachefs.Journal.AttributeReplay
import Mcachefs.Journal.Entry
import Mcachefs.Journal.FailedAppend
import Mcachefs.Journal.NamesReplay
import Mcachefs.Journal.Pending
import Mcachefs.Journal.Rebuild
import Mcachefs.Journal.Retry
import Mcachefs.Journal.RoundTrip
import Mcachefs.Journal.SyncCycle
import Mcachefs.Library.Bytes
import Mcachefs.Library.Exchanges
import Mcachefs.Library.LinkedList
import Mcachefs.Library.LockOrder
import Mcachefs.Library.Namespace
import Mcachefs.Library.Postorder
import Mcachefs.Library.Preorder
import Mcachefs.Library.RedBlack
import Mcachefs.Library.Runs
import Mcachefs.Library.SiblingForest
import Mcachefs.Lowlevel.Callbacks
import Mcachefs.Lowlevel.DirectoryListing
import Mcachefs.Lowlevel.FailedCallbacks
import Mcachefs.Lowlevel.IntactTrees
import Mcachefs.Lowlevel.LinkedFiles
import Mcachefs.Lowlevel.Lookups
import Mcachefs.Lowlevel.NamesReplayed
import Mcachefs.Lowlevel.NamesRuns
import Mcachefs.Lowlevel.SourceFiles
import Mcachefs.Lowlevel.SourceIdentity
import Mcachefs.Lowlevel.VirtualNames
import Mcachefs.Metadata.Calls
import Mcachefs.Metadata.CollisionCheck
import Mcachefs.Metadata.DirectoryReads
import Mcachefs.Metadata.Entry
import Mcachefs.Metadata.FailedCalls
import Mcachefs.Metadata.FetchSubtree
import Mcachefs.Metadata.FetchWalk
import Mcachefs.Metadata.Fetching
import Mcachefs.Metadata.Fill
import Mcachefs.Metadata.FillRuns
import Mcachefs.Metadata.FullPaths
import Mcachefs.Metadata.HardLinks
import Mcachefs.Metadata.HashDump
import Mcachefs.Metadata.HashGrowth
import Mcachefs.Metadata.HashInsert
import Mcachefs.Metadata.HashLookup
import Mcachefs.Metadata.HashPromotion
import Mcachefs.Metadata.HashRekey
import Mcachefs.Metadata.HashRemove
import Mcachefs.Metadata.HashRepair
import Mcachefs.Metadata.HashStore
import Mcachefs.Metadata.HashSwap
import Mcachefs.Metadata.LazyLookup
import Mcachefs.Metadata.Lookup
import Mcachefs.Metadata.Metafile
import Mcachefs.Metadata.MetafileBlocks
import Mcachefs.Metadata.MetafileMounts
import Mcachefs.Metadata.MetafilePointers
import Mcachefs.Metadata.MetafileRuns
import Mcachefs.Metadata.Moves
import Mcachefs.Metadata.NamedEntries
import Mcachefs.Metadata.Names
import Mcachefs.Metadata.NullPointers
import Mcachefs.Metadata.Operations
import Mcachefs.Metadata.PairedFiles
import Mcachefs.Metadata.Partition
import Mcachefs.Metadata.PathBuffers
import Mcachefs.Metadata.Population
import Mcachefs.Metadata.RecursiveRemoval
import Mcachefs.Metadata.Removal
import Mcachefs.Metadata.Renaming
import Mcachefs.Metadata.Shape
import Mcachefs.Metadata.SharedAttributes
import Mcachefs.Metadata.ShownMoves
import Mcachefs.Metadata.ShownNames
import Mcachefs.Metadata.ShownStart
import Mcachefs.Metadata.SourceDirectories
import Mcachefs.Metadata.SourceTree
import Mcachefs.MetadataFlush
import Mcachefs.Stat
import Mcachefs.Transfer.Backing
import Mcachefs.Transfer.BackingHistory
import Mcachefs.Transfer.CachedLength
import Mcachefs.Transfer.CopyLoop
import Mcachefs.Transfer.CopyResult
import Mcachefs.Transfer.LinkedQueue
import Mcachefs.Transfer.Progress
import Mcachefs.Transfer.Queue
import Mcachefs.Transfer.QueueService
import Mcachefs.Transfer.Serve
import Mcachefs.Transfer.Settling
import Mcachefs.Transfer.ThreadPool
import Mcachefs.Transfer.Windows
import Mcachefs.Vops
import Mcachefs.VopsFile
import Mcachefs.VopsLocks
import Mcachefs.VopsText
