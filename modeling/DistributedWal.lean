import DistributedWal.LittleEndianCodec
import DistributedWal.LabelledRuns
import DistributedWal.WalEntry
import DistributedWal.WalSegment
import DistributedWal.WalEngine
import DistributedWal.WalLifetime
import DistributedWal.WalAppendOnlyList
import DistributedWal.WalSequenceNumbers
import DistributedWal.WalReplay
import DistributedWal.WalTornWrite
import DistributedWal.ReplicatedLog
import DistributedWal.ReplicatedLogContents
import DistributedWal.ReplicatedLogRecovery
import DistributedWal.ReplicatedLogCrashes
import DistributedWal.RaftPersistentState
import DistributedWal.RaftSnapshot
import DistributedWal.RaftNode
import DistributedWal.RaftNodeFrame
import DistributedWal.RaftNodeHandlers
import DistributedWal.RaftNodeVotes
import DistributedWal.Quorums
import DistributedWal.RaftCluster
import DistributedWal.RaftElections
import DistributedWal.LogMatching
import DistributedWal.LogMerge
import DistributedWal.FullLog
import DistributedWal.RaftNodeLogs
import DistributedWal.RaftNodeAppends
import DistributedWal.RaftNodeAgreement
import DistributedWal.RaftNodeAcks
import DistributedWal.RaftNodeReordering
import DistributedWal.RaftNodeLateAppends
import DistributedWal.RaftNodeInstall
import DistributedWal.RaftNodeBacktracking
import DistributedWal.RaftNodeLife
import DistributedWal.RaftNodeMoves
import DistributedWal.RaftNodeJournal
import DistributedWal.RaftNodeWrites
import DistributedWal.RaftNodeRequests
import DistributedWal.RaftNodeSnapshots
import DistributedWal.RaftNodeCommit
import DistributedWal.RaftNodeReads
import DistributedWal.LeaderCompleteness
import DistributedWal.RaftNodeEffects
import DistributedWal.RaftClusterLogs
import DistributedWal.SelfDelimiting
import DistributedWal.WalSegmentParsing
import DistributedWal.WalOpenNumbering
import DistributedWal.RaftSnapshotCodec
import DistributedWal.ReplacedFiles
import DistributedWal.CompactedLog
import DistributedWal.ReplicatedLogRefinement
import DistributedWal.WalFaults
import DistributedWal.WalFailedTruncation
import DistributedWal.WalFailedAppend
import DistributedWal.DecimalNumerals
import DistributedWal.WalSegmentNames
import DistributedWal.DurableLog
import DistributedWal.AtomicReplace
import DistributedWal.WalDisk
import DistributedWal.WalDiskContents
import DistributedWal.WalPowerLoss
import DistributedWal.RaftNodeDurableVotes
import DistributedWal.RaftNodeFailedAppends
import DistributedWal.CheckedArithmetic
import DistributedWal.ReplicatedLogArithmetic
import DistributedWal.RaftNodeArithmetic
import DistributedWal.RaftClusterRuns
import DistributedWal.RaftClusterProgress
import DistributedWal.RaftClusterWrites
import DistributedWal.RaftClusterElectability
import DistributedWal.RaftClusterHints
import DistributedWal.RaftServer
import DistributedWal.RaftServerRefinement
import DistributedWal.RaftServerRequests
import DistributedWal.RaftServerWrites
import DistributedWal.RaftServerResponses
import DistributedWal.RaftClusterSafety
import DistributedWal.RaftClusterHistory
import DistributedWal.RaftClusterOrder
