import DariyaKyu.Common.Digits
import DariyaKyu.Common.ChecksumBits
import DariyaKyu.Common.VarintGroups
import DariyaKyu.Library.FrameWalk
import DariyaKyu.Library.LastWhere
import DariyaKyu.Library.GuardedRun
import DariyaKyu.Library.ReflectedCrc
import DariyaKyu.Storage.KeyMapRuns
import DariyaKyu.Group.CommitInterleaving
import DariyaKyu.Storage.ReopenedIndex
import DariyaKyu.Storage.BurstDetection
import DariyaKyu.Library.KeyedHistory
import DariyaKyu.Common.FileHandle
import DariyaKyu.Storage.OffsetIndex
import DariyaKyu.Storage.Segment
import DariyaKyu.Storage.PartitionMeta
import DariyaKyu.Storage.Log
import DariyaKyu.Storage.LogCleaner
import DariyaKyu.Storage.SegmentLayout
import DariyaKyu.Storage.SegmentSteps
import DariyaKyu.Storage.SegmentScan
import DariyaKyu.Storage.LogSteps
import DariyaKyu.Storage.LogRuns
import DariyaKyu.Storage.AgeRetention
import DariyaKyu.Storage.FailedAppends
import DariyaKyu.Storage.FailedRemovals
import DariyaKyu.Storage.RecreatedPartition
import DariyaKyu.Storage.OpenRanges
import DariyaKyu.Storage.LogView
import DariyaKyu.Storage.LogManager
import DariyaKyu.Storage.Maintenance
import DariyaKyu.Server.Produce
import DariyaKyu.Storage.BatchCodec
import DariyaKyu.Storage.Rewrite
import DariyaKyu.Storage.Cleaning
import DariyaKyu.Storage.CompactedReads
import DariyaKyu.Library.OrderedMap
import DariyaKyu.Group.GroupCoordinator
import DariyaKyu.Group.Rebalance
import DariyaKyu.Group.MemberIds
import DariyaKyu.Group.GroupInvariants
import DariyaKyu.Group.Assignments
import DariyaKyu.Group.JoinResults
import DariyaKyu.Group.Fencing
import DariyaKyu.Server.OffsetCommit
import DariyaKyu.Group.Membership
import DariyaKyu.Group.Settling
import DariyaKyu.Server.CommitFencing
import DariyaKyu.Server.CommitRace
import DariyaKyu.Storage.WholeLogs
import DariyaKyu.Storage.Recovery
import DariyaKyu.Storage.DamagedSegments
import DariyaKyu.Storage.FailedRolls
import DariyaKyu.Storage.Landing
import DariyaKyu.Storage.InterruptedSwap
import DariyaKyu.Server.Fetch
import DariyaKyu.Cli.Consume
import DariyaKyu.Library.NewestByKey
import DariyaKyu.Storage.KeyMapping
import DariyaKyu.Storage.CleanerService
import DariyaKyu.Storage.UniqueKeys
import DariyaKyu.Storage.PassCompletes
import DariyaKyu.Storage.CleaningProgress
import DariyaKyu.Server.CleanedProduce
import DariyaKyu.Storage.TruncatedLogs
import DariyaKyu.Cli.Assignor
import DariyaKyu.Cli.GroupConsumer
import DariyaKyu.Cli.ExclusiveShares
import DariyaKyu.Cli.Coverage
import DariyaKyu.Group.Refusals
import DariyaKyu.Group.SilentMembers
import DariyaKyu.Server.Restarts
import DariyaKyu.Storage.PartitionCreation
import DariyaKyu.Storage.DirectoryScan
import DariyaKyu.Storage.HostedNames
import DariyaKyu.Storage.CleanedView
import DariyaKyu.Storage.PartitionLives
import DariyaKyu.Storage.CleanerRounds
import DariyaKyu.Server.TopicCreation
import DariyaKyu.Group.OffsetsTopic
import DariyaKyu.Server.Connection
import DariyaKyu.Server.HandlerOutcomes
import DariyaKyu.Group.Expiry
import DariyaKyu.Storage.ReservedCounts
import DariyaKyu.Storage.RetentionRule
import DariyaKyu.Storage.BatchRoundTrip
import DariyaKyu.Storage.RecoveredTwin
import DariyaKyu.Storage.SealedView
import DariyaKyu.Storage.RewriteFidelity
import DariyaKyu.Storage.IndexedReads
import DariyaKyu.Storage.IndexDensity
import DariyaKyu.Server.SegmentLimits
import DariyaKyu.Server.ProducedFrames
import DariyaKyu.Server.UntoldMembers
import DariyaKyu.Group.CommitCodec
import DariyaKyu.Storage.MetaCodec
import DariyaKyu.Cli.AssignmentCodec
import DariyaKyu.Cli.RoundTurns
import DariyaKyu.Server.FetchCodec
import DariyaKyu.Server.Messages
import DariyaKyu.Server.ServedFrames
import DariyaKyu.Cli.RemoteCalls
import DariyaKyu.Server.Acknowledgements
import DariyaKyu.Cli.GroupReading
import DariyaKyu.Cli.Terminals
import DariyaKyu.Server.Acceptor
import DariyaKyu.Cli.Dump
