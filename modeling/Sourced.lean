import Sourced.Program
import Sourced.Interleaving
import Sourced.Numbering
import Sourced.EventRecord
import Sourced.Entity
import Sourced.Upcaster
import Sourced.RepositoryError
import Sourced.EventStore
import Sourced.SnapshotStore
import Sourced.Repository
import Sourced.Aggregate
import Sourced.QueuedRepository
import Sourced.AggregateRepository
import Sourced.SnapshotRepository
import Sourced.KnownStreams
import Sourced.CommitHistory
import Sourced.BatchCommit
import Sourced.EventMethod
import Sourced.ReplayFaithful
import Sourced.SnapshotLoading
import Sourced.LockHistory
import Sourced.QueuedSessions
import Sourced.LockOwnership
import Sourced.LockingReads
import Sourced.LockingSearches
import Sourced.TypedSearches
import Sourced.LockOrder
import Sourced.OutboxMessage
import Sourced.OutboxWorker
import Sourced.OutboxSearches
import Sourced.OutboxStories
import Sourced.OutboxMachine
import Sourced.OutboxHistory
import Sourced.OutboxLeases
import Sourced.Bus
import Sourced.OutboxWorkerThread
import Sourced.ReadModels
import Sourced.CommitBuilder
import Sourced.ViewSync
import Sourced.FailedCommits
import Sourced.Cursor
import Sourced.InMemoryQueue
import Sourced.FanOut
import Sourced.Microsvc
import Sourced.PointToPoint
import Sourced.DerivedSnapshot
import Sourced.ReadModelStore
import Sourced.ReadModelVersions
import Sourced.QueuedReadModels
import Sourced.ReadModelCollections
import Sourced.ReadModelSessions
import Sourced.ComposedSessions
import Sourced.Transports
import Sourced.OutboxContent
import Sourced.OutboxClaims
import Sourced.OutboxRebuild
import Sourced.OutboxBatches
import Sourced.OutboxRetries
import Sourced.SharedOutbox
import Sourced.Deliveries
import Sourced.Stepping
import Sourced.Upcasting
import Sourced.EmptyCommits
import Sourced.EntityBookkeeping
import Sourced.Receivers
import Sourced.QueueClears
import Sourced.ManualLocks
import Sourced.ReadModelSearches
import Sourced.SnapshotVersions
import Sourced.SnapshotFrequency
import Sourced.SnapshotOrder
import Sourced.ChainingOrder
import Sourced.Enqueueing
import Sourced.OutboxPanics
import Sourced.JsonValue
import Sourced.RecordJson
import Sourced.Monitor
import Sourced.InMemoryLock
import Sourced.Monitored
import Sourced.InMemoryLockManager
import Sourced.LockedSessions
import Sourced.Noted
import Sourced.SerialCalls
import Sourced.Subscribing
import Sourced.Pipeline
import Sourced.Draining
import Sourced.TypedEvents
import Sourced.DerivedReadModel
import Sourced.SerialSnapshots
import Sourced.MethodMacros
import Sourced.KeptFields
import Sourced.EntityJson
