import OffsetStore.Store
import OffsetStore.AllocatorRuns
import OffsetStore.ShardLocks
import OffsetStore.StoreLife
import OffsetStore.Publication
import OffsetStore.NamedTables
import OffsetStore.PositionIndependence
import OffsetStore.DynArrayRuns
import OffsetStore.DynListRuns
import OffsetStore.Lib.RobustMutex
import OffsetStore.RingBufRuns
import OffsetStore.RequestSizes
import OffsetStore.FreeChecks
import OffsetStore.RacingFrees
import OffsetStore.ContainerSessions
import OffsetStore.RingLength
import OffsetStore.ContainerSizes
import OffsetStore.HeapReleases
import OffsetStore.FailedCreates
import OffsetStore.ListDestroy
import OffsetStore.AllocErrors
import OffsetStore.PayloadAddresses
import OffsetStore.Reuse
import OffsetStore.RefusedAlignments
import OffsetStore.FailedFrees
import OffsetStore.InitFailures
import OffsetStore.ValidatedHeap
import OffsetStore.TableMap
import OffsetStore.BlockPlaces
import OffsetStore.HeapStatistics
import OffsetStore.SpanLookups
import OffsetStore.ShardTracker
import OffsetStore.ContainerDestroys
import OffsetStore.EarlyAttach
import OffsetStore.LockHierarchy
import OffsetStore.ExamplePrograms
import OffsetStore.ConcurrentTables
