import Datasystem.Coordinator.Leases
import Datasystem.Coordinator.WatchReplay
import Datasystem.Coordinator.BootstrapPlan
import Datasystem.Cluster.FailureBatch
import Datasystem.Cluster.TopologyRepository
import Datasystem.Cluster.FinishedTasks
import Datasystem.SlotClient.SlotCalls
import Datasystem.SlotClient.DeltaReads
import Datasystem.Master.MetaAsyncQueue
import Datasystem.Etcd.EtcdStore
import Datasystem.Coordinator.TopologyKeys
import Datasystem.Metastore.LeaseBinding
import Datasystem.Metastore.WatchStream
import Datasystem.ObjectCache.ShmReferences
import Datasystem.Master.ExpiryScan
import Datasystem.Master.RecoveryMeta
import Datasystem.Master.FailedCreates
import Datasystem.Master.PrimaryLocations
import Datasystem.Master.StoredRecords
import Datasystem.Master.StreamDeletion
import Datasystem.Master.RollbackMeta
import Datasystem.Master.QueueIndex
import Datasystem.Master.NestedRecovery
import Datasystem.Client.WorkerRouter
import Datasystem.Common.ShmCircularQueue
import Datasystem.ObjectCache.DataLimiter
