import CloudyNeigh.LogStreamLinear
import CloudyNeigh.QueryLoaderAtomic
import CloudyNeigh.QueryLoaderConverge
import CloudyNeigh.IngestCheckpoints
import CloudyNeigh.IngestCoverage
import CloudyNeigh.Bufio
import CloudyNeigh.Checked
import CloudyNeigh.IngestRegister
import CloudyNeigh.LocalGeneration
import CloudyNeigh.LocalStore
import CloudyNeigh.LocalStoreCas
import CloudyNeigh.LogStreamIsolation
import CloudyNeigh.LogStreamReadback
import CloudyNeigh.QueryDocuments
import CloudyNeigh.QueryHits
import CloudyNeigh.QueryInvariant
import CloudyNeigh.QueryRanking
import CloudyNeigh.RecordIOBuffered
import CloudyNeigh.RecordIOExact
import CloudyNeigh.RecordIOTorn
import CloudyNeigh.EndToEnd
import CloudyNeigh.IngestFork
import CloudyNeigh.IngestRegistration
import CloudyNeigh.BranchCatalog
import CloudyNeigh.Crc
import CloudyNeigh.FloatGrid
import CloudyNeigh.HalfFloat
import CloudyNeigh.Lanes
import CloudyNeigh.LogStreamHead
import CloudyNeigh.QueryAlike
import CloudyNeigh.QueryErase
import CloudyNeigh.RecordIOBurst
import CloudyNeigh.RecordIOSkip
import CloudyNeigh.TenantActive
import CloudyNeigh.VectorKernels
import CloudyNeigh.GcsStore
import CloudyNeigh.KeyLayout
import CloudyNeigh.LogStreamCodec
import CloudyNeigh.RangeRead
import CloudyNeigh.QueryHeapEngine
import CloudyNeigh.RecordIOSink
import CloudyNeigh.IngestShutdown
import CloudyNeigh.TenantCache
import CloudyNeigh.TenantList
import CloudyNeigh.LocalStoreReference
import CloudyNeigh.GcsStoreReference
import CloudyNeigh.ServerRun
import CloudyNeigh.TenantRegistry
import CloudyNeigh.Endpoints
