import ProxyCache.Lib.Program
import ProxyCache.Lib.Outline
import ProxyCache.Lib.Trace
import ProxyCache.Lib.Replay
import ProxyCache.Lib.Observe
import ProxyCache.Lib.Flow
import ProxyCache.Lib.Locking
import ProxyCache.Lib.Simulation
import ProxyCache.Lib.History
import ProxyCache.Lib.Expiring
import ProxyCache.Lib.Negotiation
import ProxyCache.Lib.TaskQueue
import ProxyCache.Lib.Uri
import ProxyCache.Lib.Lua
import ProxyCache.Lib.LittleEndian
import ProxyCache.Lib.Zip
import ProxyCache.Lib.StableSort
import ProxyCache.Python.Text
import ProxyCache.Python.Url
import ProxyCache.Python.UrlSplit
import ProxyCache.Python.UrlFragment
import ProxyCache.Python.Percent
import ProxyCache.Python.Sha256
import ProxyCache.Python.Json
import ProxyCache.Python.JsonText
import ProxyCache.Python.Asyncio
import ProxyCache.Python.Semaphore
import ProxyCache.App.Config
import ProxyCache.App.Models
import ProxyCache.App.Parse
import ProxyCache.App.Artifacts
import ProxyCache.App.Accept
import ProxyCache.App.Ttl
import ProxyCache.App.Effects
import ProxyCache.App.Metadata
import ProxyCache.App.SimpleProject
import ProxyCache.App.SimpleIndex
import ProxyCache.App.MetadataRoute
import ProxyCache.App.Rules
import ProxyCache.App.BackgroundRules
import ProxyCache.App.CallRules
import ProxyCache.App.Systems
import ProxyCache.App.Batches
import ProxyCache.App.Service
import ProxyCache.App.WheelMetadata
import ProxyCache.App.WheelArchive
import ProxyCache.App.Keys
import ProxyCache.App.SingleFlight
import ProxyCache.App.Redis
import ProxyCache.App.Cache
import ProxyCache.App.CachedService
import ProxyCache.App.Queues
import ProxyCache.App.IdleGate
import ProxyCache.Theorems.RangeReads
import ProxyCache.Theorems.Revalidation
import ProxyCache.Theorems.KeySeparation
import ProxyCache.Theorems.Freshness
import ProxyCache.Theorems.GateDrain
import ProxyCache.Theorems.Commits
import ProxyCache.Theorems.LostUpdate
import ProxyCache.Theorems.Allowlist
import ProxyCache.Theorems.KeyedMutex
import ProxyCache.Theorems.Backends
import ProxyCache.Theorems.Connection
import ProxyCache.Theorems.Outages
import ProxyCache.Theorems.JsonPassthrough
import ProxyCache.Theorems.RangeServer
import ProxyCache.Theorems.WheelFormat
import ProxyCache.Theorems.WheelDirectory
import ProxyCache.Theorems.WheelExtraction
import ProxyCache.Theorems.SuffixWindow
import ProxyCache.Theorems.StoredMetadata
import ProxyCache.Theorems.Stampede
import ProxyCache.Theorems.WheelRoundTrip
import ProxyCache.Theorems.LinkRoundTrip
import ProxyCache.Theorems.MalformedLinks
import ProxyCache.Theorems.AdvertisedDocument
import ProxyCache.Theorems.AdvertisedPage
import ProxyCache.Theorems.ServedFormat
import ProxyCache.Theorems.BackgroundQueues
import ProxyCache.Theorems.ExtractedOnce
import ProxyCache.Theorems.Readiness
import ProxyCache.Theorems.CandidateSelection
import ProxyCache.Theorems.MaxAge
import ProxyCache.Theorems.AllOrNothing
import ProxyCache.Theorems.UnconvertibleEntries
import ProxyCache.Theorems.BadFiles
import ProxyCache.Theorems.Draining
import ProxyCache.Theorems.StoreRefinement
import ProxyCache.Theorems.Traffic
import ProxyCache.Theorems.ReplySources
import ProxyCache.Theorems.FileEvidence
import ProxyCache.Theorems.HandOver
import ProxyCache.Theorems.IdleGate
import ProxyCache.Theorems.PageFlow
import ProxyCache.Theorems.DocumentRoundTrip
import ProxyCache.Theorems.PageLinks
