import ArtifactKeeper.Machine
import ArtifactKeeper.Result
import ArtifactKeeper.Bytes
import ArtifactKeeper.Text
import ArtifactKeeper.IpAddr
import ArtifactKeeper.Marshal
import ArtifactKeeper.Chunking
import ArtifactKeeper.Traced
import ArtifactKeeper.ByteReader
import ArtifactKeeper.Search
import ArtifactKeeper.RowLocks
import ArtifactKeeper.Occurrence
import ArtifactKeeper.JsonValue
import ArtifactKeeper.Auth.Claims
import ArtifactKeeper.Auth.Jti
import ArtifactKeeper.Auth.ApiToken
import ArtifactKeeper.Auth.Refresh
import ArtifactKeeper.Auth.Watermark
import ArtifactKeeper.Auth.ApiTokenCache
import ArtifactKeeper.Auth.Login
import ArtifactKeeper.Auth.Rotation
import ArtifactKeeper.Auth.Lockout
import ArtifactKeeper.Wildcard
import ArtifactKeeper.Auth.SelectorScope
import ArtifactKeeper.SyncCode
import ArtifactKeeper.Auth.LikeBytes
import ArtifactKeeper.EditDistance
import ArtifactKeeper.Curation.Reevaluation
import ArtifactKeeper.Curation.Typosquat
import ArtifactKeeper.Curation.VersionRange
import ArtifactKeeper.Gc.Blob
import ArtifactKeeper.Gc.Orphans
import ArtifactKeeper.Gc.Cascade
import ArtifactKeeper.Gc.UploadCleanup
import ArtifactKeeper.Gc.Collect
import ArtifactKeeper.Gc.CollectExact
import ArtifactKeeper.Oci.Ceiling
import ArtifactKeeper.Sync.Tasks
import ArtifactKeeper.Sync.Worker
import ArtifactKeeper.Sync.Claims
import ArtifactKeeper.Sync.Attempts
import ArtifactKeeper.Sync.UploadSession
import ArtifactKeeper.Sync.ChunkPlan
import ArtifactKeeper.Sync.TransferSession
import ArtifactKeeper.Oci.Upload
import ArtifactKeeper.Oci.UploadIntegrity
import ArtifactKeeper.Oci.ReferencedContent
import ArtifactKeeper.Oci.ReferencedComplete
import ArtifactKeeper.CursorPages
import ArtifactKeeper.Oci.TagPages
import ArtifactKeeper.Repositories.VirtualMembers
import ArtifactKeeper.Repositories.UsageLedger
import ArtifactKeeper.Repositories.UsageExact
import ArtifactKeeper.Repositories.QuotaAdmission
import ArtifactKeeper.Maven.FlatKeys
import ArtifactKeeper.AgeGate.Policy
import ArtifactKeeper.AgeGate.Packument
import ArtifactKeeper.AgeGate.PackumentFrame
import ArtifactKeeper.PlaceOrder
import ArtifactKeeper.AgeGate.VersionOrder
import ArtifactKeeper.AgeGate.SimpleIndex
import ArtifactKeeper.AgeGate.ReviewEvents
import ArtifactKeeper.Promotion.Gates
import ArtifactKeeper.Promotion.ScanOrder
import ArtifactKeeper.Uploads.Session
import ArtifactKeeper.Uploads.TerminalStatus
import ArtifactKeeper.Uploads.Sealed
import ArtifactKeeper.Uploads.ChunkRange
import ArtifactKeeper.Uploads.Finalize
import ArtifactKeeper.Uploads.ChunkPartition
import ArtifactKeeper.Uploads.ArtifactPath
import ArtifactKeeper.PaddedLex
import ArtifactKeeper.Maven.VersionOrder
import ArtifactKeeper.Maven.VersionEquality
import ArtifactKeeper.Maven.TrailingZeros
import ArtifactKeeper.SlotRegistry
import ArtifactKeeper.TtlCache
import ArtifactKeeper.Shares
import ArtifactKeeper.Npm.PackumentCache
import ArtifactKeeper.Npm.RedisEntry
import ArtifactKeeper.Pypi.VersionGrammar
import ArtifactKeeper.Pypi.CanonicalVersion
import ArtifactKeeper.Pypi.VersionTokens
import ArtifactKeeper.Pypi.VersionReading
import ArtifactKeeper.Pypi.VersionEquality
import ArtifactKeeper.Proxy.Hydration
import ArtifactKeeper.Proxy.StreamFanout
import ArtifactKeeper.Segments
import ArtifactKeeper.Proxy.CacheClassifier
import ArtifactKeeper.ReplaceAll
import ArtifactKeeper.Proxy.RoutingRules
import ArtifactKeeper.LookRegex
import ArtifactKeeper.Proxy.WholePath
import ArtifactKeeper.RateLimit.FixedWindow
import ArtifactKeeper.RateLimit.ClientIp
import ArtifactKeeper.TokenBucket
import ArtifactKeeper.RateLimit.EmailDispatch
import ArtifactKeeper.Permissions.Rules
import ArtifactKeeper.Permissions.Cache
import ArtifactKeeper.Ingest.TenantPermits
import ArtifactKeeper.Ingest.BudgetReader
import ArtifactKeeper.Glob
import ArtifactKeeper.Curation.NameFold
import ArtifactKeeper.Curation.FoldedRules
import ArtifactKeeper.Quarantine.Hold
import ArtifactKeeper.Lifecycle.Policy
import ArtifactKeeper.Lifecycle.Retention
import ArtifactKeeper.ShortestPrefix
import ArtifactKeeper.Lifecycle.SizeQuota
import ArtifactKeeper.Outbound.Ssrf
import ArtifactKeeper.Debian.Release
import ArtifactKeeper.Debian.Control
import ArtifactKeeper.Debian.Packages
import ArtifactKeeper.Debian.VirtualDists
import ArtifactKeeper.PercentEncoding
import ArtifactKeeper.Debian.EncodedSeparator
import ArtifactKeeper.Rubygems.MarshalWriter
import ArtifactKeeper.Rubygems.MarshalReadBack
import ArtifactKeeper.Rubygems.MarshalSize
import ArtifactKeeper.Rubygems.MarshalDocuments
import ArtifactKeeper.YamlText
import ArtifactKeeper.Rubygems.AliasScan
import ArtifactKeeper.Rubygems.AliasScanPieces
import ArtifactKeeper.Rubygems.GemspecYaml
import ArtifactKeeper.Rubygems.AliasScanComplete
import ArtifactKeeper.Loop
import ArtifactKeeper.ErlangTerm
import ArtifactKeeper.Hex.Requirements
import ArtifactKeeper.Hex.RequirementsReadBack
import ArtifactKeeper.Debian.DistsGate
import ArtifactKeeper.Go.ModFile
import ArtifactKeeper.Go.ModGrammar
import ArtifactKeeper.Go.ModReading
import ArtifactKeeper.Go.ModEntries
import ArtifactKeeper.Go.ModAttribution
import ArtifactKeeper.UpstreamFeed.Consumer
import ArtifactKeeper.ClusterWork.SchedulerLease
import ArtifactKeeper.Rpm.Repodata
import ArtifactKeeper.Rpm.RepodataCache
import ArtifactKeeper.Rpm.RepodataSingleFlight
import ArtifactKeeper.Rpm.RepodataFreshness
import ArtifactKeeper.Downloads.EventDispatch
import ArtifactKeeper.BitGroups
import ArtifactKeeper.Auth.Base64
import ArtifactKeeper.GreedyPieces
import ArtifactKeeper.CacheInvalidation.RepoCache
import ArtifactKeeper.CacheInvalidation.Payloads
import ArtifactKeeper.Webhooks.Deliveries
import ArtifactKeeper.Webhooks.Claims
import ArtifactKeeper.Webhooks.Attempts
import ArtifactKeeper.Webhooks.DeadLetters
import ArtifactKeeper.Webhooks.Signing
import ArtifactKeeper.Webhooks.SecretRotation
