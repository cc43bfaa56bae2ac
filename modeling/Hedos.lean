import Hedos.Governor.StrictSingle
import Hedos.Governor.Settle
import Hedos.Governor.Deadlock
import Hedos.Governor.Eviction
import Hedos.Governor.Accounting
import Hedos.Governor.IdleTimers
import Hedos.Kernel.RegistryLinear
import Hedos.Jobs.History
import Hedos.Jobs.Observed
import Hedos.Sidecar.Generations
import Hedos.Sidecar.WholeResult
import Hedos.Install.Sweep
import Hedos.Install.PullCancel
import Hedos.Install.PullSingle
import Hedos.Install.PullIds
import Hedos.Install.Reference
import Hedos.Discovery.StaleView
import Hedos.Discovery.Removals
import Hedos.Discovery.Samples
import Hedos.Discovery.Identical
import Hedos.Discovery.PassedLinks
import Hedos.Capabilities.PythonFilters
import Hedos.Artifacts.ErrorsKeep
import Hedos.Engines.CrashAtomic
import Hedos.Upstream.Reassembly
import Hedos.Adapters.OneServer
import Hedos.Manifests.CommunityExact
import Hedos.Install.CleanUp
import Hedos.Install.MeterAddsUp
import Hedos.Install.OllamaOutcome
import Hedos.Environments.Builds
import Hedos.Capabilities.StopChunks
import Hedos.Adapters.ToolScanner
import Hedos.Adapters.EmbeddingBatches
import Hedos.Sidecar.Alignment
import Hedos.Sidecar.Handover
import Hedos.Gateway.AuditCount
import Hedos.Gateway.Resolver
import Hedos.Gateway.Agreement
import Hedos.Gateway.BlockOrder
import Hedos.Gateway.Served
import Hedos.Auction.Migration
import Hedos.Config.Store
import Hedos.Manifests.Consent
import Hedos.Resolution.IdentificationCache
import Hedos.Profiles.Verdicts
import Hedos.Profiles.Configuration
import Hedos.Manifests.Arguments
import Hedos.Audio.SameSamples
import Hedos.Discovery.CountedOnce
import Hedos.Discovery.GgufShards
import Hedos.Install.PullEvents
import Hedos.Adapters.GrammarMembers
import Hedos.Discovery.FreedBytes
import Hedos.Resolution.GgufComplete
import Hedos.Resolution.KvCache
import Hedos.Discovery.OllamaRemoval
import Hedos.Kernel.Upgrade
import Hedos.Cli.Wrap
