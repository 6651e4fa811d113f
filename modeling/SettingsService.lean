import SettingsService.Interaction
import SettingsService.Traces
import SettingsService.Purge
import SettingsService.Deadlines
import SettingsService.OptimisticLock
import SettingsService.OrderedMap
import SettingsService.Json
import SettingsService.MergePatch
import SettingsService.AuthModel
import SettingsService.SettingsModel
import SettingsService.PgTable
import SettingsService.Pagination
import SettingsService.PgSettings
import SettingsService.Service
import SettingsService.Interleaving
import SettingsService.Serializable
import SettingsService.Runs
import SettingsService.ETagRuns
import SettingsService.Readable
import SettingsService.TenantIsolation
import SettingsService.Jwt
import SettingsService.AuthService
import SettingsService.TokenAcceptance
import SettingsService.Http
import SettingsService.SettingsRest
import SettingsService.ListSettings
import SettingsService.RateLimiter
import SettingsService.Config
import SettingsService.Router
import SettingsService.Subruns
import SettingsService.Erasure
import SettingsService.Settling
import SettingsService.ServiceRuns
import SettingsService.WriteTraces
import SettingsService.Linearizable
import SettingsService.RouterTraces
import SettingsService.Mediation
import SettingsService.RouterRuns
import SettingsService.TenantRuns
import SettingsService.RouterUpdates
import SettingsService.RouterLimits
import SettingsService.RouterSessions
import SettingsService.Visibility
import SettingsService.WriteScope
import SettingsService.ReadWrite
import SettingsService.Races
import SettingsService.SettingsMap
import SettingsService.Confinement
import SettingsService.RestRequests
import SettingsService.RestMap
import SettingsService.PatchLaws
import SettingsService.Notify
import SettingsService.Notifications
import SettingsService.NotifyOrder
import SettingsService.NotifyingRuns
import SettingsService.NotifyStream
import SettingsService.JwksRuns
import SettingsService.ServedKeys
import SettingsService.SessionIsolation
import SettingsService.UpdatedAt
import SettingsService.Slices
import SettingsService.Paging
import SettingsService.VersionCounter
import SettingsService.ConditionalWrites
import SettingsService.PatchFrame
import SettingsService.Urlencoded
import SettingsService.WebLinks
import SettingsService.PageLinks
import SettingsService.LinkWalk
import SettingsService.SearchPanics
import SettingsService.TextSearch
import SettingsService.InternalErrors
import SettingsService.RateLimiterRuns
import SettingsService.RevocationRuns
import SettingsService.Ndjson
import SettingsService.TraceContext
import SettingsService.ETag
import SettingsService.Topics
import SettingsService.Deployment
import SettingsService.DemoPublisher
import SettingsService.DeployedNotices
