import AccessManagement.Index.LazyDimension
import AccessManagement.Index.Scan
import AccessManagement.Storage.DirWatch
import AccessManagement.Storage.Git
import AccessManagement.Storage.BlobRun
import AccessManagement.Manager.Scopes
import AccessManagement.Manager.DerivedRoles
import AccessManagement.Check.ConditionCache
import AccessManagement.Check.Independence
import AccessManagement.Plan.Completeness
import AccessManagement.Plan.Merge
import AccessManagement.Plan.Replace
import AccessManagement.Authzen.Batch
import AccessManagement.Estate.Properties
import AccessManagement.Mcp.FailClosed
import AccessManagement.Audit.LocalLog
import AccessManagement.Audit.HubSync
import AccessManagement.Manager.Overlay
import AccessManagement.Manager.ScopeNames
import AccessManagement.Schema.Manager
import AccessManagement.Storage.DbUnits
import AccessManagement.Index.ParamsCache
import AccessManagement.Conditions.Hierarchy
import AccessManagement.Storage.Breaker
import AccessManagement.Storage.HubList
import AccessManagement.Parser.Integers
import AccessManagement.Authzen.AuxData
import AccessManagement.Manager.Ancestors
import AccessManagement.Storage.Closure
