import RoleAccess.Binary64.Basic
import RoleAccess.Binary64.Reading
import RoleAccess.Binary64.Shortest
import RoleAccess.Binary64.Text
import RoleAccess.Cache.Backend
import RoleAccess.Cache.Expiry
import RoleAccess.Cache.Memory
import RoleAccess.Cache.Recency
import RoleAccess.Cache.Sweeper
import RoleAccess.Command.Arguments
import RoleAccess.Command.Basic
import RoleAccess.Command.Check
import RoleAccess.Command.Program
import RoleAccess.Command.Query
import RoleAccess.Config.Basic
import RoleAccess.Config.Files
import RoleAccess.Config.Loading
import RoleAccess.Config.Record
import RoleAccess.Config.Setting
import RoleAccess.Fault
import RoleAccess.Permission.Basic
import RoleAccess.Permission.Dialect
import RoleAccess.Permission.Matching
import RoleAccess.Permission.Record
import RoleAccess.Permission.Short
import RoleAccess.Role.Ancestry
import RoleAccess.Role.Audit
import RoleAccess.Role.Basic
import RoleAccess.Role.Descent
import RoleAccess.Role.Graph
import RoleAccess.Role.Inheritance
import RoleAccess.Role.Record
import RoleAccess.Role.Resolver
import RoleAccess.Role.Roster
import RoleAccess.Role.RosterFile
import RoleAccess.Role.Snapshot
import RoleAccess.Role.Source
import RoleAccess.Role.Unmet
import RoleAccess.Text.Blank
import RoleAccess.Text.CaseTable
import RoleAccess.Text.Cut
import RoleAccess.Text.Digits
import RoleAccess.Text.Glob
import RoleAccess.Text.Lowercase
import RoleAccess.Text.Span
import RoleAccess.Toml.Basic
import RoleAccess.Toml.Datetime
import RoleAccess.Toml.Outline
import RoleAccess.Toml.Quoted
import RoleAccess.Toml.Reader
import RoleAccess.Toml.Scalar
import RoleAccess.Value.Basic
import RoleAccess.Value.Number
import RoleAccess.Value.Reader
import RoleAccess.Value.Record
import RoleAccess.Value.Writer
import RoleAccess.Main
import RoleAccess.Proofs.Cache.RecencyChain
import RoleAccess.Proofs.Cache.RecencyEntries
import RoleAccess.Proofs.Cache.RecencyViews
import RoleAccess.Proofs.Cache.EntryLookups
import RoleAccess.Proofs.Cache.OccupiedSlots
import RoleAccess.Proofs.Cache.RecencyRuns
import RoleAccess.Proofs.Cache.RecencyInclusion
import RoleAccess.Proofs.Cache.DueQueue
import RoleAccess.Proofs.Cache.LeaseSteps
import RoleAccess.Proofs.Cache.LeaseRuns
import RoleAccess.Proofs.Cache.Contents
import RoleAccess.Proofs.Cache.TagIndex
import RoleAccess.Proofs.Cache.Standing
import RoleAccess.Proofs.Cache.Agreement
import RoleAccess.Proofs.Cache.Readings
import RoleAccess.Proofs.Role.Lineage
import RoleAccess.Proofs.Role.FirstOccurrences
import RoleAccess.Proofs.Role.Loading
import RoleAccess.Proofs.Role.Coherence
import RoleAccess.Proofs.Role.Session
import RoleAccess.Proofs.Role.Heights
import RoleAccess.Proofs.Role.UpwardWalk
import RoleAccess.Proofs.Role.StrictAncestry
import RoleAccess.Proofs.Role.PlainWalk
import RoleAccess.Proofs.Role.LenientWalk
import RoleAccess.Proofs.Role.LenientHeight
import RoleAccess.Proofs.Role.PathSearch
import RoleAccess.Proofs.Role.ShortestPaths
import RoleAccess.Proofs.Role.Predecessors
import RoleAccess.Proofs.Role.Discovery
import RoleAccess.Proofs.Role.ValidatedEdges
import RoleAccess.Proofs.Command.CheckDecision
import RoleAccess.Proofs.Permission.BestMatch
import RoleAccess.Proofs.Text.Casing
import RoleAccess.Proofs.Text.Trimming
import RoleAccess.Proofs.Permission.Segments
import RoleAccess.Proofs.Permission.ShortForm
import RoleAccess.Proofs.Permission.FieldSegments
import RoleAccess.Proofs.Role.Hops
import RoleAccess.Proofs.Role.Descendants
import RoleAccess.Proofs.Role.Audits
import RoleAccess.Proofs.Command.AuditReport
import RoleAccess.Proofs.Role.Staleness
import RoleAccess.Proofs.Permission.OpenPatterns
import RoleAccess.Proofs.Permission.TokenReading
import RoleAccess.Proofs.Permission.RoundTrip
import RoleAccess.Proofs.Permission.NormalForm
import RoleAccess.Proofs.Text.GlobPieces
import RoleAccess.Proofs.Cache.Removal
import RoleAccess.Proofs.Cache.TagRemoval
import RoleAccess.Proofs.Role.Invalidation
import RoleAccess.Proofs.Role.Ancestorship
import RoleAccess.Proofs.Permission.ScopeGrants
import RoleAccess.Proofs.Role.EmptyCaches
import RoleAccess.Proofs.Role.Contributors
import RoleAccess.Proofs.Role.Precedence
import RoleAccess.Proofs.Role.BreadthFirst
import RoleAccess.Proofs.Role.FailedLookups
import RoleAccess.Proofs.Role.SimpleWays
import RoleAccess.Proofs.Cache.UpcomingDeadlines
import RoleAccess.Proofs.Cache.RemainingSeconds
import RoleAccess.Proofs.Cache.QueueLength
import RoleAccess.Proofs.Permission.MoreContext
import RoleAccess.Proofs.Cache.Statistics
