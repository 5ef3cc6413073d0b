import RepoAudit.Main
import RepoAudit.Proofs.Json.Record
import RepoAudit.Proofs.Snapshot.RoundTrip
import RepoAudit.Proofs.Text.Blank
import RepoAudit.Proofs.Weakness
import RepoAudit.Proofs.FileTree.Frame
import RepoAudit.Proofs.FileTree.Directory
import RepoAudit.Proofs.FileTree.Ancestor
import RepoAudit.Proofs.World.Guard
import RepoAudit.Proofs.World.Sight
import RepoAudit.Proofs.Snapshot.Sound
import RepoAudit.Proofs.Snapshot.Tracking
import RepoAudit.Proofs.Store.Load
import RepoAudit.Proofs.Instant.RoundTrip
import RepoAudit.Proofs.Store.Reload
import RepoAudit.Proofs.Store.Presence
import RepoAudit.Proofs.Snapshot.Evolution
import RepoAudit.Proofs.Session.Evolution
import RepoAudit.Proofs.World.Course
import RepoAudit.Proofs.Succession
import RepoAudit.Proofs.Store.Slug
import RepoAudit.Proofs.Store.Listing
import RepoAudit.Proofs.Placement
import RepoAudit.Proofs.Session.Completion
import RepoAudit.Proofs.Completion
import RepoAudit.Proofs.Store.Route
import RepoAudit.Proofs.Store.Sight
import RepoAudit.Proofs.Store.Sound
import RepoAudit.Proofs.Session.Permits
import RepoAudit.Proofs.Snapshot.Change
import RepoAudit.Proofs.Lifecycle
import RepoAudit.Proofs.Session.Commands
import RepoAudit.Proofs.Isolation
import RepoAudit.Proofs.Pipeline
import RepoAudit.Proofs.Settlement
import RepoAudit.Proofs.Ruby.Call
import RepoAudit.Proofs.Remedy.Command
import RepoAudit.Proofs.Python.Prompt
import RepoAudit.Proofs.Python.Scope
import RepoAudit.Proofs.Remedy.Prompt
import RepoAudit.Proofs.Remedy.Pin
import RepoAudit.Proofs.Remedy.Markup
import RepoAudit.Proofs.Script.Expression
import RepoAudit.Proofs.Scan.Agreement
import RepoAudit.Proofs.Session.Outside
import RepoAudit.Proofs.Abandonment
import RepoAudit.Proofs.Repair
import RepoAudit.Proofs.Diff.Patch
import RepoAudit.Proofs.Script.Tidy
import RepoAudit.Proofs.Script.Extent
import RepoAudit.Proofs.Script.Rewriting
import RepoAudit.Proofs.World.Failing
import RepoAudit.Proofs.Rejection
import RepoAudit.Proofs.Snapshot.Edit
import RepoAudit.Proofs.Session.Edits
import RepoAudit.Proofs.AuditTrail
import RepoAudit.Proofs.Script.Acceptance
import RepoAudit.Proofs.Script.Harmless
import RepoAudit.Proofs.Remedy.Reapplication
import RepoAudit.Proofs.FileTree.Passage
import RepoAudit.Proofs.Store.Resave
import RepoAudit.Proofs.Session.Upkeep
import RepoAudit.Proofs.Snapshot.Legible
import RepoAudit.Proofs.Snapshot.Retracking
import RepoAudit.Proofs.Snapshot.Ingestion
import RepoAudit.Proofs.Ruby.Quoting
import RepoAudit.Proofs.Ruby.Method
import RepoAudit.Proofs.Analysis
import RepoAudit.Proofs.Rescan
import RepoAudit.Proofs.Script.Interpolation
import RepoAudit.Proofs.Remedy.Insertion
import RepoAudit.Proofs.Remedy.Helper
import RepoAudit.Proofs.Remedy.Scope
import RepoAudit.Proofs.Path.Folding
import RepoAudit.Proofs.Path.Below
import RepoAudit.Proofs.Staging
import RepoAudit.Proofs.Json.Extent
import RepoAudit.Proofs.Tool.Banner
import RepoAudit.Proofs.Ruby.Parameters
import RepoAudit.Proofs.Remedy.Guard
import RepoAudit.Proofs.Snapshot.Priority
import RepoAudit.Proofs.Text.Joined
import RepoAudit.Proofs.Domain
import RepoAudit.Proofs.Overview
import RepoAudit.Proofs.Text.ByteOrder
import RepoAudit.Proofs.FileTree.Tree
import RepoAudit.Proofs.Scan.Walk
import RepoAudit.Proofs.Scan.Files
import RepoAudit.Proofs.Python.Enclosing
import RepoAudit.Proofs.Store.Rounds
import RepoAudit.Proofs.Scan.Partition
import RepoAudit.Proofs.Script.Resplitting
import RepoAudit.Proofs.Script.SinkOffset
import RepoAudit.Proofs.Remedy.SiteLine
