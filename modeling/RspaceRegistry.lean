import RspaceRegistry.Backend
import RspaceRegistry.Backend.Advanced
import RspaceRegistry.Backend.Always
import RspaceRegistry.Backend.Copies
import RspaceRegistry.Backend.Flat
import RspaceRegistry.Backend.Reads
import RspaceRegistry.Backend.Run
import RspaceRegistry.Backend.Settled
import RspaceRegistry.Backend.Sourced
import RspaceRegistry.Backend.Uses
import RspaceRegistry.Boot
import RspaceRegistry.Boot.Flags
import RspaceRegistry.Boot.Places
import RspaceRegistry.Boot.Reboot
import RspaceRegistry.Calls.Always
import RspaceRegistry.Calls.Amid
import RspaceRegistry.Calls.Condition
import RspaceRegistry.Calls.Local
import RspaceRegistry.Calls.Logic
import RspaceRegistry.Calls.Pool
import RspaceRegistry.Calls.Program
import RspaceRegistry.Calls.Run
import RspaceRegistry.Calls.Trace
import RspaceRegistry.Contents
import RspaceRegistry.Cuts
import RspaceRegistry.Digest
import RspaceRegistry.Digest.Count
import RspaceRegistry.Digest.Forms
import RspaceRegistry.Disk.Addressed
import RspaceRegistry.Disk.Answers
import RspaceRegistry.Disk.Apart
import RspaceRegistry.Disk.Blobs
import RspaceRegistry.Disk.Crash
import RspaceRegistry.Disk.Effects
import RspaceRegistry.Disk.Faults
import RspaceRegistry.Disk.Listing
import RspaceRegistry.Disk.Lives
import RspaceRegistry.Disk.Maps
import RspaceRegistry.Disk.Names
import RspaceRegistry.Disk.Paths
import RspaceRegistry.Disk.Programs
import RspaceRegistry.Disk.Pushes
import RspaceRegistry.Disk.Rejected
import RspaceRegistry.Disk.Repos
import RspaceRegistry.Disk.Shelf
import RspaceRegistry.Disk.Shown
import RspaceRegistry.Disk.Storage
import RspaceRegistry.Disk.Uploads
import RspaceRegistry.Disk.Walk
import RspaceRegistry.Files.Atomic
import RspaceRegistry.Files.Crash
import RspaceRegistry.Files.Disk
import RspaceRegistry.Files.Fates
import RspaceRegistry.Files.Frozen
import RspaceRegistry.Files.Names
import RspaceRegistry.Files.Tree
import RspaceRegistry.Flags
import RspaceRegistry.FsStorage
import RspaceRegistry.Gc
import RspaceRegistry.Gc.Exact
import RspaceRegistry.Gc.Online
import RspaceRegistry.Gc.Protection
import RspaceRegistry.Gc.Push
import RspaceRegistry.Gc.Rerouted
import RspaceRegistry.Gc.Routed
import RspaceRegistry.Gc.Theorems
import RspaceRegistry.Glob
import RspaceRegistry.Glob.Theorems
import RspaceRegistry.Handlers
import RspaceRegistry.Handlers.Jobs
import RspaceRegistry.Handlers.Repeat
import RspaceRegistry.Http.Cached
import RspaceRegistry.Http.Checked
import RspaceRegistry.Http.Classify
import RspaceRegistry.Http.Dispatch
import RspaceRegistry.Http.Gate
import RspaceRegistry.Http.Handlers
import RspaceRegistry.Http.Htpasswd
import RspaceRegistry.Http.Isolation
import RspaceRegistry.Http.K8s
import RspaceRegistry.Http.Login
import RspaceRegistry.Http.MediaType
import RspaceRegistry.Http.Mount
import RspaceRegistry.Http.Namespaces
import RspaceRegistry.Http.Pages
import RspaceRegistry.Http.Paths
import RspaceRegistry.Http.Push
import RspaceRegistry.Http.Query
import RspaceRegistry.Http.Referrers
import RspaceRegistry.Http.Rejected
import RspaceRegistry.Http.Reviews
import RspaceRegistry.Http.RoundTrip
import RspaceRegistry.Http.Serve
import RspaceRegistry.Http.Sessions
import RspaceRegistry.Http.Steps
import RspaceRegistry.Http.Touched
import RspaceRegistry.Manifest
import RspaceRegistry.Migrate
import RspaceRegistry.Migrate.Again
import RspaceRegistry.Migrate.Blobs
import RspaceRegistry.Migrate.Concurrent
import RspaceRegistry.Migrate.Copy
import RspaceRegistry.Migrate.Drain
import RspaceRegistry.Migrate.Faults
import RspaceRegistry.Migrate.Jobs
import RspaceRegistry.Migrate.Looks
import RspaceRegistry.Migrate.Others
import RspaceRegistry.Migrate.Reads
import RspaceRegistry.Migrate.Report
import RspaceRegistry.Migrate.Retry
import RspaceRegistry.Migrate.Run
import RspaceRegistry.Migrate.SameTags
import RspaceRegistry.Migrate.Survey
import RspaceRegistry.Migrate.TagMeaning
import RspaceRegistry.Migrate.TagUpdates
import RspaceRegistry.Migrate.Uses
import RspaceRegistry.Migrate.Walk
import RspaceRegistry.Migrate.ZeroMiss
import RspaceRegistry.Multi
import RspaceRegistry.Multi.Deletes
import RspaceRegistry.Multi.Exists
import RspaceRegistry.Multi.Refine
import RspaceRegistry.OciError
import RspaceRegistry.Ordered.BTreeSet
import RspaceRegistry.Ordered.Pages
import RspaceRegistry.Places.Slot
import RspaceRegistry.Places.Weights
import RspaceRegistry.Replicate
import RspaceRegistry.Replicate.Again
import RspaceRegistry.Replicate.Converge
import RspaceRegistry.Replicate.Copy
import RspaceRegistry.Replicate.Deletes
import RspaceRegistry.Replicate.Faults
import RspaceRegistry.Replicate.Gather
import RspaceRegistry.Replicate.Pull
import RspaceRegistry.Replicate.Reach
import RspaceRegistry.Replicate.References
import RspaceRegistry.Replicate.Run
import RspaceRegistry.Replicate.Tolerate
import RspaceRegistry.Replicate.Walk
import RspaceRegistry.RepoName
import RspaceRegistry.RepoName.Components
import RspaceRegistry.RepoName.Grammar
import RspaceRegistry.RepoRouter
import RspaceRegistry.RepoRouter.Reads
import RspaceRegistry.RepoRouter.Storage
import RspaceRegistry.RepoRouter.Theorems
import RspaceRegistry.RepoRouter.Upsert
import RspaceRegistry.Sample
import RspaceRegistry.Slices
import RspaceRegistry.Storage
import RspaceRegistry.StorageError
import RspaceRegistry.Stores.Bound
import RspaceRegistry.Stores.Chunks
import RspaceRegistry.Stores.Delivered
import RspaceRegistry.Stores.Durable
import RspaceRegistry.Stores.Events
import RspaceRegistry.Stores.Flat
import RspaceRegistry.Stores.Guard
import RspaceRegistry.Stores.Layer
import RspaceRegistry.Stores.Listings
import RspaceRegistry.Stores.Manifests
import RspaceRegistry.Stores.Method
import RspaceRegistry.Stores.Quota
import RspaceRegistry.Stores.Report
import RspaceRegistry.Stores.Retry
import RspaceRegistry.Stores.Reuse
import RspaceRegistry.Stores.Safe
import RspaceRegistry.Stores.Selection
import RspaceRegistry.Stores.Transparent
import RspaceRegistry.Stores.Trees
import RspaceRegistry.Stores.Uploads
import RspaceRegistry.Volumes
import RspaceRegistry.World
import RspaceRegistry.World.Effect
import RspaceRegistry.World.Faults
import RspaceRegistry.World.Forthright
import RspaceRegistry.World.Item
import RspaceRegistry.World.Recorded
