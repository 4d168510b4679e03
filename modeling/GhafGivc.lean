import GhafGivc.Core.Outcome
import GhafGivc.Core.Traced
import GhafGivc.Core.Fallible
import GhafGivc.Core.Delimited
import GhafGivc.Core.FirstMatch
import GhafGivc.Core.Transition
import GhafGivc.Core.PartialKeys
import GhafGivc.Core.Replay
import GhafGivc.Image.InstallCrash
import GhafGivc.Image.RemoveCrash
import GhafGivc.Image.RemoveSafety
import GhafGivc.Image.Executor
import GhafGivc.Image.Readback
import GhafGivc.Image.Invocation
import GhafGivc.Lock
import GhafGivc.Exec.Safety
import GhafGivc.Exec.Children
import GhafGivc.Exec.Output
import GhafGivc.Exec.Client
import GhafGivc.Policy.Changeset
import GhafGivc.Policy.Upload
import GhafGivc.Policy.UrlFreshness
import GhafGivc.Policy.Configured
import GhafGivc.Admin.Watch
import GhafGivc.Admin.Cascade
import GhafGivc.Admin.Managers
import GhafGivc.Admin.HostManager
import GhafGivc.Admin.Monitor
import GhafGivc.Admin.Locale
import GhafGivc.Admin.PolicyPush
import GhafGivc.Agent.Applications
import GhafGivc.Core.CleanPath
import GhafGivc.Agent.FileArguments
import GhafGivc.Agent.Control
import GhafGivc.Core.Path
import GhafGivc.Pull.Paths
import GhafGivc.Core.FileTree
import GhafGivc.Core.Placed
import GhafGivc.Pull.Download
import GhafGivc.Pull.Layout
import GhafGivc.Pull.Course
import GhafGivc.Pull.Stored
import GhafGivc.Pull.Marker
import GhafGivc.Pull.Interrupted
import GhafGivc.Core.Disk
import GhafGivc.Pull.Prune
import GhafGivc.Pull.PruneEffect
import GhafGivc.Auth.PeerAddress
import GhafGivc.Core.Pipe
import GhafGivc.Proxy.Stream
import GhafGivc.Image.InstallEffect
import GhafGivc.Image.Listing
import GhafGivc.Image.ListingOrder
import GhafGivc.Image.Classes
import GhafGivc.Image.Targets
import GhafGivc.Image.RemoveEffect
import GhafGivc.Wifi.Security
import GhafGivc.Core.NilMap
import GhafGivc.Wifi.Settings
import GhafGivc.Stats.ProcStat
import GhafGivc.Core.Ranking
import GhafGivc.Stats.Ranking
import GhafGivc.Stats.Controller
import GhafGivc.Stats.Deltas
import GhafGivc.Core.Bytes
import GhafGivc.Auth.AccessControl
import GhafGivc.Auth.AgentAccess
import GhafGivc.Auth.Questions
import GhafGivc.Core.Publication
import GhafGivc.Pull.Push
import GhafGivc.Pull.Registry
import GhafGivc.Core.Workers
import GhafGivc.Policy.Workers
import GhafGivc.Policy.RepoMonitor
import GhafGivc.Agent.Units
import GhafGivc.Admin.AppControl
import GhafGivc.Agent.Launch
import GhafGivc.Agent.Events
import GhafGivc.Pull.Discover
import GhafGivc.Nixos.Profile
import GhafGivc.Nixos.UpdateServer
import GhafGivc.Nixos.Update
import GhafGivc.Nixos.Cachix
import GhafGivc.Agent.Registration
