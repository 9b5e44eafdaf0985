import Linglong.Framework.Checks
import Linglong.Framework.Machine
import Linglong.Framework.Removal
import Linglong.Framework.Effect
import Linglong.Framework.Lookup
import Linglong.Framework.Bytes
import Linglong.Framework.Regex
import Linglong.Framework.MountNamespace
import Linglong.Framework.ShellWords
import Linglong.Framework.CallLoop
import Linglong.Framework.Separator
import Linglong.Framework.WidestPrefix
import Linglong.Framework.PathText
import Linglong.Framework.StraightPath
import Linglong.Framework.ReverseErase
import Linglong.Framework.DirTree
import Linglong.Utils.QString
import Linglong.Package.Version
import Linglong.Package.VersionOrder
import Linglong.Package.Reference
import Linglong.Package.Expressions
import Linglong.Package.RoundTrip
import Linglong.Package.LayerFile
import Linglong.Package.FileFilter
import Linglong.Repo.Cache
import Linglong.Repo.OSTreeRepo
import Linglong.Repo.Pull
import Linglong.Repo.Layers
import Linglong.Repo.Steps
import Linglong.Repo.FoundLayers
import Linglong.Repo.Import
import Linglong.Repo.Atomicity
import Linglong.Repo.StoreInvariant
import Linglong.Repo.Config
import Linglong.Repo.LoadConfig
import Linglong.Repo.ConfigRequests
import Linglong.Repo.CacheAgreement
import Linglong.Repo.MergeCrash
import Linglong.Repo.MergeSpec
import Linglong.Repo.SelectedModules
import Linglong.Repo.Migrate
import Linglong.PackageManager.PackageTask
import Linglong.PackageManager.TaskOutcome
import Linglong.PackageManager.Progress
import Linglong.PackageManager.Scheduler
import Linglong.PackageManager.SchedulerRuns
import Linglong.PackageManager.Requests
import Linglong.PackageManager.RunRemove
import Linglong.PackageManager.Operations
import Linglong.PackageManager.Frame
import Linglong.PackageManager.TemporaryTasks
import Linglong.PackageManager.UpdateJob
import Linglong.PackageManager.InstallUndo
import Linglong.PackageManager.InstallLoops
import Linglong.PackageManager.InstallAtomicity
import Linglong.PackageManager.ArchitectureGuard
import Linglong.PackageManager.PruneSafety
import Linglong.Repo.LocalResolution
import Linglong.Repo.NewestVersion
import Linglong.PackageManager.InstallRequest
import Linglong.PackageManager.DeferredRemoval
import Linglong.PackageManager.DeferredUninstall
import Linglong.PackageManager.RemovalRollback
import Linglong.PackageManager.UninstallModules
import Linglong.PackageManager.InstallFromUAB
import Linglong.PackageManager.JobQueue
import Linglong.PackageManager.RepoLock
import Linglong.Box.HostMount
import Linglong.Box.OciRuntime
import Linglong.Box.LastBox
import Linglong.Box.StatLine
import Linglong.Box.PathForm
import Linglong.Generators.StraightMounts
import Linglong.Generators.HomeMasks
import Linglong.Generators.HomeBlocklist
import Linglong.Cli.Upgradable
import Linglong.Cli.Run
import Linglong.Cli.FileMapping
import Linglong.Cli.Subwstr
import Linglong.UAB.Digest
import Linglong.UAB.SignData
import Linglong.Runtime.Commands
import Linglong.Runtime.Environment
import Linglong.Runtime.FixMount
import Linglong.Runtime.TmpfsPaths
import Linglong.Runtime.MountView
import Linglong.Runtime.InsertedMounts
import Linglong.Runtime.MountPlan
import Linglong.UAB.Loader
import Linglong.UAB.Header
import Linglong.Builder.InstallModule
import Linglong.Builder.BinaryModule
import Linglong.Builder.ModulePlacement
import Linglong.Builder.LinkText
import Linglong.Builder.CopyDir
import Linglong.Utils.Transaction
import Linglong.Cli.TaskWatch
import Linglong.Cli.WatchRuns
import Linglong.Repo.ExportRuns
import Linglong.Repo.ReplacedEntries
import Linglong.PackageManager.Interaction
import Linglong.PackageManager.InteractionRuns
import Linglong.Builder.Build
import Linglong.Builder.CommitOutput
