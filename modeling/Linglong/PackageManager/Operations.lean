import Linglong.Repo.Pull

/-! # Operations of the Package Manager

    The bodies of the jobs that `PackageManager` runs
    (`package_manager.cpp`): `InstallRef` with `pullDependency`, `Install`,
    `UninstallRef`, `Uninstall`, `removeAfterInstall`, `Update`, `Prune` and
    `deferredUninstall`.

    Each function that registers undo actions with a `utils::Transaction`
    keeps them in a list, newest first. Leaving the function runs them
    unless the transaction was committed. A loop that can return from its
    function says so in the flag `returned`.

    The containers that `getAllRunningContainers` finds are a parameter: the
    refs of the apps, or an error if the lock or the pid files cannot be
    read. Export of desktop entries is left out.
-/

namespace Linglong

open Framework

namespace Job

/-! ## Section 1: Installing -/

/-- The undo action of a pull: remove the layer, log errors. -/
def undoPull (ref : Reference) (module : String) (s : Repo) : Repo :=
  after (Repo.remove ref module none) s

/-- First half of `pullDependency`: the runtime. `none` if the function has
    returned, else the undo actions. -/
def pullRuntime (j : Job) (info : PackageInfoV2) (module : String) :
    Job × Option (List (Repo → Repo)) :=
  match info.runtime with
  | none => (j, some [])
  | some text =>
      match FuzzyReference.parse text with
      | .error e => (j.fail e, none)
      | .ok fuzzy =>
          match j.clearReference fuzzy with
          | (j, .error e) => (j.fail e, none)
          | (j, .ok runtime) =>
              let j := j.call (.updateSubState .installRuntime
                ("Installing runtime " ++ runtime.toString))
              match j.repo.getLayerDir runtime "binary" none with
              | .ok _ => (j, some [])
              | .error _ =>
                  if j.isDone then (j, none)
                  else
                    let j := j.pull runtime module
                    if j.isDone then (j, none) else (j, some [undoPull runtime module])

/-- Second half of `pullDependency`: the base. `true` if the end of the
    function is reached. -/
def pullBase (j : Job) (info : PackageInfoV2) (module : String) : Job × Bool :=
  match FuzzyReference.parse info.base with
  | .error e => (j.fail e, false)
  | .ok fuzzy =>
      match j.clearReference fuzzy with
      | (j, .error e) => (j.fail e, false)
      | (j, .ok base) =>
          let j := j.call (.updateSubState .installBase ("Installing base " ++ base.toString))
          match j.repo.getLayerDir base module none with
          | .ok _ => (j, true)
          | .error _ =>
              if j.isDone then (j, false)
              else
                let j := j.pull base module
                (j, !j.isDone)

/-- `pullDependency`. -/
def pullDependency (j : Job) (info : PackageInfoV2) (module : String) : Job :=
  if info.kind ≠ "app" then j
  else if module ≠ "binary" ∧ module ≠ "runtime" then j
  else
    match j.pullRuntime info module with
    | (j, none) => j
    | (j, some actions) =>
        match j.pullBase info module with
        | (j, true) => j
        | (j, false) => { j with repo := rollback actions j.repo }

/-- State of the loops of `InstallRef`. -/
structure Installing where
  job : Job
  modules : List String
  actions : List (Repo → Repo)
  returned : Bool

/-- The comparison of a requested module with the one of a deleted layer. -/
def sameModule (deleted : String) (module : String) : Bool :=
  (module == "runtime" && deleted == "binary") || (module == "binary" && deleted == "runtime") ||
    module == deleted

/-- Undo the unmarking of a layer. -/
def undoUnmark (ref : Reference) (module : String) (s : Repo) : Repo :=
  after (Repo.markDeleted ref true module) s

/-- Unmark a layer; a failure is only reported. -/
def unmark (j : Job) (ref : Reference) (module : String) : Job :=
  match j.perform (Repo.markDeleted ref false module) with
  | (j, .ok _) => j
  | (j, .error _) => j.fail "install failed"

/-- One round of the first loop of `InstallRef`: a layer that is there but
    marked deleted need not be pulled. -/
def unmarkRound (ref : Reference) (item : RepositoryCacheLayersItem) (p : Installing) :
    Installing :=
  if p.job.isDone then { p with returned := true }
  else if p.modules.any (sameModule item.info.packageInfoV2Module) then
    { p with
      job := p.job.unmark ref item.info.packageInfoV2Module
      modules := p.modules.eraseP (sameModule item.info.packageInfoV2Module)
      actions := undoUnmark ref item.info.packageInfoV2Module :: p.actions }
  else p

/-- First loop of `InstallRef`. -/
def unmarkLoop (ref : Reference) : List RepositoryCacheLayersItem → Installing → Installing :=
  loopUntil Installing.returned (unmarkRound ref)

/-- A round of the second loop after its module was pulled: dependencies. -/
def dependencyRound (ref : Reference) (module : String) (p : Installing) : Installing :=
  if module ≠ "binary" ∧ module ≠ "runtime" then p
  else
    match p.job.repo.getLayerDir ref "binary" none with
    | .error e => { p with job := p.job.fail e, returned := true }
    | .ok dir =>
        match p.job.repo.layerDirInfo dir with
        | .error e => { p with job := p.job.fail e, returned := true }
        -- nothing looks at the task here before the next round
        | .ok info => { p with job := p.job.pullDependency info "binary" }

/-- One round of the second loop of `InstallRef`: pull a module. -/
def pullRound (ref : Reference) (module : String) (p : Installing) : Installing :=
  if p.job.isDone then { p with returned := true }
  else if (p.job.pull ref module).isDone then
    { p with job := p.job.pull ref module, returned := true }
  else
    dependencyRound ref module { p with
      job := p.job.pull ref module
      actions := undoPull ref module :: p.actions }

/-- Second loop of `InstallRef`. -/
def pullLoop (ref : Reference) : List String → Installing → Installing :=
  loopUntil Installing.returned (pullRound ref)

/-- `*currentArch`; reading a failed result gives some architecture. -/
def currentArch (s : Repo) : Architecture :=
  match s.outside.cpuArch with
  | .ok arch => arch
  | .error _ => s.outside.strayArch

/-- First check of the architecture in `InstallRef`; it does not return. -/
def checkHostArch (j : Job) : Job :=
  match j.repo.outside.cpuArch with
  | .ok _ => j
  | .error e => j.fail e

/-- Both checks of the architecture in `InstallRef`. Neither of them
    returns, and the next call of `updateSubState` hides both. -/
def checkArch (j : Job) (ref : Reference) : Job :=
  if ref.arch ≠ currentArch j.repo then
    j.checkHostArch.fail ("app arch:" ++ ref.arch.toString ++ " not match host architecture")
  else j.checkHostArch

/-- `InstallRef` up to its first loop. -/
def beginInstall (j : Job) (ref : Reference) : Job :=
  ((j.call (.updateSubState .preAction "Beginning to install")).checkArch ref).call
    (.updateSubState .installApplication ("Installing application " ++ ref.toString))

/-- The layers of `ref` that are marked deleted. -/
def deletedList (s : Repo) (ref : Reference) : List RepositoryCacheLayersItem :=
  s.queryLayerItem
    { id := some ref.id, channel := some ref.channel, version := some ref.version.toString,
      deleted := some true }

/-- The two loops of `InstallRef`. -/
def installLoops (j : Job) (ref : Reference) (modules : List String) : Installing :=
  let p := unmarkLoop ref (deletedList j.repo ref) ⟨j, modules, [], false⟩
  if p.returned then p else pullLoop ref p.modules p

/-- Leaving `InstallRef`: by a `return` inside a loop the transaction is
    rolled back, at the end of the function it is committed. -/
def Installing.finish (p : Installing) : Job :=
  if p.returned then { p.job with repo := rollback p.actions p.job.repo } else p.job

/-- `InstallRef`. -/
def installRef (j : Job) (ref : Reference) (modules : List String) : Job :=
  ((j.beginInstall ref).installLoops ref modules).finish

/-! ## Section 2: Removing -/

end Job

namespace Repo

/-- The undo action of a removal: pull the layer again, with a temporary
    task. -/
def undoRemove (ref : Reference) (module : String) (s : Repo) : Repo := (s.pull ref module).1

/-- The loop of `UninstallRef`. -/
def uninstallLoop (ref : Reference) : List String → List (Repo → Repo) → Repo →
    Repo × Except String Unit
  | [], _, s => (s, .ok ())
  | module :: rest, actions, s =>
      match remove ref module none s with
      | .error e s => (rollback actions s, .error e)
      | .ok _ s => uninstallLoop ref rest (undoRemove ref module :: actions) s

end Repo

namespace Job

/-- `UninstallRef`. -/
def uninstallRef (j : Job) (ref : Reference) (modules : List String) : Job :=
  if j.isDone then j
  else
    let j := j.call (.updateSubState .uninstall "Remove layer files")
    match Repo.uninstallLoop ref modules [] j.repo with
    | (repo, .ok _) => { j with repo := repo }
    | (repo, .error e) => fail { j with repo := repo } e

end Job

/-- What `getAllRunningContainers` returns: the refs of the running apps. -/
abbrev Containers := Except String (List String)

/-- `isRefBusy`. -/
def isRefBusy (containers : Containers) (ref : Reference) : Except String Bool := do
  let running ← containers
  pure (running.contains ref.toString)

namespace Repo

/-- The marking loop of `removeAfterInstall`. -/
def markLoop (ref : Reference) : List String → List (Repo → Repo) → Repo →
    Repo × Except String Unit
  | [], _, s => (s, .ok ())
  | module :: rest, actions, s =>
      match markDeleted ref true module s with
      | .error e s => (rollback actions s, .error e)
      | .ok _ s =>
          markLoop ref rest ((fun s => after (markDeleted ref false module) s) :: actions) s

/-- The removing loop of `removeAfterInstall`. It passes no module to
    `remove`, so every round asks for the default one, `binary`. -/
def removeLoop (ref : Reference) : List String → List (Repo → Repo) → Repo →
    Repo × Except String Unit
  | [], _, s => (s, .ok ())
  | module :: rest, actions, s =>
      match remove ref "binary" none s with
      | .error e s => (rollback actions s, .error e)
      | .ok _ s => removeLoop ref rest (undoRemove ref module :: actions) s

/-- `removeAfterInstall`. -/
def removeAfterInstall (containers : Containers) (oldRef : Reference) (modules : List String)
    (s : Repo) : Repo × Except String Unit :=
  match isRefBusy containers oldRef with
  | .error e => (s, .error e)
  | .ok true => markLoop oldRef modules [] s
  | .ok false =>
      match removeLoop oldRef modules [] s with
      | (s, .error e) => (s, .error e)
      | (s, .ok _) => (after mergeModules s, .ok ())

end Repo

namespace Job

/-! ## Section 3: Jobs -/

/-- `Install` after `InstallRef` succeeded: `false` if it returns before the
    transaction is committed. -/
def afterInstall (j : Job) (containers : Containers) (newRef : Reference)
    (oldRef : Option Reference) : Job × Bool :=
  let j := j.call (.updateSubState .postAction "processing after install")
  let j := { j with repo := after Repo.mergeModules j.repo }
  match j.repo.getLayerItem newRef "binary" none with
  | .error e => (j.call (.reportError ⟨-1, e⟩), false)
  | .ok layer =>
      match layer.info.kind == "app", oldRef with
      | true, some old =>
          match Repo.removeAfterInstall containers old (j.repo.getModuleList old) j.repo with
          | (repo, .ok _) => ({ j with repo := repo }, true)
          | (repo, .error _) =>
              (fail { j with repo := repo } ("Failed to remove old reference " ++ old.toString ++
                " after install " ++ newRef.toString), false)
      | _, _ => (j, true)

/-- `Install`. -/
def install (j : Job) (containers : Containers) (newRef : Reference) (oldRef : Option Reference)
    (modules : List String) : Job :=
  let j := j.call (.updateState .processing ("Installing " ++ newRef.toString) none)
  let j := j.installRef newRef modules
  if j.isDone then j
  else
    match j.afterInstall containers newRef oldRef with
    | (j, true) =>
        j.call (.updateState .succeed ("Install " ++ newRef.toString ++ " success") none)
    | (j, false) =>
        -- the undo action of `Install` is `UninstallRef` on a temporary task
        let tmp : Job := ⟨j.repo, .createTemporaryTask "temporary"⟩
        { j with repo := (tmp.uninstallRef newRef modules).repo }

/-- The job that the request `Install` sets, once the user has agreed. -/
def installJob (j : Job) (containers : Containers) (newRef : Reference)
    (oldRef : Option Reference) (modules : List String) : Job :=
  if j.isDone then j else j.install containers newRef oldRef modules

/-- `Uninstall`. -/
def uninstall (j : Job) (ref : Reference) (module : String) : Job :=
  if j.isDone then j
  else
    let j := j.call (.updateState .processing "start to uninstalling package" none)
    let j := j.call (.updateSubState .preAction "prepare uninstalling package")
    let modules :=
      if module = "binary" ∨ module = "runtime" then j.repo.getModuleList ref else [module]
    let j := j.uninstallRef ref modules
    if j.isDone then j
    else
      let j := j.call (.updateState .succeed ("Uninstall " ++ ref.toString ++ " success") none)
      { j with repo := after Repo.mergeModules j.repo }

/-- `Update` of one pair, after `InstallRef` succeeded. -/
def afterUpdate (j : Job) (containers : Containers) (ref newRef : Reference)
    (modules : List String) : Job :=
  let j := j.call (.updateState .partCompleted
    ("Upgrade " ++ ref.toString ++ " to " ++ newRef.toString ++ " success") none)
  let task := (j.task.setSubState .packageManagerDone).setMessage
    "Please restart the application after saving the data to experience the new version."
  let j := { j with task := task }
  match j.repo.getLayerItem newRef "binary" none with
  | .error _ => j
  | .ok newItem =>
      if newItem.info.kind = "app" then
        { j with repo := (Repo.removeAfterInstall containers ref modules j.repo).1 }
      else { j with repo := after Repo.mergeModules j.repo }

/-- `Update` of one pair. -/
def update (j : Job) (containers : Containers) (ref newRef : Reference) : Job :=
  let j := j.call (.updateState .processing "start to uninstalling package" none)
  let modules := j.repo.getModuleList ref
  let j := j.installRef newRef modules
  if j.isDone then j else j.afterUpdate containers ref newRef modules

/-- The loop of the job that the request `Update` sets: the result of a pair
    is not looked at. -/
def updateLoop (j : Job) (containers : Containers) : List (Reference × Reference) → Job
  | [] => j
  | (oldRef, newRef) :: rest => (j.update containers oldRef newRef).updateLoop containers rest

/-- The job that the request `Update` sets. -/
def updateJob (j : Job) (containers : Containers) (upgradeList : List (Reference × Reference)) :
    Job :=
  if j.isDone then j else j.updateLoop containers upgradeList

end Job

/-! ## Section 4: `Prune` and `deferredUninstall` -/

namespace Repo

/-- The local reference that a `base` or `runtime` field stands for. -/
def resolveDependency (s : Repo) (text : String) : Except String Reference := do
  let fuzzy ← FuzzyReference.parse text
  s.clearReferenceLocal fuzzy

/-- The references that `Prune` counts for an app. A `continue` after a
    runtime that cannot be resolved skips the base as well. -/
def countedRefs (s : Repo) (info : PackageInfoV2) : List Reference :=
  let base := (s.resolveDependency info.base).toOption.toList
  match info.runtime with
  | none => base
  | some text =>
      match s.resolveDependency text with
      | .error _ => []
      | .ok runtime => runtime :: base

/-- `target[ref] += n`; for `n = 0` this is `target.try_emplace(ref, 0)`. -/
def addCount (target : List (Reference × Nat)) (ref : Reference) (n : Nat) :
    List (Reference × Nat) :=
  match target with
  | [] => [(ref, n)]
  | (r, k) :: rest => if r = ref then (r, k + n) :: rest else (r, k) :: addCount rest ref n

/-- One round of the first loop of `Prune`. -/
def countInfo (s : Repo) (target : List (Reference × Nat)) (info : PackageInfoV2) :
    List (Reference × Nat) :=
  if info.packageInfoV2Module ≠ "binary" ∧ info.packageInfoV2Module ≠ "runtime" then target
  else if info.kind ≠ "app" then
    match Reference.fromPackageInfo info with
    | .error _ => target
    | .ok ref => addCount target ref 0
  else (s.countedRefs info).foldl (fun target ref => addCount target ref 1) target

/-- The map `target` of `Prune`. -/
def pruneTarget (s : Repo) : List (Reference × Nat) := s.listLocal.foldl s.countInfo []

/-- The loop of `Prune` over the modules of a reference. A module whose
    directory cannot be read is skipped, a failed removal ends `Prune`. -/
def pruneModules (ref : Reference) : List String → Repo →
    Repo × List PackageInfoV2 × Except String Unit
  | [], s => (s, [], .ok ())
  | module :: rest, s =>
      match s.getLayerDir ref module none with
      | .error _ => pruneModules ref rest s
      | .ok dir =>
          match s.layerDirInfo dir with
          | .error _ => pruneModules ref rest s
          | .ok info =>
              match remove ref module none s with
              | .error e s => (s, [info], .error e)
              | .ok _ s =>
                  let (s, removed, result) := pruneModules ref rest s
                  (s, info :: removed, result)

/-- The second loop of `Prune`. -/
def pruneRefs : List (Reference × Nat) → Repo → Repo × List PackageInfoV2 × Except String Unit
  | [], s => (s, [], .ok ())
  | (ref, count) :: rest, s =>
      if count ≠ 0 then pruneRefs rest s
      else
        match pruneModules ref (s.getModuleList ref) s with
        | (s, removed, .error e) => (s, removed, .error e)
        | (s, removed, .ok _) =>
            let (s, more, result) := pruneRefs rest s
            (s, removed ++ more, result)

/-- `Prune`: the repository, the list `removed` and the result. -/
def prune (s : Repo) : Repo × List PackageInfoV2 × Except String Unit :=
  match pruneRefs (s.outside.map.refs s.pruneTarget) s with
  | (s', removed, .error e) => (s', removed, .error e)
  | (s', removed, .ok _) =>
      if s.pruneTarget = [] then (s', removed, .ok ())
      else
        match fallible .pruneObjects "ostree_repo_prune" s' with
        | .error e s' => (s', removed, .error e)
        | .ok _ s' => (after mergeModules s', removed, .ok ())

/-- Add an item to its group. -/
def addToGroup (groups : List (String × List RepositoryCacheLayersItem)) (ref : String)
    (item : RepositoryCacheLayersItem) : List (String × List RepositoryCacheLayersItem) :=
  match groups with
  | [] => [(ref, [item])]
  | (r, items) :: rest =>
      if r = ref then (r, items ++ [item]) :: rest else (r, items) :: addToGroup rest ref item

/-- The map `uninstalledLayers`; a layer without reference stops
    `deferredUninstall`. -/
def deletedGroups : List RepositoryCacheLayersItem →
    List (String × List RepositoryCacheLayersItem) →
    Except String (List (String × List RepositoryCacheLayersItem))
  | [], groups => .ok groups
  | item :: rest, groups => do
      let ref ← Reference.fromPackageInfo item.info
      deletedGroups rest (addToGroup groups ref.toString item)

/-- Remove the layers of one group, then merge again; failures are only
    logged. -/
def uninstallGroup (ref : Reference) (items : List RepositoryCacheLayersItem) (s : Repo) : Repo :=
  after mergeModules (items.foldl (fun s item =>
    after (remove ref item.info.packageInfoV2Module item.info.uuid) s) s)

/-- The last loop of `deferredUninstall`. -/
def uninstallGroups : List (String × List RepositoryCacheLayersItem) → Repo → Repo
  | [], s => s
  | (text, items) :: rest, s =>
      match Reference.parse text with
      | .error _ => s
      | .ok ref => uninstallGroups rest (uninstallGroup ref items s)

/-- `deferredUninstall`. If the repository cannot be locked, nothing happens;
    this is an error of `containers` here. -/
def deferredUninstall (containers : Containers) (s : Repo) : Repo :=
  match deletedGroups (s.queryLayerItem { deleted := some true }) [] with
  | .error _ => s
  | .ok groups =>
      match containers with
      | .error _ => s
      | .ok running =>
          uninstallGroups (s.outside.map.groups (groups.filter fun g => !running.contains g.1)) s

end Repo

end Linglong
