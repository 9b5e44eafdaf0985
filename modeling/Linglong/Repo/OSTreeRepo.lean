import Linglong.Framework.Effect
import Linglong.Framework.Lookup
import Linglong.Repo.Cache
import Linglong.Utils.QString

/-! # The Repository

    `OSTreeRepo` (`ostree_repo.h`, `ostree_repo.cpp`) keeps three things in
    step: the refs of the ostree repository, the directories
    `layers/<commit>` with the checked out layers, and the items of the
    cache. `merged/<id>` holds the union of the modules of one version.

    ostree, the file system and the standard library are outside of the
    repository's code. What they answer is part of the state:

    * `Outside` has what does not change: how `std::sort` and a map order,
      the hash function, what the `info.json` of a commit says, how ostree resolves a
      ref without remote, the architecture of the host.
    * `faults` says for each kind of fallible local step, in the order of
      execution, whether it fails; a missing entry means success.

    An operation of type `RepoM` may fail; what it did before stays done.
    Where the source aborts the process (`qFatal`), the model returns an
    error. Layer directories that are symbolic links, left by old releases,
    and the exported desktop entries are not modelled.
-/

namespace Linglong

open Framework

/-! ## Section 1: State -/

/-- An ostree ref `channel/id/version/arch/module`, kept as its parts. -/
structure OstreeRef where
  channel : String
  id : String
  version : String
  arch : String
  module : String
  deriving DecidableEq

/-- A refspec `remote:ref`. -/
structure OstreeRefSpec where
  remote : String
  ref : OstreeRef
  deriving DecidableEq

/-- What the code finds in libraries and on the host. -/
structure Outside where
  sort : StdSort
  map : MapOrder
  /-- Hexadecimal SHA-256. -/
  sha256 : String → String
  /-- `parsePackageInfo` on the `info.json` of a commit. -/
  commitInfo : String → Except String PackageInfoV2
  /-- How `ostree_repo_read_commit` resolves a ref without remote. -/
  resolveRev : List (OstreeRefSpec × String) → OstreeRef → Option String
  /-- `Architecture::currentCPUArchitecture`. -/
  cpuArch : Except String Architecture
  /-- What reading the architecture of a failed query gives. -/
  strayArch : Architecture

/-- What the outside does while `ostree_repo_pull_with_options` runs: it
    reports progress, it reports an error, or a `Cancel` call arrives. -/
inductive PullEvent where
  | progress (part : UInt32) (status : String)
  | caughtError
  | cancel
  deriving DecidableEq

/-- How `ostree_repo_pull_with_options` ends; a successful pull sets the ref
    to a commit. -/
inductive PullStatus where
  | ok (commit : String)
  | noSuchBranch (message : String)
  | error (message : String)
  deriving DecidableEq

/-- One call of `ostree_repo_pull_with_options`: how it ends depends on the
    ref that is asked for. -/
structure PullReply where
  during : List PullEvent
  status : OstreeRef → PullStatus

/-- One call of `listRemote`; a `Cancel` call may arrive while it waits. -/
structure RemoteReply where
  canceled : Bool
  records : Except String (List PackageInfoV2)

/-- The kinds of local steps that may fail. -/
inductive Step where
  /-- `writeToDisk`. -/
  | writeCache
  /-- Deleting a ref of the ostree repository. -/
  | setRef
  /-- Creating and emptying a layer directory. -/
  | layerDir
  /-- Checking a commit out into a layer directory. -/
  | checkout
  /-- Removing a layer directory. -/
  | removeLayerDir
  /-- The steps of `mergeModules` in `merged/`. -/
  | merge
  /-- Dropping objects that no ref needs. -/
  | pruneObjects
  /-- The steps of `commitDirToRepo`. -/
  | commitDir
  /-- Opening `config.yaml`, and writing it. -/
  | saveConfig
  /-- `ostree_repo_remote_change`. -/
  | remoteChange
  /-- `ostree_repo_write_config`. -/
  | writeConfig
  /-- `ostree_repo_list_refs`. -/
  | listRefs
  /-- `ostree_repo_read_commit` while the cache is rebuilt. -/
  | readCommit
  deriving DecidableEq

/-- The repository. A layer directory is empty or holds a checked out
    commit, a merged directory holds the commits checked out into it. -/
structure Repo where
  outside : Outside
  defaultRepo : String
  layers : List RepositoryCacheLayersItem
  merged : Option (List RepositoryCacheMergedItem)
  statesJson : List RepositoryCacheLayersItem × Option (List RepositoryCacheMergedItem)
  ostreeRefs : List (OstreeRefSpec × String)
  layerDirs : List (String × Option String)
  mergedDirs : List (String × List String)
  faults : Step → List Bool
  pulls : List PullReply
  remotes : List RemoteReply

/-- An operation on the repository. -/
abbrev RepoM (α : Type) := EStateM String Repo α

/-- The module `runtime` is called `binary` in new repositories. -/
def normModule (module : String) : String := if module = "runtime" then "binary" else module

namespace Repo

/-! ## Section 2: Refs -/

/-- `ostreeRefFromLayerItem`. -/
def ostreeRefFromLayerItem (layer : RepositoryCacheLayersItem) : OstreeRef where
  channel := layer.info.channel
  id := layer.info.id
  version := layer.info.version
  arch := layer.arch
  module := layer.info.packageInfoV2Module

/-- `ostreeRefSpecFromLayerItem`. -/
def ostreeRefSpecFromLayerItem (layer : RepositoryCacheLayersItem) : OstreeRefSpec :=
  ⟨layer.repo, ostreeRefFromLayerItem layer⟩

/-- The ref of a module as both naming schemes build it. -/
def ostreeSpec (ref : Reference) (module : String) : OstreeRef where
  channel := ref.channel
  id := ref.id
  version := ref.version.toString
  arch := ref.arch.toString
  module := module

/-- `ostreeSpecFromReference`: the old name of `binary` is `runtime`. -/
def ostreeSpecFromReference (ref : Reference) (module : String) : OstreeRef :=
  ostreeSpec ref (if module = "binary" then "runtime" else module)

/-- `ostreeSpecFromReferenceV2`. -/
def ostreeSpecFromReferenceV2 (ref : Reference) (module : String)
    (subRef : Option String) : OstreeRef :=
  ostreeSpec ref (match subRef with
    | none => normModule module
    | some sub => normModule module ++ "_" ++ sub)

/-- `ostree_repo_resolve_rev_ext` on a refspec with remote. -/
def resolveRefspec (s : Repo) (spec : OstreeRefSpec) : Option String := s.ostreeRefs.lookup spec

/-- Set a ref. -/
def setRef (s : Repo) (spec : OstreeRefSpec) (commit : String) : Repo :=
  { s with ostreeRefs := (spec, commit) :: s.ostreeRefs.filter fun e => e.1 ≠ spec }

/-- Delete a ref. -/
def dropRef (s : Repo) (spec : OstreeRefSpec) : Repo :=
  { s with ostreeRefs := s.ostreeRefs.filter fun e => e.1 ≠ spec }

/-! ## Section 3: Queries -/

/-- `queryLayerItem`, `listLocalBy`. -/
def queryLayerItem (s : Repo) (query : RepoCacheQuery) : List RepositoryCacheLayersItem :=
  queryItems s.outside.sort s.layers query

/-- `queryExistingLayerItem`. -/
def queryExistingLayerItem (s : Repo) : List RepositoryCacheLayersItem :=
  s.layers.filter fun item => !item.isDeleted

/-- `listLocal`. -/
def listLocal (s : Repo) : List PackageInfoV2 :=
  s.queryExistingLayerItem.map RepositoryCacheLayersItem.info

/-- The query that `getLayerItem` builds for a ref. -/
def layerQuery (ref : Reference) (module : Option String) (subRef : Option String) :
    RepoCacheQuery where
  id := some ref.id
  channel := some ref.channel
  version := some ref.version.toString
  module := module
  uuid := subRef

/-- `getLayerItem`. The architecture of the ref and the mark of the layer
    are not looked at. -/
def getLayerItem (s : Repo) (ref : Reference) (module : String) (subRef : Option String) :
    Except String RepositoryCacheLayersItem :=
  match s.queryLayerItem (layerQuery ref (some (normModule module)) subRef) with
  | [item] => .ok item
  | _ :: _ :: _ =>
      .error "ambiguous ref has been detected, maybe underlying storage already broken."
  | [] =>
      if normModule module ≠ "binary" then
        .error ("couldn't find layer item " ++ ref.toString ++ "/" ++ normModule module)
      else
        match s.queryLayerItem (layerQuery ref (some "runtime") subRef) with
        | [item] => .ok item
        | _ :: _ :: _ =>
            .error "ambiguous ref has been detected, maybe underlying storage already broken."
        | [] => .error (ref.toString ++ " fallback to runtime still not found")

/-- `getLayerDir` of an item: the directory must exist. -/
def layerDirOf (s : Repo) (layer : RepositoryCacheLayersItem) : Except String (Option String) :=
  match s.layerDirs.lookup layer.commit with
  | some content => .ok content
  | none => .error (layer.commit ++ " doesn't exist")

/-- `getLayerDir` of a ref. -/
def getLayerDir (s : Repo) (ref : Reference) (module : String) (subRef : Option String) :
    Except String (Option String) := do
  let layer ← s.getLayerItem ref module subRef
  s.layerDirOf layer

/-- `LayerDir::info`. -/
def layerDirInfo (s : Repo) (content : Option String) : Except String PackageInfoV2 :=
  match content with
  | none => .error "failed to load info.json"
  | some commit => s.outside.commitInfo commit

/-- The directory of a package that `getMergedModuleDir` returns. -/
inductive ModuleDir where
  | merged (id : String)
  | layer (content : Option String)
  deriving DecidableEq

/-- The loop of `getMergedModuleDir` over the records: the first one with
    the commit whose directory exists. -/
def findMerged (s : Repo) (commit : String) : Option RepositoryCacheMergedItem :=
  (s.merged.getD []).find? fun item =>
    item.binaryCommit == commit && (s.mergedDirs.lookup item.id).isSome

/-- `getMergedModuleDir`. -/
def getMergedModuleDir (s : Repo) (ref : Reference) (fallbackLayerDir : Bool) :
    Except String ModuleDir := do
  let layer ← s.getLayerItem ref "binary" none
  match s.findMerged layer.commit with
  | some item => .ok (.merged item.id)
  | none =>
      if fallbackLayerDir then
        let content ← s.layerDirOf layer
        .ok (.layer content)
      else if s.merged.isNone then .error "no merged item found"
      else .error "merged doesn't exist"

/-- `getModuleList`. -/
def getModuleList (s : Repo) (ref : Reference) : List String :=
  (s.outside.sort.byModule (s.queryLayerItem (layerQuery ref none none))).map
    fun item => item.info.packageInfoV2Module

/-- The test that `clearReferenceLocal` makes on a layer that is not marked:
    an absent tweak in the request matches any tweak. -/
def versionMatches (wanted : Option Version) (version : Version) : Bool :=
  match wanted with
  | none => true
  | some w =>
      let version := if w.tweak.isNone then { version with tweak := none } else version
      version.eq w

/-- The loop of `clearReferenceLocal`. -/
def findCompatible (wanted : Option Version) :
    List RepositoryCacheLayersItem → Except String RepositoryCacheLayersItem
  | [] => .error "compatible layer not found"
  | item :: rest =>
      if item.isDeleted then findCompatible wanted rest
      else
        match Version.parse item.info.version with
        | .error _ => .error "internal error: broken data of repo cache"
        | .ok version =>
            if versionMatches wanted version then .ok item else findCompatible wanted rest

/-- The reference of a cache item. -/
def referenceOf (item : RepositoryCacheLayersItem) : Except String Reference := do
  let version ← Version.parse item.info.version
  let arch ← Architecture.parse item.arch
  Reference.create item.info.channel item.info.id version arch

/-- First part of `clearReferenceLocal`: the architecture, if given, must be
    that of the host. -/
def checkLocalArch (s : Repo) (fuzzy : FuzzyReference) : Except String Unit :=
  match fuzzy.arch with
  | none => .ok ()
  | some arch => do
      let curArch ← s.outside.cpuArch
      if curArch.toString ≠ arch.toString then .error "arch mismatch with host arch"

/-- Second part of `clearReferenceLocal`. -/
def searchLocal (s : Repo) (fuzzy : FuzzyReference) : Except String Reference :=
  match s.queryLayerItem { id := some fuzzy.id } with
  | [] => .error ("package not found:" ++ fuzzy.toString)
  | available => do
      let item ← findCompatible fuzzy.version available
      referenceOf item

/-- `clearReferenceLocal`. -/
def clearReferenceLocal (s : Repo) (fuzzy : FuzzyReference) : Except String Reference := do
  s.checkLocalArch fuzzy
  s.searchLocal fuzzy

/-- One round of the loop of `clearReference` over the remote records. -/
def remoteCandidate (fuzzy : FuzzyReference) (module : String) (record : PackageInfoV2) :
    Option Reference :=
  if fuzzy.channel.any (· ≠ record.channel) then none
  else if fuzzy.id ≠ record.id then none
  else
    match Version.parse record.version with
    | .error _ => none
    | .ok version =>
        if record.arch = [] then none
        else if (if module = "binary" then
            record.packageInfoV2Module ≠ "binary" ∧ record.packageInfoV2Module ≠ "runtime"
          else record.packageInfoV2Module ≠ module) then none
        else
          match Architecture.parse (record.arch.headD "") with
          | .error _ => none
          | .ok arch => (Reference.create record.channel fuzzy.id version arch).toOption

/-- The loop of `clearReference` over the remote records: keep the first of
    the greatest. -/
def clearReferenceRemote (fuzzy : FuzzyReference) (module : String)
    (records : List PackageInfoV2) : Except String Reference :=
  let found := records.foldl (fun best record =>
    match remoteCandidate fuzzy module record with
    | none => best
    | some ref =>
        match best with
        | none => some ref
        | some b => if b.version.ge ref.version then some b else some ref) none
  match found with
  | some ref => .ok ref
  | none => .error ("not found ref:" ++ fuzzy.toString ++ " module:" ++ module ++
      " from remote repo")

/-! ## Section 4: Operations -/

/-- One entry of `faults` is used up. -/
def popFault (s : Repo) (step : Step) : Repo :=
  { s with faults := fun k => if k = step then (s.faults k).tail else s.faults k }

/-- A fallible local step: the next entry of `faults` decides. -/
def fallible (step : Step) (message : String) : RepoM Unit := fun s =>
  if (s.faults step).headD false then .error message (s.popFault step)
  else .ok () (s.popFault step)

/-- Use the answer of a query. -/
def demand {α : Type} (answer : Repo → Except String α) : RepoM α := fun s =>
  match answer s with
  | .ok a => .ok a s
  | .error e => .error e s

/-- `RepoCache::writeToDisk`. -/
def writeToDisk : RepoM Unit := do
  fallible .writeCache "failed to update cache"
  modify fun s => { s with statesJson := (s.layers, s.merged) }

/-- `RepoCache::findMatchingItem`, up to the iterator. -/
def findMatchingItem (item : RepositoryCacheLayersItem) : RepoM Unit :=
  demand fun s =>
    if s.layers.any item.matchesItem then .ok () else .error "item doesn't exist"

/-- `RepoCache::addLayerItem`. The item stays in memory when the file
    cannot be written. -/
def addLayerItem (item : RepositoryCacheLayersItem) : RepoM Unit := do
  demand fun s => if s.layers.any item.matchesItem then .error "item already exist" else .ok ()
  modify fun s => { s with layers := s.layers ++ [item] }
  writeToDisk

/-- `RepoCache::deleteLayerItem`. -/
def deleteLayerItem (item : RepositoryCacheLayersItem) : RepoM Unit := do
  findMatchingItem item
  modify fun s => { s with layers := s.layers.eraseP item.matchesItem }
  writeToDisk

/-- `RepoCache::updateMergedItems`. -/
def updateMergedItems (items : List RepositoryCacheMergedItem) : RepoM Unit := do
  modify fun s => { s with merged := some items }
  writeToDisk

/-- `markDeleted`. If the file cannot be written, its transaction puts the
    old mark back. -/
def markDeleted (ref : Reference) (deleted : Bool) (module : String) : RepoM Unit := do
  let item ← demand fun s => s.getLayerItem ref module none
  findMatchingItem item
  let s ← get
  modify fun s => { s with
    layers := setDeletedFirst item.matchesItem (if deleted then some true else none) s.layers }
  tryCatch writeToDisk fun e => do
    modify fun s' => { s' with layers := s.layers }
    throw e

/-- `removeOstreeRef`. -/
def removeOstreeRef (layer : RepositoryCacheLayersItem) : RepoM Unit := do
  demand fun s =>
    match s.resolveRefspec (ostreeRefSpecFromLayerItem layer) with
    | some _ => .ok ()
    | none => .error "couldn't resolve ref on local machine"
  fallible .setRef "ostree_repo_set_ref_immediate"
  modify fun s => s.dropRef (ostreeRefSpecFromLayerItem layer)
  deleteLayerItem layer

/-- Put a directory into `layers/`, replacing one of the same name. -/
def setLayerDir (s : Repo) (name : String) (content : Option String) : Repo :=
  { s with layerDirs := (name, content) :: s.layerDirs.filter fun d => d.1 ≠ name }

/-- Remove a directory from `layers/`. -/
def dropLayerDir (s : Repo) (name : String) : Repo :=
  { s with layerDirs := s.layerDirs.filter fun d => d.1 ≠ name }

/-- `ensureEmptyLayerDir`: an existing directory is an error. -/
def ensureEmptyLayerDir (commit : String) : RepoM Unit := do
  demand fun s =>
    match s.layerDirs.lookup commit with
    | some _ => .error ("failed to create layer dir " ++ commit)
    | none => .ok ()
  fallible .layerDir ("failed to create layer dir " ++ commit)
  modify fun s => s.setLayerDir commit none

/-- First part of `handleRepositoryUpdate`: empty the directory and check
    the ref out into it. A checkout that fails leaves an incomplete
    directory. -/
def checkoutLayer (layer : RepositoryCacheLayersItem) : RepoM Unit := do
  fallible .layerDir ("couldn't create directory " ++ layer.commit)
  modify fun s => s.setLayerDir layer.commit none
  fallible .layerDir ("couldn't remove directory " ++ layer.commit)
  modify fun s => s.dropLayerDir layer.commit
  let commit ← demand fun s =>
    match s.resolveRefspec (ostreeRefSpecFromLayerItem layer) with
    | some commit => .ok commit
    | none => .error "ostree_repo_resolve_rev"
  modify fun s => s.setLayerDir layer.commit none
  fallible .checkout ("ostree_repo_checkout_at " ++ layer.commit)
  modify fun s => s.setLayerDir layer.commit (some commit)

/-- `handleRepositoryUpdate`. -/
def handleRepositoryUpdate (layer : RepositoryCacheLayersItem) : RepoM Unit := do
  checkoutLayer layer
  addLayerItem layer

/-- The part of `pull` after the objects have arrived. -/
def checkoutPulled (refString : OstreeRef) : RepoM Unit := do
  let commit ← demand fun s =>
    match s.outside.resolveRev s.ostreeRefs refString with
    | some commit => .ok commit
    | none => .error "ostree_repo_read_commit"
  let info ← demand fun s => s.outside.commitInfo commit
  let s ← get
  let item : RepositoryCacheLayersItem := ⟨commit, none, info, s.defaultRepo⟩
  ensureEmptyLayerDir item.commit
  handleRepositoryUpdate item

/-- Last part of `remove`: a directory that cannot be removed is only
    logged. -/
def removeLayerDir (layer : RepositoryCacheLayersItem) : RepoM Unit := do
  let s ← get
  match s.layerDirOf layer with
  | .error _ => pure ()
  | .ok _ =>
      tryCatch (do
        fallible .removeLayerDir ("Failed to remove dir: " ++ layer.commit)
        modify fun s => s.dropLayerDir layer.commit) fun _ => pure ()

/-- `remove`. -/
def remove (ref : Reference) (module : String) (subRef : Option String) : RepoM Unit := do
  let layer ← demand fun s => s.getLayerItem ref module subRef
  removeOstreeRef layer
  removeLayerDir layer

/-! ## Section 5: `mergeModules` -/

/-- `QString("%1/%2/%3").arg(id.c_str()).arg(version.c_str()).arg(arch.c_str())`.
    Each `arg` also looks for markers in what has been put in before. -/
def groupText (id version arch : String) : String :=
  let text := QString.arg "%1/%2/%3".toList (.fromCString id.toList)
  let text := QString.arg text (.fromCString version.toList)
  .ofList (QString.arg text (.fromCString arch.toList))

example : groupText "a%2" "1.0.0.0" "arm64" = groupText "a1.0.0.0" "1.0.0.0" "arm64" := by decide

/-- The key under which `mergeModules` groups layers. -/
def groupKey (layer : RepositoryCacheLayersItem) : String :=
  groupText layer.info.id layer.info.version layer.arch

/-- Insert a key into a sorted list without repetition. -/
def insertKey (key : String) : List String → List String
  | [] => [key]
  | k :: rest =>
      if key = k then k :: rest
      else if key < k then key :: k :: rest
      else k :: insertKey key rest

/-- The `std::map` of the groups, in the order of its iteration. -/
def layerGroups (s : Repo) : List (String × List RepositoryCacheLayersItem) :=
  let items := s.queryExistingLayerItem
  let keys := items.foldl (fun keys item => insertKey (groupKey item) keys) []
  keys.map fun key => (key, items.filter fun item => groupKey item = key)

/-- The record of a group, `none` if the group has no `binary` module. -/
def mergedRecord (outside : Outside) (key : String) (layers : List RepositoryCacheLayersItem) :
    Option RepositoryCacheMergedItem :=
  let binaryCommit := layers.foldl (fun found layer =>
    if layer.info.packageInfoV2Module = "binary" then layer.commit else found) ""
  let commits := layers.map RepositoryCacheLayersItem.commit
  if binaryCommit = "" then none
  else some {
    binaryCommit := binaryCommit
    commits := commits
    id := outside.sha256 (String.join commits)
    modules := layers.map fun layer => layer.info.packageInfoV2Module
    name := key }

/-- Put a directory into `merged/`. -/
def setMergedDir (s : Repo) (name : String) (commits : List String) : Repo :=
  { s with mergedDirs := (name, commits) :: s.mergedDirs.filter fun d => d.1 ≠ name }

/-- Remove a directory from `merged/`. -/
def dropMergedDir (s : Repo) (name : String) : Repo :=
  { s with mergedDirs := s.mergedDirs.filter fun d => d.1 ≠ name }

/-- Check the layers of a group out into a temporary directory and move it
    to its place. -/
def buildMergedDir (record : RepositoryCacheMergedItem) : RepoM Unit := do
  let tmp := "tmp_" ++ record.id
  fallible .merge "clean merge tmp dir"
  modify fun s => s.dropMergedDir tmp
  fallible .merge "create merge tmp dir"
  modify fun s => s.setMergedDir tmp []
  record.commits.forM fun commit => do
    fallible .merge ("ostree_repo_checkout_at " ++ tmp)
    modify fun s => s.setMergedDir tmp (((s.mergedDirs.lookup tmp).getD []) ++ [commit])
  fallible .merge "clean merge dir"
  modify fun s => s.dropMergedDir record.id
  fallible .merge "rename merge dir"
  modify fun s =>
    (s.setMergedDir record.id ((s.mergedDirs.lookup tmp).getD [])).dropMergedDir tmp

/-- One round of the loop over the groups. -/
def mergeGroup (key : String) (group : List RepositoryCacheLayersItem) :
    RepoM (Option RepositoryCacheMergedItem) := do
  let s ← get
  if group.length = 1 then pure none
  else
    match mergedRecord s.outside key (s.outside.sort.byModule group) with
    | none => pure none
    | some record =>
        match (s.merged.getD []).find? fun m => m.id = record.id with
        | some old =>
            if old.commits = record.commits then pure (some old)
            else
              buildMergedDir record
              pure (some record)
        | none =>
            buildMergedDir record
            pure (some record)

/-- The loop over the groups. -/
def mergeGroups : List (String × List RepositoryCacheLayersItem) →
    RepoM (List RepositoryCacheMergedItem)
  | [] => pure []
  | (key, group) :: rest => do
      let record ← mergeGroup key group
      let records ← mergeGroups rest
      pure (record.toList ++ records)

/-- Remove what has no record from `merged/`; failures are only logged. -/
def cleanMergedDir (records : List RepositoryCacheMergedItem) : RepoM Unit := do
  fallible .merge "read merge directory"
  let s ← get
  s.mergedDirs.forM fun dir => do
    if records.any fun r => r.id = dir.1 then pure ()
    else
      tryCatch (do
        fallible .merge "remove merged directory"
        modify fun s => s.dropMergedDir dir.1) fun _ => pure ()

/-- `mergeModules`. -/
def mergeModules : RepoM Unit := do
  let s ← get
  let records ← mergeGroups s.layerGroups
  updateMergedItems records
  cleanMergedDir records

end Repo

/-! ## Section 6: Repositories from lists -/

/-- An outside that knows the given commits and resolves a ref without
    remote to the first one set. -/
def Outside.ofCommits (infos : List (String × PackageInfoV2)) : Outside where
  sort := .stable
  map := .insertion
  sha256 := id
  commitInfo := fun commit =>
    match infos.lookup commit with
    | some info => .ok info
    | none => .error "failed to load info.json"
  resolveRev := fun refs ref => (refs.find? fun e => e.1.ref = ref).map Prod.snd
  cpuArch := .ok .x86_64
  strayArch := .unknow

/-- A repository with the given layers, all checked out, where no local step
    fails. -/
def Repo.ofLayers (outside : Outside) (layers : List RepositoryCacheLayersItem)
    (pulls : List PullReply) (remotes : List RemoteReply) : Repo where
  outside := outside
  defaultRepo := "stable"
  layers := layers
  merged := none
  statesJson := (layers, none)
  ostreeRefs := layers.map fun l => (Repo.ostreeRefSpecFromLayerItem l, l.commit)
  layerDirs := layers.map fun l => (l.commit, some l.commit)
  mergedDirs := []
  faults := fun _ => []
  pulls := pulls
  remotes := remotes

end Linglong
