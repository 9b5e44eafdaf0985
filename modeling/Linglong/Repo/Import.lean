import Linglong.Repo.Steps

/-! # Adding a Layer

    `importLayerDir` puts the contents of a directory into the repository:
    it commits the directory under a ref of the remote `local`, checks this
    ref out into `layers/<commit>` and adds an item to the cache. `pull` ends
    in the same way, after ostree has set a ref of the default remote.

    Three functions build names for the ref. `commitDirToRepo` is given the
    name that `ostreeSpecFromReferenceV2` makes from the reference, the
    module and the sub-reference. Everything after that makes the name from
    the item (`ostreeRefSpecFromLayerItem`), which has the module as it is
    written in `info.json`, and no sub-reference.

    1. The operation.
    2. What a successful import has done.
    3. When the names agree (`refNames_agree_iff`).
    4. A pull, cut into what arrives and what is done with it (`pull_run`).
-/

namespace Linglong

open Framework RepositoryCacheLayersItem

/-! ## Section 1: The operation -/

/-- `package::LayerDir`, as far as it is looked at: whether it exists, and
    its `info.json`. -/
structure LayerDir where
  path : String
  present : Bool
  info : Except String PackageInfoV2

namespace Repo

/-- The transaction of `commitDirToRepo`. -/
def writeCommit (dirs : List String) : RepoM Unit := do
  fallible .commitDir "ostree_repo_prepare_transaction"
  dirs.forM fun _ => fallible .commitDir "ostree_repo_write_directory_to_mtree"
  fallible .commitDir "ostree_repo_write_mtree"
  fallible .commitDir "ostree_repo_write_commit"
  fallible .commitDir "ostree_repo_commit_transaction"

/-- `commitDirToRepo`. The checksum of the commit is what
    `ostree_repo_write_commit` finds; a transaction that fails sets no ref. -/
def commitDirToRepo (dirs : List String) (refspec : OstreeRef) (commit : String) :
    RepoM Unit := do
  writeCommit dirs
  modify fun s => s.setRef ⟨"local", refspec⟩ commit

/-- The first part of `importLayerDir`: what is imported, and as what. -/
def importTarget (s : Repo) (dir : LayerDir) (subRef : Option String) :
    Except String (PackageInfoV2 × Reference) := do
  if dir.present = false then
    .error ("layer directory " ++ dir.path ++ " not exists")
  else
    let info ← dir.info
    let reference ← Reference.fromPackageInfo info
    match s.getLayerDir reference info.packageInfoV2Module subRef with
    | .ok _ => .error (reference.toString ++ " exists.")
    | .error _ => .ok (info, reference)

/-- The item that `importLayerDir` adds. -/
def localItem (commit : String) (info : PackageInfoV2) : RepositoryCacheLayersItem :=
  ⟨commit, none, info, "local"⟩

/-- Check the commit out and add the item; `pull` ends in the same way. -/
def addCheckedOut (item : RepositoryCacheLayersItem) : RepoM Unit := do
  ensureEmptyLayerDir item.commit
  handleRepositoryUpdate item

/-- `importLayerDir`. The undo action that it registers after its last
    fallible step never runs. -/
def importLayerDir (dir : LayerDir) (overlays : List String) (subRef : Option String)
    (commit : String) : RepoM Unit := do
  let (info, reference) ← demand fun s => s.importTarget dir subRef
  commitDirToRepo (dir.path :: overlays)
    (ostreeSpecFromReferenceV2 reference info.packageInfoV2Module subRef) commit
  addCheckedOut (localItem commit info)

/-! ## Section 2: Successful imports -/

/-- Nothing but faults of one kind has been used up. -/
def PopsOnly (step : Step) (s s' : Repo) : Prop :=
  ∃ faults, s' = { s with faults := faults } ∧ ∀ k, k ≠ step → faults k = s.faults k

section PopsOnly

variable {step : Step}

theorem PopsOnly.refl (s : Repo) : PopsOnly step s s := ⟨s.faults, rfl, fun _ _ => rfl⟩

theorem PopsOnly.trans {s₁ s₂ s₃ : Repo} (h : PopsOnly step s₁ s₂) (h' : PopsOnly step s₂ s₃) :
    PopsOnly step s₁ s₃ := by
  obtain ⟨faults, rfl, hother⟩ := h
  obtain ⟨faults', rfl, hother'⟩ := h'
  exact ⟨faults', rfl, fun k hk => (hother' k hk).trans (hother k hk)⟩

instance : Std.Refl (PopsOnly step) := ⟨PopsOnly.refl⟩

instance : IsTrans Repo (PopsOnly step) := ⟨fun _ _ _ => PopsOnly.trans⟩

theorem popsOnly_fallible (message : String) : Within (PopsOnly step) (fallible step message) := by
  intro s
  have hpop : PopsOnly step s (s.popFault step) :=
    ⟨_, rfl, fun k hk => by simp only [if_neg hk]⟩
  unfold after fallible
  cases (s.faults step).headD false <;> exact hpop

theorem PopsOnly.setRef {s s' : Repo} (h : PopsOnly step s s') (spec : OstreeRefSpec)
    (commit : String) : PopsOnly step (s.setRef spec commit) (s'.setRef spec commit) := by
  obtain ⟨faults, rfl, hother⟩ := h
  exact ⟨faults, rfl, hother⟩

end PopsOnly

theorem popsOnly_writeCommit (dirs : List String) :
    Within (PopsOnly .commitDir) (writeCommit dirs) :=
  within_bind (popsOnly_fallible _) fun _ =>
    within_bind (within_forM fun _ _ => popsOnly_fallible _) fun _ =>
    within_bind (popsOnly_fallible _) fun _ => within_bind (popsOnly_fallible _) fun _ =>
    popsOnly_fallible _

/-- What checking a commit out and adding its item has done. -/
structure CheckedOut (item : RepositoryCacheLayersItem) (s s' : Repo) : Prop where
  outside : s'.outside = s.outside
  ostreeRefs : s'.ostreeRefs = s.ostreeRefs
  layers : s'.layers = s.layers ++ [item]
  /-- The directory was not there. -/
  fresh : s.layerDirs.lookup item.commit = none
  /-- It has the commit that the ref of the item leads to. -/
  content : ∃ commit, s.resolveRefspec (ostreeRefSpecFromLayerItem item) = some commit ∧
    s'.layerDirs.lookup item.commit = some (some commit)
  dirs : ∀ name, name ≠ item.commit → s'.layerDirs.lookup name = s.layerDirs.lookup name

theorem addLayerItem_ok {item : RepositoryCacheLayersItem} {s s' : Repo}
    (h : addLayerItem item s = .ok () s') :
    ∃ faults json, s' = { s with
      layers := s.layers ++ [item], faults := faults, statesJson := json } := by
  rcases addLayerItem_cases item s with ⟨e, herror⟩ | ⟨-, faults, json, hafter⟩
  · rw [herror] at h
    cases h
  · rw [after_of_ok h] at hafter
    exact ⟨faults, json, hafter⟩

theorem addCheckedOut_ok {item : RepositoryCacheLayersItem} {s s' : Repo}
    (h : addCheckedOut item s = .ok () s') : CheckedOut item s s' := by
  obtain ⟨_, s₁, hempty, h⟩ := bind_ok_iff.1 h
  obtain ⟨_, s₂, hcheckout, hadd⟩ := bind_ok_iff.1 h
  have hfresh : s.layerDirs.lookup item.commit = none := by
    rcases ensureEmptyLayerDir_cases item.commit s with ⟨e, herror⟩ | hnone
    · rw [herror] at hempty
      cases hempty
    · exact hnone
  have hfirst := onlyDir_ensureEmptyLayerDir.of_ok hempty
  have hsecond := onlyDir_checkoutLayer.of_ok hcheckout
  obtain ⟨commit, hresolve, hcontent⟩ := checkoutLayer_ok hcheckout
  obtain ⟨faults, json, rfl⟩ := addLayerItem_ok hadd
  have hboth := hfirst.trans hsecond
  refine ⟨hboth.outside, hboth.ostreeRefs, ?_, hfresh, ⟨commit, ?_, hcontent⟩, hboth.dirs⟩
  · show s₂.layers ++ [item] = s.layers ++ [item]
    rw [hboth.layers]
  · rw [resolveRefspec, ← hfirst.ostreeRefs]
    exact hresolve

/-- The commit that an import makes, set in the refs. -/
def committed (s : Repo) (info : PackageInfoV2) (reference : Reference) (subRef : Option String)
    (commit : String) : Repo :=
  s.setRef ⟨"local", ostreeSpecFromReferenceV2 reference info.packageInfoV2Module subRef⟩ commit

/-- What a successful import has done: it has set a ref, and it has checked
    out what is found under the name of the item. -/
theorem importLayerDir_ok {dir : LayerDir} {overlays : List String} {subRef : Option String}
    {commit : String} {s s' : Repo} (h : importLayerDir dir overlays subRef commit s = .ok () s') :
    ∃ info reference, s.importTarget dir subRef = .ok (info, reference) ∧
      CheckedOut (localItem commit info) (s.committed info reference subRef commit) s' := by
  obtain ⟨⟨info, reference⟩, s₁, hdemand, hrest⟩ := bind_ok_iff.1 h
  obtain ⟨htarget, rfl⟩ := demand_ok hdemand
  obtain ⟨_, s₂, hcommit, hadd⟩ := bind_ok_iff.1 hrest
  obtain ⟨_, s₃, hwrite, hset⟩ := bind_ok_iff.1 hcommit
  obtain ⟨faults, rfl, -⟩ := (popsOnly_writeCommit _).of_ok hwrite
  cases hset
  obtain ⟨houtside, hrefs, hlayers, hfresh, hcontent, hdirs⟩ := addCheckedOut_ok hadd
  exact ⟨info, reference, htarget, houtside, hrefs, hlayers, hfresh, hcontent, hdirs⟩

/-! ## Section 3: Names of refs -/

/-- The text of the version in `info.json` is what `Version` prints, the
    module is not called `runtime`, and there is no sub-reference. -/
def PlainName (info : PackageInfoV2) (subRef : Option String) : Prop :=
  info.packageInfoV2Module ≠ "runtime" ∧ subRef = none ∧ info.version.toList.getLast? ≠ some '\n'

instance (info : PackageInfoV2) (subRef : Option String) : Decidable (PlainName info subRef) :=
  inferInstanceAs (Decidable (_ ∧ _ ∧ _))

theorem normModule_eq_self_iff {module : String} :
    normModule module = module ↔ module ≠ "runtime" := by
  unfold normModule
  split
  · next h =>
    subst h
    decide
  · next h => exact ⟨fun _ => h, fun _ => rfl⟩

/-- The suffix of a sub-reference always gives another name for the module. -/
theorem specModule_eq_self_iff (reference : Reference) {module : String}
    {subRef : Option String} :
    (ostreeSpecFromReferenceV2 reference module subRef).module = module ↔
      module ≠ "runtime" ∧ subRef = none := by
  cases subRef with
  | none => simp [ostreeSpecFromReferenceV2, ostreeSpec, normModule_eq_self_iff]
  | some sub =>
    refine ⟨fun h => ?_, fun h => nomatch h.2⟩
    replace h : normModule module ++ "_" ++ sub = module := h
    by_cases hruntime : module = "runtime"
    · -- a name that starts with `binary`
      rw [hruntime] at h
      have hhead := congrArg (fun name => name.toList.head?) h
      simp [normModule] at hhead
    · have hlength := congrArg String.length h
      rw [normModule, if_neg hruntime, String.length_append, String.length_append] at hlength
      have hone : "_".length = 1 := rfl
      omega

/-- The two names agree exactly for the plain ones. -/
theorem refSpec_eq_iff {info : PackageInfoV2} {reference : Reference}
    (href : Reference.fromPackageInfo info = .ok reference) (subRef : Option String)
    (commit : String) :
    OstreeRefSpec.mk "local"
        (ostreeSpecFromReferenceV2 reference info.packageInfoV2Module subRef) =
      ostreeRefSpecFromLayerItem (localItem commit info) ↔ PlainName info subRef := by
  obtain ⟨hversion, harch, hchannel, hid⟩ := Reference.fromPackageInfo_ok href
  have harch' : reference.arch.toString = (localItem commit info).arch :=
    Architecture.toString_of_parse harch
  constructor
  · intro h
    have hmodule := congrArg (fun spec : OstreeRefSpec => spec.ref.module) h
    have hline := congrArg (fun spec : OstreeRefSpec => spec.ref.version) h
    obtain ⟨hruntime, hsub⟩ := (specModule_eq_self_iff reference).1 hmodule
    exact ⟨hruntime, hsub, (Version.toString_eq_iff hversion).1 hline⟩
  · rintro ⟨hruntime, hsub, hline⟩
    have hmodule := (specModule_eq_self_iff reference).2 ⟨hruntime, hsub⟩
    have hprint := (Version.toString_eq_iff hversion).2 hline
    show OstreeRefSpec.mk "local" ⟨reference.channel, reference.id, reference.version.toString,
      reference.arch.toString,
      (ostreeSpecFromReferenceV2 reference info.packageInfoV2Module subRef).module⟩ = _
    rw [hmodule, hprint, harch', hchannel, hid]
    rfl

/-- What the names are for: the directory of the commit has what was just
    committed, and a later removal finds the ref. -/
def FoundAgain (item : RepositoryCacheLayersItem) (s : Repo) : Prop :=
  s.layerDirs.lookup item.commit = some (some item.commit) ∧
    s.resolveRefspec (ostreeRefSpecFromLayerItem item) = some item.commit ∧
    (s.NoFaults .setRef → s.NoFaults .writeCache → ∃ s', removeOstreeRef item s = .ok () s')

theorem importTarget_ok {s : Repo} {dir : LayerDir} {subRef : Option String}
    {info : PackageInfoV2} {reference : Reference}
    (h : s.importTarget dir subRef = .ok (info, reference)) :
    dir.info = .ok info ∧ Reference.fromPackageInfo info = .ok reference ∧
      ∃ e, s.getLayerDir reference info.packageInfoV2Module subRef = .error e := by
  unfold importTarget at h
  simp only [ite_error_eq_ok_iff, bind_eq_ok_iff] at h
  obtain ⟨-, info', hinfo, reference', href, h⟩ := h
  split at h
  · cases h
  · next e hdir =>
    cases h
    exact ⟨hinfo, href, e, hdir⟩

/-- An import under a plain name finds its commit again. -/
theorem foundAgain_of_plainName {dir : LayerDir} {overlays : List String} {subRef : Option String}
    {commit : String} {s s' : Repo} {info : PackageInfoV2} {reference : Reference}
    (htarget : s.importTarget dir subRef = .ok (info, reference)) (hplain : PlainName info subRef)
    (h : importLayerDir dir overlays subRef commit s = .ok () s') :
    FoundAgain (localItem commit info) s' := by
  obtain ⟨info', reference', htarget', hdone⟩ := importLayerDir_ok h
  rw [htarget] at htarget'
  cases htarget'
  have hname := (refSpec_eq_iff (importTarget_ok htarget).2.1 subRef commit).2 hplain
  have hset : (s.committed info reference subRef commit).resolveRefspec
      (ostreeRefSpecFromLayerItem (localItem commit info)) = some commit := by
    rw [← hname]
    exact List.lookup_cons_self
  have hresolve : s'.resolveRefspec (ostreeRefSpecFromLayerItem (localItem commit info)) =
      some commit := by
    rw [resolveRefspec, hdone.ostreeRefs]
    exact hset
  obtain ⟨commit', hcommit', hcontent⟩ := hdone.content
  rw [hset] at hcommit'
  cases hcommit'
  refine ⟨hcontent, hresolve, fun hset hwrite => ?_⟩
  have hmem : localItem commit info ∈ s'.layers := by
    rw [hdone.layers]
    exact List.mem_append_right _ (List.mem_singleton.2 rfl)
  rcases removeOstreeRef_cases hmem with ⟨e, faults, -, -, hfault⟩ | ⟨faults, json, -, -, hok⟩
  · exact absurd hset (hfault (by rw [hresolve]; rfl))
  · exact hok hwrite

/-- **Names of refs.** An accepted import stores its commit under the name
    that is later made from the item, and so finds it again, exactly if the
    name is plain. -/
theorem refNames_agree_iff {s : Repo} {dir : LayerDir} {subRef : Option String}
    {info : PackageInfoV2} {reference : Reference}
    (htarget : s.importTarget dir subRef = .ok (info, reference)) (commit : String) :
    (OstreeRefSpec.mk "local"
        (ostreeSpecFromReferenceV2 reference info.packageInfoV2Module subRef) =
      ostreeRefSpecFromLayerItem (localItem commit info) ∧
      ∀ overlays s', importLayerDir dir overlays subRef commit s = .ok () s' →
        FoundAgain (localItem commit info) s') ↔ PlainName info subRef := by
  rw [refSpec_eq_iff (importTarget_ok htarget).2.1]
  constructor
  · intro h
    exact h.1
  · intro hplain
    exact ⟨hplain, fun overlays s' h => foundAgain_of_plainName htarget hplain h⟩

/-- A directory with a module of an app. -/
def appDir (module : String) : LayerDir :=
  ⟨"/tmp/layer", true, .ok (.onMain "org.app" "1.0.0.0" module)⟩

theorem refNames_agree_binary :
    (ofLayers (.ofCommits []) [] [] []).importTarget (appDir "binary") none =
        .ok (.onMain "org.app" "1.0.0.0" "binary", .onMain "org.app" 0 (by decide)) ∧
      ∀ overlays s', importLayerDir (appDir "binary") overlays none "c1"
          (ofLayers (.ofCommits []) [] [] []) = .ok () s' →
        FoundAgain (localItem "c1" (.onMain "org.app" "1.0.0.0" "binary")) s' := by
  have htarget : (ofLayers (.ofCommits []) [] [] []).importTarget (appDir "binary") none =
      .ok (.onMain "org.app" "1.0.0.0" "binary", .onMain "org.app" 0 (by decide)) := by decide
  exact ⟨htarget, ((refNames_agree_iff htarget "c1").2 (by decide)).2⟩

/-- The module `runtime` of an app is committed as `binary` and looked for
    as `runtime`. -/
theorem not_refNames_agree :
    ¬ ∀ (s : Repo) (dir : LayerDir) (subRef : Option String) (info : PackageInfoV2)
      (reference : Reference) (commit : String),
      s.importTarget dir subRef = .ok (info, reference) →
      OstreeRefSpec.mk "local"
          (ostreeSpecFromReferenceV2 reference info.packageInfoV2Module subRef) =
        ostreeRefSpecFromLayerItem (localItem commit info) := by
  intro h
  have hsame := h (ofLayers (.ofCommits []) [] [] []) (appDir "runtime") none
    (.onMain "org.app" "1.0.0.0" "runtime") (.onMain "org.app" 0 (by decide)) "c1" (by decide)
  exact absurd hsame (by decide)

/-! ## Section 4: Pulling -/

/-- What the replies of ostree come to: the name under which the objects of
    a module arrive and the commit that is fetched, `none` if the pull is
    given up. For modules without an old name a missing branch is overlooked
    and nothing is fetched. -/
def fetches (s : Repo) (reference : Reference) (module : String) :
    Option (OstreeRef × Option String) :=
  match s.pulls with
  | [] => none
  | reply :: rest =>
      match reply.status (ostreeSpecFromReferenceV2 reference module none) with
      | .ok commit => some (ostreeSpecFromReferenceV2 reference module none, some commit)
      | .error _ => none
      | .noSuchBranch _ =>
          if module = "binary" ∨ module = "runtime" then
            match rest with
            | [] => none
            | reply :: _ =>
                match reply.status (ostreeSpecFromReference reference module) with
                | .ok commit => some (ostreeSpecFromReference reference module, some commit)
                | .error _ | .noSuchBranch _ => none
          else some (ostreeSpecFromReferenceV2 reference module none, none)

/-- The replies that a pull waits for. -/
def awaited (s : Repo) (reference : Reference) (module : String) : List PullReply :=
  match s.pulls with
  | [] => []
  | reply :: rest =>
      match reply.status (ostreeSpecFromReferenceV2 reference module none) with
      | .ok _ | .error _ => [reply]
      | .noSuchBranch _ =>
          if module = "binary" ∨ module = "runtime" then reply :: rest.take 1 else [reply]

/-- The repository once the objects have arrived. -/
def arrived (s : Repo) (ref : OstreeRef) : Option String → Repo
  | none => s
  | some commit => s.setRef ⟨s.defaultRepo, ref⟩ commit

/-- The item that `pull` adds. -/
def pulledItem (s : Repo) (ref : OstreeRef) : Except String RepositoryCacheLayersItem :=
  match s.outside.resolveRev s.ostreeRefs ref with
  | none => .error "ostree_repo_read_commit"
  | some commit => (s.outside.commitInfo commit).map fun info => ⟨commit, none, info, s.defaultRepo⟩

/-- A call reports an error. -/
def Reports (calls : List PackageTask.Call) : Prop := ∃ e, .reportError e ∈ calls

/-- The call is a `reportError`. -/
def isErrorReport : PackageTask.Call → Bool
  | .reportError _ => true
  | _ => false

instance (calls : List PackageTask.Call) : Decidable (Reports calls) :=
  decidable_of_iff (calls.any isErrorReport = true) <| by
    unfold Reports
    rw [List.any_eq_true]
    constructor
    · rintro ⟨call, hmem, hreport⟩
      cases call with
      | reportError e => exact ⟨e, hmem⟩
      | _ => cases hreport
    · rintro ⟨e, hmem⟩
      exact ⟨_, hmem, rfl⟩

/-- Ostree reports an error while it is at work. -/
def CaughtError (replies : List PullReply) : Prop := ∃ reply ∈ replies, .caughtError ∈ reply.during

theorem reports_append {calls calls' : List PackageTask.Call} :
    Reports (calls ++ calls') ↔ Reports calls ∨ Reports calls' := by
  unfold Reports
  constructor
  · rintro ⟨e, he⟩
    rcases List.mem_append.1 he with he | he
    · exact .inl ⟨e, he⟩
    · exact .inr ⟨e, he⟩
  · rintro (⟨e, he⟩ | ⟨e, he⟩)
    · exact ⟨e, List.mem_append_left _ he⟩
    · exact ⟨e, List.mem_append_right _ he⟩

theorem reports_concat (calls : List PackageTask.Call) (e : Error) :
    Reports (calls ++ [.reportError e]) :=
  ⟨e, List.mem_append_right _ (List.mem_singleton.2 rfl)⟩

theorem caughtError_pair {reply reply' : PullReply} :
    CaughtError [reply] ∨ CaughtError [reply'] ↔ CaughtError [reply, reply'] := by
  simp [CaughtError]

theorem reports_during (reply : PullReply) :
    Reports (reply.during.map PullEvent.toCall) ↔ CaughtError [reply] := by
  unfold Reports CaughtError
  simp only [List.mem_map, List.mem_singleton, exists_eq_left]
  constructor
  · rintro ⟨e, event, hevent, hcall⟩
    cases event with
    | caughtError => exact hevent
    | progress part status => cases hcall
    | cancel => cases hcall
  · intro h
    exact ⟨_, .caughtError, h, rfl⟩

theorem checkoutPulled_run (ref : OstreeRef) (s : Repo) :
    checkoutPulled ref s =
      match s.pulledItem ref with
      | .error e => .error e s
      | .ok item => addCheckedOut item s := by
  unfold pulledItem
  cases hcommit : s.outside.resolveRev s.ostreeRefs ref with
  | none => exact bind_of_error (demand_of_error (by simp [hcommit]))
  | some commit =>
    have hfirst : checkoutPulled ref s = (demand (fun s => s.outside.commitInfo commit) >>=
        fun info => do
          let s ← get
          addCheckedOut ⟨commit, none, info, s.defaultRepo⟩ : RepoM Unit) s :=
      bind_of_ok (demand_of_ok (by simp [hcommit]))
    rw [hfirst]
    cases hinfo : s.outside.commitInfo commit with
    | error e =>
      simp only [Except.map, hinfo]
      exact bind_of_error (demand_of_error hinfo)
    | ok info =>
      simp only [Except.map, hinfo]
      exact bind_of_ok (demand_of_ok hinfo)

/-- What `ostree_repo_pull_with_options` does with one reply. -/
theorem ostreePull_run {s : Repo} {reply : PullReply} {rest : List PullReply}
    (h : s.pulls = reply :: rest) (ref : OstreeRef) :
    s.ostreePull ref =
      ({ s.arrived ref (match reply.status ref with
          | .ok commit => some commit
          | _ => none) with pulls := rest },
        reply.during.map PullEvent.toCall, reply.status ref) := by
  unfold ostreePull
  rw [h]
  cases hstatus : reply.status ref <;> simp [hstatus, arrived, setRef]

/-- **A pull** gives up and reports an error, or it adds what has arrived. -/
theorem pull_run (s : Repo) (reference : Reference) (module : String) :
    match s.fetches reference module with
    | none => (∃ pulls, (s.pull reference module).1 = { s with pulls := pulls }) ∧
        Reports (s.pull reference module).2
    | some (ref, commit) => ∃ pulls,
        (s.pull reference module).1 =
          (finishPull { s.arrived ref commit with pulls := pulls } ref).1 ∧
        (Reports (s.pull reference module).2 ↔ CaughtError (s.awaited reference module) ∨
          Reports (finishPull { s.arrived ref commit with pulls := pulls } ref).2) := by
  unfold fetches awaited pull
  cases hpulls : s.pulls with
  | nil =>
    simp only [ostreePull, hpulls]
    exact ⟨⟨s.pulls, rfl⟩, reports_concat _ _⟩
  | cons reply rest =>
    simp only [ostreePull_run hpulls]
    cases hstatus : reply.status (ostreeSpecFromReferenceV2 reference module none) with
    | ok commit =>
      simp only [reports_append, reports_during]
      exact ⟨rest, rfl, Iff.rfl⟩
    | error e => exact ⟨⟨rest, rfl⟩, reports_concat _ _⟩
    | noSuchBranch e =>
      by_cases hmodule : module = "binary" ∨ module = "runtime"
      · -- the second attempt, in a repository that has lost a reply
        simp only [if_pos hmodule, pullOldName]
        cases rest with
        | nil =>
          refine ⟨⟨[], rfl⟩, ?_⟩
          rw [reports_append]
          exact .inr (reports_concat _ _)
        | cons reply' rest' =>
          have hpulls' : ({ s.arrived (ostreeSpecFromReferenceV2 reference module none) none with
              pulls := reply' :: rest' } : Repo).pulls = reply' :: rest' := rfl
          simp only [ostreePull_run hpulls']
          cases hstatus' : reply'.status (ostreeSpecFromReference reference module) with
          | ok commit =>
            simp only [reports_append, reports_during]
            refine ⟨rest', rfl, ?_⟩
            rw [← or_assoc, caughtError_pair]
            rfl
          | error e | noSuchBranch e =>
            refine ⟨⟨rest', rfl⟩, ?_⟩
            rw [reports_append]
            exact .inr (reports_concat _ _)
      · simp only [if_neg hmodule, reports_append, reports_during]
        exact ⟨rest, rfl, Iff.rfl⟩

/-- What a pull that reports no error has done. -/
theorem pull_ok {s : Repo} {reference : Reference} {module : String}
    (h : ¬ Reports (s.pull reference module).2) :
    ∃ ref commit item pulls, s.fetches reference module = some (ref, commit) ∧
      (s.arrived ref commit).pulledItem ref = .ok item ∧
      CheckedOut item { s.arrived ref commit with pulls := pulls } (s.pull reference module).1 := by
  have hrun := s.pull_run reference module
  cases hfetches : s.fetches reference module with
  | none =>
    rw [hfetches] at hrun
    exact absurd hrun.2 h
  | some fetched =>
    obtain ⟨ref, commit⟩ := fetched
    rw [hfetches] at hrun
    obtain ⟨pulls, hstate, hreports⟩ := hrun
    -- a checkout that fails would have been reported
    have hquiet := fun hr => h (hreports.2 (.inr hr))
    have hcheckout := checkoutPulled_run ref { s.arrived ref commit with pulls := pulls }
    unfold finishPull at hstate hquiet
    rw [hcheckout] at hstate hquiet
    have hitem : ({ s.arrived ref commit with pulls := pulls } : Repo).pulledItem ref =
        (s.arrived ref commit).pulledItem ref := rfl
    rw [hitem] at hstate hquiet
    cases hpulled : (s.arrived ref commit).pulledItem ref with
    | error e =>
      rw [hpulled] at hquiet
      exact absurd (reports_concat [] _) hquiet
    | ok item =>
      rw [hpulled] at hstate hquiet
      dsimp only at hstate hquiet
      cases hadd : addCheckedOut item { s.arrived ref commit with pulls := pulls } with
      | error e s' =>
        rw [hadd] at hquiet
        exact absurd (reports_concat [] _) hquiet
      | ok u s' =>
        rw [hadd] at hstate
        refine ⟨ref, commit, item, pulls, rfl, hpulled, ?_⟩
        rw [hstate]
        exact addCheckedOut_ok hadd

end Repo

end Linglong
