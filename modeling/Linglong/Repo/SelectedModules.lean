import Linglong.Framework.Separator
import Linglong.Repo.MergeCrash

/-! # Merging Selected Modules

    `ll-builder run --modules` puts the requested modules of a package into
    one directory: the other `OSTreeRepo::getMergedModuleDir`
    (`ostree_repo.cpp`) collects the layers of the package whose modules are
    requested and checks them out one over the other.

    It takes the modules to be complete if there are as many layers as
    requests. Neither the channel nor the repository of a layer is compared,
    so that two layers may have the same module and another one may be
    missing.

    1. The function.
    2. When it succeeds (`getMergedModuleDirWith_ok_iff`).
    3. When every requested module is there (`mergesRequested_iff`).
-/

namespace Linglong

open Framework

/-! ## Section 1: The function -/

/-- The names after `--modules`. Command-line arguments have no NUL. -/
structure ModuleNames where
  names : List String
  nodup : names.Nodup
  noNul : ∀ module ∈ names, '\x00' ∉ module.toList

/-- What a `QString` made of `c_str()` has of a text. -/
def cString (text : String) : String := .ofList (QString.fromCString text.toList)

theorem cString_of_noNul {text : String} (h : '\x00' ∉ text.toList)
    (hmark : text.toList.head? ≠ some QString.byteOrderMark) : cString text = text := by
  unfold cString
  rw [QString.fromCString_of_noNul h, QString.fromUtf8_of_not_marked hmark, String.ofList_toList]

namespace Repo

/-- The layer is of this id, version and architecture. -/
def isOf (ref : Reference) (layer : RepositoryCacheLayersItem) : Bool :=
  layer.info.id == ref.id && layer.info.version == ref.version.toString &&
    layer.arch == ref.arch.toString

/-- The layers that the loop collects. -/
def selectedLayers (s : Repo) (ref : Reference) (loadModules : List String) :
    List RepositoryCacheLayersItem :=
  s.queryExistingLayerItem.filter fun layer =>
    isOf ref layer && loadModules.contains (cString layer.info.packageInfoV2Module)

/-- `getMergedModuleDir` of a reference and modules: the name of the directory
    in `merged/`. -/
def getMergedModuleDirWith (ref : Reference) (loadModules : List String) : RepoM String := do
  let s ← get
  let layers := s.selectedLayers ref loadModules
  let commits := layers.map RepositoryCacheLayersItem.commit
  let findModules := String.join (layers.map fun layer => layer.info.packageInfoV2Module ++ " ")
  if commits = [] then throw "not found any layer"
  else if commits.length < loadModules.length then
    throw ("missing module, only found: " ++ cString findModules)
  else do
    let mergeID := s.outside.sha256 (String.join commits)
    let mergeTmp := "tmp_" ++ mergeID
    commits.forM fun commit => do
      fallible .merge ("ostree_repo_checkout_at " ++ mergeTmp)
      modify fun s => s.setMergedDir mergeTmp (((s.mergedDirs.lookup mergeTmp).getD []) ++ [commit])
    pure mergeTmp

/-- The directory has what it had, and some commits have been checked out
    over it; for every requested module one of them is that of a layer of the
    package that is not deleted and has exactly this module. -/
def HasRequested (s s' : Repo) (ref : Reference) (loadModules : List String) (name : String) :
    Prop :=
  ∃ commits, s'.mergedDirs.lookup name = some ((s.mergedDirs.lookup name).getD [] ++ commits) ∧
    ∀ module ∈ loadModules, ∃ layer ∈ s.layers, layer.isDeleted = false ∧ isOf ref layer = true ∧
      layer.info.packageInfoV2Module = module ∧ layer.commit ∈ commits

/-- Success means that every requested module is there. -/
def MergesRequested (s : Repo) (ref : Reference) (loadModules : List String) : Prop :=
  ∀ name s', getMergedModuleDirWith ref loadModules s = .ok name s' →
    HasRequested s s' ref loadModules name

/-- Every requested module has a layer. -/
def HasLayers (s : Repo) (ref : Reference) (loadModules : List String) : Prop :=
  ∀ module ∈ loadModules, ∃ layer ∈ s.layers, layer.isDeleted = false ∧ isOf ref layer = true ∧
    layer.info.packageInfoV2Module = module

/-- A requested module that begins with a byte order mark is not what a layer's
    module is compared with. The commit of its layer is collected all the same
    if another layer that is requested has it. -/
def CollectsMarked (s : Repo) (ref : Reference) (loadModules : List String) : Prop :=
  ∀ module ∈ loadModules, module.toList.head? = some QString.byteOrderMark →
    ∃ layer ∈ s.layers, layer.isDeleted = false ∧ isOf ref layer = true ∧
      layer.info.packageInfoV2Module = module ∧
      layer.commit ∈ (s.selectedLayers ref loadModules).map RepositoryCacheLayersItem.commit

/-! ## Section 2: When it succeeds -/

/-- One round of the loop over the commits. -/
def checkoutRound (id message commit : String) : RepoM Unit := do
  fallible .merge message
  modify (MergeStep.checkout id commit).apply

theorem checkoutRound_of_fails {s : Repo} (h : s.fails .merge 0 = true)
    (id message commit : String) :
    checkoutRound id message commit s = .error message (s.popFault .merge) :=
  bind_of_error (fallible_of_fails h message)

theorem checkoutRound_of_not_fails {s : Repo} (h : s.fails .merge 0 = false)
    (id message commit : String) : checkoutRound id message commit s =
      .ok () ((MergeStep.checkout id commit).apply (s.popFault .merge)) :=
  bind_of_ok (fallible_of_not_fails h message)

/-- **Checkouts**: they succeed iff none of their steps fails. -/
theorem checkouts_ok_iff (id message : String) (commits : List String) (s : Repo) :
    (∃ s', commits.forM (checkoutRound id message) s = .ok () s') ↔
      ∀ i, i < commits.length → s.fails .merge i = false := by
  induction commits generalizing s with
  | nil => exact ⟨fun _ i hi => absurd hi (Nat.not_lt_zero i), fun _ => ⟨s, rfl⟩⟩
  | cons commit commits ih =>
    have hcons : (commit :: commits).forM (checkoutRound id message) =
        (checkoutRound id message commit >>= fun _ => commits.forM (checkoutRound id message)) := rfl
    rw [hcons]
    -- what fails is decided by the first step, or as in the rest after it
    cases hfails : s.fails .merge 0 with
    | true =>
      rw [bind_of_error (checkoutRound_of_fails hfails id message commit)]
      constructor
      · intro ⟨s', hs'⟩
        cases hs'
      · intro hall
        rw [hall 0 (Nat.zero_lt_succ _)] at hfails
        cases hfails
    | false =>
      have hrest : ∀ i, ((MergeStep.checkout id commit).apply (s.popFault .merge)).fails .merge i =
          s.fails .merge (i + 1) := fails_popFault s .merge
      rw [bind_of_ok (checkoutRound_of_not_fails hfails id message commit), ih]
      simp only [hrest]
      constructor
      · intro hall i hi
        cases i with
        | zero => exact hfails
        | succ i => exact hall i (Nat.lt_of_succ_lt_succ hi)
      · intro hall i hi
        exact hall (i + 1) (Nat.succ_lt_succ hi)

/-- What is in the directory after the checkouts. -/
theorem lookup_of_checkouts {id message : String} {commits : List String} {s s' : Repo}
    (hne : commits ≠ []) (h : commits.forM (checkoutRound id message) s = .ok () s') :
    s'.mergedDirs.lookup (MergeStep.tmpName id) =
      some ((s.mergedDirs.lookup (MergeStep.tmpName id)).getD [] ++ commits) := by
  have hperforms : Performs (commits.forM (checkoutRound id message)) s
      (commits.map (MergeStep.checkout id)) () := performs_checkouts id message commits s
  unfold Performs at hperforms
  rw [h] at hperforms
  obtain ⟨-, faults, rfl⟩ := hperforms
  obtain ⟨commit, rest, rfl⟩ := List.exists_cons_of_ne_nil hne
  -- the first checkout makes the directory if it is not there
  have hfirst : ((MergeStep.checkout id commit).apply s).mergedDirs.lookup (MergeStep.tmpName id) =
      some ((s.mergedDirs.lookup (MergeStep.tmpName id)).getD [] ++ [commit]) := by
    refine (lookup_set _ _ _ _).trans ?_
    rw [if_pos rfl]
  have hrest := MergeStep.lookup_run_checkouts id rest hfirst
  rw [List.append_assoc] at hrest
  exact hrest

variable {s : Repo} {ref : Reference} {loadModules : List String}

/-- Why the function returns before the first checkout. -/
def Refuses (s : Repo) (ref : Reference) (loadModules : List String) : Prop :=
  s.selectedLayers ref loadModules = [] ∨
    (s.selectedLayers ref loadModules).length < loadModules.length

/-- The directory that the layers are put into. -/
def mergeID (s : Repo) (ref : Reference) (loadModules : List String) : String :=
  s.outside.sha256 (String.join
    ((s.selectedLayers ref loadModules).map RepositoryCacheLayersItem.commit))

theorem getMergedModuleDirWith_of_refuses (h : Refuses s ref loadModules) (name : String)
    (s' : Repo) : getMergedModuleDirWith ref loadModules s ≠ .ok name s' := by
  unfold getMergedModuleDirWith
  rw [bind_of_ok (get_run s)]
  simp only [List.map_eq_nil_iff, List.length_map]
  by_cases hempty : s.selectedLayers ref loadModules = []
  · rw [if_pos hempty]
    intro hok
    cases hok
  · have hless : (s.selectedLayers ref loadModules).length < loadModules.length := by
      rcases h with h | h
      · exact absurd h hempty
      · exact h
    rw [if_neg hempty, if_pos hless]
    intro hok
    cases hok

/-- The function is the checkouts. -/
theorem getMergedModuleDirWith_of_accepts (h : ¬ Refuses s ref loadModules) :
    getMergedModuleDirWith ref loadModules s =
      (((s.selectedLayers ref loadModules).map RepositoryCacheLayersItem.commit).forM
          (checkoutRound (mergeID s ref loadModules)
            ("ostree_repo_checkout_at " ++ MergeStep.tmpName (mergeID s ref loadModules))) >>=
        fun _ => pure (MergeStep.tmpName (mergeID s ref loadModules)) : RepoM String) s := by
  unfold Refuses at h
  rw [not_or] at h
  unfold getMergedModuleDirWith
  rw [bind_of_ok (get_run s)]
  simp only [List.map_eq_nil_iff, List.length_map]
  rw [if_neg h.1, if_neg h.2]
  rfl

/-- **Success**: the layers are in the directory. -/
theorem getMergedModuleDirWith_ok_iff (name : String) :
    (∃ s', getMergedModuleDirWith ref loadModules s = .ok name s') ↔
      ¬ Refuses s ref loadModules ∧ name = MergeStep.tmpName (mergeID s ref loadModules) ∧
        ∀ i, i < (s.selectedLayers ref loadModules).length → s.fails .merge i = false := by
  by_cases hrefuses : Refuses s ref loadModules
  · constructor
    · intro ⟨s', hs'⟩
      exact absurd hs' (getMergedModuleDirWith_of_refuses hrefuses name s')
    · intro h
      exact absurd hrefuses h.1
  · have hcheckouts := checkouts_ok_iff (mergeID s ref loadModules)
      ("ostree_repo_checkout_at " ++ MergeStep.tmpName (mergeID s ref loadModules))
      ((s.selectedLayers ref loadModules).map RepositoryCacheLayersItem.commit) s
    rw [List.length_map] at hcheckouts
    rw [getMergedModuleDirWith_of_accepts hrefuses, ← hcheckouts]
    constructor
    · intro ⟨s', hs'⟩
      obtain ⟨_, s₁, hloop, hpure⟩ := bind_ok_iff.1 hs'
      cases hpure
      exact ⟨hrefuses, rfl, s', hloop⟩
    · intro ⟨_, hname, s', hs'⟩
      rw [hname]
      exact ⟨s', bind_of_ok hs'⟩

theorem lookup_of_ok {name : String} {s' : Repo}
    (h : getMergedModuleDirWith ref loadModules s = .ok name s') :
    s'.mergedDirs.lookup name = some ((s.mergedDirs.lookup name).getD [] ++
      (s.selectedLayers ref loadModules).map RepositoryCacheLayersItem.commit) := by
  obtain ⟨haccepts, hname, -⟩ := (getMergedModuleDirWith_ok_iff name).1 ⟨s', h⟩
  rw [getMergedModuleDirWith_of_accepts haccepts] at h
  obtain ⟨_, s₁, hloop, hpure⟩ := bind_ok_iff.1 h
  cases hpure
  unfold Refuses at haccepts
  rw [not_or] at haccepts
  exact lookup_of_checkouts (by simpa using haccepts.1) hloop

/-- The collected layers are not deleted, and they are of the package. -/
theorem mem_selectedLayers {layer : RepositoryCacheLayersItem} :
    layer ∈ s.selectedLayers ref loadModules ↔ layer ∈ s.layers ∧ layer.isDeleted = false ∧
      isOf ref layer = true ∧ cString layer.info.packageInfoV2Module ∈ loadModules := by
  unfold selectedLayers queryExistingLayerItem
  simp only [List.mem_filter, Bool.and_eq_true, Bool.not_eq_true', List.contains_iff_mem]
  exact and_assoc

/-! ## Section 3: When every requested module is there -/

/-- **Requested modules**: success means that all of them are there iff each
    has a layer, or there are fewer layers than requests, or a checkout
    fails. -/
theorem mergesRequested_iff (s : Repo) (ref : Reference) (loadModules : ModuleNames) :
    MergesRequested s ref loadModules.names ↔
      (HasLayers s ref loadModules.names ∧ CollectsMarked s ref loadModules.names) ∨
        (s.selectedLayers ref loadModules.names).length < loadModules.names.length ∨
        ∃ i, i < (s.selectedLayers ref loadModules.names).length ∧ s.fails .merge i = true := by
  constructor
  · intro h
    by_contra hnone
    simp only [not_or, not_exists, not_and, Bool.not_eq_true] at hnone
    obtain ⟨hmissing, hcount, hfails⟩ := hnone
    have haccepts : ¬ Refuses s ref loadModules.names := by
      intro hrefuses
      rcases hrefuses with hempty | hless
      · -- no layer is needed only if no module is requested
        rw [hempty, List.length_nil, Nat.not_lt, Nat.le_zero, List.length_eq_zero_iff] at hcount
        have hnames : ∀ module, module ∉ loadModules.names := by
          intro module hmodule
          rw [hcount] at hmodule
          cases hmodule
        exact hmissing (fun module hmodule => absurd hmodule (hnames module))
          fun module hmodule => absurd hmodule (hnames module)
      · exact hcount hless
    -- so the call succeeds, and all modules have been checked out
    obtain ⟨s', hs'⟩ := (getMergedModuleDirWith_ok_iff _).2 ⟨haccepts, rfl, hfails⟩
    obtain ⟨commits, hlookup, hall⟩ := h _ s' hs'
    have hcommits : commits = (s.selectedLayers ref loadModules.names).map
        RepositoryCacheLayersItem.commit :=
      List.append_cancel_left (Option.some.inj (hlookup.symm.trans (lookup_of_ok hs')))
    rw [hcommits] at hall
    refine hmissing (fun module hmodule => ?_) fun module hmodule _ => hall module hmodule
    obtain ⟨layer, hlayer, hdeleted, hof, hexact, -⟩ := hall module hmodule
    exact ⟨layer, hlayer, hdeleted, hof, hexact⟩
  · intro h name s' hs'
    obtain ⟨haccepts, -, hfails⟩ := (getMergedModuleDirWith_ok_iff name).1 ⟨s', hs'⟩
    rcases h with ⟨hlayers, hmarked⟩ | hless | ⟨i, hi, hfail⟩
    · refine ⟨_, lookup_of_ok hs', fun module hmodule => ?_⟩
      by_cases hmark : module.toList.head? = some QString.byteOrderMark
      · exact hmarked module hmodule hmark
      obtain ⟨layer, hlayer, hdeleted, hof, hexact⟩ := hlayers module hmodule
      refine ⟨layer, hlayer, hdeleted, hof, hexact, ?_⟩
      -- a layer of a requested module is among the collected ones
      have hselected : layer ∈ s.selectedLayers ref loadModules.names := by
        rw [mem_selectedLayers, hexact, cString_of_noNul (loadModules.noNul module hmodule) hmark]
        exact ⟨hlayer, hdeleted, hof, hmodule⟩
      exact List.mem_map_of_mem hselected
    · exact absurd (.inr hless) haccepts
    · rw [hfails i hi] at hfail
      cases hfail

/-- Two channels have the same version of the main module. -/
def twoChannels : Repo :=
  .ofLayers (.ofCommits [])
    [⟨"c1", none, .onMain "org.app" "1.0.0.0" "binary", "stable"⟩,
      ⟨"c2", none, { PackageInfoV2.onMain "org.app" "1.0.0.0" "binary" with channel := "beta" },
        "stable"⟩] [] []

/-- **Counterexample**: `develop` is requested, and there are two layers with
    `binary` instead. -/
theorem not_mergesRequested : ¬ ∀ (s : Repo) (ref : Reference) (loadModules : ModuleNames),
    MergesRequested s ref loadModules.names := by
  intro h
  have hcondition := (mergesRequested_iff twoChannels (.onMain "org.app" 0 (by decide))
    ⟨["binary", "develop"], by decide, by decide⟩).1 (h _ _ _)
  rcases hcondition with ⟨hlayers, -⟩ | hless | ⟨i, _, hfail⟩
  · obtain ⟨layer, hlayer, -, -, hmodule⟩ := hlayers "develop" (by simp)
    have hnone : ∀ layer ∈ twoChannels.layers, layer.info.packageInfoV2Module ≠ "develop" := by
      decide
    exact hnone layer hlayer hmodule
  · exact absurd hless (by decide)
  · cases hfail

end Repo

end Linglong
