import Linglong.Framework.Effect
import Linglong.Repo.ExportedEntries

/-! # Exporting Everything Again

    When the package manager starts, `exportAllEntries` exports all apps into
    a new directory `entries/share_new_<id>`, moves `entries/share` away and
    puts the new directory in its place.

    No step is undone when a later one fails. So what a process leaves that
    dies before a step is what a failure of this step leaves.

    If there is no `entries/share`, the new directory is moved by its name
    alone, which is looked up in the working directory of the process. A
    start that was interrupted between the two moves is therefore not
    repaired by the next one.

    1. The operation.
    2. What is in the new directory.
    3. How a start ends (`exportAllEntries_cases`).
    4. Many starts (`links_of_starts`, `lost_of_interrupted`).
-/

namespace Linglong.Exports

open Framework
open CopyDir (Name Path)

/-! ## Section 1: The operation -/

/-- The directories in `entries`. -/
abbrev Dirs := List (Name × Share)

def Dirs.put (dirs : Dirs) (name : Name) (share : Share) : Dirs :=
  (name, share) :: dirs.filter fun d => d.1 ≠ name

def Dirs.drop (dirs : Dirs) (name : Name) : Dirs := dirs.filter fun d => d.1 ≠ name

/-- `entries/share`. -/
def shareOf (dirs : Dirs) : Option Share := dirs.lookup "share".toList

/-- The steps that end the operation when they fail. -/
inductive ReplaceStep where
  | clean
  | create
  | renameOld
  | renameNew
  | removeOld
  deriving DecidableEq

/-- One start of the package manager: what it finds, and what it is told. -/
structure Start where
  repo : Repo
  disk : Disk
  /-- The ids that are made up for the new and the old directory. -/
  id : Name
  oldID : Name
  fails : ReplaceStep → Bool
  answers : RepositoryCacheLayersItem → Path → Answers
  /-- The process works in `entries`. -/
  inEntries : Bool

namespace Start

def newName (st : Start) : Name := "share_new_".toList ++ st.id

def oldName (st : Start) : Name := "share_old_".toList ++ st.oldID

/-- A step that may fail. -/
def fallible (st : Start) (step : ReplaceStep) (message : String) : EStateM String Dirs Unit :=
  if st.fails step then throw message else pure ()

/-- `rename` of a directory. -/
def rename (st : Start) (step : ReplaceStep) (source target : Name) (message : String) :
    EStateM String Dirs Unit := do
  st.fallible step message
  match (← get).lookup source with
  | none => throw message
  | some share => modify fun dirs => (dirs.drop source).put target share

/-- One round of the loop over the items. -/
def exportItem (layout : Layout) (st : Start) (item : RepositoryCacheLayersItem) :
    EStateM String Dirs Unit :=
  if item.info.kind ≠ "app" then pure ()
  else
    match sourceOf st.repo item with
    | .error e => throw e
    | .ok source => modify fun dirs => dirs.put st.newName
        (exportEntries layout st.disk st.newName source (st.answers item)
          ((dirs.lookup st.newName).getD []))

/-- Where there is no `entries/share`. -/
def placeShare (st : Start) : EStateM String Dirs Unit :=
  -- not `workdir / entriesDir.dirName()`
  if st.inEntries then
    st.rename .renameNew st.newName "share".toList "create new share symlink"
  else throw "create new share symlink"

/-- Where there is one. -/
def swapShare (st : Start) : EStateM String Dirs Unit := do
  st.rename .renameOld "share".toList st.oldName "rename old share directory"
  st.rename .renameNew st.newName "share".toList "create new share symlink"
  st.fallible .removeOld "remove old share directory"
  modify fun dirs => dirs.drop st.oldName

/-- The last part: the new directory in the place of the old one. -/
def replaceShare (st : Start) : EStateM String Dirs Unit := do
  if (shareOf (← get)).isNone then st.placeShare else st.swapShare

/-- Make the new directory. -/
def createDirectory (st : Start) : EStateM String Dirs Unit := do
  st.fallible .create "create temp share directory"
  modify fun dirs => dirs.put st.newName []

/-- The first part: remove what has the name of the new directory, make it. -/
def createEmpty (st : Start) : EStateM String Dirs Unit := do
  if ((← get).lookup st.newName).isSome then
    st.fallible .clean "clean temp share directory"
    modify fun dirs => dirs.drop st.newName
  st.createDirectory

/-- `exportAllEntries`. -/
def exportAllEntries (layout : Layout) (st : Start) : EStateM String Dirs Unit := do
  st.createEmpty
  st.repo.queryExistingLayerItem.forM (exportItem layout st)
  st.replaceShare

/-- What the loop puts into the new directory. -/
def addItem (layout : Layout) (st : Start) (share : Share) (item : RepositoryCacheLayersItem) :
    Except String Share :=
  if item.info.kind ≠ "app" then .ok share
  else do
    let source ← sourceOf st.repo item
    .ok (exportEntries layout st.disk st.newName source (st.answers item) share)

/-- All apps, exported into an empty directory. -/
def newShare (layout : Layout) (st : Start) : Except String Share :=
  st.repo.queryExistingLayerItem.foldlM (addItem layout st) []

/-! ## Section 2: What is in the new directory -/

variable {layout : Layout} {st : Start} {dirs dirs' : Dirs}

theorem lookup_put (dirs : Dirs) (name : Name) (share : Share) (name' : Name) :
    (dirs.put name share).lookup name' =
      if name' = name then some share else dirs.lookup name' := by
  unfold Dirs.put
  split
  · next heq => rw [heq, List.lookup_cons_self]
  · next hne =>
    have hbeq : (name' == name) = false := by simpa using hne
    rw [List.lookup_cons, hbeq]
    exact lookup_filter_ne hne dirs

theorem lookup_drop (dirs : Dirs) (name name' : Name) :
    (dirs.drop name).lookup name' = if name' = name then none else dirs.lookup name' := by
  unfold Dirs.drop
  split
  · next heq =>
    rw [heq]
    exact lookup_filter_self name dirs
  · next hne => exact lookup_filter_ne hne dirs

/-- **Links** in the new directory lead to files of apps in the cache. -/
theorem link_newShare {new : Share} (h : newShare layout st = .ok new) {p : Path}
    {text : List Char} (hlink : new.lookup p = some (.link text)) :
    ∃ item ∈ st.repo.queryExistingLayerItem, item.info.kind = "app" ∧
      ∃ source, sourceOf st.repo item = .ok source ∧ Offers layout st.disk source p ∧
        text = linkText layout st.newName source p := by
  unfold newShare at h
  have hall : ∀ items ⊆ st.repo.queryExistingLayerItem, ∀ share : Share,
      items.foldlM (addItem layout st) share = .ok new → share.lookup p = some (.link text) ∨
        ∃ item ∈ st.repo.queryExistingLayerItem, item.info.kind = "app" ∧
          ∃ source, sourceOf st.repo item = .ok source ∧ Offers layout st.disk source p ∧
            text = linkText layout st.newName source p := by
    intro items
    induction items with
    | nil =>
      intro _ share hrun
      cases hrun
      exact .inl hlink
    | cons item items ih =>
      intro hitems share hrun
      rw [List.cons_subset] at hitems
      rw [List.foldlM_cons] at hrun
      cases hstep : addItem layout st share item with
      | error e =>
        rw [hstep] at hrun
        cases hrun
      | ok share' =>
        rw [hstep] at hrun
        rcases ih hitems.2 share' hrun with hold | hnew
        · unfold addItem at hstep
          split at hstep
          · cases hstep
            exact .inl hold
          · next hkind =>
            cases hsource : sourceOf st.repo item with
            | error e =>
              rw [hsource] at hstep
              cases hstep
            | ok source =>
              rw [hsource] at hstep
              cases hstep
              rcases link_exportEntries hold with hold | ⟨hoffers, htext⟩
              · exact .inl hold
              · exact .inr ⟨item, hitems.1, not_not.1 hkind, source, hsource, hoffers, htext⟩
        · exact .inr hnew
  rcases hall _ (List.Subset.refl _) [] h with hnil | hsome
  · cases hnil
  · exact hsome

/-! ## Section 3: How a start ends -/

/-- Nothing has changed but the new directory. -/
def Untouched (st : Start) (dirs dirs' : Dirs) : Prop :=
  ∀ name, name ≠ st.newName → dirs'.lookup name = dirs.lookup name

theorem Untouched.refl (st : Start) (dirs : Dirs) : Untouched st dirs dirs := fun _ _ => rfl

theorem Untouched.trans {dirs'' : Dirs} (h : Untouched st dirs dirs')
    (h' : Untouched st dirs' dirs'') : Untouched st dirs dirs'' := fun name hne =>
  (h' name hne).trans (h name hne)

theorem Untouched.put (h : Untouched st dirs dirs') (share : Share) :
    Untouched st dirs (dirs'.put st.newName share) := fun name hne => by
  rw [lookup_put, if_neg hne]
  exact h name hne

theorem Untouched.drop (h : Untouched st dirs dirs') :
    Untouched st dirs (dirs'.drop st.newName) := fun name hne => by
  rw [lookup_drop, if_neg hne]
  exact h name hne

/-- **Cases** of a step that may fail. -/
theorem fallible_cases (st : Start) (step : ReplaceStep) (message : String) (dirs : Dirs) :
    (st.fails step = true ∧ st.fallible step message dirs = .error message dirs) ∨
      (st.fails step = false ∧ st.fallible step message dirs = .ok () dirs) := by
  unfold fallible
  cases hfails : st.fails step with
  | true => exact .inl ⟨rfl, rfl⟩
  | false => exact .inr ⟨rfl, rfl⟩

/-- **Cases** of a move. -/
theorem rename_cases (st : Start) (step : ReplaceStep) (source target : Name) (message : String)
    (dirs : Dirs) :
    ((st.fails step = true ∨ dirs.lookup source = none) ∧
        st.rename step source target message dirs = .error message dirs) ∨
      ∃ share, st.fails step = false ∧ dirs.lookup source = some share ∧
        st.rename step source target message dirs =
          .ok () ((dirs.drop source).put target share) := by
  unfold rename
  rcases fallible_cases st step message dirs with ⟨hfails, hrun⟩ | ⟨hfails, hrun⟩
  · rw [bind_of_error hrun]
    exact .inl ⟨.inl hfails, rfl⟩
  · rw [bind_of_ok hrun, bind_of_ok (get_run dirs)]
    cases hlookup : dirs.lookup source with
    | none => exact .inl ⟨.inr rfl, rfl⟩
    | some share => exact .inr ⟨share, hfails, rfl, rfl⟩

theorem createDirectory_cases (st : Start) (dirs : Dirs) :
    (st.fails .create = true ∧ ∃ e, st.createDirectory dirs = .error e dirs) ∨
      st.createDirectory dirs = .ok () (dirs.put st.newName []) := by
  unfold createDirectory
  rcases fallible_cases st .create "create temp share directory" dirs with
    ⟨hfails, hrun⟩ | ⟨-, hrun⟩
  · exact .inl ⟨hfails, _, bind_of_error hrun⟩
  · exact .inr (bind_of_ok hrun)

/-- **Cases** of the first part. -/
theorem createEmpty_cases (st : Start) (dirs : Dirs) :
    ∃ dirs', Untouched st dirs dirs' ∧
      (((st.fails .clean = true ∨ st.fails .create = true) ∧
          ∃ e, st.createEmpty dirs = .error e dirs') ∨
        (st.createEmpty dirs = .ok () dirs' ∧ dirs'.lookup st.newName = some [])) := by
  have hcreate : ∀ dirs', Untouched st dirs dirs' → ∃ dirs'', Untouched st dirs dirs'' ∧
      (((st.fails .clean = true ∨ st.fails .create = true) ∧
          ∃ e, st.createDirectory dirs' = .error e dirs'') ∨
        (st.createDirectory dirs' = .ok () dirs'' ∧ dirs''.lookup st.newName = some [])) := by
    intro dirs' huntouched
    rcases createDirectory_cases st dirs' with ⟨hfails, e, hrun⟩ | hrun
    · exact ⟨dirs', huntouched, .inl ⟨.inr hfails, e, hrun⟩⟩
    · exact ⟨_, huntouched.put [], .inr ⟨hrun, by rw [lookup_put, if_pos rfl]⟩⟩
  unfold createEmpty
  rw [bind_of_ok (get_run dirs)]
  split
  · rcases fallible_cases st .clean "clean temp share directory" dirs with
      ⟨hfails, hrun⟩ | ⟨-, hrun⟩
    · exact ⟨dirs, Untouched.refl st dirs, .inl ⟨.inl hfails, _, bind_of_error hrun⟩⟩
    · rw [bind_of_ok hrun]
      exact hcreate (dirs.drop st.newName) (Untouched.refl st dirs).drop
  · exact hcreate dirs (Untouched.refl st dirs)

/-- **Step**: a round of the loop is a round of `addItem`. -/
theorem exportItem_cases (layout : Layout) {share : Share} (item : RepositoryCacheLayersItem)
    (h : dirs.lookup st.newName = some share) :
    (∃ e, addItem layout st share item = .error e ∧
        exportItem layout st item dirs = .error e dirs) ∨
      ∃ share' dirs', addItem layout st share item = .ok share' ∧
        exportItem layout st item dirs = .ok () dirs' ∧ dirs'.lookup st.newName = some share' ∧
        Untouched st dirs dirs' := by
  unfold addItem exportItem
  split
  · exact .inr ⟨share, dirs, rfl, rfl, h, Untouched.refl st dirs⟩
  · cases sourceOf st.repo item with
    | error e => exact .inl ⟨e, rfl, rfl⟩
    | ok source =>
      refine .inr ⟨_, _, rfl, rfl, ?_, (Untouched.refl st dirs).put _⟩
      rw [lookup_put, if_pos rfl, h, Option.getD_some]

/-- **Run**: the loop makes what `addItem` makes, or fails where it fails. -/
theorem forM_exportItem (layout : Layout) {share : Share} (items : List RepositoryCacheLayersItem)
    (h : dirs.lookup st.newName = some share) :
    ∃ dirs', Untouched st dirs dirs' ∧
      ((∃ e, items.foldlM (addItem layout st) share = .error e ∧
          items.forM (exportItem layout st) dirs = .error e dirs') ∨
        ∃ new, items.foldlM (addItem layout st) share = .ok new ∧
          items.forM (exportItem layout st) dirs = .ok ⟨⟩ dirs' ∧
          dirs'.lookup st.newName = some new) := by
  induction items generalizing dirs share with
  | nil => exact ⟨dirs, Untouched.refl st dirs, .inr ⟨share, rfl, rfl, h⟩⟩
  | cons item items ih =>
    rw [List.foldlM_cons]
    rcases exportItem_cases layout item h with
      ⟨e, hadd, hrun⟩ | ⟨share', dirs₁, hadd, hrun, hlookup, huntouched⟩
    · exact ⟨dirs, Untouched.refl st dirs, .inl ⟨e, by rw [hadd]; rfl, bind_of_error hrun⟩⟩
    · obtain ⟨dirs', hrest, hcases⟩ := ih hlookup
      have hfold : (addItem layout st share item >>= fun s => items.foldlM (addItem layout st) s) =
          items.foldlM (addItem layout st) share' := by
        rw [hadd]
        rfl
      have hloop : (item :: items).forM (exportItem layout st) dirs =
          items.forM (exportItem layout st) dirs₁ := bind_of_ok hrun
      rw [hfold, hloop]
      exact ⟨dirs', huntouched.trans hrest, hcases⟩

theorem newName_ne_share (st : Start) : "share".toList ≠ st.newName := by
  intro heq
  have hlen : st.newName.length = 10 + st.id.length := List.length_append
  have hshare : "share".toList.length = 5 := by decide
  rw [← heq, hshare] at hlen
  omega

theorem oldName_ne_share (st : Start) : "share".toList ≠ st.oldName := by
  intro heq
  have hlen : st.oldName.length = 10 + st.oldID.length := List.length_append
  have hshare : "share".toList.length = 5 := by decide
  rw [← heq, hshare] at hlen
  omega

theorem newName_ne_oldName (st : Start) : st.newName ≠ st.oldName := by
  intro heq
  have hnew : "share_new_".toList = st.newName.take 10 := (List.take_left' rfl).symm
  have hold : "share_old_".toList = st.oldName.take 10 := (List.take_left' rfl).symm
  have hne : "share_new_".toList ≠ "share_old_".toList := by decide
  exact hne (by rw [hnew, hold, heq])

/-- The last part stops before it moves anything. -/
def Stops (st : Start) (dirs : Dirs) : Prop :=
  if shareOf dirs = none then st.inEntries = false ∨ st.fails .renameNew = true
  else st.fails .renameOld = true

/-- The new directory is in its place. -/
structure Done (st : Start) (new : Share) (dirs dirs' : Dirs)
    (result : EStateM.Result String Dirs Unit) : Prop where
  moved : st.fails .renameNew = false
  share : shareOf dirs' = some new
  result : result = .ok () dirs' ∨
    st.fails .removeOld = true ∧ shareOf dirs ≠ none ∧ ∃ e, result = .error e dirs'
  place : shareOf dirs = none → st.inEntries = true

/-- The old directory is away, and the new one has not been moved in. -/
structure Gap (st : Start) (new : Share) (dirs dirs' : Dirs)
    (result : EStateM.Result String Dirs Unit) : Prop where
  fails : st.fails .renameNew = true
  share : shareOf dirs' = none
  old : shareOf dirs ≠ none ∧ dirs'.lookup st.oldName = shareOf dirs
  new : dirs'.lookup st.newName = some new
  result : ∃ e, result = .error e dirs'

theorem placeShare_cases {new : Share} (h : dirs.lookup st.newName = some new) :
    ((st.inEntries = false ∨ st.fails .renameNew = true) ∧
        ∃ e, st.placeShare dirs = .error e dirs) ∨
      ∃ dirs', st.inEntries = true ∧ st.fails .renameNew = false ∧ shareOf dirs' = some new ∧
        st.placeShare dirs = .ok () dirs' := by
  unfold placeShare
  split
  · next hin =>
    rcases rename_cases st .renameNew st.newName "share".toList "create new share symlink" dirs
      with ⟨hfails | hnone, hrun⟩ | ⟨share, hmoved, hlookup, hrun⟩
    · exact .inl ⟨.inr hfails, _, hrun⟩
    · rw [h] at hnone
      cases hnone
    · have heq : share = new := Option.some.inj (hlookup.symm.trans h)
      subst heq
      exact .inr ⟨_, hin, hmoved, by rw [shareOf, lookup_put, if_pos rfl], hrun⟩
  · next hin => exact .inl ⟨.inl (by simpa using hin), _, rfl⟩

theorem swapShare_cases {new : Share} (h : dirs.lookup st.newName = some new)
    (hsome : shareOf dirs ≠ none) :
    (st.fails .renameOld = true ∧ ∃ e, st.swapShare dirs = .error e dirs) ∨
      ∃ dirs', Gap st new dirs dirs' (st.swapShare dirs) ∨
        Done st new dirs dirs' (st.swapShare dirs) := by
  unfold swapShare
  rcases rename_cases st .renameOld "share".toList st.oldName "rename old share directory" dirs
    with ⟨hfails | hnone, hrun⟩ | ⟨old, -, hold, hrun⟩
  · exact .inl ⟨hfails, _, bind_of_error hrun⟩
  · exact absurd hnone hsome
  rw [bind_of_ok hrun]
  -- the old directory is away now, the new one is where it was
  have hnew : ((dirs.drop "share".toList).put st.oldName old).lookup st.newName = some new := by
    rw [lookup_put, if_neg (newName_ne_oldName st), lookup_drop,
      if_neg (newName_ne_share st).symm, h]
  rcases rename_cases st .renameNew st.newName "share".toList "create new share symlink"
    ((dirs.drop "share".toList).put st.oldName old) with
      ⟨hfails | hnone, hrun'⟩ | ⟨new', hmoved, hlook, hrun'⟩
  · refine .inr ⟨_, .inl ⟨hfails, ?_, ⟨hsome, ?_⟩, hnew, _, bind_of_error hrun'⟩⟩
    · rw [shareOf, lookup_put, if_neg (oldName_ne_share st), lookup_drop, if_pos rfl]
    · rw [shareOf, hold, lookup_put, if_pos rfl]
  · rw [hnew] at hnone
    cases hnone
  · have heq : new' = new := Option.some.inj (hlook.symm.trans hnew)
    subst heq
    rw [bind_of_ok hrun']
    generalize (dirs.drop "share".toList).put st.oldName old = away
    rcases fallible_cases st .removeOld "remove old share directory"
      ((away.drop st.newName).put "share".toList new') with ⟨hfails, hlast⟩ | ⟨-, hlast⟩
    · refine .inr ⟨_, .inr ⟨hmoved, ?_, .inr ⟨hfails, hsome, _, bind_of_error hlast⟩,
        fun hnone => absurd hnone hsome⟩⟩
      rw [shareOf, lookup_put, if_pos rfl]
    · refine .inr ⟨_, .inr ⟨hmoved, ?_, .inl (bind_of_ok hlast),
        fun hnone => absurd hnone hsome⟩⟩
      rw [shareOf, lookup_drop, if_neg (oldName_ne_share st), lookup_put, if_pos rfl]

/-- **Cases** of the last part. -/
theorem replaceShare_cases {new : Share} (h : dirs.lookup st.newName = some new) :
    (Stops st dirs ∧ ∃ e, st.replaceShare dirs = .error e dirs) ∨
      ∃ dirs', Gap st new dirs dirs' (st.replaceShare dirs) ∨
        Done st new dirs dirs' (st.replaceShare dirs) := by
  unfold Stops
  by_cases hshare : shareOf dirs = none
  · have hrun : st.replaceShare dirs = st.placeShare dirs := by
      unfold replaceShare
      rw [bind_of_ok (get_run dirs), if_pos (Option.isNone_iff_eq_none.2 hshare)]
    rw [hrun, if_pos hshare]
    rcases placeShare_cases h with hfail | ⟨dirs', hin, hmoved, hplace, hok⟩
    · exact .inl hfail
    · exact .inr ⟨dirs', .inr ⟨hmoved, hplace, .inl hok, fun _ => hin⟩⟩
  · have hrun : st.replaceShare dirs = st.swapShare dirs := by
      unfold replaceShare
      rw [bind_of_ok (get_run dirs), if_neg (mt Option.isNone_iff_eq_none.1 hshare)]
    rw [hrun, if_neg hshare]
    exact swapShare_cases h hshare

/-- **Cases** of a start: `entries/share` is untouched, it is away, or it is
    the new directory with all apps. -/
theorem exportAllEntries_cases (layout : Layout) (st : Start) (dirs : Dirs) :
    ∃ dirs', (Untouched st dirs dirs' ∧ (∃ e, st.exportAllEntries layout dirs = .error e dirs') ∧
        (st.fails .clean = true ∨ st.fails .create = true ∨ (∃ e, newShare layout st = .error e) ∨
          Stops st dirs)) ∨
      ∃ new, newShare layout st = .ok new ∧
        (Gap st new dirs dirs' (st.exportAllEntries layout dirs) ∨
          Done st new dirs dirs' (st.exportAllEntries layout dirs)) := by
  unfold exportAllEntries
  obtain ⟨dirs₁, hempty, ⟨hfails, e, hrun⟩ | ⟨hrun, hlookup⟩⟩ := createEmpty_cases st dirs
  · exact ⟨dirs₁, .inl ⟨hempty, ⟨e, bind_of_error hrun⟩, by tauto⟩⟩
  rw [bind_of_ok hrun]
  obtain ⟨dirs₂, hloop, ⟨e, hadd, hrun'⟩ | ⟨new, hnew, hrun', hlookup'⟩⟩ :=
    forM_exportItem layout st.repo.queryExistingLayerItem hlookup
  · exact ⟨dirs₂, .inl ⟨hempty.trans hloop, ⟨e, bind_of_error hrun'⟩, .inr (.inr (.inl ⟨e, hadd⟩))⟩⟩
  rw [bind_of_ok hrun']
  have huntouched : Untouched st dirs dirs₂ := hempty.trans hloop
  have hshare : shareOf dirs₂ = shareOf dirs := huntouched _ (newName_ne_share st)
  rcases replaceShare_cases hlookup' with ⟨hstops, hlast⟩ | ⟨dirs', hgap | hdone⟩
  · unfold Stops at hstops
    rw [hshare] at hstops
    exact ⟨dirs₂, .inl ⟨huntouched, hlast, .inr (.inr (.inr hstops))⟩⟩
  · refine ⟨dirs', .inr ⟨new, hnew, .inl ⟨hgap.fails, hgap.share, ?_, hgap.new, hgap.result⟩⟩⟩
    rw [← hshare]
    exact hgap.old
  · refine ⟨dirs', .inr ⟨new, hnew, .inr ⟨hdone.moved, hdone.share, ?_, ?_⟩⟩⟩
    · rw [← hshare]
      exact hdone.result
    · rw [← hshare]
      exact hdone.place

/-! ## Section 4: Many starts -/

/-- What is left of `entries` after one start after the other. -/
def starts (layout : Layout) (sts : List Start) (dirs : Dirs) : Dirs :=
  sts.foldl (fun dirs st => after (st.exportAllEntries layout) dirs) dirs

/-- **Step**: `entries/share` is what it was, away, or complete. -/
theorem shareOf_after (layout : Layout) (st : Start) (dirs : Dirs) :
    shareOf (after (st.exportAllEntries layout) dirs) = shareOf dirs ∨
      shareOf (after (st.exportAllEntries layout) dirs) = none ∨
      ∃ new, newShare layout st = .ok new ∧
        shareOf (after (st.exportAllEntries layout) dirs) = some new := by
  rcases exportAllEntries_cases layout st dirs with
    ⟨dirs', ⟨huntouched, ⟨e, hrun⟩, -⟩ | ⟨new, hnew, hgap | hdone⟩⟩
  · rw [after_of_error hrun]
    exact .inl (huntouched _ (newName_ne_share st))
  · obtain ⟨e, hrun⟩ := hgap.result
    rw [after_of_error hrun]
    exact .inr (.inl hgap.share)
  · have hafter : after (st.exportAllEntries layout) dirs = dirs' := by
      rcases hdone.result with hrun | ⟨-, -, e, hrun⟩
      · exact after_of_ok hrun
      · exact after_of_error hrun
    rw [hafter]
    exact .inr (.inr ⟨new, hnew, hdone.share⟩)

/-- **Run**: the same of any number of starts, wherever each of them ends. -/
theorem shareOf_starts (layout : Layout) (sts : List Start) (dirs : Dirs) :
    shareOf (starts layout sts dirs) = shareOf dirs ∨ shareOf (starts layout sts dirs) = none ∨
      ∃ st ∈ sts, ∃ new, newShare layout st = .ok new ∧
        shareOf (starts layout sts dirs) = some new := by
  induction sts generalizing dirs with
  | nil => exact .inl rfl
  | cons st sts ih =>
    rcases ih (after (st.exportAllEntries layout) dirs) with hsame | hnone | ⟨st', hst', hnew⟩
    · have hlast : shareOf (starts layout (st :: sts) dirs) =
          shareOf (after (st.exportAllEntries layout) dirs) := hsame
      rw [hlast]
      rcases shareOf_after layout st dirs with hold | hnone | hnew
      · exact .inl hold
      · exact .inr (.inl hnone)
      · exact .inr (.inr ⟨st, List.mem_cons_self, hnew⟩)
    · exact .inr (.inl hnone)
    · exact .inr (.inr ⟨st', List.mem_cons_of_mem _ hst', hnew⟩)

/-- **Main result**: no start leaves half of an export. After any starts, each
    of which may fail or die at any step, the links in `entries/share` are the
    ones from before, or they lead to files of the apps that one of the starts
    found, and lead there from where they are now. -/
theorem links_of_starts {sts : List Start} {dirs : Dirs} {share : Share}
    (hnamed : ∀ st ∈ sts, ∀ item ∈ st.repo.queryExistingLayerItem, ∀ source,
      sourceOf st.repo item = .ok source → IsName source.name)
    (h : shareOf (starts layout sts dirs) = some share) :
    shareOf dirs = some share ∨
      ∃ st ∈ sts, newShare layout st = .ok share ∧ ∀ p text, share.lookup p = some (.link text) →
        ∃ item ∈ st.repo.queryExistingLayerItem, item.info.kind = "app" ∧
          ∃ source, sourceOf st.repo item = .ok source ∧ Offers layout st.disk source p ∧
            targetOf layout p text = source.entriesDir layout ++ p := by
  rcases shareOf_starts layout sts dirs with hsame | hnone | ⟨st, hst, new, hnew, hshare⟩
  · exact .inl (hsame.symm.trans h)
  · rw [hnone] at h
    cases h
  · have heq : new = share := Option.some.inj (hshare.symm.trans h)
    subst heq
    refine .inr ⟨st, hst, hnew, fun p text hlink => ?_⟩
    obtain ⟨item, hitem, hkind, source, hsource, hoffers, rfl⟩ := link_newShare hnew hlink
    exact ⟨item, hitem, hkind, source, hsource, hoffers,
      targetOf_linkText ⟨hnamed st hst item hitem source hsource, names_of_offers hoffers⟩ _⟩

/-- **Step**: where there is no `entries/share`, a start fails and makes none. -/
theorem absent_after (layout : Layout) (hin : st.inEntries = false) (hnone : shareOf dirs = none) :
    shareOf (after (st.exportAllEntries layout) dirs) = none ∧
      returns (st.exportAllEntries layout) dirs = false := by
  rcases exportAllEntries_cases layout st dirs with
    ⟨dirs', ⟨huntouched, ⟨e, hrun⟩, -⟩ | ⟨new, -, hgap | hdone⟩⟩
  · rw [after_of_error hrun, returns, hrun]
    exact ⟨(huntouched _ (newName_ne_share st)).trans hnone, rfl⟩
  · exact absurd hnone hgap.old.1
  · have hplace := hdone.place hnone
    rw [hin] at hplace
    cases hplace

/-- **Run**: no number of starts makes one. -/
theorem absent_starts (layout : Layout) {sts : List Start} {dirs : Dirs}
    (hin : ∀ st ∈ sts, st.inEntries = false) (hnone : shareOf dirs = none) :
    shareOf (starts layout sts dirs) = none := by
  induction sts generalizing dirs with
  | nil => exact hnone
  | cons st sts ih =>
    have hfirst := (absent_after layout (hin st List.mem_cons_self) hnone).1
    exact ih (fun st' hst' => hin st' (List.mem_cons_of_mem _ hst')) hfirst

/-- A start dies between the two moves. -/
structure Interrupted (layout : Layout) (st : Start) (new : Share) : Prop where
  clean : st.fails .clean = false
  create : st.fails .create = false
  renameOld : st.fails .renameOld = false
  renameNew : st.fails .renameNew = true
  new : newShare layout st = .ok new

/-- **Main result**: after a start that dies between the two moves there is no
    `entries/share`, though all apps are exported next to it. As long as only
    starts touch the directories, and none of them works in `entries`, no
    later one repairs this, and each of them fails. -/
theorem lost_of_interrupted {new : Share} {sts : List Start} {last : Start}
    (h : Interrupted layout st new) (hsome : shareOf dirs ≠ none)
    (hin : ∀ st' ∈ sts ++ [last], st'.inEntries = false) :
    (after (st.exportAllEntries layout) dirs).lookup st.newName = some new ∧
      shareOf (starts layout (st :: sts) dirs) = none ∧
      returns (last.exportAllEntries layout) (starts layout (st :: sts) dirs) = false := by
  rcases exportAllEntries_cases layout st dirs with
    ⟨dirs', ⟨-, -, hclean | hcreate | ⟨e, hnew⟩ | hstops⟩ | ⟨new', hnew, hgap | hdone⟩⟩
  · rw [h.clean] at hclean
    cases hclean
  · rw [h.create] at hcreate
    cases hcreate
  · rw [h.new] at hnew
    cases hnew
  · rw [Stops, if_neg hsome, h.renameOld] at hstops
    cases hstops
  · have heq : new' = new := Except.ok.inj (hnew.symm.trans h.new)
    subst heq
    obtain ⟨e, hrun⟩ := hgap.result
    have hafter : after (st.exportAllEntries layout) dirs = dirs' := after_of_error hrun
    have hfirst : shareOf (after (st.exportAllEntries layout) dirs) = none := by
      rw [hafter]
      exact hgap.share
    have habsent : shareOf (starts layout sts (after (st.exportAllEntries layout) dirs)) = none :=
      absent_starts layout (fun st' hst' => hin st' (List.mem_append_left _ hst')) hfirst
    rw [hafter]
    exact ⟨hgap.new, habsent, (absent_after layout (hin last (by simp)) habsent).2⟩
  · have hmoved := hdone.moved
    rw [h.renameNew] at hmoved
    cases hmoved

/-- The shop, at a start that dies between the two moves, and at the next one. -/
def shopStart (dies : Bool) : Start where
  repo := shopRepo
  disk := menuDisk
  id := "1".toList
  oldID := "2".toList
  fails step := dies && step == .renameNew
  answers _ _ := {}
  inEntries := false

/-- A start before the modules are merged, one that cannot clean up, and one
    that works. -/
def threeStarts : List Start :=
  [{ shopStart false with repo := unmergedRepo },
    { shopStart false with fails := fun step => step == .clean }, shopStart false]

theorem links_of_starts_shop : ∃ share,
    shareOf (starts rootLayout threeStarts [("share".toList, [])]) = some share ∧
      (shareOf [("share".toList, [])] = some share ∨
        ∃ st ∈ threeStarts, newShare rootLayout st = .ok share ∧
          ∀ p text, share.lookup p = some (.link text) →
            ∃ item ∈ st.repo.queryExistingLayerItem, item.info.kind = "app" ∧
              ∃ source, sourceOf st.repo item = .ok source ∧ Offers rootLayout st.disk source p ∧
                targetOf rootLayout p text = source.entriesDir rootLayout ++ p) := by
  have hsome : (shareOf (starts rootLayout threeStarts [("share".toList, [])])).isSome = true := by
    decide
  obtain ⟨share, hshare⟩ := Option.isSome_iff_exists.1 hsome
  refine ⟨share, hshare, links_of_starts (fun st hst item hitem source hsource => ?_) hshare⟩
  have hrepo : st.repo = unmergedRepo ∨ st.repo = shopRepo := by
    simp only [threeStarts, List.mem_cons, List.not_mem_nil, or_false] at hst
    rcases hst with rfl | rfl | rfl
    · exact .inl rfl
    · exact .inr rfl
    · exact .inr rfl
  have hall : ∀ repo ∈ [unmergedRepo, shopRepo], ∀ item ∈ repo.queryExistingLayerItem,
      (sourceOf repo item).toOption.all fun source => decide (IsName source.name) := by decide
  have hmem : st.repo ∈ [unmergedRepo, shopRepo] := by
    rcases hrepo with h | h <;> simp [h]
  simpa [hsource, Except.toOption] using hall st.repo hmem item hitem

theorem lost_of_interrupted_shop : ∃ new,
    Interrupted rootLayout (shopStart true) new ∧
      (after ((shopStart true).exportAllEntries rootLayout) [("share".toList, [])]).lookup
        (shopStart true).newName = some new ∧
      shareOf (starts rootLayout [shopStart true] [("share".toList, [])]) = none ∧
      returns ((shopStart false).exportAllEntries rootLayout)
        (starts rootLayout [shopStart true] [("share".toList, [])]) = false := by
  have h : Interrupted rootLayout (shopStart true) _ := ⟨rfl, rfl, rfl, rfl, rfl⟩
  have hin : ∀ st' ∈ [] ++ [shopStart false], st'.inEntries = false := by decide
  exact ⟨_, h, lost_of_interrupted h (by decide) hin⟩

end Start

end Linglong.Exports
