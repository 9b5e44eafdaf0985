import Linglong.Repo.Layers

/-! # What the Operations Can Do

    One inversion lemma for each operation on the repository: everything it
    can do to the state, with the faults that lead there. Later modules use
    these lemmas and do not unfold the operations.

    1. Fallible steps.
    2. `pull` (`pull_spec`).
    3. `markDeleted` (`markDeleted_cases`) and `remove` (`remove_cases`).
    4. Operations that leave the layers of a reference alone (`Aside`).
-/

namespace Linglong

open Framework RepositoryCacheLayersItem

/-- The commit holds the layer that the ref names. -/
def Outside.Named (outside : Outside) (ref : OstreeRef) (commit : String) : Prop :=
  ∀ info, outside.commitInfo commit = .ok info →
    info.id = ref.id ∧ info.channel = ref.channel ∧ info.version = ref.version ∧
      normModule info.packageInfoV2Module = normModule ref.module

/-- The commit holds a layer for the architecture that the ref names. -/
def Outside.NamedArch (outside : Outside) (ref : OstreeRef) (commit : String) : Prop :=
  ∀ info, outside.commitInfo commit = .ok info → info.arch.headD "" = ref.arch

namespace Repo

/-- All refs, here and on the remote, name the layers they lead to, and
    ostree resolves a ref without remote to one of the refs that are set. -/
structure Honest (s : Repo) : Prop where
  refs : ∀ e ∈ s.ostreeRefs, s.outside.Named e.1.ref e.2
  resolveRev : ∀ refs ref commit, s.outside.resolveRev refs ref = some commit →
    ∃ remote, (⟨remote, ref⟩, commit) ∈ refs
  pulls : ∀ reply ∈ s.pulls, ∀ ref commit, reply.status ref = .ok commit →
    s.outside.Named ref commit

theorem Honest.mono {s s' : Repo} (h : s.Honest) (houtside : s'.outside = s.outside)
    (hrefs : s'.ostreeRefs ⊆ s.ostreeRefs) (hpulls : s'.pulls ⊆ s.pulls) : s'.Honest where
  refs := fun e he => by rw [houtside]; exact h.refs e (hrefs he)
  resolveRev := by rw [houtside]; exact h.resolveRev
  pulls := fun reply hreply => by rw [houtside]; exact h.pulls reply (hpulls hreply)

/-- The refs, here and on the remote, name the architecture as well. -/
structure HonestArch (s : Repo) : Prop where
  refs : ∀ e ∈ s.ostreeRefs, s.outside.NamedArch e.1.ref e.2
  pulls : ∀ reply ∈ s.pulls, ∀ ref commit, reply.status ref = .ok commit →
    s.outside.NamedArch ref commit

theorem HonestArch.mono {s s' : Repo} (h : s.HonestArch) (houtside : s'.outside = s.outside)
    (hrefs : s'.ostreeRefs ⊆ s.ostreeRefs) (hpulls : s'.pulls ⊆ s.pulls) : s'.HonestArch where
  refs := fun e he => by rw [houtside]; exact h.refs e (hrefs he)
  pulls := fun reply hreply => by rw [houtside]; exact h.pulls reply (hpulls hreply)

/-! ## Section 1: Fallible steps -/

/-- No step of this kind fails from now on. -/
def NoFaults (s : Repo) (step : Step) : Prop := ∀ b ∈ s.faults step, b = false

theorem NoFaults.headD {s : Repo} {step : Step} (h : s.NoFaults step) :
    (s.faults step).headD false = false := by
  unfold NoFaults at h
  cases hs : s.faults step with
  | nil => rfl
  | cons b rest => exact h b (by simp [hs])

theorem demand_ok {α : Type} {answer : Repo → Except String α} {s s' : Repo} {a : α}
    (h : demand answer s = .ok a s') : answer s = .ok a ∧ s' = s := by
  unfold demand at h
  split at h
  · next a' heq =>
    cases h
    exact ⟨heq, rfl⟩
  · cases h

theorem demand_error {α : Type} {answer : Repo → Except String α} {s s' : Repo} {e : String}
    (h : demand answer s = .error e s') : s' = s := by
  unfold demand at h
  split at h
  · cases h
  · cases h
    rfl

theorem demand_of_ok {α : Type} {answer : Repo → Except String α} {s : Repo} {a : α}
    (h : answer s = .ok a) : demand answer s = .ok a s := by
  rw [demand, h]

theorem demand_of_error {α : Type} {answer : Repo → Except String α} {s : Repo} {e : String}
    (h : answer s = .error e) : demand answer s = .error e s := by
  rw [demand, h]

/-- Some entries of `faults` have been used up. -/
def Pops (s : Repo) (faults : Step → List Bool) : Prop := ∀ step, faults step <:+ s.faults step

theorem pops_popFault (s : Repo) (step : Step) : s.Pops (s.popFault step).faults := by
  intro k
  simp only [popFault]
  split
  · exact List.tail_suffix _
  · exact List.suffix_refl _

theorem Pops.trans {s : Repo} {faults faults' : Step → List Bool} (h : s.Pops faults)
    (h' : ∀ step, faults' step <:+ faults step) : s.Pops faults' :=
  fun step => (h' step).trans (h step)

theorem NoFaults.of_pops {s s' : Repo} {step : Step} (h : s.NoFaults step)
    (hpops : s.Pops s'.faults) : s'.NoFaults step :=
  fun b hb => h b ((hpops step).subset hb)

theorem fallible_cases (step : Step) (message : String) (s : Repo) :
    (fallible step message s = .ok () (s.popFault step) ∧ (s.faults step).headD false = false) ∨
      (fallible step message s = .error message (s.popFault step) ∧
        (s.faults step).headD false = true) := by
  unfold fallible
  cases (s.faults step).headD false <;> simp

/-- The step of this kind that comes after `n` others fails. -/
def fails (s : Repo) (step : Step) (n : Nat) : Bool := (s.faults step).getD n false

theorem fails_zero (s : Repo) (step : Step) :
    s.fails step 0 = (s.faults step).headD false := by
  unfold fails
  cases s.faults step <;> rfl

theorem fails_popFault (s : Repo) (step : Step) (n : Nat) :
    (s.popFault step).fails step n = s.fails step (n + 1) := by
  unfold fails popFault
  simp only [if_true]
  cases s.faults step <;> rfl

theorem fails_popFault_of_ne {step k : Step} (h : k ≠ step) (s : Repo) (n : Nat) :
    (s.popFault step).fails k n = s.fails k n := by
  unfold fails popFault
  simp only [if_neg h]

theorem fallible_of_fails {step : Step} {s : Repo} (h : s.fails step 0 = true)
    (message : String) : fallible step message s = .error message (s.popFault step) := by
  rw [fails_zero] at h
  rw [fallible, if_pos h]

theorem fallible_of_not_fails {step : Step} {s : Repo} (h : s.fails step 0 = false)
    (message : String) : fallible step message s = .ok () (s.popFault step) := by
  rw [fails_zero] at h
  rw [fallible, h]
  rfl

theorem fallible_ok {step : Step} {message : String} {s s' : Repo}
    (h : fallible step message s = .ok () s') : s.fails step 0 = false ∧ s' = s.popFault step := by
  rw [fails_zero]
  rcases fallible_cases step message s with ⟨hrun, hhead⟩ | ⟨hrun, -⟩
  · rw [hrun] at h
    cases h
    exact ⟨hhead, rfl⟩
  · rw [hrun] at h
    cases h

theorem fallible_error {step : Step} {message e : String} {s s' : Repo}
    (h : fallible step message s = .error e s') :
    s.fails step 0 = true ∧ s' = s.popFault step := by
  rw [fails_zero]
  rcases fallible_cases step message s with ⟨hrun, -⟩ | ⟨hrun, hhead⟩
  · rw [hrun] at h
    cases h
  · rw [hrun] at h
    cases h
    exact ⟨hhead, rfl⟩

theorem writeToDisk_cases (s : Repo) :
    (writeToDisk s = .ok () { s.popFault .writeCache with statesJson := (s.layers, s.merged) } ∧
      (s.faults .writeCache).headD false = false) ∨
    (writeToDisk s = .error "failed to update cache" (s.popFault .writeCache) ∧
      (s.faults .writeCache).headD false = true) := by
  rcases fallible_cases .writeCache "failed to update cache" s with ⟨h, hhead⟩ | ⟨h, hhead⟩
  · exact .inl ⟨bind_of_ok h, hhead⟩
  · exact .inr ⟨bind_of_error h, hhead⟩

theorem resolveRefspec_dropRef {s : Repo} {spec spec' : OstreeRefSpec} (h : spec' ≠ spec) :
    (s.dropRef spec).resolveRefspec spec' = s.resolveRefspec spec' :=
  lookup_filter_ne h s.ostreeRefs

theorem resolveRefspec_setRef (s : Repo) (spec spec' : OstreeRefSpec) (commit : String) :
    (s.setRef spec commit).resolveRefspec spec' =
      if spec' = spec then some commit else s.resolveRefspec spec' :=
  lookup_set spec spec' commit s.ostreeRefs

theorem resolveRefspec_setRef_isSome {s : Repo} {spec spec' : OstreeRefSpec} {commit : String}
    (h : (s.resolveRefspec spec').isSome = true) :
    ((s.setRef spec commit).resolveRefspec spec').isSome = true := by
  rw [resolveRefspec_setRef]
  split
  · rfl
  · exact h

/-! ## Section 2: Pulling a layer -/

/-- Nothing but the directory `layers/<commit>`, files and faults changed. -/
structure OnlyDir (commit : String) (s s' : Repo) : Prop where
  outside : s'.outside = s.outside
  layers : s'.layers = s.layers
  ostreeRefs : s'.ostreeRefs = s.ostreeRefs
  pulls : s'.pulls = s.pulls
  merged : s'.merged = s.merged
  mergedDirs : s'.mergedDirs = s.mergedDirs
  dirs : ∀ name, name ≠ commit → s'.layerDirs.lookup name = s.layerDirs.lookup name

section OnlyDir

variable {commit : String}

theorem OnlyDir.refl (s : Repo) : OnlyDir commit s s :=
  ⟨rfl, rfl, rfl, rfl, rfl, rfl, fun _ _ => rfl⟩

theorem OnlyDir.trans {s₁ s₂ s₃ : Repo} (h : OnlyDir commit s₁ s₂) (h' : OnlyDir commit s₂ s₃) :
    OnlyDir commit s₁ s₃ where
  outside := h'.outside.trans h.outside
  layers := h'.layers.trans h.layers
  ostreeRefs := h'.ostreeRefs.trans h.ostreeRefs
  pulls := h'.pulls.trans h.pulls
  merged := h'.merged.trans h.merged
  mergedDirs := h'.mergedDirs.trans h.mergedDirs
  dirs := fun name hname => (h'.dirs name hname).trans (h.dirs name hname)

instance : Std.Refl (OnlyDir commit) := ⟨OnlyDir.refl⟩

instance : IsTrans Repo (OnlyDir commit) := ⟨fun _ _ _ => OnlyDir.trans⟩

theorem onlyDir_fallible (step : Step) (message : String) :
    Within (OnlyDir commit) (fallible step message) := by
  intro s
  have hpop : OnlyDir commit s (s.popFault step) :=
    ⟨rfl, rfl, rfl, rfl, rfl, rfl, fun _ _ => rfl⟩
  unfold after fallible
  cases (s.faults step).headD false <;> exact hpop

theorem onlyDir_demand {α : Type} (answer : Repo → Except String α) :
    Within (OnlyDir commit) (demand answer) := by
  intro s
  unfold after demand
  cases answer s <;> exact OnlyDir.refl s

theorem onlyDir_setLayerDir (s : Repo) (content : Option String) :
    OnlyDir commit s (s.setLayerDir commit content) where
  outside := rfl
  layers := rfl
  ostreeRefs := rfl
  pulls := rfl
  merged := rfl
  mergedDirs := rfl
  dirs := by
    intro name hname
    exact (lookup_set commit name content s.layerDirs).trans (if_neg hname)

theorem onlyDir_dropLayerDir (s : Repo) : OnlyDir commit s (s.dropLayerDir commit) :=
  ⟨rfl, rfl, rfl, rfl, rfl, rfl, fun _ hname => lookup_filter_ne hname s.layerDirs⟩

theorem onlyDir_ensureEmptyLayerDir : Within (OnlyDir commit) (ensureEmptyLayerDir commit) :=
  within_bind (onlyDir_demand _) fun _ => within_bind (onlyDir_fallible _ _) fun _ =>
    within_set_of _ fun s => onlyDir_setLayerDir s none

theorem onlyDir_checkoutLayer {layer : RepositoryCacheLayersItem} :
    Within (OnlyDir layer.commit) (checkoutLayer layer) := by
  refine within_bind (onlyDir_fallible _ _) fun _ => ?_
  refine within_bind (within_set_of _ fun s => onlyDir_setLayerDir s none) fun _ => ?_
  refine within_bind (onlyDir_fallible _ _) fun _ => ?_
  refine within_bind (within_set_of _ fun s => onlyDir_dropLayerDir s) fun _ => ?_
  refine within_bind (onlyDir_demand _) fun commit => ?_
  refine within_bind (within_set_of _ fun s => onlyDir_setLayerDir s none) fun _ => ?_
  refine within_bind (onlyDir_fallible _ _) fun _ => ?_
  exact within_set_of _ fun s => onlyDir_setLayerDir s (some commit)

end OnlyDir

/-- A checkout needs the ref of its layer, and the directory then has the
    commit that the ref leads to. -/
theorem checkoutLayer_ok {layer : RepositoryCacheLayersItem} {s s' : Repo}
    (h : checkoutLayer layer s = .ok () s') :
    ∃ commit, s.resolveRefspec (ostreeRefSpecFromLayerItem layer) = some commit ∧
      s'.layerDirs.lookup layer.commit = some (some commit) := by
  obtain ⟨_, s₁, h₁, h⟩ := bind_ok_iff.1 h
  obtain ⟨_, s₂, h₂, h⟩ := bind_ok_iff.1 h
  obtain ⟨_, s₃, h₃, h⟩ := bind_ok_iff.1 h
  obtain ⟨_, s₄, h₄, h⟩ := bind_ok_iff.1 h
  obtain ⟨commit, s₅, h₅, h⟩ := bind_ok_iff.1 h
  obtain ⟨_, s₆, h₆, h⟩ := bind_ok_iff.1 h
  obtain ⟨_, s₇, h₇, h⟩ := bind_ok_iff.1 h
  -- the four steps before only touch the directory
  have hbefore : OnlyDir layer.commit s s₄ :=
    (((onlyDir_fallible _ _).of_ok h₁).trans
      (Within.of_ok (within_set_of _ fun s => onlyDir_setLayerDir s none) h₂)).trans
      (((onlyDir_fallible _ _).of_ok h₃).trans
        (Within.of_ok (within_set_of _ fun s => onlyDir_dropLayerDir s) h₄))
  have hresolve : s₄.resolveRefspec (ostreeRefSpecFromLayerItem layer) =
      s.resolveRefspec (ostreeRefSpecFromLayerItem layer) := by
    rw [resolveRefspec, resolveRefspec, hbefore.ostreeRefs]
  obtain ⟨hanswer, -⟩ := demand_ok h₅
  refine ⟨commit, ?_, ?_⟩
  · rw [← hresolve]
    cases hspec : s₄.resolveRefspec (ostreeRefSpecFromLayerItem layer) with
    | some c =>
      rw [hspec] at hanswer
      cases hanswer
      rfl
    | none => simp [hspec] at hanswer
  · cases h
    exact List.lookup_cons_self

/-- What a pull leaves as it was: records, merged directories, existing
    layer directories and refs. -/
structure PullFrame (s s' : Repo) : Prop where
  outside : s'.outside = s.outside
  honest : s.Honest → s'.Honest
  honestArch : s.HonestArch → s'.HonestArch
  merged : s'.merged = s.merged
  mergedDirs : s'.mergedDirs = s.mergedDirs
  refs : ∀ spec, (s.resolveRefspec spec).isSome = true → (s'.resolveRefspec spec).isSome = true
  dirs : ∀ name, (s.layerDirs.lookup name).isSome = true →
    s'.layerDirs.lookup name = s.layerDirs.lookup name

theorem PullFrame.refl (s : Repo) : PullFrame s s :=
  ⟨rfl, id, id, rfl, rfl, fun _ h => h, fun _ _ => rfl⟩

theorem PullFrame.trans {s₁ s₂ s₃ : Repo} (h : PullFrame s₁ s₂) (h' : PullFrame s₂ s₃) :
    PullFrame s₁ s₃ where
  outside := h'.outside.trans h.outside
  honest := h'.honest ∘ h.honest
  honestArch := h'.honestArch ∘ h.honestArch
  merged := h'.merged.trans h.merged
  mergedDirs := h'.mergedDirs.trans h.mergedDirs
  refs := fun spec hspec => h'.refs spec (h.refs spec hspec)
  dirs := by
    intro name hname
    have hfirst := h.dirs name hname
    rw [← hfirst] at hname
    exact (h'.dirs name hname).trans hfirst

/-- A directory that was not there before is no existing one. -/
theorem OnlyDir.pullFrame {commit : String} {s s' : Repo} (h : OnlyDir commit s s')
    (hnone : s.layerDirs.lookup commit = none) : PullFrame s s' where
  outside := h.outside
  honest := fun hhonest => hhonest.mono h.outside (by rw [h.ostreeRefs]; exact List.Subset.refl _)
    (by rw [h.pulls]; exact List.Subset.refl _)
  honestArch := fun harch => harch.mono h.outside (by rw [h.ostreeRefs]; exact List.Subset.refl _)
    (by rw [h.pulls]; exact List.Subset.refl _)
  merged := h.merged
  mergedDirs := h.mergedDirs
  refs := fun spec hspec => by rwa [resolveRefspec, h.ostreeRefs]
  dirs := by
    intro name hname
    refine h.dirs name ?_
    rintro rfl
    simp [hnone] at hname

/-- The layer that a pull of a module has added. -/
structure NewLayer (ref : OstreeRef) (s s' : Repo) (item : RepositoryCacheLayersItem) : Prop where
  layers : s'.layers = s.layers ++ [item]
  deleted : item.deleted = none
  named : s.Honest → s.outside.Named ref item.commit
  namedArch : s.Honest → s.HonestArch → s.outside.NamedArch ref item.commit
  fresh : ∀ b ∈ s.layers, item.matchesItem b = false
  info : s.outside.commitInfo item.commit = .ok item.info
  resolves : (s'.resolveRefspec (ostreeRefSpecFromLayerItem item)).isSome = true
  dir : s.layerDirs.lookup item.commit = none

/-- `addLayerItem` fails on an existing item, else it adds the item, even if
    it reports an error. -/
theorem addLayerItem_cases (item : RepositoryCacheLayersItem) (s : Repo) :
    (∃ e, addLayerItem item s = .error e s) ∨
      (∀ b ∈ s.layers, item.matchesItem b = false) ∧
      ∃ faults json, after (addLayerItem item) s =
        { s with layers := s.layers ++ [item], faults := faults, statesJson := json } := by
  by_cases hany : s.layers.any item.matchesItem = true
  · left
    exact ⟨"item already exist", bind_of_error (demand_of_error (if_pos hany))⟩
  · right
    have hrun : addLayerItem item s = writeToDisk { s with layers := s.layers ++ [item] } :=
      bind_of_ok (demand_of_ok (if_neg hany))
    have hafter : after (addLayerItem item) s =
        after writeToDisk { s with layers := s.layers ++ [item] } := by
      rw [after, after, hrun]
    refine ⟨by simpa using hany, ?_⟩
    rw [hafter]
    unfold after
    rcases writeToDisk_cases { s with layers := s.layers ++ [item] } with ⟨h, -⟩ | ⟨h, -⟩
    · rw [h]
      exact ⟨_, _, rfl⟩
    · rw [h]
      exact ⟨_, _, rfl⟩

/-- What the end of a pull can do: it adds a layer, or it fails, and then it
    may have added one as well. -/
def PullOutcome (ref : OstreeRef) (s : Repo) : EStateM.Result String Repo Unit → Prop
  | .ok _ s' => PullFrame s s' ∧ ∃ item, NewLayer ref s s' item
  | .error _ s' => PullFrame s s' ∧ (s'.layers = s.layers ∨ ∃ item, NewLayer ref s s' item)

/-- An existing directory stops the pull. -/
theorem ensureEmptyLayerDir_cases (commit : String) (s : Repo) :
    (∃ e, ensureEmptyLayerDir commit s = .error e s) ∨ s.layerDirs.lookup commit = none := by
  cases hdir : s.layerDirs.lookup commit with
  | none => exact .inr rfl
  | some content =>
    left
    exact ⟨_, bind_of_error (demand_of_error (e := "failed to create layer dir " ++ commit)
      (by simp [hdir]))⟩

theorem pullOutcome_handleRepositoryUpdate {ref : OstreeRef} {s s₁ : Repo}
    {item : RepositoryCacheLayersItem} (hdir : s.layerDirs.lookup item.commit = none)
    (hbefore : OnlyDir item.commit s s₁) (hdeleted : item.deleted = none)
    (hnamed : s.Honest → s.outside.Named ref item.commit)
    (harch : s.Honest → s.HonestArch → s.outside.NamedArch ref item.commit)
    (hinfo : s.outside.commitInfo item.commit = .ok item.info) :
    PullOutcome ref s (handleRepositoryUpdate item s₁) := by
  refine bind_elim (fun _ s₂ hcheckout => ?_) fun e s₂ hcheckout => ?_
  · have hframe : OnlyDir item.commit s s₂ :=
      hbefore.trans (onlyDir_checkoutLayer.of_ok hcheckout)
    have hresolves : (s₂.resolveRefspec (ostreeRefSpecFromLayerItem item)).isSome = true := by
      have hrefs := (onlyDir_checkoutLayer.of_ok hcheckout).ostreeRefs
      obtain ⟨commit, hsome, -⟩ := checkoutLayer_ok hcheckout
      rw [resolveRefspec, hrefs]
      exact Option.isSome_iff_exists.2 ⟨commit, hsome⟩
    have hpull := hframe.pullFrame hdir
    rcases addLayerItem_cases item s₂ with ⟨e, hadd⟩ | ⟨hfresh, faults, json, hadd⟩
    · rw [hadd]
      exact ⟨hpull, .inl hframe.layers⟩
    · -- the item is there whether the file could be written or not
      have hnew : NewLayer ref s (after (addLayerItem item) s₂) item := by
        rw [hadd]
        refine ⟨?_, hdeleted, hnamed, harch, ?_, hinfo, hresolves, hdir⟩
        · show s₂.layers ++ [item] = s.layers ++ [item]
          rw [hframe.layers]
        · rw [← hframe.layers]
          exact hfresh
      have hframe' : PullFrame s (after (addLayerItem item) s₂) := by
        rw [hadd]
        refine ⟨hpull.outside, ?_, ?_, hpull.merged, hpull.mergedDirs, hpull.refs, hpull.dirs⟩
        · intro hhonest
          exact (hpull.honest hhonest).mono rfl (List.Subset.refl _) (List.Subset.refl _)
        · intro harch
          exact (hpull.honestArch harch).mono rfl (List.Subset.refl _) (List.Subset.refl _)
      cases hrun : addLayerItem item s₂ with
      | ok u s₃ =>
        rw [after_of_ok hrun] at hnew hframe'
        exact ⟨hframe', item, hnew⟩
      | error e s₃ =>
        rw [after_of_error hrun] at hnew hframe'
        exact ⟨hframe', .inr ⟨item, hnew⟩⟩
  · have hframe : OnlyDir item.commit s s₂ :=
      hbefore.trans (onlyDir_checkoutLayer.of_error hcheckout)
    exact ⟨hframe.pullFrame hdir, .inl hframe.layers⟩

theorem pullOutcome_checkoutPulled (ref : OstreeRef) (s : Repo) :
    PullOutcome ref s (checkoutPulled ref s) := by
  refine bind_elim (fun commit s₁ h₁ => ?_) fun e s₁ h₁ => ?_
  rotate_left
  · cases demand_error h₁
    exact ⟨.refl s, .inl rfl⟩
  obtain ⟨hcommit, rfl⟩ := demand_ok h₁
  refine bind_elim (fun info s₂ h₂ => ?_) fun e s₂ h₂ => ?_
  rotate_left
  · cases demand_error h₂
    exact ⟨.refl s₁, .inl rfl⟩
  obtain ⟨hinfo, rfl⟩ := demand_ok h₂
  -- the commit is the one that the ref has, so it is named as the ref says
  have hset : s₂.Honest → ∃ remote, (⟨remote, ref⟩, commit) ∈ s₂.ostreeRefs := by
    intro hhonest
    cases hrev : s₂.outside.resolveRev s₂.ostreeRefs ref with
    | none => simp [hrev] at hcommit
    | some c =>
      obtain rfl : c = commit := by simpa [hrev] using hcommit
      exact hhonest.resolveRev _ _ _ hrev
  have hnamed : s₂.Honest → s₂.outside.Named ref commit := by
    intro hhonest
    obtain ⟨remote, hmem⟩ := hset hhonest
    exact hhonest.refs _ hmem
  have harch : s₂.Honest → s₂.HonestArch → s₂.outside.NamedArch ref commit := by
    intro hhonest harch
    obtain ⟨remote, hmem⟩ := hset hhonest
    exact harch.refs _ hmem
  show PullOutcome ref s₂ ((ensureEmptyLayerDir commit >>= fun _ =>
    handleRepositoryUpdate ⟨commit, none, info, s₂.defaultRepo⟩) s₂)
  rcases ensureEmptyLayerDir_cases commit s₂ with ⟨e, hexists⟩ | hdir
  · rw [bind_of_error hexists]
    exact ⟨.refl s₂, .inl rfl⟩
  · refine bind_elim (fun _ s₃ h₃ => ?_) fun e s₃ h₃ => ?_
    · exact pullOutcome_handleRepositoryUpdate hdir (onlyDir_ensureEmptyLayerDir.of_ok h₃) rfl
        hnamed harch hinfo
    · have hframe := onlyDir_ensureEmptyLayerDir.of_error h₃
      exact ⟨hframe.pullFrame hdir, .inl hframe.layers⟩

/-! ### The whole pull -/

/-- The last call reports an error. -/
def EndsInError (calls : List PackageTask.Call) : Prop :=
  ∃ pre e, calls = pre ++ [.reportError e]

/-- The names under which a module is looked for. -/
def IsNameOf (reference : Reference) (module : String) (ref : OstreeRef) : Prop :=
  ref = ostreeSpecFromReferenceV2 reference module none ∨
    ((module = "binary" ∨ module = "runtime") ∧ ref = ostreeSpecFromReference reference module)

/-- What a pull can do: it adds a layer under one of the names of the
    module, or it reports an error; in no case does it touch anything else. -/
structure PullSpec (reference : Reference) (module : String) (s : Repo)
    (result : Repo × List PackageTask.Call) : Prop where
  frame : PullFrame s result.1
  layers : (result.1.layers = s.layers ∧ EndsInError result.2) ∨
    ∃ ref item, IsNameOf reference module ref ∧ NewLayer ref s result.1 item

theorem pullFrame_ostreePull (s : Repo) (ref : OstreeRef) :
    PullFrame s (s.ostreePull ref).1 ∧ (s.ostreePull ref).1.layers = s.layers ∧
      (s.ostreePull ref).1.layerDirs = s.layerDirs := by
  unfold ostreePull
  split
  · exact ⟨.refl s, rfl, rfl⟩
  · next reply rest hpulls =>
    simp only
    split
    · next commit hcommit =>
      have hrest : ∀ r ∈ rest, r ∈ s.pulls := by
        intro r hr
        rw [hpulls]
        exact List.mem_cons_of_mem _ hr
      refine ⟨⟨rfl, ?_, ?_, rfl, rfl, fun spec h => resolveRefspec_setRef_isSome h,
        fun _ _ => rfl⟩, rfl, rfl⟩
      · intro hhonest
        refine ⟨?_, hhonest.resolveRev, fun r hr => hhonest.pulls r (hrest r hr)⟩
        intro e he
        rcases List.mem_cons.1 he with rfl | he
        · exact hhonest.pulls reply (by simp [hpulls]) ref commit hcommit
        · exact hhonest.refs e (List.mem_of_mem_filter he)
      · intro harch
        refine ⟨?_, fun r hr => harch.pulls r (hrest r hr)⟩
        intro e he
        rcases List.mem_cons.1 he with rfl | he
        · exact harch.pulls reply (by simp [hpulls]) ref commit hcommit
        · exact harch.refs e (List.mem_of_mem_filter he)
    · have hrest : rest ⊆ s.pulls := by
        rw [hpulls]
        exact List.subset_cons_self _ _
      exact ⟨⟨rfl, fun h => h.mono rfl (List.Subset.refl _) hrest,
        fun h => h.mono rfl (List.Subset.refl _) hrest, rfl, rfl, fun _ h => h, fun _ _ => rfl⟩,
        rfl, rfl⟩

theorem pullSpec_finishPull {reference : Reference} {module : String} {s s₁ : Repo}
    (hframe : PullFrame s s₁) (hlayers : s₁.layers = s.layers)
    (hdirs : s₁.layerDirs = s.layerDirs) {ref : OstreeRef} (hname : IsNameOf reference module ref)
    (calls : List PackageTask.Call) :
    PullSpec reference module s ((s₁.finishPull ref).1, calls ++ (s₁.finishPull ref).2) := by
  have hout := pullOutcome_checkoutPulled ref s₁
  -- a layer that is new for `s₁` is new for `s`
  have hnew : ∀ {s' item}, NewLayer ref s₁ s' item → NewLayer ref s s' item := by
    intro s' item h
    refine ⟨?_, h.deleted, ?_, ?_, ?_, ?_, h.resolves, ?_⟩
    · rw [h.layers, hlayers]
    · rw [← hframe.outside]
      exact h.named ∘ hframe.honest
    · rw [← hframe.outside]
      exact fun hhonest harch => h.namedArch (hframe.honest hhonest) (hframe.honestArch harch)
    · rw [← hlayers]
      exact h.fresh
    · rw [← hframe.outside]
      exact h.info
    · rw [← hdirs]
      exact h.dir
  unfold finishPull
  cases hrun : checkoutPulled ref s₁ with
  | ok u s₂ =>
    rw [hrun] at hout
    obtain ⟨hf, item, hitem⟩ := hout
    exact ⟨hframe.trans hf, .inr ⟨ref, item, hname, hnew hitem⟩⟩
  | error e s₂ =>
    rw [hrun] at hout
    obtain ⟨hf, hl | ⟨item, hitem⟩⟩ := hout
    · exact ⟨hframe.trans hf, .inl ⟨hl.trans hlayers, calls, _, rfl⟩⟩
    · exact ⟨hframe.trans hf, .inr ⟨ref, item, hname, hnew hitem⟩⟩

theorem pullSpec_pullOldName {reference : Reference} {module : String} {s s₁ : Repo}
    (hframe : PullFrame s s₁) (hlayers : s₁.layers = s.layers)
    (hdirs : s₁.layerDirs = s.layerDirs) (hmodule : module = "binary" ∨ module = "runtime")
    (calls : List PackageTask.Call) :
    PullSpec reference module s ((s₁.pullOldName reference module).1,
      calls ++ (s₁.pullOldName reference module).2) := by
  have hpull := s₁.pullFrame_ostreePull (ostreeSpecFromReference reference module)
  unfold pullOldName
  simp only
  rcases hreply : s₁.ostreePull (ostreeSpecFromReference reference module) with ⟨s₂, more, status⟩
  rw [hreply] at hpull
  obtain ⟨hf, hl, hd⟩ := hpull
  cases status with
  | ok commit =>
    have hspec := pullSpec_finishPull (hframe.trans hf) (hl.trans hlayers) (hd.trans hdirs)
      (.inr ⟨hmodule, rfl⟩ : IsNameOf reference module _) (calls ++ more)
    simpa [List.append_assoc] using hspec
  | noSuchBranch e | error e =>
    exact ⟨hframe.trans hf, .inl ⟨hl.trans hlayers, calls ++ more, _, by simp; rfl⟩⟩

/-- What `pull` can do. -/
theorem pull_spec (s : Repo) (reference : Reference) (module : String) :
    PullSpec reference module s (s.pull reference module) := by
  have hpull := s.pullFrame_ostreePull (ostreeSpecFromReferenceV2 reference module none)
  unfold pull
  simp only
  rcases hreply : s.ostreePull (ostreeSpecFromReferenceV2 reference module none) with
    ⟨s₁, calls, status⟩
  rw [hreply] at hpull
  obtain ⟨hf, hl, hd⟩ := hpull
  cases status with
  | ok commit => exact pullSpec_finishPull hf hl hd (.inl rfl) calls
  | error e => exact ⟨hf, .inl ⟨hl, calls, _, rfl⟩⟩
  | noSuchBranch e =>
    simp only
    split
    · next hmodule => exact pullSpec_pullOldName hf hl hd hmodule calls
    · exact pullSpec_finishPull hf hl hd (.inl rfl) calls

/-- The layer that a pull adds belongs to the reference and has the module
    that was asked for. -/
theorem NewLayer.isLayerOf {reference : Reference} {module : String} {ref : OstreeRef}
    {s s' : Repo} {item : RepositoryCacheLayersItem} (h : NewLayer ref s s' item)
    (hhonest : s.Honest) (hname : IsNameOf reference module ref) :
    item.isLayerOf reference = true := by
  obtain ⟨hid, hchannel, hversion, -⟩ := h.named hhonest item.info h.info
  rw [isLayerOf_iff, hid, hchannel, hversion]
  rcases hname with rfl | ⟨-, rfl⟩ <;> exact ⟨rfl, rfl, rfl⟩

theorem NewLayer.moduleName {reference : Reference} {module : String} {ref : OstreeRef}
    {s s' : Repo} {item : RepositoryCacheLayersItem} (h : NewLayer ref s s' item)
    (hhonest : s.Honest) (hname : IsNameOf reference module ref) :
    item.moduleName = normModule module := by
  obtain ⟨-, -, -, hmodule⟩ := h.named hhonest item.info h.info
  rw [RepositoryCacheLayersItem.moduleName, hmodule]
  rcases hname with rfl | ⟨hcase, rfl⟩
  · exact normModule_normModule module
  · rcases hcase with rfl | rfl <;> rfl

theorem NewLayer.arch {reference : Reference} {module : String} {ref : OstreeRef}
    {s s' : Repo} {item : RepositoryCacheLayersItem} (h : NewLayer ref s s' item)
    (hhonest : s.Honest) (harch : s.HonestArch) (hname : IsNameOf reference module ref) :
    item.arch = reference.arch.toString := by
  rw [RepositoryCacheLayersItem.arch, h.namedArch hhonest harch item.info h.info]
  rcases hname with rfl | ⟨-, rfl⟩ <;> rfl

/-! ## Section 3: Marking and removing a layer -/

/-- `markDeleted` when its layer is found: the next entry of `faults` decides. -/
theorem markDeleted_of_found {s : Repo} {ref : Reference} {module : String}
    {item : RepositoryCacheLayersItem} (hitem : s.getLayerItem ref module none = .ok item)
    (deleted : Bool) :
    ((s.faults .writeCache).headD false = true ∧
      markDeleted ref deleted module s =
        .error "failed to update cache" (s.popFault .writeCache)) ∨
    ((s.faults .writeCache).headD false = false ∧
      markDeleted ref deleted module s = .ok () { s with
        layers := setDeletedFirst item.matchesItem (if deleted then some true else none) s.layers
        faults := (s.popFault .writeCache).faults
        statesJson := (setDeletedFirst item.matchesItem (if deleted then some true else none)
          s.layers, s.merged) }) := by
  have hany : s.layers.any item.matchesItem = true :=
    List.any_eq_true.2 ⟨item, (mem_layersOf.1 (getLayerItem_mem hitem).1).1, by simp⟩
  have hfind : findMatchingItem item s = .ok () s := demand_of_ok (if_pos hany)
  let s₁ : Repo := { s with
    layers := setDeletedFirst item.matchesItem (if deleted then some true else none) s.layers }
  have hrun : markDeleted ref deleted module s =
      (tryCatch writeToDisk fun e => do
        modify fun s' => { s' with layers := s.layers }
        throw e : RepoM Unit) s₁ :=
    (bind_of_ok (demand_of_ok hitem)).trans (bind_of_ok hfind)
  -- a failed write puts the items back
  rw [tryCatch_run] at hrun
  rcases s₁.writeToDisk_cases with ⟨hwrite, hhead⟩ | ⟨hwrite, hhead⟩
  · right
    rw [hwrite] at hrun
    exact ⟨hhead, hrun⟩
  · left
    rw [hwrite] at hrun
    exact ⟨hhead, hrun⟩

/-- `markDeleted` fails and changes nothing, or it sets the mark of the item
    that `getLayerItem` finds. It fails only if there is no such item or the
    file cannot be written. -/
theorem markDeleted_cases (ref : Reference) (deleted : Bool) (module : String) (s : Repo) :
    (∃ e faults, s.Pops faults ∧
      markDeleted ref deleted module s = .error e { s with faults := faults } ∧
      ((∃ item, s.getLayerItem ref module none = .ok item) → ¬ s.NoFaults .writeCache)) ∨
    ∃ item faults, s.Pops faults ∧ s.getLayerItem ref module none = .ok item ∧
      markDeleted ref deleted module s = .ok () { s with
        layers := setDeletedFirst item.matchesItem (if deleted then some true else none) s.layers
        faults := faults
        statesJson := (setDeletedFirst item.matchesItem (if deleted then some true else none)
          s.layers, s.merged) } := by
  cases hitem : s.getLayerItem ref module none with
  | error e =>
    left
    exact ⟨e, s.faults, fun _ => List.suffix_refl _, bind_of_error (demand_of_error hitem),
      fun ⟨_, h⟩ => nomatch h⟩
  | ok item =>
    rcases markDeleted_of_found hitem deleted with ⟨hhead, hrun⟩ | ⟨-, hrun⟩
    · left
      refine ⟨_, _, s.pops_popFault .writeCache, hrun, ?_⟩
      intro _ hno
      have hfalse : (s.faults .writeCache).headD false = false := hno.headD
      exact absurd (hfalse.symm.trans hhead) (by decide)
    · right
      exact ⟨item, _, s.pops_popFault .writeCache, rfl, hrun⟩

/-- Deleting an item of the cache; the item is gone even if the file cannot
    be written. -/
theorem after_deleteLayerItem {layer : RepositoryCacheLayersItem} {s : Repo}
    (h : layer ∈ s.layers) :
    ∃ faults json, s.Pops faults ∧ after (deleteLayerItem layer) s =
      { s with layers := s.layers.eraseP layer.matchesItem, faults := faults, statesJson := json } ∧
      (s.NoFaults .writeCache → ∃ s', deleteLayerItem layer s = .ok () s') := by
  have hany : s.layers.any layer.matchesItem = true := List.any_eq_true.2 ⟨layer, h, by simp⟩
  have hrun : deleteLayerItem layer s =
      writeToDisk { s with layers := s.layers.eraseP layer.matchesItem } :=
    bind_of_ok (demand_of_ok (if_pos hany))
  unfold after
  rw [hrun]
  rcases writeToDisk_cases { s with layers := s.layers.eraseP layer.matchesItem } with
    ⟨hwrite, -⟩ | ⟨hwrite, hhead⟩
  · rw [hwrite]
    exact ⟨_, _, s.pops_popFault .writeCache, rfl, fun _ => ⟨_, rfl⟩⟩
  · rw [hwrite]
    refine ⟨_, _, s.pops_popFault .writeCache, rfl, ?_⟩
    intro hno
    have hfalse : (s.faults .writeCache).headD false = false := hno.headD
    exact absurd (hfalse.symm.trans hhead) (by decide)

/-- The store after a layer has been removed. -/
def withoutLayer (s : Repo) (layer : RepositoryCacheLayersItem) (faults : Step → List Bool)
    (json : List RepositoryCacheLayersItem × Option (List RepositoryCacheMergedItem))
    (dirs : List (String × Option String)) : Repo :=
  { s with
    layers := s.layers.eraseP layer.matchesItem
    ostreeRefs := (s.dropRef (ostreeRefSpecFromLayerItem layer)).ostreeRefs
    layerDirs := dirs
    faults := faults
    statesJson := json }

/-- `removeOstreeRef` fails and changes nothing, or the layer is gone from
    the refs and from the cache. -/
theorem removeOstreeRef_cases {layer : RepositoryCacheLayersItem} {s : Repo}
    (h : layer ∈ s.layers) :
    (∃ e faults, s.Pops faults ∧ removeOstreeRef layer s = .error e { s with faults := faults } ∧
      ((s.resolveRefspec (ostreeRefSpecFromLayerItem layer)).isSome = true →
        ¬ s.NoFaults .setRef)) ∨
    ∃ faults json, s.Pops faults ∧
      after (removeOstreeRef layer) s = s.withoutLayer layer faults json s.layerDirs ∧
      (s.NoFaults .writeCache → ∃ s', removeOstreeRef layer s = .ok () s') := by
  cases hspec : s.resolveRefspec (ostreeRefSpecFromLayerItem layer) with
  | none =>
    left
    exact ⟨"couldn't resolve ref on local machine", s.faults, fun _ => List.suffix_refl _,
      bind_of_error (demand_of_error (by simp [hspec])), fun hsome => nomatch hsome⟩
  | some commit =>
    have hrun : removeOstreeRef layer s = (fallible .setRef "ostree_repo_set_ref_immediate" >>=
        fun _ => (do
          modify fun s => s.dropRef (ostreeRefSpecFromLayerItem layer)
          deleteLayerItem layer : RepoM Unit)) s :=
      bind_of_ok (demand_of_ok (a := ()) (by simp [hspec]))
    -- after the ref has been dropped the item goes, even if the write fails
    rcases fallible_cases .setRef "ostree_repo_set_ref_immediate" s with ⟨hset, -⟩ | ⟨hset, hhead⟩
    · right
      rw [bind_of_ok hset] at hrun
      obtain ⟨faults, json, hpops, hdelete, hok⟩ := after_deleteLayerItem
        (s := (s.popFault .setRef).dropRef (ostreeRefSpecFromLayerItem layer)) h
      refine ⟨faults, json, (s.pops_popFault .setRef).trans hpops, ?_, ?_⟩
      rotate_left
      · intro hno
        obtain ⟨s', hs'⟩ := hok (hno.of_pops (s.pops_popFault .setRef))
        exact ⟨s', hrun.trans hs'⟩
      have hafter : after (removeOstreeRef layer) s = after (deleteLayerItem layer)
          ((s.popFault .setRef).dropRef (ostreeRefSpecFromLayerItem layer)) := by
        rw [after, hrun]
        rfl
      rw [hafter, hdelete]
      rfl
    · left
      rw [bind_of_error hset] at hrun
      refine ⟨_, _, s.pops_popFault .setRef, hrun, ?_⟩
      intro _ hno
      exact absurd (hno.headD.symm.trans hhead) (by decide)

theorem removeLayerDir_run (layer : RepositoryCacheLayersItem) (s : Repo) :
    ∃ faults dirs, s.Pops faults ∧
      (dirs = s.layerDirs ∨ dirs = (s.dropLayerDir layer.commit).layerDirs) ∧
      removeLayerDir layer s = .ok () { s with layerDirs := dirs, faults := faults } := by
  cases hdir : s.layerDirOf layer with
  | error e =>
    refine ⟨s.faults, s.layerDirs, fun _ => List.suffix_refl _, .inl rfl, ?_⟩
    refine (bind_of_ok (get_run s)).trans ?_
    rw [hdir]
    rfl
  | ok content =>
    have hrun : removeLayerDir layer s = (tryCatch (do
        fallible .removeLayerDir ("Failed to remove dir: " ++ layer.commit)
        modify fun s => s.dropLayerDir layer.commit) fun _ => pure () : RepoM Unit) s := by
      refine (bind_of_ok (get_run s)).trans ?_
      rw [hdir]
    rw [tryCatch_run] at hrun
    rcases fallible_cases .removeLayerDir ("Failed to remove dir: " ++ layer.commit) s with
      ⟨h, -⟩ | ⟨h, -⟩
    · rw [bind_of_ok h] at hrun
      exact ⟨_, _, s.pops_popFault .removeLayerDir, .inr rfl, hrun⟩
    · rw [bind_of_error h] at hrun
      exact ⟨_, _, s.pops_popFault .removeLayerDir, .inl rfl, hrun⟩

/-- What `remove` can do: it fails and changes nothing, or the layer that
    `getLayerItem` finds is gone, from `layers/` perhaps not. -/
theorem remove_cases (ref : Reference) (module : String) (subRef : Option String) (s : Repo) :
    (∃ e faults, s.Pops faults ∧
      remove ref module subRef s = .error e { s with faults := faults } ∧
      ∀ layer, s.getLayerItem ref module subRef = .ok layer →
        (s.resolveRefspec (ostreeRefSpecFromLayerItem layer)).isSome = true →
        ¬ s.NoFaults .setRef) ∨
    ∃ layer faults json dirs, s.Pops faults ∧ s.getLayerItem ref module subRef = .ok layer ∧
      after (remove ref module subRef) s = s.withoutLayer layer faults json dirs ∧
      (dirs = s.layerDirs ∨ dirs = (s.dropLayerDir layer.commit).layerDirs) ∧
      (s.NoFaults .writeCache → ∃ s', remove ref module subRef s = .ok () s') := by
  cases hitem : s.getLayerItem ref module subRef with
  | error e =>
    left
    exact ⟨e, s.faults, fun _ => List.suffix_refl _, bind_of_error (demand_of_error hitem),
      fun _ h => nomatch h⟩
  | ok layer =>
    have hmem : layer ∈ s.layers := (mem_layersOf.1 (getLayerItem_mem hitem).1).1
    have hstart : remove ref module subRef s =
        (removeOstreeRef layer >>= fun _ => removeLayerDir layer) s :=
      bind_of_ok (demand_of_ok hitem)
    rcases removeOstreeRef_cases hmem with ⟨e, faults, hpops, hrun, hfault⟩ |
      ⟨faults, json, hpops, hrun, hok⟩
    · left
      rw [bind_of_error hrun] at hstart
      refine ⟨e, faults, hpops, hstart, ?_⟩
      intro layer' hlayer'
      cases hlayer'
      exact hfault
    · right
      -- an error after this point still means that the layer is gone
      cases hresult : removeOstreeRef layer s with
      | error e s₁ =>
        rw [bind_of_error hresult] at hstart
        rw [after_of_error hresult] at hrun
        refine ⟨layer, faults, json, _, hpops, rfl, by rw [after_of_error hstart, hrun],
          .inl rfl, ?_⟩
        intro hno
        obtain ⟨s', hs'⟩ := hok hno
        rw [hresult] at hs'
        cases hs'
      | ok u s₁ =>
        rw [bind_of_ok hresult] at hstart
        rw [after_of_ok hresult] at hrun
        subst hrun
        obtain ⟨faults', dirs, hpops', hdirs, hdrop⟩ := removeLayerDir_run layer
          (s.withoutLayer layer faults json s.layerDirs)
        refine ⟨layer, faults', json, dirs, hpops.trans hpops', rfl, ?_, hdirs,
          fun _ => ⟨_, hstart.trans hdrop⟩⟩
        rw [after_of_ok (hstart.trans hdrop)]
        rfl

/-! ## Section 4: What is left alone -/

/-- References that have the same layers. -/
def SameLayers (ref ref' : Reference) : Prop :=
  ref.id = ref'.id ∧ ref.channel = ref'.channel ∧ ref.version.toString = ref'.version.toString

theorem SameLayers.isLayerOf {ref ref' : Reference} (h : SameLayers ref ref')
    (item : RepositoryCacheLayersItem) : item.isLayerOf ref = item.isLayerOf ref' := by
  obtain ⟨hid, hchannel, hversion⟩ := h
  simp [RepositoryCacheLayersItem.isLayerOf, hid, hchannel, hversion]

theorem isLayerOf_of_not_sameLayers {ref ref' : Reference} (h : ¬ SameLayers ref' ref)
    {layer : RepositoryCacheLayersItem} (hlayer : layer.isLayerOf ref' = true) :
    layer.isLayerOf ref = false := by
  by_contra hne
  have hlayer' : layer.isLayerOf ref = true := by simpa using hne
  obtain ⟨hid, hchannel, hversion⟩ := isLayerOf_iff.1 hlayer
  obtain ⟨hid', hchannel', hversion'⟩ := isLayerOf_iff.1 hlayer'
  exact h ⟨hid.symm.trans hid', hchannel.symm.trans hchannel', hversion.symm.trans hversion'⟩

/-- The ostree refs of a reference. -/
def IsRefOf (ref : Reference) (r : OstreeRef) : Prop :=
  r.id = ref.id ∧ r.channel = ref.channel ∧ r.version = ref.version.toString

theorem isRefOf_layer {ref : Reference} {layer : RepositoryCacheLayersItem} :
    IsRefOf ref (ostreeRefSpecFromLayerItem layer).ref ↔ layer.isLayerOf ref = true := by
  rw [isLayerOf_iff]
  exact Iff.rfl

/-- A change beside the layers of a reference: the outside and these layers
    stay as they are, and their refs are still there. -/
structure Aside (ref : Reference) (s s' : Repo) : Prop where
  outside : s'.outside = s.outside
  honest : s.Honest → s'.Honest
  honestArch : s.HonestArch → s'.HonestArch
  refs : ∀ spec : OstreeRefSpec, IsRefOf ref spec.ref →
    (s.resolveRefspec spec).isSome = true → (s'.resolveRefspec spec).isSome = true
  view : s'.view ref = s.view ref

theorem Aside.refl {ref : Reference} (s : Repo) : Aside ref s s :=
  ⟨rfl, id, id, fun _ _ h => h, rfl⟩

theorem Aside.trans {ref : Reference} {s₁ s₂ s₃ : Repo} (h : Aside ref s₁ s₂)
    (h' : Aside ref s₂ s₃) : Aside ref s₁ s₃ where
  outside := h'.outside.trans h.outside
  honest := h'.honest ∘ h.honest
  honestArch := h'.honestArch ∘ h.honestArch
  refs := fun spec hspec hsome => h'.refs spec hspec (h.refs spec hspec hsome)
  view := h'.view.trans h.view

/-- Removing a layer of another reference. -/
theorem aside_remove {ref ref' : Reference} (h : ¬ SameLayers ref' ref) (module : String)
    (subRef : Option String) (s : Repo) : Aside ref s (after (remove ref' module subRef) s) := by
  rcases remove_cases ref' module subRef s with ⟨e, faults, -, hrun, -⟩ |
    ⟨layer, faults, json, dirs, -, hitem, hrun, -, -⟩
  · rw [after_of_error hrun]
    exact ⟨rfl, fun hhonest => hhonest.mono rfl (List.Subset.refl _) (List.Subset.refl _),
      fun harch => harch.mono rfl (List.Subset.refl _) (List.Subset.refl _),
      fun _ _ hsome => hsome, rfl⟩
  · have hother : layer.isLayerOf ref = false :=
      isLayerOf_of_not_sameLayers h (mem_layersOf.1 (getLayerItem_mem hitem).1).2
    rw [hrun]
    refine ⟨rfl,
      fun hhonest => hhonest.mono rfl (List.filter_subset_self _) (List.Subset.refl _),
      fun harch => harch.mono rfl (List.filter_subset_self _) (List.Subset.refl _), ?_,
      layersOf_eraseP_other hother s.layers⟩
    intro spec hspec hsome
    have hne : spec ≠ ostreeRefSpecFromLayerItem layer := by
      rintro rfl
      rw [isRefOf_layer, hother] at hspec
      cases hspec
    show ((s.dropRef (ostreeRefSpecFromLayerItem layer)).resolveRefspec spec).isSome = true
    rw [resolveRefspec_dropRef hne]
    exact hsome

/-- Pulling a layer of another reference. -/
theorem aside_pull {ref ref' : Reference} (h : ¬ SameLayers ref' ref) {s : Repo}
    (hhonest : s.Honest) (module : String) : Aside ref s (s.pull ref' module).1 := by
  obtain ⟨hframe, hlayers⟩ := s.pull_spec ref' module
  refine ⟨hframe.outside, hframe.honest, hframe.honestArch,
    fun spec _ hsome => hframe.refs spec hsome, ?_⟩
  rcases hlayers with ⟨hlayers, -⟩ | ⟨r, item, hname, hnew⟩
  · rw [view, view, hlayers]
  · have hother := isLayerOf_of_not_sameLayers h (hnew.isLayerOf hhonest hname)
    rw [view, view, hnew.layers, layersOf, List.filter_append]
    simp [layersOf, hother]

/-! ## Section 5: `mergeModules` -/

/-- What `mergeModules` leaves alone: everything but `merged/`, its records,
    files and faults. -/
structure MergeFrame (s s' : Repo) : Prop where
  outside : s'.outside = s.outside
  layers : s'.layers = s.layers
  ostreeRefs : s'.ostreeRefs = s.ostreeRefs
  layerDirs : s'.layerDirs = s.layerDirs
  pulls : s'.pulls = s.pulls

section MergeFrame

theorem MergeFrame.refl (s : Repo) : MergeFrame s s := ⟨rfl, rfl, rfl, rfl, rfl⟩

theorem MergeFrame.trans {s₁ s₂ s₃ : Repo} (h : MergeFrame s₁ s₂) (h' : MergeFrame s₂ s₃) :
    MergeFrame s₁ s₃ where
  outside := h'.outside.trans h.outside
  layers := h'.layers.trans h.layers
  ostreeRefs := h'.ostreeRefs.trans h.ostreeRefs
  layerDirs := h'.layerDirs.trans h.layerDirs
  pulls := h'.pulls.trans h.pulls

instance : Std.Refl MergeFrame := ⟨MergeFrame.refl⟩

instance : IsTrans Repo MergeFrame := ⟨fun _ _ _ => MergeFrame.trans⟩

theorem mergeFrame_fallible (step : Step) (message : String) :
    Within MergeFrame (fallible step message) := by
  intro s
  have hpop : MergeFrame s (s.popFault step) := ⟨rfl, rfl, rfl, rfl, rfl⟩
  unfold after fallible
  cases (s.faults step).headD false <;> exact hpop

theorem mergeFrame_buildMergedDir (record : RepositoryCacheMergedItem) :
    Within MergeFrame (buildMergedDir record) := by
  have hset : ∀ f : Repo → Repo, (∀ s, MergeFrame s (f s)) →
      Within MergeFrame (modify f : RepoM PUnit) := fun f h => within_set_of f h
  refine within_bind (mergeFrame_fallible _ _) fun _ => within_bind (hset _ ?_) fun _ =>
    within_bind (mergeFrame_fallible _ _) fun _ => within_bind (hset _ ?_) fun _ =>
    within_bind (within_forM fun commit _ => within_bind (mergeFrame_fallible _ _) fun _ =>
      hset _ ?_) fun _ =>
    within_bind (mergeFrame_fallible _ _) fun _ => within_bind (hset _ ?_) fun _ =>
    within_bind (mergeFrame_fallible _ _) fun _ => hset _ ?_
  all_goals
    intro s
    exact ⟨rfl, rfl, rfl, rfl, rfl⟩

theorem mergeFrame_mergeGroup (key : String) (group : List RepositoryCacheLayersItem) :
    Within MergeFrame (mergeGroup key group) := by
  refine within_bind within_get fun s => within_ite (fun _ => within_pure _) fun _ => ?_
  split
  · exact within_pure _
  · split
    · exact within_ite (fun _ => within_pure _) fun _ =>
        within_bind (mergeFrame_buildMergedDir _) fun _ => within_pure _
    · exact within_bind (mergeFrame_buildMergedDir _) fun _ => within_pure _

theorem mergeFrame_mergeGroups (groups : List (String × List RepositoryCacheLayersItem)) :
    Within MergeFrame (mergeGroups groups) := by
  induction groups with
  | nil => exact within_pure _
  | cons g groups ih =>
    obtain ⟨key, group⟩ := g
    exact within_bind (mergeFrame_mergeGroup key group) fun _ => within_bind ih fun _ =>
      within_pure _

theorem mergeFrame_cleanMergedDir (records : List RepositoryCacheMergedItem) :
    Within MergeFrame (cleanMergedDir records) := by
  refine within_bind (mergeFrame_fallible _ _) fun _ => within_bind within_get fun s =>
    within_forM fun dir _ => within_ite (fun _ => within_pure _) fun _ =>
    within_tryCatch (within_bind (mergeFrame_fallible _ _) fun _ =>
      within_set_of _ fun s => ⟨rfl, rfl, rfl, rfl, rfl⟩) fun _ => within_pure _

theorem mergeFrame_mergeModules : Within MergeFrame mergeModules := by
  refine within_bind within_get fun s => within_bind (mergeFrame_mergeGroups _) fun records =>
    within_bind ?_ fun _ => mergeFrame_cleanMergedDir records
  refine within_bind (within_set_of _ fun s => ⟨rfl, rfl, rfl, rfl, rfl⟩) fun _ =>
    within_bind (mergeFrame_fallible _ _) fun _ =>
    within_set_of _ fun s => ⟨rfl, rfl, rfl, rfl, rfl⟩

end MergeFrame

end Repo

end Linglong
