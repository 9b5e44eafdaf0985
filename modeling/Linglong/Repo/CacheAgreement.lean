import Linglong.Framework.Machine
import Linglong.Repo.Steps

/-! # The Cache and its File

    `RepoCache` keeps its items in memory and writes all of them to
    `states.json` after each change. A restart reads the file, so a change
    that is in memory only is lost then.

    The mutators change the memory first. If the file cannot be written,
    `markDeleted` puts the old mark back; the three others return the error
    and leave the memory changed.

    1. The mutators as a machine.
    2. When one call keeps memory and file in agreement.
    3. Runs (`agrees_always_iff`).
-/

namespace Linglong

open Framework RepositoryCacheLayersItem

/-! ## Section 1: Calls -/

/-- A call that changes the cache. -/
inductive CacheCall where
  | addLayerItem (item : RepositoryCacheLayersItem)
  | deleteLayerItem (item : RepositoryCacheLayersItem)
  | updateMergedItems (items : List RepositoryCacheMergedItem)
  | markDeleted (ref : Reference) (deleted : Bool) (module : String)

namespace CacheCall

/-- What a call does. -/
def run : CacheCall → RepoM Unit
  | addLayerItem item => Repo.addLayerItem item
  | deleteLayerItem item => Repo.deleteLayerItem item
  | updateMergedItems items => Repo.updateMergedItems items
  | markDeleted ref deleted module => Repo.markDeleted ref deleted module

/-- One call after the other. Which of them fail to write the file is open. -/
def machine : Machine Repo CacheCall where
  next := fun s c => some (after c.run s)

/-- The next attempt to write the file fails. -/
def WriteFails (s : Repo) : Prop := (s.faults .writeCache).headD false = true

/-- The call does not change the memory ahead of a write that fails. It does
    not get to the write if the item to add is there or the item to delete is
    not, and it changes nothing if the records are the old ones. -/
def Persists (s : Repo) (c : CacheCall) : Prop :=
  WriteFails s →
    match c with
    | addLayerItem item => s.layers.any item.matchesItem = true
    | deleteLayerItem item => s.layers.any item.matchesItem = false
    | updateMergedItems items => s.merged = some items
    | markDeleted _ _ _ => True

end CacheCall

namespace Repo

/-- Memory and file have the same layers, marks and records. -/
def Agrees (s : Repo) : Prop := s.statesJson = (s.layers, s.merged)

/-! ## Section 2: One call -/

/-- After a write the file has what is in memory, unless the write failed. -/
theorem agrees_writeToDisk_iff {s : Repo} (h : s.Agrees) (layers : List RepositoryCacheLayersItem)
    (merged : Option (List RepositoryCacheMergedItem)) :
    (after writeToDisk { s with layers := layers, merged := merged }).Agrees ↔
      (CacheCall.WriteFails s → layers = s.layers ∧ merged = s.merged) := by
  unfold CacheCall.WriteFails
  rcases writeToDisk_cases { s with layers := layers, merged := merged } with
    ⟨hwrite, hhead⟩ | ⟨hwrite, hhead⟩
  · have hhead' : (s.faults .writeCache).headD false = false := hhead
    rw [after_of_ok hwrite, hhead']
    constructor
    · intro _ hfails
      cases hfails
    · intro _
      rfl
  · have hhead' : (s.faults .writeCache).headD false = true := hhead
    rw [after_of_error hwrite, hhead']
    show s.statesJson = (layers, merged) ↔ _
    -- the file still has what was in memory before
    rw [h, Prod.mk.injEq]
    constructor
    · rintro ⟨hlayers, hmerged⟩ _
      exact ⟨hlayers.symm, hmerged.symm⟩
    · intro hsame
      obtain ⟨hlayers, hmerged⟩ := hsame rfl
      exact ⟨hlayers.symm, hmerged.symm⟩

theorem agrees_addLayerItem_iff {s : Repo} (h : s.Agrees) (item : RepositoryCacheLayersItem) :
    (after (addLayerItem item) s).Agrees ↔ CacheCall.Persists s (.addLayerItem item) := by
  by_cases hany : s.layers.any item.matchesItem = true
  · have hrun : addLayerItem item s = .error "item already exist" s :=
      bind_of_error (demand_of_error (if_pos hany))
    rw [after_of_error hrun]
    exact ⟨fun _ _ => hany, fun _ => h⟩
  · have hrun : addLayerItem item s = writeToDisk { s with layers := s.layers ++ [item] } :=
      bind_of_ok (demand_of_ok (if_neg hany))
    have hafter : after (addLayerItem item) s =
        after writeToDisk { s with layers := s.layers ++ [item] } := by
      rw [after, after, hrun]
    rw [hafter, agrees_writeToDisk_iff h]
    refine forall_congr' fun _ => ?_
    -- a list with one more item is another one
    have hne : s.layers ++ [item] ≠ s.layers := by simp
    exact ⟨fun hsame => absurd hsame.1 hne, fun hany' => absurd hany' hany⟩

theorem agrees_deleteLayerItem_iff {s : Repo} (h : s.Agrees) (item : RepositoryCacheLayersItem) :
    (after (deleteLayerItem item) s).Agrees ↔ CacheCall.Persists s (.deleteLayerItem item) := by
  by_cases hany : s.layers.any item.matchesItem = true
  · have hrun : deleteLayerItem item s =
        writeToDisk { s with layers := s.layers.eraseP item.matchesItem } :=
      bind_of_ok (demand_of_ok (if_pos hany))
    have hafter : after (deleteLayerItem item) s =
        after writeToDisk { s with layers := s.layers.eraseP item.matchesItem } := by
      rw [after, after, hrun]
    rw [hafter, agrees_writeToDisk_iff h]
    refine forall_congr' fun _ => ?_
    -- a list with one item less is another one
    have hne : s.layers.eraseP item.matchesItem ≠ s.layers := by
      intro hsame
      obtain ⟨b, hb, hmatch⟩ := List.any_eq_true.1 hany
      have hlength := congrArg List.length hsame
      rw [List.length_eraseP_of_mem hb hmatch] at hlength
      have hpos : 0 < s.layers.length := List.length_pos_of_mem hb
      omega
    exact ⟨fun hsame => absurd hsame.1 hne, fun hnone => by simp [hany] at hnone⟩
  · have hrun : deleteLayerItem item s = .error "item doesn't exist" s :=
      bind_of_error (demand_of_error (if_neg hany))
    rw [after_of_error hrun]
    exact ⟨fun _ _ => by simpa using hany, fun _ => h⟩

theorem agrees_updateMergedItems_iff {s : Repo} (h : s.Agrees)
    (items : List RepositoryCacheMergedItem) :
    (after (updateMergedItems items) s).Agrees ↔
      CacheCall.Persists s (.updateMergedItems items) := by
  have hafter : after (updateMergedItems items) s =
      after writeToDisk { s with merged := some items } := rfl
  rw [hafter, agrees_writeToDisk_iff h]
  refine forall_congr' fun _ => ?_
  exact ⟨fun hsame => hsame.2.symm, fun hmerged => ⟨rfl, hmerged.symm⟩⟩

/-- `markDeleted` puts the old mark back if it cannot write. -/
theorem agrees_markDeleted {s : Repo} (h : s.Agrees) (ref : Reference) (deleted : Bool)
    (module : String) : (after (markDeleted ref deleted module) s).Agrees := by
  rcases markDeleted_cases ref deleted module s with ⟨e, faults, -, hrun, -⟩ |
    ⟨item, faults, -, -, hrun⟩
  · rw [after_of_error hrun]
    exact h
  · rw [after_of_ok hrun]
    rfl

/-- **Step**: memory and file agree after a call iff it persists. -/
theorem agrees_run_iff {s : Repo} (h : s.Agrees) (c : CacheCall) :
    (after c.run s).Agrees ↔ c.Persists s := by
  cases c with
  | addLayerItem item => exact agrees_addLayerItem_iff h item
  | deleteLayerItem item => exact agrees_deleteLayerItem_iff h item
  | updateMergedItems items => exact agrees_updateMergedItems_iff h items
  | markDeleted ref deleted module =>
    exact ⟨fun _ _ => trivial, fun _ => agrees_markDeleted h ref deleted module⟩

/-- What a call does with the file: one that returns has written what is in
    memory, one that fails has left the file alone. -/
def WriteOutcome (s : Repo) : EStateM.Result String Repo Unit → Prop
  | .ok _ s' => s'.Agrees
  | .error _ s' => s'.statesJson = s.statesJson

theorem writeOutcome_writeToDisk {s s₁ : Repo} (hjson : s₁.statesJson = s.statesJson) :
    WriteOutcome s (writeToDisk s₁) := by
  rcases s₁.writeToDisk_cases with ⟨hwrite, -⟩ | ⟨hwrite, -⟩
  · rw [hwrite]
    rfl
  · rw [hwrite]
    exact hjson

theorem writeOutcome_run (c : CacheCall) (s : Repo) : WriteOutcome s (c.run s) := by
  cases c with
  | addLayerItem item =>
    refine bind_elim (fun _ s₁ h₁ => ?_) fun e s₁ h₁ => ?_
    · obtain ⟨-, rfl⟩ := demand_ok h₁
      exact writeOutcome_writeToDisk rfl
    · cases demand_error h₁
      rfl
  | deleteLayerItem item =>
    refine bind_elim (fun _ s₁ h₁ => ?_) fun e s₁ h₁ => ?_
    · obtain ⟨-, rfl⟩ := demand_ok h₁
      exact writeOutcome_writeToDisk rfl
    · cases demand_error h₁
      rfl
  | updateMergedItems items => exact writeOutcome_writeToDisk rfl
  | markDeleted ref deleted module =>
    show WriteOutcome s (markDeleted ref deleted module s)
    rcases markDeleted_cases ref deleted module s with ⟨e, faults, -, hrun, -⟩ |
      ⟨item, faults, -, -, hrun⟩
    · rw [hrun]
      rfl
    · rw [hrun]
      rfl

end Repo

/-! ## Section 3: Runs -/

namespace CacheCall

/-- A call that returns an error has left the memory as it was. -/
def LeavesCache (s : Repo) (c : CacheCall) : Prop :=
  ∀ e s', c.run s = .error e s' → s'.layers = s.layers ∧ s'.merged = s.merged

/-- The two readings of one step: memory and file agree after it, or it
    leaves the memory alone if it fails. -/
theorem agrees_iff_leavesCache {s : Repo} (h : s.Agrees) (c : CacheCall) :
    (after c.run s).Agrees ↔ LeavesCache s c := by
  have hout := Repo.writeOutcome_run c s
  unfold LeavesCache
  cases hrun : c.run s with
  | ok u s' =>
    rw [hrun] at hout
    rw [after_of_ok hrun]
    constructor
    · intro _ e s'' herror
      cases herror
    · intro _
      exact hout
  | error e s' =>
    rw [hrun] at hout
    rw [after_of_error hrun]
    have hjson : s'.statesJson = (s.layers, s.merged) := Eq.trans hout h
    constructor
    · intro hagrees e' s'' herror
      cases herror
      have hpair : (s'.layers, s'.merged) = (s.layers, s.merged) := hagrees.symm.trans hjson
      exact Prod.mk.inj hpair
    · intro hleaves
      obtain ⟨hlayers, hmerged⟩ := hleaves e s' rfl
      unfold Repo.Agrees
      rw [hjson, hlayers, hmerged]

/-- From a cache that was read from its file on: memory and file agree after
    every call exactly if all calls persist, which says as well that no call
    that fails has changed the memory. -/
theorem agrees_always_iff {s : Repo} (h : s.Agrees) (calls : List CacheCall) :
    (machine.Always Repo.Agrees s calls ↔ machine.Meets Persists s calls) ∧
      (machine.Meets LeavesCache s calls ↔ machine.Meets Persists s calls) := by
  have hpersists : machine.Always Repo.Agrees s calls ↔ machine.Meets Persists s calls :=
    machine.always_iff_meets (fun s c hs => ⟨_, rfl, Repo.agrees_run_iff hs c⟩) h
  have hleaves : machine.Always Repo.Agrees s calls ↔ machine.Meets LeavesCache s calls :=
    machine.always_iff_meets (fun s c hs => ⟨_, rfl, agrees_iff_leavesCache hs c⟩) h
  exact ⟨hpersists, hleaves.symm.trans hpersists⟩

/-! ### A write that fails -/

/-- A layer in the repository `stable`. -/
def appItem (commit module : String) : RepositoryCacheLayersItem :=
  ⟨commit, none, .onMain "org.app" "1.0.0.0" module, "stable"⟩

/-- One layer; the first write of the file works, the second one fails. -/
def secondWriteFails : Repo :=
  { Repo.ofLayers (.ofCommits []) [appItem "c0" "binary"] [] [] with
    faults := fun step => if step = .writeCache then [false, true] else [] }

/-- A mark that cannot be written is taken back. -/
theorem agrees_always_markDeleted :
    secondWriteFails.Agrees ∧ machine.Always Repo.Agrees secondWriteFails
      [.addLayerItem (appItem "c1" "develop"),
        .markDeleted (Reference.onMain "org.app" 0 (by decide)) true "binary"] := by
  have hstart : secondWriteFails.Agrees := rfl
  refine ⟨hstart, (agrees_always_iff hstart _).1.2 ?_⟩
  refine ⟨fun hfails => absurd hfails (by unfold WriteFails; decide), ?_⟩
  rintro s ⟨⟩
  exact ⟨fun _ => trivial, fun _ _ => trivial⟩

/-- An item that cannot be written stays in memory. -/
theorem not_agrees_always :
    ¬ ∀ (s : Repo) (calls : List CacheCall), s.Agrees → machine.Always Repo.Agrees s calls := by
  intro h
  have halways := h secondWriteFails
    [.addLayerItem (appItem "c1" "develop"), .addLayerItem (appItem "c2" "doc")] rfl
  have hlast : Repo.Agrees _ := (halways.2 _ rfl).2 _ rfl
  exact absurd hlast (by unfold Repo.Agrees; decide)

end CacheCall

end Linglong
