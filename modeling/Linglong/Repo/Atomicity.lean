import Linglong.Repo.Import

/-! # When a Failure Leaves No Trace

    `importLayerDir`, `pull` and `remove` change three stores one after the
    other: the refs, the directories in `layers/` and the cache. Each of
    their steps may fail. None of them undoes what it did before: the
    transaction of `importLayerDir` gets its first action after the last
    fallible step, the two others have no transaction.

    So a failure leaves the stores as they were only if it comes early
    enough, and this module says exactly when that is.

    1. The operations and what "no trace" means.
    2. Faults, counted from now on.
    3. Checking out a commit and adding its item (`addCheckedOut_cases`).
    4. The operations (`atomic_iff_cleanFailure`).
-/

namespace Linglong

open Framework RepositoryCacheLayersItem

/-! ## Section 1: Operations -/

/-- An operation that writes all three stores. -/
inductive StoreCall where
  | importLayerDir (dir : LayerDir) (overlays : List String) (subRef : Option String)
      (commit : String)
  | pull (reference : Reference) (module : String)
  | remove (ref : Reference) (module : String) (subRef : Option String)

namespace StoreCall

/-- The repository after the call. -/
def store (s : Repo) : StoreCall → Repo
  | importLayerDir dir overlays subRef commit =>
      after (Repo.importLayerDir dir overlays subRef commit) s
  | pull reference module => (s.pull reference module).1
  | remove ref module subRef => after (Repo.remove ref module subRef) s

/-- The call returns an error or, in the case of `pull`, reports one. -/
def Fails (s : Repo) : StoreCall → Prop
  | importLayerDir dir overlays subRef commit =>
      ∃ e s', Repo.importLayerDir dir overlays subRef commit s = .error e s'
  | pull reference module => Repo.Reports (s.pull reference module).2
  | remove ref module subRef => ∃ e s', Repo.remove ref module subRef s = .error e s'

end StoreCall

namespace Repo

/-- The same refs with the same commits, the same layer directories with the
    same contents, the same cache items. -/
structure SameStores (s s' : Repo) : Prop where
  refs : ∀ spec, s'.resolveRefspec spec = s.resolveRefspec spec
  dirs : ∀ name, s'.layerDirs.lookup name = s.layerDirs.lookup name
  layers : s'.layers = s.layers

/-- A call that fails leaves no trace. -/
def Atomic (s : Repo) (c : StoreCall) : Prop := c.Fails s → SameStores s (c.store s)

/-! ## Section 2: Faults -/

/-- The computation takes `k` steps of one kind and does nothing else: it
    fails if one of them does. -/
structure Takes (step : Step) (k : Nat) (m : RepoM Unit) : Prop where
  ok : ∀ s, (∀ n < k, s.fails step n = false) →
    ∃ s', m s = .ok () s' ∧ ∀ n, s'.fails step n = s.fails step (k + n)
  error : ∀ s, (∃ n < k, s.fails step n = true) → ∃ e s', m s = .error e s'

theorem takes_fallible (step : Step) (message : String) : Takes step 1 (fallible step message) where
  ok := by
    intro s h
    refine ⟨_, fallible_of_not_fails (h 0 (by omega)) message, fun n => ?_⟩
    rw [fails_popFault, Nat.add_comm]
  error := by
    rintro s ⟨n, hn, h⟩
    obtain rfl : n = 0 := by omega
    exact ⟨_, _, fallible_of_fails h message⟩

theorem Takes.bind {step : Step} {k k' : Nat} {m m' : RepoM Unit} (h : Takes step k m)
    (h' : Takes step k' m') : Takes step (k + k') (m >>= fun _ => m') where
  ok := by
    intro s hs
    obtain ⟨s₁, hrun, hfails⟩ := h.ok s fun n hn => hs n (by omega)
    have hs₁ : ∀ n < k', s₁.fails step n = false := by
      intro n hn
      rw [hfails]
      exact hs _ (by omega)
    obtain ⟨s₂, hrun', hfails'⟩ := h'.ok s₁ hs₁
    refine ⟨s₂, (bind_of_ok hrun).trans hrun', fun n => ?_⟩
    rw [hfails', hfails, Nat.add_assoc]
  error := by
    rintro s ⟨n, hn, hs⟩
    -- the fault is one that the first part meets, or one that it leaves to the second
    by_cases hfirst : ∃ n < k, s.fails step n = true
    · obtain ⟨e, s₁, hrun⟩ := h.error s hfirst
      exact ⟨e, s₁, bind_of_error hrun⟩
    · have hnone : ∀ n < k, s.fails step n = false := by
        intro n hn
        by_contra hne
        exact hfirst ⟨n, hn, by simpa using hne⟩
      obtain ⟨s₁, hrun, hfails⟩ := h.ok s hnone
      have hk : k ≤ n := by
        by_contra hlt
        rw [hnone n (by omega)] at hs
        cases hs
      have hs₁ : s₁.fails step (n - k) = true := by
        rw [hfails, show k + (n - k) = n by omega]
        exact hs
      obtain ⟨e, s₂, hrun'⟩ := h'.error s₁ ⟨n - k, by omega, hs₁⟩
      exact ⟨e, s₂, (bind_of_ok hrun).trans hrun'⟩

theorem takes_forM {α : Type} {step : Step} (message : String) (l : List α) :
    Takes step l.length (l.forM fun _ => fallible step message) := by
  induction l with
  | nil => exact ⟨fun s _ => ⟨s, rfl, fun n => by simp⟩, fun s ⟨n, hn, _⟩ => by simp at hn⟩
  | cons a l ih =>
    have h := (takes_fallible step message).bind ih
    rwa [Nat.add_comm] at h

theorem takes_writeCommit (dirs : List String) :
    Takes .commitDir (dirs.length + 4) (writeCommit dirs) := by
  have h := (takes_fallible .commitDir "ostree_repo_prepare_transaction").bind
    ((takes_forM "ostree_repo_write_directory_to_mtree" dirs).bind
      ((takes_fallible .commitDir "ostree_repo_write_mtree").bind
        ((takes_fallible .commitDir "ostree_repo_write_commit").bind
          (takes_fallible .commitDir "ostree_repo_commit_transaction"))))
  rwa [show 1 + (dirs.length + (1 + (1 + 1))) = dirs.length + 4 by omega] at h

/-! ## Section 3: Adding a checked out commit -/

/-- The steps before the checkout stop without a trace: the directory is
    there, it cannot be created, or it has been removed again when the ref
    turns out to be missing. -/
def Stops (s : Repo) (item : RepositoryCacheLayersItem) : Prop :=
  (s.layerDirs.lookup item.commit).isSome = true ∨ s.fails .layerDir 0 = true ∨
    (s.fails .layerDir 1 = false ∧ s.fails .layerDir 2 = false ∧
      s.resolveRefspec (ostreeRefSpecFromLayerItem item) = none)

/-- No step fails. -/
structure Finishes (s : Repo) (item : RepositoryCacheLayersItem) : Prop where
  fresh : s.layerDirs.lookup item.commit = none
  layerDir : ∀ n < 3, s.fails .layerDir n = false
  ref : (s.resolveRefspec (ostreeRefSpecFromLayerItem item)).isSome = true
  checkout : s.fails .checkout 0 = false
  new : s.layers.any item.matchesItem = false
  write : s.fails .writeCache 0 = false

/-- How checking out and adding an item ends: it finishes, it stops without
    a trace in `layers/`, or it fails later and a directory stays. -/
def AddOutcome (s : Repo) (item : RepositoryCacheLayersItem) :
    EStateM.Result String Repo Unit → Prop
  | .ok _ _ => Finishes s item
  | .error _ s' => ¬ Finishes s item ∧
      ((Stops s item ∧ OnlyDir item.commit s s' ∧
          s'.layerDirs.lookup item.commit = s.layerDirs.lookup item.commit) ∨
        (¬ Stops s item ∧ s.layerDirs.lookup item.commit = none ∧
          (s'.layerDirs.lookup item.commit).isSome = true))

theorem lookup_setLayerDir_self (s : Repo) (name : String) (content : Option String) :
    ((s.setLayerDir name content).layerDirs.lookup name).isSome = true := by
  simp [setLayerDir, List.lookup_cons_self]

/-- How a checkout into an existing directory ends. The directory is gone
    only if the ref of the layer is missing. -/
def CheckoutOutcome (s : Repo) (layer : RepositoryCacheLayersItem) :
    EStateM.Result String Repo Unit → Prop
  | .ok _ s' => s.fails .layerDir 0 = false ∧ s.fails .layerDir 1 = false ∧
      (s.resolveRefspec (ostreeRefSpecFromLayerItem layer)).isSome = true ∧
      s.fails .checkout 0 = false ∧ (s'.layerDirs.lookup layer.commit).isSome = true ∧
      s'.fails .writeCache 0 = s.fails .writeCache 0
  | .error _ s' =>
      ((s.fails .layerDir 0 = true ∨ s.fails .layerDir 1 = true ∨
          ((s.resolveRefspec (ostreeRefSpecFromLayerItem layer)).isSome = true ∧
            s.fails .checkout 0 = true)) ∧ (s'.layerDirs.lookup layer.commit).isSome = true) ∨
      (s.fails .layerDir 0 = false ∧ s.fails .layerDir 1 = false ∧
        s.resolveRefspec (ostreeRefSpecFromLayerItem layer) = none ∧
        s'.layerDirs.lookup layer.commit = none)

theorem checkoutOutcome_checkoutLayer {layer : RepositoryCacheLayersItem} {s : Repo}
    (hdir : (s.layerDirs.lookup layer.commit).isSome = true) :
    CheckoutOutcome s layer (checkoutLayer layer s) := by
  refine bind_elim (fun _ s₁ h₁ => ?_) fun e s₁ h₁ => ?_
  rotate_left
  · obtain ⟨hfails, rfl⟩ := fallible_error h₁
    exact .inl ⟨.inl hfails, hdir⟩
  obtain ⟨h₀, rfl⟩ := fallible_ok h₁
  refine bind_elim (fun _ s₂ h₂ => ?_) fun e s₂ h₂ => nomatch h₂
  cases h₂
  refine bind_elim (fun _ s₃ h₃ => ?_) fun e s₃ h₃ => ?_
  rotate_left
  · obtain ⟨hfails, rfl⟩ := fallible_error h₃
    have hone : s.fails .layerDir 1 = true := (s.fails_popFault .layerDir 0).symm.trans hfails
    exact .inl ⟨.inr (.inl hone), lookup_setLayerDir_self _ _ _⟩
  obtain ⟨hfails, rfl⟩ := fallible_ok h₃
  have hone : s.fails .layerDir 1 = false := (s.fails_popFault .layerDir 0).symm.trans hfails
  refine bind_elim (fun _ s₄ h₄ => ?_) fun e s₄ h₄ => nomatch h₄
  cases h₄
  -- the directory has been removed; refs and the other faults are the same as before
  obtain ⟨s₄, hs₄⟩ : ∃ s₄, s₄ = (((s.popFault .layerDir).setLayerDir layer.commit none).popFault
    .layerDir).dropLayerDir layer.commit := ⟨_, rfl⟩
  have hgone : s₄.layerDirs.lookup layer.commit = none := by
    rw [hs₄]
    exact lookup_filter_self _ _
  have hrefs : s₄.resolveRefspec (ostreeRefSpecFromLayerItem layer) =
      s.resolveRefspec (ostreeRefSpecFromLayerItem layer) := by
    rw [hs₄]
    rfl
  have hcheckout : s₄.fails .checkout 0 = s.fails .checkout 0 := by
    rw [hs₄]
    rfl
  have hwrite : s₄.fails .writeCache 0 = s.fails .writeCache 0 := by
    rw [hs₄]
    rfl
  beta_reduce
  rw [← hs₄]
  cases hspec : s₄.resolveRefspec (ostreeRefSpecFromLayerItem layer) with
  | none =>
    rw [bind_of_error (demand_of_error (e := "ostree_repo_resolve_rev") (by simp [hspec]))]
    exact .inr ⟨h₀, hone, hrefs.symm.trans hspec, hgone⟩
  | some commit =>
    have hsome : (s.resolveRefspec (ostreeRefSpecFromLayerItem layer)).isSome = true := by
      rw [← hrefs, hspec]
      rfl
    rw [bind_of_ok (demand_of_ok (a := commit) (by simp [hspec]))]
    refine bind_elim (fun _ s₅ h₅ => ?_) fun e s₅ h₅ => nomatch h₅
    cases h₅
    refine bind_elim (fun _ s₆ h₆ => ?_) fun e s₆ h₆ => ?_
    · obtain ⟨hfails, rfl⟩ := fallible_ok h₆
      exact ⟨h₀, hone, hsome, hcheckout.symm.trans hfails, lookup_setLayerDir_self _ _ _, hwrite⟩
    · obtain ⟨hfails, rfl⟩ := fallible_error h₆
      exact .inl ⟨.inr (.inr ⟨hsome, hcheckout.symm.trans hfails⟩), lookup_setLayerDir_self _ _ _⟩

theorem ensureEmptyLayerDir_of_none {commit : String} {s : Repo}
    (h : s.layerDirs.lookup commit = none) :
    (s.fails .layerDir 0 = true ∧
      ∃ e, ensureEmptyLayerDir commit s = .error e (s.popFault .layerDir)) ∨
    (s.fails .layerDir 0 = false ∧
      ensureEmptyLayerDir commit s = .ok () ((s.popFault .layerDir).setLayerDir commit none)) := by
  have hstart : ensureEmptyLayerDir commit s =
      (fallible .layerDir ("failed to create layer dir " ++ commit) >>= fun _ =>
        modify fun s => s.setLayerDir commit none : RepoM Unit) s :=
    bind_of_ok (demand_of_ok (a := ()) (by simp [h]))
  rw [hstart]
  cases hfails : s.fails .layerDir 0 with
  | true => exact .inl ⟨rfl, _, bind_of_error (fallible_of_fails hfails _)⟩
  | false => exact .inr ⟨rfl, bind_of_ok (fallible_of_not_fails hfails _)⟩

/-- The last step, in a state that differs from the first one in the new
    directory. -/
theorem addOutcome_addLayerItem {item : RepositoryCacheLayersItem} {s s₁ : Repo}
    (hlayers : s₁.layers = s.layers)
    (hdir : (s₁.layerDirs.lookup item.commit).isSome = true)
    (hwrite : s₁.fails .writeCache 0 = s.fails .writeCache 0)
    (hfinish : s.layers.any item.matchesItem = false → s.fails .writeCache 0 = false →
      Finishes s item) (hstops : ¬ Stops s item) (hfresh : s.layerDirs.lookup item.commit = none) :
    AddOutcome s item (addLayerItem item s₁) := by
  by_cases hany : s₁.layers.any item.matchesItem = true
  · have hrun : addLayerItem item s₁ = .error "item already exist" s₁ :=
      bind_of_error (demand_of_error (if_pos hany))
    rw [hrun]
    refine ⟨fun h => ?_, .inr ⟨hstops, hfresh, hdir⟩⟩
    rw [hlayers, h.new] at hany
    cases hany
  · have hrun : addLayerItem item s₁ = writeToDisk { s₁ with layers := s₁.layers ++ [item] } :=
      bind_of_ok (demand_of_ok (if_neg hany))
    rw [hrun]
    rw [fails_zero] at hwrite
    rcases writeToDisk_cases { s₁ with layers := s₁.layers ++ [item] } with
      ⟨hrun', hhead⟩ | ⟨hrun', hhead⟩
    · rw [hrun']
      exact hfinish (by rw [← hlayers]; simpa using hany) (hwrite.symm.trans hhead)
    · rw [hrun']
      refine ⟨fun h => ?_, .inr ⟨hstops, hfresh, hdir⟩⟩
      have hno := h.write
      rw [← hwrite] at hno
      exact absurd (hno.symm.trans hhead) (by decide)

theorem addOutcome_addCheckedOut (item : RepositoryCacheLayersItem) (s : Repo) :
    AddOutcome s item (addCheckedOut item s) := by
  cases hfresh : s.layerDirs.lookup item.commit with
  | some content =>
    have hrun : addCheckedOut item s =
        .error ("failed to create layer dir " ++ item.commit) s :=
      bind_of_error (bind_of_error (demand_of_error (by simp [hfresh])))
    rw [hrun]
    refine ⟨fun h => ?_, .inl ⟨.inl (by rw [hfresh]; rfl), .refl s, rfl⟩⟩
    rw [h.fresh] at hfresh
    cases hfresh
  | none =>
    rcases ensureEmptyLayerDir_of_none hfresh with ⟨h₀, e, hempty⟩ | ⟨h₀, hempty⟩
    · rw [addCheckedOut, bind_of_error hempty]
      refine ⟨fun h => ?_,
        .inl ⟨.inr (.inl h₀), onlyDir_ensureEmptyLayerDir.of_error hempty, rfl⟩⟩
      rw [h.layerDir 0 (by omega)] at h₀
      cases h₀
    rw [addCheckedOut, bind_of_ok hempty]
    obtain ⟨s₁, hs₁⟩ : ∃ s₁, s₁ = (s.popFault .layerDir).setLayerDir item.commit none := ⟨_, rfl⟩
    have hdir : (s₁.layerDirs.lookup item.commit).isSome = true := by
      rw [hs₁]
      exact lookup_setLayerDir_self _ _ _
    have hnext : ∀ n, s₁.fails .layerDir n = s.fails .layerDir (n + 1) := by
      rw [hs₁]
      exact s.fails_popFault .layerDir
    have hrefs : ∀ spec, s₁.resolveRefspec spec = s.resolveRefspec spec := by
      rw [hs₁]
      exact fun _ => rfl
    have hframe : OnlyDir item.commit s s₁ := by
      rw [hs₁]
      exact onlyDir_ensureEmptyLayerDir.of_ok hempty
    have hother : ∀ k, k ≠ Step.layerDir → s₁.fails k 0 = s.fails k 0 := by
      intro k hk
      rw [hs₁]
      exact fails_popFault_of_ne hk s 0
    -- the directory was not there and could be created
    have hstops : Stops s item ↔ s.fails .layerDir 1 = false ∧ s.fails .layerDir 2 = false ∧
        s.resolveRefspec (ostreeRefSpecFromLayerItem item) = none := by
      simp [Stops, hfresh, h₀]
    rw [← hs₁]
    have hout := checkoutOutcome_checkoutLayer hdir
    refine bind_elim (fun _ s₂ hcheckout => ?_) fun e s₂ hcheckout => ?_
    · rw [hcheckout] at hout
      obtain ⟨hone, htwo, href, hok, hdir₂, hwrite⟩ := hout
      rw [hnext] at hone htwo
      rw [hrefs] at href
      rw [hother _ (by decide)] at hok hwrite
      have hlayers₂ := (hframe.trans (onlyDir_checkoutLayer.of_ok hcheckout)).layers
      refine addOutcome_addLayerItem hlayers₂ hdir₂ hwrite (fun hnew hwrite' => ?_) ?_ hfresh
      · refine ⟨hfresh, fun n hn => ?_, href, hok, hnew, hwrite'⟩
        obtain rfl | rfl | rfl : n = 0 ∨ n = 1 ∨ n = 2 := by omega
        · exact h₀
        · exact hone
        · exact htwo
      · rw [hstops]
        rintro ⟨-, -, hnone⟩
        rw [hnone] at href
        cases href
    · rw [hcheckout] at hout
      rcases hout with ⟨hfault, hdir₂⟩ | ⟨hone, htwo, hnone, hgone⟩
      · rw [hnext, hnext, hrefs, hother _ (by decide)] at hfault
        refine ⟨fun h => ?_, .inr ⟨?_, hfresh, hdir₂⟩⟩
        · rcases hfault with hone | htwo | ⟨-, hcheckout⟩
          · rw [h.layerDir 1 (by omega)] at hone
            cases hone
          · rw [h.layerDir 2 (by omega)] at htwo
            cases htwo
          · rw [h.checkout] at hcheckout
            cases hcheckout
        · rw [hstops]
          rintro ⟨hone, htwo, hnone⟩
          simp [hone, htwo, hnone] at hfault
      · rw [hnext] at hone htwo
        rw [hrefs] at hnone
        refine ⟨fun h => ?_, .inl ⟨hstops.2 ⟨hone, htwo, hnone⟩, ?_, hgone.trans hfresh.symm⟩⟩
        · have href := h.ref
          rw [hnone] at href
          cases href
        · exact hframe.trans (onlyDir_checkoutLayer.of_error hcheckout)

/-- The stores and the faults that adding an item looks at are the same. -/
structure SameCourse (s s' : Repo) : Prop extends SameStores s s' where
  fails : ∀ k, k ≠ .commitDir → ∀ n, s'.fails k n = s.fails k n

theorem SameStores.refl (s : Repo) : SameStores s s := ⟨fun _ => rfl, fun _ => rfl, rfl⟩

theorem SameCourse.symm {s s' : Repo} (h : SameCourse s s') : SameCourse s' s where
  refs := fun spec => (h.refs spec).symm
  dirs := fun name => (h.dirs name).symm
  layers := h.layers.symm
  fails := fun k hk n => (h.fails k hk n).symm

theorem Finishes.of_sameCourse {s s' : Repo} {item : RepositoryCacheLayersItem}
    (hs : Finishes s item) (h : SameCourse s s') : Finishes s' item where
  fresh := (h.dirs _).trans hs.fresh
  layerDir := fun n hn => (h.fails _ (by decide) n).trans (hs.layerDir n hn)
  ref := by rw [h.refs]; exact hs.ref
  checkout := (h.fails _ (by decide) 0).trans hs.checkout
  new := by rw [h.layers]; exact hs.new
  write := (h.fails _ (by decide) 0).trans hs.write

theorem Finishes.not_stops {s : Repo} {item : RepositoryCacheLayersItem} (h : Finishes s item) :
    ¬ Stops s item := by
  have href := h.ref
  rintro (hdir | hzero | ⟨-, -, hnone⟩)
  · rw [h.fresh] at hdir
    cases hdir
  · rw [h.layerDir 0 (by omega)] at hzero
    cases hzero
  · rw [hnone] at href
    cases href

theorem Stops.of_sameCourse {s s' : Repo} {item : RepositoryCacheLayersItem}
    (hs : Stops s item) (h : SameCourse s s') : Stops s' item := by
  unfold Stops at hs ⊢
  rwa [h.dirs, h.refs, h.fails _ (by decide), h.fails _ (by decide), h.fails _ (by decide)]

/-- Adding an item after the refs have changed: a failure leaves no trace iff
    it comes early and the refs are what they were. -/
theorem sameStores_of_error_iff {item : RepositoryCacheLayersItem} {s s₁ s₂ : Repo} {e : String}
    (hlayers : s₁.layers = s.layers)
    (hdirs : ∀ name, s₁.layerDirs.lookup name = s.layerDirs.lookup name)
    (h : addCheckedOut item s₁ = .error e s₂) :
    SameStores s s₂ ↔
      (∀ spec, s₁.resolveRefspec spec = s.resolveRefspec spec) ∧ Stops s₁ item := by
  have hout := addOutcome_addCheckedOut item s₁
  rw [h] at hout
  obtain ⟨-, ⟨hstops, hframe, hdir⟩ | ⟨hstops, hfresh, hdir⟩⟩ := hout
  · constructor
    · intro hsame
      refine ⟨fun spec => ?_, hstops⟩
      rw [← hsame.refs, resolveRefspec, resolveRefspec, hframe.ostreeRefs]
    · rintro ⟨hrefs, -⟩
      refine ⟨fun spec => ?_, fun name => ?_, hframe.layers.trans hlayers⟩
      · rw [← hrefs, resolveRefspec, resolveRefspec, hframe.ostreeRefs]
      · rw [← hdirs]
        by_cases hname : name = item.commit
        · rw [hname]
          exact hdir
        · exact hframe.dirs name hname
  · -- the directory is new
    refine ⟨fun hsame => ?_, fun hclean => absurd hclean.2 hstops⟩
    rw [hdirs] at hfresh
    rw [hsame.dirs, hfresh] at hdir
    cases hdir

theorem setRef_same_iff {s : Repo} {spec : OstreeRefSpec} {commit : String} :
    (∀ spec', (s.setRef spec commit).resolveRefspec spec' = s.resolveRefspec spec') ↔
      s.resolveRefspec spec = some commit :=
  set_same_iff

/-! ## Section 4: The operations -/

/-- The commit that arrives is the one that the ref had before. -/
def KeepsRef (s : Repo) (spec : OstreeRefSpec) (commit : Option String) : Prop :=
  ∀ c, commit = some c → s.resolveRefspec spec = some c

theorem keepsRef_some_iff {s : Repo} {spec : OstreeRefSpec} {commit : String} :
    KeepsRef s spec (some commit) ↔ s.resolveRefspec spec = some commit := by
  constructor
  · intro h
    exact h commit rfl
  · intro h c hc
    cases hc
    exact h

/-- An import leaves no trace if the directory is not accepted, if the
    commit fails, if no later step fails, or if the ref had this commit before
    and the import stops before the checkout. -/
def CleanImport (s : Repo) (dir : LayerDir) (overlays : List String) (subRef : Option String)
    (commit : String) : Prop :=
  match s.importTarget dir subRef with
  | .error _ => True
  | .ok (info, reference) =>
      (∃ n < overlays.length + 5, s.fails .commitDir n = true) ∨
      Finishes (s.committed info reference subRef commit) (localItem commit info) ∨
      (KeepsRef s ⟨"local", ostreeSpecFromReferenceV2 reference info.packageInfoV2Module subRef⟩
          (some commit) ∧ Stops s (localItem commit info))

/-- A pull likewise, except that an error which ostree reports on the way
    does not stop it. -/
def CleanPull (s : Repo) (reference : Reference) (module : String) : Prop :=
  match s.fetches reference module with
  | none => True
  | some (ref, commit) =>
      match (s.arrived ref commit).pulledItem ref with
      | .error _ => KeepsRef s ⟨s.defaultRepo, ref⟩ commit
      | .ok item =>
          (Finishes (s.arrived ref commit) item ∧ ¬ CaughtError (s.awaited reference module)) ∨
          (KeepsRef s ⟨s.defaultRepo, ref⟩ commit ∧ Stops s item)

/-- A removal leaves no trace if the file can be written, once it comes to
    that. -/
def CleanRemove (s : Repo) (ref : Reference) (module : String) (subRef : Option String) : Prop :=
  ∀ layer, s.getLayerItem ref module subRef = .ok layer →
    (s.resolveRefspec (ostreeRefSpecFromLayerItem layer)).isSome = true →
    s.fails .setRef 0 = false → s.fails .writeCache 0 = false

/-- When a failure leaves no trace. -/
def CleanFailure (s : Repo) : StoreCall → Prop
  | .importLayerDir dir overlays subRef commit => s.CleanImport dir overlays subRef commit
  | .pull reference module => s.CleanPull reference module
  | .remove ref module subRef => s.CleanRemove ref module subRef

/-- `Atomic` for an operation that returns its error. -/
def AtomicRun (m : RepoM Unit) (s : Repo) : Prop :=
  (∃ e s', m s = .error e s') → SameStores s (after m s)

theorem atomicRun_of_error {m : RepoM Unit} {s s' : Repo} {e : String} (h : m s = .error e s') :
    AtomicRun m s ↔ SameStores s s' := by
  unfold AtomicRun
  rw [after_of_error h]
  exact ⟨fun hsame => hsame ⟨e, s', h⟩, fun hsame _ => hsame⟩

theorem atomicRun_iff {m : RepoM Unit} {s : Repo} :
    AtomicRun m s ↔ ∀ e s', m s = .error e s' → SameStores s s' := by
  constructor
  · intro h e s' herror
    exact (atomicRun_of_error herror).1 h
  · rintro h ⟨e, s', herror⟩
    rw [after_of_error herror]
    exact h e s' herror

theorem PopsOnly.sameCourse {s s' : Repo} (h : PopsOnly .commitDir s s') : SameCourse s s' := by
  obtain ⟨faults, rfl, hother⟩ := h
  refine ⟨⟨fun _ => rfl, fun _ => rfl, rfl⟩, fun k hk n => ?_⟩
  show (faults k).getD n false = (s.faults k).getD n false
  rw [hother k hk]

/-- Adding an item to a repository whose refs have been changed from those
    of `s` to those of `s₁`. -/
theorem addCheckedOut_clean_iff (item : RepositoryCacheLayersItem) {s s₁ s₂ : Repo}
    (hlayers : s₁.layers = s.layers) (hdirs : s₁.layerDirs = s.layerDirs)
    (hcourse : SameCourse s₁ s₂) :
    (∀ e s', addCheckedOut item s₂ = .error e s' → SameStores s s') ↔
      Finishes s₁ item ∨
        ((∀ spec, s₁.resolveRefspec spec = s.resolveRefspec spec) ∧ Stops s₁ item) := by
  have hout := addOutcome_addCheckedOut item s₂
  cases hrun : addCheckedOut item s₂ with
  | ok u s' =>
    rw [hrun] at hout
    refine iff_of_true (fun e s' herror => nomatch herror) (.inl ?_)
    exact Finishes.of_sameCourse hout hcourse.symm
  | error e s' =>
    rw [hrun] at hout
    have hnot : ¬ Finishes s₁ item := fun h => hout.1 (h.of_sameCourse hcourse)
    have hdirs' : ∀ name, s₂.layerDirs.lookup name = s.layerDirs.lookup name := by
      intro name
      rw [hcourse.dirs, hdirs]
    have hiff := sameStores_of_error_iff (hcourse.layers.trans hlayers) hdirs' hrun
    -- what the refs were at the start decides, not what they are when the item is added
    constructor
    · intro h
      obtain ⟨hrefs, hstops⟩ := hiff.1 (h e s' rfl)
      exact .inr ⟨fun spec => by rw [← hcourse.refs, hrefs], hstops.of_sameCourse hcourse.symm⟩
    · rintro (hfinishes | ⟨hrefs, hstops⟩)
      · exact absurd hfinishes hnot
      · intro e' s'' heq
        cases heq
        exact hiff.2 ⟨fun spec => by rw [hcourse.refs, hrefs], hstops.of_sameCourse hcourse⟩

theorem setRef_clean_iff {s : Repo} {spec : OstreeRefSpec} {commit : String}
    {item : RepositoryCacheLayersItem} :
    ((∀ spec', (s.setRef spec commit).resolveRefspec spec' = s.resolveRefspec spec') ∧
        Stops (s.setRef spec commit) item) ↔
      KeepsRef s spec (some commit) ∧ Stops s item := by
  rw [setRef_same_iff, keepsRef_some_iff]
  refine and_congr_right fun hkeeps => ?_
  have hcourse : SameCourse s (s.setRef spec commit) :=
    ⟨⟨setRef_same_iff.2 hkeeps, fun _ => rfl, rfl⟩, fun _ _ _ => rfl⟩
  exact ⟨fun h => h.of_sameCourse hcourse.symm, fun h => h.of_sameCourse hcourse⟩

theorem arrived_layers (s : Repo) (ref : OstreeRef) (commit : Option String) :
    (s.arrived ref commit).layers = s.layers := by
  cases commit <;> rfl

theorem arrived_layerDirs (s : Repo) (ref : OstreeRef) (commit : Option String) :
    (s.arrived ref commit).layerDirs = s.layerDirs := by
  cases commit <;> rfl

theorem arrived_same_iff {s : Repo} {ref : OstreeRef} {commit : Option String} :
    (∀ spec, (s.arrived ref commit).resolveRefspec spec = s.resolveRefspec spec) ↔
      KeepsRef s ⟨s.defaultRepo, ref⟩ commit := by
  cases commit with
  | none =>
    refine ⟨fun _ c hc => ?_, fun _ _ => rfl⟩
    cases hc
  | some c => rw [keepsRef_some_iff, ← setRef_same_iff]; rfl

theorem arrived_clean_iff {s : Repo} {ref : OstreeRef} {commit : Option String}
    {item : RepositoryCacheLayersItem} :
    ((∀ spec, (s.arrived ref commit).resolveRefspec spec = s.resolveRefspec spec) ∧
        Stops (s.arrived ref commit) item) ↔
      KeepsRef s ⟨s.defaultRepo, ref⟩ commit ∧ Stops s item := by
  cases commit with
  | none => exact and_congr_left' arrived_same_iff
  | some c => exact setRef_clean_iff

theorem atomicRun_importLayerDir_iff (s : Repo) (dir : LayerDir) (overlays : List String)
    (subRef : Option String) (commit : String) :
    AtomicRun (importLayerDir dir overlays subRef commit) s ↔
      s.CleanImport dir overlays subRef commit := by
  unfold CleanImport
  cases htarget : s.importTarget dir subRef with
  | error e =>
    have hrun : importLayerDir dir overlays subRef commit s = .error e s :=
      bind_of_error (demand_of_error htarget)
    rw [atomicRun_of_error hrun]
    exact iff_of_true (.refl s) trivial
  | ok target =>
    obtain ⟨info, reference⟩ := target
    have hstart : importLayerDir dir overlays subRef commit s =
        (commitDirToRepo (dir.path :: overlays)
            (ostreeSpecFromReferenceV2 reference info.packageInfoV2Module subRef) commit >>=
          fun _ => addCheckedOut (localItem commit info)) s := by
      unfold importLayerDir
      rw [bind_of_ok (demand_of_ok htarget)]
    by_cases hcommit : ∃ n < overlays.length + 5, s.fails .commitDir n = true
    · -- the transaction fails: nothing but faults has been used
      obtain ⟨e, s₁, hwrite⟩ := (takes_writeCommit (dir.path :: overlays)).error s hcommit
      have hrun := hstart.trans (bind_of_error (bind_of_error hwrite))
      rw [atomicRun_of_error hrun]
      exact iff_of_true ((popsOnly_writeCommit _).of_error hwrite).sameCourse.toSameStores
        (.inl hcommit)
    · have hnone : ∀ n < overlays.length + 5, s.fails .commitDir n = false := by
        intro n hn
        by_contra hne
        exact hcommit ⟨n, hn, by simpa using hne⟩
      obtain ⟨s₁, hwrite, -⟩ := (takes_writeCommit (dir.path :: overlays)).ok s hnone
      have hpops := (popsOnly_writeCommit _).of_ok hwrite
      have hrun := hstart.trans (bind_of_ok (bind_of_ok hwrite))
      simp only [hcommit, false_or]
      rw [atomicRun_iff, hrun, ← setRef_clean_iff]
      exact addCheckedOut_clean_iff _ rfl rfl (hpops.setRef _ _).sameCourse

theorem atomic_pull_iff (s : Repo) (reference : Reference) (module : String) :
    Atomic s (.pull reference module) ↔ s.CleanPull reference module := by
  show (Reports (s.pull reference module).2 → SameStores s (s.pull reference module).1) ↔ _
  have hrun := s.pull_run reference module
  unfold CleanPull
  cases hfetches : s.fetches reference module with
  | none =>
    rw [hfetches] at hrun
    obtain ⟨⟨pulls, hstate⟩, -⟩ := hrun
    rw [hstate]
    exact iff_of_true (fun _ => ⟨fun _ => rfl, fun _ => rfl, rfl⟩) trivial
  | some fetched =>
    obtain ⟨ref, commit⟩ := fetched
    rw [hfetches] at hrun
    obtain ⟨pulls, hstate, hreports⟩ := hrun
    rw [hstate, hreports]
    -- the end of the pull runs where the replies have been used up
    obtain ⟨s₂, hs₂⟩ : ∃ s₂ : Repo, s₂ = { s.arrived ref commit with pulls := pulls } := ⟨_, rfl⟩
    have hcourse : SameCourse (s.arrived ref commit) s₂ := by
      rw [hs₂]
      exact ⟨⟨fun _ => rfl, fun _ => rfl, rfl⟩, fun _ _ _ => rfl⟩
    have hitem : s₂.pulledItem ref = (s.arrived ref commit).pulledItem ref := by
      rw [hs₂]
      rfl
    have hcheckout := checkoutPulled_run ref s₂
    rw [← hs₂, finishPull, hcheckout, hitem]
    dsimp only
    cases (s.arrived ref commit).pulledItem ref with
    | error e =>
      have hreport : Reports [.reportError ⟨-1, e⟩] := reports_concat [] _
      simp only [hreport, or_true, true_imp_iff]
      rw [← arrived_same_iff]
      constructor
      · intro hsame spec
        rw [← hcourse.refs, hsame.refs]
      · intro hrefs
        refine ⟨fun spec => by rw [hcourse.refs, hrefs], fun name => ?_, ?_⟩
        · rw [hcourse.dirs, arrived_layerDirs]
        · rw [hcourse.layers, arrived_layers]
    | ok item =>
      have hclean := addCheckedOut_clean_iff item (s.arrived_layers ref commit)
        (s.arrived_layerDirs ref commit) hcourse
      rw [arrived_clean_iff] at hclean
      have hout := addOutcome_addCheckedOut item s₂
      cases hrun : addCheckedOut item s₂ with
      | ok u s₃ =>
        rw [hrun] at hout
        have hfinishes : Finishes (s.arrived ref commit) item := hout.of_sameCourse hcourse.symm
        have hchanged : ¬ SameStores s s₃ := by
          intro hsame
          have hlayers := hsame.layers
          rw [(addCheckedOut_ok hrun).layers, hcourse.layers, arrived_layers] at hlayers
          simp at hlayers
        have hnot : ¬ (KeepsRef s ⟨s.defaultRepo, ref⟩ commit ∧ Stops s item) := by
          rw [← arrived_clean_iff]
          exact fun h => hfinishes.not_stops h.2
        have hnone : ¬ Reports [] := fun ⟨_, h⟩ => nomatch h
        simp only [hrun, hfinishes, hnot, hnone, or_false, true_and]
        exact ⟨fun h hcaught => hchanged (h hcaught), fun h hcaught => absurd hcaught h⟩
      | error e s₃ =>
        rw [hrun] at hout hclean
        have hreport : Reports [.reportError ⟨-1, e⟩] := reports_concat [] _
        have hnot : ¬ Finishes (s.arrived ref commit) item :=
          fun h => hout.1 (h.of_sameCourse hcourse)
        simp only [hnot, false_or] at hclean
        simp only [hrun, hnot, hreport, or_true, true_imp_iff, false_or, false_and]
        rw [← hclean]
        constructor
        · intro hsame e' s' heq
          cases heq
          exact hsame
        · intro h
          exact h e s₃ rfl

/-- How `removeOstreeRef` ends for an item of the cache. -/
theorem removeOstreeRef_run {layer : RepositoryCacheLayersItem} {s : Repo}
    (h : layer ∈ s.layers) :
    (¬ ((s.resolveRefspec (ostreeRefSpecFromLayerItem layer)).isSome = true ∧
        s.fails .setRef 0 = false) ∧
      ∃ e s', removeOstreeRef layer s = .error e s' ∧ SameStores s s') ∨
    ((s.resolveRefspec (ostreeRefSpecFromLayerItem layer)).isSome = true ∧
      s.fails .setRef 0 = false ∧
      ((s.fails .writeCache 0 = true ∧ ∃ e s', removeOstreeRef layer s = .error e s' ∧
        s'.resolveRefspec (ostreeRefSpecFromLayerItem layer) = none) ∨
      (s.fails .writeCache 0 = false ∧ ∃ s', removeOstreeRef layer s = .ok () s'))) := by
  cases hspec : s.resolveRefspec (ostreeRefSpecFromLayerItem layer) with
  | none =>
    left
    exact ⟨by simp, "couldn't resolve ref on local machine", s,
      bind_of_error (demand_of_error (by simp [hspec])), .refl s⟩
  | some commit =>
    have hstart : removeOstreeRef layer s = (fallible .setRef "ostree_repo_set_ref_immediate" >>=
        fun _ => (do
          modify fun s => s.dropRef (ostreeRefSpecFromLayerItem layer)
          deleteLayerItem layer : RepoM Unit)) s :=
      bind_of_ok (demand_of_ok (a := ()) (by simp [hspec]))
    cases hset : s.fails .setRef 0 with
    | true =>
      left
      exact ⟨by simp, _, _, hstart.trans (bind_of_error (fallible_of_fails hset _)),
        fun _ => rfl, fun _ => rfl, rfl⟩
    | false =>
      right
      obtain ⟨s₁, hs₁⟩ : ∃ s₁, s₁ =
          (s.popFault .setRef).dropRef (ostreeRefSpecFromLayerItem layer) := ⟨_, rfl⟩
      -- the ref is gone from here on
      have hgone : s₁.resolveRefspec (ostreeRefSpecFromLayerItem layer) = none := by
        rw [hs₁]
        exact lookup_filter_self _ _
      have hwrite : s₁.fails .writeCache 0 = s.fails .writeCache 0 := by
        rw [hs₁]
        rfl
      have hany : s₁.layers.any layer.matchesItem = true := by
        rw [hs₁]
        exact List.any_eq_true.2 ⟨layer, h, by simp⟩
      have hrun : removeOstreeRef layer s =
          writeToDisk { s₁ with layers := s₁.layers.eraseP layer.matchesItem } := by
        rw [hstart, bind_of_ok (fallible_of_not_fails hset _)]
        show deleteLayerItem layer
          ((s.popFault .setRef).dropRef (ostreeRefSpecFromLayerItem layer)) = _
        rw [← hs₁]
        exact bind_of_ok (demand_of_ok (if_pos hany))
      rw [fails_zero] at hwrite
      refine ⟨rfl, rfl, ?_⟩
      -- the write of the cache is the last step that can fail
      rcases writeToDisk_cases { s₁ with layers := s₁.layers.eraseP layer.matchesItem } with
        ⟨hdisk, hhead⟩ | ⟨hdisk, hhead⟩
      · exact .inr ⟨hwrite.symm.trans hhead, _, hrun.trans hdisk⟩
      · exact .inl ⟨hwrite.symm.trans hhead, _, _, hrun.trans hdisk, hgone⟩

theorem atomicRun_remove_iff (s : Repo) (ref : Reference) (module : String)
    (subRef : Option String) :
    AtomicRun (remove ref module subRef) s ↔ s.CleanRemove ref module subRef := by
  unfold CleanRemove
  cases hitem : s.getLayerItem ref module subRef with
  | error e =>
    have hrun : remove ref module subRef s = .error e s := bind_of_error (demand_of_error hitem)
    rw [atomicRun_of_error hrun]
    refine iff_of_true (.refl s) fun layer hlayer => ?_
    cases hlayer
  | ok layer =>
    have hmem : layer ∈ s.layers := (mem_layersOf.1 (getLayerItem_mem hitem).1).1
    have hstart : remove ref module subRef s =
        (removeOstreeRef layer >>= fun _ => removeLayerDir layer) s :=
      bind_of_ok (demand_of_ok hitem)
    have hone : (∀ l, Except.ok (α := RepositoryCacheLayersItem) (ε := String) layer = .ok l →
        (s.resolveRefspec (ostreeRefSpecFromLayerItem l)).isSome = true →
        s.fails .setRef 0 = false → s.fails .writeCache 0 = false) ↔
        ((s.resolveRefspec (ostreeRefSpecFromLayerItem layer)).isSome = true →
          s.fails .setRef 0 = false → s.fails .writeCache 0 = false) := by
      refine ⟨fun h => h layer rfl, fun h l hl => ?_⟩
      cases hl
      exact h
    rw [hone]
    rcases removeOstreeRef_run hmem with ⟨hnot, e, s', hrun, hsame⟩ | ⟨href, hset, hrest⟩
    · rw [atomicRun_of_error (hstart.trans (bind_of_error hrun))]
      exact iff_of_true hsame fun href hset => absurd ⟨href, hset⟩ hnot
    rcases hrest with ⟨hwrite, e, s', hrun, hgone⟩ | ⟨hwrite, s', hrun⟩
    · rw [atomicRun_of_error (hstart.trans (bind_of_error hrun))]
      -- an error after the ref was dropped is not clean
      refine iff_of_false (fun hsame => ?_) fun h => ?_
      · rw [← hsame.refs, hgone] at href
        cases href
      · rw [h href hset] at hwrite
        cases hwrite
    · obtain ⟨faults, dirs, -, -, hdir⟩ := removeLayerDir_run layer s'
      refine iff_of_true (atomicRun_iff.2 fun e s'' herror => ?_) fun _ _ => hwrite
      rw [hstart, bind_of_ok hrun, hdir] at herror
      cases herror

/-- **Failures without a trace.** A call that fails leaves refs, layer
    directories and cache items as they were under exactly this condition. -/
theorem atomic_iff_cleanFailure (s : Repo) (c : StoreCall) : Atomic s c ↔ CleanFailure s c := by
  cases c with
  | importLayerDir dir overlays subRef commit =>
    exact s.atomicRun_importLayerDir_iff dir overlays subRef commit
  | pull reference module => exact s.atomic_pull_iff reference module
  | remove ref module subRef => exact s.atomicRun_remove_iff ref module subRef

/-- A repository with one app, where `states.json` cannot be written. -/
def readOnlyApp : Repo :=
  { ofLayers (.ofCommits []) [⟨"c1", none, .onMain "org.app" "1.0.0.0" "binary", "stable"⟩] [] [] with
    faults := fun step => if step = .writeCache then [true] else [] }

/-- A removal whose last step fails has dropped the item already. -/
theorem not_atomic_remove : ¬ ∀ s c, Atomic s c := by
  intro h
  have hsame := h readOnlyApp (.remove (.onMain "org.app" 0 (by decide)) "binary" none)
    ⟨"failed to update cache", _, rfl⟩
  exact absurd hsame.layers (by decide)

end Repo

end Linglong
