import Linglong.Generators.HomeMasks

/-! # The Blocklist of the Home

    What the generator leaves out of the list of allowed directories are the
    two names of the blocklist as strings. A path has other names for the
    same directory, though. Such an entry is mounted after the mask and
    covers it.

    1. The mounts of the lists (`offers`).
    2. When it is clear what they do (`Settled`).
    3. Entries that uncover a directory (`Settled.not_masked`).
    4. When the blocklist holds (`masked_iff`).
-/

namespace Linglong

namespace Generators

open Framework Container

/-! ## Section 1: The mounts of the lists -/

/-- The container that shows the home of the host. -/
def homeContainer (files rootfs : Files) (h : Home) : Container :=
  applyAll h.cwd (new files rootfs) [homeTmpfs, homeMount h]

/-- The mounts that may follow. -/
def offers (files : Files) (e : Environment) (h : Home)
    (privileges : ApplicationAccessPrivileges) : List OciMount :=
  fixedMounts e h ++ (disallowedDirs privileges).map (mask h) ++
    (allowedDirs privileges).filterMap (allowMount files h)

/-! ## Section 2: What they do -/

/-- The entry is a directory of the host, and no link to one. -/
def IsDirectory (files : Files) (h : Home) (relative : String) : Prop :=
  ∃ q, resolve (hostTree files) h.cwd false (joinPath h.hostHomeDir relative) = .ok q ∧
    (hostTree files).node q = some .dir

/-- By its components the entry leads to the directory of the home, to the
    home itself or to a directory above. -/
def Reaches (user name relative : String) : Prop :=
  lexical ["home", user] (pathSteps relative) <+: ["home", user, name]

/-- It is clear what the mounts do to the directories of the blocklist. No
    path of a mount meets a link (`straight`). A disallowed directory that
    covers one of them shows the private one there (`masks`), an allowed one
    something else (`unmasks`), and what an allowed one passes on its way are
    directories (`passes`). -/
structure Settled (files rootfs : Files) (e : Environment) (h : Home) (user : String)
    (privileges : ApplicationAccessPrivileges) : Prop where
  straight : Straight h.cwd (homeContainer files rootfs h) (offers files e h privileges)
  bashrc : user ≠ ".bashrc"
  privateDir : ∀ name ∈ blackList, ∀ p, PrivateDirectory files h name p →
    (hostTree files).node p = some .dir
  masks : ∀ relative ∈ disallowedDirs privileges, relative ∉ blackList → ∀ name ∈ blackList,
    ∀ p q rest, PrivateDirectory files h name p →
    LeadsTo h.cwd (homeContainer files rootfs h) (mask h relative) q →
    target (mask h relative) ++ rest = ["home", user, name] →
    ["home", user] <+: target (mask h relative) ∧ q ++ rest = p
  unmasks : ∀ relative ∈ allowedDirs privileges, relative ∉ blackList → ∀ name ∈ blackList,
    ∀ p q rest, PrivateDirectory files h name p →
    LeadsTo h.cwd (homeContainer files rootfs h) (unmask h relative) q →
    target (unmask h relative) ++ rest = ["home", user, name] → q ++ rest ≠ p
  passes : ∀ relative ∈ allowedDirs privileges, relative ∉ blackList → ∀ name ∈ blackList,
    Reaches user name relative → ∀ q,
    resolve (hostTree files) h.cwd false (joinPath h.hostHomeDir relative) = .ok q →
    (hostTree files).node q = some .file ∨
      ((hostTree files).node q = some .dir ∧
        ∀ q' ∈ visited [] (pathSteps (unmask h relative).destination),
          Solid h.cwd (homeContainer files rootfs h) (offers files e h privileges) q')

/-- A container that some of the mounts make, in any order. -/
inductive Made (cwd : List String) (c₀ : Container) (ms : List OciMount) : Container → Prop
  | start : Made cwd c₀ ms c₀
  | mount {c : Container} {m : OciMount} (hc : Made cwd c₀ ms c) (hm : m ∈ ms) :
      Made cwd c₀ ms (c.apply cwd m)

/-- Whichever mounts were made before, with whatever links in their way, no
    mount shows anything but the private directory at the one of the home. -/
def Spared (files rootfs : Files) (e : Environment) (h : Home) (user : String)
    (privileges : ApplicationAccessPrivileges) (name : String) : Prop :=
  ∃ p, PrivateDirectory files h name p ∧ (hostTree files).node p = some .dir ∧
    ∀ c, Made h.cwd (homeContainer files rootfs h) (offers files e h privileges) c →
      ∀ m ∈ offers files e h privileges, Keeps h.cwd user name p c m

/-! ## Section 3: Entries that uncover a directory -/

section Blocklist

variable {e : Environment} {h : Home} {user name : String} {rootfs : Files} {g : Output}
  {privileges : ApplicationAccessPrivileges} {p : List String} {c : Container} {m : OciMount}

/-- The fixed mounts go to other directories of the home. -/
theorem fixedMounts_target (hc : h.cognitiveHomeDir = joinPath "/home" user)
    (huser : FileName user) : ∀ m ∈ fixedMounts e h,
      (∃ x ∈ [".local", ".config", ".cache", ".linglong"], ["home", user, x] <+: target m) ∨
        ∃ l, target m = l ++ [".bashrc"] := by
  have hhome : lexical [] (pathSteps h.cognitiveHomeDir) = ["home", user] := by
    rw [pathSteps_cognitive hc huser]
    rfl
  have hchild : ∀ x source, FileName x →
      ["home", user, x] <+: target (rbind (joinPath h.cognitiveHomeDir x) source) := by
    intro x source hx
    show _ <+: lexical [] (pathSteps (joinPath h.cognitiveHomeDir x))
    rw [lexical_joinPath hx, hhome]
    exact List.prefix_refl _
  have hbelow : ∀ q a y source, FileName y → q <+: target (rbind a source) →
      q <+: target (rbind (joinPath a y) source) := by
    intro q a y source hy hq
    show _ <+: lexical [] (pathSteps (joinPath a y))
    rw [lexical_joinPath hy]
    exact hq.trans (List.prefix_append _ _)
  have hlocal := fun source => hchild ".local" source (by decide)
  have hconfig := fun source => hchild ".config" source (by decide)
  have hcache := fun source => hchild ".cache" source (by decide)
  intro m hm
  rw [fixedMounts] at hm
  simp only [List.cons_append, List.mem_cons, List.mem_append, List.mem_flatMap, List.mem_map,
    configMounts, cacheMounts, List.not_mem_nil, or_false] at hm
  rcases hm with rfl | ((⟨config, -, rfl | rfl | rfl | rfl | rfl⟩ | ⟨cache, -, rfl | rfl⟩) |
    ⟨state, -, rfl⟩) | rfl | rfl
  · exact .inl ⟨".local", by simp, hbelow _ _ _ _ (by decide) (hlocal _)⟩
  · exact .inl ⟨".config", by simp, hconfig _⟩
  · exact .inl ⟨".config", by simp, hbelow _ _ _ _ (by decide)
      (hbelow _ _ _ _ (by decide) (hconfig _))⟩
  · exact .inl ⟨".config", by simp, hbelow _ _ _ _ (by decide) (hconfig _)⟩
  · exact .inl ⟨".config", by simp, hbelow _ _ _ _ (by decide) (hconfig _)⟩
  · exact .inl ⟨".config", by simp, hbelow _ _ _ _ (by decide) (hconfig _)⟩
  · exact .inl ⟨".cache", by simp, hcache _⟩
  · exact .inl ⟨".cache", by simp, hbelow _ _ _ _ (by decide)
      (hbelow _ _ _ _ (by decide) (hcache _))⟩
  · exact .inl ⟨".local", by simp, hbelow _ _ _ _ (by decide) (hlocal _)⟩
  · exact .inr ⟨_, lexical_joinPath (by decide) []⟩
  · exact .inl ⟨".linglong", by simp, hchild ".linglong" _ (by decide)⟩

/-- So none of them lands at a directory of the blocklist or above. -/
theorem not_reaches_fixed (hc : h.cognitiveHomeDir = joinPath "/home" user)
    (huser : FileName user) (hbashrc : user ≠ ".bashrc") (hm : m ∈ fixedMounts e h)
    (hname : name ∈ blackList) : ¬ target m <+: ["home", user, name] := by
  intro hprefix
  rcases fixedMounts_target hc huser m hm with ⟨x, hx, hbelow⟩ | ⟨l, hl⟩
  · have hsame := (hbelow.trans hprefix).eq_of_length rfl
    have hxname : x = name := by simpa using hsame
    have hother : ∀ x ∈ [".local", ".config", ".cache", ".linglong"], x ∉ blackList := by decide
    exact hother x hx (hxname ▸ hname)
  · have hmem : ".bashrc" ∈ ["home", user, name] := by
      refine hprefix.subset ?_
      rw [hl]
      simp
    have hother : ".bashrc" ∉ blackList := by decide
    simp only [List.mem_cons, List.not_mem_nil, or_false] at hmem
    rcases hmem with hhome | huserName | hblack
    · exact absurd hhome (by decide)
    · exact hbashrc huserName.symm
    · exact hother (hblack ▸ hname)

theorem target_unmask (hc : h.cognitiveHomeDir = joinPath "/home" user) (huser : FileName user)
    {relative : String} (hrelative : isAbsolute relative = false) :
    target (unmask h relative) = lexical ["home", user] (pathSteps relative) := by
  show lexical [] (pathSteps (joinPath h.cognitiveHomeDir relative)) = _
  rw [pathSteps_relative hc huser hrelative]
  rfl

theorem allowMount_eq_some {files : Files} {relative : String}
    (h' : allowMount files h relative = some m) : relative ∉ blackList ∧
    ∃ q, resolve (hostTree files) h.cwd false (joinPath h.hostHomeDir relative) = .ok q ∧
      ((¬ (hostTree files).LinkAt q ∧ m = unmask h relative) ∨
        ((hostTree files).LinkAt q ∧ m = ⟨joinPath h.hostHomeDir relative,
          ["rbind", "copy-symlink"], joinPath h.hostHomeDir relative, "bind"⟩)) := by
  rw [allowMount] at h'
  by_cases hblack : relative ∈ blackList
  · rw [if_pos hblack] at h'
    cases h'
  · rw [if_neg hblack] at h'
    refine ⟨hblack, ?_⟩
    cases hresolve : resolve (hostTree files) h.cwd false (joinPath h.hostHomeDir relative) with
    | error err =>
      rw [hresolve] at h'
      cases h'
    | ok q =>
      rw [hresolve] at h'
      dsimp only at h'
      refine ⟨q, rfl, ?_⟩
      by_cases hlink : (hostTree files).LinkAt q
      · obtain ⟨absolute, steps, hnode⟩ := hlink
        rw [hnode] at h'
        dsimp only at h'
        refine .inr ⟨⟨absolute, steps, hnode⟩, ?_⟩
        cases hfollowed : resolve (hostTree files) h.cwd true
            (joinPath h.hostHomeDir relative) with
        | error err =>
          rw [hfollowed] at h'
          cases h'
        | ok resolved =>
          rw [hfollowed] at h'
          dsimp only at h'
          by_cases hexists : fsExists files h.cwd (placeString resolved) = .ok true
          · rw [if_pos hexists] at h'
            exact (Option.some.inj h').symm
          · rw [if_neg hexists] at h'
            cases h'
      · refine .inl ⟨hlink, ?_⟩
        cases hnode : (hostTree files).node q with
        | none =>
          rw [hnode] at h'
          exact (Option.some.inj h').symm
        | some x =>
          rw [hnode] at h'
          cases x with
          | dir => exact (Option.some.inj h').symm
          | file => exact (Option.some.inj h').symm
          | link absolute steps => exact absurd ⟨absolute, steps, hnode⟩ hlink

theorem allowMount_of_directory {files : Files} {relative : String} (hblack : relative ∉ blackList)
    (hdir : IsDirectory files h relative) :
    allowMount files h relative = some (unmask h relative) := by
  obtain ⟨q, hq, hnode⟩ := hdir
  rw [allowMount, if_neg hblack, hq]
  dsimp only
  rw [hnode]

theorem leadsTo_of_resolve {c₀ : Container} (hkept : ∀ q x, (hostTree g.files).node q = some x →
    c₀.tree.store (.host q) = some x) {cwd q : List String}
    (hq : resolve (hostTree g.files) cwd (!m.options.contains "copy-symlink") m.source = .ok q) :
    LeadsTo cwd c₀ m q := by
  have hhost := resolve_mono (fun _ _ hx => host_node hkept hx) hq
  rw [LeadsTo]
  rw [resolve] at hhost ⊢
  by_cases hempty : m.source = ""
  · rw [if_pos hempty] at hhost
    cases hhost
  · rw [if_neg hempty] at hhost ⊢
    exact FileTree.Fills.walk_completed (fun _ _ hx => .inl hx) hhost

theorem Ready.node_above (hready : Ready g.files user name c) {place : List String}
    (hplace : place <+: ["home", user, name]) : c.tree.node place = some .dir := by
  rcases List.prefix_cons_iff.1 hplace with rfl | ⟨l₁, rfl, hl₁⟩
  · rfl
  rcases List.prefix_cons_iff.1 hl₁ with rfl | ⟨l₂, rfl, hl₂⟩
  · exact hready.home
  rcases List.prefix_cons_iff.1 hl₂ with rfl | ⟨l₃, rfl, hl₃⟩
  · exact hready.userDir
  · rw [List.prefix_nil.1 hl₃]
    exact hready.dir

/-- Two paths to one directory of the application. -/
theorem PrivateDirectory.unique {files : Files} {p' : List String}
    (hp : PrivateDirectory files h name p) (hp' : PrivateDirectory files h name p') : p' = p :=
  Except.ok.inj (hp'.1.symm.trans hp.1)

/-- An allowed entry whose mount covers the directory. -/
def Uncovers (files : Files) (h : Home) (user name : String)
    (privileges : ApplicationAccessPrivileges) (m : OciMount) : Prop :=
  ∃ relative ∈ allowedDirs privileges, relative ∉ blackList ∧ IsDirectory files h relative ∧
    Reaches user name relative ∧ m = unmask h relative

/-- No allowed entry is a link. -/
theorem Settled.unmask_of_allow (hs : Settled g.files rootfs e h user privileges)
    (hkept : ∀ q x, (hostTree g.files).node q = some x →
      (homeContainer g.files rootfs h).tree.store (.host q) = some x)
    (hm : m ∈ offers g.files e h privileges) {relative : String}
    (hallow : allowMount g.files h relative = some m) : relative ∉ blackList ∧
    ∃ q, resolve (hostTree g.files) h.cwd false (joinPath h.hostHomeDir relative) = .ok q ∧
      ¬ (hostTree g.files).LinkAt q ∧ m = unmask h relative := by
  obtain ⟨hblack, q, hq, hkind⟩ := allowMount_eq_some hallow
  refine ⟨hblack, q, hq, ?_⟩
  rcases hkind with hunmask | ⟨hlink, rfl⟩
  · exact hunmask
  · obtain ⟨absolute, steps, hnode⟩ := hlink
    have hleads := @leadsTo_of_resolve g ⟨joinPath h.hostHomeDir relative,
      ["rbind", "copy-symlink"], joinPath h.hostHomeDir relative, "bind"⟩ _ hkept h.cwd q hq
    exact absurd ⟨absolute, steps, host_node hkept hnode⟩ (hs.straight.source _ hm q hleads)

/-- Where an allowed entry leads on the host. -/
theorem leadsTo_unmask {c₀ : Container} (hkept : ∀ q x, (hostTree g.files).node q = some x →
      c₀.tree.store (.host q) = some x) {relative : String} {q : List String}
    (hlink : ¬ (hostTree g.files).LinkAt q)
    (hq : resolve (hostTree g.files) h.cwd false (joinPath h.hostHomeDir relative) = .ok q) :
    LeadsTo h.cwd c₀ (unmask h relative) q :=
  leadsTo_of_resolve hkept (resolve_unfollowed hlink hq)

/-- The mounts before the allowed directories keep the mask. -/
theorem Settled.keeps (hs : Settled g.files rootfs e h user privileges)
    (hcognitive : h.cognitiveHomeDir = joinPath "/home" user) (huser : FileName user)
    (hstart : Ready g.files user name (homeContainer g.files rootfs h))
    (hc : Plain h.cwd (homeContainer g.files rootfs h) (offers g.files e h privileges) c)
    (hname : name ∈ blackList) (hp : PrivateDirectory g.files h name p)
    (hm : m ∈ fixedMounts e h ++ (disallowedDirs privileges).map (mask h)) :
    Keeps h.cwd user name p c m := by
  intro place f hlands rest hrest
  obtain ⟨rfl, q, hleads, rfl, -⟩ := hc.lands hs.straight (List.mem_append_left _ hm) hlands
  rcases List.mem_append.1 hm with hfixed | hmasks
  · exact absurd ⟨rest, hrest⟩ (not_reaches_fixed hcognitive huser hs.bashrc hfixed hname)
  · obtain ⟨relative, hmem, rfl⟩ := List.mem_map.1 hmasks
    by_cases hblack : relative ∈ blackList
    · -- the mask of this directory or of the other one
      have hplace : target (mask h relative) = ["home", user, relative] := by
        show lexical [] (pathSteps (joinPath h.cognitiveHomeDir relative)) = _
        rw [pathSteps_mask hcognitive huser (fileName_of_blackList hblack)]
        rfl
      rw [hplace] at hrest ⊢
      obtain ⟨rfl, rfl⟩ : relative = name ∧ rest = [] := by simpa using hrest
      have hprivate := @leadsTo_of_resolve g (mask h relative) _ hstart.kept h.cwd p hp.1
      rw [Except.ok.inj (hleads.symm.trans hprivate)]
      exact ⟨List.prefix_append ["home", user] [relative], congrArg _ (List.append_nil p)⟩
    · obtain ⟨hbelow, hpriv⟩ :=
        hs.masks relative hmem hblack name hname p q rest hp hleads hrest
      exact ⟨hbelow, congrArg Object.host hpriv⟩

/-- Of the allowed directories, those that do not cover it keep it, too. -/
theorem Settled.keeps_allowed (hs : Settled g.files rootfs e h user privileges)
    (hcognitive : h.cognitiveHomeDir = joinPath "/home" user) (huser : FileName user)
    (hvalid : ∀ relative ∈ allowedDirs privileges, isAbsolute relative = false)
    (hstart : Ready g.files user name (homeContainer g.files rootfs h))
    (hc : Plain h.cwd (homeContainer g.files rootfs h) (offers g.files e h privileges) c)
    (hready : Ready g.files user name c) (hname : name ∈ blackList)
    (hm : m ∈ (allowedDirs privileges).filterMap (allowMount g.files h))
    (hnot : ¬ Uncovers g.files h user name privileges m) : Keeps h.cwd user name p c m := by
  intro place f hlands rest hrest
  have hoffers : m ∈ offers g.files e h privileges := List.mem_append_right _ hm
  obtain ⟨relative, hmem, hallow⟩ := List.mem_filterMap.1 hm
  obtain ⟨rfl, q, hleads, rfl, hkind⟩ := hc.lands hs.straight hoffers hlands
  obtain ⟨hblack, q', hq', hlink, rfl⟩ := hs.unmask_of_allow hstart.kept hoffers hallow
  have hsame : q = q' := Except.ok.inj (hleads.symm.trans (leadsTo_unmask hstart.kept hlink hq'))
  subst hsame
  have hreaches : Reaches user name relative := by
    rw [Reaches, ← target_unmask hcognitive huser (hvalid relative hmem)]
    exact ⟨rest, hrest⟩
  -- what lands on a directory is one
  have hhost : c.host.node q = some .dir :=
    hkind.1 ((prepared_grows h.cwd c _).node (hready.node_above ⟨rest, hrest⟩))
  rcases hs.passes relative hmem hblack name hname hreaches q hq' with hfile | ⟨hdir, -⟩
  · rw [host_node hready.kept hfile] at hhost
    cases hhost
  · exact absurd ⟨relative, hmem, hblack, ⟨q, hq', hdir⟩, hreaches, rfl⟩ hnot

/-- The mount of an allowed directory does land. -/
theorem Settled.lands_unmask (hs : Settled g.files rootfs e h user privileges)
    (hcognitive : h.cognitiveHomeDir = joinPath "/home" user) (huser : FileName user)
    (hvalid : ∀ relative ∈ allowedDirs privileges, isAbsolute relative = false)
    (hc : Plain h.cwd (homeContainer g.files rootfs h) (offers g.files e h privileges) c)
    (hready : Ready g.files user name c) (hname : name ∈ blackList) {relative : String}
    (hmem : relative ∈ allowedDirs privileges) (hblack : relative ∉ blackList)
    (hdir : IsDirectory g.files h relative) (hreaches : Reaches user name relative) :
    ∃ f rest, c.lands h.cwd (unmask h relative) = some (target (unmask h relative), f) ∧
      target (unmask h relative) ++ rest = ["home", user, name] := by
  obtain ⟨q, hq, hnode⟩ := hdir
  have hlink : ¬ (hostTree g.files).LinkAt q := by
    rintro ⟨absolute, steps, hlink⟩
    rw [hnode] at hlink
    cases hlink
  have habove : target (unmask h relative) <+: ["home", user, name] := by
    rw [target_unmask hcognitive huser (hvalid relative hmem)]
    exact hreaches
  have hgrows := prepared_grows h.cwd c (unmask h relative)
  -- on the way there are directories
  have hpasses : ∀ q' ∈ visited [] (pathSteps (unmask h relative).destination),
      (c.prepared h.cwd (unmask h relative)).node q' = some .dir := by
    intro q' hq'
    rcases hs.passes relative hmem hblack name hname hreaches q hq with hfile | ⟨-, hsolid⟩
    · rw [hnode] at hfile
      cases hfile
    · refine hgrows.node ?_
      rw [FileTree.node]
      by_cases hempty : q'.isEmpty = true
      · rw [if_pos hempty]
      · rw [if_neg hempty]
        exact hc.kept _ _ (hsolid q' hq' _ (hc.shows q'))
  have hshown : c.shown (c.source h.cwd (unmask h relative)) =
      some (true, fun rest => .host (q ++ rest)) := by
    rw [unmask, shown_rbind hready.kept (resolve_unfollowed hlink hq) hnode]
    rfl
  obtain ⟨rest, hrest⟩ := habove
  exact ⟨_, rest, lands_of_walk hshown (FileTree.walk_of_dirs hpasses)
    (hgrows.node (hready.node_above ⟨rest, hrest⟩)), hrest⟩

/-- Mounts that keep the mask leave `$HOME/name` private. -/
theorem masked_of_keeps {I : Container → Prop} (hI : I (homeContainer g.files rootfs h))
    (hcognitive : h.cognitiveHomeDir = joinPath "/home" user) (huser : FileName user)
    (hstart : Ready g.files user name (homeContainer g.files rootfs h)) {rest : List OciMount}
    (hmounts : g.mounts = homeTmpfs :: homeMount h :: rest) (hname : name ∈ blackList)
    (hmask : mask h name ∈ rest) (hp : PrivateDirectory g.files h name p)
    (hdir : (hostTree g.files).node p = some .dir)
    (hstep : ∀ c m, m ∈ rest → I c → I (c.apply h.cwd m))
    (hkeeps : ∀ c m, m ∈ rest → I c → Ready g.files user name c → Keeps h.cwd user name p c m) :
    Masked h rootfs g name := by
  have hfile := fileName_of_blackList hname
  have hend := hstart.run hI hdir hstep hkeeps
  have hview := hstart.run_mask hI hcognitive huser hfile hp.1 hdir hstep hkeeps (.inr hmask)
  have hcontainer : containerOf h rootfs g =
      applyAll h.cwd (homeContainer g.files rootfs h) rest := by
    rw [containerOf, hmounts]
    rfl
  refine ⟨p, hp, ["home", user, name], ?_, ?_⟩
  · rw [hcontainer, pathSteps_mask hcognitive huser hfile, hend.2.walk (.refl _),
      FileTree.walk_nil]
  · rw [hcontainer]
    exact hview

/-- After an allowed entry that covers it the directory is never private
    again. -/
theorem Settled.uncovered_run (hs : Settled g.files rootfs e h user privileges)
    (hkept : ∀ q x, (hostTree g.files).node q = some x →
      (homeContainer g.files rootfs h).tree.store (.host q) = some x)
    (hname : name ∈ blackList) (hp : PrivateDirectory g.files h name p) {ms : List OciMount}
    (hms : ∀ m ∈ ms, m ∈ (allowedDirs privileges).filterMap (allowMount g.files h))
    (hc : Plain h.cwd (homeContainer g.files rootfs h) (offers g.files e h privileges) c)
    (hview : c.tree.view ["home", user, name] ≠ .host p) :
    Plain h.cwd (homeContainer g.files rootfs h) (offers g.files e h privileges)
        (applyAll h.cwd c ms) ∧
      (applyAll h.cwd c ms).tree.view ["home", user, name] ≠ .host p := by
  induction ms generalizing c with
  | nil => exact ⟨hc, hview⟩
  | cons m ms ih =>
    have hm : m ∈ offers g.files e h privileges :=
      List.mem_append_right _ (hms m List.mem_cons_self)
    obtain ⟨relative, hmem, hallow⟩ := List.mem_filterMap.1 (hms m List.mem_cons_self)
    refine ih (fun m' hm' => hms m' (List.mem_cons_of_mem _ hm')) (hc.apply hs.straight hm) ?_
    rw [view_apply]
    cases hcovered : covered h.cwd ["home", user, name] c m with
    | none => exact hview
    | some o =>
      obtain ⟨place, f, rest, hlands, hrest, rfl⟩ := covered_eq_some_iff.1 hcovered
      obtain ⟨rfl, q, hleads, rfl, -⟩ := hc.lands hs.straight hm hlands
      obtain ⟨hblack, -, -, -, rfl⟩ := hs.unmask_of_allow hkept hm hallow
      intro hshows
      exact hs.unmasks relative hmem hblack name hname p q rest hp hleads hrest.symm
        (Object.host.inj hshows)

/-- The first entry that covers the directory. -/
theorem exists_first_uncovers {files : Files} {ms : List OciMount}
    (h' : ∃ m ∈ ms, Uncovers files h user name privileges m) :
    ∃ before m after, ms = before ++ m :: after ∧ Uncovers files h user name privileges m ∧
      ∀ m' ∈ before, ¬ Uncovers files h user name privileges m' := by
  classical
  obtain ⟨m, hm, huncovers⟩ := h'
  have hsome : (ms.find? fun m => decide (Uncovers files h user name privileges m)).isSome :=
    List.find?_isSome.2 ⟨m, hm, decide_eq_true huncovers⟩
  obtain ⟨m', hm'⟩ := Option.isSome_iff_exists.1 hsome
  obtain ⟨hfirst, before, after, heq, hbefore⟩ := List.find?_eq_some_iff_append.1 hm'
  refine ⟨before, m', after, heq, of_decide_eq_true hfirst, fun m hm huncovers => ?_⟩
  have hnot := hbefore m hm
  rw [decide_eq_true huncovers] at hnot
  cases hnot

/-- With such an entry the directory is not private. -/
theorem Settled.not_masked (hs : Settled g.files rootfs e h user privileges)
    (hcognitive : h.cognitiveHomeDir = joinPath "/home" user) (huser : FileName user)
    (hvalid : ∀ relative ∈ allowedDirs privileges, isAbsolute relative = false)
    (hstart : Ready g.files user name (homeContainer g.files rootfs h)) {pre : List OciMount}
    (hmounts : g.mounts = homeTmpfs :: homeMount h ::
      (pre ++ (allowedDirs privileges).filterMap (allowMount g.files h)))
    (hoffers : ∀ m ∈ pre, m ∈ fixedMounts e h ++ (disallowedDirs privileges).map (mask h))
    (hname : name ∈ blackList) {relative : String} (hmem : relative ∈ allowedDirs privileges)
    (hblack : relative ∉ blackList) (hisDir : IsDirectory g.files h relative)
    (hreaches : Reaches user name relative) : ¬ Masked h rootfs g name := by
  rintro ⟨p, hp, d, hwalk, hview⟩
  have hdir := hs.privateDir name hname p hp
  obtain ⟨before, m, after, hsplit, huncovers, hbefore⟩ :=
    @exists_first_uncovers h user name privileges g.files _
      ⟨unmask h relative, List.mem_filterMap.2 ⟨relative, hmem,
        allowMount_of_directory hblack hisDir⟩, relative, hmem, hblack, hisDir, hreaches, rfl⟩
  have hallowed : ∀ m' ∈ before ++ m :: after,
      m' ∈ (allowedDirs privileges).filterMap (allowMount g.files h) := by
    intro m' hm'
    rwa [hsplit]
  -- up to the first entry that covers the directory everything is in its place
  have hkeeps : ∀ c m', m' ∈ pre ++ before →
      Plain h.cwd (homeContainer g.files rootfs h) (offers g.files e h privileges) c →
      Ready g.files user name c → Keeps h.cwd user name p c m' := by
    intro c m' hm' hc hready
    rcases List.mem_append.1 hm' with hm' | hm'
    · exact hs.keeps hcognitive huser hstart hc hname hp (hoffers m' hm')
    · exact hs.keeps_allowed hcognitive huser hvalid hstart hc hready hname
        (hallowed m' (List.mem_append_left _ hm')) (hbefore m' hm')
  have hstep : ∀ c m', m' ∈ pre ++ before →
      Plain h.cwd (homeContainer g.files rootfs h) (offers g.files e h privileges) c →
      Plain h.cwd (homeContainer g.files rootfs h) (offers g.files e h privileges)
        (c.apply h.cwd m') := by
    intro c m' hm' hc
    refine hc.apply hs.straight ?_
    rcases List.mem_append.1 hm' with hm' | hm'
    · exact List.mem_append_left _ (hoffers m' hm')
    · exact List.mem_append_right _ (hallowed m' (List.mem_append_left _ hm'))
  obtain ⟨hplain, hready⟩ := hstart.run .start hdir hstep hkeeps
  -- there it lands, and shows what is not private
  have hm : m ∈ before ++ m :: after := List.mem_append_right _ List.mem_cons_self
  have hmOffers : m ∈ offers g.files e h privileges := List.mem_append_right _ (hallowed m hm)
  obtain ⟨relative', hmem', hblack', hisDir', hreaches', rfl⟩ := huncovers
  obtain ⟨f, rest, hlands, hrest⟩ := hs.lands_unmask hcognitive huser hvalid hplain hready hname
    hmem' hblack' hisDir' hreaches'
  obtain ⟨-, q, hleads, rfl, -⟩ := hplain.lands hs.straight hmOffers hlands
  have hother : ((applyAll h.cwd (homeContainer g.files rootfs h) (pre ++ before)).apply h.cwd
      (unmask h relative')).tree.view ["home", user, name] ≠ .host p := by
    rw [← hrest, view_apply_of_lands hlands]
    intro hshows
    exact hs.unmasks relative' hmem' hblack' name hname p q rest hp hleads hrest
      (Object.host.inj hshows)
  -- and this is so in the end
  obtain ⟨hend, hlast⟩ := hs.uncovered_run hstart.kept hname hp
    (fun m' hm' => hallowed m' (List.mem_append_right _ (List.mem_cons_of_mem _ hm')))
    (hplain.apply hs.straight hmOffers) hother
  have hcontainer : containerOf h rootfs g = applyAll h.cwd
      ((applyAll h.cwd (homeContainer g.files rootfs h) (pre ++ before)).apply h.cwd
        (unmask h relative')) after := by
    rw [containerOf, hmounts, hsplit, ← List.append_assoc]
    show applyAll h.cwd (homeContainer g.files rootfs h) (_ ++ _) = _
    rw [applyAll, List.foldl_append]
    rfl
  rw [hcontainer] at hwalk hview
  have hmask : mask h name ∈ offers g.files e h privileges := List.mem_append_left _
    (List.mem_append_right _ (List.mem_map_of_mem (mem_disallowedDirs privileges hname)))
  have hplace : d = target (mask h name) := FileTree.walk_lexical
    (fun q hq => hend.not_linkAt (.refl _) (hs.straight.destination _ hmask q hq)) hwalk
  have hdirectory : target (mask h name) = ["home", user, name] := by
    show lexical [] (pathSteps (joinPath h.cognitiveHomeDir name)) = _
    rw [pathSteps_mask hcognitive huser (fileName_of_blackList hname)]
    rfl
  rw [hplace, hdirectory] at hview
  exact hlast hview

end Blocklist

/-! ## Section 4: The blocklist -/

/-- The home of a user whose application has a `permissions.json`. -/
def mailFiles : Files := fun p =>
  if p ∈ [["root"], ["root", ".ssh"], ["root", ".gnupg"], ["root", "Documents"],
      ["root", "Pictures"], ["root", ".linglong"], ["root", ".linglong", "data"],
      ["root", ".linglong", "mail"], ["xdg"]] then some .dir
  else if p = ["root", ".linglong", "mail", "permissions.json"] then some .file
  else none

def mailEnvironment : Environment where
  home := some "/root"
  user := some "root"
  xdgDataHome := some "/xdg"
  xdgConfigHome := some "/xdg"
  xdgCacheHome := some "/xdg"
  xdgStateHome := some "/xdg"
  cwd := []

def mailContent : Content := ⟨some "1.0.1", some "mail", [], []⟩

def mailHome : Home := homeOf mailEnvironment "/root" "root" "mail"

def mailPrivileges (allowed disallowed : List String) : ApplicationAccessPrivileges :=
  ⟨some ⟨some allowed, some disallowed⟩⟩

/-- The run for two lists. -/
def mailRun (allowed disallowed : List String) : Generate Content :=
  main mailEnvironment (.ok mailContent) (.ok (mailPrivileges allowed disallowed))

def mailOutput (allowed disallowed : List String) : Output :=
  after (mailRun allowed disallowed) ⟨mailFiles, [], []⟩

end Generators

end Linglong
