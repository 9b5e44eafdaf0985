import Linglong.Generators.StraightMounts
import Linglong.Generators.UserHome

/-! # The Masks of the Home

    `~/.ssh` and `~/.gnupg` of the host are not for the application. The
    generator shows an empty directory of the application in their place, by
    a mount after that of the whole home (`mask`). Mounts that come later can
    cover it again.

    1. What the container should show (`Masked`).
    2. What is mounted (`mountHome_ok`).
    3. Mounts that keep the masks (`Ready.run_mask`).
-/

namespace Linglong

namespace Generators

open Framework Container

/-! ## Section 1: Masked directories -/

/-- A real directory of the home of the host. -/
def HostDirectory (files : Files) (h : Home) (name : String) (q : List String) : Prop :=
  ∃ r, resolve (hostTree files) h.cwd true h.hostHomeDir = .ok r ∧
    (hostTree files).node r = some .dir ∧ (hostTree files).node (r ++ [name]) = some .dir ∧
    q = r ++ [name]

/-- The private directory of the application in place of one of the home,
    and not this one itself. -/
def PrivateDirectory (files : Files) (h : Home) (name : String) (p : List String) : Prop :=
  resolve (hostTree files) h.cwd true (joinPath h.privateAppDir name) = .ok p ∧
    ¬ HostDirectory files h name p

/-- The container that the mounts make. -/
def containerOf (h : Home) (rootfs : Files) (g : Output) : Container :=
  applyAll h.cwd (new g.files rootfs) g.mounts

/-- `$HOME/name` shows the private directory. -/
def Masked (h : Home) (rootfs : Files) (g : Output) (name : String) : Prop :=
  ∃ p, PrivateDirectory g.files h name p ∧
    (containerOf h rootfs g).Shows (joinPath h.cognitiveHomeDir name) (.host p)

/-! ## Section 2: What is mounted -/

/-- A name of one file. -/
def FileName (s : String) : Prop := s ≠ "" ∧ s ≠ "." ∧ s ≠ ".." ∧ '/' ∉ s.toList

instance (s : String) : Decidable (FileName s) := inferInstanceAs (Decidable (_ ∧ _))

section Paths

theorem pathSteps_append (a b : String) :
    pathSteps (a ++ "/" ++ b) = pathSteps a ++ pathSteps b := by
  have hlist : (a ++ "/" ++ b).toList = a.toList ++ '/' :: b.toList := by
    simp [String.toList_append]
  rw [pathSteps, hlist, List.splitOn_append_cons_self, List.map_append]
  rfl

theorem pathSteps_fileName {s : String} (h : FileName s) : pathSteps s = [.down s] := by
  have hne : ∀ t : String, s ≠ t → s.toList ≠ t.toList := fun t hst heq =>
    hst (String.toList_inj.1 heq)
  have hempty : s.toList ≠ [] := hne "" h.1
  have hdot : s.toList ≠ ['.'] := hne "." h.2.1
  have hdots : s.toList ≠ ['.', '.'] := hne ".." h.2.2.1
  rw [pathSteps, List.splitOn_eq_singleton h.2.2.2, List.map_singleton, pathStep,
    if_neg (not_or.2 ⟨hempty, hdot⟩), if_neg hdots, String.ofList_toList]

theorem isAbsolute_fileName {s : String} (h : FileName s) : isAbsolute s = false := by
  refine decide_eq_false fun hhead => h.2.2.2 ?_
  exact List.mem_of_mem_head? hhead

theorem joinPath_fileName {a s : String} (h : FileName s) :
    joinPath a s = if a = "" ∨ a.toList.getLast? = some '/' then a ++ s else a ++ "/" ++ s := by
  rw [joinPath, isAbsolute_fileName h]
  rfl

theorem fileName_of_blackList {name : String} (h : name ∈ blackList) : FileName name := by
  have hall : ∀ name ∈ blackList, FileName name := by decide
  exact hall name h

/-- The components of a file in a directory; a slash at the end of `a` gives
    an empty one, which is left out. -/
theorem pathSteps_joinPath {a s : String} (h : FileName s) :
    pathSteps (joinPath a s) = pathSteps a ++ [.down s] ∨
      ∃ steps, pathSteps a = steps ++ [.stay] ∧
        pathSteps (joinPath a s) = steps ++ [.down s] := by
  rw [joinPath_fileName h]
  by_cases hempty : a = ""
  · rw [if_pos (.inl hempty), hempty, String.empty_append, pathSteps_fileName h]
    exact .inr ⟨[], rfl, rfl⟩
  · by_cases hslash : a.toList.getLast? = some '/'
    · rw [if_pos (.inr hslash)]
      obtain ⟨l, hl⟩ := List.getLast?_eq_some_iff.1 hslash
      have ha : a = String.ofList l ++ "/" ++ "" := by
        rw [← String.toList_inj, hl]
        simp [String.toList_append]
      have hjoined : a ++ s = String.ofList l ++ "/" ++ s := by
        rw [← String.toList_inj]
        simp [String.toList_append, hl]
      refine .inr ⟨pathSteps (String.ofList l), ?_, ?_⟩
      · rw [ha, pathSteps_append]
        rfl
      · rw [hjoined, pathSteps_append, pathSteps_fileName h]
    · rw [if_neg (not_or.2 ⟨hempty, hslash⟩), pathSteps_append, pathSteps_fileName h]
      exact .inl rfl

theorem lexical_joinPath {a s : String} (h : FileName s) (cur : List String) :
    lexical cur (pathSteps (joinPath a s)) = lexical cur (pathSteps a) ++ [s] := by
  rcases pathSteps_joinPath h with hsteps | ⟨steps, ha, hsteps⟩
  · rw [hsteps, lexical_append]
    rfl
  · rw [hsteps, ha, lexical_append, lexical_append]
    rfl

theorem isAbsolute_joinPath {a s : String} (h : FileName s) (ha : a ≠ "") :
    joinPath a s ≠ "" ∧ isAbsolute (joinPath a s) = isAbsolute a := by
  have hlistEmpty : a.toList ≠ [] := fun hnil => ha (String.toList_inj.1 hnil)
  have hfront : ∃ l, (joinPath a s).toList = a.toList ++ l := by
    rw [joinPath_fileName h]
    split
    · exact ⟨s.toList, String.toList_append⟩
    · exact ⟨"/".toList ++ s.toList, by simp [String.toList_append]⟩
  obtain ⟨l, hl⟩ := hfront
  constructor
  · intro hnil
    rw [hnil] at hl
    exact hlistEmpty (List.append_eq_nil_iff.1 hl.symm).1
  · rw [isAbsolute, isAbsolute, hl, List.head?_append_of_ne_nil _ hlistEmpty]

/-- A file in a directory that a path leads to. -/
theorem resolve_joinPath {t : FileTree (List String) String} {cwd r : List String} {a s : String}
    (h : FileName s) (ha : resolve t cwd true a = .ok r) (hr : t.node r = some .dir)
    (hs : t.node (r ++ [s]) = some .dir) : resolve t cwd true (joinPath a s) = .ok (r ++ [s]) := by
  have hempty : a ≠ "" := by
    intro hnil
    rw [resolve, if_pos hnil] at ha
    cases ha
  obtain ⟨hjoined, habsolute⟩ := isAbsolute_joinPath h hempty
  rw [resolve, if_neg hempty] at ha
  rw [resolve, if_neg hjoined, habsolute]
  have hlast : ∀ k, t.walk true k r [.down s] = .ok (r ++ [s]) := by
    intro k
    rw [FileTree.walk_down hs, FileTree.walk_nil]
  have hne : [PathStep.down s] ≠ [] := List.cons_ne_nil _ _
  rcases pathSteps_joinPath h with hsteps | ⟨steps, hsteps, hjoin⟩
  · rw [hsteps]
    obtain ⟨k, hk⟩ := FileTree.walk_append ha hr hne
    rw [hk true, hlast]
  · -- the component that is left out leads nowhere else
    rw [hjoin, ← FileTree.walk_stay hne]
    rw [hsteps] at ha
    obtain ⟨k, hk⟩ := FileTree.walk_append ha hr hne
    rw [List.append_assoc, List.singleton_append] at hk
    rw [hk true, hlast]

end Paths

section Emitted

variable {e : Environment} {h : Home} {name : String} {g g' : Output} {q : List String}

theorem hostDirectory_mono {files files' : Files}
    (hgrows : FileTree.Grows (hostTree files) (hostTree files'))
    (hq : HostDirectory files h name q) : HostDirectory files' h name q := by
  obtain ⟨r, hr, hdir, hname, hq⟩ := hq
  exact ⟨r, resolve_mono (fun _ _ hx => hgrows.node hx) hr, hgrows.node hdir, hgrows.node hname,
    hq⟩

/-- A directory of the blocklist that exists gets its mask. -/
theorem blockDir_ok (hname : name ∈ blackList) (hq : HostDirectory g.files h name q)
    (hrun : blockDir h name g = .ok ⟨⟩ g') : g'.mounts = g.mounts ++ [mask h name] := by
  have hfile := fileName_of_blackList hname
  have hvalid : ¬ (name = "" ∨ isAbsolute name = true) := by
    rw [isAbsolute_fileName hfile]
    simp [hfile.1]
  obtain ⟨r, hr, hdir, hsub, -⟩ := hq
  have hexists : fsExists g.files h.cwd (joinPath h.hostHomeDir name) = .ok true := by
    rw [fsExists, resolve_joinPath hfile hr hdir hsub]
  rw [blockDir, if_neg hvalid, bind_of_ok (get_run g)] at hrun
  rw [hexists] at hrun
  exact mountDir_ok hrun

theorem fsExists_mono {files files' : Files}
    (hgrows : FileTree.Grows (hostTree files) (hostTree files')) {cwd : List String}
    {path : String} (hexists : fsExists files cwd path = .ok true) :
    fsExists files' cwd path = .ok true := by
  rw [fsExists] at hexists ⊢
  cases hresolve : resolve (hostTree files) cwd true path with
  | error e =>
    rw [hresolve] at hexists
    cases e <;> cases hexists
  | ok p => rw [resolve_mono (fun _ _ hx => hgrows.node hx) hresolve]

/-- The privileges of the application, which has a `permissions.json` before
    the run or has none after it. -/
def Grants (files files' : Files) (h : Home)
    (permissions : Except String ApplicationAccessPrivileges)
    (privileges : ApplicationAccessPrivileges) : Prop :=
  (fsExists files h.cwd (joinPath h.privateAppDir "permissions.json") = .ok true ∧
    permissions = .ok privileges) ∨
  (fsExists files' h.cwd (joinPath h.privateAppDir "permissions.json") = .ok false ∧
    privileges = ⟨none⟩)

/-- What a run emits: the home, then fixed mounts and masks, among them that
    of every directory of the blocklist, and last the allowed directories. -/
theorem mountHome_ok {permissions : Except String ApplicationAccessPrivileges}
    {privileges : ApplicationAccessPrivileges}
    (hrun : mountHome e h permissions g = .ok ⟨⟩ g') (hg : g.mounts = [])
    (hgrants : Grants g.files g'.files h permissions privileges) :
    FileTree.Builds (hostTree g.files) (hostTree g'.files) ∧
    ∃ pre, g'.mounts = homeTmpfs :: homeMount h ::
        (pre ++ (allowedDirs privileges).filterMap (allowMount g'.files h)) ∧
      (∀ m ∈ pre, m ∈ fixedMounts e h ++ (disallowedDirs privileges).map (mask h)) ∧
      (∀ name ∈ blackList, ∀ q, HostDirectory g.files h name q → mask h name ∈ pre) ∧
      ∀ relative ∈ allowedDirs privileges, isAbsolute relative = false := by
  obtain ⟨_, g₁, hfirst, hrun⟩ := bind_ok_iff.1 hrun
  obtain ⟨_, g₂, hhome, hrun⟩ := bind_ok_iff.1 hrun
  obtain ⟨_, g₃, hprivate, hrun⟩ := bind_ok_iff.1 hrun
  obtain ⟨privileges', g₄, hread, hrun⟩ := bind_ok_iff.1 hrun
  obtain ⟨_, g₅, hblock, hallow⟩ := bind_ok_iff.1 hrun
  -- the first two mounts
  have hstart : g₂.mounts = [homeTmpfs, homeMount h] := by
    rw [mountDir_ok hhome]
    cases hfirst
    show (g.mounts ++ [homeTmpfs]) ++ [homeMount h] = _
    rw [hg]
    rfl
  have hbuilds₂ : FileTree.Builds (hostTree g.files) (hostTree g₂.files) := by
    have h₁ : Emits (fun _ => True) g g₁ := (emits_pushMount trivial).of_ok hfirst
    have h₂ : Emits (fun _ => True) g₁ g₂ := (emits_mountDir trivial).of_ok hhome
    exact (trans_of _ h₁ h₂).2
  -- the fixed mounts
  have h₃ : Emits (· ∈ fixedMounts e h) g₂ g₃ :=
    (emits_exposePrivate fun _ hm => hm).of_ok hprivate
  obtain ⟨rfl, hprivileges⟩ := readPrivileges_ok hread
  have hallowed := allowDirs_ok hallow
  have hfiles : g'.files = g₅.files := by rw [hallowed]
  -- the masks
  have h₅ : Emits (· ∈ (disallowedDirs privileges').map (mask h)) g₄ g₅ :=
    (within_forM fun relative hmem => emits_blockDir (List.mem_map_of_mem hmem)).of_ok hblock
  have hsame : privileges' = privileges := by
    rcases hgrants with ⟨hbefore, hpermissions⟩ | ⟨hafter, rfl⟩
    · rcases hprivileges with ⟨-, hpermissions'⟩ | ⟨hnone, -⟩
      · exact Except.ok.inj (hpermissions'.symm.trans hpermissions)
      · rw [fsExists_mono (hbuilds₂.trans h₃.2).toGrows hbefore] at hnone
        cases hnone
    · rcases hprivileges with ⟨hthere, -⟩ | ⟨-, hnone⟩
      · rw [hfiles, fsExists_mono h₅.2.toGrows hthere] at hafter
        cases hafter
      · exact hnone
  subst hsame
  obtain ⟨⟨fixed, hfixed, hfixedMem⟩, hbuilds₃⟩ := h₃
  obtain ⟨⟨masks, hmasks, hmasksMem⟩, hbuilds₅⟩ := h₅
  refine ⟨?_, fixed ++ masks, ?_, ?_, ?_, fun _ hmem => isAbsolute_of_allowDirs hallow hmem⟩
  · rw [hfiles]
    exact (hbuilds₂.trans hbuilds₃).trans hbuilds₅
  · rw [hallowed, hmasks, hfixed, hstart]
    simp
  · intro m hm
    rcases List.mem_append.1 hm with hm | hm
    · exact List.mem_append_left _ (hfixedMem m hm)
    · exact List.mem_append_right _ (hmasksMem m hm)
  · intro name hname q hq
    -- the directory is still there when its turn comes
    obtain ⟨g₆, g₇, hbefore, hmask, hafter⟩ :=
      @forM_ok_mem _ _ _ (Emits fun _ => True) _ _ _ _ name _ _
        (fun _ _ => emits_blockDir trivial) hblock (mem_disallowedDirs privileges' hname)
    have hgrows₆ := ((hbuilds₂.trans hbuilds₃).trans hbefore.2).toGrows
    have hemitted := blockDir_ok hname (hostDirectory_mono hgrows₆ hq) hmask
    obtain ⟨⟨middle, hmiddle, -⟩, -⟩ := hbefore
    obtain ⟨⟨last, hlast, -⟩, -⟩ := hafter
    have hsplit : g₄.mounts ++ masks = g₄.mounts ++ (middle ++ mask h name :: last) := by
      rw [← hmasks, hlast, hemitted, hmiddle]
      simp
    rw [List.append_cancel_left hsplit]
    simp

/-- A run that exits with 0 has emitted what `mountHome` does. -/
theorem main_ok {home user appID : String} {content out : Content}
    {permissions : Except String ApplicationAccessPrivileges} (hhome : e.home = some home)
    (huser : e.user = some user) (happ : content.appID = some appID)
    (hrun : main e (.ok content) permissions g = .ok out g') :
    out.mounts = content.mounts ++ g'.mounts ∧ ∃ g₁ : Output, g₁.files = g.files ∧
      g₁.mounts = [] ∧ mountHome e (homeOf e home user appID) permissions g₁ = .ok ⟨⟩ g' := by
  -- all checks before `mountHome` have passed
  rw [main] at hrun
  by_cases hnone : content.ociVersion.isNone = true
  · rw [if_pos hnone] at hrun
    cases hrun
  · rw [if_neg hnone] at hrun
    by_cases hversion : content.ociVersion ≠ some "1.0.1"
    · rw [if_pos hversion] at hrun
      cases hrun
    · rw [if_neg hversion, happ, hhome, huser] at hrun
      dsimp only at hrun
      rw [bind_of_ok (get_run g)] at hrun
      by_cases hexists : fsExists g.files e.cwd home ≠ .ok true
      · rw [if_pos hexists] at hrun
        cases hrun
      · rw [if_neg hexists] at hrun
        obtain ⟨_, g₁, hset, hrest⟩ := bind_ok_iff.1 hrun
        obtain ⟨_, g₂, hmount, hlast⟩ := bind_ok_iff.1 hrest
        rw [bind_of_ok (get_run g₂)] at hlast
        have hg₁ : g₁ = ⟨g.files, [], content.env⟩ := by
          cases hset
          rfl
        cases hlast
        exact ⟨rfl, g₁, by rw [hg₁], by rw [hg₁], hmount⟩

end Emitted

/-! ## Section 3: Mounts that keep the masks -/

/-- If the mount covers the directory, it shows the private one there, and
    nothing above the home. -/
def Keeps (cwd : List String) (user name : String) (p : List String) (c : Container)
    (m : OciMount) : Prop :=
  ∀ place f, c.lands cwd m = some (place, f) → ∀ rest, place ++ rest = ["home", user, name] →
    ["home", user] <+: place ∧ f rest = .host p

/-- The directory is reached through directories, and the files the host had
    are still there. -/
structure Ready (files : Files) (user name : String) (c : Container) : Prop where
  kept : ∀ q x, (hostTree files).node q = some x → c.tree.store (.host q) = some x
  home : c.tree.node ["home"] = some .dir
  userDir : c.tree.node ["home", user] = some .dir
  dir : c.tree.node ["home", user, name] = some .dir

section Ready

variable {h : Home} {user name : String} {rootfs : Files} {g : Output} {p q : List String}
  {c : Container} {m : OciMount} {cwd : List String}

theorem host_node (hkept : ∀ q x, (hostTree g.files).node q = some x →
    c.tree.store (.host q) = some x) {q : List String} {x : Node String}
    (hx : (hostTree g.files).node q = some x) : c.host.node q = some x := by
  by_cases hq : q.isEmpty = true
  · rw [FileTree.node, if_pos hq] at hx ⊢
    exact hx
  · rw [FileTree.node, if_neg hq]
    exact hkept q x hx

/-- A path of the host leads where it led in the generator. -/
theorem resolve_host (hkept : ∀ q x, (hostTree g.files).node q = some x →
    c.tree.store (.host q) = some x) {path : String} {q : List String}
    (hpath : resolve (hostTree g.files) cwd true path = .ok q) :
    resolve c.host cwd true path = .ok q :=
  resolve_mono (fun _ _ hx => host_node hkept hx) hpath

/-- What a mount of a directory shows. -/
theorem shown_rbind (hkept : ∀ q x, (hostTree g.files).node q = some x →
    c.tree.store (.host q) = some x) {destination path : String} {q : List String}
    (hpath : resolve (hostTree g.files) cwd true path = .ok q)
    (hdir : (hostTree g.files).node q = some .dir) :
    c.source cwd (rbind destination path) = .tree q true := by
  have htype : ¬ (rbind destination path).type = "tmpfs" := by
    show ¬ "bind" = "tmpfs"
    decide
  have hfollow : (!(rbind destination path).options.contains "copy-symlink") = true := by
    have hnone : ["rbind"].contains "copy-symlink" = false := by decide
    show (!(["rbind"].contains "copy-symlink")) = true
    rw [hnone]
    rfl
  have hsource : resolve c.host cwd true (rbind destination path).source = .ok q :=
    resolve_host hkept hpath
  rw [source, if_neg htype, hfollow, hsource]
  dsimp only
  rw [host_node hkept hdir]

theorem pathSteps_cognitive (hc : h.cognitiveHomeDir = joinPath "/home" user)
    (huser : FileName user) :
    pathSteps h.cognitiveHomeDir = [.stay, .down "home", .down user] := by
  have hslash : ¬ ("/home" = "" ∨ "/home".toList.getLast? = some '/') := by decide
  have hhome : pathSteps "/home" = [.stay, .down "home"] := by decide
  rw [hc, joinPath_fileName huser, if_neg hslash, pathSteps_append, hhome,
    pathSteps_fileName huser]
  rfl

theorem joinPath_cognitive (hc : h.cognitiveHomeDir = joinPath "/home" user)
    (huser : FileName user) {relative : String} (hrelative : isAbsolute relative = false) :
    joinPath h.cognitiveHomeDir relative = h.cognitiveHomeDir ++ "/" ++ relative := by
  have hslash : ¬ ("/home" = "" ∨ "/home".toList.getLast? = some '/') := by decide
  have hlist : h.cognitiveHomeDir.toList = "/home/".toList ++ user.toList := by
    rw [hc, joinPath_fileName huser, if_neg hslash]
    simp [String.toList_append]
  have huserList : user.toList ≠ [] := fun hnil => huser.1 (String.toList_inj.1 hnil)
  have hjoin : ¬ (h.cognitiveHomeDir = "" ∨ h.cognitiveHomeDir.toList.getLast? = some '/') := by
    rintro (hempty | hlast)
    · rw [hempty] at hlist
      cases hlist
    · rw [hlist, List.getLast?_append_of_ne_nil _ huserList] at hlast
      exact huser.2.2.2 (List.mem_of_getLast? hlast)
  rw [joinPath, hrelative, if_neg Bool.false_ne_true, if_neg hjoin]

theorem pathSteps_relative (hc : h.cognitiveHomeDir = joinPath "/home" user)
    (huser : FileName user) {relative : String} (hrelative : isAbsolute relative = false) :
    pathSteps (joinPath h.cognitiveHomeDir relative) =
      .stay :: .down "home" :: .down user :: pathSteps relative := by
  rw [joinPath_cognitive hc huser hrelative, pathSteps_append, pathSteps_cognitive hc huser]
  rfl

theorem pathSteps_mask (hc : h.cognitiveHomeDir = joinPath "/home" user)
    (huser : FileName user) (hname : FileName name) :
    pathSteps (joinPath h.cognitiveHomeDir name) =
      [.stay, .down "home", .down user, .down name] := by
  rw [pathSteps_relative hc huser (isAbsolute_fileName hname), pathSteps_fileName hname]

theorem Ready.walk (hready : Ready g.files user name c) {t : FileTree Object String}
    (hgrows : FileTree.Grows c.tree t) {steps : List (PathStep String)} {follow : Bool}
    {links : Nat} :
    t.walk follow links [] (.stay :: .down "home" :: .down user :: .down name :: steps) =
      t.walk follow links ["home", user, name] steps := by
  have hstay : t.walk follow links []
      ([] ++ .stay :: .down "home" :: .down user :: .down name :: steps) =
      t.walk follow links [] (.down "home" :: .down user :: .down name :: steps) :=
    FileTree.walk_stay (List.cons_ne_nil _ _)
  rw [List.nil_append] at hstay
  rw [hstay, FileTree.walk_down (hgrows.node hready.home),
    FileTree.walk_down (hgrows.node hready.userDir), FileTree.walk_down (hgrows.node hready.dir)]
  rfl

/-- A mount that lands elsewhere. -/
theorem Ready.apply_of_apart (hready : Ready g.files user name c)
    (hapart : Apart cwd c m ["home", user, name]) : Ready g.files user name (c.apply cwd m) where
  kept := fun q x hx => store_apply (hready.kept q x hx)
  home := node_apply_of_apart (hapart.above ⟨[user, name], rfl⟩) hready.home
  userDir := node_apply_of_apart (hapart.above ⟨[name], rfl⟩) hready.userDir
  dir := node_apply_of_apart hapart hready.dir

theorem Ready.store_of_node (hready : Ready g.files user name c)
    (hq : c.host.node q = some .dir) : c.tree.store (.host q) = some .dir := by
  rw [FileTree.node] at hq
  by_cases hempty : q.isEmpty = true
  · rw [List.isEmpty_iff.1 hempty]
    exact hready.kept [] .dir rfl
  · rw [if_neg hempty] at hq
    exact hq

/-- A directory that is mounted on a directory is one. -/
theorem Ready.node_of_lands (hready : Ready g.files user name c) {place rest : List String}
    {f : List String → Object} (hlands : c.lands cwd m = some (place, f))
    (hplace : c.tree.node place = some .dir) (hhost : f rest = .host q) :
    (c.apply cwd m).tree.node place = some .dir := by
  obtain ⟨isDir, hshown, -, hkind⟩ := lands_elim hlands
  have hisDir : isDir = true := by
    rw [← hkind]
    exact decide_eq_true ((prepared_grows cwd c m).node hplace)
  subst hisDir
  have hview : (c.apply cwd m).tree.view (place ++ []) = f [] := view_apply_of_lands hlands
  rw [List.append_nil] at hview
  rw [FileTree.node]
  by_cases hempty : place.isEmpty = true
  · rw [if_pos hempty]
  · rw [if_neg hempty, hview]
    by_cases htype : m.type = "tmpfs"
    · -- a new file system shows no file of the host
      rw [source, if_pos htype] at hshown
      cases hshown
      cases hhost
    · rcases source_cases htype with
        hmissing | ⟨s, -, ⟨hsource, hnode⟩ | ⟨hsource, -⟩ | ⟨absolute, steps, hsource, -⟩⟩
      · rw [hmissing] at hshown
        cases hshown
      · rw [hsource] at hshown
        cases hshown
        show (c.apply cwd m).tree.store (.host (s ++ [])) = _
        rw [List.append_nil]
        exact store_apply (hready.store_of_node hnode)
      · rw [hsource] at hshown
        cases hshown
      · rw [hsource] at hshown
        cases hshown

/-- After such a mount everything is still in its place. -/
theorem Ready.apply_of_keeps (hready : Ready g.files user name c)
    (hdir : (hostTree g.files).node p = some .dir) (hkeeps : Keeps cwd user name p c m) :
    Ready g.files user name (c.apply cwd m) := by
  by_cases hapart : Apart cwd c m ["home", user, name]
  · exact hready.apply_of_apart hapart
  · obtain ⟨place, hlanded⟩ := not_forall.1 hapart
    obtain ⟨f, hlanded⟩ := not_forall.1 hlanded
    obtain ⟨hlands, hprefix⟩ := Classical.not_imp.1 hlanded
    obtain ⟨rest, hrest⟩ := not_not.1 hprefix
    obtain ⟨hbelow, hshows⟩ := hkeeps place f hlands rest hrest
    have hlength := hbelow.length_le
    refine ⟨fun q x hx => store_apply (hready.kept q x hx), ?_, ?_, ?_⟩
    · refine node_apply_of_apart (apart_of_lands hlands fun hhome => ?_) hready.home
      have hshort := hhome.length_le
      simp only [List.length_cons, List.length_nil] at hlength hshort
      omega
    · by_cases hplace : place <+: ["home", user]
      · -- on the home itself
        have hhome : place = ["home", user] := List.IsPrefix.eq_of_length hplace
          (Nat.le_antisymm hplace.length_le hlength)
        subst hhome
        exact hready.node_of_lands hlands hready.userDir hshows
      · exact node_apply_of_apart (apart_of_lands hlands hplace) hready.userDir
    · have hview : (c.apply cwd m).tree.view (place ++ rest) = f rest := view_apply_of_lands hlands
      rw [hrest, hshows] at hview
      show (c.apply cwd m).tree.store _ = _
      rw [hview]
      exact store_apply (hready.kept p _ hdir)

theorem view_apply_of_keeps (hkeeps : Keeps cwd user name p c m)
    (hview : c.tree.view ["home", user, name] = .host p) :
    (c.apply cwd m).tree.view ["home", user, name] = .host p := by
  rw [view_apply]
  cases hcovered : covered cwd ["home", user, name] c m with
  | none => exact hview
  | some o =>
    obtain ⟨place, f, rest, hlands, hrest, rfl⟩ := covered_eq_some_iff.1 hcovered
    exact (hkeeps place f hlands rest hrest.symm).2

/-- The mask lands at the directory. -/
theorem Ready.apply_mask (hready : Ready g.files user name c)
    (hc : h.cognitiveHomeDir = joinPath "/home" user) (huser : FileName user)
    (hname : FileName name)
    (hprivate : resolve (hostTree g.files) h.cwd true (joinPath h.privateAppDir name) = .ok p)
    (hdir : (hostTree g.files).node p = some .dir) :
    (c.apply h.cwd (mask h name)).tree.view ["home", user, name] = .host p := by
  have hgrows := prepared_grows h.cwd c (mask h name)
  have hshown : c.shown (c.source h.cwd (mask h name)) =
      some (true, fun rest => .host (p ++ rest)) := by
    rw [mask, shown_rbind hready.kept hprivate hdir]
    rfl
  have hwalk : (c.prepared h.cwd (mask h name)).walk true maxSymlinks []
      (pathSteps (mask h name).destination) = .ok ["home", user, name] := by
    have hsteps : pathSteps (mask h name).destination =
        [.stay, .down "home", .down user, .down name] := pathSteps_mask hc huser hname
    rw [hsteps, hready.walk hgrows, FileTree.walk_nil]
  -- the destination is found, so the mount lands there
  have hlands := lands_of_walk hshown hwalk (hgrows.node hready.dir)
  have happly : (c.apply h.cwd (mask h name)).tree.view (["home", user, name] ++ []) =
      .host (p ++ []) := view_apply_of_lands hlands
  rwa [List.append_nil, List.append_nil] at happly

/-- While the mounts keep the masks, everything stays in its place. -/
theorem Ready.run {I : Container → Prop} (hready : Ready g.files user name c) (hc : I c)
    {ms : List OciMount} (hdir : (hostTree g.files).node p = some .dir)
    (hI : ∀ c m, m ∈ ms → I c → I (c.apply cwd m))
    (hkeeps : ∀ c m, m ∈ ms → I c → Ready g.files user name c → Keeps cwd user name p c m) :
    I (applyAll cwd c ms) ∧ Ready g.files user name (applyAll cwd c ms) := by
  induction ms generalizing c with
  | nil => exact ⟨hc, hready⟩
  | cons m ms ih =>
    have hfirst := hkeeps c m List.mem_cons_self hc hready
    exact ih (hready.apply_of_keeps hdir hfirst) (hI c m List.mem_cons_self hc)
      (fun c m' hm' => hI c m' (List.mem_cons_of_mem _ hm'))
      fun c m' hm' => hkeeps c m' (List.mem_cons_of_mem _ hm')

/-- And once the mask was made it stays. -/
theorem Ready.run_mask {I : Container → Prop} (hready : Ready g.files user name c) (hc : I c)
    {ms : List OciMount} (hcognitive : h.cognitiveHomeDir = joinPath "/home" user)
    (huser : FileName user) (hname : FileName name)
    (hprivate : resolve (hostTree g.files) h.cwd true (joinPath h.privateAppDir name) = .ok p)
    (hdir : (hostTree g.files).node p = some .dir)
    (hI : ∀ c m, m ∈ ms → I c → I (c.apply h.cwd m))
    (hkeeps : ∀ c m, m ∈ ms → I c → Ready g.files user name c → Keeps h.cwd user name p c m)
    (hmask : c.tree.view ["home", user, name] = .host p ∨ mask h name ∈ ms) :
    (applyAll h.cwd c ms).tree.view ["home", user, name] = .host p := by
  induction ms generalizing c with
  | nil => exact hmask.resolve_right (by simp)
  | cons m ms ih =>
    have hfirst := hkeeps c m List.mem_cons_self hc hready
    refine ih (hready.apply_of_keeps hdir hfirst) (hI c m List.mem_cons_self hc)
      (fun c m' hm' => hI c m' (List.mem_cons_of_mem _ hm'))
      (fun c m' hm' => hkeeps c m' (List.mem_cons_of_mem _ hm')) ?_
    rcases hmask with hview | hmem
    · exact .inl (view_apply_of_keeps hfirst hview)
    · rcases List.mem_cons.1 hmem with rfl | hmem
      · exact .inl (hready.apply_mask hcognitive huser hname hprivate hdir)
      · exact .inr hmem

/-- The first mount shows an empty directory, in which the home is made. -/
theorem apply_homeTmpfs (hroot : rootfs ["home"] = none ∨ rootfs ["home"] = some .dir) :
    let c := (new g.files rootfs).apply cwd homeTmpfs
    (∀ q x, (hostTree g.files).node q = some x → c.tree.store (.host q) = some x) ∧
      c.tree.node ["home"] = some .dir ∧ c.tree.node ["home", user] = none := by
  intro c
  have hsteps : pathSteps homeTmpfs.destination = [] ++ [.stay, .down "home"] := by decide
  have hsource : (new g.files rootfs).source cwd homeTmpfs = .tmpfs := if_pos rfl
  -- the directory is there or is made; nothing is made in the new file system
  have hprepared : ((new g.files rootfs).prepared cwd homeTmpfs).node ["home"] = some .dir ∧
      ((new g.files rootfs).prepared cwd homeTmpfs).store (.tmpfs 0 [user]) = none := by
    rw [prepared, hsource, hsteps]
    show ((new g.files rootfs).tree.makeDirs maxSymlinks [] [.down "home"]).1.node _ = _ ∧
      ((new g.files rootfs).tree.makeDirs maxSymlinks [] [.down "home"]).1.store _ = _
    have hnode : (new g.files rootfs).tree.node ["home"] = rootfs ["home"] := rfl
    rw [← hnode] at hroot
    rcases hroot with hnone | hdir
    · rw [FileTree.makeDirs_missing rfl hnone]
      exact ⟨FileTree.node_make (by simp) .dir, rfl⟩
    · rw [FileTree.makeDirs_dir rfl hdir]
      exact ⟨hdir, rfl⟩
  have hlands : (new g.files rootfs).lands cwd homeTmpfs = some (["home"], .tmpfs 0) := by
    refine lands_of_walk rfl ?_ hprepared.1
    rw [hsteps, FileTree.walk_stay (List.cons_ne_nil _ _), List.nil_append,
      FileTree.walk_down hprepared.1, FileTree.walk_nil]
    rfl
  have hview : ∀ rest, c.tree.view (["home"] ++ rest) = .tmpfs 0 rest :=
    fun rest => view_apply_of_lands hlands
  refine ⟨fun q x hx => store_apply hx, ?_, ?_⟩
  · show c.tree.store (c.tree.view (["home"] ++ [])) = _
    rw [hview]
    exact store_apply rfl
  · show c.tree.store (c.tree.view (["home"] ++ [user])) = _
    rw [hview, apply_store]
    exact hprepared.2

/-- The second mount shows the home of the host there. -/
theorem apply_homeMount (hc : h.cognitiveHomeDir = joinPath "/home" user)
    (huser : FileName user)
    (hkept : ∀ q x, (hostTree g.files).node q = some x → c.tree.store (.host q) = some x)
    (hhome : c.tree.node ["home"] = some .dir) (hmissing : c.tree.node ["home", user] = none)
    (hq : HostDirectory g.files h name q) :
    Ready g.files user name (c.apply h.cwd (homeMount h)) := by
  obtain ⟨r, hr, hdir, hsub, -⟩ := hq
  have hgrows := prepared_grows h.cwd c (homeMount h)
  have hsource : c.source h.cwd (homeMount h) = .tree r true := shown_rbind hkept hr hdir
  have hsteps : pathSteps (homeMount h).destination = [] ++ [.stay, .down "home", .down user] :=
    pathSteps_cognitive hc huser
  -- the mount point is made first
  have hprepared : (c.prepared h.cwd (homeMount h)).node ["home", user] = some .dir := by
    rw [prepared, hsource, hsteps]
    show (c.tree.makeDirs maxSymlinks [] [.down "home", .down user]).1.node _ = _
    rw [FileTree.makeDirs_dir rfl hhome, FileTree.makeDirs_missing rfl hmissing]
    exact FileTree.node_make (by simp) .dir
  have hlands : c.lands h.cwd (homeMount h) =
      some (["home", user], fun rest => .host (r ++ rest)) := by
    refine lands_of_walk (by rw [hsource]; rfl) ?_ hprepared
    rw [hsteps, FileTree.walk_stay (List.cons_ne_nil _ _), List.nil_append,
      FileTree.walk_down (hgrows.node hhome)]
    show FileTree.walk _ true maxSymlinks ["home"] [.down user] = _
    rw [FileTree.walk_down hprepared, FileTree.walk_nil]
    rfl
  have hview : ∀ rest, (c.apply h.cwd (homeMount h)).tree.view (["home", user] ++ rest) =
      .host (r ++ rest) := fun rest => view_apply_of_lands hlands
  -- from there on everything is as it is on the host
  refine ⟨fun q x hx => store_apply (hkept q x hx), ?_, ?_, ?_⟩
  · exact node_apply_of_apart (apart_of_lands hlands (by simp)) hhome
  · show (c.apply h.cwd (homeMount h)).tree.store
      ((c.apply h.cwd (homeMount h)).tree.view (["home", user] ++ [])) = _
    rw [hview, List.append_nil]
    exact store_apply (hkept r _ hdir)
  · show (c.apply h.cwd (homeMount h)).tree.store
      ((c.apply h.cwd (homeMount h)).tree.view (["home", user] ++ [name])) = _
    rw [hview]
    exact store_apply (hkept _ _ hsub)

end Ready

end Generators

end Linglong
