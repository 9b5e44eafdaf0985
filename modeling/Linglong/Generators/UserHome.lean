import Mathlib.Data.List.Sort
import Mathlib.Data.List.Destutter
import Linglong.Framework.Effect
import Linglong.Generators.Container

/-! # The Generator of the User's Home

    `30-user-home` adds the mounts of the home directory to an OCI
    configuration. First it shows the whole home of the host and the XDG
    directories, then, for every disallowed directory, an empty directory of
    the application in its place (`blockDir`), and last the allowed
    directories again (`allowDir`).

    A run changes the files of the host, where it makes missing directories.
    It ends with a message if it does not exit with 0.

    1. Paths and files of the host.
    2. The steps of `main`.
    3. What a run adds (`Emits`).
    4. What the allowed directories add (`allowDirs_ok`).
-/

namespace Linglong

namespace Generators

open Framework

/-! ## Section 1: std::filesystem -/

/-- `path::operator/`. -/
def joinPath (a b : String) : String :=
  if isAbsolute b then b
  else if a = "" ∨ a.toList.getLast? = some '/' then a ++ b
  else a ++ "/" ++ b

/-- A real path as a string. -/
def placeString (p : List String) : String := "/" ++ "/".intercalate p

/-- How a path is written to a stream. -/
def quoted (s : String) : String :=
  let quote := Char.ofNat 34
  let escape := Char.ofNat 92
  let body := s.toList.flatMap fun c => if c = quote ∨ c = escape then [escape, c] else [c]
  String.ofList ([quote] ++ body ++ [quote])

/-- `strerror`. -/
def errnoMessage : Errno → String
  | .noent => "No such file or directory"
  | .notdir => "Not a directory"
  | .loop => "Too many levels of symbolic links"

/-- `exists(path, ec)`; an error other than a missing file is reported. -/
def fsExists (files : Files) (cwd : List String) (path : String) : Except Errno Bool :=
  match resolve (hostTree files) cwd true path with
  | .ok _ => .ok true
  | .error .noent | .error .notdir => .ok false
  | .error .loop => .error .loop

/-- `create_directories(path, ec)`. -/
def createDirectories (files : Files) (cwd : List String) (path : String) :
    Files × Except Errno Unit :=
  if path = "" then (files, .error .noent)
  else
    match (hostTree files).makeDirs maxSymlinks (if isAbsolute path then [] else cwd)
        (pathSteps path) with
    | (t, .ok _) => (t.store, .ok ())
    | (t, .error e) => (t.store, .error e)

/-! ## Section 2: main -/

/-- The environment of the generator. -/
structure Environment where
  home : Option String
  user : Option String
  xdgDataHome : Option String
  xdgConfigHome : Option String
  xdgCacheHome : Option String
  xdgStateHome : Option String
  cwd : List String

/-- The OCI configuration, as far as the generator looks at it. -/
structure Content where
  ociVersion : Option String
  appID : Option String
  mounts : List OciMount
  env : List String

structure UserDirectories where
  allowed : Option (List String)
  disallowed : Option (List String)

/-- `ApplicationAccessPrivileges`. -/
structure ApplicationAccessPrivileges where
  userDirectories : Option UserDirectories

/-- What a run has done: the files of the host, the mounts it has added and
    the variables of the container. -/
structure Output where
  files : Files
  mounts : List OciMount
  env : List String

/-- A part of the run; an error is what it writes before it exits with -1. -/
abbrev Generate := EStateM String Output

def rbind (destination source : String) : OciMount := ⟨destination, ["rbind"], source, "bind"⟩

/-- `mounts.push_back`. -/
def pushMount (m : OciMount) : Generate PUnit :=
  modify fun g => { g with mounts := g.mounts ++ [m] }

/-- The directories of the run: the home on the host, the home in the
    container and the private directory of the application. -/
structure Home where
  hostHomeDir : String
  cognitiveHomeDir : String
  privateAppDir : String
  cwd : List String

/-- `envExist`. -/
def envExist (key : String) (env : List String) : Bool :=
  env.any fun item => (key ++ "=").toList.isPrefixOf item.toList

/-- A variable is added unless there is one. -/
def addEnv (key value : String) : Generate PUnit := do
  let g ← get
  if envExist key g.env then throw (key ++ " already exist.")
  else set { g with env := g.env ++ [key ++ "=" ++ value] }

/-- `mountDir`. -/
def mountDir (cwd : List String) (hostDir containerDir : String) : Generate PUnit := do
  let g ← get
  match fsExists g.files cwd hostDir with
  | .error e =>
      throw ("failed to get state of directories " ++ hostDir ++ ":" ++ errnoMessage e)
  | .ok true => pushMount (rbind containerDir hostDir)
  | .ok false =>
      set { g with files := (createDirectories g.files cwd hostDir).1 }
      match (createDirectories g.files cwd hostDir).2 with
      | .error e =>
          throw ("failed to create directories " ++ hostDir ++ ":" ++ errnoMessage e)
      | .ok () => pushMount (rbind containerDir hostDir)

/-- The value of a variable, or the default if it is not set or empty. -/
def xdgHome (ptr : Option String) (default : String) : String :=
  match ptr with
  | some s => if s = "" then default else s
  | none => default

/-- An XDG directory and its variable. -/
def exposeXdg (cwd : List String) (hostDir containerDir key : String) : Generate PUnit := do
  mountDir cwd hostDir containerDir
  addEnv key containerDir

/-- A private directory of the application takes the place of an XDG
    directory, if it exists. -/
def preferPrivate (cwd : List String) (privateDir xdg : String) : Generate String := do
  let g ← get
  pure (if fsExists g.files cwd privateDir = .ok true then privateDir else xdg)

/-- A directory that is shown if it exists. -/
def mountIfExists (cwd : List String) (hostDir containerDir : String) : Generate PUnit := do
  let g ← get
  if fsExists g.files cwd hostDir = .ok true then mountDir cwd hostDir containerDir
  else pure ⟨⟩

/-- A file that is shown if it exists. -/
def bindIfExists (cwd : List String) (host : String) (m : OciMount) : Generate PUnit := do
  let g ← get
  if fsExists g.files cwd host = .ok true then pushMount m else pure ⟨⟩

/-- `blackList`. -/
def blackList : List String := [".gnupg", ".ssh"]

/-- `std::sort`, and `std::unique` on the result. -/
def sortUnique (l : List String) : List String :=
  (l.insertionSort fun a b => a ≤ b).destutter (· ≠ ·)

/-- The loop body of the blocklist. -/
def blockDir (h : Home) (relative : String) : Generate PUnit := do
  if relative = "" ∨ isAbsolute relative = true then throw ("invalid path:" ++ quoted relative)
  else
    let g ← get
    let hostLocation := joinPath h.hostHomeDir relative
    match fsExists g.files h.cwd hostLocation with
    | .error e => throw ("failed to get state of " ++ quoted hostLocation ++ ": " ++ errnoMessage e)
    | .ok false => pure ⟨⟩
    | .ok true =>
        mountDir h.cwd (joinPath h.privateAppDir relative) (joinPath h.cognitiveHomeDir relative)

/-- An allowed link: it is copied if it leads into the home. -/
def allowLink (h : Home) (hostLocation : String) : Generate PUnit := do
  let g ← get
  match resolve (hostTree g.files) h.cwd true hostLocation with
  | .error e => throw ("failed to resolve symlink " ++ quoted hostLocation ++ ": " ++ errnoMessage e)
  | .ok resolved =>
      let realHostLocation := placeString resolved
      match fsExists g.files h.cwd realHostLocation with
      | .error e =>
          throw ("failed to get state of " ++ quoted realHostLocation ++ ": " ++ errnoMessage e)
      | .ok false => pure ⟨⟩
      | .ok true =>
          if ¬ h.hostHomeDir.toList <+: realHostLocation.toList then
            throw ("real host directory doesn't in user's home:" ++ quoted realHostLocation)
          else pushMount ⟨hostLocation, ["rbind", "copy-symlink"], hostLocation, "bind"⟩

/-- The loop body of the whitelist. -/
def allowDir (h : Home) (relative : String) : Generate PUnit := do
  if relative = "" ∨ isAbsolute relative = true then throw ("invalid path:" ++ quoted relative)
  else if relative ∈ blackList then pure ⟨⟩
  else
    let g ← get
    let hostLocation := joinPath h.hostHomeDir relative
    match resolve (hostTree g.files) h.cwd false hostLocation with
    | .error .noent => pure ⟨⟩
    | .error e => throw ("failed to get file type of" ++ quoted hostLocation ++ ": " ++ errnoMessage e)
    | .ok p =>
        match (hostTree g.files).node p with
        | some (.link _ _) => allowLink h hostLocation
        | _ => mountDir h.cwd hostLocation (joinPath h.cognitiveHomeDir relative)

/-- The XDG directories, and what is shown of them again. -/
def exposeXdgDirs (e : Environment) (h : Home) : Generate PUnit := do
  exposeXdg h.cwd (xdgHome e.xdgDataHome (joinPath (joinPath h.hostHomeDir ".local") "share"))
    (joinPath (joinPath h.cognitiveHomeDir ".local") "share") "XDG_DATA_HOME"
  let config ← preferPrivate h.cwd (joinPath h.privateAppDir "config")
    (xdgHome e.xdgConfigHome (joinPath h.hostHomeDir ".config"))
  let cognitiveConfigHome := joinPath h.cognitiveHomeDir ".config"
  exposeXdg h.cwd config cognitiveConfigHome "XDG_CONFIG_HOME"
  let cache ← preferPrivate h.cwd (joinPath h.privateAppDir "cache")
    (xdgHome e.xdgCacheHome (joinPath h.hostHomeDir ".cache"))
  let cognitiveCacheHome := joinPath h.cognitiveHomeDir ".cache"
  exposeXdg h.cwd cache cognitiveCacheHome "XDG_CACHE_HOME"
  -- the private directory is that of the configuration here, too
  let state ← preferPrivate h.cwd (joinPath h.privateAppDir "config")
    (xdgHome e.xdgStateHome (joinPath (joinPath h.hostHomeDir ".local") "state"))
  exposeXdg h.cwd state (joinPath (joinPath h.cognitiveHomeDir ".local") "state") "XDG_STATE_HOME"
  mountIfExists h.cwd (joinPath (joinPath config "systemd") "user")
    (joinPath (joinPath cognitiveConfigHome "systemd") "user")
  mountIfExists h.cwd (joinPath config "dconf") (joinPath cognitiveConfigHome "dconf")
  mountIfExists h.cwd (joinPath (joinPath cache "deepin") "dde-api")
    (joinPath (joinPath cognitiveCacheHome "deepin") "dde-api")
  let userDirs := joinPath config "user-dirs.dirs"
  bindIfExists h.cwd userDirs (rbind (joinPath cognitiveConfigHome "user-dirs.dirs") userDirs)
  let userLocale := joinPath config "user-dirs.locale"
  bindIfExists h.cwd userLocale
    (rbind (joinPath cognitiveConfigHome "user-dirs.locale") userLocale)

/-- The file of the default `.bashrc`. -/
def defaultBashrc : String := "/etc/skel/.bashrc"

/-- The privileges of the application. `permissions` is what reading and
    parsing the file `permissions.json` gives, if it exists. -/
def readPrivileges (h : Home) (permissions : Except String ApplicationAccessPrivileges) :
    Generate ApplicationAccessPrivileges := do
  let g ← get
  let config := joinPath h.privateAppDir "permissions.json"
  match fsExists g.files h.cwd config with
  | .error e => throw ("failed to get status of " ++ config ++ ": " ++ errnoMessage e)
  | .ok false => pure ⟨none⟩
  | .ok true =>
      match permissions with
      | .error message => throw message
      | .ok privileges => pure privileges

/-- What is mounted after the home and before the lists are looked at. -/
def exposePrivate (e : Environment) (h : Home) : Generate PUnit := do
  addEnv "HOME" h.cognitiveHomeDir
  let g ← get
  set { g with files := (createDirectories g.files h.cwd h.privateAppDir).1 }
  match (createDirectories g.files h.cwd h.privateAppDir).2 with
  | .error err => throw ("failed to create " ++ quoted h.privateAppDir ++ ": " ++ errnoMessage err)
  | .ok () =>
      exposeXdgDirs e h
      bindIfExists h.cwd defaultBashrc
        ⟨joinPath h.hostHomeDir ".bashrc", ["ro", "rbind"], defaultBashrc, "bind"⟩
      mountDir h.cwd (joinPath (joinPath h.hostHomeDir ".linglong") "data")
        (joinPath h.cognitiveHomeDir ".linglong")

/-- The directory all homes are in. -/
def homeTmpfs : OciMount := ⟨"/home", ["nodev", "nosuid", "mode=700"], "tmpfs", "tmpfs"⟩

/-- The lists that are gone through. -/
def disallowedDirs (p : ApplicationAccessPrivileges) : List String :=
  sortUnique (((p.userDirectories.bind UserDirectories.disallowed).getD []) ++ blackList)

def allowedDirs (p : ApplicationAccessPrivileges) : List String :=
  sortUnique ((p.userDirectories.bind UserDirectories.allowed).getD [])

/-- `main`, once the directories are known. -/
def mountHome (e : Environment) (h : Home)
    (permissions : Except String ApplicationAccessPrivileges) : Generate PUnit := do
  pushMount homeTmpfs
  mountDir h.cwd h.hostHomeDir h.cognitiveHomeDir
  exposePrivate e h
  let privileges ← readPrivileges h permissions
  (disallowedDirs privileges).forM (blockDir h)
  (allowedDirs privileges).forM (allowDir h)

/-- The directories of a user. -/
def homeOf (e : Environment) (home user appID : String) : Home where
  hostHomeDir := home
  cognitiveHomeDir := joinPath "/home" user
  privateAppDir := joinPath (joinPath home ".linglong") appID
  cwd := e.cwd

/-- `main`; `content` is what parsing the standard input gives. The result
    is what it prints. -/
def main (e : Environment) (content : Except String Content)
    (permissions : Except String ApplicationAccessPrivileges) : Generate Content := do
  match content with
  | .error what => throw what
  | .ok content =>
      if content.ociVersion.isNone then throw "key 'ociVersion' not found"
      else if content.ociVersion ≠ some "1.0.1" then throw "OCI version mismatched."
      else
        match content.appID, e.home, e.user with
        | none, _, _ => throw "key 'org.deepin.linglong.appID' not found"
        | some _, none, _ | some _, some _, none => throw "Couldn't get HOME or USER from env."
        | some appID, some home, some user =>
            let g ← get
            if fsExists g.files e.cwd home ≠ .ok true then
              throw ("Home " ++ quoted home ++ "doesn't exists.")
            else
              set { g with mounts := [], env := content.env }
              mountHome e (homeOf e home user appID) permissions
              let g ← get
              pure { content with mounts := content.mounts ++ g.mounts, env := g.env }

/-! ## Section 3: What a run adds -/

/-- The mount of the whole home. -/
def homeMount (h : Home) : OciMount := rbind h.cognitiveHomeDir h.hostHomeDir

/-- The mount of a private directory over a directory of the home. -/
def mask (h : Home) (relative : String) : OciMount :=
  rbind (joinPath h.cognitiveHomeDir relative) (joinPath h.privateAppDir relative)

/-- The mount of an allowed directory. -/
def unmask (h : Home) (relative : String) : OciMount :=
  rbind (joinPath h.cognitiveHomeDir relative) (joinPath h.hostHomeDir relative)

/-- The directories that may be those of the configuration. -/
def configHomes (e : Environment) (h : Home) : List String :=
  [joinPath h.privateAppDir "config", xdgHome e.xdgConfigHome (joinPath h.hostHomeDir ".config")]

def cacheHomes (e : Environment) (h : Home) : List String :=
  [joinPath h.privateAppDir "cache", xdgHome e.xdgCacheHome (joinPath h.hostHomeDir ".cache")]

def stateHomes (e : Environment) (h : Home) : List String :=
  [joinPath h.privateAppDir "config",
    xdgHome e.xdgStateHome (joinPath (joinPath h.hostHomeDir ".local") "state")]

/-- The mounts for the directory of the configuration. -/
def configMounts (h : Home) (config : String) : List OciMount :=
  let cognitiveConfigHome := joinPath h.cognitiveHomeDir ".config"
  [rbind cognitiveConfigHome config,
    rbind (joinPath (joinPath cognitiveConfigHome "systemd") "user")
      (joinPath (joinPath config "systemd") "user"),
    rbind (joinPath cognitiveConfigHome "dconf") (joinPath config "dconf"),
    rbind (joinPath cognitiveConfigHome "user-dirs.dirs") (joinPath config "user-dirs.dirs"),
    rbind (joinPath cognitiveConfigHome "user-dirs.locale") (joinPath config "user-dirs.locale")]

def cacheMounts (h : Home) (cache : String) : List OciMount :=
  let cognitiveCacheHome := joinPath h.cognitiveHomeDir ".cache"
  [rbind cognitiveCacheHome cache,
    rbind (joinPath (joinPath cognitiveCacheHome "deepin") "dde-api")
      (joinPath (joinPath cache "deepin") "dde-api")]

/-- The mounts that do not depend on the lists; not all of them are made. -/
def fixedMounts (e : Environment) (h : Home) : List OciMount :=
  rbind (joinPath (joinPath h.cognitiveHomeDir ".local") "share")
      (xdgHome e.xdgDataHome (joinPath (joinPath h.hostHomeDir ".local") "share")) ::
    (configHomes e h).flatMap (configMounts h) ++ (cacheHomes e h).flatMap (cacheMounts h) ++
    (stateHomes e h).map (rbind (joinPath (joinPath h.cognitiveHomeDir ".local") "state")) ++
    [⟨joinPath h.hostHomeDir ".bashrc", ["ro", "rbind"], defaultBashrc, "bind"⟩,
      rbind (joinPath h.cognitiveHomeDir ".linglong")
        (joinPath (joinPath h.hostHomeDir ".linglong") "data")]

/-- Directories are made and mounts of one kind are added, and nothing else. -/
def Emits (P : OciMount → Prop) (g g' : Output) : Prop :=
  (∃ ms, g'.mounts = g.mounts ++ ms ∧ ∀ m ∈ ms, P m) ∧
    FileTree.Builds (hostTree g.files) (hostTree g'.files)

section Emits

variable {P : OciMount → Prop}

instance : Std.Refl (Emits P) := ⟨fun _ => ⟨⟨[], by simp⟩, .refl _⟩⟩

instance : IsTrans Output (Emits P) where
  trans := by
    rintro g g' g'' ⟨⟨ms, hms, hP⟩, hbuilds⟩ ⟨⟨ms', hms', hP'⟩, hbuilds'⟩
    refine ⟨⟨ms ++ ms', ?_, ?_⟩, hbuilds.trans hbuilds'⟩
    · rw [hms', hms, List.append_assoc]
    · intro m hm
      exact (List.mem_append.1 hm).elim (hP m) (hP' m)

theorem createDirectories_builds (files : Files) (cwd : List String) (path : String) :
    FileTree.Builds (hostTree files) (hostTree (createDirectories files cwd path).1) := by
  rw [createDirectories]
  by_cases hempty : path = ""
  · rw [if_pos hempty]
    exact .refl _
  · rw [if_neg hempty]
    have hbuilds := FileTree.makeDirs_builds maxSymlinks (hostTree files)
      (if isAbsolute path then [] else cwd) (pathSteps path)
    cases hmake : (hostTree files).makeDirs maxSymlinks (if isAbsolute path then [] else cwd)
        (pathSteps path) with
    | mk t result =>
      rw [hmake] at hbuilds
      cases result with
      | ok _ => exact ⟨⟨rfl, hbuilds.store⟩, hbuilds.links⟩
      | error _ => exact ⟨⟨rfl, hbuilds.store⟩, hbuilds.links⟩

theorem emits_throw {α : Type} (message : String) :
    Within (Emits P) (throw message : Generate α) :=
  fun s => refl_of (Emits P) s

theorem emits_pushMount {m : OciMount} (hm : P m) : Within (Emits P) (pushMount m) :=
  fun _ => ⟨⟨[m], rfl, fun _ hmem => List.mem_singleton.1 hmem ▸ hm⟩, .refl _⟩

theorem emits_files {files : Output → Files}
    (h : ∀ g : Output, FileTree.Builds (hostTree g.files) (hostTree (files g))) (g : Output) :
    Emits P g (after (set { g with files := files g } : Generate PUnit) g) :=
  ⟨⟨[], (List.append_nil _).symm, by simp⟩, h g⟩

/-- To relate a step that first looks at the state. -/
theorem emits_get_bind {α : Type} {f : Output → Generate α}
    (h : ∀ g, Emits P g (after (f g) g)) : Within (Emits P) (get >>= f) := h

theorem emits_addEnv (key value : String) : Within (Emits P) (addEnv key value) := by
  refine emits_get_bind fun g => ?_
  by_cases hexist : envExist key g.env = true
  · rw [if_pos hexist]
    exact emits_throw _ g
  · rw [if_neg hexist]
    exact ⟨⟨[], (List.append_nil _).symm, by simp⟩, .refl _⟩

theorem emits_mountDir {cwd : List String} {hostDir containerDir : String}
    (hm : P (rbind containerDir hostDir)) :
    Within (Emits P) (mountDir cwd hostDir containerDir) := by
  refine emits_get_bind fun g => ?_
  cases fsExists g.files cwd hostDir with
  | error e => exact emits_throw _ g
  | ok there =>
    cases there with
    | true => exact emits_pushMount hm g
    | false =>
      refine rel_bind (emits_files (fun g => createDirectories_builds g.files cwd hostDir) g)
        fun _ g' hset => ?_
      cases (createDirectories g.files cwd hostDir).2 with
      | error e => exact emits_throw _ g'
      | ok made => exact emits_pushMount hm g'

theorem emits_exposeXdg {cwd : List String} {hostDir containerDir : String}
    (hm : P (rbind containerDir hostDir)) (key : String) :
    Within (Emits P) (exposeXdg cwd hostDir containerDir key) :=
  within_bind (emits_mountDir hm) fun _ => emits_addEnv _ _

/-- One of the two directories is taken. -/
theorem emits_preferPrivate_bind {α : Type} {cwd : List String} {privateDir xdg : String}
    {f : String → Generate α} (h : ∀ dir ∈ [privateDir, xdg], Within (Emits P) (f dir)) :
    Within (Emits P) (preferPrivate cwd privateDir xdg >>= f) := by
  rw [preferPrivate, bind_assoc]
  refine emits_get_bind fun g => ?_
  rw [pure_bind]
  by_cases hexists : fsExists g.files cwd privateDir = .ok true
  · rw [if_pos hexists]
    exact h privateDir List.mem_cons_self g
  · rw [if_neg hexists]
    exact h xdg (List.mem_cons_of_mem _ List.mem_cons_self) g

theorem emits_mountIfExists {cwd : List String} {hostDir containerDir : String}
    (hm : P (rbind containerDir hostDir)) :
    Within (Emits P) (mountIfExists cwd hostDir containerDir) :=
  within_bind within_get fun _ =>
    within_ite (fun _ => emits_mountDir hm) fun _ => within_pure _

theorem emits_bindIfExists {cwd : List String} {host : String} {m : OciMount} (hm : P m) :
    Within (Emits P) (bindIfExists cwd host m) :=
  within_bind within_get fun _ =>
    within_ite (fun _ => emits_pushMount hm) fun _ => within_pure _

theorem emits_exposeXdgDirs {e : Environment} {h : Home} (hP : ∀ m ∈ fixedMounts e h, P m) :
    Within (Emits P) (exposeXdgDirs e h) := by
  rw [fixedMounts, List.forall_mem_append, List.forall_mem_append, List.forall_mem_append,
    List.forall_mem_cons] at hP
  obtain ⟨⟨⟨⟨hdata, hconfigs⟩, hcaches⟩, hstates⟩, -⟩ := hP
  refine within_bind (emits_exposeXdg hdata _) fun _ => ?_
  refine emits_preferPrivate_bind fun config hconfig => ?_
  have hconfig' : ∀ m ∈ configMounts h config, P m :=
    fun m hm => hconfigs m (List.mem_flatMap.2 ⟨config, hconfig, hm⟩)
  rw [configMounts] at hconfig'
  simp only [List.forall_mem_cons] at hconfig'
  obtain ⟨hhome, hsystemd, hdconf, huserDirs, huserLocale, -⟩ := hconfig'
  refine within_bind (emits_exposeXdg hhome _) fun _ => ?_
  refine emits_preferPrivate_bind fun cache hcache => ?_
  have hcache' : ∀ m ∈ cacheMounts h cache, P m :=
    fun m hm => hcaches m (List.mem_flatMap.2 ⟨cache, hcache, hm⟩)
  rw [cacheMounts] at hcache'
  simp only [List.forall_mem_cons] at hcache'
  obtain ⟨hcacheHome, hddeApi, -⟩ := hcache'
  refine within_bind (emits_exposeXdg hcacheHome _) fun _ => ?_
  refine emits_preferPrivate_bind fun state hstate => ?_
  refine within_bind (emits_exposeXdg (hstates _ (List.mem_map_of_mem hstate)) _) fun _ => ?_
  refine within_bind (emits_mountIfExists hsystemd) fun _ => ?_
  refine within_bind (emits_mountIfExists hdconf) fun _ => ?_
  refine within_bind (emits_mountIfExists hddeApi) fun _ => ?_
  exact within_bind (emits_bindIfExists huserDirs) fun _ => emits_bindIfExists huserLocale

theorem emits_exposePrivate {e : Environment} {h : Home} (hP : ∀ m ∈ fixedMounts e h, P m) :
    Within (Emits P) (exposePrivate e h) := by
  have hxdg := emits_exposeXdgDirs hP
  rw [fixedMounts, List.forall_mem_append] at hP
  simp only [List.forall_mem_cons] at hP
  obtain ⟨-, hbashrc, hlinglong, -⟩ := hP
  refine within_bind (emits_addEnv _ _) fun _ => emits_get_bind fun g => ?_
  refine rel_bind (emits_files (fun g => createDirectories_builds g.files h.cwd h.privateAppDir) g)
    fun _ g' hset => ?_
  cases (createDirectories g.files h.cwd h.privateAppDir).2 with
  | error err => exact emits_throw _ g'
  | ok made =>
    exact within_bind hxdg (fun _ =>
      within_bind (emits_bindIfExists hbashrc) fun _ => emits_mountDir hlinglong) g'

/-- Reading the privileges changes nothing. -/
theorem readPrivileges_ok {h : Home} {permissions : Except String ApplicationAccessPrivileges}
    {privileges : ApplicationAccessPrivileges} {g g' : Output}
    (hrun : readPrivileges h permissions g = .ok privileges g') : g' = g ∧
      ((fsExists g.files h.cwd (joinPath h.privateAppDir "permissions.json") = .ok true ∧
          permissions = .ok privileges) ∨
        (fsExists g.files h.cwd (joinPath h.privateAppDir "permissions.json") = .ok false ∧
          privileges = ⟨none⟩)) := by
  unfold readPrivileges at hrun
  rw [bind_of_ok (get_run g)] at hrun
  cases hthere : fsExists g.files h.cwd (joinPath h.privateAppDir "permissions.json") with
  | error e =>
    rw [hthere] at hrun
    cases hrun
  | ok there =>
    rw [hthere] at hrun
    cases there with
    | false =>
      cases hrun
      exact ⟨rfl, .inr ⟨rfl, rfl⟩⟩
    | true =>
      cases permissions with
      | error message => cases hrun
      | ok privileges' =>
        cases hrun
        exact ⟨rfl, .inl ⟨rfl, rfl⟩⟩

theorem emits_blockDir {h : Home} {relative : String} (hm : P (mask h relative)) :
    Within (Emits P) (blockDir h relative) := by
  refine within_ite (fun _ => emits_throw _) fun _ => emits_get_bind fun g => ?_
  dsimp only
  cases fsExists g.files h.cwd (joinPath h.hostHomeDir relative) with
  | error e => exact emits_throw _ g
  | ok there =>
    cases there with
    | false => exact within_pure _ g
    | true => exact emits_mountDir hm g

/-- `mountDir` adds one mount. -/
theorem mountDir_ok {cwd : List String} {hostDir containerDir : String} {g g' : Output}
    (hrun : mountDir cwd hostDir containerDir g = .ok ⟨⟩ g') :
    g'.mounts = g.mounts ++ [rbind containerDir hostDir] := by
  have hbody := hrun
  rw [mountDir, bind_of_ok (get_run g)] at hbody
  cases hthere : fsExists g.files cwd hostDir with
  | error e =>
    rw [hthere] at hbody
    cases hbody
  | ok there =>
    rw [hthere] at hbody
    cases there with
    | true =>
      cases hbody
      rfl
    | false =>
      obtain ⟨_, g₁, hset, hmade⟩ := bind_ok_iff.1 hbody
      cases hset
      cases hresult : (createDirectories g.files cwd hostDir).2 with
      | error e =>
        rw [hresult] at hmade
        cases hmade
      | ok made =>
        rw [hresult] at hmade
        cases hmade
        rfl

/-- A directory that is there is not made. -/
theorem mountDir_of_exists {cwd : List String} {hostDir containerDir : String} {g : Output}
    (hexists : fsExists g.files cwd hostDir = .ok true) :
    mountDir cwd hostDir containerDir g =
      .ok ⟨⟩ { g with mounts := g.mounts ++ [rbind containerDir hostDir] } := by
  rw [mountDir, bind_of_ok (get_run g), hexists]
  rfl

end Emits

/-! ## Section 4: The allowed directories -/

/-- The mount that an allowed directory gets. -/
def allowMount (files : Files) (h : Home) (relative : String) : Option OciMount :=
  let hostLocation := joinPath h.hostHomeDir relative
  if relative ∈ blackList then none
  else
    match resolve (hostTree files) h.cwd false hostLocation with
    | .error _ => none
    | .ok p =>
        match (hostTree files).node p with
        | some (.link _ _) =>
            match resolve (hostTree files) h.cwd true hostLocation with
            | .error _ => none
            | .ok resolved =>
                if fsExists files h.cwd (placeString resolved) = .ok true then
                  some ⟨hostLocation, ["rbind", "copy-symlink"], hostLocation, "bind"⟩
                else none
        | _ => some (unmask h relative)

section Allowed

variable {h : Home} {relative : String} {g g' : Output}

theorem resolve_unfollowed {t : FileTree (List String) String} {cwd p : List String}
    {path : String} (hp : ¬ t.LinkAt p) (h : resolve t cwd false path = .ok p) :
    resolve t cwd true path = .ok p := by
  rw [resolve] at h ⊢
  by_cases hempty : path = ""
  · rw [if_pos hempty] at h
    cases h
  · rw [if_neg hempty] at h ⊢
    exact FileTree.walk_unfollowed hp h

theorem allowLink_ok (hrun : allowLink h (joinPath h.hostHomeDir relative) g = .ok ⟨⟩ g') :
    ∃ resolved, resolve (hostTree g.files) h.cwd true (joinPath h.hostHomeDir relative) =
        .ok resolved ∧
      g' = { g with mounts := g.mounts ++
        (if fsExists g.files h.cwd (placeString resolved) = .ok true then
          [⟨joinPath h.hostHomeDir relative, ["rbind", "copy-symlink"],
            joinPath h.hostHomeDir relative, "bind"⟩] else []) } := by
  rw [allowLink, bind_of_ok (get_run g)] at hrun
  cases hresolve : resolve (hostTree g.files) h.cwd true (joinPath h.hostHomeDir relative) with
  | error e =>
    rw [hresolve] at hrun
    cases hrun
  | ok resolved =>
    rw [hresolve] at hrun
    dsimp only at hrun
    refine ⟨resolved, rfl, ?_⟩
    cases hexists : fsExists g.files h.cwd (placeString resolved) with
    | error e =>
      rw [hexists] at hrun
      cases hrun
    | ok there =>
      rw [hexists] at hrun
      cases there with
      | false =>
        cases hrun
        simp
      | true =>
        dsimp only at hrun
        by_cases hinside : ¬ h.hostHomeDir.toList <+: (placeString resolved).toList
        · rw [if_pos hinside] at hrun
          cases hrun
        · rw [if_neg hinside] at hrun
          cases hrun
          simp

/-- An allowed directory adds its mount, and makes no directories. -/
theorem allowDir_ok (hrun : allowDir h relative g = .ok ⟨⟩ g') :
    g' = { g with mounts := g.mounts ++ (allowMount g.files h relative).toList } := by
  rw [allowDir] at hrun
  by_cases hinvalid : relative = "" ∨ isAbsolute relative = true
  · rw [if_pos hinvalid] at hrun
    cases hrun
  · rw [if_neg hinvalid] at hrun
    rw [allowMount]
    by_cases hblack : relative ∈ blackList
    · rw [if_pos hblack] at hrun ⊢
      cases hrun
      simp
    · rw [if_neg hblack] at hrun ⊢
      rw [bind_of_ok (get_run g)] at hrun
      cases hresolve : resolve (hostTree g.files) h.cwd false (joinPath h.hostHomeDir relative) with
      | error e =>
        rw [hresolve] at hrun
        cases e with
        | noent =>
          cases hrun
          simp
        | notdir => cases hrun
        | loop => cases hrun
      | ok p =>
        rw [hresolve] at hrun
        dsimp only at hrun ⊢
        by_cases hlink : (hostTree g.files).LinkAt p
        · obtain ⟨absolute, steps, hnode⟩ := hlink
          rw [hnode] at hrun ⊢
          obtain ⟨resolved, hresolved, hg'⟩ := allowLink_ok hrun
          dsimp only
          rw [hg', hresolved]
          dsimp only
          by_cases hexists : fsExists g.files h.cwd (placeString resolved) = .ok true
          · rw [if_pos hexists, if_pos hexists]
            rfl
          · rw [if_neg hexists, if_neg hexists]
            rfl
        · -- not a link: it is there, so nothing has to be made
          have hexists : fsExists g.files h.cwd (joinPath h.hostHomeDir relative) = .ok true := by
            rw [fsExists, resolve_unfollowed hlink hresolve]
          have hmount :=
            @mountDir_of_exists h.cwd _ (joinPath h.cognitiveHomeDir relative) g hexists
          cases hnode : (hostTree g.files).node p with
          | none =>
            rw [hnode] at hrun
            exact (EStateM.Result.ok.inj (hrun.symm.trans hmount)).2
          | some x =>
            rw [hnode] at hrun
            cases x with
            | dir => exact (EStateM.Result.ok.inj (hrun.symm.trans hmount)).2
            | file => exact (EStateM.Result.ok.inj (hrun.symm.trans hmount)).2
            | link absolute steps => exact absurd ⟨absolute, steps, hnode⟩ hlink

/-- **The allowed directories**, one after the other. -/
theorem allowDirs_ok {l : List String} (hrun : l.forM (allowDir h) g = .ok ⟨⟩ g') :
    g' = { g with mounts := g.mounts ++ l.filterMap (allowMount g.files h) } := by
  induction l generalizing g with
  | nil =>
    cases hrun
    simp
  | cons relative l ih =>
    obtain ⟨_, g₁, hfirst, hrest⟩ := bind_ok_iff.1 hrun
    have hg₁ := allowDir_ok hfirst
    have hmounts : (allowMount g.files h relative).toList ++ l.filterMap (allowMount g.files h) =
        (relative :: l).filterMap (allowMount g.files h) := by
      rw [List.filterMap_cons]
      cases allowMount g.files h relative with
      | none => exact List.nil_append _
      | some m => rfl
    rw [ih hrest, hg₁]
    dsimp only
    rw [List.append_assoc, hmounts]

/-- If no entry ends the run, none of them is absolute. -/
theorem isAbsolute_of_allowDirs {l : List String} (hrun : l.forM (allowDir h) g = .ok ⟨⟩ g')
    (hmem : relative ∈ l) : isAbsolute relative = false := by
  induction l generalizing g with
  | nil => cases hmem
  | cons first l ih =>
    obtain ⟨_, g₁, hfirst, hrest⟩ := bind_ok_iff.1 hrun
    rcases List.mem_cons.1 hmem with rfl | hmem
    · rw [allowDir] at hfirst
      by_cases hinvalid : relative = "" ∨ isAbsolute relative = true
      · rw [if_pos hinvalid] at hfirst
        cases hfirst
      · exact Bool.eq_false_iff.2 (not_or.1 hinvalid).2
    · exact ih hrest hmem

end Allowed

section Lists

theorem mem_destutter' {a b : String} {l : List String} (h : a ∈ b :: l) :
    a ∈ l.destutter' (· ≠ ·) b := by
  induction l generalizing b with
  | nil => exact h
  | cons c l ih =>
    rw [List.destutter'_cons]
    by_cases hbc : b ≠ c
    · rw [if_pos hbc]
      rcases List.mem_cons.1 h with rfl | h
      · exact List.mem_cons_self
      · exact List.mem_cons_of_mem _ (ih h)
    · rw [if_neg hbc]
      obtain rfl := not_not.1 hbc
      rcases List.mem_cons.1 h with rfl | h
      · exact ih List.mem_cons_self
      · exact ih h

theorem mem_sortUnique {a : String} {l : List String} (h : a ∈ l) : a ∈ sortUnique l := by
  have hsorted : a ∈ l.insertionSort fun a b => a ≤ b := (List.mem_insertionSort _).2 h
  rw [sortUnique]
  cases hl : l.insertionSort fun a b => a ≤ b with
  | nil =>
    rw [hl] at hsorted
    cases hsorted
  | cons b l' =>
    rw [hl] at hsorted
    exact mem_destutter' hsorted

theorem mem_disallowedDirs {name : String} (p : ApplicationAccessPrivileges)
    (h : name ∈ blackList) : name ∈ disallowedDirs p :=
  mem_sortUnique (List.mem_append_right _ h)

end Lists

end Generators

end Linglong
