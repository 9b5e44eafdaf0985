import Linglong.Framework.Machine
import Linglong.Repo.LoadConfig

/-! # Requests to Change the Configuration

    `ll-cli repo` reads the configuration of the package manager, changes its
    copy and writes it back as a D-Bus property; other clients write the same
    property. The setter asks whether the default repository is still in the
    list, and so does `saveConfig` before it opens `config.yaml`.

    Opening the file empties it. What is written afterwards is not checked,
    and `setConfig` puts the file back only if a later step fails.

    1. The commands of the client.
    2. The setter.
    3. The system.
    4. The default repository stays in the list (`keepsDefault`).
    5. The setter of the repository (`setConfig_agrees`).
-/

namespace Linglong.ConfigRequests

open Framework LoadConfig

/-! ## Section 1: The commands of the client -/

/-- The subcommands of `ll-cli repo` that change the configuration. -/
inductive Command where
  | add (name url : String)
  | remove (name : String)
  | update (name url : String)
  | setDefault (name : String)
  deriving DecidableEq

/-- The status and the message of a command that ends before it writes. -/
structure Exit where
  status : Int
  message : String
  deriving DecidableEq

/-- `EINVAL`. -/
def einval : Int := 22

/-- The test of the URL in `Cli::repo`: `url.rfind("http", 0) != 0`. -/
def checkUrl (url : String) : Except Exit Unit :=
  if "http".toList.isPrefixOf url.toList then .ok ()
  else .error ⟨einval, "url is invalid: " ++ url⟩

/-- `cfgRef.repos.find(name)`. -/
def existingRepo (cfg : RawConfig) (name : String) : Except Exit Unit :=
  if (cfg.repos.lookup name).isSome then .ok ()
  else .error ⟨-1, "the operated repo " ++ name ++ " doesn't exist"⟩

/-- `Cli::repo` on a copy of the configuration: the configuration that is
    passed to `setRepoConfig`. The trailing slash is removed from
    `options.repoUrl`, of which `url` is an earlier copy. -/
def repo (cfg : RawConfig) : Command → Except Exit RawConfig
  | .add name url => do
      checkUrl url
      if url.isEmpty then throw ⟨einval, "url is empty."⟩
      if (cfg.repos.lookup name).isSome then throw ⟨-1, "repo " ++ name ++ " already exist."⟩
      return { cfg with repos := (name, url) :: cfg.repos }
  | .remove name => do
      existingRepo cfg name
      if cfg.defaultRepo = name then
        throw ⟨-1, "repo " ++ name ++
          "is default repo, please change default repo before removing it."⟩
      return { cfg with repos := cfg.repos.filter fun r => r.1 ≠ name }
  | .update name url => do
      checkUrl url
      existingRepo cfg name
      if url.isEmpty then throw ⟨-1, "url is empty."⟩
      return { cfg with repos := cfg.repos.map fun r => if r.1 = name then (name, url) else r }
  | .setDefault name => do
      existingRepo cfg name
      if cfg.defaultRepo = name then throw ⟨0, ""⟩
      return { cfg with defaultRepo := name }

/-! ## Section 2: The setter -/

/-- What is used of the YAML library. -/
structure Yaml where
  /-- The text that is written for `ytj::to_yaml` of a configuration. -/
  text : RawConfig → String
  /-- `YAML::Load`, `ytj::to_json` and `get<RepoConfig>`, where none throws. -/
  read : String → Option RawConfig

/-- How saving goes. -/
inductive Saving where
  | notOpened
  /-- An exception when the file is open, and therefore empty. -/
  | thrown
  /-- So many characters of the text are written. Nobody looks at the state of
      the stream. -/
  | written (count : Nat)
  deriving DecidableEq

/-- How the steps of `setConfig` go. -/
structure Course where
  saving : Saving
  updateOstreeRepoConfig : Except String Unit
  rebuildCache : Except String Unit
  /-- The save of the transaction. -/
  restoring : Saving

/-- The package manager, and the configurations that clients have read. -/
structure System where
  cfg : RawConfig
  configYaml : Option String
  copies : Nat → Option RawConfig

variable (yaml : Yaml)

/-- `saveConfig`, with the contents of the file afterwards. -/
def saveConfig (cfg : RawConfig) (saving : Saving) (file : Option String) :
    Except String Unit × Option String :=
  if cfg.hasDefault = false then (.error "default repo not found in repos", file)
  else
    match saving with
    | .notOpened => (.error "open failed", file)
    | .thrown => (.error "to_yaml", some "")
    | .written count => (.ok (), some (String.ofList ((yaml.text cfg).toList.take count)))

/-- The steps of `setConfig` after the first. -/
def Course.apply (course : Course) : Except String Unit := do
  course.updateOstreeRepoConfig
  course.rebuildCache

/-- `OSTreeRepo::setConfig`. -/
def setConfig (cfg : RawConfig) (course : Course) (s : System) : Except String Unit × System :=
  match saveConfig yaml cfg course.saving s.configYaml with
  | (.error e, file) => (.error e, { s with configYaml := file })
  | (.ok _, file) =>
      match course.apply with
      | .error e =>
          (.error e, { s with configYaml := (saveConfig yaml s.cfg course.restoring file).2 })
      | .ok _ => (.ok (), { s with cfg := cfg, configYaml := file })

/-- The error replies of the setter. -/
inductive Reply where
  | invalidArgs (message : String)
  | failed (message : String)

/-- The comparison of two configurations by their members. -/
def sameConfig (cfg curCfg : RawConfig) : Bool :=
  cfg.version == curCfg.version && cfg.defaultRepo == curCfg.defaultRepo &&
    (cfg.repos ++ curCfg.repos).all fun r => cfg.repos.lookup r.1 == curCfg.repos.lookup r.1

/-- `PackageManager::setConfiguration`. The parameters may not be a
    configuration. -/
def setConfiguration (parameters : Except String RawConfig) (course : Course) (s : System) :
    Except Reply Unit × System :=
  match parameters with
  | .error message => (.error (.invalidArgs message), s)
  | .ok cfg =>
      if sameConfig cfg s.cfg then (.ok (), s)
      else if cfg.hasDefault = false then
        (.error (.failed "default repository is missing after updating configuration."), s)
      else
        match setConfig yaml cfg course s with
        | (.error message, s') => (.error (.failed message), s')
        | (.ok _, s') => (.ok (), s')

/-! ## Section 3: The system -/

/-- What can happen: a client reads the configuration, runs its command on the
    copy (and may be refused by the package manager), or any client writes the
    property. -/
inductive Event where
  | read (client : Nat)
  | run (client : Nat) (command : Command) (denied : Bool) (course : Course)
  | write (parameters : Except String RawConfig) (course : Course)

/-- A client keeps, or has no longer, a copy. -/
def System.setCopy (s : System) (client : Nat) (copy : Option RawConfig) : System :=
  { s with copies := fun c => if c = client then copy else s.copies c }

@[simp] theorem System.setCopy_cfg (s : System) (client : Nat) (copy : Option RawConfig) :
    (s.setCopy client copy).cfg = s.cfg := rfl

@[simp] theorem System.setCopy_configYaml (s : System) (client : Nat) (copy : Option RawConfig) :
    (s.setCopy client copy).configYaml = s.configYaml := rfl

/-- The configuration that an event asks the setter for. -/
def requested (s : System) : Event → Option RawConfig
  | .read _ => none
  | .run client command denied _ =>
      if denied then none else (s.copies client).bind fun cfg => (repo cfg command).toOption
  | .write parameters _ => parameters.toOption

/-- One event. -/
def next (s : System) : Event → Option System
  | .read client => some (s.setCopy client (some s.cfg))
  | .run client command denied course =>
      (s.copies client).map fun cfg =>
        match repo cfg command with
        | .error _ => s.setCopy client none
        | .ok new =>
            -- `setRepoConfig` asks for the authorization first
            if denied then s.setCopy client none
            else (setConfiguration yaml (.ok new) course (s.setCopy client none)).2
  | .write parameters course => some (setConfiguration yaml parameters course s).2

/-- The package manager and its clients. -/
def machine : Machine System Event := ⟨next yaml⟩

/-! ## Section 4: The default repository stays in the list -/

/-- The file, if there is one, holds a configuration that has its default
    repository. -/
def FileHasDefault (file : Option String) : Prop :=
  ∀ text, file = some text → ∃ cfg, yaml.read text = some cfg ∧ cfg.hasDefault = true

/-- The stored configuration, in memory and in `config.yaml`. -/
structure Stored (s : System) : Prop where
  memory : s.cfg.hasDefault = true
  file : FileHasDefault yaml s.configYaml

/-- A save that writes all of a text which is read as the same configuration,
    if the file can be opened. -/
def Saving.Complete (cfg : RawConfig) : Saving → Prop
  | .notOpened => True
  | .thrown => False
  | .written count => (yaml.text cfg).toList.length ≤ count ∧ yaml.read (yaml.text cfg) = some cfg

/-- The saves of `setConfig` are complete. The second one is made if the
    first one could open the file and a later step fails. -/
def Course.Complete (course : Course) (cfg newCfg : RawConfig) : Prop :=
  course.saving.Complete yaml newCfg ∧
    ∀ e, course.saving ≠ .notOpened → course.apply = .error e →
      course.restoring.Complete yaml cfg

/-- The condition on a step: if the configuration is to be saved, this is done
    completely. -/
def SavesComplete (s : System) (event : Event) : Prop :=
  ∀ newCfg, requested s event = some newCfg → sameConfig newCfg s.cfg = false →
    newCfg.hasDefault = true →
    match event with
    | .read _ => True
    | .run _ _ _ course => course.Complete yaml s.cfg newCfg
    | .write _ course => course.Complete yaml s.cfg newCfg

variable {yaml}

theorem fileHasDefault_saveConfig {cfg : RawConfig} {saving : Saving} {file : Option String}
    (hfile : FileHasDefault yaml file) (hcomplete : saving.Complete yaml cfg) :
    FileHasDefault yaml (saveConfig yaml cfg saving file).2 := by
  unfold saveConfig
  split
  · exact hfile
  next hdefault =>
    cases saving with
    | notOpened => exact hfile
    | thrown => exact hcomplete.elim
    | written count =>
      intro text htext
      cases htext
      refine ⟨cfg, ?_, by simpa using hdefault⟩
      rw [List.take_of_length_le hcomplete.1, String.ofList_toList]
      exact hcomplete.2

variable (yaml) in
/-- What the setter can do to the configuration in memory. -/
theorem setConfig_cfg (cfg : RawConfig) (course : Course) (s : System) :
    (setConfig yaml cfg course s).2.cfg = s.cfg ∨
      (cfg.hasDefault = true ∧ (setConfig yaml cfg course s).2.cfg = cfg) := by
  unfold setConfig
  split
  · exact .inl rfl
  next file hsave =>
    cases course.apply with
    | error e => exact .inl rfl
    | ok u =>
      refine .inr ⟨?_, rfl⟩
      -- a configuration without its default repository is not saved
      unfold saveConfig at hsave
      split at hsave
      · cases hsave
      next hdefault => simpa using hdefault

theorem fileHasDefault_setConfig {cfg : RawConfig} {course : Course} {s : System}
    (hfile : FileHasDefault yaml s.configYaml) (hcomplete : course.Complete yaml s.cfg cfg) :
    FileHasDefault yaml (setConfig yaml cfg course s).2.configYaml := by
  have hsaved := fileHasDefault_saveConfig hfile hcomplete.1
  unfold setConfig
  split
  next e file hsave =>
    rw [hsave] at hsaved
    exact hsaved
  next file hsave =>
    rw [hsave] at hsaved
    have hopened : course.saving ≠ .notOpened := by
      intro hclosed
      rw [hclosed, saveConfig] at hsave
      split at hsave <;> cases hsave
    cases happly : course.apply with
    | error e => exact fileHasDefault_saveConfig hsaved (hcomplete.2 e hopened happly)
    | ok u => exact hsaved

variable (yaml) in
/-- **Cases of the setter**: it changes nothing, or it sets a configuration
    that has its default repository and differs from the current one. -/
theorem setConfiguration_cases (parameters : Except String RawConfig) (course : Course)
    (s : System) :
    (setConfiguration yaml parameters course s).2 = s ∨
      ∃ cfg, parameters = .ok cfg ∧ sameConfig cfg s.cfg = false ∧ cfg.hasDefault = true ∧
        (setConfiguration yaml parameters course s).2 = (setConfig yaml cfg course s).2 := by
  unfold setConfiguration
  cases parameters with
  | error message => exact .inl rfl
  | ok cfg =>
    dsimp only
    by_cases hsame : sameConfig cfg s.cfg = true
    · rw [if_pos hsame]
      exact .inl rfl
    rw [if_neg hsame]
    by_cases hdefault : cfg.hasDefault = true
    · refine .inr ⟨cfg, rfl, by simpa using hsame, hdefault, ?_⟩
      rw [if_neg (by simp [hdefault])]
      rcases setConfig yaml cfg course s with ⟨result, s'⟩
      cases result <;> rfl
    · rw [if_pos (by simpa using hdefault)]
      exact .inl rfl

/-- **Cases of a step**: the stored configuration stays as it is, or the one
    that was asked for is set. -/
theorem next_cases {s s' : System} {event : Event} (h : next yaml s event = some s') :
    (s'.cfg = s.cfg ∧ s'.configYaml = s.configYaml) ∨
      ∃ t cfg course, t.cfg = s.cfg ∧ t.configYaml = s.configYaml ∧
        s' = (setConfig yaml cfg course t).2 ∧
        (SavesComplete yaml s event → course.Complete yaml s.cfg cfg) := by
  cases event with
  | read client =>
    cases h
    exact .inl ⟨rfl, rfl⟩
  | write parameters course =>
    cases h
    rcases setConfiguration_cases yaml parameters course s with
      heq | ⟨cfg, rfl, hdiffers, hdefault, heq⟩
    · rw [heq]
      exact .inl ⟨rfl, rfl⟩
    · exact .inr ⟨s, cfg, course, rfl, rfl, heq, fun hsaves => hsaves cfg rfl hdiffers hdefault⟩
  | run client command denied course =>
    obtain ⟨copy, hcopy, rfl⟩ := Option.map_eq_some_iff.1 h
    cases hrepo : repo copy command with
    | error e => exact .inl ⟨rfl, rfl⟩
    | ok new =>
      cases denied with
      | true => exact .inl ⟨rfl, rfl⟩
      | false =>
        simp only [Bool.false_eq_true, if_false]
        rcases setConfiguration_cases yaml (.ok new) course (s.setCopy client none) with
          heq | ⟨cfg, hcfg, hdiffers, hdefault, heq⟩
        · rw [heq]
          exact .inl ⟨rfl, rfl⟩
        · cases hcfg
          refine .inr ⟨s.setCopy client none, new, course, rfl, rfl, heq, fun hsaves => ?_⟩
          refine hsaves new ?_ hdiffers hdefault
          simp only [requested, Bool.false_eq_true, if_false, hcopy, Option.bind_some, hrepo]
          rfl

/-- **Step**: in memory, the default repository stays in the list. -/
theorem memory_next {s s' : System} {event : Event} (hs : s.cfg.hasDefault = true)
    (h : next yaml s event = some s') : s'.cfg.hasDefault = true := by
  rcases next_cases h with ⟨hcfg, -⟩ | ⟨t, cfg, course, ht, -, rfl, -⟩
  · rw [hcfg]
    exact hs
  · rcases setConfig_cfg yaml cfg course t with hkeep | ⟨hdefault, hset⟩
    · rw [hkeep, ht]
      exact hs
    · rw [hset]
      exact hdefault

/-- **Step**: in the file as well, if it is saved completely. -/
theorem stored_next {s s' : System} {event : Event} (hs : Stored yaml s)
    (hsaves : SavesComplete yaml s event) (h : next yaml s event = some s') : Stored yaml s' := by
  refine ⟨memory_next hs.memory h, ?_⟩
  rcases next_cases h with ⟨-, hfile⟩ | ⟨t, cfg, course, ht, hfile, rfl, hcomplete⟩
  · rw [hfile]
    exact hs.file
  · refine fileHasDefault_setConfig ?_ ?_
    · rw [hfile]
      exact hs.file
    · rw [ht]
      exact hcomplete hsaves

/-- **Runs**: the default repository stays in the list in memory, and in
    `config.yaml` too if each configuration that is saved is saved completely. -/
theorem keepsDefault (yaml : Yaml) (s : System) (events : List Event) (hs : Stored yaml s) :
    (machine yaml).Always (fun s => s.cfg.hasDefault = true) s events ∧
      ((machine yaml).Meets (SavesComplete yaml) s events →
        (machine yaml).Always (Stored yaml) s events) :=
  ⟨(machine yaml).always_of_step (fun _ _ _ => memory_next) hs.memory,
    (machine yaml).always_of_meets (fun _ _ _ => stored_next) hs⟩

/-- A configuration as YAML. -/
def plainText (cfg : RawConfig) : String :=
  "defaultRepo: " ++ cfg.defaultRepo ++ "\nrepos:\n" ++
    String.join (cfg.repos.map fun r => "  " ++ r.1 ++ ": " ++ r.2 ++ "\n") ++
    "version: " ++ toString cfg.version

/-- The text of a configuration, and a reader that knows two of them. -/
def plainYaml (known : List RawConfig) : Yaml where
  text := plainText
  read text := known.find? fun cfg => plainText cfg = text

/-- A configuration with one repository. -/
def stable (url : String) : RawConfig := ⟨"stable", [("stable", url)], 1⟩

/-- The configuration is the same in memory and in the file. -/
def started : System where
  cfg := stable "https://store"
  configYaml := some (plainText (stable "https://store"))
  copies _ := none

/-- A client sets another URL. -/
def updateRun (saving : Saving) : List Event :=
  [.read 0, .run 0 (.update "stable" "https://mirror") false ⟨saving, .ok (), .ok (), .notOpened⟩]

/-- The two configurations of the run. -/
def twoUrls : Yaml := plainYaml [stable "https://store", stable "https://mirror"]

theorem stored_started : Stored twoUrls started := by
  refine ⟨by decide, fun text htext => ?_⟩
  cases htext
  exact ⟨stable "https://store", by decide, by decide⟩

/-- A run with a complete save. -/
theorem keepsDefault_updateRun : Stored twoUrls started ∧
    (machine twoUrls).Always (Stored twoUrls) started (updateRun (.written 100)) := by
  refine ⟨stored_started, (keepsDefault twoUrls started _ stored_started).2 ?_⟩
  rw [updateRun, Machine.meets_cons_of_next _ rfl, Machine.meets_cons_of_next _ rfl]
  refine ⟨fun _ hnew => (by cases hnew), fun newCfg hnew _ _ => ?_, trivial⟩
  cases hnew
  exact ⟨⟨by decide, by decide⟩, fun _ _ he => by cases he⟩

/-- The disk is full: `config.yaml` is emptied, and the setter says that all
    went well. -/
theorem not_keepsDefault : ¬ ∀ (yaml : Yaml) (s : System) (events : List Event),
    Stored yaml s → (machine yaml).Always (Stored yaml) s events := by
  intro h
  have hrun := h twoUrls started (updateRun (.written 0)) stored_started
  obtain ⟨cfg, hread, -⟩ := ((hrun.2 _ rfl).2 _ rfl).file "" (by decide)
  have hempty : twoUrls.read "" = none := by decide
  rw [hempty] at hread
  cases hread

/-! ## Section 5: The setter of the repository

    `ConfigState.setConfig` has the remotes and the cache as well, and errors
    in place of lost writes. As far as the configuration is concerned, it is a
    `setConfig` whose writes are not lost. -/

/-- A configuration that has been checked. -/
def ofRepoConfig (cfg : RepoConfig) : RawConfig := ⟨cfg.defaultRepo, cfg.repos, cfg.version⟩

variable (yaml) in
/-- The contents of a file. -/
def fileText : ConfigFile → Option String
  | .absent => none
  | .truncated => some ""
  | .holds cfg => some (yaml.text (ofRepoConfig cfg))

variable (yaml) in
/-- The same configuration in memory and the same file. -/
structure Agrees (s : ConfigState) (t : System) : Prop where
  cfg : t.cfg = ofRepoConfig s.cfg
  configYaml : t.configYaml = fileText yaml s.configYaml

theorem hasDefault_ofRepoConfig (cfg : RepoConfig) : (ofRepoConfig cfg).hasDefault = true :=
  cfg.default_mem

/-- All of the text is written. -/
def writtenWhole (yaml : Yaml) (cfg : RawConfig) : Saving := .written (yaml.text cfg).toList.length

theorem saveConfig_writtenWhole (cfg : RepoConfig) (file : Option String) :
    saveConfig yaml (ofRepoConfig cfg) (writtenWhole yaml (ofRepoConfig cfg)) file =
      (.ok (), fileText yaml (.holds cfg)) := by
  unfold saveConfig writtenWhole
  rw [if_neg (by simp [hasDefault_ofRepoConfig])]
  simp only [List.take_length, String.ofList_toList]
  rfl

variable (yaml) in
/-- A save of `ConfigState` is one of these. -/
theorem saveConfig_agrees (cfg : RepoConfig) (s : ConfigState) :
    ∃ saving, (after (ConfigState.saveConfig cfg) s).cfg = s.cfg ∧
      (saveConfig yaml (ofRepoConfig cfg) saving (fileText yaml s.configYaml)).2 =
        fileText yaml (after (ConfigState.saveConfig cfg) s).configYaml ∧
      ∀ e s', ConfigState.saveConfig cfg s = .error e s' →
        ∃ e', (saveConfig yaml (ofRepoConfig cfg) saving (fileText yaml s.configYaml)).1 =
          .error e' := by
  have hdefault : ¬ (ofRepoConfig cfg).hasDefault = false := by simp [hasDefault_ofRepoConfig]
  have hout := ConfigState.saveOutcome_saveConfig cfg s
  cases hrun : ConfigState.saveConfig cfg s with
  | ok u s' =>
    rw [hrun] at hout
    obtain ⟨-, -, faults, -, rfl⟩ := hout
    rw [after_of_ok hrun]
    refine ⟨writtenWhole yaml (ofRepoConfig cfg), rfl, ?_, fun e s' h => by cases h⟩
    rw [saveConfig_writtenWhole]
  | error e s' =>
    rw [hrun] at hout
    rw [after_of_error hrun]
    obtain ⟨faults, ⟨-, rfl⟩ | ⟨-, -, rfl⟩⟩ := hout
    · refine ⟨.notOpened, rfl, ?_, fun _ _ _ => ?_⟩
      · rw [saveConfig, if_neg hdefault]
        rfl
      · rw [saveConfig, if_neg hdefault]
        exact ⟨_, rfl⟩
    · refine ⟨.thrown, rfl, ?_, fun _ _ _ => ?_⟩
      · rw [saveConfig, if_neg hdefault]
        rfl
      · rw [saveConfig, if_neg hdefault]
        exact ⟨_, rfl⟩

/-- The remotes are no part of the configuration. -/
theorem after_updateOstreeRepoConfig_same (cfg : RepoConfig) (s : ConfigState) :
    (after (ConfigState.updateOstreeRepoConfig cfg) s).cfg = s.cfg ∧
      (after (ConfigState.updateOstreeRepoConfig cfg) s).configYaml = s.configYaml := by
  have hout := ConfigState.remoteOutcome_updateOstreeRepoConfig cfg s
  cases hrun : ConfigState.updateOstreeRepoConfig cfg s with
  | ok u s' =>
    rw [hrun] at hout
    obtain ⟨-, -, -, faults, -, rfl⟩ := hout
    rw [after_of_ok hrun]
    exact ⟨rfl, rfl⟩
  | error e s' =>
    rw [hrun] at hout
    rw [after_of_error hrun]
    obtain ⟨faults, -, ⟨-, rfl⟩ | ⟨-, -, rfl⟩ | ⟨-, -, -, rfl⟩⟩ := hout <;> exact ⟨rfl, rfl⟩

/-- Neither is the cache. -/
theorem rebuildCache_same {cfg : RepoConfig} {s s' : ConfigState} {e : String}
    (h : ConfigState.rebuildCache cfg s = .error e s') :
    s'.cfg = s.cfg ∧ s'.configYaml = s.configYaml := by
  have hout := ConfigState.rebuildOutcome_rebuildCache cfg s
  rw [h] at hout
  obtain ⟨faults, -, ⟨-, rfl⟩ | ⟨-, -, -, rfl⟩⟩ := hout <;> exact ⟨rfl, rfl⟩

/-- A failed step after the first: the current configuration is saved again. -/
theorem agrees_restored {cfg : RepoConfig} {s s' : ConfigState} {t : System} (h : Agrees yaml s t)
    (hcfg : s'.cfg = s.cfg) (hfile : s'.configYaml = .holds cfg) :
    ∃ course, Agrees yaml (after (ConfigState.saveConfig s'.cfg) s')
      (setConfig yaml (ofRepoConfig cfg) course t).2 := by
  obtain ⟨restoring, hsame, hafter, -⟩ := saveConfig_agrees yaml s'.cfg s'
  refine ⟨⟨writtenWhole yaml (ofRepoConfig cfg), .error "", .ok (), restoring⟩, ?_⟩
  rw [setConfig, saveConfig_writtenWhole]
  refine ⟨?_, ?_⟩
  · rw [hsame, hcfg]
    exact h.cfg
  · rw [← hafter, hfile, hcfg, ← h.cfg]
    rfl

/-- **Refinement**: setting a configuration in `ConfigState` is setting it
    here. -/
theorem setConfig_agrees (cfg : RepoConfig) {s : ConfigState} {t : System} (h : Agrees yaml s t) :
    ∃ course, Agrees yaml (after (ConfigState.setConfig cfg) s)
      (setConfig yaml (ofRepoConfig cfg) course t).2 := by
  rcases ConfigState.setConfig_stages cfg s with ⟨e, s₁, hsave, hrun⟩ |
    ⟨faults, -, -, -, ⟨e, s₁, hremote, hrun⟩ | ⟨faults₂, -, -, -, -, hrun⟩⟩
  · -- the file could not be saved, and nothing else has happened
    obtain ⟨saving, hsame, hafter, herror⟩ := saveConfig_agrees yaml cfg s
    obtain ⟨e', he'⟩ := herror e s₁ hsave
    rw [after_of_error hsave] at hsame hafter
    rw [after_of_error hrun]
    refine ⟨⟨saving, .ok (), .ok (), .notOpened⟩, ?_⟩
    rw [← h.configYaml] at hafter he'
    rw [setConfig]
    rcases hresult : saveConfig yaml (ofRepoConfig cfg) saving t.configYaml with ⟨result, file⟩
    rw [hresult] at hafter he'
    cases he'
    exact ⟨h.cfg.trans (congrArg ofRepoConfig hsame.symm), hafter⟩
  · have hsame := after_updateOstreeRepoConfig_same cfg (s.saved cfg faults)
    rw [after_of_error hremote] at hsame
    rw [after_of_error hrun]
    exact agrees_restored h hsame.1 hsame.2
  · cases hrebuild : ConfigState.rebuildCache cfg (s.served cfg faults₂) with
    | ok u s₁ =>
      have hout := ConfigState.rebuildOutcome_rebuildCache cfg (s.served cfg faults₂)
      rw [hrebuild] at hout
      obtain ⟨-, -, faults, json, rfl⟩ := hout
      refine ⟨⟨writtenWhole yaml (ofRepoConfig cfg), .ok (), .ok (), .notOpened⟩, ?_⟩
      rw [ConfigState.orUndo_run, ConfigState.orUndo_run, bind_of_ok hrebuild] at hrun
      rw [after_of_ok hrun, setConfig, saveConfig_writtenWhole]
      exact ⟨rfl, rfl⟩
    | error e s₁ =>
      have hsame := rebuildCache_same hrebuild
      rw [ConfigState.orUndo_run, ConfigState.orUndo_run, bind_of_error hrebuild] at hrun
      rw [after_of_error hrun]
      have hremote := after_updateOstreeRepoConfig_same s₁.cfg s₁
      exact agrees_restored h (hremote.1.trans hsame.1) (hremote.2.trans hsame.2)

end Linglong.ConfigRequests
