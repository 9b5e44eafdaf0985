import Linglong.Repo.Config

/-! # Loading the Configuration of the Repository

    `loadConfig` (`repo/config.cpp`) takes the first of several files that
    holds a configuration. `LoadYAML` turns the exceptions of the YAML library
    into an error; `loadConfig` looks into its result without asking whether
    it is one.

    1. Configurations as they are read.
    2. The files.
    3. When the first good file is found (`loadsFirst_iff`).
-/

namespace Linglong.LoadConfig

/-! ## Section 1: Configurations as they are read -/

/-- The members of `api::types::v1::RepoConfig`. The repositories are a map
    from names to URLs. -/
structure RawConfig where
  defaultRepo : String
  repos : List (String × String)
  version : Int
  deriving DecidableEq

/-- `cfg.repos.find(cfg.defaultRepo) != cfg.repos.end()`. -/
def RawConfig.hasDefault (cfg : RawConfig) : Bool := (cfg.repos.lookup cfg.defaultRepo).isSome

/-! ## Section 2: The files -/

/-- The contents of the files that can be opened, and the configuration in a
    content: `YAML::Load`, `ytj::to_json` and `get<RepoConfig>`, where none of
    them throws. -/
structure Disk where
  content : String → Option String
  yaml : String → Option RawConfig

/-- How loading ends. -/
inductive Loaded where
  | ok (cfg : RawConfig)
  | error (message : String)
  /-- The value of a `Result` that holds an error has been used. -/
  | undefined
  deriving DecidableEq

variable (disk : Disk)

/-- `LoadYAML<RepoConfig>`. -/
def loadYAML (content : String) : Except String RawConfig :=
  match disk.yaml content with
  | some cfg => .ok cfg
  | none => .error "load yaml"

/-- `loadConfig` of one file. -/
def loadConfig (file : String) : Loaded :=
  match disk.content file with
  | none => .error "open failed"
  | some content =>
      match loadYAML disk content with
      | .error _ => .undefined
      | .ok config =>
          if config.version ≠ 1 then
            .error ("wrong configuration file version " ++ toString config.version)
          else if config.hasDefault = false then .error "default repo not found in repos"
          else .ok config

/-- `loadConfig` of a list of files. -/
def loadConfigs : List String → Loaded
  | [] => .error "all failed"
  | file :: files =>
      match loadConfig disk file with
      | .ok config => .ok config
      | .error _ => loadConfigs files
      | .undefined => .undefined

/-! ## Section 3: When the first good file is found -/

/-- The configuration in a file, if it is well formed, has version 1, and has
    its default repository. -/
def good (file : String) : Option RawConfig :=
  ((disk.content file).bind disk.yaml).filter fun cfg => cfg.version = 1 ∧ cfg.hasDefault = true

/-- A file that can be opened but holds no configuration. -/
def Malformed (file : String) : Prop := ∃ content, disk.content file = some content ∧
  disk.yaml content = none

/-- What should be returned: the configuration of the first good file, or an
    error if there is none. -/
def LoadsFirst (files : List String) (result : Loaded) : Prop :=
  match files.findSome? (good disk) with
  | some cfg => result = .ok cfg
  | none => ∃ message, result = .error message

/-- How one file is read. -/
theorem loadConfig_cases (file : String) :
    (∃ cfg, loadConfig disk file = .ok cfg ∧ good disk file = some cfg ∧ ¬ Malformed disk file) ∨
      (∃ message, loadConfig disk file = .error message ∧ good disk file = none ∧
        ¬ Malformed disk file) ∨
      (loadConfig disk file = .undefined ∧ Malformed disk file) := by
  unfold loadConfig good Malformed loadYAML
  cases hcontent : disk.content file with
  | none => exact .inr (.inl ⟨_, rfl, rfl, by simp⟩)
  | some content =>
    simp only [Option.bind_some]
    cases hyaml : disk.yaml content with
    | none => exact .inr (.inr ⟨rfl, content, rfl, hyaml⟩)
    | some cfg =>
      have hno : ¬ ∃ c, some content = some c ∧ disk.yaml c = none := by
        rintro ⟨c, heq, hnone⟩
        cases heq
        rw [hyaml] at hnone
        cases hnone
      dsimp only
      by_cases hversion : cfg.version = 1
      · rw [if_neg (not_not.2 hversion)]
        by_cases hdefault : cfg.hasDefault = true
        · rw [if_neg (by simp [hdefault]), Option.filter_some_pos (by simp [hversion, hdefault])]
          exact .inl ⟨cfg, rfl, rfl, hno⟩
        · rw [if_pos (by simpa using hdefault), Option.filter_some_neg (by simp [hdefault])]
          exact .inr (.inl ⟨_, rfl, rfl, hno⟩)
      · rw [if_pos hversion, Option.filter_some_neg (by simp [hversion])]
        exact .inr (.inl ⟨_, rfl, rfl, hno⟩)

/-- **The files**: the first good file is found iff no file before it, or at
    all if there is none, is malformed. -/
theorem loadsFirst_iff (files : List String) :
    LoadsFirst disk files (loadConfigs disk files) ↔
      ∀ before file after, files = before ++ file :: after →
        (∀ f ∈ before, good disk f = none) → ¬ Malformed disk file := by
  induction files with
  | nil => exact ⟨fun _ before file after heq => by simp at heq, fun _ => ⟨_, rfl⟩⟩
  | cons first files ih =>
    rcases loadConfig_cases disk first with
      ⟨cfg, hload, hgood, hwell⟩ | ⟨message, hload, hgood, hwell⟩ | ⟨hload, hmalformed⟩
    · -- the first file is good, and no other file is read
      rw [loadConfigs, hload, LoadsFirst, List.findSome?_cons, hgood]
      refine ⟨fun _ before file after heq hbefore => ?_, fun _ => rfl⟩
      cases before with
      | nil =>
        cases heq
        exact hwell
      | cons f before =>
        cases heq
        have hnone := hbefore first List.mem_cons_self
        rw [hgood] at hnone
        cases hnone
    · -- the search goes on
      have hskip : LoadsFirst disk (first :: files) (loadConfigs disk (first :: files)) ↔
          LoadsFirst disk files (loadConfigs disk files) := by
        rw [loadConfigs, hload, LoadsFirst, LoadsFirst, List.findSome?_cons, hgood]
      rw [hskip, ih]
      constructor
      · intro h before file after heq hbefore
        cases before with
        | nil =>
          cases heq
          exact hwell
        | cons f before =>
          cases heq
          exact h before file after rfl fun g hg => hbefore g (List.mem_cons_of_mem _ hg)
      · intro h before file after heq hbefore
        refine h (first :: before) file after (by rw [heq]; rfl) fun f hf => ?_
        rcases List.mem_cons.1 hf with rfl | hf
        · exact hgood
        · exact hbefore f hf
    · -- the error is used as a configuration
      rw [loadConfigs, hload]
      constructor
      · intro h
        unfold LoadsFirst at h
        split at h
        · cases h
        · obtain ⟨message, heq⟩ := h
          cases heq
      · exact fun h => absurd hmalformed (h [] first files rfl fun f hf => by cases hf)

/-- A file that is empty, and one that is good. -/
def emptyFirst : Disk where
  content file :=
    if file = "empty.yaml" then some "" else if file = "config.yaml" then some "stable" else none
  yaml content :=
    if content = "stable" then some ⟨"stable", [("stable", "https://example.com")], 1⟩ else none

/-- An empty file is no configuration, but the second file is not reached. -/
theorem not_loadsFirst : ¬ ∀ (disk : Disk) (files : List String),
    LoadsFirst disk files (loadConfigs disk files) := by
  intro h
  have hok := h emptyFirst ["empty.yaml", "config.yaml"]
  have hrun : loadConfigs emptyFirst ["empty.yaml", "config.yaml"] = .undefined := by decide
  have hgood : ["empty.yaml", "config.yaml"].findSome? (good emptyFirst) =
      some ⟨"stable", [("stable", "https://example.com")], 1⟩ := by decide
  rw [hrun, LoadsFirst, hgood] at hok
  cases hok

end Linglong.LoadConfig
