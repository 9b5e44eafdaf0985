import Linglong.Framework.Separator

/-! # The Environment of a Container

    `Container::run` (`runtime/container.cpp`) adds the environment of the
    user to the one of the configuration. An entry of the user is left out if
    its name is a prefix of an entry that is already there; the name of this
    entry may be longer.

    1. The merge.
    2. What it adds.
    3. When it adds the right entries (`passedEnv_iff`).
-/

namespace Linglong.Environment

open Framework

/-! ## Section 1: The merge -/

/-- An entry of the environment, `NAME=VALUE`. -/
abbrev Entry := List Char

/-- `env.substr(0, env.find_first_of('='))`. -/
def key (env : Entry) : List Char := env.takeWhile (· ≠ '=')

/-- `env.rfind(key, 0) == 0`. -/
def startsWith (env : Entry) (key : List Char) : Bool := key.isPrefixOf env

/-- One round of the loop: an entry of the user is added unless a duplicate
    is found. -/
def addEnv (originEnvs : List Entry) (env : Entry) : List Entry :=
  if originEnvs.any fun e => startsWith e (key env) then originEnvs else originEnvs ++ [env]

/-- What is used of `ocppi::runtime::config::types::Process`. -/
structure Process where
  env : Option (List Entry)

/-- The environment with which `Container::run` starts `process`, where the
    configuration has the process `configured`. -/
def passedEnv (configured : Option Process) (process : Process) : Except String (List Entry) :=
  match configured with
  | none => .error "process is not set"
  | some cfgProcess =>
      match cfgProcess.env with
      | none => .error "process.env is not set"
      | some originEnvs => .ok ((process.env.getD []).foldl addEnv originEnvs)

/-! ## Section 2: What it adds -/

theorem not_mem_key (env : Entry) : '=' ∉ key env := by
  intro hmem
  have hne := List.mem_takeWhile_imp hmem
  exact absurd rfl (of_decide_eq_true hne)

/-- A text without `=` that an entry starts with is a prefix of its name. -/
theorem startsWith_iff {env : Entry} {name : List Char} (h : '=' ∉ name) :
    startsWith env name = true ↔ name <+: key env := by
  unfold startsWith key
  rw [List.isPrefixOf_iff_prefix]
  constructor
  · rintro ⟨rest, rfl⟩
    rw [List.takeWhile_append_of_pos (ne_of_not_mem h)]
    exact List.prefix_append _ _
  · exact fun hname => hname.trans (List.takeWhile_prefix _)

/-- Some entry has the name, or a longer one. -/
def Covered (envs : List Entry) (env : Entry) : Prop := ∃ e ∈ envs, key env <+: key e

/-- Some entry has the name. -/
def Named (envs : List Entry) (env : Entry) : Prop := ∃ e ∈ envs, key e = key env

instance (envs : List Entry) (env : Entry) : Decidable (Named envs env) :=
  inferInstanceAs (Decidable (∃ e ∈ envs, key e = key env))

theorem Named.covered {envs : List Entry} {env : Entry} (h : Named envs env) : Covered envs env := by
  obtain ⟨e, he, heq⟩ := h
  exact ⟨e, he, heq ▸ List.prefix_rfl⟩

theorem addEnv_of_covered {envs : List Entry} {env : Entry} (h : Covered envs env) :
    addEnv envs env = envs := by
  obtain ⟨e, he, hprefix⟩ := h
  exact if_pos (List.any_eq_true.2 ⟨e, he, (startsWith_iff (not_mem_key env)).2 hprefix⟩)

theorem addEnv_of_not_covered {envs : List Entry} {env : Entry} (h : ¬ Covered envs env) :
    addEnv envs env = envs ++ [env] := by
  refine if_neg fun hany => h ?_
  obtain ⟨e, he, hstarts⟩ := List.any_eq_true.1 hany
  exact ⟨e, he, (startsWith_iff (not_mem_key env)).1 hstarts⟩

/-- The loop adds entries at the end, none of which an original entry
    covers. -/
theorem foldl_addEnv (users originEnvs : List Entry) :
    ∃ added, users.foldl addEnv originEnvs = originEnvs ++ added ∧
      ∀ env ∈ added, ¬ Covered originEnvs env := by
  induction users generalizing originEnvs with
  | nil => exact ⟨[], by simp, by simp⟩
  | cons env users ih =>
    rw [List.foldl_cons]
    by_cases hcovered : Covered originEnvs env
    · rw [addEnv_of_covered hcovered]
      exact ih originEnvs
    · rw [addEnv_of_not_covered hcovered]
      obtain ⟨added, heq, hadded⟩ := ih (originEnvs ++ [env])
      refine ⟨env :: added, by rw [heq]; simp, fun e he => ?_⟩
      rcases List.mem_cons.1 he with rfl | he
      · exact hcovered
      · rintro ⟨o, ho, hprefix⟩
        exact hadded e he ⟨o, List.mem_append_left _ ho, hprefix⟩

/-! ## Section 3: When it adds the right entries -/

/-- The entries of the user that should be taken: those whose name no entry
    of the configuration has and no entry that was taken before. -/
def taken (envs : List Entry) : List Entry → List Entry
  | [] => []
  | env :: users =>
      if Named envs env then taken envs users else env :: taken (envs ++ [env]) users

/-- Where the name of a user's entry is a prefix of a name that is there
    before, it is also a name that is there before. -/
def NoPrefix (originEnvs users : List Entry) : Prop :=
  ∀ before env after, users = before ++ env :: after →
    Covered (originEnvs ++ before) env → Named (originEnvs ++ before) env

theorem noPrefix_cons_iff {originEnvs users : List Entry} {env : Entry} :
    NoPrefix originEnvs (env :: users) ↔
      (Covered originEnvs env → Named originEnvs env) ∧ NoPrefix (originEnvs ++ [env]) users := by
  constructor
  · intro h
    refine ⟨fun hcovered => ?_, fun before e after heq => ?_⟩
    · have hfirst := h [] env users rfl
      rw [List.append_nil] at hfirst
      exact hfirst hcovered
    · have hlater := h (env :: before) e after (by rw [heq]; rfl)
      rwa [← List.append_cons] at *
  · rintro ⟨hfirst, hlater⟩ before e after heq
    cases before with
    | nil =>
      cases heq
      rwa [List.append_nil]
    | cons first before =>
      cases heq
      have h := hlater before e after rfl
      rwa [List.append_cons]

/-- An entry with a name that is there already makes no difference. -/
theorem noPrefix_of_named {originEnvs users : List Entry} {env : Entry} (h : Named originEnvs env) :
    NoPrefix (originEnvs ++ [env]) users ↔ NoPrefix originEnvs users := by
  have hnames : ∀ (before : List Entry) (p : List Char → Prop),
      (∃ e ∈ originEnvs ++ [env] ++ before, p (key e)) ↔ ∃ e ∈ originEnvs ++ before, p (key e) := by
    intro before p
    obtain ⟨o, ho, hkey⟩ := h
    constructor
    · rintro ⟨e, he, hp⟩
      simp only [List.mem_append, List.mem_singleton] at he
      rcases he with (he | rfl) | he
      · exact ⟨e, by simp [he], hp⟩
      · exact ⟨o, by simp [ho], by rwa [hkey]⟩
      · exact ⟨e, by simp [he], hp⟩
    · rintro ⟨e, he, hp⟩
      refine ⟨e, ?_, hp⟩
      rcases List.mem_append.1 he with he | he <;> simp [he]
  have hcovered : ∀ before e, Covered (originEnvs ++ [env] ++ before) e ↔
      Covered (originEnvs ++ before) e := fun before e => hnames before (key e <+: ·)
  have hnamed : ∀ before e, Named (originEnvs ++ [env] ++ before) e ↔
      Named (originEnvs ++ before) e := fun before e => hnames before (· = key e)
  unfold NoPrefix
  simp only [hcovered, hnamed]

/-- **The merge is right** iff no name of the user is only a prefix of a name
    that is there before. -/
theorem foldl_addEnv_eq_iff (originEnvs users : List Entry) :
    users.foldl addEnv originEnvs = originEnvs ++ taken originEnvs users ↔
      NoPrefix originEnvs users := by
  induction users generalizing originEnvs with
  | nil =>
    refine ⟨fun _ before env after heq => by simp at heq, fun _ => by simp [taken]⟩
  | cons env users ih =>
    rw [List.foldl_cons, noPrefix_cons_iff]
    by_cases hnamed : Named originEnvs env
    · -- both leave it out
      rw [addEnv_of_covered hnamed.covered, taken, if_pos hnamed, ih, noPrefix_of_named hnamed]
      simp [hnamed]
    · rw [taken, if_neg hnamed]
      by_cases hcovered : Covered originEnvs env
      · -- it is left out for a longer name, and nothing that comes later is equal to it
        obtain ⟨added, heq, hadded⟩ := foldl_addEnv users originEnvs
        rw [addEnv_of_covered hcovered, heq, List.append_cancel_left_eq]
        constructor
        · rintro rfl
          exact absurd hcovered (hadded env List.mem_cons_self)
        · rintro ⟨h, -⟩
          exact absurd (h hcovered) hnamed
      · rw [addEnv_of_not_covered hcovered, List.append_cons originEnvs env (taken _ _), ih]
        simp [hcovered]

/-- The environment that is passed on. -/
theorem passedEnv_iff (originEnvs users : List Entry) :
    passedEnv (some ⟨some originEnvs⟩) ⟨some users⟩ = .ok (originEnvs ++ taken originEnvs users) ↔
      ∀ before env after, users = before ++ env :: after →
        (∃ e ∈ originEnvs ++ before, key env <+: key e) →
          ∃ e ∈ originEnvs ++ before, key e = key env := by
  rw [passedEnv, Except.ok.injEq]
  exact foldl_addEnv_eq_iff originEnvs users

/-- `PATH` of the user is lost where the configuration has `PATH_LIST`. -/
theorem not_passedEnv : ¬ ∀ originEnvs users : List Entry, (∀ env ∈ users, '=' ∈ env) →
    passedEnv (some ⟨some originEnvs⟩) ⟨some users⟩ = .ok (originEnvs ++ taken originEnvs users) := by
  intro h
  have heq := h ["PATH_LIST=/usr".toList] ["PATH=/bin".toList] (by decide)
  exact absurd (Except.ok.inj heq) (by decide)

end Linglong.Environment
