import Mathlib.Tactic.Linarith
import Mathlib.Tactic.NormNum
import Linglong.PackageManager.PackageTask

/-! # Progress of One Part

    While the install, uninstall and update flows work on a part, they visit
    sub-states (`updateSubState`) and report how far the current one is
    (`updateTask`). The percentage is what users see of it.

    The weight of a stage counts twice. `updateSubState` adds all of it to
    the total on entry, and `getPercentage` adds the reported fraction of it
    once more. On entry of the next stage that fraction is gone, so what is
    shown goes back unless the next stage weighs enough.

    1. Stages, flows and their readings.
    2. The readings in closed form (`readings_calls`).
    3. When they stay in range and never go back (`soundProgress_iff`).
-/

namespace Linglong

namespace PackageTask

/-! ## Section 1: Flows -/

/-- One call of `updateTask`. -/
structure Report where
  part : UInt32
  whole : UInt32
  message : String

/-- The two checks of `updateTask`. -/
def Report.accepted (r : Report) : Bool := !(r.whole == 0) && !decide (r.whole < r.part)

def Report.fraction (r : Report) : ℚ := r.part.toNat / r.whole.toNat

def Report.call (r : Report) : Call := .updateTask r.part r.whole r.message

/-- A visited sub-state and the reports made before the next one. -/
structure Stage where
  subState : SubState
  message : String
  reports : List Report

def Stage.calls (s : Stage) : List Call :=
  .updateSubState s.subState s.message :: s.reports.map Report.call

def Stage.weight (s : Stage) : ℚ := subStateMap s.subState

/-- The sub-states in which a flow does its work. -/
def isWork : SubState → Bool
  | .installApplication | .installRuntime | .installBase | .uninstall => true
  | _ => false

/-- Work, then at most `PostAction`. -/
def workThenPost : List SubState → Bool
  | [] => true
  | [s] => isWork s || s = .postAction
  | s :: rest => isWork s && workThenPost rest

/-- The order in which the flows visit sub-states, up to where the flow has
    come: `PreAction`, work, `PostAction`. -/
def inFlowOrder : List SubState → Bool
  | .preAction :: rest => workThenPost rest
  | _ => false

/-- The calls of a flow; `done` is the sub-state at its end, if it gets
    there. -/
structure Flow where
  stages : List Stage
  done : Option (SubState × String)
  ordered : inFlowOrder (stages.map Stage.subState) = true
  done_isDone : ∀ d ∈ done, isTaskDone d.1 = true

def Flow.calls (f : Flow) : List Call :=
  f.stages.flatMap Stage.calls ++ f.done.toList.map fun d => .updateSubState d.1 d.2

/-- The percentage after each call. -/
def readings (t : PackageTask) : List Call → List ℚ
  | [] => []
  | c :: cs => (t.apply c).getPercentage :: readings (t.apply c) cs

/-- All readings are percentages, and none is less than one before it. -/
def SoundProgress (t : PackageTask) (cs : List Call) : Prop :=
  (∀ q ∈ readings t cs, 0 ≤ q ∧ q ≤ 100) ∧ (readings t cs).Pairwise (· ≤ ·)

/-- The fraction that is stored after each report; a report that is not
    accepted leaves the one before. -/
def fractions (stored : ℚ) : List Report → List ℚ
  | [] => []
  | r :: rs =>
      let stored := if r.accepted then r.fraction else stored
      stored :: fractions stored rs

/-- The fractions of a stage, from its entry on. -/
def Stage.fractions (s : Stage) : List ℚ := 0 :: PackageTask.fractions 0 s.reports

/-- The reports of the stage do not go back. -/
def Stage.Advances (s : Stage) : Prop := s.fractions.Pairwise (· ≤ ·)

/-- The fraction at the end of the stage. -/
def Stage.reached (s : Stage) : ℚ := s.fractions.getLast (by simp [Stage.fractions])

/-- **The condition**, for stages that begin at a total of `total`: reports
    advance, each stage weighs at least what was shown of the one before it
    on top of its weight, and the last one does not exceed 100. -/
def Fits : ℚ → List Stage → Prop
  | _, [] => True
  | total, [s] => s.Advances ∧ total + s.weight + s.reached * s.weight ≤ 100
  | total, s :: s' :: rest =>
      s.Advances ∧ s.reached * s.weight ≤ s'.weight ∧ Fits (total + s.weight) (s' :: rest)

/-! ## Section 2: Readings in closed form -/

/-- What is shown during a stage whose weight has been added to `base`. -/
def Stage.levels (s : Stage) (base : ℚ) : List ℚ := s.fractions.map fun f => base + f * s.weight

/-- What is shown during stages that begin at `total`. -/
def levels : ℚ → List Stage → List ℚ
  | _, [] => []
  | total, s :: rest => s.levels (total + s.weight) ++ levels (total + s.weight) rest

theorem readings_append (t : PackageTask) (cs ds : List Call) :
    readings t (cs ++ ds) = readings t cs ++ readings (t.run cs) ds := by
  induction cs generalizing t with
  | nil => rfl
  | cons c cs ih =>
    show _ :: readings (t.apply c) (cs ++ ds) = _
    rw [ih (t.apply c)]
    rfl

/-- A report stores its fraction or nothing. -/
theorem updateTask_eq (t : PackageTask) (r : Report) :
    ∃ message, t.apply r.call = { t with
      message := message
      curStagePercentage := if r.accepted then r.fraction else t.curStagePercentage } := by
  show ∃ message, t.updateTask r.part r.whole r.message = _
  unfold updateTask
  by_cases hzero : r.whole = 0
  · -- division by zero
    have hnot : r.accepted = false := by simp [Report.accepted, hzero]
    rw [if_pos hzero, hnot]
    exact ⟨t.message, rfl⟩
  by_cases hlt : r.whole < r.part
  · -- more than the whole
    have hnot : r.accepted = false := by simp [Report.accepted, hlt]
    rw [if_neg hzero, if_pos hlt, hnot]
    exact ⟨t.message, rfl⟩
  · have haccepted : r.accepted = true := by simp [Report.accepted, hzero, hlt]
    rw [if_neg hzero, if_neg hlt, haccepted]
    exact ⟨r.message, rfl⟩

/-- Reports change neither the total nor the sub-state. -/
theorem readings_reports (reports : List Report) (t : PackageTask)
    (hdone : isTaskDone t.subState = false) :
    readings t (reports.map Report.call) =
        (fractions t.curStagePercentage reports).map
          (fun f => t.totalPercentage + f * subStateMap t.subState) ∧
      (t.run (reports.map Report.call)).totalPercentage = t.totalPercentage := by
  induction reports generalizing t with
  | nil => exact ⟨rfl, rfl⟩
  | cons r rs ih =>
    obtain ⟨message, hstep⟩ := updateTask_eq t r
    -- the total and the sub-state are those of `t` for the other reports, too
    have hrest := ih (t.apply r.call) (by rw [hstep]; exact hdone)
    have hreading : (t.apply r.call).getPercentage = t.totalPercentage +
        (if r.accepted then r.fraction else t.curStagePercentage) * subStateMap t.subState := by
      rw [hstep, getPercentage]
      show (if isTaskDone t.subState then _ else _) = _
      rw [hdone]
      rfl
    refine ⟨?_, ?_⟩
    · show (t.apply r.call).getPercentage :: readings (t.apply r.call) (rs.map Report.call) = _
      rw [hrest.1, hreading, hstep]
      rfl
    · show ((t.apply r.call).run (rs.map Report.call)).totalPercentage = _
      rw [hrest.2, hstep]

/-- **Stage**: entry adds the weight to the total, reports show fractions of
    it on top. -/
theorem readings_stage (t : PackageTask) (s : Stage) (hdone : isTaskDone s.subState = false) :
    readings t s.calls = s.levels (t.totalPercentage + s.weight) ∧
      (t.run s.calls).totalPercentage = t.totalPercentage + s.weight := by
  -- the weight goes into the total on entry
  have hentry : t.apply (.updateSubState s.subState s.message) = { t with
      subState := s.subState
      message := s.message
      totalPercentage := t.totalPercentage + s.weight
      curStagePercentage := 0 } := by
    show t.updateSubState _ _ = _
    unfold updateSubState
    rw [hdone]
    rfl
  have hreports := readings_reports s.reports (t.apply (.updateSubState s.subState s.message))
    (by rw [hentry]; exact hdone)
  have hreading : (t.apply (.updateSubState s.subState s.message)).getPercentage =
      t.totalPercentage + s.weight + 0 * s.weight := by
    rw [hentry, getPercentage]
    show (if isTaskDone s.subState then _ else _) = _
    rw [hdone]
    rfl
  refine ⟨?_, ?_⟩
  · show (t.apply (.updateSubState s.subState s.message)).getPercentage ::
      readings (t.apply (.updateSubState s.subState s.message)) (s.reports.map Report.call) = _
    rw [hreports.1, hreading, hentry]
    rfl
  · show ((t.apply (.updateSubState s.subState s.message)).run _).totalPercentage = _
    rw [hreports.2, hentry]

theorem readings_stages (t : PackageTask) (stages : List Stage)
    (hdone : ∀ s ∈ stages, isTaskDone s.subState = false) :
    readings t (stages.flatMap Stage.calls) = levels t.totalPercentage stages := by
  induction stages generalizing t with
  | nil => rfl
  | cons s rest ih =>
    have hstage := readings_stage t s (hdone s (by simp))
    have hrest := ih (t.run s.calls) fun s' hs' => hdone s' (by simp [hs'])
    rw [List.flatMap_cons, readings_append, hstage.1, hrest, hstage.2]
    rfl

/-- The sub-states of a flow's stages. -/
def IsStage (s : SubState) : Prop := s = .preAction ∨ isWork s = true ∨ s = .postAction

theorem IsStage.not_done {s : SubState} (h : IsStage s) : isTaskDone s = false := by
  cases s <;> simp [IsStage, isWork] at h <;> rfl

theorem IsStage.weight_pos {s : SubState} (h : IsStage s) : 0 < subStateMap s := by
  cases s <;> simp [IsStage, isWork] at h <;> norm_num [subStateMap]

theorem isStage_of_workThenPost {subStates : List SubState} (h : workThenPost subStates = true)
    {s : SubState} (hs : s ∈ subStates) : IsStage s := by
  induction subStates with
  | nil => simp at hs
  | cons s' rest ih =>
    cases rest with
    | nil =>
      rw [List.mem_singleton.1 hs]
      simp only [workThenPost, Bool.or_eq_true, decide_eq_true_eq] at h
      exact .inr h
    | cons s'' rest =>
      simp only [workThenPost, Bool.and_eq_true] at h
      rcases List.mem_cons.1 hs with rfl | hmem
      · exact .inr (.inl h.1)
      · exact ih h.2 hmem

namespace Flow

/-- A flow begins with `PreAction`. -/
theorem stages_eq (f : Flow) : ∃ s rest, f.stages = s :: rest ∧ s.subState = .preAction ∧
    ∀ s' ∈ f.stages, IsStage s'.subState := by
  have hordered := f.ordered
  cases hstages : f.stages with
  | nil =>
    rw [hstages] at hordered
    cases hordered
  | cons s rest =>
    rw [hstages, List.map_cons] at hordered
    have hpre : s.subState = .preAction := by
      cases hs : s.subState <;> rw [hs] at hordered <;> first | rfl | cases hordered
    rw [hpre] at hordered
    refine ⟨s, rest, rfl, hpre, fun s' hs' => ?_⟩
    rcases List.mem_cons.1 hs' with rfl | hmem
    · exact .inl hpre
    · exact isStage_of_workThenPost hordered (List.mem_map.2 ⟨s', hmem, rfl⟩)

/-- **Readings of a flow**: the levels of its stages, then 100. -/
theorem readings_calls (f : Flow) (t : PackageTask) :
    readings t f.calls = levels t.totalPercentage f.stages ++ f.done.toList.map fun _ => 100 := by
  obtain ⟨-, -, -, -, hstage⟩ := f.stages_eq
  rw [calls, readings_append, readings_stages t f.stages fun s hs => (hstage s hs).not_done]
  congr 1
  cases hd : f.done with
  | none => rfl
  | some d =>
    have hisDone := f.done_isDone d (by rw [hd]; rfl)
    show [((t.run _).apply (.updateSubState d.1 d.2)).getPercentage] = [100]
    rw [apply, getPercentage, updateSubState_subState, hisDone]
    rfl

end Flow

/-! ## Section 3: When progress is sound -/

variable {s : Stage}

theorem nonneg_of_mem_fractions {reports : List Report} {stored : ℚ} (hstored : 0 ≤ stored) :
    ∀ f ∈ fractions stored reports, 0 ≤ f := by
  induction reports generalizing stored with
  | nil =>
    intro f hf
    cases hf
  | cons r rs ih =>
    have hnext : 0 ≤ if r.accepted then r.fraction else stored := by
      split
      · exact div_nonneg (Nat.cast_nonneg _) (Nat.cast_nonneg _)
      · exact hstored
    intro f hf
    rcases List.mem_cons.1 hf with rfl | hmem
    · exact hnext
    · exact ih hnext f hmem

theorem Stage.nonneg_of_mem {f : ℚ} (hf : f ∈ s.fractions) : 0 ≤ f := by
  rcases List.mem_cons.1 hf with rfl | hmem
  · exact le_rfl
  · exact nonneg_of_mem_fractions le_rfl f hmem

theorem Stage.reached_mem (s : Stage) : s.reached ∈ s.fractions := List.getLast_mem _

/-- If the reports advance, the last one is the greatest. -/
theorem Stage.Advances.le_reached (h : s.Advances) {f : ℚ} (hf : f ∈ s.fractions) :
    f ≤ s.reached := by
  have hne : s.fractions ≠ [] := by simp [Stage.fractions]
  have hsplit : s.fractions = s.fractions.dropLast ++ [s.reached] :=
    (List.dropLast_append_getLast hne).symm
  have hpairwise := h
  rw [Stage.Advances, hsplit, List.pairwise_append] at hpairwise
  rw [hsplit, List.mem_append, List.mem_singleton] at hf
  rcases hf with hmem | rfl
  · exact hpairwise.2.2 f hmem s.reached (by simp)
  · exact le_rfl

theorem mem_stageLevels {base q : ℚ} :
    q ∈ s.levels base ↔ ∃ f ∈ s.fractions, base + f * s.weight = q := List.mem_map

theorem pairwise_stageLevels (hweight : 0 < s.weight) (base : ℚ) :
    (s.levels base).Pairwise (· ≤ ·) ↔ s.Advances := by
  -- levels are fractions times a positive weight
  rw [Stage.levels, List.pairwise_map]
  refine List.Pairwise.iff ?_
  intro a b
  constructor
  · intro h
    exact le_of_mul_le_mul_right (by linarith) hweight
  · intro h
    have := mul_le_mul_of_nonneg_right h hweight.le
    linarith

/-- All levels of a stage are at most `bound` iff the last one is. -/
theorem stageLevels_le_iff (hweight : 0 < s.weight) (hadvances : s.Advances) (base bound : ℚ) :
    (∀ q ∈ s.levels base, q ≤ bound) ↔ base + s.reached * s.weight ≤ bound := by
  constructor
  · intro h
    exact h _ (mem_stageLevels.2 ⟨s.reached, s.reached_mem, rfl⟩)
  · intro h q hq
    obtain ⟨f, hf, rfl⟩ := mem_stageLevels.1 hq
    have := mul_le_mul_of_nonneg_right (hadvances.le_reached hf) hweight.le
    linarith

/-- Levels begin with the weight of the first stage. -/
theorem first_mem_levels (total : ℚ) (rest : List Stage) :
    total + s.weight ∈ levels total (s :: rest) := by
  refine List.mem_append_left _ (mem_stageLevels.2 ⟨0, by simp [Stage.fractions], ?_⟩)
  rw [zero_mul, add_zero]

theorem first_le_levels {total : ℚ} {rest : List Stage} (hweight : ∀ s' ∈ s :: rest, 0 < s'.weight)
    {q : ℚ} (hq : q ∈ levels total (s :: rest)) : total + s.weight ≤ q := by
  induction rest generalizing s total with
  | nil =>
    simp only [levels, List.append_nil] at hq
    obtain ⟨f, hf, rfl⟩ := mem_stageLevels.1 hq
    have := mul_nonneg (Stage.nonneg_of_mem hf) (hweight s (by simp)).le
    linarith
  | cons s' rest ih =>
    rcases List.mem_append.1 hq with hmem | hmem
    · obtain ⟨f, hf, rfl⟩ := mem_stageLevels.1 hmem
      have := mul_nonneg (Stage.nonneg_of_mem hf) (hweight s (by simp)).le
      linarith
    · have hrest := ih (fun s'' hs'' => hweight s'' (List.mem_cons_of_mem _ hs'')) hmem
      have := hweight s' (by simp)
      linarith

/-- **Levels**: they never go back and stay below 100 iff the stages fit. -/
theorem levels_iff_fits (total : ℚ) (rest : List Stage)
    (hweight : ∀ s' ∈ s :: rest, 0 < s'.weight) :
    (levels total (s :: rest)).Pairwise (· ≤ ·) ∧ (∀ q ∈ levels total (s :: rest), q ≤ 100) ↔
      Fits total (s :: rest) := by
  have hs := hweight s (by simp)
  induction rest generalizing s total with
  | nil =>
    simp only [levels, List.append_nil, Fits, pairwise_stageLevels hs]
    refine and_congr_right fun hadvances => ?_
    rw [stageLevels_le_iff hs hadvances]
  | cons s' rest ih =>
    have hrest : ∀ s'' ∈ s' :: rest, 0 < s''.weight :=
      fun s'' hs'' => hweight s'' (List.mem_cons_of_mem _ hs'')
    have hlater : _ ↔ Fits (total + s.weight) (s' :: rest) :=
      ih (total + s.weight) hrest (hrest s' (by simp))
    rw [levels, List.pairwise_append, pairwise_stageLevels hs, Fits, ← hlater]
    constructor
    · intro ⟨⟨hadvances, hpairwise, hcross⟩, hbound⟩
      refine ⟨hadvances, ?_, hpairwise, fun q hq => hbound q (List.mem_append_right _ hq)⟩
      -- the last level of this stage and the first of the next one
      have hstep := hcross _ (mem_stageLevels.2 ⟨s.reached, s.reached_mem, rfl⟩) _
        (first_mem_levels (s := s') (total + s.weight) rest)
      linarith
    · intro ⟨hadvances, hstep, hpairwise, hbound⟩
      -- no level of this stage is above the first of the next one
      have hfirst : ∀ q ∈ s.levels (total + s.weight), q ≤ total + s.weight + s'.weight :=
        (stageLevels_le_iff hs hadvances _ _).2 (by linarith)
      refine ⟨⟨hadvances, hpairwise, ?_⟩, ?_⟩
      · intro q hq q' hq'
        exact (hfirst q hq).trans (first_le_levels hrest hq')
      · intro q hq
        rcases List.mem_append.1 hq with hmem | hmem
        · exact (hfirst q hmem).trans (hbound _ (first_mem_levels _ _))
        · exact hbound q hmem

/-- **Sound progress.** The percentages of a flow are in range and never go
    back iff its stages fit, for whatever total the part begins at. -/
theorem soundProgress_iff (t : PackageTask) (f : Flow) :
    SoundProgress t f.calls ↔ 0 ≤ t.totalPercentage + 10 ∧ Fits t.totalPercentage f.stages := by
  obtain ⟨s, rest, hstages, hpre, hstage⟩ := f.stages_eq
  rw [hstages] at hstage
  have hweight : ∀ s' ∈ s :: rest, 0 < s'.weight := fun s' hs' => (hstage s' hs').weight_pos
  have hten : s.weight = 10 := by
    unfold Stage.weight
    rw [hpre]
    rfl
  rw [hstages, ← levels_iff_fits _ _ hweight, SoundProgress, f.readings_calls, hstages,
    List.pairwise_append]
  have hfirst := first_mem_levels (s := s) t.totalPercentage rest
  rw [hten] at hfirst
  constructor
  · intro ⟨hrange, hpairwise, _⟩
    exact ⟨(hrange _ (List.mem_append_left _ hfirst)).1, hpairwise,
      fun q hq => (hrange q (List.mem_append_left _ hq)).2⟩
  · intro ⟨hzero, hpairwise, hbound⟩
    -- the end of the flow shows 100
    have hend : ∀ q ∈ f.done.toList.map fun _ => (100 : ℚ), q = 100 := by
      intro q hq
      obtain ⟨-, -, rfl⟩ := List.mem_map.1 hq
      rfl
    refine ⟨?_, hpairwise, ?_, ?_⟩
    · intro q hq
      rcases List.mem_append.1 hq with hmem | hmem
      · have hle := first_le_levels hweight hmem
        rw [hten] at hle
        exact ⟨hzero.trans hle, hbound q hmem⟩
      · rw [hend q hmem]
        norm_num
    · cases f.done <;> simp
    · intro q hq q' hq'
      rw [hend q' hq']
      exact hbound q hq

/-- Installing a module that brings no dependencies: `InstallRef` downloads
    it completely, then `PostAction` begins. -/
def developFlow : Flow where
  stages := [⟨.preAction, "Beginning to install", []⟩,
    ⟨.installApplication, "Installing application", [⟨100, 100, "Downloading files"⟩]⟩,
    ⟨.postAction, "processing after install", []⟩]
  done := some (.allDone, "Install success")
  ordered := by decide
  done_isDone := by decide

/-- 50 percent are shown before `PostAction`, 35 in it. -/
theorem not_soundProgress : ¬ ∀ (taskID : String) (refs : QStringList) (f : Flow),
    SoundProgress (create taskID refs) f.calls := by
  intro h
  have hflow := h "1" (.single "stable:main/app/x86_64/develop") developFlow
  rw [soundProgress_iff] at hflow
  obtain ⟨-, -, -, -, hstep, -⟩ := hflow
  have hwhole : ((100 : UInt32) == 0) = false := by decide
  have hreached : Stage.reached ⟨.installApplication, "Installing application",
      [⟨100, 100, "Downloading files"⟩]⟩ = 100 / 100 := by
    simp [Stage.reached, Stage.fractions, fractions, Report.accepted, Report.fraction, hwhole]
  rw [hreached] at hstep
  norm_num [Stage.weight, subStateMap] at hstep

end PackageTask

end Linglong
