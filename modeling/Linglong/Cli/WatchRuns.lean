import Linglong.Cli.TaskWatch

/-! # Clients over Time

    What holds in every run of the package manager with a client, whatever
    other clients ask for, and whichever signals about properties are lost.

    * **Result** (`exit_of_exec`, `shown_of_exec`). A client that exits has
      the values that its task had when it was removed, and has shown them.
    * **No client waits for nothing** (`left_of_drained`). If the scheduler
      leaves no task behind, each client that waits comes to its end.
    * **One signal is enough** (`last_of_heard`). A client that has handled
      all its signals knows the state of its task, though it may have missed
      any number of them before it subscribed.
    * **A signal after the last one** (`not_crashed_of_exec`). A client that
      is about to leave has no proxy anymore, and a signal about properties
      asks for it. Only a `Cancel` between the removal of a task and its
      deletion sends one.

    1. What the client ends with.
    2. No client waits for nothing.
    3. What the client shows.
    4. What the client has heard of.
    5. Signals after the removal.
-/

namespace Linglong.TaskWatch

open Framework

/-- The events of the client after its request. -/
def Event.ofClient : Event → Bool
  | .reply | .subscribe | .handle | .leave => true
  | _ => false

/-- `Cancel` between the removal and the deletion of the task. -/
def Event.late : Event → Bool
  | .cancelRemoved _ => true
  | _ => false

/-- The forwarder can send. -/
def Event.reaches : Event → Bool
  | .sched _ sent => sent
  | _ => true

/-! ## Section 1: What the client ends with -/

namespace Cli

variable {c : Cli}

@[simp] theorem printProgress_phase (c : Cli) : c.printProgress.phase = c.phase := by
  unfold printProgress; split <;> rfl

@[simp] theorem printProgress_taskObjectPath (c : Cli) :
    c.printProgress.taskObjectPath = c.taskObjectPath := by
  unfold printProgress; split <;> rfl

@[simp] theorem printProgress_task (c : Cli) : c.printProgress.task = c.task := by
  unfold printProgress; split <;> rfl

@[simp] theorem printProgress_last (c : Cli) : c.printProgress.last = c.last := by
  unfold printProgress; split <;> rfl

@[simp] theorem showRemoved_taskObjectPath (c : Cli) :
    c.showRemoved.taskObjectPath = c.taskObjectPath := by
  unfold showRemoved; split_ifs <;> simp

@[simp] theorem showRemoved_task (c : Cli) : c.showRemoved.task = c.task := by
  unfold showRemoved; split_ifs <;> simp

@[simp] theorem showRemoved_last (c : Cli) : c.showRemoved.last = c.last := by
  unfold showRemoved; split_ifs <;> simp

/-- **Cases** of a signal about properties. -/
theorem propertiesChanged_cases (c : Cli) (props : PropCache) :
    (c.task = false ∧ c.onTaskPropertiesChanged props = { c with phase := .crashed }) ∨
      (c.task = true ∧ (c.onTaskPropertiesChanged props).phase = c.phase ∧
        (c.onTaskPropertiesChanged props).taskObjectPath = c.taskObjectPath ∧
        (c.onTaskPropertiesChanged props).task = true ∧
        (c.onTaskPropertiesChanged props).last = c.last.update props) := by
  unfold onTaskPropertiesChanged
  cases htask : c.task with
  | false => exact .inl ⟨rfl, rfl⟩
  | true => exact .inr ⟨rfl, by simp, by simp, by simp, by simp⟩

/-- **Cases** of the removal of a task. -/
theorem taskRemoved_cases (c : Cli) (path : String) (values : Values) :
    (path ≠ c.taskObjectPath ∧ c.onTaskRemoved path values = c) ∨
      (path = c.taskObjectPath ∧ (c.onTaskRemoved path values).phase = .leaving ∧
        (c.onTaskRemoved path values).taskObjectPath = c.taskObjectPath ∧
        (c.onTaskRemoved path values).task = false ∧
        (c.onTaskRemoved path values).last = values) := by
  unfold onTaskRemoved
  split
  · next hne => exact .inl ⟨hne, rfl⟩
  · next heq =>
    refine .inr ⟨not_not.1 heq, ?_⟩
    dsimp only
    split
    · next hlast => exact ⟨rfl, rfl, rfl, hlast⟩
    · exact ⟨rfl, by simp, by simp, by simp⟩

end Cli

namespace Watch

variable {s s' : Watch}

/-- Nothing has happened but signals about properties. -/
structure Quietly (s s' : Watch) : Prop where
  sched : s'.sched = s.sched
  path : s'.path = s.path
  cli : s'.cli = s.cli
  final : s'.final = s.final
  removed : s'.removed = s.removed
  subscribed : s'.subscribed = s.subscribed
  inbox : ∃ props : List PropCache, s'.inbox = s.inbox ++ props.map .propertiesChanged

theorem quietly_send (s : Watch) (sent : Bool) (props : List PropCache) :
    Quietly s (s.send sent props) := by
  unfold send
  split
  · exact ⟨rfl, rfl, rfl, rfl, rfl, rfl, props, rfl⟩
  · exact ⟨rfl, rfl, rfl, rfl, rfl, rfl, [], by simp⟩

theorem quietly_calls (s : Watch) (t : PackageTask) (cs : List PackageTask.Call) (sent : Bool) :
    Quietly s (s.calls t cs sent) := by
  have h := quietly_send { s with propCache := ((BusTask.mk t s.propCache).run cs).1.propCache }
    sent ((BusTask.mk t s.propCache).run cs).2
  exact ⟨h.sched, h.path, h.cli, h.final, h.removed, h.subscribed, h.inbox⟩

theorem quietly_forward (s : Watch) (e : Linglong.Event) (sent : Bool) :
    Quietly s (s.forward e sent) := by
  unfold forward
  split
  · exact ⟨rfl, rfl, rfl, rfl, rfl, rfl, [], by simp⟩
  · exact quietly_calls s _ _ sent

theorem Quietly.mem_inbox (h : Quietly s s') {path : String} {v : Values} :
    Signal.taskRemoved path v ∈ s'.inbox ↔ Signal.taskRemoved path v ∈ s.inbox := by
  obtain ⟨props, hinbox⟩ := h.inbox
  rw [hinbox]
  simp

/-- The task of the client is in the list, or it has been removed and the
    client is told so, with what the task was then. -/
structure Agreed (s : Watch) : Prop where
  created : ∀ p ∈ s.sched.paths, p ∈ s.sched.created
  ownCreated : ∀ p, s.path = some p → p ∈ s.sched.created
  sentCreated : ∀ p v, Signal.taskRemoved p v ∈ s.inbox → p ∈ s.sched.created
  ready : s.path = none ↔ s.cli.phase = .ready
  named : s.cli.phase ≠ .ready → s.cli.phase ≠ .waiting → s.path = some s.cli.taskObjectPath
  proxy : s.cli.phase = .watching → s.cli.task = true
  noProxy : s.cli.phase = .leaving → s.cli.task = false
  present : ∀ p, s.path = some p → s.final = none → found s.sched p ≠ none
  absent : ∀ p, s.path = some p → s.final ≠ none → found s.sched p = none
  told : ∀ p v, s.path = some p → Signal.taskRemoved p v ∈ s.inbox → s.final = some v
  noFinal : s.path = none → s.final = none
  dying : s.removed ≠ none → s.final ≠ none
  waits : s.cli.phase = .waiting ∨ s.cli.phase = .watching → ∀ v, s.final = some v →
    ∃ p, s.path = some p ∧ Signal.taskRemoved p v ∈ s.inbox
  leaves : s.cli.phase = .leaving → s.final = some s.cli.last
  exits : ∀ code, s.cli.phase = .exited code → s.final = some s.cli.last ∧ code = s.cli.exitCode

/-- Signals about properties keep it. -/
theorem Agreed.quietly (h : Agreed s) (hq : Quietly s s') : Agreed s' where
  created := by rw [hq.sched]; exact h.created
  ownCreated := by rw [hq.sched, hq.path]; exact h.ownCreated
  sentCreated := by
    intro p v hmem
    rw [hq.sched]
    exact h.sentCreated p v (hq.mem_inbox.1 hmem)
  ready := by rw [hq.path, hq.cli]; exact h.ready
  named := by rw [hq.path, hq.cli]; exact h.named
  proxy := by rw [hq.cli]; exact h.proxy
  noProxy := by rw [hq.cli]; exact h.noProxy
  present := by rw [hq.path, hq.final, hq.sched]; exact h.present
  absent := by rw [hq.path, hq.final, hq.sched]; exact h.absent
  told := by
    intro p v hp hmem
    rw [hq.final]
    exact h.told p v (hq.path ▸ hp) (hq.mem_inbox.1 hmem)
  noFinal := by rw [hq.path, hq.final]; exact h.noFinal
  dying := by rw [hq.removed, hq.final]; exact h.dying
  waits := by
    intro hphase v hv
    rw [hq.cli] at hphase
    rw [hq.final] at hv
    obtain ⟨p, hp, hmem⟩ := h.waits hphase v hv
    exact ⟨p, hq.path.trans hp, hq.mem_inbox.2 hmem⟩
  leaves := by rw [hq.cli, hq.final]; exact h.leaves
  exits := by rw [hq.cli, hq.final]; exact h.exits

/-- The request of someone else does not make the task of the client. -/
theorem Agreed.other (h : Agreed s) {e : Linglong.Event} {sched : Scheduler}
    (hnext : s.sched.next e = some sched) {p : String} (hp : s.path = some p) :
    ∀ kind taskID refs, e = .request kind taskID refs →
      (Scheduler.newTask kind taskID refs).taskObjectPath ≠ p := by
  rintro kind taskID refs rfl heq
  unfold Scheduler.next at hnext
  dsimp only at hnext
  split at hnext
  · next hguard => exact hguard.2.2 (heq ▸ h.ownCreated p hp)
  · cases hnext

/-- The scheduler moves on, and the task of the client stays what it is. -/
theorem Agreed.moves (h : Agreed s) {sched : Scheduler}
    (hcreated : ∀ p ∈ sched.paths, p ∈ sched.created)
    (hmore : ∀ p ∈ s.sched.created, p ∈ sched.created)
    (hfound : ∀ p, s.path = some p → (found sched p = none ↔ found s.sched p = none)) :
    Agreed { s with sched := sched } where
  created := hcreated
  ownCreated := fun p hp => hmore p (h.ownCreated p hp)
  sentCreated := fun p v hmem => hmore p (h.sentCreated p v hmem)
  ready := h.ready
  named := h.named
  proxy := h.proxy
  noProxy := h.noProxy
  present := fun p hp hnone => mt (hfound p hp).1 (h.present p hp hnone)
  absent := fun p hp hsome => (hfound p hp).2 (h.absent p hp hsome)
  told := h.told
  noFinal := h.noFinal
  dying := h.dying
  waits := h.waits
  leaves := h.leaves
  exits := h.exits

/-- A job returns: its task leaves the list, and the clients are told. -/
theorem Agreed.remove (h : Agreed s) {e : Linglong.Event} {sched : Scheduler} {t : PackageTask}
    (hnext : s.sched.next e = some sched) (ht : returning s.sched e = some t) :
    Agreed { s.remove t with sched := sched } := by
  obtain ⟨hcreated, hmore⟩ := created_next hnext h.created
  have hmem : found s.sched t.taskObjectPath = some t := mem_of_returning ht
  have hpath : t.taskObjectPath ∈ s.sched.created := by
    refine h.created _ ?_
    by_contra hnot
    rw [← found_eq_none_iff, hmem] at hnot
    cases hnot
  have hsent : ∀ p v, Signal.taskRemoved p v ∈ s.inbox ++ [.taskRemoved t.taskObjectPath (.of t)] →
      Signal.taskRemoved p v ∈ s.inbox ∨ p = t.taskObjectPath ∧ v = .of t := by
    intro p v hp
    simpa using hp
  have hsentCreated : ∀ p v,
      Signal.taskRemoved p v ∈ s.inbox ++ [.taskRemoved t.taskObjectPath (.of t)] →
      p ∈ sched.created := by
    intro p v hp
    rcases hsent p v hp with hold | ⟨rfl, -⟩
    · exact hmore p (h.sentCreated p v hold)
    · exact hmore _ hpath
  by_cases hown : s.path = some t.taskObjectPath
  · -- it is the task of the client, which has not been removed before
    have hnone : s.final = none := by
      by_contra hsome
      rw [h.absent _ hown hsome] at hmem
      cases hmem
    have hgone : found sched t.taskObjectPath = none := by
      rw [found_next hnext (h.other hnext hown), ht]
      simp
    unfold Watch.remove
    rw [if_pos hown]
    refine ⟨hcreated, fun p hp => hmore p (h.ownCreated p hp), hsentCreated, h.ready, h.named,
      h.proxy, h.noProxy, fun _ _ => nofun, ?_, ?_, ?_, fun _ => nofun, ?_, ?_, ?_⟩
    · intro p hp _
      rw [hown] at hp
      cases hp
      exact hgone
    · intro p v hp hin
      rcases hsent p v hin with hold | ⟨-, rfl⟩
      · rw [h.told p v hp hold] at hnone
        cases hnone
      · rfl
    · intro hp
      rw [hown] at hp
      cases hp
    · intro _ v hv
      cases hv
      exact ⟨_, hown, by simp⟩
    · intro hphase
      rw [h.leaves hphase] at hnone
      cases hnone
    · intro code hphase
      rw [(h.exits code hphase).1] at hnone
      cases hnone
  · have hfound : ∀ p, s.path = some p → (found sched p = none ↔ found s.sched p = none) := by
      intro p hp
      have hne : t.taskObjectPath ≠ p := fun heq => hown (heq ▸ hp)
      rw [found_next hnext (h.other hnext hp), ht]
      simp [hne]
    unfold Watch.remove
    rw [if_neg hown]
    have hmoves := h.moves hcreated hmore hfound
    refine { hmoves with sentCreated := hsentCreated, told := ?_, waits := ?_ }
    · intro p v hp hin
      rcases hsent p v hin with hold | ⟨rfl, -⟩
      · exact h.told p v hp hold
      · exact absurd hp hown
    · intro hphase v hv
      obtain ⟨p, hp, hin⟩ := h.waits hphase v hv
      exact ⟨p, hp, List.mem_append_left _ hin⟩

/-- **Step**: an event of the package manager. -/
theorem Agreed.sched (h : Agreed s) {e : Linglong.Event} {sent : Bool} {sched : Scheduler}
    (hnext : s.sched.next e = some sched) :
    Agreed { s.observe e sent with sched := sched } := by
  unfold observe
  cases hreturning : returning s.sched e with
  | some t => exact h.remove hnext hreturning
  | none =>
    have hquiet := quietly_forward s e sent
    obtain ⟨hcreated, hmore⟩ := created_next hnext h.created
    refine (h.quietly hquiet).moves hcreated (by rw [hquiet.sched]; exact hmore) fun p hp => ?_
    rw [hquiet.path] at hp
    rw [hquiet.sched, found_next hnext (h.other hnext hp), hreturning]
    simp

/-- **Step**: the request of the client. -/
theorem Agreed.request (h : Agreed s) {kind : RequestKind} {taskID : String} {refs : QStringList}
    {sched : Scheduler} (hready : s.cli.phase = .ready)
    (hnext : s.sched.next (.request kind taskID refs) = some sched) :
    Agreed { s with
      sched := sched
      path := some (newBusTask kind taskID refs).task.taskObjectPath
      propCache := (newBusTask kind taskID refs).propCache
      cli := { s.cli with phase := .waiting } } := by
  obtain ⟨hcreated, hmore⟩ := created_next hnext h.created
  have hnone : s.final = none := h.noFinal (h.ready.2 hready)
  unfold Scheduler.next at hnext
  dsimp only at hnext
  split at hnext
  · next hguard =>
    cases hnext
    rw [newBusTask_task]
    have hfresh := hguard.2.2
    have hpaths : (Scheduler.newTask kind taskID refs).taskObjectPath ∉ s.sched.paths :=
      fun hp => hfresh (h.created _ hp)
    refine ⟨hcreated, ?_, fun p v hin => hmore p (h.sentCreated p v hin), ⟨nofun, nofun⟩,
      fun _ hne => absurd rfl hne, nofun, nofun, ?_, ?_, ?_, nofun, h.dying, ?_, nofun, nofun⟩
    · intro p hp
      cases hp
      exact List.mem_cons_self
    · intro p hp _
      cases hp
      rw [found_addTask hpaths]
      exact nofun
    · intro p _ hsome
      exact absurd hnone hsome
    · intro p v hp hin
      cases hp
      exact absurd (h.sentCreated _ v hin) hfresh
    · intro _ v hv
      rw [hnone] at hv
      cases hv
  · cases hnext

/-- What a client in the event loop owes to the invariant. -/
theorem Agreed.client (h : Agreed s) {c : Cli} {rest : List Signal}
    (hown : s.path = some s.cli.taskObjectPath) (hrest : rest ⊆ s.inbox)
    (hphase : c.phase = .crashed ∨ c.phase = .watching ∨ c.phase = .leaving)
    (hpath : c.taskObjectPath = s.cli.taskObjectPath) (hproxy : c.phase = .watching → c.task = true)
    (hnoProxy : c.phase = .leaving → c.task = false)
    (hwaits : c.phase = .watching → ∀ v, s.final = some v →
      Signal.taskRemoved s.cli.taskObjectPath v ∈ rest)
    (hleaves : c.phase = .leaving → s.final = some c.last) :
    Agreed { s with inbox := rest, cli := c } where
  created := h.created
  ownCreated := h.ownCreated
  sentCreated := fun p v hin => h.sentCreated p v (hrest hin)
  ready := by
    constructor
    · intro hnone
      rw [hown] at hnone
      cases hnone
    · intro hready
      rcases hphase with hc | hc | hc <;> exact absurd (hc.symm.trans hready) (by decide)
  named := fun _ _ => by rw [hpath]; exact hown
  proxy := hproxy
  noProxy := hnoProxy
  present := h.present
  absent := h.absent
  told := fun p v hp hin => h.told p v hp (hrest hin)
  noFinal := h.noFinal
  dying := h.dying
  waits := by
    rintro (hc' | hc') v hv
    · rcases hphase with hc | hc | hc <;> exact absurd (hc.symm.trans hc') (by decide)
    · exact ⟨_, hown, hwaits hc' v hv⟩
  leaves := hleaves
  exits := by
    intro code hc'
    rcases hphase with hc | hc | hc <;> exact absurd (hc.symm.trans hc') (by simp)

/-- **Step**: the client handles a signal. -/
theorem Agreed.handle (h : Agreed s) {m : Signal} {rest : List Signal}
    (hphase : s.cli.phase = .watching ∨ s.cli.phase = .leaving) (hinbox : s.inbox = m :: rest) :
    Agreed { s with inbox := rest, cli := s.cli.handle m } := by
  have hown : s.path = some s.cli.taskObjectPath := by
    refine h.named ?_ ?_
    · rcases hphase with hphase | hphase <;> simp [hphase]
    · rcases hphase with hphase | hphase <;> simp [hphase]
  have hrest : rest ⊆ s.inbox := by
    rw [hinbox]
    exact List.subset_cons_self m rest
  -- a client that still waits has its own removal before it
  have hwaits : s.cli.phase = .watching → ∀ v, s.final = some v →
      Signal.taskRemoved s.cli.taskObjectPath v = m ∨
        Signal.taskRemoved s.cli.taskObjectPath v ∈ rest := by
    intro hwatching v hv
    obtain ⟨p, hp, hin⟩ := h.waits (.inr hwatching) v hv
    rw [hown] at hp
    cases hp
    rw [hinbox] at hin
    exact List.mem_cons.1 hin
  cases m with
  | propertiesChanged props =>
    rcases s.cli.propertiesChanged_cases props with
      ⟨-, hrun⟩ | ⟨htask, hsame, hpath, htask', -⟩
    · rw [Cli.handle, hrun]
      exact h.client hown hrest (.inl rfl) rfl nofun nofun nofun nofun
    · have hwatching : s.cli.phase = .watching := by
        rcases hphase with hphase | hphase
        · exact hphase
        · rw [h.noProxy hphase] at htask
          cases htask
      rw [hwatching] at hsame
      refine h.client hown hrest (.inr (.inl hsame)) hpath (fun _ => htask') ?_ ?_ ?_
      · exact fun hc => absurd (hsame.symm.trans hc) (by decide)
      · exact fun _ v hv => (hwaits hwatching v hv).resolve_left nofun
      · exact fun hc => absurd (hsame.symm.trans hc) (by decide)
  | taskRemoved path v =>
    rcases s.cli.taskRemoved_cases path v with ⟨hne, hrun⟩ | ⟨heq, hleaving, hpath, htask, hlast⟩
    · rw [Cli.handle, hrun]
      refine h.client hown hrest (.inr hphase) rfl h.proxy h.noProxy (fun hwatching w hw => ?_)
        h.leaves
      refine (hwaits hwatching w hw).resolve_left fun heq => ?_
      cases heq
      exact hne rfl
    · have hfinal : s.final = some v := by
        refine h.told _ v hown ?_
        rw [hinbox, heq]
        exact List.mem_cons_self
      refine h.client hown hrest (.inr (.inr hleaving)) hpath ?_ (fun _ => htask) ?_ ?_
      · exact fun hc => absurd (hleaving.symm.trans hc) (by decide)
      · exact fun hc => absurd (hleaving.symm.trans hc) (by decide)
      · intro _
        rw [hfinal]
        exact congrArg some hlast.symm

/-- **Step**: any event. -/
theorem agreed_next (s : Watch) (e : Event) (s' : Watch) (h : Agreed s)
    (hnext : machine.next s e = some s') : Agreed s' := by
  cases e with
  | sched e sent =>
    obtain ⟨sched, hsched, rfl⟩ := Option.map_eq_some_iff.1 hnext
    exact h.sched hsched
  | hide newSubState message =>
    dsimp only [machine, next] at hnext
    split at hnext
    · next path rest _ =>
      cases hnext
      have hpaths : ∀ t : PackageTask,
          ((t.setSubState newSubState).setMessage message).taskObjectPath = t.taskObjectPath :=
        fun _ => rfl
      refine h.moves ?_ (fun _ => id) fun p _ => ?_
      · rw [Scheduler.paths_modifyTask s.sched path hpaths]
        exact h.created
      · rw [found_eq_none_iff, found_eq_none_iff, Scheduler.paths_modifyTask s.sched path hpaths]
    · cases hnext
  | cancelRemoved sent =>
    dsimp only [machine, next] at hnext
    split at hnext
    · cases hnext
    · next t hremoved =>
      split at hnext
      · cases hnext
        have hquiet := quietly_calls s t [.cancel] sent
        have hcalls : Agreed (s.calls t [.cancel] sent) := h.quietly hquiet
        refine { hcalls with dying := fun _ => hcalls.dying ?_ }
        rw [hquiet.removed, hremoved]
        exact nofun
      · cases hnext
  | delete =>
    cases hnext
    exact { h with dying := fun hne => absurd rfl hne }
  | request kind taskID refs =>
    dsimp only [machine, next] at hnext
    split at hnext
    · next hready =>
      obtain ⟨sched, hsched, rfl⟩ := Option.map_eq_some_iff.1 hnext
      exact h.request hready hsched
    · cases hnext
  | reply =>
    dsimp only [machine, next] at hnext
    split at hnext
    · next path hphase hpath =>
      cases hnext
      refine { h with
        ready := ?_, named := fun _ _ => hpath, proxy := fun _ => rfl, noProxy := nofun,
        waits := fun _ => h.waits (.inl hphase), leaves := nofun, exits := nofun }
      rw [hpath]
      exact ⟨nofun, nofun⟩
    · cases hnext
  | subscribe =>
    dsimp only [machine, next] at hnext
    split at hnext
    · cases hnext
      exact { h with }
    · cases hnext
  | handle =>
    dsimp only [machine, next] at hnext
    split at hnext
    · next hphase =>
      split at hnext
      · cases hnext
      · next m rest hinbox =>
        cases hnext
        exact h.handle hphase hinbox
    · cases hnext
  | leave =>
    dsimp only [machine, next] at hnext
    split at hnext
    · next hphase =>
      cases hnext
      have hown : s.path = some s.cli.taskObjectPath :=
        h.named (by simp [hphase]) (by simp [hphase])
      refine { h with
        ready := ?_, named := fun _ _ => hown, proxy := nofun, noProxy := nofun,
        waits := fun hc => (by rcases hc with hc | hc <;> cases hc), leaves := nofun, exits := ?_ }
      · rw [hown]
        exact ⟨nofun, nofun⟩
      · intro code hcode
        cases hcode
        exact ⟨h.leaves hphase, rfl⟩
    · cases hnext

/-- Before anything has happened. -/
theorem agreed_init : Agreed {} where
  created := nofun
  ownCreated := nofun
  sentCreated := nofun
  ready := ⟨fun _ => rfl, fun _ => rfl⟩
  named := fun hne => absurd rfl hne
  proxy := nofun
  noProxy := nofun
  present := nofun
  absent := nofun
  told := nofun
  noFinal := fun _ => rfl
  dying := fun hne => absurd rfl hne
  waits := fun _ => nofun
  leaves := nofun
  exits := nofun

/-- **Run**: any events. -/
theorem agreed_of_exec {events : List Event} (h : machine.exec {} events = some s) : Agreed s :=
  machine.invariant_of_exec agreed_next agreed_init h

/-- **Main result**: in any run, a client that exits has the values that its
    task had when it was removed, whichever signals were lost, and its exit
    code is 0 iff the task succeeded. The task is not in the list anymore. -/
theorem exit_of_exec {events : List Event} {code : Int} (h : machine.exec {} events = some s)
    (hcode : s.cli.phase = .exited code) :
    s.final = some s.cli.last ∧ (code = 0 ↔ s.cli.last.state = .succeed) ∧
      found s.sched s.cli.taskObjectPath = none := by
  have hagreed := agreed_of_exec h
  obtain ⟨hfinal, hexit⟩ := hagreed.exits code hcode
  have hown := hagreed.named (by simp [hcode]) (by simp [hcode])
  refine ⟨hfinal, ?_, hagreed.absent _ hown (by simp [hfinal])⟩
  rw [hexit, Cli.exitCode]
  split
  · next hsucceed => simp [hsucceed]
  · next hsucceed => simp [hsucceed]

/-- An app is installed, and the client is told. -/
def installed : List Event :=
  [.request .install "a" (.single "main:stable/org.shop/x86_64/binary"), .sched (.deliver 0) true,
    .reply, .subscribe, .sched (.call (.updateState .processing "start" none)) true,
    .sched (.call (.updateState .partCompleted "done" none)) true, .sched .finish true,
    .sched (.deliver 0) true]

/-- The client handles what it has been told. -/
def handled : List Event := installed ++ [.handle, .handle, .handle, .leave]

theorem exec_handled : ∃ s, machine.exec {} handled = some s ∧ s.cli.phase = .exited 0 ∧
    s.final = some ⟨.succeed, .allDone, "done", 100⟩ := ⟨_, rfl, rfl, rfl⟩

theorem exit_of_exec_handled : ∃ s, machine.exec {} handled = some s ∧
    s.final = some s.cli.last ∧ ((0 : Int) = 0 ↔ s.cli.last.state = .succeed) ∧
      found s.sched s.cli.taskObjectPath = none := by
  obtain ⟨s, hexec, hcode, -⟩ := exec_handled
  exact ⟨s, hexec, exit_of_exec hexec hcode⟩

/-! ## Section 2: No client waits for nothing -/

/-- The steps after which the scheduler leaves nothing behind. -/
def leavesNothing (s : Watch) : Event → Prop
  | .sched e _ => s.sched.leavesNothing e
  | _ => True

instance (s : Watch) : ∀ e, Decidable (s.leavesNothing e)
  | .sched e _ => inferInstanceAs (Decidable (s.sched.leavesNothing e))
  | .hide .. | .cancelRemoved _ | .delete | .request .. | .reply | .subscribe | .handle
  | .leave => isTrue trivial

/-- **Step**: the scheduler stays able to start all its tasks. -/
theorem drains_next (s : Watch) (e : Event) (s' : Watch) (h : s.sched.Drains)
    (hok : s.leavesNothing e) (hnext : machine.next s e = some s') : s'.sched.Drains := by
  cases e with
  | sched e sent =>
    obtain ⟨sched, hsched, rfl⟩ := Option.map_eq_some_iff.1 hnext
    exact Scheduler.drains_step s.sched e sched h hok hsched
  | hide newSubState message =>
    dsimp only [machine, next] at hnext
    split at hnext
    · next path rest hstack =>
      cases hnext
      exact h.modify_active (fun _ => rfl) (.inl (by simp [Scheduler.active, hstack]))
    · cases hnext
  | cancelRemoved sent =>
    dsimp only [machine, next] at hnext
    split at hnext
    · cases hnext
    · next t _ =>
      split at hnext
      · cases hnext
        have hsched : (s.calls t [.cancel] sent).sched = s.sched := (quietly_calls s t _ sent).sched
        exact hsched.symm ▸ h
      · cases hnext
  | request kind taskID refs =>
    dsimp only [machine, next] at hnext
    split at hnext
    · obtain ⟨sched, hsched, rfl⟩ := Option.map_eq_some_iff.1 hnext
      exact Scheduler.drains_step s.sched (.request kind taskID refs) sched h trivial hsched
    · cases hnext
  | delete =>
    cases hnext
    exact h
  | reply | subscribe | handle | leave =>
    dsimp only [machine, next] at hnext
    repeat' split at hnext
    all_goals first | (cases hnext; exact h) | cases hnext

/-- A client that has been told handles its signals up to that one. -/
theorem leaving_of_told {s : Watch} (h : Agreed s) (hphase : s.cli.phase = .watching)
    {v : Values} (hfinal : s.final = some v) :
    ∃ n s', n ≤ s.inbox.length ∧ machine.exec s (List.replicate n .handle) = some s' ∧
      s'.cli.phase = .leaving ∧ s'.final = some v ∧ Agreed s' := by
  have hown := h.named (by simp [hphase]) (by simp [hphase])
  induction hinbox : s.inbox generalizing s with
  | nil =>
    obtain ⟨p, -, hin⟩ := h.waits (.inr hphase) v hfinal
    rw [hinbox] at hin
    cases hin
  | cons m rest ih =>
    have hnext : machine.next s .handle =
        some { s with inbox := rest, cli := s.cli.handle m } := by
      dsimp only [machine, next]
      rw [if_pos (.inl hphase), hinbox]
    have hagreed : Agreed { s with inbox := rest, cli := s.cli.handle m } :=
      h.handle (.inl hphase) hinbox
    have hpath : (s.cli.handle m).phase = .leaving ∨ (s.cli.handle m).phase = .watching := by
      cases m with
      | propertiesChanged props =>
        rcases s.cli.propertiesChanged_cases props with ⟨htask, -⟩ | ⟨-, hsame, -⟩
        · rw [h.proxy hphase] at htask
          cases htask
        · exact .inr (hsame.trans hphase)
      | taskRemoved path w =>
        rcases s.cli.taskRemoved_cases path w with ⟨-, hsame⟩ | ⟨-, hleaving, -⟩
        · exact .inr (by rw [Cli.handle, hsame, hphase])
        · exact .inl hleaving
    rcases hpath with hleaving | hwatching
    · refine ⟨1, { s with inbox := rest, cli := s.cli.handle m }, by simp, ?_, hleaving, hfinal,
        hagreed⟩
      exact machine.exec_cons_some.2 ⟨_, hnext, rfl⟩
    · have hown' := hagreed.named (by simp [hwatching]) (by simp [hwatching])
      obtain ⟨n, s', hn, hexec, hlast⟩ := ih hagreed hwatching hfinal hown' rfl
      exact ⟨n + 1, s', Nat.succ_le_succ hn, machine.exec_cons_some.2 ⟨_, hnext, hexec⟩, hlast⟩

/-- An idle scheduler has removed the task of every client. -/
theorem final_of_idle (h : Agreed s) (hdrains : s.sched.Drains) (hidle : s.sched.stack = [])
    (hquiet : s.sched.pending = []) (hphase : s.cli.phase ≠ .ready) : ∃ v, s.final = some v := by
  have hempty : s.sched.taskList = [] := by
    by_contra hne
    exact hdrains.signal hidle hne hquiet
  obtain ⟨p, hp⟩ := Option.ne_none_iff_exists'.1 (mt h.ready.1 hphase)
  rw [← Option.ne_none_iff_exists']
  intro hnone
  refine h.present p hp hnone ?_
  rw [found, hempty]
  rfl

theorem ofClient_replicate (n : Nat) :
    ∀ e ∈ List.replicate n Event.handle ++ [.leave], Event.ofClient e = true := by
  intro e he
  rw [List.mem_append, List.mem_singleton] at he
  rcases he with he | rfl
  · rw [List.eq_of_mem_replicate he]
    rfl
  · rfl

/-- A client in the loop that has been told exits. -/
theorem exited_of_watching (h : Agreed s) (hphase : s.cli.phase = .watching) {v : Values}
    (hfinal : s.final = some v) :
    ∃ rest s', (∀ e ∈ rest, Event.ofClient e = true) ∧ machine.exec s rest = some s' ∧
      s'.cli.phase = .exited (if v.state = .succeed then 0 else -1) := by
  obtain ⟨n, s', -, hhandles, hleaving, hfinal', h'⟩ := leaving_of_told h hphase hfinal
  have hlast : v = s'.cli.last := by
    have hsome := h'.leaves hleaving
    rw [hfinal'] at hsome
    exact Option.some.inj hsome
  have hnext : machine.next s' .leave =
      some { s' with cli := { s'.cli with phase := .exited s'.cli.exitCode } } := by
    dsimp only [machine, next]
    rw [if_pos hleaving]
  have hexec : machine.exec s (List.replicate n .handle ++ [.leave]) =
      some { s' with cli := { s'.cli with phase := .exited s'.cli.exitCode } } := by
    rw [machine.exec_append hhandles, machine.exec_cons, hnext]
    rfl
  exact ⟨_, _, ofClient_replicate n, hexec, by rw [hlast]; rfl⟩

/-- So does one that waits for the reply. -/
theorem exited_of_waiting (h : Agreed s) (hphase : s.cli.phase = .waiting) {v : Values}
    (hfinal : s.final = some v) :
    ∃ rest s', (∀ e ∈ rest, Event.ofClient e = true) ∧ machine.exec s rest = some s' ∧
      s'.cli.phase = .exited (if v.state = .succeed then 0 else -1) := by
  have hready : s.cli.phase ≠ .ready := by simp [hphase]
  obtain ⟨p, hp⟩ := Option.ne_none_iff_exists'.1 (mt h.ready.1 hready)
  have hnext : machine.next s .reply = some { s with cli := s.cli.onReply p } := by
    dsimp only [machine, next]
    rw [hphase, hp]
  have h' := agreed_next s .reply _ h hnext
  obtain ⟨rest, s', hrest, hexec, hexited⟩ := exited_of_watching h' rfl hfinal
  refine ⟨.reply :: rest, s', ?_, machine.exec_cons_some.2 ⟨_, hnext, hexec⟩, hexited⟩
  exact List.forall_mem_cons.2 ⟨rfl, hrest⟩

/-- **Main result**: if no step leaves a task behind, then whenever the package
    manager has nothing left to do, each client that still waits comes to its
    end by itself, with the result of its task. -/
theorem left_of_drained {events : List Event} (hmeets : machine.Meets leavesNothing {} events)
    (hexec : machine.exec {} events = some s) (hidle : s.sched.stack = [])
    (hquiet : s.sched.pending = []) (hphase : s.cli.phase = .waiting ∨ s.cli.phase = .watching) :
    ∃ v rest s', s.final = some v ∧ (∀ e ∈ rest, Event.ofClient e = true) ∧
      machine.exec s rest = some s' ∧
      s'.cli.phase = .exited (if v.state = .succeed then 0 else -1) := by
  have hagreed := agreed_of_exec hexec
  have hdrains : s.sched.Drains :=
    machine.invariant_of_meets drains_next Scheduler.drains_init hmeets hexec
  have hready : s.cli.phase ≠ .ready := by
    rcases hphase with hphase | hphase <;> simp [hphase]
  obtain ⟨v, hfinal⟩ := final_of_idle hagreed hdrains hidle hquiet hready
  rcases hphase with hwaiting | hwatching
  · obtain ⟨rest, s', hrest, hrun, hexited⟩ := exited_of_waiting hagreed hwaiting hfinal
    exact ⟨v, rest, s', hfinal, hrest, hrun, hexited⟩
  · obtain ⟨rest, s', hrest, hrun, hexited⟩ := exited_of_watching hagreed hwatching hfinal
    exact ⟨v, rest, s', hfinal, hrest, hrun, hexited⟩

theorem left_of_drained_installed : ∃ s, machine.exec {} installed = some s ∧
    ∃ v rest s', s.final = some v ∧ (∀ e ∈ rest, Event.ofClient e = true) ∧
      machine.exec s rest = some s' ∧
      s'.cli.phase = .exited (if v.state = .succeed then 0 else -1) := by
  have hmeets : machine.Meets leavesNothing {} installed := by decide
  exact ⟨_, rfl, left_of_drained hmeets rfl rfl rfl (.inr rfl)⟩

/-! ## Section 3: What the client shows -/

/-- The result has been shown. Values without a state are not shown. -/
def Reported (c : Cli) : Prop :=
  c.last.state ≠ .unknown →
    (c.last.subState = .allDone → c.shown.getLast? = some (.progress c.last)) ∧
      (c.last.subState = .packageManagerDone →
        c.shown.getLast? = some (.notification c.last.message) ∨
          c.shown.getLast? = some (.progress c.last))

/-- What a client has shown at each point of a command. -/
structure Shows (c : Cli) : Prop where
  early : c.phase = .ready ∨ c.phase = .waiting → c.last = .init
  watching : c.phase = .watching → c.last.state ≠ .unknown →
    c.shown.getLast? = some (.progress c.last)
  leaving : c.phase = .leaving → Reported c
  exited : ∀ code, c.phase = .exited code → Reported c

theorem getLast_printProgress {c : Cli} (h : c.last.state ≠ .unknown) :
    c.printProgress.shown.getLast? = some (.progress c.last) := by
  unfold Cli.printProgress
  rw [if_neg h]
  exact List.getLast?_concat

theorem reported_showRemoved (c : Cli) : Reported c.showRemoved := by
  intro hknown
  rw [Cli.showRemoved_last] at hknown ⊢
  unfold Cli.showRemoved
  constructor
  · intro hdone
    rw [if_pos hdone]
    exact getLast_printProgress hknown
  · intro hdone
    rw [if_neg (by simp [hdone]), if_pos hdone]
    exact .inl List.getLast?_concat

/-- **Step**: the client handles a signal. -/
theorem Shows.handle {c : Cli} (h : Shows c) (hphase : c.phase = .watching ∨ c.phase = .leaving)
    (hproxy : c.phase = .leaving → c.task = false) (m : Signal) : Shows (c.handle m) := by
  -- what has been shown so far is the result if nothing changes
  have hsame : Reported c := by
    rcases hphase with hphase | hphase
    · intro hknown
      have hlast := h.watching hphase hknown
      exact ⟨fun _ => hlast, fun _ => .inr hlast⟩
    · exact h.leaving hphase
  cases m with
  | propertiesChanged props =>
    unfold Cli.handle Cli.onTaskPropertiesChanged
    dsimp only
    split
    · exact ⟨nofun, nofun, nofun, nofun⟩
    · next htask =>
      have hwatching : c.phase = .watching :=
        hphase.resolve_right fun hleaving => htask (hproxy hleaving)
      refine ⟨fun hc => ?_, fun _ hknown => ?_, fun hc => ?_, fun code hc => ?_⟩
      · rw [Cli.printProgress_phase, hwatching] at hc
        simp at hc
      · rw [Cli.printProgress_last] at hknown ⊢
        exact getLast_printProgress hknown
      · rw [Cli.printProgress_phase, hwatching] at hc
        cases hc
      · rw [Cli.printProgress_phase, hwatching] at hc
        cases hc
  | taskRemoved path v =>
    unfold Cli.handle Cli.onTaskRemoved
    dsimp only
    split
    · exact h
    · split
      · exact ⟨nofun, nofun, fun _ => hsame, nofun⟩
      · exact ⟨nofun, nofun, fun _ => reported_showRemoved { c with task := false, last := v },
          nofun⟩

/-- Events of the package manager do not touch the client. -/
theorem cli_observe (s : Watch) (e : Linglong.Event) (sent : Bool) :
    (s.observe e sent).cli = s.cli := by
  unfold observe
  split
  · exact (quietly_forward s e sent).cli
  · unfold remove
    dsimp only
    split
    · rfl
    · rfl

/-- **Step**: any event. -/
theorem shows_next (s : Watch) (e : Event) (s' : Watch) (h : Agreed s ∧ Shows s.cli)
    (hnext : machine.next s e = some s') : Agreed s' ∧ Shows s'.cli := by
  refine ⟨agreed_next s e s' h.1 hnext, ?_⟩
  obtain ⟨hagreed, hshows⟩ := h
  cases e with
  | sched e sent =>
    obtain ⟨sched, hsched, rfl⟩ := Option.map_eq_some_iff.1 hnext
    dsimp only
    rw [cli_observe]
    exact hshows
  | cancelRemoved sent =>
    dsimp only [machine, next] at hnext
    split at hnext
    · cases hnext
    · next t _ =>
      split at hnext
      · cases hnext
        dsimp only
        rw [(quietly_calls s t _ sent).cli]
        exact hshows
      · cases hnext
  | delete =>
    cases hnext
    exact hshows
  | request kind taskID refs =>
    dsimp only [machine, next] at hnext
    split at hnext
    · next hready =>
      obtain ⟨sched, -, rfl⟩ := Option.map_eq_some_iff.1 hnext
      exact ⟨fun _ => hshows.early (.inl hready), nofun, nofun, nofun⟩
    · cases hnext
  | reply =>
    dsimp only [machine, next] at hnext
    split at hnext
    · next path hphase _ =>
      cases hnext
      refine ⟨nofun, fun _ hknown => absurd ?_ hknown, nofun, nofun⟩
      exact congrArg Values.state (hshows.early (.inr hphase))
    · cases hnext
  | handle =>
    dsimp only [machine, next] at hnext
    split at hnext
    · next hphase =>
      split at hnext
      · cases hnext
      · next m rest _ =>
        cases hnext
        exact hshows.handle hphase hagreed.noProxy m
    · cases hnext
  | leave =>
    dsimp only [machine, next] at hnext
    split at hnext
    · next hphase =>
      cases hnext
      exact ⟨nofun, nofun, nofun, fun _ _ => hshows.leaving hphase⟩
    · cases hnext
  | hide newSubState message | subscribe =>
    dsimp only [machine, next] at hnext
    split at hnext
    · cases hnext
      exact hshows
    · cases hnext

theorem shows_init : Shows {} where
  early := fun _ => rfl
  watching := nofun
  leaving := nofun
  exited := nofun

/-- **Main result**: unless the final state is the unknown one, the last thing
    that a client shows before it exits is the result of its task: the values
    at the end if everything is done, and the message if only the package
    manager is. -/
theorem shown_of_exec {events : List Event} {code : Int} {v : Values}
    (hexec : machine.exec {} events = some s) (hcode : s.cli.phase = .exited code)
    (hfinal : s.final = some v) (hknown : v.state ≠ .unknown) :
    (v.subState = .allDone → s.cli.shown.getLast? = some (.progress v)) ∧
      (v.subState = .packageManagerDone →
        s.cli.shown.getLast? = some (.notification v.message) ∨
          s.cli.shown.getLast? = some (.progress v)) := by
  obtain ⟨hagreed, hshows⟩ :=
    machine.invariant_of_exec shows_next ⟨agreed_init, shows_init⟩ hexec
  have hlast : s.cli.last = v := by
    rw [(hagreed.exits code hcode).1] at hfinal
    exact Option.some.inj hfinal
  have hreported := hshows.exited code hcode
  unfold Reported at hreported
  rw [hlast] at hreported
  exact hreported hknown

theorem shown_of_exec_handled : ∃ s v, machine.exec {} handled = some s ∧ s.final = some v ∧
    (v.subState = .allDone → s.cli.shown.getLast? = some (.progress v)) ∧
      (v.subState = .packageManagerDone →
        s.cli.shown.getLast? = some (.notification v.message) ∨
          s.cli.shown.getLast? = some (.progress v)) := by
  obtain ⟨s, hexec, hcode, hfinal⟩ := exec_handled
  exact ⟨s, _, hexec, hfinal, shown_of_exec hexec hcode hfinal (by decide)⟩

/-! ## Section 4: What the client has heard of -/

/-- What a client has that knows a cache and nothing else. -/
def ofCache (props : PropCache) : Values := Values.init.update props

/-- What a client has after some more signals. -/
def seen (v : Values) (ms : List Signal) : Values :=
  ms.foldl (fun v m =>
    match m with
    | .propertiesChanged props => v.update props
    | .taskRemoved _ _ => v) v

theorem seen_append (v : Values) (ms ms' : List Signal) :
    seen v (ms ++ ms') = seen (seen v ms) ms' := List.foldl_append

theorem getD_getD {α : Type} {o o' : Option α} (h : o' = none → o = none) (a : α) :
    o'.getD (o.getD a) = o'.getD a := by
  cases o' with
  | none => rw [h rfl]; rfl
  | some b => rfl

/-- A cache that has grown says all that is to say. -/
theorem update_ofCache {b b' : BusTask} (h : b.Grows b') :
    (ofCache b.propCache).update b'.propCache = ofCache b'.propCache := by
  unfold ofCache Values.update
  dsimp only
  rw [getD_getD h.state, getD_getD h.subState, getD_getD h.message, getD_getD h.percentage]

/-- **Run**: one cache after the other. -/
theorem seen_run (b : BusTask) (cs : List PackageTask.Call) :
    seen (ofCache b.propCache) ((b.run cs).2.map .propertiesChanged) =
      ofCache (b.run cs).1.propCache := by
  induction cs generalizing b with
  | nil => rfl
  | cons c cs ih =>
    dsimp only [BusTask.run]
    rcases b.apply_sent c with hsent | hnone
    · have hfirst : seen (ofCache b.propCache) ((b.apply c).2.map .propertiesChanged) =
          ofCache (b.apply c).1.propCache := by
        rw [hsent]
        exact update_ofCache (b.grows_apply c)
      rw [List.map_append, seen_append, hfirst]
      exact ih (b.apply c).1
    · rw [hnone]
      exact ih b

/-- The first cache is as good as all of them. -/
theorem seen_run_init (b : BusTask) (cs : List PackageTask.Call) (h : (b.run cs).2 ≠ []) :
    seen .init ((b.run cs).2.map .propertiesChanged) = ofCache (b.run cs).1.propCache := by
  induction cs generalizing b with
  | nil => exact absurd rfl h
  | cons c cs ih =>
    dsimp only [BusTask.run] at h ⊢
    rcases b.apply_sent c with hsent | hnone
    · have hfirst : seen .init ((b.apply c).2.map .propertiesChanged) =
          ofCache (b.apply c).1.propCache := by
        rw [hsent]
        rfl
      rw [List.map_append, seen_append, hfirst]
      exact seen_run (b.apply c).1 cs
    · rw [hnone] at h ⊢
      exact ih b h

/-- A client that has heard of its task will know what the forwarder knows. -/
structure Heard (s : Watch) : Prop where
  subscribed : s.subscribed = true → s.cli.phase ≠ .ready ∧ s.cli.phase ≠ .waiting
  heard : s.heard = true → s.subscribed = true
  nothing : s.heard = false → s.final = none →
    s.cli.last = .init ∧ ∀ props, Signal.propertiesChanged props ∉ s.inbox
  current : s.heard = true → s.final = none → seen s.cli.last s.inbox = ofCache s.propCache

theorem seen_of_no_props {v : Values} {ms : List Signal}
    (h : ∀ props, Signal.propertiesChanged props ∉ ms) : seen v ms = v := by
  induction ms with
  | nil => rfl
  | cons m ms ih =>
    have hrest := ih fun props hin => h props (List.mem_cons_of_mem _ hin)
    cases m with
    | propertiesChanged props => exact absurd List.mem_cons_self (h props)
    | taskRemoved path w => exact hrest

/-- **Step**: calls on the task of the client. -/
theorem Heard.calls (h : Heard s) (t : PackageTask) (cs : List PackageTask.Call) :
    Heard (s.calls t cs true) := by
  unfold Watch.calls send
  dsimp only
  generalize hb : (⟨t, s.propCache⟩ : BusTask) = b
  have hcache : b.propCache = s.propCache := by rw [← hb]
  split
  · next hsub =>
    refine ⟨h.subscribed, fun _ => hsub.1, ?_, ?_⟩
    · intro hheard hfinal
      dsimp only at hheard
      rw [Bool.or_eq_false_iff] at hheard
      have hnil : (b.run cs).2 = [] := by simpa using hheard.2
      rw [hnil]
      simpa using h.nothing hheard.1 hfinal
    · intro hheard hfinal
      dsimp only at hheard ⊢
      rw [seen_append]
      cases hbefore : s.heard with
      | true =>
        rw [h.current hbefore hfinal, ← hcache]
        exact seen_run b cs
      | false =>
        obtain ⟨hlast, hprops⟩ := h.nothing hbefore hfinal
        rw [seen_of_no_props hprops, hlast]
        refine seen_run_init b cs fun hnil => ?_
        rw [hbefore, hnil] at hheard
        cases hheard
  · next hsub =>
    have hunheard : s.heard ≠ true := fun hheard => hsub ⟨h.heard hheard, rfl⟩
    exact ⟨h.subscribed, h.heard, h.nothing, fun hheard => absurd hheard hunheard⟩

/-- **Step**: a call on the task after its removal. -/
theorem Heard.cancelRemoved (h : Heard s) (hfinal : s.final ≠ none) (t : PackageTask)
    (sent : Bool) : Heard { s.calls t [.cancel] sent with removed := some t.cancel } := by
  unfold Watch.calls send
  dsimp only
  split
  · next hsub =>
    exact ⟨h.subscribed, fun _ => hsub.1, fun _ hnone => absurd hnone hfinal,
      fun _ hnone => absurd hnone hfinal⟩
  · exact ⟨h.subscribed, h.heard, fun _ hnone => absurd hnone hfinal,
      fun _ hnone => absurd hnone hfinal⟩

/-- **Step**: a removal. -/
theorem Heard.remove (h : Heard s) (t : PackageTask) : Heard (s.remove t) := by
  unfold Watch.remove
  dsimp only
  split
  · exact ⟨h.subscribed, h.heard, fun _ => nofun, fun _ => nofun⟩
  · refine ⟨h.subscribed, h.heard, fun hheard hfinal => ?_, fun hheard hfinal => ?_⟩
    · simpa using h.nothing hheard hfinal
    · rw [seen_append]
      exact h.current hheard hfinal

/-- **Step**: the client handles a signal. -/
theorem Heard.handle (h : Heard s) (hagreed : Agreed s) {m : Signal} {rest : List Signal}
    (hphase : s.cli.phase = .watching ∨ s.cli.phase = .leaving) (hinbox : s.inbox = m :: rest) :
    Heard { s with inbox := rest, cli := s.cli.handle m } := by
  have hown : s.path = some s.cli.taskObjectPath := by
    refine hagreed.named ?_ ?_
    · rcases hphase with hphase | hphase <;> simp [hphase]
    · rcases hphase with hphase | hphase <;> simp [hphase]
  have hphase' : (s.cli.handle m).phase ≠ .ready ∧ (s.cli.handle m).phase ≠ .waiting := by
    cases m with
    | propertiesChanged props =>
      rcases s.cli.propertiesChanged_cases props with ⟨-, hrun⟩ | ⟨-, hsame, -⟩
      · rw [Cli.handle, hrun]
        simp
      · rw [Cli.handle, hsame]
        rcases hphase with hphase | hphase <;> simp [hphase]
    | taskRemoved path v =>
      rcases s.cli.taskRemoved_cases path v with ⟨-, hrun⟩ | ⟨-, hleaving, -⟩
      · rw [Cli.handle, hrun]
        rcases hphase with hphase | hphase <;> simp [hphase]
      · rw [Cli.handle, hleaving]
        simp
  -- before the removal of the task the client takes the values over
  have hlast : s.final = none → (s.cli.handle m).last = seen s.cli.last [m] := by
    intro hfinal
    have hwatching : s.cli.phase = .watching := hphase.resolve_right fun hleaving => by
      rw [hagreed.leaves hleaving] at hfinal
      cases hfinal
    cases m with
    | propertiesChanged props =>
      rcases s.cli.propertiesChanged_cases props with ⟨htask, -⟩ | ⟨-, -, -, -, hlast⟩
      · rw [hagreed.proxy hwatching] at htask
        cases htask
      · exact hlast
    | taskRemoved path v =>
      rcases s.cli.taskRemoved_cases path v with ⟨-, hrun⟩ | ⟨heq, -⟩
      · rw [Cli.handle, hrun]
        rfl
      · have hsome : s.final = some v := by
          refine hagreed.told _ v hown ?_
          rw [hinbox, heq]
          exact List.mem_cons_self
        rw [hsome] at hfinal
        cases hfinal
  refine ⟨fun _ => hphase', h.heard, fun hheard hfinal => ?_, fun hheard hfinal => ?_⟩
  · obtain ⟨hinit, hprops⟩ := h.nothing hheard hfinal
    rw [hinbox] at hprops
    refine ⟨?_, fun props hin => hprops props (List.mem_cons_of_mem _ hin)⟩
    dsimp only
    rw [hlast hfinal, seen_of_no_props, hinit]
    intro props hin
    exact hprops props (List.mem_cons.2 (.inl (List.mem_singleton.1 hin)))
  · have hcurrent := h.current hheard hfinal
    rw [hinbox] at hcurrent
    dsimp only
    rw [hlast hfinal]
    exact hcurrent

/-- **Step**: any event, if the forwarder can send. -/
theorem heard_next (s : Watch) (e : Event) (s' : Watch) (h : Agreed s ∧ Heard s)
    (hok : e.reaches = true) (hnext : machine.next s e = some s') : Agreed s' ∧ Heard s' := by
  refine ⟨agreed_next s e s' h.1 hnext, ?_⟩
  obtain ⟨hagreed, hheard⟩ := h
  cases e with
  | sched e sent =>
    cases hok
    obtain ⟨sched, hsched, rfl⟩ := Option.map_eq_some_iff.1 hnext
    have hobserve : Heard (s.observe e true) := by
      unfold observe
      split
      · unfold forward
        split
        · exact hheard
        · exact hheard.calls _ _
      · exact hheard.remove _
    exact { hobserve with }
  | hide newSubState message =>
    dsimp only [machine, next] at hnext
    split at hnext
    · cases hnext
      exact { hheard with }
    · cases hnext
  | cancelRemoved sent =>
    dsimp only [machine, next] at hnext
    split at hnext
    · cases hnext
    · next t hremoved =>
      split at hnext
      · cases hnext
        have hfinal : s.final ≠ none := hagreed.dying (by simp [hremoved])
        exact hheard.cancelRemoved hfinal t sent
      · cases hnext
  | delete =>
    cases hnext
    exact { hheard with }
  | request kind taskID refs =>
    dsimp only [machine, next] at hnext
    split at hnext
    · next hready =>
      obtain ⟨sched, -, rfl⟩ := Option.map_eq_some_iff.1 hnext
      have hsub : s.subscribed ≠ true := fun hsub => (hheard.subscribed hsub).1 hready
      exact { hheard with
        subscribed := fun hsub' => absurd hsub' hsub
        current := fun hheard' => absurd (hheard.heard hheard') hsub }
    · cases hnext
  | reply =>
    dsimp only [machine, next] at hnext
    split at hnext
    · cases hnext
      exact { hheard with subscribed := fun _ => ⟨nofun, nofun⟩ }
    · cases hnext
  | subscribe =>
    dsimp only [machine, next] at hnext
    split at hnext
    · next hphase =>
      cases hnext
      exact { hheard with
        subscribed := fun _ => (by simp [hphase])
        heard := fun _ => rfl }
    · cases hnext
  | handle =>
    dsimp only [machine, next] at hnext
    split at hnext
    · next hphase =>
      split at hnext
      · cases hnext
      · next m rest hinbox =>
        cases hnext
        exact hheard.handle hagreed hphase hinbox
    · cases hnext
  | leave =>
    dsimp only [machine, next] at hnext
    split at hnext
    · cases hnext
      exact { hheard with subscribed := fun _ => ⟨nofun, nofun⟩ }
    · cases hnext

/-! ### The forwarder and the task -/

/-- The event writes a property of a task without a signal. -/
def hides : Event → BusTask.Property → Bool
  | .hide .., .subState => true
  | .hide .., .message => true
  | _, _ => false

/-- The forwarder has a property of the task of the client. -/
def Tracks (q : BusTask.Property) (s : Watch) : Prop :=
  ∀ p t, s.path = some p → found s.sched p = some t → (BusTask.mk t s.propCache).Agrees q

variable {q : BusTask.Property}

/-- **Step**: an event of the package manager. -/
theorem Tracks.sched (h : Tracks q s) (hagreed : Agreed s) (hq : q ≠ .percentage)
    {e : Linglong.Event} {sent : Bool} {sched : Scheduler} (hnext : s.sched.next e = some sched) :
    Tracks q { s.observe e sent with sched := sched } := by
  intro p t hp ht
  have hpath : (s.observe e sent).path = s.path := by
    unfold observe
    split
    · exact (quietly_forward s e sent).path
    · unfold remove
      dsimp only
      split
      · rfl
      · rfl
  have hp' : s.path = some p := hpath.symm.trans hp
  rw [found_next hnext (hagreed.other hnext hp')] at ht
  split at ht
  · cases ht
  · obtain ⟨t', ht', rfl⟩ := Option.map_eq_some_iff.1 ht
    have hbefore := h p t' hp' ht'
    have hafter := hbefore.run hq (callsFor s.sched t' e)
    have hown : s.own = some t' := by
      rw [own, hp']
      exact ht'
    have hcache : (s.observe e sent).propCache =
        ((BusTask.mk t' s.propCache).run (callsFor s.sched t' e)).1.propCache := by
      unfold observe
      split
      · unfold forward calls send
        rw [hown]
        dsimp only
        split
        · rfl
        · rfl
      · next u hu =>
        -- a job that returns calls nothing
        have hcalls : callsFor s.sched t' e = [] := by
          unfold returning at hu
          split at hu
          · rfl
          · cases hu
        rw [hcalls]
        unfold remove
        dsimp only
        split
        · rfl
        · rfl
    have htask : t'.run (callsFor s.sched t' e) =
        ((BusTask.mk t' s.propCache).run (callsFor s.sched t' e)).1.task :=
      (BusTask.task_run ⟨t', s.propCache⟩ _).symm
    dsimp only
    rw [hcache, htask]
    exact hafter

theorem agrees_newBusTask (kind : RequestKind) (taskID : String) (refs : QStringList)
    (hq : q ≠ .percentage) : (newBusTask kind taskID refs).Agrees q := by
  have hcreate : ((BusTask.create taskID refs).write PackageTask.setJob).Agrees q :=
    (BusTask.agrees_create taskID refs q).write (fun _ => rfl) (fun _ => rfl) (fun _ => rfl)
      fun _ => rfl
  unfold newBusTask
  dsimp only
  split
  · exact hcreate.updateState hq _ _ _
  · exact hcreate

/-- **Step**: any event. -/
theorem tracks_next (hq : q ≠ .percentage) (s : Watch) (e : Event) (s' : Watch)
    (h : Agreed s ∧ Tracks q s) (hok : hides e q = false) (hnext : machine.next s e = some s') :
    Agreed s' ∧ Tracks q s' := by
  refine ⟨agreed_next s e s' h.1 hnext, ?_⟩
  obtain ⟨hagreed, htracks⟩ := h
  cases e with
  | sched e sent =>
    obtain ⟨sched, hsched, rfl⟩ := Option.map_eq_some_iff.1 hnext
    exact htracks.sched hagreed hq hsched
  | hide newSubState message =>
    dsimp only [machine, next] at hnext
    split at hnext
    · next path rest _ =>
      cases hnext
      intro p t hp ht
      have hfound := found_modifyTask s.sched p path (f := fun u =>
        (u.setSubState newSubState).setMessage message) fun _ => rfl
      rw [ht] at hfound
      obtain ⟨u, hu, rfl⟩ := Option.map_eq_some_iff.1 hfound.symm
      have hbefore := htracks p u hp hu
      cases q with
      | state =>
        refine hbefore.trans ?_
        dsimp only
        split
        · rfl
        · rfl
      | percentage => exact absurd rfl hq
      | subState | message => cases hok
    · cases hnext
  | cancelRemoved sent =>
    dsimp only [machine, next] at hnext
    split at hnext
    · cases hnext
    · next t hremoved =>
      split at hnext
      · cases hnext
        have hquiet := quietly_calls s t [.cancel] sent
        intro p u hp hu
        dsimp only at hp hu
        rw [hquiet.path] at hp
        rw [hquiet.sched, hagreed.absent p hp (hagreed.dying (by simp [hremoved]))] at hu
        cases hu
      · cases hnext
  | request kind taskID refs =>
    dsimp only [machine, next] at hnext
    split at hnext
    · next hready =>
      obtain ⟨sched, hsched, rfl⟩ := Option.map_eq_some_iff.1 hnext
      intro p t hp ht
      cases hp
      unfold Scheduler.next at hsched
      dsimp only at hsched ht
      split at hsched
      · next hguard =>
        cases hsched
        rw [newBusTask_task, found_addTask fun hin => hguard.2.2 (hagreed.created _ hin)] at ht
        cases ht
        have hnew : (⟨Scheduler.newTask kind taskID refs,
            (newBusTask kind taskID refs).propCache⟩ : BusTask) = newBusTask kind taskID refs := by
          rw [← newBusTask_task]
        dsimp only
        rw [hnew]
        exact agrees_newBusTask kind taskID refs hq
      · cases hsched
    · cases hnext
  | delete =>
    cases hnext
    exact htracks
  | reply | subscribe | handle | leave =>
    dsimp only [machine, next] at hnext
    repeat' split at hnext
    all_goals first | (cases hnext; exact htracks) | cases hnext

theorem tracks_init : Tracks q {} := by
  intro p t hp
  cases hp

theorem heard_init : Heard {} where
  subscribed := nofun
  heard := nofun
  nothing := fun _ _ => ⟨rfl, nofun⟩
  current := nofun

/-- **Main result**: a client that has been sent anything, and has handled all
    of it, knows the state of its task, however much it has missed before.
    Only `Queued`, the state of a new task, may still be unknown to it. It
    also knows what was not written without a signal. -/
theorem last_of_heard {events : List Event} (hexec : machine.exec {} events = some s)
    (hreaches : ∀ e ∈ events, Event.reaches e = true) (hheard : s.heard = true)
    (hinbox : s.inbox = []) (hfinal : s.final = none) :
    ∃ t, s.own = some t ∧
      (s.cli.last.state = t.state ∨ t.state = .queued ∧ s.cli.last.state = .unknown) ∧
      ((∀ e ∈ events, hides e .subState = false) → s.cli.last.subState = t.subState) ∧
      ((∀ e ∈ events, hides e .message = false) → s.cli.last.message = t.message) := by
  have hsent := machine.meets_of_forall hreaches {}
  obtain ⟨hagreed, hknows⟩ :=
    machine.invariant_of_meets heard_next ⟨agreed_init, heard_init⟩ hsent hexec
  have hlast : s.cli.last = ofCache s.propCache := by
    have hcurrent := hknows.current hheard hfinal
    rw [hinbox] at hcurrent
    exact hcurrent
  have hphase : s.cli.phase ≠ .ready := (hknows.subscribed (hknows.heard hheard)).1
  obtain ⟨p, hp⟩ := Option.ne_none_iff_exists'.1 (mt hagreed.ready.1 hphase)
  obtain ⟨t, ht⟩ := Option.ne_none_iff_exists'.1 (hagreed.present p hp hfinal)
  have htracks : ∀ {q : BusTask.Property}, q ≠ .percentage → (∀ e ∈ events, hides e q = false) →
      (BusTask.mk t s.propCache).Agrees q := by
    intro q hq hhides
    have hnot := machine.meets_of_forall hhides {}
    exact (machine.invariant_of_meets (tracks_next hq) ⟨agreed_init, tracks_init⟩ hnot hexec).2
      p t hp ht
  have hown : s.own = some t := by
    rw [own, hp]
    exact ht
  refine ⟨t, hown, ?_, fun hhides => ?_, fun hhides => ?_⟩
  · have hstate : s.propCache.state.getD .queued = t.state := by
      refine htracks (q := .state) (by decide) fun e _ => ?_
      cases e <;> rfl
    rw [hlast]
    cases hcache : s.propCache.state with
    | none =>
      rw [hcache] at hstate
      exact .inr ⟨hstate.symm, by simp [ofCache, Values.update, hcache, Values.init]⟩
    | some st =>
      rw [hcache] at hstate
      exact .inl (by simpa [ofCache, Values.update, hcache] using hstate)
  · rw [hlast]
    exact htracks (q := .subState) (by decide) hhides
  · rw [hlast]
    exact htracks (q := .message) (by decide) hhides

/-- The client has handled the first signal. -/
def started : List Event := installed.take 5 ++ [.handle]

theorem last_of_heard_started : ∃ s, machine.exec {} started = some s ∧ ∃ t, s.own = some t ∧
    (s.cli.last.state = t.state ∨ t.state = .queued ∧ s.cli.last.state = .unknown) ∧
      ((∀ e ∈ started, hides e .subState = false) → s.cli.last.subState = t.subState) ∧
      ((∀ e ∈ started, hides e .message = false) → s.cli.last.message = t.message) :=
  ⟨_, rfl, last_of_heard rfl (by decide) rfl rfl rfl⟩

/-! ## Section 5: Signals after the removal -/

/-- The removal of a task is the last that its client hears of it. -/
structure Orderly (s : Watch) : Prop where
  phase : s.cli.phase ≠ .crashed
  last : ∀ p v pre post, s.path = some p → s.inbox = pre ++ .taskRemoved p v :: post →
    ∀ props, Signal.propertiesChanged props ∉ post
  leaving : s.cli.phase = .leaving → ∀ props, Signal.propertiesChanged props ∉ s.inbox

/-- **Step**: signals about properties, before the removal. -/
theorem Orderly.quietly (h : Orderly s) (hagreed : Agreed s) (hq : Quietly s s')
    (hfinal : s.final = none) : Orderly s' where
  phase := by rw [hq.cli]; exact h.phase
  last := by
    intro p v pre post hp hinbox
    -- the removal has not been sent
    have hin : Signal.taskRemoved p v ∈ s.inbox := by
      rw [← hq.mem_inbox, hinbox]
      simp
    rw [hagreed.told p v (hq.path.symm.trans hp) hin] at hfinal
    cases hfinal
  leaving := by
    intro hphase
    rw [hq.cli] at hphase
    rw [hagreed.leaves hphase] at hfinal
    cases hfinal

/-- **Step**: a removal. -/
theorem Orderly.remove (h : Orderly s) (t : PackageTask) : Orderly (s.remove t) := by
  have hlast : ∀ p v pre post, s.path = some p →
      s.inbox ++ [.taskRemoved t.taskObjectPath (.of t)] = pre ++ .taskRemoved p v :: post →
      ∀ props, Signal.propertiesChanged props ∉ post := by
    intro p v pre post hp hinbox props hin
    rcases List.eq_nil_or_concat' post with rfl | ⟨post', m, rfl⟩
    · cases hin
    · have hsplit : s.inbox = pre ++ .taskRemoved p v :: post' ∧
          Signal.taskRemoved t.taskObjectPath (.of t) = m := by
        have hassoc : pre ++ Signal.taskRemoved p v :: (post' ++ [m]) =
            (pre ++ .taskRemoved p v :: post') ++ [m] := by simp
        rw [hassoc] at hinbox
        have hinj := List.append_inj' hinbox rfl
        exact ⟨hinj.1, by simpa using hinj.2⟩
      rw [List.mem_append, List.mem_singleton, ← hsplit.2] at hin
      rcases hin with hin | hin
      · exact h.last p v pre post' hp hsplit.1 props hin
      · cases hin
  have hleaving : s.cli.phase = .leaving → ∀ props, Signal.propertiesChanged props ∉
      s.inbox ++ [.taskRemoved t.taskObjectPath (.of t)] := by
    intro hphase props hin
    have hold := h.leaving hphase props
    simp at hin
    exact hold hin
  unfold Watch.remove
  dsimp only
  split
  · exact ⟨h.phase, hlast, hleaving⟩
  · exact ⟨h.phase, hlast, hleaving⟩

/-- **Step**: the client handles a signal. -/
theorem Orderly.handle (h : Orderly s) (hagreed : Agreed s) {m : Signal} {rest : List Signal}
    (hphase : s.cli.phase = .watching ∨ s.cli.phase = .leaving) (hinbox : s.inbox = m :: rest) :
    Orderly { s with inbox := rest, cli := s.cli.handle m } := by
  have hown : s.path = some s.cli.taskObjectPath := by
    refine hagreed.named ?_ ?_
    · rcases hphase with hphase | hphase <;> simp [hphase]
    · rcases hphase with hphase | hphase <;> simp [hphase]
  have hlast : ∀ p v pre post, s.path = some p → rest = pre ++ .taskRemoved p v :: post →
      ∀ props, Signal.propertiesChanged props ∉ post := by
    intro p v pre post hp hrest
    exact h.last p v (m :: pre) post hp (by rw [hinbox, hrest]; rfl)
  have hkeep : s.cli.phase = .leaving → ∀ props, Signal.propertiesChanged props ∉ rest := by
    intro hleaving props hin
    refine h.leaving hleaving props ?_
    rw [hinbox]
    exact List.mem_cons_of_mem _ hin
  cases m with
  | propertiesChanged props =>
    have hwatching : s.cli.phase = .watching := hphase.resolve_right fun hleaving => by
      refine h.leaving hleaving props ?_
      rw [hinbox]
      exact List.mem_cons_self
    rcases s.cli.propertiesChanged_cases props with ⟨htask, -⟩ | ⟨-, hsame, -⟩
    · rw [hagreed.proxy hwatching] at htask
      cases htask
    · have hafter : (s.cli.handle (.propertiesChanged props)).phase = .watching :=
        hsame.trans hwatching
      exact ⟨by simp [hafter], hlast, by simp [hafter]⟩
  | taskRemoved path v =>
    rcases s.cli.taskRemoved_cases path v with ⟨-, hrun⟩ | ⟨heq, hleaving, -⟩
    · rw [Cli.handle, hrun]
      exact ⟨h.phase, hlast, hkeep⟩
    · have hafter : (s.cli.handle (.taskRemoved path v)).phase = .leaving := hleaving
      exact ⟨by simp [hafter], hlast, fun _ => h.last _ v [] rest hown (by rw [hinbox, heq]; rfl)⟩

/-- **Step**: any event but a late `Cancel`. -/
theorem orderly_next (s : Watch) (e : Event) (s' : Watch) (h : Agreed s ∧ Orderly s)
    (hok : Event.late e = false) (hnext : machine.next s e = some s') : Agreed s' ∧ Orderly s' := by
  refine ⟨agreed_next s e s' h.1 hnext, ?_⟩
  obtain ⟨hagreed, horderly⟩ := h
  cases e with
  | sched e sent =>
    obtain ⟨sched, hsched, rfl⟩ := Option.map_eq_some_iff.1 hnext
    have hobserve : Orderly (s.observe e sent) := by
      unfold observe
      split
      · cases hown : s.own with
        | none =>
          have hsame : s.forward e sent = s := by
            unfold forward
            rw [hown]
          rw [hsame]
          exact horderly
        | some t =>
          have hfinal : s.final = none := by
            by_contra hsome
            obtain ⟨p, hp, ht⟩ := Option.bind_eq_some_iff.1 hown
            have hgone := hagreed.absent p hp hsome
            rw [found, ht] at hgone
            cases hgone
          exact horderly.quietly hagreed (quietly_forward s e sent) hfinal
      · exact horderly.remove _
    exact { hobserve with }
  | cancelRemoved sent => cases hok
  | delete =>
    cases hnext
    exact { horderly with }
  | request kind taskID refs =>
    dsimp only [machine, next] at hnext
    split at hnext
    · obtain ⟨sched, hsched, rfl⟩ := Option.map_eq_some_iff.1 hnext
      refine ⟨by simp, fun p v pre post hp hinbox => ?_, by simp⟩
      -- no task had this path before
      cases hp
      have hin : Signal.taskRemoved (newBusTask kind taskID refs).task.taskObjectPath v ∈
          s.inbox := by
        dsimp only at hinbox
        rw [hinbox]
        simp
      have hcreated := hagreed.sentCreated _ v hin
      rw [newBusTask_task] at hcreated
      unfold Scheduler.next at hsched
      dsimp only at hsched
      split at hsched
      · next hguard => exact absurd hcreated hguard.2.2
      · cases hsched
    · cases hnext
  | reply =>
    dsimp only [machine, next] at hnext
    split at hnext
    · cases hnext
      exact { horderly with phase := by simp [Cli.onReply], leaving := by simp [Cli.onReply] }
    · cases hnext
  | handle =>
    dsimp only [machine, next] at hnext
    split at hnext
    · next hphase =>
      split at hnext
      · cases hnext
      · next m rest hinbox =>
        cases hnext
        exact horderly.handle hagreed hphase hinbox
    · cases hnext
  | leave =>
    dsimp only [machine, next] at hnext
    split at hnext
    · cases hnext
      exact { horderly with phase := by simp, leaving := by simp }
    · cases hnext
  | hide newSubState message | subscribe =>
    dsimp only [machine, next] at hnext
    split at hnext
    · cases hnext
      exact { horderly with }
    · cases hnext

theorem orderly_init : Orderly {} where
  phase := nofun
  last := by
    intro p v pre post hp
    cases hp
  leaving := nofun

/-- **Main result**: a client crashes only if its task is told to cancel
    between its removal and its deletion. -/
theorem not_crashed_of_exec {events : List Event} (hexec : machine.exec {} events = some s)
    (hlate : ∀ e ∈ events, Event.late e = false) : s.cli.phase ≠ .crashed :=
  (machine.invariant_of_meets orderly_next ⟨agreed_init, orderly_init⟩
    (machine.meets_of_forall hlate {}) hexec).2.phase

theorem not_crashed_of_exec_handled : ∃ s, machine.exec {} handled = some s ∧
    s.cli.phase ≠ .crashed := by
  obtain ⟨s, hexec, -⟩ := exec_handled
  exact ⟨s, hexec, not_crashed_of_exec hexec (by decide)⟩

/-- With a late `Cancel` it does. -/
example : (machine.exec {} (installed ++ [.cancelRemoved true, .handle, .handle, .handle,
    .handle])).map (fun s => s.cli.phase) = some .crashed := by decide

end Watch

end Linglong.TaskWatch
