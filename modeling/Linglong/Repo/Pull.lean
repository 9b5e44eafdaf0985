import Linglong.Repo.OSTreeRepo
import Linglong.PackageManager.PackageTask

/-! # Operations that Report to a Task

    `OSTreeRepo::pull` does not return a result: it reports errors to the
    task it is given, and its callers read the sub-state of that task. While
    it waits for ostree, progress reports and `Cancel` calls reach the same
    task. `clearReference` with `fallbackToRemote` waits for the remote in a
    nested event loop, where a `Cancel` call may arrive as well.

    Neither of them reads the task. So the model of an operation is the
    repository it leaves together with the calls that the task receives
    while it runs.
-/

namespace Linglong

open Framework

/-- The call that an event during a pull leads to. -/
def PullEvent.toCall : PullEvent → PackageTask.Call
  | .progress part status => .updateTask part 100 status
  | .caughtError =>
      .reportError ⟨-1, "Caught error during pulling data, waiting for outstanding task"⟩
  | .cancel => .cancel

namespace Repo

/-- `ostree_repo_pull_with_options`: the next reply, or an error if there is
    none. -/
def ostreePull (s : Repo) (ref : OstreeRef) : Repo × List PackageTask.Call × PullStatus :=
  match s.pulls with
  | [] => (s, [], .error "no reply")
  | reply :: rest =>
      let s := { s with pulls := rest }
      let calls := reply.during.map PullEvent.toCall
      match reply.status ref with
      | .ok commit => (s.setRef ⟨s.defaultRepo, ref⟩ commit, calls, .ok commit)
      | status => (s, calls, status)

/-- The end of `pull`: add the layer, report what fails. -/
def finishPull (s : Repo) (ref : OstreeRef) : Repo × List PackageTask.Call :=
  match checkoutPulled ref s with
  | .ok _ s => (s, [])
  | .error e s => (s, [.reportError ⟨-1, e⟩])

/-- The second attempt of `pull`, under the old name of the module. -/
def pullOldName (s : Repo) (reference : Reference) (module : String) :
    Repo × List PackageTask.Call :=
  let ref := ostreeSpecFromReference reference module
  match s.ostreePull ref with
  | (s, calls, .ok _) =>
      let (s, more) := s.finishPull ref
      (s, calls ++ more)
  | (s, calls, .error e) | (s, calls, .noSuchBranch e) => (s, calls ++ [.reportError ⟨-1, e⟩])

/-- `pull`. A branch that does not exist is looked for under its old name,
    for `binary` and `runtime` only; for other modules the code goes on. -/
def pull (s : Repo) (reference : Reference) (module : String) : Repo × List PackageTask.Call :=
  let ref := ostreeSpecFromReferenceV2 reference module none
  match s.ostreePull ref with
  | (s, calls, .ok _) =>
      let (s, more) := s.finishPull ref
      (s, calls ++ more)
  | (s, calls, .error e) => (s, calls ++ [.reportError ⟨-1, e⟩])
  | (s, calls, .noSuchBranch _) =>
      let (s, more) :=
        if module = "binary" ∨ module = "runtime" then s.pullOldName reference module
        else s.finishPull ref
      (s, calls ++ more)

/-- `listRemote`: the next reply, or an error if there is none. -/
def listRemote (s : Repo) :
    Repo × List PackageTask.Call × Except String (List PackageInfoV2) :=
  match s.remotes with
  | [] => (s, [], .error "cannot send request to remote server")
  | reply :: rest =>
      ({ s with remotes := rest }, if reply.canceled then [.cancel] else [], reply.records)

/-- `clearReference` with `fallbackToRemote`. -/
def clearReference (s : Repo) (fuzzy : FuzzyReference) :
    Repo × List PackageTask.Call × Except String Reference :=
  match s.clearReferenceLocal fuzzy with
  | .ok ref => (s, [], .ok ref)
  | .error _ =>
      match s.listRemote with
      | (s, calls, .error e) => (s, calls, .error ("get ref list from remote: " ++ e))
      | (s, calls, .ok records) => (s, calls, clearReferenceRemote fuzzy "binary" records)

end Repo

/-- A running job: the repository and the task it reports to. -/
structure Job where
  repo : Repo
  task : PackageTask

namespace Job

/-- Call a method of the task. -/
def call (j : Job) (c : PackageTask.Call) : Job := { j with task := j.task.apply c }

/-- `isTaskDone(taskContext.subState())`. -/
def isDone (j : Job) : Bool := isTaskDone j.task.subState

/-- `updateState(State::Failed, message)`. -/
def fail (j : Job) (message : String) : Job := j.call (.updateState .failed message none)

/-- Run an operation of the repository. -/
def perform {α : Type} (j : Job) (m : RepoM α) : Job × Except String α :=
  match m j.repo with
  | .ok a repo => ({ j with repo := repo }, .ok a)
  | .error e repo => ({ j with repo := repo }, .error e)

/-- `repo.pull(taskContext, reference, module)`. -/
def pull (j : Job) (reference : Reference) (module : String) : Job :=
  ⟨(j.repo.pull reference module).1, j.task.run (j.repo.pull reference module).2⟩

/-- `repo.clearReference` with `fallbackToRemote`, while the task can be
    canceled. -/
def clearReference (j : Job) (fuzzy : FuzzyReference) : Job × Except String Reference :=
  match j.repo.clearReference fuzzy with
  | (repo, calls, result) => (⟨repo, j.task.run calls⟩, result)

end Job

end Linglong
