import LatteC.Foundation.CallMachine
import Mathlib.Algebra.Order.Ring.Int

/-!
# Tasks that run in series and in parallel

`src/async/async.c`: a basic task is a job for a thread, a series runs its children one after the other,
and a parallel task runs series side by side, by name. A task that is done notifies its parent, which
goes on with the next child, or is done as well.

## Modelling

Tasks are trees, and the parent of a task is the place where it stands. Running a task returns what has
become of it, what has happened meanwhile, and whether `taskDone` was called for it; to notify the parent
is to return that. There are no callbacks (`cb`, `check`), so notifying the parent is the last thing that
`taskDone` does, and all that the caller of `taskDone` does afterwards is to go on in the loop of
`parallelTaskRun`, which is where the notification of a series is dealt with.

The dictionary of a parallel task is the list of its entries in the order in which an iterator visits
them; a new entry may get any place in it. What has happened is a list of events: a task is started, or
it is done. A job that was submitted is a basic task that is started, and `basicCallback` is called when
the thread is done with it.
-/

namespace LatteC

/-- `WAIT_TASK_STATUS`, `DOING_TASK_STATUS` and `DONE_TASK_STATUS`. -/
inductive TaskStatus where
  | wait
  | doing
  | done
deriving DecidableEq

/-- `asyncTask`, with `asyncBasicTask`, `seriesTask` and `parallelTask`. -/
inductive AsyncTask where
  | basic (id : ℕ) (status : TaskStatus)
  | series (id : ℕ) (status : TaskStatus) (tasks : List AsyncTask)
  | parallel (id : ℕ) (status : TaskStatus) (num : ℤ) (tasks : List (List UInt8 × AsyncTask))

namespace AsyncTask

/-- The address of a task. -/
def id : AsyncTask → ℕ
  | basic id _ => id
  | series id _ _ => id
  | parallel id _ _ _ => id

def status : AsyncTask → TaskStatus
  | basic _ status => status
  | series _ status _ => status
  | parallel _ status _ _ => status

end AsyncTask

/-- What happens to a task. -/
inductive TaskEvent where
  | start (id : ℕ)
  | done (id : ℕ)
deriving DecidableEq

/-- The task that it happens to. -/
def TaskEvent.id : TaskEvent → ℕ
  | start id => id
  | done id => id

/-- What a function on tasks leaves behind: the tasks, what has happened, and whether the parent is
notified. -/
structure TaskRan (α : Type) where
  task : α
  log : List TaskEvent
  notify : Bool

/-! ## Running -/

/-- The end of `nextSeriesTask`: a series is done when there is no next child. -/
def seriesAfter (id : ℕ) (status : TaskStatus) (r : TaskRan (List AsyncTask)) : TaskRan AsyncTask :=
  if r.notify then ⟨.series id .done r.task, r.log ++ [.done id], true⟩
  else ⟨.series id status r.task, r.log, false⟩

/-- `nextParallelTask`, on the status and the number of a parallel task. -/
def nextParallelTask (id : ℕ) (status : TaskStatus) (num : ℤ) : TaskRan (TaskStatus × ℤ) :=
  if num - 1 = 0 then ⟨(.done, num - 1), [.done id], true⟩ else ⟨(status, num - 1), [], false⟩

/-- A parallel task is notified or not. -/
def parallelNotified (id : ℕ) (status : TaskStatus) (num : ℤ) (notify : Bool) :
    TaskRan (TaskStatus × ℤ) :=
  if notify then nextParallelTask id status num else ⟨(status, num), [], false⟩

mutual

/-- `asyncRun`. -/
def asyncRun : AsyncTask → TaskRan AsyncTask
  | .basic id .wait => ⟨.basic id .doing, [.start id], false⟩
  | .series id .wait tasks => seriesTaskRun (.series id .wait tasks)
  | .parallel id .wait num tasks =>
    -- `parallelTaskRun`
    match tasks with
    | [] => ⟨.parallel id .done num [], [.start id, .done id], true⟩
    | e :: tasks =>
      let r := parallelTaskLoop id .doing num (e :: tasks)
      ⟨.parallel id r.task.1.1 r.task.1.2 r.task.2, .start id :: r.log, r.notify⟩
  | task => ⟨task, [], false⟩

/-- `seriesTaskRun`, of whatever status the series has. -/
def seriesTaskRun : AsyncTask → TaskRan AsyncTask
  | .series id _ tasks =>
    let r := seriesAfter id .doing (seriesRunFrom tasks)
    ⟨r.task, .start id :: r.log, r.notify⟩
  | task => ⟨task, [], false⟩

/-- Run the first of the children, and when it is done, the next one: `nextSeriesTask`. The parent is
notified when there is none. -/
def seriesRunFrom : List AsyncTask → TaskRan (List AsyncTask)
  | [] => ⟨[], [], true⟩
  | task :: tasks =>
    let r := asyncRun task
    if r.notify then
      let r' := seriesRunFrom tasks
      ⟨r.task :: r'.task, r.log ++ r'.log, r'.notify⟩
    else ⟨r.task :: tasks, r.log, false⟩

/-- The loop of `parallelTaskRun`. -/
def parallelTaskLoop (id : ℕ) : TaskStatus → (num : ℤ) → (tasks : List (List UInt8 × AsyncTask)) →
    TaskRan ((TaskStatus × ℤ) × List (List UInt8 × AsyncTask))
  | status, num, [] => ⟨((status, num), []), [], false⟩
  | status, num, (name, task) :: tasks =>
    let r := seriesTaskRun task
    let n := parallelNotified id status num r.notify
    let r' := parallelTaskLoop id n.task.1 n.task.2 tasks
    ⟨(r'.task.1, (name, r.task) :: r'.task.2), r.log ++ n.log ++ r'.log, n.notify || r'.notify⟩

end

/-! ## Notifying -/

/-- A parallel task after something has happened to one of its series. -/
def parallelAfter (id : ℕ) (status : TaskStatus) (num : ℤ)
    (r : TaskRan (List (List UInt8 × AsyncTask))) : TaskRan AsyncTask :=
  let n := parallelNotified id status num r.notify
  ⟨.parallel id n.task.1 n.task.2 r.task, r.log ++ n.log, n.notify⟩

mutual

/-- Something happens to the task that `f` is about, and the parents are notified. -/
def atTask (f : AsyncTask → Option (TaskRan AsyncTask)) : AsyncTask → Option (TaskRan AsyncTask)
  | .basic id status => f (.basic id status)
  | .series id status tasks =>
    match f (.series id status tasks) with
    | some r => some r
    | none => (atSeries f tasks).map (seriesAfter id status)
  | .parallel id status num tasks =>
    match f (.parallel id status num tasks) with
    | some r => some r
    | none => (atParallel f tasks).map (parallelAfter id status num)

/-- Something happens among the children of a series. -/
def atSeries (f : AsyncTask → Option (TaskRan AsyncTask)) :
    List AsyncTask → Option (TaskRan (List AsyncTask))
  | [] => none
  | task :: tasks =>
    match atTask f task with
    | some r =>
      if r.notify then
        -- `nextSeriesTask`
        let r' := seriesRunFrom tasks
        some ⟨r.task :: r'.task, r.log ++ r'.log, r'.notify⟩
      else some ⟨r.task :: tasks, r.log, false⟩
    | none => (atSeries f tasks).map fun r ↦ ⟨task :: r.task, r.log, r.notify⟩

/-- Something happens among the series of a parallel task. -/
def atParallel (f : AsyncTask → Option (TaskRan AsyncTask)) :
    List (List UInt8 × AsyncTask) → Option (TaskRan (List (List UInt8 × AsyncTask)))
  | [] => none
  | (name, task) :: tasks =>
    match atTask f task with
    | some r => some ⟨(name, r.task) :: tasks, r.log, r.notify⟩
    | none => (atParallel f tasks).map fun r ↦ ⟨(name, task) :: r.task, r.log, r.notify⟩

end

/-- `basicCallback`, for a job that was submitted. -/
def basicCallback (b : ℕ) : AsyncTask → Option (TaskRan AsyncTask)
  | .basic id .doing => if id = b then some ⟨.basic id .done, [.done id], true⟩ else none
  | _ => none

/-! ## Adding -/

/-- `addSeriesTask`. -/
def addSeriesTask (child : AsyncTask) : AsyncTask → AsyncTask
  | .series id status tasks => .series id status (tasks ++ [child])
  | task => task

/-- The child is added to the series of a name. -/
def addToEntry (name : List UInt8) (child : AsyncTask) :
    List (List UInt8 × AsyncTask) → List (List UInt8 × AsyncTask)
  | [] => []
  | e :: es => if e.1 = name then (e.1, addSeriesTask child e.2) :: es else e :: addToEntry name child es

/-- `addParallelTask`. If there is no series of the name, a new one gets the address `sid` and the place
`pos` in the dictionary. -/
def addParallelTask (p : ℕ) (name : List UInt8) (child : AsyncTask) (sid pos : ℕ) :
    AsyncTask → Option (TaskRan AsyncTask)
  | .parallel id status num tasks =>
    if id = p then
      if status = .done then some ⟨.parallel id status num tasks, [], false⟩
      else if (tasks.find? fun e ↦ e.1 = name) = none then
        let series := addSeriesTask child (.series sid .wait [])
        if status = .doing then
          let r := seriesTaskRun series
          let n := parallelNotified id status (num + 1) r.notify
          some ⟨.parallel id n.task.1 n.task.2 (tasks.take pos ++ (name, r.task) :: tasks.drop pos),
            r.log ++ n.log, n.notify⟩
        else
          some ⟨.parallel id status (num + 1) (tasks.take pos ++ (name, series) :: tasks.drop pos), [], false⟩
      else some ⟨.parallel id status num (addToEntry name child tasks), [], false⟩
    else none
  | _ => none

/-! ## The tasks of a program -/

mutual

/-- The task and everything below it. -/
def AsyncTask.nodes : AsyncTask → List AsyncTask
  | .basic id status => [.basic id status]
  | .series id status tasks => .series id status tasks :: seriesNodes tasks
  | .parallel id status num tasks => .parallel id status num tasks :: parallelNodes tasks

def seriesNodes : List AsyncTask → List AsyncTask
  | [] => []
  | task :: tasks => task.nodes ++ seriesNodes tasks

def parallelNodes : List (List UInt8 × AsyncTask) → List AsyncTask
  | [] => []
  | (_, task) :: tasks => task.nodes ++ parallelNodes tasks

end

/-- The tasks that have no parent, and the next address. -/
structure AsyncState where
  roots : List AsyncTask
  next : ℕ

/-- All tasks. -/
def AsyncState.nodes (s : AsyncState) : List AsyncTask := s.roots.flatMap AsyncTask.nodes

/-- No task yet. -/
def asyncStart : AsyncState := ⟨[], 0⟩

/-- Take out the task that gets a parent. -/
def takeRoot (c : ℕ) : List AsyncTask → Option (AsyncTask × List AsyncTask)
  | [] => none
  | task :: tasks =>
    if task.id = c then some (task, tasks) else (takeRoot c tasks).map fun r ↦ (r.1, task :: r.2)

/-- Something happens in one of the trees. There is no parent to be notified. -/
def atRoots (g : AsyncTask → Option (TaskRan AsyncTask)) :
    List AsyncTask → Option (List AsyncTask × List TaskEvent)
  | [] => none
  | task :: tasks =>
    match g task with
    | some r => some (r.task :: tasks, r.log)
    | none => (atRoots g tasks).map fun r ↦ (task :: r.1, r.2)

/-- `addSeriesTask` for a series that has no parent. -/
def addToSeries (t : ℕ) (child : AsyncTask) : AsyncTask → Option (TaskRan AsyncTask)
  | .series id status tasks =>
    if id = t then some ⟨addSeriesTask child (.series id status tasks), [], false⟩ else none
  | _ => none

/-- What a program does with tasks. -/
inductive AsyncCall where
  | createAsyncBasicTask
  | createSeriesTask
  | createParallelTask
  | addSeriesTask (s c : ℕ)
  | addParallelTask (p : ℕ) (name : List UInt8) (c pos : ℕ)
  | asyncRun (r : ℕ)
  /-- The thread is done with a job. -/
  | basicCallback (b : ℕ)
deriving DecidableEq

/-- What `addParallelTask` returns. -/
def addParallelReturns (s : AsyncState) (p : ℕ) : ℤ :=
  match s.nodes.find? fun n ↦ n.id = p with
  | some n => if n.status = .done then 0 else 1
  | none => 1

/-- One call, with what it returns, or `0`, and what has happened. A task is added to a series or a
parallel task of another tree, and only to a series that has no parent itself. -/
def asyncStep (s : AsyncState) : AsyncCall → Option (AsyncState × ℤ × List TaskEvent)
  | .createAsyncBasicTask => some (⟨s.roots ++ [.basic s.next .wait], s.next + 1⟩, 0, [])
  | .createSeriesTask => some (⟨s.roots ++ [.series s.next .wait []], s.next + 1⟩, 0, [])
  | .createParallelTask => some (⟨s.roots ++ [.parallel s.next .wait 0 []], s.next + 1⟩, 0, [])
  | .addSeriesTask t c =>
    (takeRoot c s.roots).bind fun (child, rest) ↦
      (atRoots (addToSeries t child) rest).map fun r ↦ (⟨r.1, s.next⟩, 1, r.2)
  | .addParallelTask p name c pos =>
    if addParallelReturns s p = 0 then some (s, 0, [])
    else
      (takeRoot c s.roots).bind fun (child, rest) ↦
        (atRoots (atTask (addParallelTask p name child s.next pos)) rest).map fun r ↦
          (⟨r.1, s.next + 1⟩, 1, r.2)
  | .asyncRun t =>
    (atRoots (fun task ↦ if task.id = t then some (asyncRun task) else none) s.roots).map fun r ↦
      (⟨r.1, s.next⟩, 0, r.2)
  | .basicCallback b =>
    (atRoots (atTask (basicCallback b)) s.roots).map fun r ↦ (⟨r.1, s.next⟩, 0, r.2)

end LatteC
