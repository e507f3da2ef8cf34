import LatteC.ThreadJob.ConsumerQueue

/-!
# The manager of the consumer threads

`src/thread_job/thread_consumer_job.c`: the main thread hands jobs to a pool of consumer threads, and
tells how many of them are to be active. A thread that is not active waits for its mutex, which the main
thread holds.

## Modelling

The threads of the pool are a list, which does not change after `latte_thread_consumer_job_manager_new`;
what `vector_get` finds behind its end is `NULL`, and using that is a fault, `none`, as is an
assertion that fails. A thread has its own queue and its place in `thread_consumer_main`; it takes
its steps whenever it likes, also without its mutex, since it looks at its queue before it asks for the
mutex. There are fewer threads than an `int` can count; the number that `adjust` is given may be any,
and the difference to it is cut to an `int`. `push_count` is used as an unsigned number.

## The argument

A push changes one queue only, the one that is selected, and the selection goes through the whole pool.
So a job arrives at an active thread exactly if the thread whose turn it is happens to be active.
-/

namespace LatteC

variable {R A : Type}

/-- `latte_job_consumer_queue_is_empty`. -/
def latteJobConsumerQueueIsEmpty (queue : LatteJobConsumerQueue R A) : Bool := queue.head = queue.tail

/-- `latte_thread_t` of a consumer. -/
structure ConsumerThread (R A : Type) where
  tid : ℕ
  job : JobSystem R A
  /-- The main thread holds the mutex. -/
  locked : Bool

/-- `create_thread_consumer`. -/
def createThreadConsumer (tid : ℕ) : ConsumerThread R A := ⟨tid, jobSystemNew 40000, true⟩

/-- The thread with another queue. -/
def ConsumerThread.withQueue (thread : ConsumerThread R A) (queue : LatteJobConsumerQueue R A) :
    ConsumerThread R A := { thread with job := { thread.job with queue := queue } }

/-- `latte_thread_consumer_job_manager_t`. -/
structure ConsumerJobManager (R A : Type) where
  threads : List (ConsumerThread R A)
  activeIoThreadsNum : ℕ
  pushCount : ℕ

/-- `latte_thread_consumer_job_manager_new`, for a pool that has room for `minThreadNum` threads. -/
def latteThreadConsumerJobManagerNew (minThreadNum : ℕ) : ConsumerJobManager R A where
  threads := (List.range minThreadNum).map createThreadConsumer
  activeIoThreadsNum := 0
  pushCount := 0

section Operations

variable (manager : ConsumerJobManager R A)

/-- `select_thread_from_pool`: the number of the thread. -/
def selectThreadFromPool : Option ℕ :=
  if manager.threads.length = 0 then none else some (manager.pushCount % manager.threads.length)

/-- `latte_thread_consumer_job_manager_push`. -/
def latteThreadConsumerJobManagerPush (job : LatteJob R A) : Option (ConsumerJobManager R A) := do
  let i ← selectThreadFromPool manager
  let thread ← manager.threads[i]?
  let queue ← latteJobConsumerQueuePush thread.job.queue job
  some { manager with
    threads := manager.threads.set i (thread.withQueue queue)
    pushCount := (manager.pushCount + 1) % 2 ^ 64 }

end Operations

/-- The first loop of `latte_thread_consumer_job_manager_adjust`. -/
def deactivateThreads : (n : ℕ) → ConsumerJobManager R A → Option (ConsumerJobManager R A)
  | 0, manager => some manager
  | n + 1, manager =>
    let tid := manager.activeIoThreadsNum - 1
    (manager.threads[tid]?).bind fun thread ↦
      if latteJobConsumerQueueIsEmpty thread.job.queue then
        deactivateThreads n { manager with
          threads := manager.threads.set tid { thread with locked := true }
          activeIoThreadsNum := tid }
      else some manager

/-- The second loop of `latte_thread_consumer_job_manager_adjust`. -/
def activateThreads : (n : ℕ) → ConsumerJobManager R A → Option (ConsumerJobManager R A)
  | 0, manager => some manager
  | n + 1, manager =>
    let tid := manager.activeIoThreadsNum
    (manager.threads[tid]?).bind fun thread ↦
      activateThreads n { manager with
        threads := manager.threads.set tid { thread with locked := false }
        activeIoThreadsNum := tid + 1 }

/-- How often a loop up to a difference of type `size_t` that is kept in an `int` runs. -/
def intCount (n : ℕ) : ℕ := ((n : ℤ).bmod (2 ^ 32)).toNat

/-- `latte_thread_consumer_job_manager_adjust`. -/
def latteThreadConsumerJobManagerAdjust (manager : ConsumerJobManager R A) (targetThreadNum : ℕ) :
    Option (ConsumerJobManager R A) :=
  if targetThreadNum = manager.activeIoThreadsNum then some manager
  else if targetThreadNum < manager.activeIoThreadsNum then
    deactivateThreads (intCount (manager.activeIoThreadsNum - targetThreadNum)) manager
  else activateThreads (intCount (targetThreadNum - manager.activeIoThreadsNum)) manager

/-- A call of the main thread, or a step of the thread with the number `i`. -/
inductive ManagerCall (R A : Type) where
  | push (job : LatteJob R A)
  | adjust (targetThreadNum : ℕ)
  | consumer (i : ℕ)

def managerStep (manager : ConsumerJobManager R A) :
    ManagerCall R A → Option (ConsumerJobManager R A × Unit)
  | .push job => (latteThreadConsumerJobManagerPush manager job).map fun manager ↦ (manager, ())
  | .adjust targetThreadNum =>
    (latteThreadConsumerJobManagerAdjust manager targetThreadNum).map fun manager ↦ (manager, ())
  | .consumer i =>
    (manager.threads[i]?).bind fun thread ↦ (consumerStep thread.job).map fun r ↦
      ({ manager with threads := manager.threads.set i { thread with job := r.1 } }, ())

/-- At least one thread is active at a push. -/
def PushHasActive (manager : ConsumerJobManager R A) : ManagerCall R A → Prop
  | .push _ => 0 < manager.activeIoThreadsNum
  | _ => True

/-- What a call should do: a pushed job is in the queue of an active thread, and nothing else is changed in
the queues; a thread that is deactivated has an empty queue. -/
def JobDispatched (manager : ConsumerJobManager R A) (call : ManagerCall R A) : Prop :=
  ∀ manager', managerStep manager call = some (manager', ()) →
    match call with
    | .push job => ∃ i thread queue, i < manager.activeIoThreadsNum ∧ manager.threads[i]? = some thread ∧
        latteJobConsumerQueuePush thread.job.queue job = some queue ∧
        manager'.threads = manager.threads.set i (thread.withQueue queue)
    | .adjust _ => ∀ i thread, manager'.activeIoThreadsNum ≤ i → i < manager.activeIoThreadsNum →
        manager.threads[i]? = some thread → latteJobConsumerQueueIsEmpty thread.job.queue = true
    | .consumer _ => True

/-- The thread whose turn it is at a push is active. -/
def TurnIsActive (manager : ConsumerJobManager R A) : ManagerCall R A → Prop
  | .push _ => manager.pushCount % manager.threads.length < manager.activeIoThreadsNum
  | _ => True

/-! ## The queues -/

/-- The indices of a queue are inside of it. -/
structure LatteJobConsumerQueue.InRange (queue : LatteJobConsumerQueue R A) : Prop where
  two_le : 2 ≤ queue.size
  head_lt : queue.head < queue.size

theorem LatteJobConsumerQueue.InRange.push {queue queue' : LatteJobConsumerQueue R A} {job : LatteJob R A}
    (h : queue.InRange) (hpush : latteJobConsumerQueuePush queue job = some queue') :
    queue'.InRange ∧ queue' ≠ queue := by
  rw [latteJobConsumerQueuePush] at hpush
  split_ifs at hpush
  rw [Option.some.injEq] at hpush
  subst hpush
  refine ⟨⟨h.two_le, Nat.mod_lt _ (by have := h.two_le; omega)⟩, fun heq ↦ ?_⟩
  have hhead : (queue.head + 1) % queue.size = queue.head := congrArg LatteJobConsumerQueue.head heq
  have hsize := h.two_le
  have hlt := h.head_lt
  by_cases hend : queue.head + 1 = queue.size
  · rw [hend, Nat.mod_self] at hhead
    omega
  · rw [Nat.mod_eq_of_lt (by omega)] at hhead
    omega

theorem LatteJobConsumerQueue.InRange.consumer {s s' : JobSystem R A} {event : JobEvent R A}
    (h : s.queue.InRange) (hstep : consumerStep s = some (s', event)) : s'.queue.InRange := by
  obtain ⟨queue, pc⟩ := s
  cases pc with
  | polling =>
    simp only [consumerStep, Option.some.injEq, Prod.mk.injEq] at hstep
    exact hstep.1 ▸ h
  | peeking left =>
    simp only [consumerStep, Option.map_eq_some_iff, Prod.mk.injEq] at hstep
    obtain ⟨job, -, rfl, -⟩ := hstep
    exact h
  | running left job =>
    simp only [consumerStep, Option.map_eq_some_iff, Prod.mk.injEq] at hstep
    obtain ⟨queue', hremove, rfl, -⟩ := hstep
    rw [latteJobConsumerQueueRemove, Option.bind_eq_some_iff] at hremove
    obtain ⟨slot, -, hslot⟩ := hremove
    split_ifs at hslot
    rw [Option.some.injEq] at hslot
    exact hslot ▸ ⟨h.two_le, h.head_lt⟩

/-- All queues of a manager are in range. -/
def ConsumerJobManager.InRange (manager : ConsumerJobManager R A) : Prop :=
  ∀ thread ∈ manager.threads, thread.job.queue.InRange

section Steps

variable {manager manager' : ConsumerJobManager R A}

theorem ConsumerJobManager.InRange.set (h : manager.InRange) {i : ℕ} {thread : ConsumerThread R A}
    {active pushed : ℕ} (hthread : thread.job.queue.InRange) :
    (⟨manager.threads.set i thread, active, pushed⟩ : ConsumerJobManager R A).InRange := by
  intro t ht
  rcases List.mem_or_eq_of_mem_set ht with hold | rfl
  · exact h t hold
  · exact hthread

/-! ## Adjusting -/

theorem deactivateThreads_spec {n : ℕ} (h : manager.InRange)
    (hloop : deactivateThreads n manager = some manager') (hn : n ≤ manager.activeIoThreadsNum) :
    manager'.InRange ∧ ∀ i thread, manager'.activeIoThreadsNum ≤ i → i < manager.activeIoThreadsNum →
      manager.threads[i]? = some thread → latteJobConsumerQueueIsEmpty thread.job.queue = true := by
  induction n generalizing manager with
  | zero =>
    rw [deactivateThreads, Option.some.injEq] at hloop
    subst hloop
    exact ⟨h, fun i thread hle hlt ↦ absurd hle (not_le.mpr hlt)⟩
  | succ n ih =>
    rw [deactivateThreads, Option.bind_eq_some_iff] at hloop
    obtain ⟨thread, hthread, hrest⟩ := hloop
    split_ifs at hrest with hempty
    · have hset : (⟨manager.threads.set (manager.activeIoThreadsNum - 1) { thread with locked := true },
          manager.activeIoThreadsNum - 1, manager.pushCount⟩ : ConsumerJobManager R A).InRange :=
        h.set (show thread.job.queue.InRange from h thread (List.mem_of_getElem? hthread))
      obtain ⟨hrange, hbelow⟩ := ih hset hrest (Nat.le_sub_one_of_lt hn)
      refine ⟨hrange, fun i t hle hlt ht ↦ ?_⟩
      by_cases hlast : i = manager.activeIoThreadsNum - 1
      · rw [hlast, hthread, Option.some.injEq] at ht
        exact ht ▸ hempty
      · refine hbelow i t hle (lt_of_le_of_ne (Nat.le_sub_one_of_lt hlt) hlast) ?_
        rw [List.getElem?_set_ne (Ne.symm hlast)]
        exact ht
    · rw [Option.some.injEq] at hrest
      subst hrest
      exact ⟨h, fun i t hle hlt ↦ absurd hle (not_le.mpr hlt)⟩

theorem activateThreads_spec {n : ℕ} (h : manager.InRange)
    (hloop : activateThreads n manager = some manager') :
    manager'.InRange ∧ manager.activeIoThreadsNum ≤ manager'.activeIoThreadsNum := by
  induction n generalizing manager with
  | zero =>
    rw [activateThreads, Option.some.injEq] at hloop
    exact hloop ▸ ⟨h, le_rfl⟩
  | succ n ih =>
    rw [activateThreads, Option.bind_eq_some_iff] at hloop
    obtain ⟨thread, hthread, hrest⟩ := hloop
    have hset : (⟨manager.threads.set manager.activeIoThreadsNum { thread with locked := false },
        manager.activeIoThreadsNum + 1, manager.pushCount⟩ : ConsumerJobManager R A).InRange :=
      h.set (show thread.job.queue.InRange from h thread (List.mem_of_getElem? hthread))
    obtain ⟨hrange, hle⟩ := ih hset hrest
    exact ⟨hrange, (Nat.le_succ _).trans hle⟩

theorem toNat_bmod_le (n m : ℕ) : ((n : ℤ).bmod m).toNat ≤ n := by
  have hle := Nat.mod_le n m
  rw [Int.toNat_le, Int.bmod_eq_emod, ← Int.natCast_emod]
  split_ifs <;> omega

theorem intCount_le (n : ℕ) : intCount n ≤ n := toNat_bmod_le n (2 ^ 32)

theorem adjust_spec (h : manager.InRange) {targetThreadNum : ℕ}
    (hadjust : latteThreadConsumerJobManagerAdjust manager targetThreadNum = some manager') :
    manager'.InRange ∧ ∀ i thread, manager'.activeIoThreadsNum ≤ i → i < manager.activeIoThreadsNum →
      manager.threads[i]? = some thread → latteJobConsumerQueueIsEmpty thread.job.queue = true := by
  rw [latteThreadConsumerJobManagerAdjust] at hadjust
  split_ifs at hadjust with heq hless
  · rw [Option.some.injEq] at hadjust
    subst hadjust
    exact ⟨h, fun i t hle hlt ↦ absurd hle (not_le.mpr hlt)⟩
  · exact deactivateThreads_spec h hadjust ((intCount_le _).trans (Nat.sub_le _ _))
  · obtain ⟨hrange, hle⟩ := activateThreads_spec h hadjust
    exact ⟨hrange, fun i t hge hlt ↦ absurd hlt (not_lt.mpr (hle.trans hge))⟩

/-! ## Pushing -/

theorem push_spec {job : LatteJob R A} (h : manager.InRange)
    (hpush : latteThreadConsumerJobManagerPush manager job = some manager') :
    manager'.InRange ∧ ∃ thread queue,
      manager.threads[manager.pushCount % manager.threads.length]? = some thread ∧
      latteJobConsumerQueuePush thread.job.queue job = some queue ∧ thread.withQueue queue ≠ thread ∧
      manager'.threads = manager.threads.set (manager.pushCount % manager.threads.length)
        (thread.withQueue queue) := by
  simp only [latteThreadConsumerJobManagerPush, Option.bind_eq_bind, Option.bind_eq_some_iff,
    Option.some.injEq] at hpush
  obtain ⟨i, hselect, thread, hthread, queue, hqueue, rfl⟩ := hpush
  rw [selectThreadFromPool] at hselect
  split_ifs at hselect
  rw [Option.some.injEq] at hselect
  subst hselect
  obtain ⟨hrange, hne⟩ := (h thread (List.mem_of_getElem? hthread)).push hqueue
  exact ⟨h.set hrange, thread, queue, hthread, hqueue,
    fun heq ↦ hne (congrArg (fun t ↦ t.job.queue) heq), rfl⟩

theorem managerStep_inRange (h : manager.InRange) {call : ManagerCall R A}
    (hstep : managerStep manager call = some (manager', ())) : manager'.InRange := by
  cases call with
  | push job =>
    rw [managerStep, Option.map_eq_some_iff] at hstep
    obtain ⟨m, hpush, heq⟩ := hstep
    exact (Prod.mk.inj heq).1 ▸ (push_spec h hpush).1
  | adjust targetThreadNum =>
    rw [managerStep, Option.map_eq_some_iff] at hstep
    obtain ⟨m, hadjust, heq⟩ := hstep
    exact (Prod.mk.inj heq).1 ▸ (adjust_spec h hadjust).1
  | consumer i =>
    simp only [managerStep, Option.bind_eq_some_iff, Option.map_eq_some_iff, Prod.mk.injEq] at hstep
    obtain ⟨thread, hthread, ⟨s', event⟩, hconsumer, rfl, -⟩ := hstep
    exact h.set ((h thread (List.mem_of_getElem? hthread)).consumer hconsumer)

/-- One call that returns. -/
theorem dispatched_iff (h : manager.InRange) {call : ManagerCall R A}
    (hstep : managerStep manager call = some (manager', ())) :
    JobDispatched manager call ↔ TurnIsActive manager call := by
  cases call with
  | push job =>
    have hmap := hstep
    rw [managerStep, Option.map_eq_some_iff] at hmap
    obtain ⟨m, hpush, heq⟩ := hmap
    obtain rfl := (Prod.mk.inj heq).1
    obtain ⟨-, thread, queue, hthread, hqueue, hne, hset⟩ := push_spec h hpush
    constructor
    · intro hdone
      obtain ⟨i, t, q, hi, -, -, heq⟩ := hdone _ hstep
      -- only the queue of the selected thread is not what it was
      have hsame : i = manager.pushCount % manager.threads.length := by
        by_contra hother
        have hget := congrArg (fun l ↦ l[manager.pushCount % manager.threads.length]?) (hset.symm.trans heq)
        rw [List.getElem?_set_ne hother, hthread,
          List.getElem?_set_self (List.getElem?_eq_some_iff.mp hthread).1, Option.some.injEq] at hget
        exact hne hget
      rw [hsame] at hi
      exact hi
    · intro hturn m' hstep'
      rw [hstep, Option.some.injEq, Prod.mk.injEq] at hstep'
      exact ⟨_, thread, queue, hturn, hthread, hqueue, hstep'.1 ▸ hset⟩
  | adjust targetThreadNum =>
    refine iff_of_true (fun m' hstep' ↦ ?_) trivial
    rw [managerStep, Option.map_eq_some_iff] at hstep'
    obtain ⟨m, hadjust, heq⟩ := hstep'
    exact (Prod.mk.inj heq).1 ▸ (adjust_spec h hadjust).2
  | consumer i => exact iff_of_true (fun _ _ ↦ trivial) trivial

end Steps

/-! ## Runs -/

theorem guarded_dispatched_iff {calls : List (ManagerCall R A)} {manager manager' : ConsumerJobManager R A}
    {replies : List Unit} (h : manager.InRange)
    (hrun : CallMachine.run managerStep manager calls = some (manager', replies)) :
    CallMachine.Guarded JobDispatched managerStep manager calls ↔
      CallMachine.Guarded TurnIsActive managerStep manager calls := by
  induction calls generalizing manager replies with
  | nil => exact Iff.rfl
  | cons call calls ih =>
    obtain ⟨m, u, us, hstep, hrest, -⟩ := CallMachine.run_cons_eq_some hrun
    refine and_congr (dispatched_iff h hstep) ?_
    have hnext := ih (managerStep_inRange h hstep) hrest
    constructor
    · intro hok m' u' hstep'
      rw [hstep, Option.some.injEq, Prod.mk.injEq] at hstep'
      exact hstep'.1 ▸ hnext.mp (hok m u hstep)
    · intro hok m' u' hstep'
      rw [hstep, Option.some.injEq, Prod.mk.injEq] at hstep'
      exact hstep'.1 ▸ hnext.mpr (hok m u hstep)

theorem inRange_new (minThreadNum : ℕ) :
    (latteThreadConsumerJobManagerNew minThreadNum : ConsumerJobManager R A).InRange := by
  intro thread hthread
  obtain ⟨tid, -, rfl⟩ := List.mem_map.mp hthread
  exact ⟨show 2 ≤ 40000 by decide, show 0 < 40000 by decide⟩

/-- **Jobs go round the whole pool.** In every run of pushes and adjustments, with steps of the consumers
anywhere in between, `adjust` deactivates threads with an empty queue only; and every job is put into the
queue of an active thread if and only if, at each push, the number of pushes before it modulo the
number of all threads is the number of an active thread. -/
theorem consumerJobManager_run {minThreadNum : ℕ} {calls : List (ManagerCall R A)}
    {manager : ConsumerJobManager R A} {replies : List Unit} (hrun : CallMachine.run managerStep
      (latteThreadConsumerJobManagerNew minThreadNum) calls = some (manager, replies)) :
    CallMachine.Guarded JobDispatched managerStep (latteThreadConsumerJobManagerNew minThreadNum) calls ↔
      CallMachine.Guarded TurnIsActive managerStep (latteThreadConsumerJobManagerNew minThreadNum) calls :=
  guarded_dispatched_iff (inRange_new minThreadNum) hrun

instance (manager : ConsumerJobManager R A) : DecidablePred (PushHasActive manager)
  | .push _ => inferInstanceAs (Decidable (0 < manager.activeIoThreadsNum))
  | .adjust _ => isTrue trivial
  | .consumer _ => isTrue trivial

instance (manager : ConsumerJobManager R A) : DecidablePred (TurnIsActive manager)
  | .push _ => inferInstanceAs (Decidable (_ < manager.activeIoThreadsNum))
  | .adjust _ => isTrue trivial
  | .consumer _ => isTrue trivial

/-- Two pushes with one of two threads active. -/
def halfActiveCalls : List (ManagerCall ℕ ℕ) :=
  [.adjust 1, .push ⟨some 1, 0, none⟩, .push ⟨some 2, 0, none⟩]

theorem consumerJobManager_run_half :
    ¬CallMachine.Guarded JobDispatched managerStep (latteThreadConsumerJobManagerNew 2) halfActiveCalls := by
  obtain ⟨r, hr⟩ : ∃ r, CallMachine.run managerStep (latteThreadConsumerJobManagerNew 2)
    halfActiveCalls = some r := ⟨_, rfl⟩
  exact mt (consumerJobManager_run hr).mp (by decide)

/-- The second job goes to a thread that was never activated. -/
theorem not_consumerJobManager_run : ¬∀ (minThreadNum : ℕ) (calls : List (ManagerCall ℕ ℕ)),
    CallMachine.Guarded PushHasActive managerStep (latteThreadConsumerJobManagerNew minThreadNum) calls →
    CallMachine.Guarded JobDispatched managerStep (latteThreadConsumerJobManagerNew minThreadNum) calls := by
  intro h
  have hdone := h 2 halfActiveCalls (by decide)
  obtain ⟨r, hr⟩ : ∃ r, CallMachine.run managerStep (latteThreadConsumerJobManagerNew 2)
    halfActiveCalls = some r := ⟨_, rfl⟩
  rw [guarded_dispatched_iff (inRange_new 2) hr] at hdone
  exact absurd hdone (by decide)

end LatteC
