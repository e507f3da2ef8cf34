import LatteC.Ae.TimerPass
import LatteC.List.Iterator

/-!
# One turn of the event loop

`ae_process_events` of `src/ae/ae.c`. It runs the hook and the tasks that are registered for before the sleep,
polls, runs what is registered for after the sleep, then the procedures of the descriptors that fired, and last
the time events. Every call out of the loop is recorded, in order.

## Modelling

What is called may do anything with the world, to which the file events belong, and any calls on the time
events. It leaves alone what is registered for the sleep. A NULL procedure that would be called, and a
descriptor outside the table, are faults.
-/

namespace LatteC

open DoublyLinked

/-- `AE_FILE_EVENTS`. -/
def aeFileEvents : UInt32 := 1

/-- `AE_TIME_EVENTS`. -/
def aeTimeEvents : UInt32 := 2

/-- `AE_DONT_WAIT`. -/
def aeDontWait : UInt32 := 4

/-- `AE_CALL_BEFORE_SLEEP`. -/
def aeCallBeforeSleep : UInt32 := 8

/-- `AE_CALL_AFTER_SLEEP`. -/
def aeCallAfterSleep : UInt32 := 16

/-- What is registered for the sleep in `ae_event_loop_t`, and its flags. The nodes of both lists are in one
heap. -/
structure AeSleep (H T : Type) where
  heap : Heap T
  beforesleep : Option H
  beforesleeps : LList
  aftersleep : Option H
  aftersleeps : LList
  flags : UInt32

/-- A call out of the event loop. -/
inductive AeCall (D H T Q : Type) where
  | apiBeforeSleep
  | hook (proc : H)
  | task (t : T)
  | poll (tvp : Option (Int64 × Int64))
  | fileProc (proc : Q) (fd : ℕ) (clientData : Option D) (mask : UInt32)
  | apiAfterSleep
  | timeEvents

variable {W P F D H T Q : Type}

/-! ## Registration -/

/-- `ae_event_loop_new`, as far as it is about the sleep. -/
def aeSleepNew : AeSleep H T := ⟨Heap.empty, none, listNew, none, listNew, 0⟩

/-- `ae_set_before_sleep_proc`. -/
def aeSetBeforeSleepProc (loop : AeSleep H T) (beforesleep : Option H) : AeSleep H T :=
  { loop with beforesleep := beforesleep }

/-- `ae_set_after_sleep_proc`. -/
def aeSetAfterSleepProc (loop : AeSleep H T) (aftersleep : Option H) : AeSleep H T :=
  { loop with aftersleep := aftersleep }

/-- `ae_add_before_sleep_task`. -/
def aeAddBeforeSleepTask (loop : AeSleep H T) (task : T) : Option (AeSleep H T) :=
  (listAddNodeTail loop.heap loop.beforesleeps task).map fun r ↦ { loop with heap := r.1, beforesleeps := r.2 }

/-- `ae_add_after_sleep_task`. -/
def aeAddAfterSleepTask (loop : AeSleep H T) (task : T) : Option (AeSleep H T) :=
  (listAddNodeTail loop.heap loop.aftersleeps task).map fun r ↦ { loop with heap := r.1, aftersleeps := r.2 }

/-- `ae_set_dont_wait`. -/
def aeSetDontWait (loop : AeSleep H T) (noWait : Bool) : AeSleep H T :=
  if noWait then { loop with flags := loop.flags ||| aeDontWait }
  else { loop with flags := loop.flags &&& ~~~aeDontWait }

/-- A call that registers something. -/
inductive AeSleepCall (H T : Type) where
  | setBeforeSleepProc (proc : Option H)
  | setAfterSleepProc (proc : Option H)
  | addBeforeSleepTask (task : T)
  | addAfterSleepTask (task : T)
  | setDontWait (noWait : Bool)

/-- What a call does. -/
def AeSleepCall.apply (loop : AeSleep H T) : AeSleepCall H T → Option (AeSleep H T)
  | .setBeforeSleepProc proc => some (aeSetBeforeSleepProc loop proc)
  | .setAfterSleepProc proc => some (aeSetAfterSleepProc loop proc)
  | .addBeforeSleepTask task => aeAddBeforeSleepTask loop task
  | .addAfterSleepTask task => aeAddAfterSleepTask loop task
  | .setDontWait noWait => some (aeSetDontWait loop noWait)

/-- One call after the other. -/
def aeSleepRun (loop : AeSleep H T) (calls : List (AeSleepCall H T)) : Option (AeSleep H T) :=
  calls.foldlM AeSleepCall.apply loop

/-- The before-sleep tasks that calls register, in order. -/
def beforeTasks (calls : List (AeSleepCall H T)) : List T :=
  calls.filterMap fun
    | .addBeforeSleepTask task => some task
    | _ => none

/-- The after-sleep tasks that calls register, in order. -/
def afterTasks (calls : List (AeSleepCall H T)) : List T :=
  calls.filterMap fun
    | .addAfterSleepTask task => some task
    | _ => none

/-! ## The calls out of the loop -/

/-- The world, the time events, and the calls so far. -/
structure AeState (W P F D H T Q : Type) where
  world : W
  timers : AeTimers P F D
  calls : List (AeCall D H T Q)

/-- The code that the event loop calls, and the file events as it leaves them. -/
structure AeProcs (W P F D H T Q : Type) extends AeTimeProcs W P F D where
  files : W → AeFiles Q D
  apiBeforeSleep : W → W
  apiPoll : Option (Int64 × Int64) → W → W × List (ℕ × UInt32)
  apiAfterSleep : W → W
  hook : H → W → AeCallback W P F D Unit
  exec : T → W → AeCallback W P F D Unit
  fileProc : Q → ℕ → Option D → UInt32 → W → AeCallback W P F D Unit

/-- Make a call. -/
def AeState.call (s : AeState W P F D H T Q) (c : AeCall D H T Q) (callback : W → AeCallback W P F D Unit) :
    Option (AeState W P F D H T Q) :=
  ((callback s.world).run s.timers).map fun r ↦ ⟨r.1, r.2.2, s.calls ++ [c]⟩

/-- `if (p) f();` -/
def callIf {S : Type} (p : Prop) [Decidable p] (f : S → Option S) (s : S) : Option S := if p then f s else some s

/-- The loop over a list of tasks, with the number of rounds it may take. -/
def aeExecTasks (E : AeProcs W P F D H T Q) (heap : Heap T) :
    ℕ → ListIterator → AeState W P F D H T Q → Option (AeState W P F D H T Q)
  | 0, _, _ => none
  | fuel + 1, li, s =>
    (listNext heap li).bind fun r ↦
      match r.2 with
      | none => some s
      | some ln =>
        (heap.cells ln).bind fun c ↦
          (s.call (.task c.value) (E.exec c.value)).bind (aeExecTasks E heap fuel r.1)

/-- `if (hook != NULL) hook(eventLoop);` -/
def aeCallHook (E : AeProcs W P F D H T Q) (hook : Option H) (s : AeState W P F D H T Q) :
    Option (AeState W P F D H T Q) :=
  match hook with
  | some proc => s.call (.hook proc) (E.hook proc)
  | none => some s

/-- A hook, if there is one, and then the tasks of a list. -/
def aeDoSleep (E : AeProcs W P F D H T Q) (heap : Heap T) (hook : Option H) (tasks : LList)
    (s : AeState W P F D H T Q) : Option (AeState W P F D H T Q) := do
  let s ← aeCallHook E hook s
  callIf (0 < tasks.len) (aeExecTasks E heap (heap.brk + 1) (listGetIterator tasks .startHead)) s

/-- `ae_do_before_sleep`. -/
def aeDoBeforeSleep (E : AeProcs W P F D H T Q) (loop : AeSleep H T) (s : AeState W P F D H T Q) :
    Option (AeState W P F D H T Q) :=
  aeDoSleep E loop.heap loop.beforesleep loop.beforesleeps s

/-- `ae_do_after_sleep`. The source names what is registered for before the sleep here, too. -/
def aeDoAfterSleep (E : AeProcs W P F D H T Q) (loop : AeSleep H T) (s : AeState W P F D H T Q) :
    Option (AeState W P F D H T Q) :=
  aeDoSleep E loop.heap loop.beforesleep loop.beforesleeps s

/-! ## The turn -/

/-- The earlier one of the times so far and one more. -/
def earlierTimer (earliest : Option UInt64) (when : UInt64) : Option UInt64 :=
  match earliest with
  | none => some when
  | some e => if when < e then some when else some e

/-- The loop of `us_until_earliest_timer`. Of the earliest event only the time is kept. -/
def earliestTimerLoop (heap : Heap (AeTimeEvent P F D)) : ℕ → Option ℕ → Option UInt64 → Option (Option UInt64)
  | 0, _, _ => none
  | _ + 1, none, earliest => some earliest
  | fuel + 1, some te, earliest =>
    (heap.cells te).bind fun c ↦ earliestTimerLoop heap fuel c.next (earlierTimer earliest c.value.when)

/-- `us_until_earliest_timer`. -/
def usUntilEarliestTimer (loop : AeTimers P F D) (now : UInt64) : Option Int64 :=
  (earliestTimerLoop loop.heap (loop.heap.brk + 1) loop.timeEventHead none).map fun earliest ↦
    match earliest with
    | none => -1
    | some when => if when ≤ now then 0 else (when - now).toInt64

/-- The timeout of the poll. -/
def aeTimeout (usUntilTimer : Int64) (flags loopFlags : UInt32) : Option (Int64 × Int64) :=
  let tvp :=
    if 0 ≤ usUntilTimer then some (usUntilTimer / 1000000, usUntilTimer % 1000000)
    else if flags &&& aeDontWait ≠ 0 then some (0, 0)
    else none
  if loopFlags &&& aeDontWait ≠ 0 then some (0, 0) else tvp

/-- A procedure of a descriptor, a fault if it was never set. -/
def aeFileProc (E : AeProcs W P F D H T Q) (proc : Option Q) (fd : ℕ) (clientData : Option D) (mask : UInt32)
    (s : AeState W P F D H T Q) : Option (AeState W P F D H T Q) :=
  proc.bind fun proc ↦ s.call (.fileProc proc fd clientData mask) (E.fileProc proc fd clientData mask)

/-- The readable event behind the writable one, where `called` says if there was a call for the descriptor. -/
def aeReadInverted [DecidableEq Q] (E : AeProcs W P F D H T Q) (fd : ℕ) (mask : UInt32) (called : Prop)
    [Decidable called] (s : AeState W P F D H T Q) : Option (AeState W P F D H T Q) := do
  let fe ← Block.cell (E.files s.world).events fd
  callIf (fe.mask &&& mask &&& aeReadable ≠ 0 ∧ (¬called ∨ fe.wfileProc ≠ fe.rfileProc))
    (aeFileProc E fe.rfileProc fd fe.clientData mask) s

/-- A descriptor that fired: the readable and the writable event, the other way round with a barrier. -/
def aeFileEventFired [DecidableEq Q] (E : AeProcs W P F D H T Q) (fd : ℕ) (mask : UInt32)
    (s : AeState W P F D H T Q) : Option (AeState W P F D H T Q) := do
  let fe ← Block.cell (E.files s.world).events fd
  let invert := fe.mask &&& aeBarrier ≠ 0
  let fired := ¬invert ∧ fe.mask &&& mask &&& aeReadable ≠ 0
  let s ← callIf fired (aeFileProc E fe.rfileProc fd fe.clientData mask) s
  let fe ← Block.cell (E.files s.world).events fd
  let write := fe.mask &&& mask &&& aeWritable ≠ 0 ∧ (¬fired ∨ fe.wfileProc ≠ fe.rfileProc)
  let s ← callIf write (aeFileProc E fe.wfileProc fd fe.clientData mask) s
  callIf invert (aeReadInverted E fd mask (fired ∨ write)) s

/-- How long there is to wait for a time event, `-1` if the call does not wait for one. -/
def aeUsUntilTimer (E : AeProcs W P F D H T Q) (flags : UInt32) (s : AeState W P F D H T Q) : Option Int64 :=
  if flags &&& aeTimeEvents ≠ 0 ∧ flags &&& aeDontWait = 0 then
    usUntilEarliestTimer s.timers (E.getMonotonicUs s.world)
  else some (-1)

/-- The part of `ae_process_events` around the poll: the state behind it, and the descriptors that fired. -/
def aePoll (E : AeProcs W P F D H T Q) (loop : AeSleep H T) (flags : UInt32) (s : AeState W P F D H T Q) :
    Option (AeState W P F D H T Q × List (ℕ × UInt32)) := do
  let usUntilTimer ← aeUsUntilTimer E flags s
  let tvp := aeTimeout usUntilTimer flags loop.flags
  let s : AeState W P F D H T Q := ⟨E.apiBeforeSleep s.world, s.timers, s.calls ++ [.apiBeforeSleep]⟩
  let s ← callIf (flags &&& aeCallBeforeSleep ≠ 0) (aeDoBeforeSleep E loop) s
  let (w, fired) := E.apiPoll tvp s.world
  let s : AeState W P F D H T Q := ⟨w, s.timers, s.calls ++ [.poll tvp]⟩
  let s ← callIf (loop.aftersleep.isSome ∧ flags &&& aeCallAfterSleep ≠ 0) (aeDoAfterSleep E loop) s
  return (s, fired)

/-- The part of `ae_process_events` that is left out if there is nothing to wait for. -/
def aePollEvents [DecidableEq Q] (E : AeProcs W P F D H T Q) (loop : AeSleep H T) (flags : UInt32)
    (s : AeState W P F D H T Q) : Option (AeState W P F D H T Q × Int32) := do
  let (s, fired) ← aePoll E loop flags s
  let s ← fired.foldlM (fun s f ↦ aeFileEventFired E f.1 f.2 s) s
  return (⟨E.apiAfterSleep s.world, s.timers, s.calls ++ [.apiAfterSleep]⟩, Int32.ofNat fired.length)

/-- The time events of a turn, if they are asked for. -/
def aeTimerPass (E : AeProcs W P F D H T Q) (flags : UInt32) (r : AeState W P F D H T Q × Int32) :
    Option (AeState W P F D H T Q × Int32) :=
  callIf (flags &&& aeTimeEvents ≠ 0) (fun r ↦
    (processTimeEvents E.toAeTimeProcs r.1.world r.1.timers).map fun pass ↦
      (⟨pass.world, pass.loop, r.1.calls ++ [.timeEvents]⟩, r.2 + pass.processed)) r

/-- `ae_process_events`. -/
def aeProcessEvents [DecidableEq Q] (E : AeProcs W P F D H T Q) (loop : AeSleep H T) (flags : UInt32)
    (s : AeState W P F D H T Q) : Option (AeState W P F D H T Q × Int32) :=
  if ¬(flags &&& aeTimeEvents ≠ 0) ∧ ¬(flags &&& aeFileEvents ≠ 0) then some (s, 0)
  else if (E.files s.world).maxfd ≠ -1 ∨ flags &&& aeTimeEvents ≠ 0 ∧ flags &&& aeDontWait = 0 then
    (aePollEvents E loop flags s).bind (aeTimerPass E flags)
  else aeTimerPass E flags (s, 0)

/-! ## What is recorded -/

/-- The task of a call. -/
def AeCall.toTask : AeCall D H T Q → Option T
  | .task t => some t
  | _ => none

/-- The call is that of a procedure of a descriptor. -/
def AeCall.isFileProc : AeCall D H T Q → Bool
  | .fileProc _ _ _ _ => true
  | _ => false

/-- A hook and tasks, as calls. -/
def sleepCalls (hook : Option H) (tasks : List T) : List (AeCall D H T Q) :=
  hook.toList.map AeCall.hook ++ tasks.map AeCall.task

theorem filterMap_toTask_sleepCalls (hook : Option H) (tasks : List T) :
    (sleepCalls hook tasks : List (AeCall D H T Q)).filterMap AeCall.toTask = tasks := by
  have htasks : (tasks.map AeCall.task : List (AeCall D H T Q)).filterMap AeCall.toTask = tasks := by
    rw [List.filterMap_map]
    exact List.filterMap_some
  rw [sleepCalls, List.filterMap_append, htasks]
  cases hook with
  | none => rfl
  | some proc => rfl

theorem isFileProc_sleepCalls {hook : Option H} {tasks : List T} {c : AeCall D H T Q}
    (hc : c ∈ sleepCalls hook tasks) : c.isFileProc = false := by
  rw [sleepCalls, List.mem_append, List.mem_map, List.mem_map] at hc
  obtain ⟨proc, -, rfl⟩ | ⟨t, -, rfl⟩ := hc
  · rfl
  · rfl

section Sleeping

variable {E : AeProcs W P F D H T Q} {s : AeState W P F D H T Q} {xs : List (ℕ × AeTimeEvent P F D)}

/-- A call returns and is recorded. -/
theorem AeState.call_spec (h : s.timers.Holds xs) (c : AeCall D H T Q) (callback : W → AeCallback W P F D Unit) :
    ∃ s' ys, s.call c callback = some s' ∧ s'.timers.Holds ys ∧ s'.calls = s.calls ++ [c] := by
  obtain ⟨w, r, timers, news, ys, hrun, hholds, -⟩ := h.run (callback s.world)
  exact ⟨⟨w, timers, s.calls ++ [c]⟩, news ++ ys, by rw [AeState.call, hrun]; rfl, hholds, rfl⟩

/-- The loop executes the tasks that are in front of it, in order. -/
theorem aeExecTasks_spec (E : AeProcs W P F D H T Q) {heap : Heap T} {tasks : List T} {li : ListIterator}
    (ha : li.Ahead heap .startHead tasks) (h : s.timers.Holds xs) {fuel : ℕ} (hfuel : tasks.length < fuel) :
    ∃ s' ys, aeExecTasks E heap fuel li s = some s' ∧ s'.timers.Holds ys ∧
      s'.calls = s.calls ++ tasks.map AeCall.task := by
  induction tasks generalizing li s xs fuel with
  | nil =>
    obtain ⟨fuel, rfl⟩ := Nat.exists_eq_succ_of_ne_zero (Nat.ne_zero_of_lt hfuel)
    refine ⟨s, xs, ?_, h, (List.append_nil _).symm⟩
    rw [aeExecTasks, ha.listNext_nil]
    rfl
  | cons t tasks ih =>
    obtain ⟨fuel, rfl⟩ := Nat.exists_eq_succ_of_ne_zero (Nat.ne_zero_of_lt hfuel)
    obtain ⟨li', ln, c, hnext, hcell, rfl, ha'⟩ := ha.listNext_cons
    obtain ⟨s₁, ys₁, hcall, hholds₁, hcalls₁⟩ := AeState.call_spec h (.task c.value) (E.exec c.value)
    obtain ⟨s', ys, hexec, hholds, hcalls⟩ := ih ha' hholds₁ (Nat.lt_of_succ_lt_succ hfuel)
    refine ⟨s', ys, ?_, hholds, ?_⟩
    · rw [aeExecTasks, hnext, Option.bind_some]
      show (heap.cells ln).bind _ = _
      rw [hcell, Option.bind_some, hcall]
      exact hexec
    · rw [hcalls, hcalls₁, List.append_assoc]
      rfl

theorem aeCallHook_spec (E : AeProcs W P F D H T Q) (hook : Option H) (h : s.timers.Holds xs) :
    ∃ s' ys, aeCallHook E hook s = some s' ∧ s'.timers.Holds ys ∧
      s'.calls = s.calls ++ hook.toList.map AeCall.hook := by
  cases hook with
  | none => exact ⟨s, xs, rfl, h, (List.append_nil _).symm⟩
  | some proc => exact AeState.call_spec h (.hook proc) (E.hook proc)

/-- The hook is called, and then every task, in order. -/
theorem aeDoSleep_spec (E : AeProcs W P F D H T Q) {heap : Heap T} {l : LList} {nodes : List (ℕ × T)}
    (hl : l.Holds heap nodes) (hook : Option H) (h : s.timers.Holds xs) :
    ∃ s' ys, aeDoSleep E heap hook l s = some s' ∧ s'.timers.Holds ys ∧
      s'.calls = s.calls ++ sleepCalls hook (nodes.map Prod.snd) := by
  obtain ⟨s₁, ys₁, hhook, hholds₁, hcalls₁⟩ := aeCallHook_spec E hook h
  rw [aeDoSleep, hhook]
  simp only [Option.bind_eq_bind, Option.bind_some]
  by_cases hlen : 0 < l.len
  · have hfuel : (nodes.map Prod.snd).length < heap.brk + 1 := by
      rw [List.length_map]
      exact Nat.lt_succ_of_le hl.length_le
    obtain ⟨s', ys, hexec, hholds, hcalls⟩ :=
      aeExecTasks_spec E (hl.wellFormed.ahead .startHead) hholds₁ hfuel
    refine ⟨s', ys, by rw [callIf, if_pos hlen]; exact hexec, hholds, ?_⟩
    rw [hcalls, hcalls₁, List.append_assoc]
    rfl
  · have hnodes : nodes = [] := by
      rw [hl.len] at hlen
      exact List.length_eq_zero_iff.mp (Nat.eq_zero_of_not_pos hlen)
    refine ⟨s₁, ys₁, if_neg hlen, hholds₁, ?_⟩
    rw [hcalls₁, hnodes, sleepCalls]
    simp

/-- The walk along the list finds the earliest of all times. -/
theorem earliestTimerLoop_spec {heap : Heap (AeTimeEvent P F D)} {p : Option ℕ} (hs : Seg heap p xs none)
    {fuel : ℕ} (hfuel : xs.length < fuel) (earliest : Option UInt64) :
    earliestTimerLoop heap fuel (first xs none) earliest =
      some (xs.foldl (fun e x ↦ earlierTimer e x.2.when) earliest) := by
  induction xs generalizing p fuel earliest with
  | nil =>
    obtain ⟨fuel, rfl⟩ := Nat.exists_eq_succ_of_ne_zero (Nat.ne_zero_of_lt hfuel)
    rfl
  | cons x xs ih =>
    obtain ⟨fuel, rfl⟩ := Nat.exists_eq_succ_of_ne_zero (Nat.ne_zero_of_lt hfuel)
    rw [first, earliestTimerLoop, hs.1, Option.bind_some]
    exact ih hs.2 (Nat.lt_of_succ_lt_succ hfuel) _

theorem usUntilEarliestTimer_isSome {timers : AeTimers P F D} (h : timers.Holds xs) (now : UInt64) :
    ∃ us, usUntilEarliestTimer timers now = some us := by
  have hhead : timers.timeEventHead = first xs none := h.list.head
  rw [usUntilEarliestTimer, hhead,
    earliestTimerLoop_spec h.list.seg (Nat.lt_succ_of_le h.list.length_le) none]
  exact ⟨_, rfl⟩

variable {loop : AeSleep H T} {nodes : List (ℕ × T)} {flags : UInt32}

/-- What is called after the poll. -/
def afterSleepCalls (loop : AeSleep H T) (tasks : List T) : List (AeCall D H T Q) :=
  if loop.aftersleep.isSome then sleepCalls loop.beforesleep tasks else []

/-- **Around the poll.** A call that runs what is registered for the sleep does so before and after the
poll. -/
theorem aePoll_spec (E : AeProcs W P F D H T Q) (hl : loop.beforesleeps.Holds loop.heap nodes)
    (h : s.timers.Holds xs) (hbefore : flags &&& aeCallBeforeSleep ≠ 0)
    (hafter : flags &&& aeCallAfterSleep ≠ 0) :
    ∃ s' fired tvp ys, aePoll E loop flags s = some (s', fired) ∧ s'.timers.Holds ys ∧
      s'.calls = s.calls ++ (.apiBeforeSleep :: sleepCalls loop.beforesleep (nodes.map Prod.snd) ++
        .poll tvp :: afterSleepCalls loop (nodes.map Prod.snd)) := by
  obtain ⟨us, hus⟩ : ∃ us, aeUsUntilTimer E flags s = some us := by
    rw [aeUsUntilTimer]
    split_ifs
    · exact usUntilEarliestTimer_isSome h _
    · exact ⟨-1, rfl⟩
  obtain ⟨s₁, ys₁, hsleep₁, hholds₁, hcalls₁⟩ := aeDoSleep_spec E hl loop.beforesleep
    (s := ⟨E.apiBeforeSleep s.world, s.timers, s.calls ++ [.apiBeforeSleep]⟩) h
  set tvp := aeTimeout us flags loop.flags with htvp
  set polled := E.apiPoll tvp s₁.world with hpolled
  set s₂ : AeState W P F D H T Q := ⟨polled.1, s₁.timers, s₁.calls ++ [.poll tvp]⟩ with hs₂
  obtain ⟨s₃, ys₃, hsleep₃, hholds₃, hcalls₃⟩ : ∃ s₃ ys₃,
      callIf (loop.aftersleep.isSome ∧ flags &&& aeCallAfterSleep ≠ 0) (aeDoAfterSleep E loop) s₂ = some s₃ ∧
        s₃.timers.Holds ys₃ ∧ s₃.calls = s₂.calls ++ afterSleepCalls loop (nodes.map Prod.snd) := by
    rw [callIf]
    by_cases hsome : loop.aftersleep.isSome
    · rw [if_pos ⟨hsome, hafter⟩, afterSleepCalls, if_pos hsome]
      exact aeDoSleep_spec E hl loop.beforesleep hholds₁
    · rw [if_neg fun hboth ↦ hsome hboth.1, afterSleepCalls, if_neg hsome]
      exact ⟨s₂, ys₁, rfl, hholds₁, (List.append_nil _).symm⟩
  refine ⟨s₃, polled.2, tvp, ys₃, ?_, hholds₃, ?_⟩
  · rw [aePoll, hus]
    simp only [Option.bind_eq_bind, Option.bind_some]
    rw [callIf, if_pos hbefore, aeDoBeforeSleep, hsleep₁, Option.bind_some]
    show (callIf _ (aeDoAfterSleep E loop) s₂).bind _ = _
    rw [hsleep₃]
    rfl
  · rw [hcalls₃, hs₂, hcalls₁]
    simp

end Sleeping

/-! ## Behind the poll -/

/-- From `s` to `s'` only procedures of descriptors were called. -/
def FileProcsSince (s s' : AeState W P F D H T Q) : Prop :=
  ∃ more, s'.calls = s.calls ++ more ∧ ∀ c ∈ more, c.isFileProc = true

namespace FileProcsSince

variable {s s₁ s₂ : AeState W P F D H T Q}

theorem refl (s : AeState W P F D H T Q) : FileProcsSince s s := ⟨[], (List.append_nil _).symm, by simp⟩

theorem trans (h₁ : FileProcsSince s s₁) (h₂ : FileProcsSince s₁ s₂) : FileProcsSince s s₂ := by
  obtain ⟨more₁, hcalls₁, hall₁⟩ := h₁
  obtain ⟨more₂, hcalls₂, hall₂⟩ := h₂
  refine ⟨more₁ ++ more₂, by rw [hcalls₂, hcalls₁, List.append_assoc], ?_⟩
  exact List.forall_mem_append.mpr ⟨hall₁, hall₂⟩

theorem aeFileProc {E : AeProcs W P F D H T Q} {proc : Option Q} {fd : ℕ} {clientData : Option D} {mask : UInt32}
    (hcall : aeFileProc E proc fd clientData mask s = some s₁) : FileProcsSince s s₁ := by
  obtain ⟨proc, -, hcall⟩ := Option.bind_eq_some_iff.mp hcall
  obtain ⟨r, -, rfl⟩ := Option.map_eq_some_iff.mp hcall
  exact ⟨[_], rfl, by simp [AeCall.isFileProc]⟩

/-- A step that is made or not. -/
theorem callIf {p : Prop} [Decidable p] {f : AeState W P F D H T Q → Option (AeState W P F D H T Q)}
    (hf : ∀ s₁, f s = some s₁ → FileProcsSince s s₁) (hcall : LatteC.callIf p f s = some s₁) :
    FileProcsSince s s₁ := by
  rw [LatteC.callIf] at hcall
  split_ifs at hcall
  · exact hf s₁ hcall
  · rw [← Option.some.inj hcall]
    exact FileProcsSince.refl s

variable [DecidableEq Q] {E : AeProcs W P F D H T Q}

theorem aeReadInverted {fd : ℕ} {mask : UInt32} {called : Prop} [Decidable called]
    (hcall : aeReadInverted E fd mask called s = some s₁) : FileProcsSince s s₁ := by
  obtain ⟨fe, -, hcall⟩ := Option.bind_eq_some_iff.mp hcall
  exact FileProcsSince.callIf (fun _ ↦ FileProcsSince.aeFileProc) hcall

theorem aeFileEventFired {fd : ℕ} {mask : UInt32} (hfired : aeFileEventFired E fd mask s = some s₁) :
    FileProcsSince s s₁ := by
  obtain ⟨fe, -, hfired⟩ := Option.bind_eq_some_iff.mp hfired
  obtain ⟨sr, hread, hfired⟩ := Option.bind_eq_some_iff.mp hfired
  obtain ⟨fe', -, hfired⟩ := Option.bind_eq_some_iff.mp hfired
  obtain ⟨sw, hwrite, hfired⟩ := Option.bind_eq_some_iff.mp hfired
  have hr : FileProcsSince s sr := FileProcsSince.callIf (fun _ ↦ FileProcsSince.aeFileProc) hread
  have hw : FileProcsSince sr sw := FileProcsSince.callIf (fun _ ↦ FileProcsSince.aeFileProc) hwrite
  exact hr.trans (hw.trans (FileProcsSince.callIf (fun _ ↦ FileProcsSince.aeReadInverted) hfired))

theorem foldlM {fired : List (ℕ × UInt32)}
    (hfired : fired.foldlM (fun s f ↦ LatteC.aeFileEventFired E f.1 f.2 s) s = some s₁) :
    FileProcsSince s s₁ := by
  induction fired generalizing s with
  | nil =>
    rw [← Option.some.inj hfired]
    exact FileProcsSince.refl s
  | cons f fired ih =>
    rw [List.foldlM_cons] at hfired
    obtain ⟨s₂, hone, hrest⟩ := Option.bind_eq_some_iff.mp hfired
    exact (FileProcsSince.aeFileEventFired hone).trans (ih hrest)

end FileProcsSince

/-! ## What is registered -/

/-- The tasks that are registered, each with its node. -/
structure AeSleep.Holds (loop : AeSleep H T) (xs ys : List (ℕ × T)) : Prop where
  before : loop.beforesleeps.Holds loop.heap xs
  after : loop.aftersleeps.Holds loop.heap ys
  disjoint : ∀ x ∈ xs, ∀ y ∈ ys, x.1 ≠ y.1

theorem holds_aeSleepNew : (aeSleepNew : AeSleep H T).Holds [] [] :=
  ⟨holds_listNew _, holds_listNew _, by simp⟩

/-- A task more at the end of one list leaves another list alone. -/
theorem LList.Holds.listAddNodeTail_frame {α : Type} {h : Heap α} {l o : LList} {xs ys : List (ℕ × α)}
    (hl : l.Holds h xs) (ho : o.Holds h ys) (hdisj : ∀ x ∈ xs, ∀ y ∈ ys, x.1 ≠ y.1) (value : α) :
    ∃ h' l', LatteC.listAddNodeTail h l value = some (h', l') ∧ l'.Holds h' (xs ++ [(h.brk, value)]) ∧
      o.Holds h' ys ∧ ∀ x ∈ xs ++ [(h.brk, value)], ∀ y ∈ ys, x.1 ≠ y.1 := by
  obtain ⟨h', l', hadd, hl', hframe⟩ := hl.listAddNodeTail value
  refine ⟨h', l', hadd, hl', ho.of_frame hframe fun y hy hmem ↦ ?_, fun x hx y hy ↦ ?_⟩
  · obtain ⟨x, hx, hxy⟩ := List.mem_map.mp hmem
    exact hdisj x hx y hy hxy
  · obtain hx | hx := List.mem_append.mp hx
    · exact hdisj x hx y hy
    · rw [List.mem_singleton.mp hx]
      exact (ho.ne_brk y hy).symm

namespace AeSleep.Holds

variable {loop : AeSleep H T} {xs ys : List (ℕ × T)}

/-- A call registers its task at the end. -/
theorem apply (h : loop.Holds xs ys) (call : AeSleepCall H T) :
    ∃ loop' xs' ys', call.apply loop = some loop' ∧ loop'.Holds xs' ys' ∧
      xs'.map Prod.snd = xs.map Prod.snd ++ beforeTasks [call] ∧
      ys'.map Prod.snd = ys.map Prod.snd ++ afterTasks [call] := by
  cases call with
  | setBeforeSleepProc proc =>
    exact ⟨_, xs, ys, rfl, ⟨h.before, h.after, h.disjoint⟩, (List.append_nil _).symm, (List.append_nil _).symm⟩
  | setAfterSleepProc proc =>
    exact ⟨_, xs, ys, rfl, ⟨h.before, h.after, h.disjoint⟩, (List.append_nil _).symm, (List.append_nil _).symm⟩
  | addBeforeSleepTask task =>
    obtain ⟨heap, l, hadd, hl, ho, hdisj⟩ := h.before.listAddNodeTail_frame h.after h.disjoint task
    refine ⟨{ loop with heap := heap, beforesleeps := l }, _, ys, ?_, ⟨hl, ho, hdisj⟩, List.map_append,
      (List.append_nil _).symm⟩
    rw [AeSleepCall.apply, aeAddBeforeSleepTask, hadd]
    rfl
  | addAfterSleepTask task =>
    obtain ⟨heap, l, hadd, hl, ho, hdisj⟩ :=
      h.after.listAddNodeTail_frame h.before (fun y hy x hx ↦ (h.disjoint x hx y hy).symm) task
    refine ⟨{ loop with heap := heap, aftersleeps := l }, xs, _, ?_,
      ⟨ho, hl, fun x hx y hy ↦ (hdisj y hy x hx).symm⟩, (List.append_nil _).symm, List.map_append⟩
    rw [AeSleepCall.apply, aeAddAfterSleepTask, hadd]
    rfl
  | setDontWait noWait =>
    refine ⟨_, xs, ys, rfl, ?_, (List.append_nil _).symm, (List.append_nil _).symm⟩
    cases noWait with
    | false => exact ⟨h.before, h.after, h.disjoint⟩
    | true => exact ⟨h.before, h.after, h.disjoint⟩

/-- The lists hold the tasks in the order of registration. -/
theorem run (h : loop.Holds xs ys) (calls : List (AeSleepCall H T)) :
    ∃ loop' xs' ys', aeSleepRun loop calls = some loop' ∧ loop'.Holds xs' ys' ∧
      xs'.map Prod.snd = xs.map Prod.snd ++ beforeTasks calls ∧
      ys'.map Prod.snd = ys.map Prod.snd ++ afterTasks calls := by
  induction calls generalizing loop xs ys with
  | nil => exact ⟨loop, xs, ys, rfl, h, (List.append_nil _).symm, (List.append_nil _).symm⟩
  | cons call calls ih =>
    obtain ⟨loop₁, xs₁, ys₁, happly, h₁, hxs₁, hys₁⟩ := h.apply call
    obtain ⟨loop', xs', ys', hrun, h', hxs, hys⟩ := ih h₁
    refine ⟨loop', xs', ys', ?_, h', ?_, ?_⟩
    · rw [aeSleepRun, List.foldlM_cons, happly]
      exact hrun
    · rw [hxs, hxs₁, List.append_assoc, beforeTasks, beforeTasks, ← List.filterMap_append]
      rfl
    · rw [hys, hys₁, List.append_assoc, afterTasks, afterTasks, ← List.filterMap_append]
      rfl

end AeSleep.Holds

/-! ## The law of the sleep -/

/-- The before-sleep tasks are run once each, in order, before the poll, and the after-sleep tasks after it and
before any procedure of a descriptor. -/
def AeSleepLaw (calls : List (AeCall D H T Q)) (befores afters : List T) : Prop :=
  ∃ pre tvp post rest, calls = pre ++ .poll tvp :: (post ++ rest) ∧
    pre.filterMap AeCall.toTask = befores ∧ post.filterMap AeCall.toTask = afters ∧
    (∀ c ∈ pre ++ post, c.isFileProc = false) ∧ rest.filterMap AeCall.toTask = []

/-- Procedures of descriptors are no tasks. -/
theorem filterMap_toTask_of_isFileProc {calls : List (AeCall D H T Q)} (h : ∀ c ∈ calls, c.isFileProc = true) :
    calls.filterMap AeCall.toTask = [] := by
  rw [List.filterMap_eq_nil_iff]
  intro c hc
  have hfile := h c hc
  cases c with
  | fileProc => rfl
  | _ => cases hfile

section Turn

variable [DecidableEq Q] {E : AeProcs W P F D H T Q} {loop : AeSleep H T} {flags : UInt32}
  {s s₁ : AeState W P F D H T Q} {fired : List (ℕ × UInt32)} {r : AeState W P F D H T Q × Int32}

theorem calls_aePollEvents (hpoll : aePoll E loop flags s = some (s₁, fired))
    (hevents : aePollEvents E loop flags s = some r) :
    ∃ files, r.1.calls = s₁.calls ++ (files ++ [.apiAfterSleep]) ∧ ∀ c ∈ files, c.isFileProc = true := by
  rw [aePollEvents, hpoll] at hevents
  simp only [Option.bind_eq_bind, Option.bind_some] at hevents
  obtain ⟨s₂, hfiles, hevents⟩ := Option.bind_eq_some_iff.mp hevents
  obtain ⟨files, hcalls, hall⟩ := FileProcsSince.foldlM hfiles
  refine ⟨files, ?_, hall⟩
  rw [← Option.some.inj hevents, ← List.append_assoc, ← hcalls]

omit [DecidableEq Q] in
theorem calls_aeTimerPass {r₁ : AeState W P F D H T Q × Int32} (hpass : aeTimerPass E flags r₁ = some r) :
    ∃ pass, r.1.calls = r₁.1.calls ++ pass ∧ pass.filterMap AeCall.toTask = [] := by
  rw [aeTimerPass, callIf] at hpass
  split_ifs at hpass
  · obtain ⟨pass, -, hr⟩ := Option.map_eq_some_iff.mp hpass
    exact ⟨[.timeEvents], by rw [← hr], rfl⟩
  · exact ⟨[], by rw [← Option.some.inj hpass, List.append_nil], rfl⟩

/-- Behind the poll and what follows it no tasks are run. -/
theorem calls_aeProcessEvents (hflags : flags &&& aeTimeEvents ≠ 0 ∨ flags &&& aeFileEvents ≠ 0)
    (hpolls : (E.files s.world).maxfd ≠ -1 ∨ flags &&& aeTimeEvents ≠ 0 ∧ flags &&& aeDontWait = 0)
    (hpoll : aePoll E loop flags s = some (s₁, fired)) (hrun : aeProcessEvents E loop flags s = some r) :
    ∃ rest, r.1.calls = s₁.calls ++ rest ∧ rest.filterMap AeCall.toTask = [] := by
  rw [aeProcessEvents, if_neg fun hnone ↦ hflags.elim hnone.1 hnone.2, if_pos hpolls] at hrun
  obtain ⟨r₁, hevents, hpass⟩ := Option.bind_eq_some_iff.mp hrun
  obtain ⟨files, hcalls₁, hfiles⟩ := calls_aePollEvents hpoll hevents
  obtain ⟨pass, hcalls, htasks⟩ := calls_aeTimerPass hpass
  refine ⟨files ++ [.apiAfterSleep] ++ pass, by rw [hcalls, hcalls₁, List.append_assoc], ?_⟩
  rw [List.filterMap_append, List.filterMap_append, htasks, filterMap_toTask_of_isFileProc hfiles]
  rfl

end Turn

theorem filterMap_toTask_afterSleepCalls (loop : AeSleep H T) (tasks : List T) :
    (afterSleepCalls loop tasks : List (AeCall D H T Q)).filterMap AeCall.toTask =
      if loop.aftersleep.isSome then tasks else [] := by
  rw [afterSleepCalls]
  split_ifs
  · exact filterMap_toTask_sleepCalls loop.beforesleep tasks
  · rfl

theorem isFileProc_afterSleepCalls {loop : AeSleep H T} {tasks : List T} {c : AeCall D H T Q}
    (hc : c ∈ afterSleepCalls loop tasks) : c.isFileProc = false := by
  rw [afterSleepCalls] at hc
  split_ifs at hc
  · exact isFileProc_sleepCalls hc
  · cases hc

/-- A record of that form obeys the law exactly if what was run after the poll are the after-sleep tasks. -/
theorem aeSleepLaw_iff {pre post rest : List (AeCall D H T Q)} {tvp : Option (Int64 × Int64)} {befores : List T}
    (hpre : pre.filterMap AeCall.toTask = befores) (hfile : ∀ c ∈ pre ++ post, c.isFileProc = false)
    (hrest : rest.filterMap AeCall.toTask = []) (afters : List T) :
    AeSleepLaw (pre ++ .poll tvp :: (post ++ rest)) befores afters ↔
      afters = post.filterMap AeCall.toTask := by
  constructor
  · rintro ⟨pre', tvp', post', rest', hcalls, hpre', hpost', -, hrest'⟩
    -- both cuts have the same tasks in all
    have htasks := congrArg (List.filterMap AeCall.toTask) hcalls
    simp only [List.filterMap_append, List.filterMap_cons, AeCall.toTask, hpre, hpre', hpost', hrest, hrest',
      List.append_nil] at htasks
    exact (List.append_cancel_left htasks).symm
  · rintro rfl
    exact ⟨pre, tvp, post, rest, rfl, hpre, rfl, hfile, hrest⟩

/-- **The sleep.** Of a turn that polls, with both flags set: whatever is registered, it obeys the law if and
only if the after-sleep tasks are the ones that it runs in their place, which are the before-sleep tasks if an
after-sleep hook is set and none if not. -/
theorem aeProcessEvents_sleep [DecidableEq Q] (E : AeProcs W P F D H T Q)
    (registered : List (AeSleepCall H T)) {timers : AeTimers P F D} {xs : List (ℕ × AeTimeEvent P F D)}
    (h : timers.Holds xs) (w : W) {flags : UInt32}
    (hflags : flags &&& aeTimeEvents ≠ 0 ∨ flags &&& aeFileEvents ≠ 0)
    (hpolls : (E.files w).maxfd ≠ -1 ∨ flags &&& aeTimeEvents ≠ 0 ∧ flags &&& aeDontWait = 0)
    (hbefore : flags &&& aeCallBeforeSleep ≠ 0) (hafter : flags &&& aeCallAfterSleep ≠ 0) :
    ∃ loop, aeSleepRun aeSleepNew registered = some loop ∧
      (∃ s fired, aePoll E loop flags ⟨w, timers, []⟩ = some (s, fired)) ∧
      ∀ r, aeProcessEvents E loop flags ⟨w, timers, []⟩ = some r →
        (AeSleepLaw r.1.calls (beforeTasks registered) (afterTasks registered) ↔
          afterTasks registered = if loop.aftersleep.isSome then beforeTasks registered else []) := by
  obtain ⟨loop, nodes, nodes', hrun, hloop, hnodes, -⟩ := holds_aeSleepNew.run registered
  obtain ⟨s, fired, tvp, ys, hpoll, -, hcalls⟩ :=
    aePoll_spec E hloop.before (s := ⟨w, timers, []⟩) h hbefore hafter
  refine ⟨loop, hrun, ⟨s, fired, hpoll⟩, fun r hr ↦ ?_⟩
  obtain ⟨rest, hcalls', hrest⟩ := calls_aeProcessEvents (s := ⟨w, timers, []⟩) hflags hpolls hpoll hr
  rw [List.map_nil, List.nil_append] at hnodes
  rw [List.nil_append, hnodes] at hcalls
  have hpre : (AeCall.apiBeforeSleep :: sleepCalls loop.beforesleep (beforeTasks registered) :
      List (AeCall D H T Q)).filterMap AeCall.toTask = beforeTasks registered :=
    filterMap_toTask_sleepCalls _ _
  have hfile : ∀ c ∈ AeCall.apiBeforeSleep :: sleepCalls loop.beforesleep (beforeTasks registered) ++
      afterSleepCalls loop (beforeTasks registered), (c : AeCall D H T Q).isFileProc = false := by
    intro c hc
    rw [List.cons_append, List.mem_cons, List.mem_append] at hc
    obtain rfl | hc | hc := hc
    · rfl
    · exact isFileProc_sleepCalls hc
    · exact isFileProc_afterSleepCalls hc
  rw [hcalls', hcalls, List.append_assoc, ← filterMap_toTask_afterSleepCalls loop]
  exact aeSleepLaw_iff hpre hfile hrest _

/-- No file events, and nothing called does anything. -/
def idleProcs : AeProcs Unit Unit Unit Unit ℕ ℕ ℕ where
  getMonotonicUs := fun _ ↦ 0
  timeProc := fun _ _ _ _ ↦ .done () 0
  finalizerProc := fun _ _ _ ↦ .done () ()
  files := fun _ ↦ ⟨-1, 0, []⟩
  apiBeforeSleep := id
  apiPoll := fun _ _ ↦ ((), [])
  apiAfterSleep := id
  hook := fun _ _ ↦ .done () ()
  exec := fun _ _ ↦ .done () ()
  fileProc := fun _ _ _ _ _ ↦ .done () ()

theorem aeProcessEvents_sleep_idle :
    ∃ loop, aeSleepRun aeSleepNew [.addBeforeSleepTask 1, .addBeforeSleepTask 2] = some loop ∧
      (∃ s fired, aePoll idleProcs loop 27 ⟨(), aeTimersNew Heap.empty, []⟩ = some (s, fired)) ∧
      ∀ r, aeProcessEvents idleProcs loop 27 ⟨(), aeTimersNew Heap.empty, []⟩ = some r →
        AeSleepLaw r.1.calls [1, 2] [] := by
  have hsleep : ∃ loop, aeSleepRun aeSleepNew [.addBeforeSleepTask 1, .addBeforeSleepTask 2] = some loop ∧
      (∃ s fired, aePoll idleProcs loop 27 ⟨(), aeTimersNew Heap.empty, []⟩ = some (s, fired)) ∧
      ∀ r, aeProcessEvents idleProcs loop 27 ⟨(), aeTimersNew Heap.empty, []⟩ = some r →
        (AeSleepLaw r.1.calls [1, 2] [] ↔ [] = if loop.aftersleep.isSome then [1, 2] else []) :=
    aeProcessEvents_sleep idleProcs [.addBeforeSleepTask 1, .addBeforeSleepTask 2]
      (holds_aeTimersNew Heap.empty) () (by decide) (by decide) (by decide) (by decide)
  obtain ⟨loop, hrun, hpoll, hlaw⟩ := hsleep
  have hnone : ((aeSleepRun aeSleepNew [.addBeforeSleepTask 1, .addBeforeSleepTask 2] :
      Option (AeSleep ℕ ℕ)).map AeSleep.aftersleep) = some none := rfl
  rw [hrun] at hnone
  refine ⟨loop, hrun, hpoll, fun r hr ↦ (hlaw r hr).mpr ?_⟩
  rw [Option.some.inj hnone]
  rfl

/-- A turn with an after-sleep hook and an after-sleep task, and the task is not run. -/
theorem not_aeProcessEvents_sleep :
    ∃ loop r, aeSleepRun aeSleepNew [.setAfterSleepProc (some 0), .addAfterSleepTask 1] = some loop ∧
      aeProcessEvents idleProcs loop 27 ⟨(), aeTimersNew Heap.empty, []⟩ = some r ∧
      ¬AeSleepLaw r.1.calls [] [1] := by
  refine ⟨_, _, rfl, rfl, ?_⟩
  have hpre : ([.apiBeforeSleep] : List (AeCall Unit ℕ ℕ ℕ)).filterMap AeCall.toTask = [] := rfl
  have hfile : ∀ c ∈ ([.apiBeforeSleep] ++ [] : List (AeCall Unit ℕ ℕ ℕ)), c.isFileProc = false := by
    simp [AeCall.isFileProc]
  have hrest : ([.apiAfterSleep, .timeEvents] : List (AeCall Unit ℕ ℕ ℕ)).filterMap AeCall.toTask = [] := rfl
  exact fun hlaw ↦ List.cons_ne_nil 1 [] ((aeSleepLaw_iff hpre hfile hrest [1]).mp hlaw)

end LatteC
