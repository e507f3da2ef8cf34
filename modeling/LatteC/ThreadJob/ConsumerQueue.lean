import LatteC.Foundation.CallMachine
import LatteC.Foundation.Ring

/-!
# The job queue of a consumer thread

`src/thread_job/thread_consumer_job.c`: the main thread pushes jobs into a ring buffer, and a consumer
thread takes them out. The two threads share the buffer and the indices `head` and `tail`.

## Modelling

A step of the system is one call of the producer or one call of the consumer, in any order
(`jobStep`); each call is atomic, and what it writes is seen by the next one. The consumer is the loop of
`thread_consumer_main`: it asks how many jobs there are, and then peeks at, runs and removes that many,
while the producer goes on. Of a job the fields `run`, `argc` and `args` are modelled; `result` and
`error` of a slot are never written. The assertions on which thread makes a call are met by the shape of
the system; every other assertion that fails is a fault, `none`.

## The argument

The buffer holds a queue in the sense of `Ring.Holds`. The consumer's batch is never longer than the
queue, since only the consumer itself makes the queue shorter (`JobSystem.Holds`). One lemma for each
side says what a step does to the queue; the statement about runs adds up what was pushed and what
was seen.
-/

namespace LatteC

/-- `latte_job_t`. A `run` that is `none` is `NULL`. -/
structure LatteJob (R A : Type) where
  run : Option R
  argc : ℤ
  args : Option A
deriving DecidableEq

/-- `latte_job_consumer_queue_t`. -/
structure LatteJobConsumerQueue (R A : Type) where
  ringBuffer : List (LatteJob R A)
  size : ℕ
  head : ℕ
  tail : ℕ
deriving DecidableEq

variable {R A : Type}

/-- `latte_job_consumer_queue_new`. -/
def latteJobConsumerQueueNew (size : ℕ) : LatteJobConsumerQueue R A where
  ringBuffer := List.replicate size ⟨none, 0, none⟩
  size := size
  head := 0
  tail := 0

section Operations

variable (queue : LatteJobConsumerQueue R A)

/-- `latte_job_consumer_queue_is_full`. -/
def latteJobConsumerQueueIsFull : Bool :=
  let nextHead := (queue.head + 1) % queue.size
  nextHead = queue.tail

/-- `latte_job_consumer_queue_push`. -/
def latteJobConsumerQueuePush (job : LatteJob R A) : Option (LatteJobConsumerQueue R A) :=
  if latteJobConsumerQueueIsFull queue then none
  else
    let nextHead := (queue.head + 1) % queue.size
    some { queue with ringBuffer := queue.ringBuffer.set queue.head job, head := nextHead }

/-- `latte_job_consumer_queue_available`. -/
def latteJobConsumerQueueAvailable : ℕ :=
  if queue.tail ≤ queue.head then queue.head - queue.tail
  else queue.size - (queue.tail - queue.head)

/-- `latte_job_consumer_queue_remove`. -/
def latteJobConsumerQueueRemove : Option (LatteJobConsumerQueue R A) :=
  (queue.ringBuffer[queue.tail]?).bind fun slot ↦
    if slot.run.isNone then none
    else some { queue with
      ringBuffer := queue.ringBuffer.set queue.tail ⟨none, 0, none⟩
      tail := (queue.tail + 1) % queue.size }

/-- `latte_job_consumer_queue_peek`. -/
def latteJobConsumerQueuePeek : Option (LatteJob R A) :=
  (queue.ringBuffer[queue.tail]?).bind fun slot ↦ if slot.run.isNone then none else some slot

end Operations

/-- Where the consumer is in `thread_consumer_main`. -/
inductive JobConsumerPc (R A : Type) where
  /-- Before it asks for the number of jobs. -/
  | polling
  /-- Before a peek, with `left` jobs of the batch to go. -/
  | peeking (left : ℕ)
  /-- It has peeked at `job`, runs it and is going to remove it. -/
  | running (left : ℕ) (job : LatteJob R A)
deriving DecidableEq

/-- The queue and the consumer of it. -/
structure JobSystem (R A : Type) where
  queue : LatteJobConsumerQueue R A
  pc : JobConsumerPc R A
deriving DecidableEq

def jobSystemNew (size : ℕ) : JobSystem R A := ⟨latteJobConsumerQueueNew size, .polling⟩

/-- Whose turn it is. -/
inductive JobTurn (R A : Type) where
  | producer (job : LatteJob R A)
  | consumer

/-- What a step has done. -/
inductive JobEvent (R A : Type) where
  | pushed
  | available (n : ℕ)
  | peeked (job : LatteJob R A)
  | removed (job : LatteJob R A)
deriving DecidableEq

/-- The next call of `thread_consumer_main`. -/
def consumerStep (s : JobSystem R A) : Option (JobSystem R A × JobEvent R A) :=
  match s.pc with
  | .polling =>
    let jobsToProcess := latteJobConsumerQueueAvailable s.queue
    some ({ s with pc := if jobsToProcess = 0 then .polling else .peeking jobsToProcess },
      .available jobsToProcess)
  | .peeking left => (latteJobConsumerQueuePeek s.queue).map fun job ↦
      ({ s with pc := .running left job }, .peeked job)
  | .running left job => (latteJobConsumerQueueRemove s.queue).map fun queue ↦
      (⟨queue, if left - 1 = 0 then .polling else .peeking (left - 1)⟩, .removed job)

/-- One step of the system. -/
def jobStep (s : JobSystem R A) : JobTurn R A → Option (JobSystem R A × JobEvent R A)
  | .producer job => (latteJobConsumerQueuePush s.queue job).map fun queue ↦
      ({ s with queue := queue }, .pushed)
  | .consumer => consumerStep s

/-- The producer pushes a job only if the queue is not full, and the job has a function to run. -/
def JobPushAllowed (s : JobSystem R A) : JobTurn R A → Prop
  | .producer job => latteJobConsumerQueueIsFull s.queue = false ∧ job.run.isSome
  | .consumer => True

instance (s : JobSystem R A) : DecidablePred (JobPushAllowed s)
  | .producer job =>
    inferInstanceAs (Decidable (latteJobConsumerQueueIsFull s.queue = false ∧ job.run.isSome))
  | .consumer => isTrue trivial

/-- The jobs pushed, in order. -/
def pushedJobs (turns : List (JobTurn R A)) : List (LatteJob R A) :=
  turns.filterMap fun | .producer job => some job | .consumer => none

/-- The jobs the consumer has seen, in order. -/
def peekedJobs (events : List (JobEvent R A)) : List (LatteJob R A) :=
  events.filterMap fun | .peeked job => some job | _ => none

/-- The jobs the consumer has taken out, in order. -/
def removedJobs (events : List (JobEvent R A)) : List (LatteJob R A) :=
  events.filterMap fun | .removed job => some job | _ => none

/-! ## The queue in the buffer -/

/-- The buffer holds the jobs `pending`. -/
structure LatteJobConsumerQueue.Holds (queue : LatteJobConsumerQueue R A)
    (pending : List (LatteJob R A)) : Prop where
  size_eq : queue.ringBuffer.length = queue.size
  ring : Ring.Holds queue.ringBuffer queue.tail pending
  head_eq : queue.head = Ring.head queue.ringBuffer queue.tail pending
  run_isSome : ∀ job ∈ pending, job.run.isSome

namespace LatteJobConsumerQueue.Holds

variable {queue : LatteJobConsumerQueue R A} {pending : List (LatteJob R A)} {job : LatteJob R A}

theorem new {size : ℕ} (hsize : 2 ≤ size) :
    (latteJobConsumerQueueNew size : LatteJobConsumerQueue R A).Holds [] := by
  refine ⟨List.length_replicate, Ring.holds_nil ?_, ?_, by simp⟩
  · rw [latteJobConsumerQueueNew, List.length_replicate]
    omega
  · simp [latteJobConsumerQueueNew, Ring.head]

theorem length_lt (h : queue.Holds pending) : pending.length < queue.size :=
  h.size_eq ▸ h.ring.length_lt

theorem available_eq (h : queue.Holds pending) :
    latteJobConsumerQueueAvailable queue = pending.length := by
  rw [latteJobConsumerQueueAvailable, h.head_eq, ← h.size_eq]
  exact h.ring.length_eq

theorem isFull_iff (h : queue.Holds pending) :
    latteJobConsumerQueueIsFull queue = true ↔ pending.length + 1 = queue.size := by
  rw [latteJobConsumerQueueIsFull, decide_eq_true_iff, h.head_eq, ← h.size_eq]
  exact h.ring.full_iff

theorem push (h : queue.Holds pending) (hfull : latteJobConsumerQueueIsFull queue = false)
    (hjob : job.run.isSome) :
    ∃ queue', latteJobConsumerQueuePush queue job = some queue' ∧ queue'.Holds (pending ++ [job]) ∧
      queue'.size = queue.size := by
  have hroom : pending.length + 1 < queue.ringBuffer.length := by
    have hne : pending.length + 1 ≠ queue.size := by
      rw [ne_eq, ← h.isFull_iff, hfull]
      exact Bool.false_ne_true
    have hlt := h.length_lt
    rw [h.size_eq]
    omega
  have hpush : latteJobConsumerQueuePush queue job = some { queue with
      ringBuffer := queue.ringBuffer.set queue.head job, head := (queue.head + 1) % queue.size } := by
    rw [latteJobConsumerQueuePush, hfull, if_neg Bool.false_ne_true]
  refine ⟨_, hpush, ⟨by simp [h.size_eq], ?_, ?_, ?_⟩, rfl⟩
  · simp only [h.head_eq]
    exact h.ring.push hroom job
  · simp only [h.head_eq, ← h.size_eq, Ring.head_push]
  · intro j hj
    rcases List.mem_append.mp hj with hj | hj
    · exact h.run_isSome j hj
    · rwa [List.mem_singleton.mp hj]

theorem peek (h : queue.Holds (job :: pending)) : latteJobConsumerQueuePeek queue = some job := by
  have hrun : job.run.isNone = false := by
    rw [Option.isNone_eq_false_iff]
    exact h.run_isSome job (by simp)
  rw [latteJobConsumerQueuePeek, h.ring.getElem?_tail, Option.bind_some, hrun,
    if_neg Bool.false_ne_true]

theorem remove (h : queue.Holds (job :: pending)) :
    ∃ queue', latteJobConsumerQueueRemove queue = some queue' ∧ queue'.Holds pending ∧
      queue'.size = queue.size := by
  have hrun : job.run.isNone = false := by
    rw [Option.isNone_eq_false_iff]
    exact h.run_isSome job (by simp)
  have hremove : latteJobConsumerQueueRemove queue = some { queue with
      ringBuffer := queue.ringBuffer.set queue.tail ⟨none, 0, none⟩
      tail := (queue.tail + 1) % queue.size } := by
    rw [latteJobConsumerQueueRemove, h.ring.getElem?_tail, Option.bind_some, hrun,
      if_neg Bool.false_ne_true]
  refine ⟨_, hremove, ⟨by simp [h.size_eq], ?_, ?_, fun j hj ↦ h.run_isSome j (by simp [hj])⟩, rfl⟩
  · simp only [← h.size_eq]
    exact h.ring.pop _
  · simp only [h.head_eq, ← h.size_eq, Ring.head_pop (x := job)]

end LatteJobConsumerQueue.Holds

/-! ## The system -/

/-- The consumer's batch is not longer than the queue; a job it is running is the oldest one. -/
def JobConsumerPc.Fits (pending : List (LatteJob R A)) : JobConsumerPc R A → Prop
  | .polling => True
  | .peeking left => 0 < left ∧ left ≤ pending.length
  | .running left job => 0 < left ∧ left ≤ pending.length ∧ pending.head? = some job

theorem JobConsumerPc.Fits.append {pending : List (LatteJob R A)} {pc : JobConsumerPc R A}
    (h : pc.Fits pending) (job : LatteJob R A) : pc.Fits (pending ++ [job]) := by
  have hlen : pending.length ≤ (pending ++ [job]).length := by simp
  cases pc with
  | polling => trivial
  | peeking left => exact ⟨h.1, h.2.trans hlen⟩
  | running left j => exact ⟨h.1, h.2.1.trans hlen, by rw [List.head?_append, h.2.2, Option.some_or]⟩

/-- After a job of the batch is done. -/
theorem JobConsumerPc.fits_next {left : ℕ} {pending : List (LatteJob R A)}
    (h : left ≤ pending.length) :
    (if left = 0 then .polling else .peeking left : JobConsumerPc R A).Fits pending := by
  split_ifs with hzero
  · trivial
  · exact ⟨Nat.pos_of_ne_zero hzero, h⟩

/-- The queue holds `pending`, and the consumer's batch fits. -/
structure JobSystem.Holds (s : JobSystem R A) (pending : List (LatteJob R A)) : Prop where
  queue : s.queue.Holds pending
  batch : s.pc.Fits pending

/-- The job the consumer has peeked at and not yet removed. -/
def JobConsumerPc.inHand : JobConsumerPc R A → List (LatteJob R A)
  | .running _ job => [job]
  | _ => []

theorem JobConsumerPc.inHand_next (left : ℕ) :
    (if left = 0 then .polling else .peeking left : JobConsumerPc R A).inHand = [] := by
  split_ifs <;> rfl

/-- What a step does, in terms of the jobs that are pending before and after it: it takes some of them
out at the front and adds some at the end, and the consumer sees the jobs in this order. -/
structure JobStepEffect (s s' : JobSystem R A) (turn : JobTurn R A) (event : JobEvent R A)
    (pending pending' : List (LatteJob R A)) : Prop where
  holds : s'.Holds pending'
  size_eq : s'.queue.size = s.queue.size
  pending_eq : pending ++ pushedJobs [turn] = removedJobs [event] ++ pending'
  inHand_eq : s.pc.inHand ++ peekedJobs [event] = removedJobs [event] ++ s'.pc.inHand

section Steps

variable {queue : LatteJobConsumerQueue R A} {pending : List (LatteJob R A)} {job : LatteJob R A}

theorem jobStep_producer {s : JobSystem R A} (h : s.Holds pending)
    (hok : JobPushAllowed s (.producer job)) :
    ∃ s', jobStep s (.producer job) = some (s', .pushed) ∧
      JobStepEffect s s' (.producer job) .pushed pending (pending ++ [job]) := by
  obtain ⟨queue', hpush, hqueue, hsize⟩ := h.queue.push hok.1 hok.2
  exact ⟨⟨queue', s.pc⟩, by rw [jobStep, hpush, Option.map_some],
    ⟨hqueue, h.batch.append job⟩, hsize, rfl, List.append_nil _⟩

theorem jobStep_polling (h : queue.Holds pending) :
    ∃ s', jobStep ⟨queue, .polling⟩ .consumer = some (s', .available pending.length) ∧
      JobStepEffect ⟨queue, .polling⟩ s' .consumer (.available pending.length) pending pending := by
  refine ⟨⟨queue, if pending.length = 0 then .polling else .peeking pending.length⟩, ?_,
    ⟨h, JobConsumerPc.fits_next (Nat.le_refl _)⟩, rfl, List.append_nil _, ?_⟩
  · simp only [jobStep, consumerStep, h.available_eq]
  · rw [JobConsumerPc.inHand_next]
    rfl

theorem jobStep_peeking {left : ℕ} (h : queue.Holds (job :: pending)) (hpos : 0 < left)
    (hleft : left ≤ (job :: pending).length) :
    ∃ s', jobStep ⟨queue, .peeking left⟩ .consumer = some (s', .peeked job) ∧
      JobStepEffect ⟨queue, .peeking left⟩ s' .consumer (.peeked job) (job :: pending) (job :: pending) := by
  refine ⟨⟨queue, .running left job⟩, ?_, ⟨h, hpos, hleft, rfl⟩, rfl, List.append_nil _, rfl⟩
  simp only [jobStep, consumerStep, h.peek, Option.map_some]

theorem jobStep_running {left : ℕ} (h : queue.Holds (job :: pending))
    (hleft : left ≤ (job :: pending).length) :
    ∃ s', jobStep ⟨queue, .running left job⟩ .consumer = some (s', .removed job) ∧
      JobStepEffect ⟨queue, .running left job⟩ s' .consumer (.removed job) (job :: pending) pending := by
  obtain ⟨queue', hremove, hqueue, hsize⟩ := h.remove
  rw [List.length_cons] at hleft
  refine ⟨⟨queue', if left - 1 = 0 then .polling else .peeking (left - 1)⟩, ?_,
    ⟨hqueue, JobConsumerPc.fits_next (by omega)⟩, hsize, List.append_nil _, ?_⟩
  · simp only [jobStep, consumerStep, hremove, Option.map_some]
  · rw [JobConsumerPc.inHand_next]
    rfl

theorem jobStep_consumer {s : JobSystem R A} (h : s.Holds pending) : ∃ s' event pending',
    jobStep s .consumer = some (s', event) ∧ JobStepEffect s s' .consumer event pending pending' := by
  obtain ⟨queue, pc⟩ := s
  obtain ⟨hqueue, hbatch⟩ := h
  cases pc with
  | polling =>
    obtain ⟨s', hstep, heffect⟩ := jobStep_polling hqueue
    exact ⟨s', _, _, hstep, heffect⟩
  | peeking left =>
    obtain ⟨job, pending, rfl⟩ := List.exists_cons_of_length_pos (hbatch.1.trans_le hbatch.2)
    obtain ⟨s', hstep, heffect⟩ := jobStep_peeking hqueue hbatch.1 hbatch.2
    exact ⟨s', _, _, hstep, heffect⟩
  | running left job =>
    obtain ⟨pending, rfl⟩ := List.head?_eq_some_iff.mp hbatch.2.2
    obtain ⟨s', hstep, heffect⟩ := jobStep_running hqueue hbatch.2.1
    exact ⟨s', _, _, hstep, heffect⟩

end Steps

/-! ## Runs -/

theorem pushedJobs_cons (turn : JobTurn R A) (turns : List (JobTurn R A)) :
    pushedJobs (turn :: turns) = pushedJobs [turn] ++ pushedJobs turns :=
  List.filterMap_append (l := [turn])

theorem peekedJobs_cons (event : JobEvent R A) (events : List (JobEvent R A)) :
    peekedJobs (event :: events) = peekedJobs [event] ++ peekedJobs events :=
  List.filterMap_append (l := [event])

theorem removedJobs_cons (event : JobEvent R A) (events : List (JobEvent R A)) :
    removedJobs (event :: events) = removedJobs [event] ++ removedJobs events :=
  List.filterMap_append (l := [event])

/-- What a run does, in the words of `JobStepEffect`. -/
structure JobRunEffect (s s' : JobSystem R A) (turns : List (JobTurn R A))
    (events : List (JobEvent R A)) (pending pending' : List (LatteJob R A)) : Prop where
  holds : s'.Holds pending'
  size_eq : s'.queue.size = s.queue.size
  pending_eq : pending ++ pushedJobs turns = removedJobs events ++ pending'
  inHand_eq : s.pc.inHand ++ peekedJobs events = removedJobs events ++ s'.pc.inHand

section Runs

variable {s s' s'' : JobSystem R A} {turns : List (JobTurn R A)} {events : List (JobEvent R A)}
  {pending pending' pending'' : List (LatteJob R A)}

theorem JobRunEffect.nil (h : s.Holds pending) : JobRunEffect s s [] [] pending pending :=
  ⟨h, rfl, List.append_nil _, List.append_nil _⟩

theorem JobStepEffect.cons {turn : JobTurn R A} {event : JobEvent R A}
    (h : JobStepEffect s s' turn event pending pending')
    (hs : JobRunEffect s' s'' turns events pending' pending'') :
    JobRunEffect s s'' (turn :: turns) (event :: events) pending pending'' := by
  refine ⟨hs.holds, hs.size_eq.trans h.size_eq, ?_, ?_⟩
  · rw [pushedJobs_cons, removedJobs_cons, ← List.append_assoc, h.pending_eq, List.append_assoc,
      hs.pending_eq, List.append_assoc]
  · rw [peekedJobs_cons, removedJobs_cons, ← List.append_assoc, h.inHand_eq, List.append_assoc,
      hs.inHand_eq, List.append_assoc]

theorem run_jobStep (h : s.Holds pending)
    (hok : CallMachine.Guarded JobPushAllowed jobStep s turns) :
    ∃ s' events pending', CallMachine.run jobStep s turns = some (s', events) ∧
      JobRunEffect s s' turns events pending pending' := by
  induction turns generalizing s pending with
  | nil => exact ⟨s, [], pending, rfl, .nil h⟩
  | cons turn turns ih =>
    obtain ⟨s₁, event, pending₁, hstep, heffect⟩ : ∃ s₁ event pending₁,
        jobStep s turn = some (s₁, event) ∧ JobStepEffect s s₁ turn event pending pending₁ := by
      cases turn with
      | producer job =>
        obtain ⟨s₁, hstep, heffect⟩ := jobStep_producer h hok.1
        exact ⟨s₁, _, _, hstep, heffect⟩
      | consumer => exact jobStep_consumer h
    obtain ⟨s', events, pending', hrun, hrest⟩ := ih heffect.holds (hok.2 _ _ hstep)
    exact ⟨s', event :: events, pending',
      by rw [CallMachine.run_cons_of_step hstep, hrun, Option.map_some], heffect.cons hrest⟩

/-- How many steps the consumer needs at most until nothing is left to do. -/
def JobConsumerPc.todo (pc : JobConsumerPc R A) (pending : List (LatteJob R A)) : ℕ :=
  match pc with
  | .polling => 3 * pending.length + 2
  | .peeking _ => 3 * pending.length + 1
  | .running _ _ => 3 * pending.length

/-- The consumer comes nearer to the end with every step, if anything is left to do. -/
theorem todo_lt (h : s.Holds pending) (hs : ¬(s.pc = .polling ∧ pending = [])) :
    ∃ s' event pending', jobStep s .consumer = some (s', event) ∧
      JobStepEffect s s' .consumer event pending pending' ∧
      s'.pc.todo pending' < s.pc.todo pending := by
  obtain ⟨queue, pc⟩ := s
  obtain ⟨hqueue, hbatch⟩ := h
  cases pc with
  | polling =>
    have hne : pending.length ≠ 0 := by simpa using hs
    obtain ⟨s', hstep, heffect⟩ := jobStep_polling hqueue
    refine ⟨s', _, _, hstep, heffect, ?_⟩
    simp only [jobStep, consumerStep, hqueue.available_eq, if_neg hne, Option.some.injEq,
      Prod.mk.injEq] at hstep
    rw [← hstep.1]
    exact Nat.lt_succ_self _
  | peeking left =>
    obtain ⟨job, pending, rfl⟩ := List.exists_cons_of_length_pos (hbatch.1.trans_le hbatch.2)
    obtain ⟨s', hstep, heffect⟩ := jobStep_peeking hqueue hbatch.1 hbatch.2
    refine ⟨s', _, _, hstep, heffect, ?_⟩
    simp only [jobStep, consumerStep, hqueue.peek, Option.map_some, Option.some.injEq,
      Prod.mk.injEq] at hstep
    rw [← hstep.1]
    exact Nat.lt_succ_self _
  | running left job =>
    obtain ⟨pending, rfl⟩ := List.head?_eq_some_iff.mp hbatch.2.2
    obtain ⟨s', hstep, heffect⟩ := jobStep_running hqueue hbatch.2.1
    refine ⟨s', _, _, hstep, heffect, ?_⟩
    have hle : s'.pc.todo pending ≤ 3 * pending.length + 2 := by
      unfold JobConsumerPc.todo
      split <;> omega
    change _ < 3 * (job :: pending).length
    rw [List.length_cons]
    omega

/-- Left alone, the consumer sees and removes all that is pending. -/
theorem run_consumer (h : s.Holds pending) : ∃ n s' events,
    CallMachine.run jobStep s (List.replicate n .consumer) = some (s', events) ∧
      JobRunEffect s s' (List.replicate n .consumer) events pending [] ∧ s'.pc = .polling := by
  induction hn : s.pc.todo pending using Nat.strong_induction_on generalizing s pending with
  | _ n ih =>
    by_cases hs : s.pc = .polling ∧ pending = []
    · obtain ⟨hpc, rfl⟩ := hs
      exact ⟨0, s, [], rfl, .nil h, hpc⟩
    · obtain ⟨s₁, event, pending₁, hstep, heffect, hlt⟩ := todo_lt h hs
      obtain ⟨k, s', events, hrun, hrest, hpc⟩ := ih _ (hn ▸ hlt) heffect.holds rfl
      exact ⟨k + 1, s', event :: events, by rw [List.replicate_succ,
        CallMachine.run_cons_of_step hstep, hrun, Option.map_some], heffect.cons hrest, hpc⟩

end Runs

/-- **The consumer sees the jobs in the order in which they were pushed.** However the steps of the
producer and the consumer are interleaved, no assertion fails. What the consumer has seen is the
beginning of what was pushed; what it has not removed is still in the buffer, in order, and
`available` is the number of these jobs, less than the size. Left alone, the consumer sees them all. -/
theorem jobQueue_run {size : ℕ} (hsize : 2 ≤ size) (turns : List (JobTurn R A))
    (hok : CallMachine.Guarded JobPushAllowed jobStep (jobSystemNew size) turns) :
    ∃ s events pending, CallMachine.run jobStep (jobSystemNew size) turns = some (s, events) ∧
      peekedJobs events <+: pushedJobs turns ∧
      peekedJobs events = removedJobs events ++ s.pc.inHand ∧
      pushedJobs turns = removedJobs events ++ pending ∧
      pending.length ≤ size - 1 ∧ latteJobConsumerQueueAvailable s.queue = pending.length ∧
      (∀ i job, pending[i]? = some job →
        s.queue.ringBuffer[(s.queue.tail + i) % size]? = some job) ∧
      ∃ n s' events', CallMachine.run jobStep s (List.replicate n .consumer) = some (s', events') ∧
        peekedJobs (events ++ events') = pushedJobs turns := by
  have hnew : (jobSystemNew size : JobSystem R A).Holds [] := ⟨.new hsize, trivial⟩
  obtain ⟨s, events, pending, hrun, heffect⟩ := run_jobStep hnew hok
  have hpushed : pushedJobs turns = removedJobs events ++ pending := heffect.pending_eq
  have hpeeked : peekedJobs events = removedJobs events ++ s.pc.inHand := heffect.inHand_eq
  have hqueue := heffect.holds.queue
  have hssize : s.queue.size = size := heffect.size_eq
  obtain ⟨n, s', events', hrun', heffect', hpc⟩ := run_consumer heffect.holds
  refine ⟨s, events, pending, hrun, ?_, hpeeked, hpushed, ?_, hqueue.available_eq, ?_,
    n, s', events', hrun', ?_⟩
  · rw [hpushed, hpeeked, List.prefix_append_right_inj]
    have hbatch := heffect.holds.batch
    cases hpc : s.pc with
    | polling | peeking left => exact List.nil_prefix
    | running left job =>
      rw [hpc] at hbatch
      obtain ⟨tail, rfl⟩ := List.head?_eq_some_iff.mp hbatch.2.2
      exact ⟨tail, rfl⟩
  · have hlt := hqueue.length_lt
    omega
  · intro i job hjob
    have hget := hqueue.ring.getElem? i job hjob
    rwa [hqueue.size_eq, hssize] at hget
  · have hnone : pushedJobs (List.replicate n (.consumer : JobTurn R A)) = [] := by
      rw [pushedJobs, List.filterMap_replicate]
    have hpending := heffect'.pending_eq
    have hinHand := heffect'.inHand_eq
    rw [hnone, List.append_nil, List.append_nil] at hpending
    rw [hpc] at hinHand
    rw [peekedJobs, List.filterMap_append, ← peekedJobs, ← peekedJobs, hpeeked, List.append_assoc,
      hinHand, hpushed, hpending]
    exact congrArg _ (List.append_nil _)

theorem jobQueue_run_test : ∃ s events pending, CallMachine.run jobStep
      (jobSystemNew 2 : JobSystem ℕ ℕ)
      [.producer ⟨some 1, 0, none⟩, .consumer, .consumer, .consumer, .producer ⟨some 2, 0, none⟩] =
        some (s, events) ∧
      peekedJobs events <+: [⟨some 1, 0, none⟩, ⟨some 2, 0, none⟩] ∧
      peekedJobs events = removedJobs events ++ s.pc.inHand ∧
      [⟨some 1, 0, none⟩, ⟨some 2, 0, none⟩] = removedJobs events ++ pending ∧
      pending.length ≤ 2 - 1 ∧ latteJobConsumerQueueAvailable s.queue = pending.length ∧
      (∀ i job, pending[i]? = some job →
        s.queue.ringBuffer[(s.queue.tail + i) % 2]? = some job) ∧
      ∃ n s' events', CallMachine.run jobStep s (List.replicate n .consumer) = some (s', events') ∧
        peekedJobs (events ++ events') = [⟨some 1, 0, none⟩, ⟨some 2, 0, none⟩] :=
  jobQueue_run (by decide) _ (by decide)

end LatteC
