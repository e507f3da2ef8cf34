import LatteC.Async.Task
import LatteC.Foundation.Interleave

/-!
# The history of a task

Each task has a history, the events that have happened to it and below it. The history of a series is
that of its children, one after the other; that of a parallel task is an interleaving of those of its
series, of which `num` are not done. A task that waits has no history.

Whatever happens to one task appends to its history and to those of its parents (`GoesOn`), so a
statement about the place where it happens is carried up through the tree.
-/

namespace LatteC

/-! ## Histories -/

/-- A series. -/
def AsyncTask.IsSeries (task : AsyncTask) : Prop := ∃ id status tasks, task = .series id status tasks

/-- A task that was not run. -/
inductive Fresh : AsyncTask → Prop
  | basic (id : ℕ) : Fresh (.basic id .wait)
  | series (id : ℕ) {tasks : List AsyncTask} (h : ∀ task ∈ tasks, Fresh task) :
      Fresh (.series id .wait tasks)
  | parallel (id : ℕ) {tasks : List (List UInt8 × AsyncTask)} (h : ∀ e ∈ tasks, Fresh e.2)
      (hseries : ∀ e ∈ tasks, e.2.IsSeries) : Fresh (.parallel id .wait tasks.length tasks)

mutual

/-- A task that was run, whether it is done, and its history. -/
inductive TaskTold : AsyncTask → Bool → List TaskEvent → Prop
  | basicDoing (id : ℕ) : TaskTold (.basic id .doing) false [.start id]
  | basicDone (id : ℕ) : TaskTold (.basic id .done) true [.start id, .done id]
  | seriesDoing (id : ℕ) {tasks : List AsyncTask} {l : List TaskEvent} (h : ToldSeries tasks false l) :
      TaskTold (.series id .doing tasks) false (.start id :: l)
  | seriesDone (id : ℕ) {tasks : List AsyncTask} {l : List TaskEvent} (h : ToldSeries tasks true l) :
      TaskTold (.series id .done tasks) true (.start id :: (l ++ [.done id]))
  | parallelDoing (id k : ℕ) {tasks : List (List UInt8 × AsyncTask)} {l : List TaskEvent}
      (h : ToldParallel tasks (k + 1) l) :
      TaskTold (.parallel id .doing ((k + 1 : ℕ) : ℤ) tasks) false (.start id :: l)
  | parallelDone (id : ℕ) {tasks : List (List UInt8 × AsyncTask)} {l : List TaskEvent}
      (h : ToldParallel tasks 0 l) :
      TaskTold (.parallel id .done 0 tasks) true (.start id :: (l ++ [.done id]))

/-- The children of a series: first those that are done, then one that runs, then those that wait. -/
inductive ToldSeries : List AsyncTask → Bool → List TaskEvent → Prop
  | nil : ToldSeries [] true []
  | stop {task : AsyncTask} {tasks : List AsyncTask} {l : List TaskEvent} (h : TaskTold task false l)
      (htasks : ∀ task ∈ tasks, Fresh task) : ToldSeries (task :: tasks) false l
  | next {task : AsyncTask} {tasks : List AsyncTask} {b : Bool} {l l' : List TaskEvent}
      (h : TaskTold task true l) (htasks : ToldSeries tasks b l') : ToldSeries (task :: tasks) b (l ++ l')

/-- The series of a parallel task, with the number of those that are not done. -/
inductive ToldParallel : List (List UInt8 × AsyncTask) → ℕ → List TaskEvent → Prop
  | nil : ToldParallel [] 0 []
  | doing {name : List UInt8} {task : AsyncTask} {tasks : List (List UInt8 × AsyncTask)} {k : ℕ}
      {l l' m : List TaskEvent} (hseries : task.IsSeries) (h : TaskTold task false l)
      (htasks : ToldParallel tasks k l') (hm : Interleave l l' m) :
      ToldParallel ((name, task) :: tasks) (k + 1) m
  | done {name : List UInt8} {task : AsyncTask} {tasks : List (List UInt8 × AsyncTask)} {k : ℕ}
      {l l' m : List TaskEvent} (hseries : task.IsSeries) (h : TaskTold task true l)
      (htasks : ToldParallel tasks k l') (hm : Interleave l l' m) :
      ToldParallel ((name, task) :: tasks) k m

end

/-! ## Running -/

theorem told_seriesAfter {id : ℕ} {r : TaskRan (List AsyncTask)}
    {l : List TaskEvent} (h : ToldSeries r.task r.notify (l ++ r.log)) :
    TaskTold (seriesAfter id .doing r).task (seriesAfter id .doing r).notify
      (.start id :: (l ++ (seriesAfter id .doing r).log)) := by
  rw [seriesAfter]
  cases hnotify : r.notify with
  | false =>
    rw [hnotify] at h
    exact .seriesDoing id h
  | true =>
    rw [hnotify] at h
    rw [if_pos rfl, ← List.append_assoc]
    exact .seriesDone id h

/-- The loop of `parallelTaskRun`, when `k` of the series in front are not done: at the end there are `j`
more, and if that is none at all then the parallel task is done. -/
def LoopRan (id k : ℕ) (tasks : List (List UInt8 × AsyncTask))
    (r : TaskRan ((TaskStatus × ℤ) × List (List UInt8 × AsyncTask))) : Prop :=
  ∃ j l, ToldParallel r.task.2 j l ∧
    ((tasks ≠ [] ∧ k + j = 0 ∧ r = ⟨((.done, 0), r.task.2), l ++ [.done id], true⟩) ∨
      ((tasks = [] ∨ k + j ≠ 0) ∧ r = ⟨((.doing, ((k + j : ℕ) : ℤ)), r.task.2), l, false⟩))

theorem isSeries_seriesTaskRun {task : AsyncTask} (h : task.IsSeries) : (seriesTaskRun task).task.IsSeries := by
  obtain ⟨id, status, tasks, rfl⟩ := h
  rw [seriesTaskRun, seriesAfter]
  split_ifs
  · exact ⟨_, _, _, rfl⟩
  · exact ⟨_, _, _, rfl⟩

mutual

theorem told_asyncRun : (task : AsyncTask) → Fresh task →
    TaskTold (asyncRun task).task (asyncRun task).notify (asyncRun task).log
  | .basic id _, .basic _ => by
    rw [asyncRun]
    exact .basicDoing id
  | .series id _ tasks, .series _ h => by
    rw [asyncRun]
    exact told_seriesTaskRun (.series id .wait tasks) (.series id h) ⟨_, _, _, rfl⟩
  | .parallel id _ _ [], .parallel _ _ _ => by
    rw [asyncRun]
    exact .parallelDone id .nil
  | .parallel id _ _ (e :: tasks), .parallel _ h hseries => by
    rw [asyncRun]
    have hloop := told_parallelTaskLoop id 0 (e :: tasks) h hseries
    rw [Nat.zero_add] at hloop
    obtain ⟨j, l, htold, ⟨-, hzero, hend⟩ | ⟨hne, hend⟩⟩ := hloop
    · rw [Nat.zero_add] at hzero
      rw [hzero] at htold
      rw [hend]
      exact .parallelDone id htold
    · obtain ⟨i, rfl⟩ : ∃ i, j = i + 1 := Nat.exists_eq_succ_of_ne_zero fun h0 ↦ by
        rcases hne with hnil | hne
        · cases hnil
        · exact hne (by rw [h0])
      rw [hend, Nat.zero_add]
      exact .parallelDoing id i htold

theorem told_seriesTaskRun : (task : AsyncTask) → Fresh task → task.IsSeries →
    TaskTold (seriesTaskRun task).task (seriesTaskRun task).notify (seriesTaskRun task).log
  | .series id _ tasks, .series _ h, _ => by
    rw [seriesTaskRun]
    have htold := told_seriesRunFrom tasks h
    exact told_seriesAfter (l := []) htold

theorem told_seriesRunFrom : (tasks : List AsyncTask) → (∀ task ∈ tasks, Fresh task) →
    ToldSeries (seriesRunFrom tasks).task (seriesRunFrom tasks).notify (seriesRunFrom tasks).log
  | [], _ => by
    rw [seriesRunFrom]
    exact .nil
  | task :: tasks, h => by
    rw [List.forall_mem_cons] at h
    have htask := told_asyncRun task h.1
    rw [seriesRunFrom]
    cases hnotify : (asyncRun task).notify with
    | false =>
      rw [hnotify] at htask
      exact .stop htask h.2
    | true =>
      rw [hnotify] at htask
      exact .next htask (told_seriesRunFrom tasks h.2)

theorem told_parallelTaskLoop (id : ℕ) : (k : ℕ) → (tasks : List (List UInt8 × AsyncTask)) →
    (∀ e ∈ tasks, Fresh e.2) → (∀ e ∈ tasks, e.2.IsSeries) →
    LoopRan id k tasks (parallelTaskLoop id .doing ((k + tasks.length : ℕ) : ℤ) tasks)
  | k, [], _, _ => by
    rw [parallelTaskLoop]
    exact ⟨0, [], .nil, Or.inr ⟨Or.inl rfl, rfl⟩⟩
  | k, (name, task) :: tasks, h, hseries => by
    rw [List.forall_mem_cons] at h hseries
    have htask := told_seriesTaskRun task h.1 hseries.1
    have hkind := isSeries_seriesTaskRun hseries.1
    rw [parallelTaskLoop, List.length_cons]
    cases hnotify : (seriesTaskRun task).notify with
    | false =>
      -- one more that is not done
      rw [hnotify] at htask
      have hnum : k + (tasks.length + 1) = k + 1 + tasks.length := by omega
      simp only [parallelNotified, Bool.false_eq_true, if_false, hnum]
      obtain ⟨j, l, htold, ⟨-, hzero, -⟩ | ⟨-, hend⟩⟩ := told_parallelTaskLoop id (k + 1) tasks h.2 hseries.2
      · omega
      · rw [hend]
        refine ⟨j + 1, (seriesTaskRun task).log ++ l, .doing hkind htask htold (.append _ _),
          Or.inr ⟨Or.inr (by omega), ?_⟩⟩
        simp only [List.append_nil, Bool.or_false, Nat.add_assoc, Nat.add_comm 1 j]
    | true =>
      rw [hnotify] at htask
      have hnum : ((k + (tasks.length + 1) : ℕ) : ℤ) - 1 = ((k + tasks.length : ℕ) : ℤ) := by omega
      simp only [parallelNotified, if_true, nextParallelTask, hnum]
      by_cases hzero : ((k + tasks.length : ℕ) : ℤ) = 0
      · -- it was the last one
        obtain rfl : tasks = [] := List.length_eq_zero_iff.mp (by omega)
        rw [if_pos hzero, parallelTaskLoop]
        refine ⟨0, (seriesTaskRun task).log, .done hkind htask .nil (.nil_right _), Or.inl ⟨List.cons_ne_nil _ _,
          by rw [List.length_nil] at hzero; omega, ?_⟩⟩
        simp only [hzero, List.append_nil, Bool.true_or]
      · rw [if_neg hzero]
        obtain ⟨j, l, htold, ⟨-, hzero, hend⟩ | ⟨hne, hend⟩⟩ := told_parallelTaskLoop id k tasks h.2 hseries.2
        · rw [hend]
          refine ⟨j, (seriesTaskRun task).log ++ l, .done hkind htask htold (.append _ _),
            Or.inl ⟨List.cons_ne_nil _ _, hzero, ?_⟩⟩
          simp only [List.append_nil, Bool.false_or, List.append_assoc]
        · rw [hend]
          refine ⟨j, (seriesTaskRun task).log ++ l, .done hkind htask htold (.append _ _), Or.inr ⟨Or.inr ?_, ?_⟩⟩
          · rcases hne with rfl | hne
            · rw [List.length_nil] at hzero
              omega
            · exact hne
          · simp only [List.append_nil, Bool.or_false]

end

/-! ## Notifying -/

/-- What may become of a task: one that waits still waits, one that is done stays as it is, and the
history of one that runs goes on. -/
structure GoesOn (task : AsyncTask) (r : TaskRan AsyncTask) : Prop where
  fresh : Fresh task → Fresh r.task ∧ r.log = [] ∧ r.notify = false
  doing : ∀ {l}, TaskTold task false l → TaskTold r.task r.notify (l ++ r.log)
  done : ∀ {l}, TaskTold task true l → TaskTold r.task true l ∧ r.log = [] ∧ r.notify = false
  series : task.IsSeries → r.task.IsSeries

/-- The same for the children of a series. -/
structure SeriesGoesOn (tasks : List AsyncTask) (r : TaskRan (List AsyncTask)) : Prop where
  fresh : (∀ task ∈ tasks, Fresh task) → (∀ task ∈ r.task, Fresh task) ∧ r.log = [] ∧ r.notify = false
  doing : ∀ {l}, ToldSeries tasks false l → ToldSeries r.task r.notify (l ++ r.log)
  done : ∀ {l}, ToldSeries tasks true l → ToldSeries r.task true l ∧ r.log = [] ∧ r.notify = false

/-- The same for the series of a parallel task. -/
structure ParallelGoesOn (tasks : List (List UInt8 × AsyncTask))
    (r : TaskRan (List (List UInt8 × AsyncTask))) : Prop where
  length : r.task.length = tasks.length
  fresh : (∀ e ∈ tasks, Fresh e.2) → (∀ e ∈ tasks, e.2.IsSeries) →
    (∀ e ∈ r.task, Fresh e.2) ∧ (∀ e ∈ r.task, e.2.IsSeries) ∧ r.log = [] ∧ r.notify = false
  told : ∀ {k l}, ToldParallel tasks k l →
    (r.notify = false ∧ ToldParallel r.task k (l ++ r.log) ∧ (k = 0 → r.log = [])) ∨
      (r.notify = true ∧ ∃ k', k = k' + 1 ∧ ToldParallel r.task k' (l ++ r.log))

section Up

variable {f : AsyncTask → Option (TaskRan AsyncTask)}

theorem GoesOn.of_series {id : ℕ} {status : TaskStatus} {tasks : List AsyncTask}
    {r : TaskRan (List AsyncTask)} (h : SeriesGoesOn tasks r) :
    GoesOn (.series id status tasks) (seriesAfter id status r) where
  fresh hfresh := by
    cases hfresh with
    | series _ hfresh =>
      obtain ⟨htasks, hlog, hnotify⟩ := h.fresh hfresh
      rw [seriesAfter, hnotify]
      exact ⟨.series id htasks, hlog, rfl⟩
  doing htold := by
    cases htold with
    | seriesDoing _ htold => exact told_seriesAfter (h.doing htold)
  done htold := by
    cases htold with
    | seriesDone _ htold =>
      obtain ⟨htasks, hlog, hnotify⟩ := h.done htold
      rw [seriesAfter, hnotify]
      exact ⟨.seriesDone id htasks, hlog, rfl⟩
  series _ := by
    rw [seriesAfter]
    split_ifs
    · exact ⟨_, _, _, rfl⟩
    · exact ⟨_, _, _, rfl⟩

theorem GoesOn.of_parallel {id : ℕ} {status : TaskStatus} {num : ℤ}
    {tasks : List (List UInt8 × AsyncTask)} {r : TaskRan (List (List UInt8 × AsyncTask))}
    (h : ParallelGoesOn tasks r) :
    GoesOn (.parallel id status num tasks) (parallelAfter id status num r) where
  fresh hfresh := by
    cases hfresh with
    | parallel _ hfresh hseries =>
      obtain ⟨htasks, hkind, hlog, hnotify⟩ := h.fresh hfresh hseries
      rw [parallelAfter, parallelNotified, hnotify, hlog, ← h.length]
      exact ⟨.parallel id htasks hkind, rfl, rfl⟩
  doing htold := by
    cases htold with
    | parallelDoing _ k htold =>
      rw [parallelAfter, parallelNotified]
      rcases h.told htold with ⟨hnotify, htasks, -⟩ | ⟨hnotify, k', hk', htasks⟩
      · rw [hnotify]
        simp only [Bool.false_eq_true, if_false, List.append_nil]
        exact .parallelDoing id k htasks
      · obtain rfl : k = k' := Nat.succ.inj hk'
        rw [hnotify, if_pos rfl, nextParallelTask]
        have hnum : ((k + 1 : ℕ) : ℤ) - 1 = (k : ℤ) := by omega
        cases k with
        | zero =>
          simp only [hnum, Nat.cast_zero, if_true, List.cons_append]
          rw [← List.append_assoc]
          exact .parallelDone id htasks
        | succ k =>
          have hne : ¬ ((k + 1 : ℕ) : ℤ) = 0 := by omega
          simp only [hnum, if_neg hne, List.append_nil]
          exact .parallelDoing id k htasks
  done htold := by
    cases htold with
    | parallelDone _ htold =>
      rcases h.told htold with ⟨hnotify, htasks, hlog⟩ | ⟨-, k', hk', -⟩
      · rw [hlog rfl, List.append_nil] at htasks
        rw [parallelAfter, parallelNotified, hnotify, hlog rfl]
        exact ⟨.parallelDone id htasks, rfl, rfl⟩
      · cases hk'
  series hseries := by
    obtain ⟨_, _, _, hseries⟩ := hseries
    cases hseries

theorem SeriesGoesOn.of_head {task : AsyncTask} {tasks : List AsyncTask} {r : TaskRan AsyncTask}
    (h : GoesOn task r) : SeriesGoesOn (task :: tasks)
      (if r.notify then ⟨r.task :: (seriesRunFrom tasks).task, r.log ++ (seriesRunFrom tasks).log,
        (seriesRunFrom tasks).notify⟩ else ⟨r.task :: tasks, r.log, false⟩) where
  fresh hfresh := by
    rw [List.forall_mem_cons] at hfresh
    obtain ⟨htask, hlog, hnotify⟩ := h.fresh hfresh.1
    rw [hnotify]
    exact ⟨List.forall_mem_cons.mpr ⟨htask, hfresh.2⟩, hlog, rfl⟩
  doing htold := by
    cases htold with
    | stop htask htasks =>
      have hgoes := h.doing htask
      cases hnotify : r.notify with
      | false =>
        rw [hnotify] at hgoes
        exact .stop hgoes htasks
      | true =>
        rw [hnotify] at hgoes
        rw [if_pos rfl, ← List.append_assoc]
        exact .next hgoes (told_seriesRunFrom tasks htasks)
    | next htask htasks =>
      obtain ⟨htask, hlog, hnotify⟩ := h.done htask
      rw [hnotify, hlog]
      simp only [Bool.false_eq_true, if_false, List.append_nil]
      exact .next htask htasks
  done htold := by
    cases htold with
    | next htask htasks =>
      obtain ⟨htask, hlog, hnotify⟩ := h.done htask
      rw [hnotify]
      exact ⟨.next htask htasks, hlog, rfl⟩

theorem SeriesGoesOn.of_tail {task : AsyncTask} {tasks : List AsyncTask} {r : TaskRan (List AsyncTask)}
    (h : SeriesGoesOn tasks r) : SeriesGoesOn (task :: tasks) ⟨task :: r.task, r.log, r.notify⟩ where
  fresh hfresh := by
    rw [List.forall_mem_cons] at hfresh
    obtain ⟨htasks, hlog, hnotify⟩ := h.fresh hfresh.2
    exact ⟨List.forall_mem_cons.mpr ⟨hfresh.1, htasks⟩, hlog, hnotify⟩
  doing htold := by
    cases htold with
    | stop htask htasks =>
      obtain ⟨htasks, hlog, hnotify⟩ := h.fresh htasks
      simp only [hnotify, hlog, List.append_nil]
      exact .stop htask htasks
    | next htask htasks =>
      rw [List.append_assoc]
      exact .next htask (h.doing htasks)
  done htold := by
    cases htold with
    | next htask htasks =>
      obtain ⟨htasks, hlog, hnotify⟩ := h.done htasks
      exact ⟨.next htask htasks, hlog, hnotify⟩

theorem ParallelGoesOn.of_head {name : List UInt8} {task : AsyncTask}
    {tasks : List (List UInt8 × AsyncTask)} {r : TaskRan AsyncTask} (h : GoesOn task r) :
    ParallelGoesOn ((name, task) :: tasks) ⟨(name, r.task) :: tasks, r.log, r.notify⟩ where
  length := by rw [List.length_cons, List.length_cons]
  fresh hfresh hseries := by
    rw [List.forall_mem_cons] at hfresh hseries
    obtain ⟨htask, hlog, hnotify⟩ := h.fresh hfresh.1
    exact ⟨List.forall_mem_cons.mpr ⟨htask, hfresh.2⟩,
      List.forall_mem_cons.mpr ⟨h.series hseries.1, hseries.2⟩, hlog, hnotify⟩
  told htold := by
    cases htold with
    | doing hseries htask htasks hm =>
      have hgoes := h.doing htask
      cases hnotify : r.notify with
      | false =>
        rw [hnotify] at hgoes
        exact Or.inl ⟨rfl, .doing (h.series hseries) hgoes htasks (hm.append_left _), by simp⟩
      | true =>
        rw [hnotify] at hgoes
        exact Or.inr ⟨rfl, _, rfl, .done (h.series hseries) hgoes htasks (hm.append_left _)⟩
    | done hseries htask htasks hm =>
      obtain ⟨htask, hlog, hnotify⟩ := h.done htask
      simp only [hnotify, hlog, List.append_nil]
      exact Or.inl ⟨trivial, .done (h.series hseries) htask htasks hm, fun _ ↦ trivial⟩

theorem ParallelGoesOn.of_tail {name : List UInt8} {task : AsyncTask}
    {tasks : List (List UInt8 × AsyncTask)} {r : TaskRan (List (List UInt8 × AsyncTask))}
    (h : ParallelGoesOn tasks r) :
    ParallelGoesOn ((name, task) :: tasks) ⟨(name, task) :: r.task, r.log, r.notify⟩ where
  length := by rw [List.length_cons, List.length_cons, h.length]
  fresh hfresh hseries := by
    rw [List.forall_mem_cons] at hfresh hseries
    obtain ⟨htasks, hkind, hlog, hnotify⟩ := h.fresh hfresh.2 hseries.2
    exact ⟨List.forall_mem_cons.mpr ⟨hfresh.1, htasks⟩,
      List.forall_mem_cons.mpr ⟨hseries.1, hkind⟩, hlog, hnotify⟩
  told htold := by
    cases htold with
    | doing hseries htask htasks hm =>
      rcases h.told htasks with ⟨hnotify, hgoes, -⟩ | ⟨hnotify, k', rfl, hgoes⟩
      · exact Or.inl ⟨hnotify, .doing hseries htask hgoes (hm.append_right _), by simp⟩
      · exact Or.inr ⟨hnotify, _, rfl, .doing hseries htask hgoes (hm.append_right _)⟩
    | done hseries htask htasks hm =>
      rcases h.told htasks with ⟨hnotify, hgoes, hlog⟩ | ⟨hnotify, k', rfl, hgoes⟩
      · exact Or.inl ⟨hnotify, .done hseries htask hgoes (hm.append_right _), hlog⟩
      · exact Or.inr ⟨hnotify, _, rfl, .done hseries htask hgoes (hm.append_right _)⟩

mutual

/-- What happens to one task is carried up through the tree. -/
theorem goesOn_atTask : (task : AsyncTask) → (∀ n ∈ task.nodes, ∀ r, f n = some r → GoesOn n r) →
    ∀ r, atTask f task = some r → GoesOn task r
  | .basic id status, hf, r, h => by
    rw [atTask] at h
    exact hf _ (by rw [AsyncTask.nodes]; exact List.mem_singleton_self _) r h
  | .series id status tasks, hf, r, h => by
    rw [AsyncTask.nodes, List.forall_mem_cons] at hf
    rw [atTask] at h
    cases hnode : f (.series id status tasks) with
    | some r' =>
      rw [hnode] at h
      exact Option.some.inj h ▸ hf.1 r' hnode
    | none =>
      rw [hnode] at h
      obtain ⟨r', hr', rfl⟩ := Option.map_eq_some_iff.mp h
      exact .of_series (goesOn_atSeries tasks hf.2 r' hr')
  | .parallel id status num tasks, hf, r, h => by
    rw [AsyncTask.nodes, List.forall_mem_cons] at hf
    rw [atTask] at h
    cases hnode : f (.parallel id status num tasks) with
    | some r' =>
      rw [hnode] at h
      exact Option.some.inj h ▸ hf.1 r' hnode
    | none =>
      rw [hnode] at h
      obtain ⟨r', hr', rfl⟩ := Option.map_eq_some_iff.mp h
      exact .of_parallel (goesOn_atParallel tasks hf.2 r' hr')

theorem goesOn_atSeries : (tasks : List AsyncTask) →
    (∀ n ∈ seriesNodes tasks, ∀ r, f n = some r → GoesOn n r) →
    ∀ r, atSeries f tasks = some r → SeriesGoesOn tasks r
  | [], _, r, h => by
    rw [atSeries] at h
    cases h
  | task :: tasks, hf, r, h => by
    rw [seriesNodes, List.forall_mem_append] at hf
    rw [atSeries] at h
    cases htask : atTask f task with
    | some r' =>
      rw [htask] at h
      have hgoes := goesOn_atTask task hf.1 r' htask
      have heq : r = if r'.notify then ⟨r'.task :: (seriesRunFrom tasks).task,
          r'.log ++ (seriesRunFrom tasks).log, (seriesRunFrom tasks).notify⟩
          else ⟨r'.task :: tasks, r'.log, false⟩ := by
        simp only at h
        split_ifs at h ⊢ <;> exact (Option.some.inj h).symm
      rw [heq]
      exact .of_head hgoes
    | none =>
      rw [htask] at h
      obtain ⟨r', hr', rfl⟩ := Option.map_eq_some_iff.mp h
      exact (goesOn_atSeries tasks hf.2 r' hr').of_tail

theorem goesOn_atParallel : (tasks : List (List UInt8 × AsyncTask)) →
    (∀ n ∈ parallelNodes tasks, ∀ r, f n = some r → GoesOn n r) →
    ∀ r, atParallel f tasks = some r → ParallelGoesOn tasks r
  | [], _, r, h => by
    rw [atParallel] at h
    cases h
  | (name, task) :: tasks, hf, r, h => by
    rw [parallelNodes, List.forall_mem_append] at hf
    rw [atParallel] at h
    cases htask : atTask f task with
    | some r' =>
      rw [htask] at h
      rw [← Option.some.inj h]
      exact .of_head (goesOn_atTask task hf.1 r' htask)
    | none =>
      rw [htask] at h
      obtain ⟨r', hr', rfl⟩ := Option.map_eq_some_iff.mp h
      exact (goesOn_atParallel tasks hf.2 r' hr').of_tail

end

end Up

/-! ## What happens to a task -/

theorem goesOn_basicCallback {b : ℕ} {task : AsyncTask} {r : TaskRan AsyncTask}
    (h : basicCallback b task = some r) : GoesOn task r := by
  obtain ⟨id, rfl, rfl⟩ : ∃ id, task = .basic id .doing ∧ r = ⟨.basic id .done, [.done id], true⟩ := by
    rw [basicCallback.eq_def] at h
    split at h
    · split_ifs at h
      exact ⟨_, rfl, (Option.some.inj h).symm⟩
    · cases h
  refine ⟨fun hfresh ↦ ?_, fun htold ↦ ?_, fun htold ↦ ?_, fun hseries ↦ ?_⟩
  · cases hfresh
  · cases htold
    exact .basicDone id
  · cases htold
  · obtain ⟨_, _, _, hseries⟩ := hseries
    cases hseries

theorem TaskTold.status_eq {task : AsyncTask} {b : Bool} {l : List TaskEvent} (h : TaskTold task b l) :
    task.status = if b then .done else .doing := by
  cases h <;> rfl

section Add

variable {child : AsyncTask} (hchild : Fresh child)

theorem isSeries_addSeriesTask {task : AsyncTask} (h : task.IsSeries) :
    (addSeriesTask child task).IsSeries := by
  obtain ⟨id, status, tasks, rfl⟩ := h
  exact ⟨_, _, _, rfl⟩

include hchild

theorem fresh_concat {tasks : List AsyncTask} (h : ∀ task ∈ tasks, Fresh task) :
    ∀ task ∈ tasks ++ [child], Fresh task := by
  rw [List.forall_mem_append, List.forall_mem_singleton]
  exact ⟨h, hchild⟩

theorem fresh_addSeriesTask {task : AsyncTask} (h : Fresh task) : Fresh (addSeriesTask child task) := by
  cases h with
  | basic id => exact .basic id
  | series id h => exact .series id (fresh_concat hchild h)
  | parallel id h hseries => exact .parallel id h hseries

/-- A child behind one that runs. -/
theorem told_concat {tasks : List AsyncTask} : ∀ {l : List TaskEvent}, ToldSeries tasks false l →
    ToldSeries (tasks ++ [child]) false l := by
  induction tasks with
  | nil =>
    intro l h
    cases h
  | cons task tasks ih =>
    intro l h
    cases h with
    | stop htask htasks => exact .stop htask (fresh_concat hchild htasks)
    | next htask htasks => exact .next htask (ih htasks)

theorem told_addSeriesTask {task : AsyncTask} {l : List TaskEvent} (h : TaskTold task false l) :
    TaskTold (addSeriesTask child task) false l := by
  cases h with
  | basicDoing id => exact .basicDoing id
  | seriesDoing id h => exact .seriesDoing id (told_concat hchild h)
  | parallelDoing id k h => exact .parallelDoing id k h

theorem fresh_addToEntry (name : List UInt8) {tasks : List (List UInt8 × AsyncTask)}
    (h : ∀ e ∈ tasks, Fresh e.2) (hseries : ∀ e ∈ tasks, e.2.IsSeries) :
    (∀ e ∈ addToEntry name child tasks, Fresh e.2) ∧
      (∀ e ∈ addToEntry name child tasks, e.2.IsSeries) ∧
        (addToEntry name child tasks).length = tasks.length := by
  induction tasks with
  | nil => exact ⟨h, hseries, rfl⟩
  | cons e tasks ih =>
    rw [List.forall_mem_cons] at h hseries
    rw [addToEntry]
    split_ifs
    · exact ⟨List.forall_mem_cons.mpr ⟨fresh_addSeriesTask hchild h.1, h.2⟩,
        List.forall_mem_cons.mpr ⟨isSeries_addSeriesTask hseries.1, hseries.2⟩, rfl⟩
    · obtain ⟨hfresh, hkind, hlength⟩ := ih h.2 hseries.2
      exact ⟨List.forall_mem_cons.mpr ⟨h.1, hfresh⟩, List.forall_mem_cons.mpr ⟨hseries.1, hkind⟩,
        by rw [List.length_cons, List.length_cons, hlength]⟩

/-- The series of the name is not done, so it will come to the new child. -/
theorem told_addToEntry {name : List UInt8} {tasks : List (List UInt8 × AsyncTask)}
    (hsafe : ∀ e ∈ tasks, e.1 = name → e.2.status ≠ .done) : ∀ {k : ℕ} {l : List TaskEvent},
    ToldParallel tasks k l → ToldParallel (addToEntry name child tasks) k l := by
  induction tasks with
  | nil => exact fun h ↦ h
  | cons e tasks ih =>
    intro k l h
    rw [List.forall_mem_cons] at hsafe
    rw [addToEntry]
    cases h with
    | doing hseries htask htasks hm =>
      split_ifs with hname
      · exact .doing (isSeries_addSeriesTask hseries) (told_addSeriesTask hchild htask) htasks hm
      · exact .doing hseries htask (ih hsafe.2 htasks) hm
    | done hseries htask htasks hm =>
      rw [if_neg fun hname ↦ hsafe.1 hname htask.status_eq]
      exact .done hseries htask (ih hsafe.2 htasks) hm

omit hchild

/-- A new series writes its history behind that of the others. -/
theorem ToldParallel.insert (name : List UInt8) {task : AsyncTask} {b : Bool} {l' : List TaskEvent}
    (hseries : task.IsSeries) (htask : TaskTold task b l') {front back : List (List UInt8 × AsyncTask)} :
    ∀ {k : ℕ} {l : List TaskEvent}, ToldParallel (front ++ back) k l →
      ToldParallel (front ++ (name, task) :: back) (if b then k else k + 1) (l ++ l') := by
  induction front with
  | nil =>
    intro k l h
    have hm : Interleave l' l (l ++ l') := (Interleave.nil_left l).append_left l'
    cases b with
    | false => exact .doing hseries htask h hm
    | true => exact .done hseries htask h hm
  | cons e front ih =>
    intro k l h
    cases h with
    | doing hseries' htask' htasks hm =>
      have hrest := ih htasks
      cases b with
      | false => exact .doing hseries' htask' hrest (hm.append_right l')
      | true => exact .doing hseries' htask' hrest (hm.append_right l')
    | done hseries' htask' htasks hm =>
      have hrest := ih htasks
      cases b with
      | false => exact .done hseries' htask' hrest (hm.append_right l')
      | true => exact .done hseries' htask' hrest (hm.append_right l')

include hchild

/-- A child is added. -/
theorem goesOn_addParallelTask {p : ℕ} {name : List UInt8} {sid pos : ℕ} {task : AsyncTask}
    {r : TaskRan AsyncTask} (h : addParallelTask p name child sid pos task = some r)
    (hsafe : ∀ num tasks, task = .parallel p .doing num tasks → ∀ e ∈ tasks, e.1 = name →
      e.2.status ≠ .done) : GoesOn task r := by
  have hnew : Fresh (addSeriesTask child (.series sid .wait [])) :=
    fresh_addSeriesTask hchild (.series sid (fun _ h ↦ absurd h List.not_mem_nil))
  have hkind : (addSeriesTask child (.series sid .wait [])).IsSeries :=
    isSeries_addSeriesTask ⟨_, _, _, rfl⟩
  cases task with
  | basic id status => cases h
  | series id status tasks => cases h
  | parallel id status num tasks =>
    rw [addParallelTask] at h
    split_ifs at h with hid hdone hfind hdoing
    · -- nothing is added to a task that is done
      subst hdone
      rw [← Option.some.inj h]
      refine ⟨fun hfresh ↦ ?_, fun htold ↦ ?_, fun htold ↦ ⟨htold, rfl, rfl⟩, fun h ↦ h⟩
      · cases hfresh
      · cases htold
    · -- a new series that is run at once
      subst hdoing
      rw [← Option.some.inj h]
      refine ⟨fun hfresh ↦ ?_, fun htold ↦ ?_, fun htold ↦ ?_, fun hseries ↦ ?_⟩
      · cases hfresh
      · cases htold with
        | parallelDoing _ k htold =>
          have hrun := told_seriesTaskRun _ hnew hkind
          rw [← List.take_append_drop pos tasks] at htold
          have hinsert := htold.insert name (isSeries_seriesTaskRun hkind) hrun
          rw [parallelNotified]
          cases hnotify : (seriesTaskRun (addSeriesTask child (.series sid .wait []))).notify with
          | false =>
            rw [hnotify] at hinsert
            simp only [Bool.false_eq_true, if_false, List.append_nil]
            exact .parallelDoing id (k + 1) hinsert
          | true =>
            -- it is done at once, but the others are not
            rw [hnotify] at hinsert
            have hnum : ((k + 1 : ℕ) : ℤ) + 1 - 1 = ((k + 1 : ℕ) : ℤ) := by omega
            have hne : ¬ ((k + 1 : ℕ) : ℤ) = 0 := by omega
            simp only [if_true, nextParallelTask, hnum, if_neg hne, List.append_nil]
            exact .parallelDoing id k hinsert
      · cases htold
      · obtain ⟨_, _, _, hseries⟩ := hseries
        cases hseries
    · -- a new series that waits
      rw [← Option.some.inj h]
      refine ⟨fun hfresh ↦ ?_, fun htold ↦ ?_, fun htold ↦ ?_, fun hseries ↦ ?_⟩
      · cases hfresh with
        | parallel _ hfresh hseries =>
          have hlength : ((tasks.length : ℕ) : ℤ) + 1 = ((tasks.take pos ++
              (name, addSeriesTask child (.series sid .wait [])) :: tasks.drop pos).length : ℕ) := by
            rw [List.length_append, List.length_cons, List.length_take, List.length_drop]
            omega
          rw [hlength]
          refine ⟨.parallel id ?_ ?_, rfl, rfl⟩
          · rw [List.forall_mem_append, List.forall_mem_cons]
            exact ⟨fun e he ↦ hfresh e (List.mem_of_mem_take he), hnew,
              fun e he ↦ hfresh e (List.mem_of_mem_drop he)⟩
          · rw [List.forall_mem_append, List.forall_mem_cons]
            exact ⟨fun e he ↦ hseries e (List.mem_of_mem_take he), hkind,
              fun e he ↦ hseries e (List.mem_of_mem_drop he)⟩
      · cases htold
        exact absurd rfl hdoing
      · cases htold
        exact absurd rfl hdone
      · obtain ⟨_, _, _, hseries⟩ := hseries
        cases hseries
    · -- a series that is there
      subst hid
      rw [← Option.some.inj h]
      refine ⟨fun hfresh ↦ ?_, fun htold ↦ ?_, fun htold ↦ ?_, fun hseries ↦ ?_⟩
      · cases hfresh with
        | parallel _ hfresh hseries =>
          obtain ⟨hadded, hkinds, hlength⟩ := fresh_addToEntry hchild name hfresh hseries
          rw [← hlength]
          exact ⟨.parallel id hadded hkinds, rfl, rfl⟩
      · cases htold with
        | parallelDoing _ k htold =>
          rw [List.append_nil]
          exact .parallelDoing id k (told_addToEntry hchild (hsafe _ _ rfl) htold)
      · cases htold
        exact absurd rfl hdone
      · obtain ⟨_, _, _, hseries⟩ := hseries
        cases hseries

end Add

end LatteC
