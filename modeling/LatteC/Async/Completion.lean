import LatteC.Async.History
import Mathlib.Algebra.Order.Group.Multiset
import Mathlib.Tactic.Abel

/-!
# How tasks complete

For every program that uses tasks as `LatteC.Async.Task` describes, and for every order in which the jobs
are done, a parallel task runs each child once and is done once, after all of them.

A child that is added to a series of a parallel task that is done already, while the parallel task is
not, is never run. No other call goes wrong.
-/

namespace LatteC

/-! ## What does not change -/

/-- The addresses of the children of a series. -/
def AsyncTask.childIds : AsyncTask → List ℕ
  | .series _ _ tasks => tasks.map AsyncTask.id
  | _ => []

/-- The children by name, of the series of a parallel task. -/
def entryIds (tasks : List (List UInt8 × AsyncTask)) : List (List UInt8 × List ℕ) :=
  tasks.map fun e ↦ (e.1, e.2.childIds)

/-- What running leaves alone: the address, and for a parallel task the children that were added. -/
def AsyncTask.face : AsyncTask → ℕ × Option (List (List UInt8 × List ℕ))
  | .basic id _ => (id, none)
  | .series id _ _ => (id, none)
  | .parallel id _ _ tasks => (id, some (entryIds tasks))

@[simp] theorem AsyncTask.face_fst (task : AsyncTask) : task.face.1 = task.id := by
  cases task <;> rfl

/-- One becomes the other, and `R` holds for the faces. -/
structure Reshaped (R : List (ℕ × Option (List (List UInt8 × List ℕ))) →
    List (ℕ × Option (List (List UInt8 × List ℕ))) → Prop) (task task' : AsyncTask) : Prop where
  faces : R (task.nodes.map AsyncTask.face) (task'.nodes.map AsyncTask.face)
  id : task'.id = task.id
  childIds : task'.childIds = task.childIds

theorem Reshaped.refl (task : AsyncTask) : Reshaped Eq task task := ⟨rfl, rfl, rfl⟩

theorem Reshaped.of_series {R : List (ℕ × Option (List (List UInt8 × List ℕ))) →
    List (ℕ × Option (List (List UInt8 × List ℕ))) → Prop}
    (hR : ∀ {a b} c d, R a b → R (c ++ a ++ d) (c ++ b ++ d)) (id : ℕ) (status status' : TaskStatus)
    {tasks tasks' : List AsyncTask}
    (hfaces : R ((seriesNodes tasks).map AsyncTask.face) ((seriesNodes tasks').map AsyncTask.face))
    (hids : tasks'.map AsyncTask.id = tasks.map AsyncTask.id) :
    Reshaped R (.series id status tasks) (.series id status' tasks') where
  faces := by
    rw [AsyncTask.nodes, AsyncTask.nodes, List.map_cons, List.map_cons]
    have h := hR [(id, none)] [] hfaces
    rwa [List.append_nil, List.append_nil] at h
  id := rfl
  childIds := hids

theorem Reshaped.of_parallel {R : List (ℕ × Option (List (List UInt8 × List ℕ))) →
    List (ℕ × Option (List (List UInt8 × List ℕ))) → Prop}
    (hR : ∀ {a b} c d, R a b → R (c ++ a ++ d) (c ++ b ++ d)) (id : ℕ) (status status' : TaskStatus)
    (num num' : ℤ) {tasks tasks' : List (List UInt8 × AsyncTask)}
    (hfaces : R ((parallelNodes tasks).map AsyncTask.face) ((parallelNodes tasks').map AsyncTask.face))
    (hids : entryIds tasks' = entryIds tasks) :
    Reshaped R (.parallel id status num tasks) (.parallel id status' num' tasks') where
  faces := by
    rw [AsyncTask.nodes, AsyncTask.nodes, List.map_cons, List.map_cons, AsyncTask.face, AsyncTask.face, hids]
    have h := hR [(id, some (entryIds tasks))] [] hfaces
    rwa [List.append_nil, List.append_nil] at h
  id := rfl
  childIds := rfl

private theorem eq_context {α : Type*} {a b : List α} (c d : List α) (h : a = b) :
    c ++ a ++ d = c ++ b ++ d := by rw [h]

mutual

/-- Running changes the status of tasks only. -/
theorem reshaped_asyncRun : (task : AsyncTask) → Reshaped Eq task (asyncRun task).task
  | .basic id status => by
    cases status
    · rw [asyncRun]
      exact ⟨by rw [AsyncTask.nodes, AsyncTask.nodes]; rfl, rfl, rfl⟩
    · rw [asyncRun]
      exact .refl _
      all_goals simp
    · rw [asyncRun]
      exact .refl _
      all_goals simp
  | .series id status tasks => by
    cases status
    · rw [asyncRun]
      exact reshaped_seriesTaskRun (.series id .wait tasks)
    · rw [asyncRun]
      exact .refl _
      all_goals simp
    · rw [asyncRun]
      exact .refl _
      all_goals simp
  | .parallel id status num [] => by
    cases status
    · rw [asyncRun]
      exact .of_parallel eq_context id .wait .done num num rfl rfl
    · rw [asyncRun]
      exact .refl _
      all_goals simp
    · rw [asyncRun]
      exact .refl _
      all_goals simp
  | .parallel id status num (e :: tasks) => by
    cases status
    · rw [asyncRun]
      obtain ⟨hfaces, hids⟩ := reshaped_parallelTaskLoop id .doing num (e :: tasks)
      exact .of_parallel eq_context id _ _ _ _ hfaces hids
    · rw [asyncRun]
      exact .refl _
      all_goals simp
    · rw [asyncRun]
      exact .refl _
      all_goals simp

theorem reshaped_seriesTaskRun : (task : AsyncTask) → Reshaped Eq task (seriesTaskRun task).task
  | .series id status tasks => by
    obtain ⟨hfaces, hids⟩ := reshaped_seriesRunFrom tasks
    rw [seriesTaskRun, seriesAfter]
    split_ifs
    · exact .of_series eq_context id _ _ hfaces hids
    · exact .of_series eq_context id _ _ hfaces hids
  | .basic id status => by
    rw [seriesTaskRun]
    exact .refl _
    simp
  | .parallel id status num tasks => by
    rw [seriesTaskRun]
    exact .refl _
    simp

theorem reshaped_seriesRunFrom : (tasks : List AsyncTask) →
    (seriesNodes tasks).map AsyncTask.face = (seriesNodes (seriesRunFrom tasks).task).map AsyncTask.face ∧
      (seriesRunFrom tasks).task.map AsyncTask.id = tasks.map AsyncTask.id
  | [] => by
    rw [seriesRunFrom]
    exact ⟨rfl, rfl⟩
  | task :: tasks => by
    have htask := reshaped_asyncRun task
    have htasks := reshaped_seriesRunFrom tasks
    rw [seriesRunFrom]
    split_ifs
    · simp only [seriesNodes, List.map_append, List.map_cons, htask.faces, htask.id, htasks.1, htasks.2,
        and_self]
    · simp only [seriesNodes, List.map_append, List.map_cons, htask.faces, htask.id, and_self]

theorem reshaped_parallelTaskLoop (id : ℕ) : (status : TaskStatus) → (num : ℤ) →
    (tasks : List (List UInt8 × AsyncTask)) →
    (parallelNodes tasks).map AsyncTask.face =
        (parallelNodes (parallelTaskLoop id status num tasks).task.2).map AsyncTask.face ∧
      entryIds (parallelTaskLoop id status num tasks).task.2 = entryIds tasks
  | _, _, [] => by
    rw [parallelTaskLoop]
    exact ⟨rfl, rfl⟩
  | status, num, (name, task) :: tasks => by
    have htask := reshaped_seriesTaskRun task
    rw [parallelTaskLoop]
    have htasks := reshaped_parallelTaskLoop id
      (parallelNotified id status num (seriesTaskRun task).notify).task.1
      (parallelNotified id status num (seriesTaskRun task).notify).task.2 tasks
    rw [entryIds] at htasks ⊢
    simp only [parallelNodes, List.map_append, List.map_cons, htask.faces, htask.childIds, htasks.1]
    exact ⟨trivial, congrArg _ htasks.2⟩

end

section Reshape

variable {R : List (ℕ × Option (List (List UInt8 × List ℕ))) →
    List (ℕ × Option (List (List UInt8 × List ℕ))) → Prop}
  (hR : ∀ {a b} c d, R a b → R (c ++ a ++ d) (c ++ b ++ d))
  {f : AsyncTask → Option (TaskRan AsyncTask)}

include hR

mutual

/-- A change at one task is a change of the tree. -/
theorem reshaped_atTask : (task : AsyncTask) →
    (∀ n ∈ task.nodes, ∀ r, f n = some r → Reshaped R n r.task) →
    ∀ r, atTask f task = some r → Reshaped R task r.task
  | .basic id status, hf, r, h => by
    rw [atTask] at h
    exact hf _ (by rw [AsyncTask.nodes]; exact List.mem_singleton_self _) r h
  | .series id status tasks, hf, r, h => by
    rw [AsyncTask.nodes, List.forall_mem_cons] at hf
    rw [atTask] at h
    cases hnode : f (.series id status tasks) with
    | some r' =>
      rw [hnode] at h
      exact Option.some.inj h ▸ hf.1 r' hnode
    | none =>
      rw [hnode] at h
      obtain ⟨r', hr', rfl⟩ := Option.map_eq_some_iff.mp h
      obtain ⟨hfaces, hids⟩ := reshaped_atSeries tasks hf.2 r' hr'
      rw [seriesAfter]
      split_ifs
      · exact .of_series hR id _ _ hfaces hids
      · exact .of_series hR id _ _ hfaces hids
  | .parallel id status num tasks, hf, r, h => by
    rw [AsyncTask.nodes, List.forall_mem_cons] at hf
    rw [atTask] at h
    cases hnode : f (.parallel id status num tasks) with
    | some r' =>
      rw [hnode] at h
      exact Option.some.inj h ▸ hf.1 r' hnode
    | none =>
      rw [hnode] at h
      obtain ⟨r', hr', rfl⟩ := Option.map_eq_some_iff.mp h
      obtain ⟨hfaces, hids⟩ := reshaped_atParallel tasks hf.2 r' hr'
      exact .of_parallel hR id _ _ _ _ hfaces hids

theorem reshaped_atSeries : (tasks : List AsyncTask) →
    (∀ n ∈ seriesNodes tasks, ∀ r, f n = some r → Reshaped R n r.task) →
    ∀ r, atSeries f tasks = some r →
    R ((seriesNodes tasks).map AsyncTask.face) ((seriesNodes r.task).map AsyncTask.face) ∧
      r.task.map AsyncTask.id = tasks.map AsyncTask.id
  | [], _, r, h => by
    rw [atSeries] at h
    cases h
  | task :: tasks, hf, r, h => by
    rw [seriesNodes, List.forall_mem_append] at hf
    rw [atSeries] at h
    cases htask : atTask f task with
    | some r' =>
      rw [htask] at h
      have hhead := reshaped_atTask task hf.1 r' htask
      have hcontext := hR [] ((seriesNodes tasks).map AsyncTask.face) hhead.faces
      simp only at h
      split_ifs at h
      · obtain ⟨hfaces, hids⟩ := reshaped_seriesRunFrom tasks
        rw [← Option.some.inj h]
        simp only [seriesNodes, List.map_append, List.map_cons, hhead.id, hids, ← hfaces]
        exact ⟨hcontext, trivial⟩
      · rw [← Option.some.inj h]
        simp only [seriesNodes, List.map_append, List.map_cons, hhead.id]
        exact ⟨hcontext, trivial⟩
    | none =>
      rw [htask] at h
      obtain ⟨r', hr', rfl⟩ := Option.map_eq_some_iff.mp h
      obtain ⟨hfaces, hids⟩ := reshaped_atSeries tasks hf.2 r' hr'
      have hcontext := hR (task.nodes.map AsyncTask.face) [] hfaces
      simp only [List.append_nil] at hcontext
      simp only [seriesNodes, List.map_append, List.map_cons, hids]
      exact ⟨hcontext, trivial⟩

theorem reshaped_atParallel : (tasks : List (List UInt8 × AsyncTask)) →
    (∀ n ∈ parallelNodes tasks, ∀ r, f n = some r → Reshaped R n r.task) →
    ∀ r, atParallel f tasks = some r →
    R ((parallelNodes tasks).map AsyncTask.face) ((parallelNodes r.task).map AsyncTask.face) ∧
      entryIds r.task = entryIds tasks
  | [], _, r, h => by
    rw [atParallel] at h
    cases h
  | (name, task) :: tasks, hf, r, h => by
    rw [parallelNodes, List.forall_mem_append] at hf
    rw [atParallel] at h
    cases htask : atTask f task with
    | some r' =>
      rw [htask] at h
      have hhead := reshaped_atTask task hf.1 r' htask
      have hcontext := hR [] ((parallelNodes tasks).map AsyncTask.face) hhead.faces
      rw [← Option.some.inj h]
      simp only [parallelNodes, List.map_append, entryIds, List.map_cons, hhead.childIds]
      exact ⟨hcontext, trivial⟩
    | none =>
      rw [htask] at h
      obtain ⟨r', hr', rfl⟩ := Option.map_eq_some_iff.mp h
      obtain ⟨hfaces, hids⟩ := reshaped_atParallel tasks hf.2 r' hr'
      have hcontext := hR (task.nodes.map AsyncTask.face) [] hfaces
      simp only [List.append_nil] at hcontext
      rw [entryIds] at hids ⊢
      simp only [parallelNodes, List.map_append, List.map_cons]
      exact ⟨hcontext, congrArg _ hids⟩

end

end Reshape

theorem reshaped_basicCallback {b : ℕ} {task : AsyncTask} {r : TaskRan AsyncTask}
    (h : basicCallback b task = some r) : Reshaped Eq task r.task := by
  rw [basicCallback.eq_def] at h
  split at h
  · split_ifs at h
    rw [← Option.some.inj h]
    exact ⟨by rw [AsyncTask.nodes, AsyncTask.nodes]; rfl, rfl, rfl⟩
  · cases h

/-! ## The children that were added -/

/-- The child `c` is added under a name: behind the children of that name, or in a new entry. -/
def EntryAdded (name : List UInt8) (c : ℕ) (d d' : List (List UInt8 × List ℕ)) : Prop :=
  (∃ front ids back, d = front ++ (name, ids) :: back ∧ d' = front ++ (name, ids ++ [c]) :: back) ∨
    ((∀ e ∈ d, e.1 ≠ name) ∧ ∃ front back, d = front ++ back ∧ d' = front ++ (name, [c]) :: back)

/-- The faces when a child is added to the parallel task `p`: there is a new entry in the face of `p`, and
there are the faces of the child, and possibly that of a new series. -/
def ChildAdded (p : ℕ) (name : List UInt8) (child : AsyncTask) (sid : ℕ)
    (a b : List (ℕ × Option (List (List UInt8 × List ℕ)))) : Prop :=
  ∃ d d', ∃ new rest : Multiset (ℕ × Option (List (List UInt8 × List ℕ))),
    EntryAdded name child.id d d' ∧ (new = 0 ∨ new = {(sid, none)}) ∧
    (a : Multiset (ℕ × Option (List (List UInt8 × List ℕ)))) = {(p, some d)} + rest ∧
    (b : Multiset (ℕ × Option (List (List UInt8 × List ℕ)))) =
      {(p, some d')} + (new + ↑(child.nodes.map AsyncTask.face) + rest)

theorem ChildAdded.context {p : ℕ} {name : List UInt8} {child : AsyncTask} {sid : ℕ}
    {a b : List (ℕ × Option (List (List UInt8 × List ℕ)))}
    (x y : List (ℕ × Option (List (List UInt8 × List ℕ)))) (h : ChildAdded p name child sid a b) :
    ChildAdded p name child sid (x ++ a ++ y) (x ++ b ++ y) := by
  obtain ⟨d, d', new, rest, hadded, hnew, ha, hb⟩ := h
  refine ⟨d, d', new, x + rest + y, hadded, hnew, ?_, ?_⟩
  · rw [← Multiset.coe_add, ← Multiset.coe_add, ha]
    abel
  · rw [← Multiset.coe_add, ← Multiset.coe_add, hb]
    abel

theorem entryIds_append (front back : List (List UInt8 × AsyncTask)) :
    entryIds (front ++ back) = entryIds front ++ entryIds back := List.map_append

theorem entryIds_cons (name : List UInt8) (task : AsyncTask) (tasks : List (List UInt8 × AsyncTask)) :
    entryIds ((name, task) :: tasks) = (name, task.childIds) :: entryIds tasks := rfl

theorem parallelNodes_append (front back : List (List UInt8 × AsyncTask)) :
    parallelNodes (front ++ back) = parallelNodes front ++ parallelNodes back := by
  induction front with
  | nil => rfl
  | cons e front ih => rw [List.cons_append, parallelNodes, parallelNodes, ih, List.append_assoc]

theorem seriesNodes_append (front back : List AsyncTask) :
    seriesNodes (front ++ back) = seriesNodes front ++ seriesNodes back := by
  induction front with
  | nil => rfl
  | cons e front ih => rw [List.cons_append, seriesNodes, seriesNodes, ih, List.append_assoc]

/-- The nodes of a series that gets a child. -/
theorem nodes_addSeriesTask (child : AsyncTask) {task : AsyncTask} (h : task.IsSeries) :
    (addSeriesTask child task).nodes.map AsyncTask.face =
        task.nodes.map AsyncTask.face ++ child.nodes.map AsyncTask.face ∧
      (addSeriesTask child task).childIds = task.childIds ++ [child.id] := by
  obtain ⟨id, status, tasks, rfl⟩ := h
  rw [addSeriesTask, AsyncTask.nodes, AsyncTask.nodes, seriesNodes_append, AsyncTask.childIds,
    AsyncTask.childIds, List.map_append]
  simp only [seriesNodes, List.append_nil, List.map_cons, List.map_append, List.map_nil, List.cons_append]
  exact ⟨rfl, trivial⟩

/-- A child is added to an entry that is there. -/
theorem addToEntry_spec {name : List UInt8} (child : AsyncTask) {tasks : List (List UInt8 × AsyncTask)}
    (hseries : ∀ e ∈ tasks, e.2.IsSeries) (hfind : (tasks.find? fun e ↦ e.1 = name) ≠ none) :
    ∃ front task back, tasks = front ++ (name, task) :: back ∧ task.IsSeries ∧
      addToEntry name child tasks = front ++ (name, addSeriesTask child task) :: back := by
  induction tasks with
  | nil => exact absurd rfl hfind
  | cons e tasks ih =>
    rw [List.forall_mem_cons] at hseries
    rw [addToEntry]
    by_cases hname : e.1 = name
    · rw [if_pos hname]
      subst hname
      exact ⟨[], e.2, tasks, rfl, hseries.1, rfl⟩
    · rw [List.find?_cons_of_neg (by simpa using hname)] at hfind
      rw [if_neg hname]
      obtain ⟨front, task, back, htasks, hkind, hadded⟩ := ih hseries.2 hfind
      exact ⟨e :: front, task, back, by rw [htasks]; rfl, hkind, by rw [hadded]; rfl⟩

/-- A new series in a parallel task. -/
theorem reshaped_insert {p : ℕ} {name : List UInt8} {child : AsyncTask} {sid : ℕ} (pos : ℕ)
    {tasks : List (List UInt8 × AsyncTask)} (hfind : (tasks.find? fun e ↦ e.1 = name) = none)
    {series : AsyncTask} (hfaces : (addSeriesTask child (.series sid .wait [])).nodes.map AsyncTask.face =
      series.nodes.map AsyncTask.face)
    (hids : series.childIds = (addSeriesTask child (.series sid .wait [])).childIds)
    (status status' : TaskStatus) (num num' : ℤ) :
    Reshaped (ChildAdded p name child sid) (.parallel p status num tasks)
      (.parallel p status' num' (tasks.take pos ++ (name, series) :: tasks.drop pos)) := by
  have hseries : AsyncTask.IsSeries (.series sid .wait []) := ⟨_, _, _, rfl⟩
  obtain ⟨hnodes, hchild⟩ := nodes_addSeriesTask child hseries
  have hids' : series.childIds = [child.id] := hids.trans hchild
  have hnodes' : series.nodes.map AsyncTask.face = (sid, none) :: child.nodes.map AsyncTask.face :=
    hfaces.symm.trans hnodes
  refine ⟨⟨entryIds tasks, _, {(sid, none)}, ↑((parallelNodes tasks).map AsyncTask.face),
    Or.inr ⟨?_, entryIds (tasks.take pos), entryIds (tasks.drop pos), ?_, rfl⟩, Or.inr rfl, rfl, ?_⟩,
    rfl, rfl⟩
  · intro e he hname
    obtain ⟨e', he', rfl⟩ := List.mem_map.mp he
    exact List.find?_eq_none.mp hfind e' he' (decide_eq_true hname)
  · rw [← entryIds_append, List.take_append_drop]
  · have hentry : entryIds (tasks.take pos ++ (name, series) :: tasks.drop pos) =
        entryIds (tasks.take pos) ++ (name, [child.id]) :: entryIds (tasks.drop pos) := by
      rw [entryIds_append, entryIds_cons, hids']
    have hsplit : parallelNodes tasks = parallelNodes (tasks.take pos) ++ parallelNodes (tasks.drop pos) := by
      rw [← parallelNodes_append, List.take_append_drop]
    rw [AsyncTask.nodes, List.map_cons, AsyncTask.face, hentry, parallelNodes_append, parallelNodes, hsplit,
      ← Multiset.cons_coe, ← Multiset.singleton_add]
    simp only [List.map_append, hnodes', ← Multiset.coe_add, ← Multiset.cons_coe, ← Multiset.singleton_add]
    abel

/-- The face of a parallel task that a child is added to. -/
theorem reshaped_addParallelTask {p : ℕ} {name : List UInt8} {child : AsyncTask} {sid pos : ℕ}
    {task : AsyncTask} {r : TaskRan AsyncTask} (h : addParallelTask p name child sid pos task = some r)
    (hseries : ∀ id status num tasks, task = .parallel id status num tasks → ∀ e ∈ tasks, e.2.IsSeries)
    (hdone : task.status ≠ .done) :
    Reshaped (ChildAdded p name child sid) task r.task := by
  cases task with
  | basic id status => cases h
  | series id status tasks => cases h
  | parallel id status num tasks =>
    have hseries := hseries id status num tasks rfl
    rw [addParallelTask] at h
    split_ifs at h with hid hstatus hfind hdoing
    · exact absurd hstatus hdone
    · -- a new series that is run at once
      subst hid
      rw [← Option.some.inj h]
      have hrun := reshaped_seriesTaskRun (addSeriesTask child (.series sid .wait []))
      exact reshaped_insert pos hfind hrun.faces hrun.childIds _ _ _ _
    · -- a new series that waits
      subst hid
      rw [← Option.some.inj h]
      exact reshaped_insert pos hfind rfl rfl _ _ _ _
    · -- a series that is there
      subst hid
      rw [← Option.some.inj h]
      obtain ⟨front, task, back, htasks, hkind, hadded⟩ := addToEntry_spec child hseries hfind
      obtain ⟨hfaces, hids⟩ := nodes_addSeriesTask child hkind
      refine ⟨⟨entryIds tasks, entryIds (addToEntry name child tasks), 0,
        ↑((parallelNodes tasks).map AsyncTask.face),
        Or.inl ⟨entryIds front, task.childIds, entryIds back, ?_, ?_⟩, Or.inl rfl, rfl, ?_⟩, rfl, rfl⟩
      · rw [htasks, entryIds_append, entryIds_cons]
      · rw [hadded, entryIds_append, entryIds_cons, hids]
      · rw [AsyncTask.nodes, List.map_cons, hadded, htasks, parallelNodes_append, parallelNodes_append,
          parallelNodes, parallelNodes, ← Multiset.cons_coe, ← Multiset.singleton_add, AsyncTask.face]
        simp only [List.map_append, hfaces, ← Multiset.coe_add]
        abel

end LatteC
