import LatteC.Foundation.CallMachine
import Mathlib.Algebra.Order.Ring.Int
import Mathlib.Tactic.SplitIfs

/-!
# Handing jobs to the task threads

`src/task/task.c`: `submitTask` tries one thread after another until one of them takes the job. The turn is
a static counter of type `int`, reduced modulo the number of threads.

## Modelling

The counter wraps around at the end of its range. One pass of the loop of `submitTask` is a step, and the
threads finish jobs in between (`SubmitTurn`); a call is one pass after another for the same job until one
is accepted. `pending` is the number of jobs in a queue, so it does not leave the range of an `int`. An
index outside of the array of threads is a fault, `none`.

## The argument

As long as the counter is not negative, its remainder is the one of the number of passes. Behind its
largest value it starts again from the smallest one, and the remainder of a negative number in C is
not positive: only a number of threads that divides it gives an index.
-/

namespace LatteC

/-- `latteThread`, as far as the submission of jobs goes. -/
structure LatteThread (J : Type) where
  sendQueue : List J
  pending : ℤ

/-- `taskThread`. -/
structure TaskThread (J : Type) where
  num : ℤ
  threads : List (LatteThread J)
  maxJobs : ℤ

variable {J : Type}

/-- `createTaskThread`. The caller sets `maxJobs`. -/
def createTaskThread (tnum maxJobs : ℤ) : TaskThread J where
  num := tnum
  threads := List.replicate tnum.toNat ⟨[], 0⟩
  maxJobs := maxJobs

/-- The check of `trySubmitTask`. -/
def TaskThread.isFull (thread : TaskThread J) (l : LatteThread J) : Bool :=
  0 < thread.maxJobs ∧ thread.maxJobs ≤ l.pending

/-- The thread behind `l` has one more job to do. -/
def LatteThread.submit (l : LatteThread J) (t : J) : LatteThread J where
  sendQueue := l.sendQueue ++ [t]
  pending := l.pending + 1

/-- The part of `taskProcess` behind a job. Without a job the thread waits. -/
def LatteThread.finish (l : LatteThread J) : LatteThread J :=
  if l.sendQueue.isEmpty then l else ⟨l.sendQueue.tail, l.pending - 1⟩

/-- `trySubmitTask`. -/
def trySubmitTask (thread : TaskThread J) (i : ℤ) (t : J) : Option (TaskThread J × Bool) :=
  if 0 ≤ i then
    (thread.threads[i.toNat]?).map fun l ↦
      if thread.isFull l then (thread, false)
      else ({ thread with threads := thread.threads.set i.toNat (l.submit t) }, true)
  else none

/-- The threads and the static variable of `submitTask`. -/
structure TaskSubmitter (J : Type) where
  i : ℤ
  thread : TaskThread J

/-- Before the first call of `submitTask`. -/
def taskSubmitterNew (thread : TaskThread J) : TaskSubmitter J := ⟨-1, thread⟩

/-- `i++` for an `int`. -/
def intSucc (i : ℤ) : ℤ := (i + 1).bmod (2 ^ 32)

/-- One pass of the loop of `submitTask`, with the index that it tries. -/
def submitTaskPass (s : TaskSubmitter J) (t : J) : Option (TaskSubmitter J × ℤ × Bool) :=
  let i := intSucc s.i
  let index := i.tmod s.thread.num
  (trySubmitTask s.thread index t).map fun r ↦ (⟨i, r.1⟩, index, r.2)

/-- What happens next. -/
inductive SubmitTurn (J : Type) where
  /-- A pass of the loop, for the job `t`. -/
  | pass (t : J)
  /-- The thread with the number `w` has executed its oldest job. -/
  | finished (w : ℕ)

/-- One turn, with the index tried and whether the job was accepted. -/
def submitStep (s : TaskSubmitter J) : SubmitTurn J → Option (TaskSubmitter J × Option (ℤ × Bool))
  | .pass t => (submitTaskPass s t).map fun r ↦ (r.1, some r.2)
  | .finished w => some ({ s with thread := { s.thread with
      threads := s.thread.threads.modify w LatteThread.finish } }, none)

/-- The number of passes in a run. -/
def submitPasses (turns : List (SubmitTurn J)) : ℕ :=
  turns.countP fun | .pass _ => true | .finished _ => false

/-- A pass tries the thread behind the one of the pass before it, inside of the array. The job is
accepted unless this thread is full. -/
def PassInTurn (s : TaskSubmitter J) : SubmitTurn J → Prop
  | .pass t => ∃ s' index accepted, submitTaskPass s t = some (s', index, accepted) ∧
      0 ≤ index ∧ index < s.thread.num ∧ index = (s.i.tmod s.thread.num + 1) % s.thread.num ∧
      (accepted = false → ∃ l, s.thread.threads[index.toNat]? = some l ∧ s.thread.isFull l = true)
  | .finished _ => True

/-! ## One pass -/

/-- What the counter has to do with it. -/
def IndexInTurn (num i : ℤ) : Prop :=
  0 ≤ (intSucc i).tmod num ∧ (intSucc i).tmod num < num ∧ (intSucc i).tmod num = (i.tmod num + 1) % num

/-- The array has as many threads as it says. -/
def TaskSubmitter.Wf (num : ℤ) (s : TaskSubmitter J) : Prop :=
  s.thread.num = num ∧ s.thread.threads.length = num.toNat

section Passes

variable {num : ℤ} {s : TaskSubmitter J}

/-- An index inside of the array is tried, and the counter goes on. -/
theorem submitTaskPass_of_index (h : s.Wf num) (t : J) (hpos : 0 ≤ (intSucc s.i).tmod num)
    (hlt : (intSucc s.i).tmod num < num) : ∃ s' accepted,
      submitTaskPass s t = some (s', (intSucc s.i).tmod num, accepted) ∧ s'.Wf num ∧ s'.i = intSucc s.i ∧
      (accepted = false → ∃ l, s.thread.threads[((intSucc s.i).tmod num).toNat]? = some l ∧
        s.thread.isFull l = true) := by
  obtain ⟨hnum, hlen⟩ := h
  obtain ⟨index, hindex⟩ : ∃ index, (intSucc s.i).tmod num = index := ⟨_, rfl⟩
  rw [hindex] at hpos hlt ⊢
  obtain ⟨l, hl⟩ : ∃ l, s.thread.threads[index.toNat]? = some l :=
    ⟨_, List.getElem?_eq_getElem (by omega)⟩
  rw [submitTaskPass, hnum, hindex, trySubmitTask, if_pos hpos, hl]
  simp only [Option.map_some]
  split_ifs with hfull
  · exact ⟨_, false, rfl, ⟨hnum, hlen⟩, rfl, fun _ ↦ ⟨l, rfl, hfull⟩⟩
  · refine ⟨_, true, rfl, ⟨hnum, ?_⟩, rfl, fun h ↦ Bool.noConfusion h⟩
    rw [List.length_set]
    exact hlen

theorem passInTurn_iff (h : s.Wf num) (t : J) : PassInTurn s (.pass t) ↔ IndexInTurn num s.i := by
  rw [PassInTurn, h.1]
  constructor
  · rintro ⟨s', index, accepted, hpass, hpos, hlt, heq, -⟩
    have hindex : index = (intSucc s.i).tmod num := by
      rw [submitTaskPass, Option.map_eq_some_iff] at hpass
      obtain ⟨r, -, hr⟩ := hpass
      rw [← h.1]
      exact (congrArg (fun p ↦ p.2.1) hr).symm
    rw [hindex] at hpos hlt heq
    exact ⟨hpos, hlt, heq⟩
  · rintro ⟨hpos, hlt, heq⟩
    obtain ⟨s', accepted, hpass, -, -, hfull⟩ := submitTaskPass_of_index h t hpos hlt
    exact ⟨s', _, accepted, hpass, hpos, hlt, heq, hfull⟩

theorem TaskSubmitter.Wf.finished (h : s.Wf num) (w : ℕ) :
    ({ s with thread := { s.thread with
      threads := s.thread.threads.modify w LatteThread.finish } } : TaskSubmitter J).Wf num :=
  ⟨h.1, (List.length_modify _ _ _).trans h.2⟩

end Passes

/-! ## Runs -/

/-- Whether a run keeps to the turn depends on the counter only. -/
theorem guarded_passInTurn_iff {num : ℤ} (turns : List (SubmitTurn J)) {s : TaskSubmitter J}
    (h : s.Wf num) : CallMachine.Guarded PassInTurn submitStep s turns ↔
      ∀ k < submitPasses turns, IndexInTurn num (intSucc^[k] s.i) := by
  induction turns generalizing s with
  | nil => simp [CallMachine.Guarded, submitPasses]
  | cons turn turns ih =>
    cases turn with
    | finished w =>
      have hpasses : submitPasses (.finished w :: turns) = submitPasses turns := rfl
      rw [hpasses, ← ih (h.finished w)]
      constructor
      · exact fun hrun ↦ hrun.2 _ _ rfl
      · refine fun hrun ↦ ⟨trivial, fun s' o hstep ↦ ?_⟩
        rw [submitStep, Option.some.injEq, Prod.mk.injEq] at hstep
        exact hstep.1 ▸ hrun
    | pass t =>
      have hpasses : submitPasses (.pass t :: turns) = submitPasses turns + 1 := List.countP_cons_of_pos rfl
      rw [hpasses, Nat.forall_lt_succ_left, CallMachine.Guarded, passInTurn_iff h]
      refine and_congr_right fun hindex ↦ ?_
      obtain ⟨s', accepted, hpass, hwf, hi, -⟩ := submitTaskPass_of_index h t hindex.1 hindex.2.1
      have hstep : submitStep s (.pass t) = some (s', some ((intSucc s.i).tmod num, accepted)) := by
        rw [submitStep, hpass, Option.map_some]
      have hrest := ih hwf
      rw [hi] at hrest
      constructor
      · exact fun hrun ↦ hrest.mp (hrun s' _ hstep)
      · intro hturns s'' o hstep'
        rw [hstep, Option.some.injEq, Prod.mk.injEq] at hstep'
        exact hstep'.1 ▸ hrest.mpr hturns

/-! ## The counter -/

theorem iterate_intSucc (k : ℕ) : intSucc^[k] (-1) = ((k : ℤ) - 1).bmod (2 ^ 32) := by
  induction k with
  | zero => rfl
  | succ k ih =>
    rw [Function.iterate_succ_apply', ih, intSucc, Int.bmod_add_bmod]
    congr 1
    push_cast
    omega

/-- Up to its largest value the counter is the number of passes. -/
theorem iterate_intSucc_of_le {k : ℕ} (hk : k ≤ 2 ^ 31) : intSucc^[k] (-1) = (k : ℤ) - 1 := by
  rw [iterate_intSucc]
  exact Int.bmod_eq_of_le_mul_two (by push_cast; omega) (by push_cast; omega)

theorem iterate_intSucc_wrap : intSucc^[2 ^ 31 + 1] (-1) = -2 ^ 31 := by
  rw [iterate_intSucc]
  rfl

theorem indexInTurn_one (i : ℤ) : IndexInTurn 1 i := by
  rw [IndexInTurn, Int.tmod_one, Int.tmod_one]
  exact ⟨le_rfl, one_pos, rfl⟩

theorem indexInTurn_of_lt {num : ℤ} (hnum : 1 < num) {k : ℕ} (hk : k < 2 ^ 31) :
    IndexInTurn num (intSucc^[k] (-1)) := by
  have hsucc : intSucc (intSucc^[k] (-1)) = k := by
    rw [← Function.iterate_succ_apply' intSucc, iterate_intSucc_of_le hk]
    push_cast
    omega
  rw [IndexInTurn, hsucc, Int.tmod_eq_emod_of_nonneg (by omega), iterate_intSucc_of_le hk.le]
  refine ⟨Int.emod_nonneg _ (by omega), Int.emod_lt_of_pos _ (by omega), ?_⟩
  cases k with
  | zero =>
    have hfirst : ((0 : ℕ) - 1 : ℤ).tmod num = -1 := by
      rw [Nat.cast_zero, zero_sub, Int.neg_tmod, Int.tmod_eq_emod_of_nonneg one_pos.le,
        Int.emod_eq_of_lt one_pos.le hnum]
    rw [hfirst]
    rfl
  | succ k =>
    push_cast
    rw [add_sub_cancel_right, Int.tmod_eq_emod_of_nonneg (by omega), Int.emod_add_emod]

/-- The pass at which the counter starts again. -/
theorem indexInTurn_wrap_iff {num : ℤ} (hnum : 1 ≤ num) :
    IndexInTurn num (intSucc^[2 ^ 31] (-1)) ↔ num ∣ 2 ^ 31 := by
  rw [IndexInTurn, ← Function.iterate_succ_apply' intSucc, iterate_intSucc_wrap, Int.neg_tmod,
    iterate_intSucc_of_le le_rfl]
  have hpos : 0 ≤ (2 ^ 31 : ℤ).tmod num := Int.tmod_nonneg _ (by decide)
  constructor
  · rintro ⟨hneg, -, -⟩
    exact Int.dvd_of_tmod_eq_zero (by omega)
  · intro hdvd
    have hprev : ((((2 ^ 31 : ℕ) : ℤ) - 1).tmod num + 1) % num = 0 := by
      rw [Int.tmod_eq_emod_of_nonneg (by decide), Int.emod_add_emod]
      exact Int.emod_eq_zero_of_dvd hdvd
    rw [Int.tmod_eq_zero_of_dvd hdvd, hprev]
    exact ⟨le_rfl, by omega, rfl⟩

/-- The pass behind it. -/
theorem eq_one_of_indexInTurn {num : ℤ} (hnum : 1 ≤ num) (hdvd : num ∣ 2 ^ 31)
    (h : IndexInTurn num (intSucc^[2 ^ 31 + 1] (-1))) : num = 1 := by
  have hnext : intSucc (intSucc^[2 ^ 31 + 1] (-1)) = -(2 ^ 31 - 1) := by
    rw [iterate_intSucc_wrap]
    rfl
  have hpos : 0 ≤ (2 ^ 31 - 1 : ℤ).tmod num := Int.tmod_nonneg _ (by decide)
  have hneg := h.1
  rw [hnext, Int.neg_tmod] at hneg
  have hpred : num ∣ 2 ^ 31 - 1 := Int.dvd_of_tmod_eq_zero (by omega)
  have hone : num ∣ 1 := by
    have hsub := Int.dvd_sub hdvd hpred
    rwa [sub_sub_cancel] at hsub
  exact le_antisymm (Int.le_of_dvd one_pos hone) hnum

/-- For how many passes the turn is kept. -/
theorem forall_indexInTurn_iff {num : ℤ} (hnum : 1 ≤ num) (m : ℕ) :
    (∀ k < m, IndexInTurn num (intSucc^[k] (-1))) ↔
      m ≤ 2 ^ 31 ∨ num = 1 ∨ (num ∣ 2 ^ 31 ∧ m ≤ 2 ^ 31 + 1) := by
  constructor
  · intro h
    by_cases hshort : m ≤ 2 ^ 31
    · exact Or.inl hshort
    have hdvd := (indexInTurn_wrap_iff hnum).mp (h _ (not_le.mp hshort))
    by_cases hlast : m ≤ 2 ^ 31 + 1
    · exact Or.inr (Or.inr ⟨hdvd, hlast⟩)
    · exact Or.inr (Or.inl (eq_one_of_indexInTurn hnum hdvd (h _ (not_le.mp hlast))))
  · intro h k hk
    rcases eq_or_lt_of_le hnum with rfl | hone
    · exact indexInTurn_one _
    rcases h with hshort | rfl | ⟨hdvd, hlast⟩
    · exact indexInTurn_of_lt hone (hk.trans_le hshort)
    · exact absurd hone (lt_irrefl _)
    · rcases lt_or_ge k (2 ^ 31) with hlt | hge
      · exact indexInTurn_of_lt hone hlt
      · obtain rfl : k = 2 ^ 31 := by omega
        exact (indexInTurn_wrap_iff hnum).mpr hdvd

theorem taskSubmitterNew_wf (num maxJobs : ℤ) :
    (taskSubmitterNew (createTaskThread num maxJobs) : TaskSubmitter J).Wf num :=
  ⟨rfl, List.length_replicate⟩

/-- **Jobs are handed to one thread after the other** until the counter wraps around. In a run with any
number of jobs finished in between, every pass tries the next thread modulo the number of threads, and
the job is accepted unless that thread is full, if and only if there are no more than `2 ^ 31` passes,
or there is only one thread. If the number of threads divides `2 ^ 31` there may be one pass more. -/
theorem submitTask_run {num : ℤ} (hnum : 1 ≤ num) (maxJobs : ℤ) (turns : List (SubmitTurn J)) :
    CallMachine.Guarded PassInTurn submitStep (taskSubmitterNew (createTaskThread num maxJobs)) turns ↔
      submitPasses turns ≤ 2 ^ 31 ∨ num = 1 ∨ (num ∣ 2 ^ 31 ∧ submitPasses turns ≤ 2 ^ 31 + 1) := by
  rw [guarded_passInTurn_iff turns (taskSubmitterNew_wf num maxJobs)]
  exact forall_indexInTurn_iff hnum _

theorem submitTask_run_three : CallMachine.Guarded PassInTurn submitStep
      (taskSubmitterNew (createTaskThread 3 1)) [.pass 'a', .pass 'b', .finished 0, .pass 'c', .pass 'd'] ↔
    4 ≤ 2 ^ 31 ∨ (3 : ℤ) = 1 ∨ ((3 : ℤ) ∣ 2 ^ 31 ∧ 4 ≤ 2 ^ 31 + 1) :=
  submitTask_run (by decide) 1 _

/-- With three threads the pass number `2 ^ 31`, the first with a negative counter, leaves the array. -/
theorem not_submitTask_run : ¬∀ (num maxJobs : ℤ) (turns : List (SubmitTurn Char)), 1 ≤ num →
    CallMachine.Guarded PassInTurn submitStep (taskSubmitterNew (createTaskThread num maxJobs)) turns := by
  intro h
  have hrun := h 3 0 (List.replicate (2 ^ 31 + 1) (.pass 'a')) (by decide)
  rw [guarded_passInTurn_iff _ (taskSubmitterNew_wf 3 0)] at hrun
  have hpasses : submitPasses (List.replicate (2 ^ 31 + 1) (SubmitTurn.pass 'a')) = 2 ^ 31 + 1 := by
    rw [submitPasses, List.countP_replicate, if_pos rfl]
  have hdvd := (indexInTurn_wrap_iff (by decide)).mp (hrun (2 ^ 31) (by rw [hpasses]; exact Nat.lt_succ_self _))
  exact absurd hdvd (by decide)

end LatteC
