import LatteC.Foundation.CallMachine
import LatteC.Vector.Places
import Mathlib.Data.Multiset.Filter

/-!
# Jobs that run now and then

`src/server/cron.c`: a cron is run in every `period`th turn of the server's timer.

## Modelling

A pointer to a cron is an element of `C`, and `cron` says what stands there; `NULL` is `none`. The functions
that are called do not call the manager. The indices are of type `int`, so that a vector has fewer than `2 ^
31` places.
-/

namespace LatteC

open Block

/-! ## The manager -/

/-- `cron_t`. -/
structure Cron (F : Type) where
  period : ℤ
  fn : Option F

/-- `cron_manager_t`. -/
structure CronManager (C : Type) where
  cronLoops : ℤ
  crons : LatteVector (Option C)

variable {C F : Type}

/-- `cron_manager_new`. -/
def cronManagerNew : CronManager C := ⟨0, vectorNew⟩

/-- The loop of `cron_manager_run`: the crons whose functions are called. A `period` of 0 divides by zero. -/
def cronManagerRunLoop (cron : C → Cron F) (loops : ℤ) (crons : LatteVector (Option C)) :
    (k i : ℕ) → Option (List C)
  | 0, _ => some []
  | k + 1, i =>
    (vectorGet crons i).bind fun x ↦
      match x.join with
      | none => cronManagerRunLoop cron loops crons k (i + 1)
      | some c =>
        if (cron c).fn.isNone then cronManagerRunLoop cron loops crons k (i + 1)
        else if (cron c).period = 0 then none
        else if loops.tmod (cron c).period = 0 then
          (cronManagerRunLoop cron loops crons k (i + 1)).map fun called ↦ c :: called
        else cronManagerRunLoop cron loops crons k (i + 1)

/-- `cron_manager_run`. Neither the index nor `cron_loops` may overflow. -/
def cronManagerRun (cron : C → Cron F) (m : CronManager C) : Option (CronManager C × List C) :=
  if m.crons.count < 2 ^ 31 ∧ m.cronLoops < 2 ^ 63 - 1 then
    (cronManagerRunLoop cron m.cronLoops m.crons m.crons.count 0).map fun called ↦
      ({ m with cronLoops := m.cronLoops + 1 }, called)
  else none

/-- A call of the manager. -/
inductive CronCall (C : Type)
  | addCron (c : C)
  | removeCron (c : C)
  | run

/-! ## One turn -/

/-- A cron is called in this turn. -/
def cronDue (cron : C → Cron F) (n : ℕ) (c : C) : Bool :=
  (cron c).fn.isSome && decide ((cron c).period ∣ (n : ℤ))

/-- The crons in a vector. -/
def cronsOf (xs : List (Option C)) : Multiset C := (xs.filterMap id : List C)

/-- A cron with a function has a `period` to divide by. -/
def Cron.Good (cron : Cron F) : Prop := cron.fn ≠ none → cron.period ≠ 0

variable {cron : C → Cron F}

theorem cronManagerRunLoop_spec (n : ℕ) {v : LatteVector (Option C)} {A ys : List (Option C)}
    (h : v.Holds (A ++ ys)) (hgood : ∀ c, some c ∈ ys → (cron c).Good) :
    cronManagerRunLoop cron n v ys.length A.length = some ((ys.filterMap id).filter (cronDue cron n)) := by
  induction ys generalizing A with
  | nil => rfl
  | cons y ys ih =>
    have hget : vectorGet v A.length = some (some y) := by
      rw [h.get, getElem?_length_append]
    have hrest : cronManagerRunLoop cron n v ys.length (A.length + 1) =
        some ((ys.filterMap id).filter (cronDue cron n)) := by
      have hys := ih (A := A ++ [y]) (by rw [List.append_assoc]; exact h)
        fun c hc ↦ hgood c (List.mem_cons_of_mem y hc)
      rw [List.length_append, List.length_singleton] at hys
      exact hys
    rw [List.length_cons, cronManagerRunLoop, hget, Option.bind_some]
    cases y with
    | none => exact hrest
    | some c =>
      have hjoin : (some (some c)).join = some c := rfl
      have hcons : (some c :: ys).filterMap id = c :: ys.filterMap id := rfl
      simp only [hjoin]
      rw [hcons, hrest, List.filter_cons]
      cases hfn : (cron c).fn with
      | none =>
        have hdue : cronDue cron n c = false := by rw [cronDue, hfn]; rfl
        rw [hdue]
        rfl
      | some f =>
        have hperiod : (cron c).period ≠ 0 :=
          hgood c List.mem_cons_self (by rw [hfn]; exact Option.some_ne_none f)
        have hdue : cronDue cron n c = decide ((cron c).period ∣ (n : ℤ)) := by rw [cronDue, hfn]; rfl
        have hsome : ¬ (some f).isNone = true := Bool.false_ne_true
        rw [if_neg hsome, if_neg hperiod, hdue]
        by_cases hdvd : (cron c).period ∣ (n : ℤ)
        · rw [if_pos (Int.tmod_eq_zero_of_dvd hdvd), decide_eq_true hdvd, if_pos rfl, Option.map_some]
        · rw [if_neg (mt Int.dvd_of_tmod_eq_zero hdvd), decide_eq_false hdvd]
          rfl

theorem cronsOf_free (A B : List (Option C)) (c : C) :
    cronsOf (A ++ some c :: B) = c ::ₘ cronsOf (A ++ none :: B) := by
  have hnone : (A ++ none :: B).filterMap id = A.filterMap id ++ B.filterMap id := List.filterMap_append
  have hsome : (A ++ some c :: B).filterMap id = A.filterMap id ++ c :: B.filterMap id := List.filterMap_append
  rw [cronsOf, cronsOf, hnone, hsome, Multiset.cons_coe]
  exact Multiset.coe_eq_coe.mpr List.perm_middle

theorem cronsOf_concat (xs : List (Option C)) (c : C) : cronsOf (xs ++ [some c]) = c ::ₘ cronsOf xs := by
  have hsome : (xs ++ [some c]).filterMap id = xs.filterMap id ++ [c] := List.filterMap_append
  rw [cronsOf, cronsOf, hsome, Multiset.cons_coe]
  exact Multiset.coe_eq_coe.mpr (List.perm_append_singleton c _)

theorem mem_cronsOf {xs : List (Option C)} {c : C} : c ∈ cronsOf xs ↔ some c ∈ xs := by
  rw [cronsOf, Multiset.mem_coe, List.mem_filterMap]
  exact ⟨fun ⟨_, hx, heq⟩ ↦ heq ▸ hx, fun hc ↦ ⟨some c, hc, rfl⟩⟩

/-! ## Sequences of calls -/

variable [DecidableEq C]

/-- `cron_manager_add_cron`, `cron_manager_remove_cron` and `cron_manager_run`, with the crons that are
called. -/
def cronStep (M : Allocator (Option C)) (cron : C → Cron F) (m : CronManager C) :
    CronCall C → Option (CronManager C × Multiset C)
  | .addCron c => (vectorAdd M m.crons (some c)).map fun r ↦ ({ m with crons := r.1 }, 0)
  | .removeCron c => (vectorRemove m.crons (some c)).map fun crons ↦ ({ m with crons := crons }, 0)
  | .run => (cronManagerRun cron m).map fun r ↦ (r.1, (r.2 : Multiset C))

/-- What the calls have to answer, from the `n`th turn on and with the crons `registered`: of those that
were added more often than once each is called as often, and one that is removed is gone. -/
def cronCalled (cron : C → Cron F) : (n : ℕ) → (registered : Multiset C) → List (CronCall C) → List (Multiset C)
  | _, _, [] => []
  | n, registered, .addCron c :: calls => 0 :: cronCalled cron n (c ::ₘ registered) calls
  | n, registered, .removeCron c :: calls => 0 :: cronCalled cron n (registered.filter (· ≠ c)) calls
  | n, registered, .run :: calls =>
    registered.filter (fun c ↦ cronDue cron n c = true) :: cronCalled cron (n + 1) registered calls

theorem cronsOf_clearPlace (xs : List (Option C)) (c : C) :
    cronsOf (xs.map (clearPlace (some c))) = (cronsOf xs).filter (· ≠ c) := by
  rw [cronsOf, cronsOf, Multiset.filter_coe]
  congr 1
  induction xs with
  | nil => rfl
  | cons x xs ih =>
    cases x with
    | none => exact ih
    | some d =>
      have hcons : (some d :: xs).filterMap id = d :: xs.filterMap id := rfl
      rw [List.map_cons, hcons, List.filter_cons, clearPlace]
      by_cases hd : d = c
      · rw [if_pos (congrArg some hd), if_neg (by simpa using hd)]
        exact ih
      · rw [if_neg (mt Option.some.inj hd), if_pos (by simpa using hd), ← ih]
        rfl

/-- The manager is in its `n`th turn and has the crons `registered`. `k` bounds the places and the turns so
far. -/
structure CronManager.Serves (m : CronManager C) (n k : ℕ) (registered : Multiset C) : Prop where
  loops_eq : m.cronLoops = n
  turns_le : n ≤ k
  holds : ∃ xs, m.crons.Holds xs ∧ cronsOf xs = registered ∧ xs.length ≤ k

section Serves

variable {m : CronManager C} {n k : ℕ} {registered : Multiset C}

theorem CronManager.Serves.addCron (M : Allocator (Option C)) (cron : C → Cron F) (h : m.Serves n k registered)
    (c : C) :
    ∃ m', cronStep M cron m (.addCron c) = some (m', 0) ∧ m'.Serves n (k + 1) (c ::ₘ registered) := by
  obtain ⟨xs, hholds, hxs, hlen⟩ := h.holds
  have hturns : n ≤ k + 1 := h.turns_le.trans (Nat.le_succ k)
  obtain ⟨A, B, v, rfl, -, hadd, hv⟩ | ⟨-, v, hadd, hv⟩ := hholds.add M (some c)
  · refine ⟨{ m with crons := v }, by rw [cronStep, hadd, Option.map_some], h.loops_eq, hturns, _, hv, ?_, ?_⟩
    · rw [cronsOf_free, hxs]
    · rw [List.length_append, List.length_cons] at hlen ⊢
      exact hlen.trans (Nat.le_succ k)
  · refine ⟨{ m with crons := v }, by rw [cronStep, hadd, Option.map_some], h.loops_eq, hturns, _, hv, ?_, ?_⟩
    · rw [cronsOf_concat, hxs]
    · rw [List.length_append, List.length_singleton]
      exact Nat.succ_le_succ hlen

theorem CronManager.Serves.removeCron (M : Allocator (Option C)) (cron : C → Cron F) (h : m.Serves n k registered)
    (c : C) :
    ∃ m', cronStep M cron m (.removeCron c) = some (m', 0) ∧
      m'.Serves n (k + 1) (registered.filter (· ≠ c)) := by
  obtain ⟨xs, hholds, hxs, hlen⟩ := h.holds
  obtain ⟨v, hremove, hv⟩ := hholds.remove (some c)
  refine ⟨{ m with crons := v }, by rw [cronStep, hremove, Option.map_some], h.loops_eq,
    h.turns_le.trans (Nat.le_succ k), _, hv, ?_, ?_⟩
  · rw [cronsOf_clearPlace, hxs]
  · rw [List.length_map]
    exact hlen.trans (Nat.le_succ k)

/-- **One turn** calls the crons that are due. -/
theorem CronManager.Serves.run (M : Allocator (Option C)) (h : m.Serves n k registered) (hk : k < 2 ^ 31)
    (hgood : ∀ c ∈ registered, (cron c).Good) :
    ∃ m', cronStep M cron m .run = some (m', registered.filter fun c ↦ cronDue cron n c = true) ∧
      m'.Serves (n + 1) (k + 1) registered := by
  obtain ⟨xs, hholds, rfl, hlen⟩ := h.holds
  have hbounds : m.crons.count < 2 ^ 31 ∧ m.cronLoops < 2 ^ 63 - 1 := by
    have hturns := h.turns_le
    rw [hholds.count_eq, h.loops_eq]
    omega
  have hloop : cronManagerRunLoop cron m.cronLoops m.crons m.crons.count 0 =
      some ((xs.filterMap id).filter (cronDue cron n)) := by
    rw [hholds.count_eq, h.loops_eq]
    exact cronManagerRunLoop_spec (A := []) n hholds fun c hc ↦ hgood c (mem_cronsOf.mpr hc)
  refine ⟨{ m with cronLoops := m.cronLoops + 1 }, ?_, ?_, Nat.succ_le_succ h.turns_le, xs, hholds, rfl,
    hlen.trans (Nat.le_succ k)⟩
  · rw [cronStep, cronManagerRun, if_pos hbounds, hloop, Option.map_some, Option.map_some, cronsOf,
      Multiset.filter_coe]
    congr 3
    exact List.filter_congr fun c _ ↦ Bool.decide_eq_true.symm
  · rw [Nat.cast_succ, ← h.loops_eq]

end Serves

/-- From any state. -/
theorem cronStep_run (M : Allocator (Option C)) {calls : List (CronCall C)} :
    ∀ {m : CronManager C} {n k : ℕ} {registered : Multiset C}, m.Serves n k registered →
      k + calls.length < 2 ^ 31 → (∀ c ∈ registered, (cron c).Good) →
      (∀ c, CronCall.addCron c ∈ calls → (cron c).Good) →
      ∃ m', CallMachine.run (cronStep M cron) m calls = some (m', cronCalled cron n registered calls) := by
  induction calls with
  | nil => exact fun {m} _ _ _ _ _ _ _ ↦ ⟨m, rfl⟩
  | cons call calls ih =>
    intro m n k registered hserves hshort hgood hadds
    rw [List.length_cons, Nat.add_comm calls.length, ← Nat.add_assoc] at hshort
    have hadds' : ∀ c, CronCall.addCron c ∈ calls → (cron c).Good :=
      fun c hc ↦ hadds c (List.mem_cons_of_mem _ hc)
    cases call with
    | addCron c =>
      obtain ⟨m₁, hstep, hserves₁⟩ := hserves.addCron M cron c
      have hgood₁ : ∀ d ∈ c ::ₘ registered, (cron d).Good := fun d hd ↦ by
        obtain rfl | hmem := Multiset.mem_cons.mp hd
        · exact hadds d List.mem_cons_self
        · exact hgood d hmem
      obtain ⟨m', hrun⟩ := ih hserves₁ hshort hgood₁ hadds'
      exact ⟨m', by rw [CallMachine.run_cons_of_step hstep, hrun]; rfl⟩
    | removeCron c =>
      obtain ⟨m₁, hstep, hserves₁⟩ := hserves.removeCron M cron c
      have hgood₁ : ∀ d ∈ registered.filter (· ≠ c), (cron d).Good := fun d hd ↦
        hgood d (Multiset.mem_of_mem_filter hd)
      obtain ⟨m', hrun⟩ := ih hserves₁ hshort hgood₁ hadds'
      exact ⟨m', by rw [CallMachine.run_cons_of_step hstep, hrun]; rfl⟩
    | run =>
      obtain ⟨m₁, hstep, hserves₁⟩ := hserves.run M (by omega) hgood
      obtain ⟨m', hrun⟩ := ih hserves₁ hshort hgood hadds'
      exact ⟨m', by rw [CallMachine.run_cons_of_step hstep, hrun]; rfl⟩

/-- **The crons that are called.** Whatever is added, removed and run, in any order, each turn calls the
crons that were added and not removed since, each as often as it was added, whose `period` divides the
number of the turn. -/
theorem cronManager_run (M : Allocator (Option C)) {calls : List (CronCall C)}
    (hshort : calls.length < 2 ^ 31) (hgood : ∀ c, CronCall.addCron c ∈ calls → (cron c).Good) :
    ∃ m, CallMachine.run (cronStep M cron) cronManagerNew calls = some (m, cronCalled cron 0 0 calls) :=
  cronStep_run M (k := 0) ⟨rfl, le_rfl, [], LatteVector.Holds.new, rfl, le_rfl⟩
    (by rw [Nat.zero_add]; exact hshort)
    (fun c hc ↦ absurd hc (Multiset.notMem_zero c)) hgood

theorem cronManager_run_two :
    ∃ m, CallMachine.run (cronStep (Allocator.fill none) fun c : ℕ ↦ (⟨2, some c⟩ : Cron ℕ)) cronManagerNew
        [.addCron 7, .addCron 8, .run, .removeCron 7, .run, .addCron 9, .run] =
      some (m, cronCalled (fun c : ℕ ↦ (⟨2, some c⟩ : Cron ℕ)) 0 0
        [.addCron 7, .addCron 8, .run, .removeCron 7, .run, .addCron 9, .run]) :=
  cronManager_run (Allocator.fill none) (by decide) fun _ _ _ ↦ two_ne_zero

end LatteC
