import LatteC.Coroutine.Runs

/-!
# Deadlock

When an outermost `latte_go` returns. A coroutine that waits for a positive counter goes through the queue
again and again; every other turn of a coroutine uses up a part of a body. The bodies are finite, so the
scheduler comes to its end unless all coroutines that are alive wait, and then nothing changes any more but
the order of the queue.
-/

namespace LatteC

open CoroSystem StepMachine

variable {α W : Type*}

/-! ## What is left to do -/

/-- The size of a body, with what it will pass to `latte_go`. -/
def CoroBody.weight : CoroBody α W → ℕ
  | .done => 1
  | .act _ next => next.weight + 1
  | .yield next => next.weight + 1
  | .go fn next => fn.weight + next.weight + 1
  | .add _ _ next => next.weight + 1
  | .wait _ next => next.weight + 1

/-- The context of a coroutine that is alive. -/
def CoroSystem.ctxOf (s : CoroSystem α W) (c : ℕ) : Option (CoroBody α W) := (s.heap c).map Coroutine.ctx

/-- The size of what a coroutine has still to do. -/
def CoroSystem.weightOf (s : CoroSystem α W) (c : ℕ) : ℕ := (s.ctxOf c).elim 0 CoroBody.weight

/-- The size of what all coroutines have still to do. -/
def CoroSystem.heapLoad (s : CoroSystem α W) : ℕ := ((List.range s.bodies.length).map s.weightOf).sum

/-- The same, with the coroutine that is not there yet. -/
def CoroSystem.load (s : CoroSystem α W) : ℕ := s.heapLoad + s.pendingFn.elim 0 CoroBody.weight

theorem sum_map_range_update (f : ℕ → ℕ) {c n : ℕ} (hc : c < n) (w : ℕ) :
    ((List.range n).map (Function.update f c w)).sum + f c = ((List.range n).map f).sum + w := by
  induction n with
  | zero => exact absurd hc (Nat.not_lt_zero c)
  | succ n ih =>
    simp only [List.range_succ, List.map_append, List.map_cons, List.map_nil, List.sum_append, List.sum_singleton]
    obtain hlt | rfl := Nat.lt_succ_iff_lt_or_eq.mp hc
    · rw [Function.update_of_ne hlt.ne', Nat.add_right_comm, ih hlt, Nat.add_right_comm]
    · rw [Function.update_self]
      have hsame : (List.range c).map (Function.update f c w) = (List.range c).map f :=
        List.map_congr_left fun d hd ↦ Function.update_of_ne (List.mem_range.mp hd).ne w f
      rw [hsame, Nat.add_right_comm]

section Load

variable {s : CoroSystem α W} {c : ℕ} {r : Coroutine α W}

theorem ctxOf_of_heap (hc : s.heap c = some r) : s.ctxOf c = some r.ctx := by
  rw [ctxOf, hc, Option.map_some]

theorem ctxOf_store (s : CoroSystem α W) (c : ℕ) (r : Coroutine α W) :
    (store s c r).ctxOf = Function.update s.ctxOf c (some r.ctx) := by
  funext d
  rw [ctxOf, heap_store]
  by_cases hd : d = c
  · subst hd
    rw [Function.update_self, Function.update_self, Option.map_some]
  · rw [Function.update_of_ne hd, Function.update_of_ne hd, ctxOf]

/-- A coroutine that only changes its state. -/
theorem ctxOf_store_same (hc : s.heap c = some r) (r' : Coroutine α W) (hctx : r'.ctx = r.ctx) :
    (store s c r').ctxOf = s.ctxOf := by
  rw [ctxOf_store, hctx, ← ctxOf_of_heap hc, Function.update_eq_self]

theorem weightOf_store (s : CoroSystem α W) (c : ℕ) (r : Coroutine α W) :
    (store s c r).weightOf = Function.update s.weightOf c r.ctx.weight := by
  funext d
  rw [weightOf, ctxOf_store]
  by_cases hd : d = c
  · subst hd
    rw [Function.update_self, Function.update_self, Option.elim_some]
  · rw [Function.update_of_ne hd, Function.update_of_ne hd, weightOf]

theorem weightOf_release (s : CoroSystem α W) (c : ℕ) :
    (release s c).weightOf = Function.update s.weightOf c 0 := by
  funext d
  rw [weightOf, ctxOf, heap_release]
  by_cases hd : d = c
  · subst hd
    rw [Function.update_self, Function.update_self, Option.map_none, Option.elim_none]
  · rw [Function.update_of_ne hd, Function.update_of_ne hd, weightOf, ctxOf]

theorem weightOf_of_heap (hc : s.heap c = some r) : s.weightOf c = r.ctx.weight := by
  rw [weightOf, ctxOf_of_heap hc, Option.elim_some]

theorem heapLoad_congr {s' : CoroSystem α W} (hctx : s'.ctxOf = s.ctxOf) (hbodies : s'.bodies = s.bodies) :
    s'.heapLoad = s.heapLoad := by
  have hweight : s'.weightOf = s.weightOf :=
    funext fun d ↦ congrArg (Option.elim · 0 CoroBody.weight) (congrFun hctx d)
  rw [heapLoad, heapLoad, hweight, hbodies]

/-- A coroutine with another context. -/
theorem heapLoad_store (h : s.Consistent) (hc : s.heap c = some r) (r' : Coroutine α W) :
    (store s c r').heapLoad + r.ctx.weight = s.heapLoad + r'.ctx.weight := by
  have hbodies : (store s c r').bodies = s.bodies := rfl
  rw [heapLoad, weightOf_store, hbodies, ← weightOf_of_heap hc]
  exact sum_map_range_update _ (h.lt_of_heap hc) _

theorem heapLoad_release (h : s.Consistent) (hc : s.heap c = some r) :
    (release s c).heapLoad + r.ctx.weight = s.heapLoad := by
  have hbodies : (release s c).bodies = s.bodies := rfl
  rw [heapLoad, weightOf_release, hbodies, ← weightOf_of_heap hc]
  exact sum_map_range_update _ (h.lt_of_heap hc) 0

/-- What was passed to `latte_go` becomes a coroutine. -/
theorem load_schedulerPending (s : CoroSystem α W) : (schedulerPending s).load = s.load := by
  rw [schedulerPending]
  cases hfn : s.pendingFn with
  | none => rfl
  | some fn =>
    have hold : ∀ d ∈ List.range s.bodies.length,
        (CoroSystem.create { s with pendingFn := none } fn).weightOf d = s.weightOf d := fun d hd ↦ by
      rw [weightOf, ctxOf, heap_create, Function.update_of_ne (List.mem_range.mp hd).ne]
      rfl
    have hnew : (CoroSystem.create { s with pendingFn := none } fn).weightOf s.bodies.length = fn.weight := by
      rw [weightOf, ctxOf, heap_create, Function.update_self, Option.map_some, Option.elim_some]
    have hpending : (CoroSystem.create { s with pendingFn := none } fn).pendingFn = none := rfl
    rw [load, heapLoad, bodies_create, List.length_append, List.length_singleton,
      List.range_succ, List.map_append,
      List.map_congr_left hold, List.map_singleton, hnew, List.sum_append, List.sum_singleton, hpending,
      Option.elim_none, Nat.add_zero, load, heapLoad, hfn, Option.elim_some]

theorem load_schedulerResume {s' : CoroSystem α W} (hs : schedulerResume s = some (.inl s')) :
    s'.load = s.load := by
  rw [schedulerResume] at hs
  cases hready : s.ready with
  | nil =>
    rw [hready] at hs
    cases hs
  | cons c rest =>
    simp only [hready] at hs
    obtain ⟨r, hr, heq⟩ := Option.map_eq_some_iff.mp hs
    obtain rfl := Sum.inl.inj heq
    exact congrArg (· + s.pendingFn.elim 0 CoroBody.weight)
      (heapLoad_congr (ctxOf_store_same hr { r with state := .running } rfl) rfl)

/-- **A round of the scheduler** leaves as much to do as there is once the coroutine that gave control is
settled. -/
theorem load_runScheduler {s₁ s' : CoroSystem α W} (hsettle : schedulerSettle s = some s₁)
    (hs : runScheduler s = some (.inl s')) : s'.load = s₁.load := by
  rw [runScheduler, hsettle, Option.bind_some] at hs
  rw [load_schedulerResume hs, load_schedulerPending]

end Load

/-! ## Turns -/

/-- The coroutine `c` is in `latte_waitgroup_wait`, and would yield again. -/
def CoroSystem.Stuck (s : CoroSystem α W) (c : ℕ) : Prop :=
  ∃ wg next, s.ctxOf c = some (.wait wg next) ∧ 0 < s.counts wg

/-- Every coroutine that is alive is stuck. -/
def CoroSystem.Deadlock (s : CoroSystem α W) : Prop := ∀ c, s.heap c ≠ none → s.Stuck c

section Turns

variable {s : CoroSystem α W} {c : ℕ} {r : Coroutine α W}

theorem stuck_congr {s' : CoroSystem α W} (hctx : s'.ctxOf = s.ctxOf) (hcounts : s'.counts = s.counts) (d : ℕ) :
    s'.Stuck d ↔ s.Stuck d := by
  rw [Stuck, Stuck, hctx, hcounts]

/-- A system with the contexts and the counts of a deadlock is in one. -/
theorem deadlock_congr {s' : CoroSystem α W} (hctx : s'.ctxOf = s.ctxOf) (hcounts : s'.counts = s.counts)
    (hdead : s.Deadlock) : s'.Deadlock := fun d hd ↦ by
  rw [stuck_congr hctx hcounts]
  have hd' : s'.ctxOf d ≠ none := mt Option.map_eq_none_iff.mp hd
  rw [hctx] at hd'
  exact hdead d (mt Option.map_eq_none_iff.mpr hd')

/-- A coroutine that has less to do. -/
theorem CoroSystem.Running.load_store_lt (h : s.Running c r) {r' : Coroutine α W}
    (hlt : r'.ctx.weight < r.ctx.weight) : (store s c r').load < s.load := by
  have hstore := heapLoad_store h.consistent h.heap_eq r'
  have hpending : (store s c r').pendingFn = s.pendingFn := rfl
  rw [load, load, hpending]
  omega

variable [DecidableEq W]

theorem CoroSystem.Running.step (h : s.Running c r) :
    coroutineMachine (.coroutine s) = .inl (coroutineStep s c r.ctx) := by
  simp only [coroutineMachine, h.current_eq, h.heap_eq]

/-- **The turn of a coroutine that is stuck** puts it at the end of the queue, and nothing else changes. -/
theorem CoroSystem.Running.rotate (h : s.Running c r) (hstuck : s.Stuck c) :
    ∃ s₁ s' c' r', coroutineMachine (.coroutine s) = .inl (.scheduler s₁) ∧
      coroutineMachine (.scheduler s₁) = .inl (.coroutine s') ∧ s'.Running c' r' ∧
      c' :: s'.ready = s.ready ++ [c] ∧ (s₁.ctxOf = s.ctxOf ∧ s'.ctxOf = s.ctxOf) ∧
      (s₁.counts = s.counts ∧ s'.counts = s.counts) ∧ s'.load = s.load := by
  obtain ⟨wg, next, hwait, hcount⟩ := hstuck
  have hctx : r.ctx = .wait wg next := Option.some.inj ((ctxOf_of_heap h.heap_eq).symm.trans hwait)
  have hstep : coroutineStep s c r.ctx = .scheduler (store s c ⟨.ready, .wait wg next⟩) := by
    rw [hctx, coroutineStep, if_pos hcount]
  have hstored : (store s c ⟨.ready, .wait wg next⟩).Running c ⟨.ready, .wait wg next⟩ :=
    h.store_same (by rw [hctx])
  have hsame : (store s c ⟨.ready, .wait wg next⟩).ctxOf = s.ctxOf := ctxOf_store_same h.heap_eq _ hctx.symm
  -- the coroutine is put into the queue, and the first of the queue runs
  have hscheduling : (store s c ⟨.ready, .wait wg next⟩).Scheduling :=
    .back c _ hstored (fun hd ↦ CoroState.noConfusion hd) fun hd ↦ CoroState.noConfusion hd
  have hsettle : schedulerSettle (store s c ⟨.ready, .wait wg next⟩) =
      some (pushReady (store s c ⟨.ready, .wait wg next⟩) c) := by
    simp only [schedulerSettle, hstored.current_eq, hstored.heap_eq, Option.map_some]
  obtain ⟨s₂, hsettle₂, hqueued⟩ := schedulerSettle_spec hscheduling
  obtain rfl := Option.some.inj (hsettle₂.symm.trans hsettle)
  have hfn : (pushReady (store s c ⟨.ready, .wait wg next⟩) c).pendingFn = none := h.pendingFn_eq
  have hpending : schedulerPending (pushReady (store s c ⟨.ready, .wait wg next⟩) c) =
      pushReady (store s c ⟨.ready, .wait wg next⟩) c := by
    rw [schedulerPending, hfn]
  obtain ⟨hidle, -⟩ | ⟨c', rest, r', hready, hheap, hresume, hrunning⟩ := schedulerResume_spec hqueued hfn
  · exact absurd hidle.ready_eq (List.append_ne_nil_of_right_ne_nil _ (List.cons_ne_nil c []))
  have hrun : runScheduler (store s c ⟨.ready, .wait wg next⟩) =
      some (.inl (resume (pushReady (store s c ⟨.ready, .wait wg next⟩) c) c' rest r')) := by
    rw [runScheduler, hsettle, Option.bind_some, hpending, hresume]
  have hctxOf : (resume (pushReady (store s c ⟨.ready, .wait wg next⟩) c) c' rest r').ctxOf = s.ctxOf :=
    (ctxOf_store_same hheap { r' with state := .running } rfl).trans hsame
  refine ⟨_, _, c', _, by rw [h.step, hstep], by rw [coroutineMachine, hrun],
    hrunning, hready.symm, ⟨hsame, hctxOf⟩,
    ⟨rfl, rfl⟩, ?_⟩
  exact congrArg (· + s.pendingFn.elim 0 CoroBody.weight) (heapLoad_congr hctxOf rfl)

/-- The machine ends, or a coroutine has control and less is left to do. -/
def CoroConfig.Progress (cfg : CoroConfig α W) (n : ℕ) : Prop :=
  (∃ o, Ends coroutineMachine cfg o) ∨
    ∃ s' c' r', Reaches coroutineMachine cfg (.coroutine s') ∧ s'.Running c' r' ∧ s'.load < n

theorem CoroConfig.Progress.of_step {cfg cfg' : CoroConfig α W} {n : ℕ} (hstep : coroutineMachine cfg = .inl cfg')
    (h : cfg'.Progress n) : cfg.Progress n := by
  obtain ⟨o, hends⟩ | ⟨s', c', r', hreach, hrunning, hload⟩ := h
  · exact Or.inl ⟨o, .of_inl hstep hends⟩
  · exact Or.inr ⟨s', c', r', .head hstep hreach, hrunning, hload⟩

/-- The scheduler has control, and less is left to do. -/
theorem progress_scheduler {s₁ : CoroSystem α W} {n : ℕ} (h : s.Scheduling)
    (hsettle : schedulerSettle s = some s₁) (hload : s₁.load < n) : CoroConfig.Progress (.scheduler s) n := by
  obtain ⟨s', hs', -⟩ | ⟨s', c', r', hs', hrunning⟩ := runScheduler_spec h
  · exact Or.inl ⟨some s', .of_inr (by rw [coroutineMachine, hs'])⟩
  · refine Or.inr ⟨s', c', r', .single (by rw [coroutineMachine, hs']), hrunning, ?_⟩
    rwa [load_runScheduler hsettle hs']

/-- The coroutine goes on, and less is left to do. -/
theorem progress_coroutine {n : ℕ} (h : (CoroConfig.coroutine s).Inv) (hload : s.load < n) :
    CoroConfig.Progress (.coroutine s) n := by
  obtain ⟨c, r, hrunning⟩ := h
  exact Or.inr ⟨s, c, r, .refl, hrunning, hload⟩

/-- **The turn of a coroutine that is not stuck** uses up a part of a body. -/
theorem CoroSystem.Running.turn (h : s.Running c r) (hfree : ¬ s.Stuck c) :
    CoroConfig.Progress (.coroutine s) s.load := by
  have hinv := coroutineStep_inv h
  refine .of_step h.step ?_
  cases hctx : r.ctx with
  | done =>
    have hstored : (store s c ⟨.done, .done⟩).Running c ⟨.done, .done⟩ := h.store_same (by rw [hctx])
    have hsettle : schedulerSettle (store s c ⟨.done, .done⟩) = some (release (store s c ⟨.done, .done⟩) c) := by
      simp only [schedulerSettle, hstored.current_eq, hstored.heap_eq, Option.map_some]
    rw [hctx] at hinv
    refine progress_scheduler hinv hsettle ?_
    have hrelease := heapLoad_release hstored.consistent hstored.heap_eq
    have hstore := heapLoad_store h.consistent h.heap_eq ⟨.done, .done⟩
    have hpending : (release (store s c ⟨.done, .done⟩) c).pendingFn = s.pendingFn := rfl
    rw [hctx] at hstore
    rw [load, load, hpending]
    simp only [CoroBody.weight] at hrelease hstore
    omega
  | act a next =>
    rw [hctx] at hinv
    exact progress_coroutine hinv (h.load_store_lt (by rw [hctx]; exact Nat.lt_succ_self _))
  | yield next =>
    have hevent : (log (store s c ⟨.ready, next⟩) c .yield).Running c ⟨.ready, next⟩ :=
      h.event (by rw [hctx]; rfl)
    rw [hctx] at hinv
    have hsettle : schedulerSettle (log (store s c ⟨.ready, next⟩) c .yield) =
        some (pushReady (log (store s c ⟨.ready, next⟩) c .yield) c) := by
      simp only [schedulerSettle, hevent.current_eq, hevent.heap_eq, Option.map_some]
    exact progress_scheduler hinv hsettle (h.load_store_lt (by rw [hctx]; exact Nat.lt_succ_self _))
  | go fn next =>
    rw [hctx] at hinv
    have hsettle : schedulerSettle (log (pushReady { store s c ⟨.running, next⟩ with
          pendingFn := some fn, asked := s.asked ++ [fn] } c) c (.go fn)) =
        some { log (pushReady { store s c ⟨.running, next⟩ with
          pendingFn := some fn, asked := s.asked ++ [fn] } c) c (.go fn) with current := none } := by
      simp only [schedulerSettle, log, pushReady, store, h.current_eq, Function.update_self, Option.map_some]
    refine progress_scheduler hinv hsettle ?_
    have hstore := heapLoad_store h.consistent h.heap_eq ⟨.running, next⟩
    rw [hctx] at hstore
    simp only [CoroBody.weight] at hstore
    change (store s c ⟨.running, next⟩).heapLoad + fn.weight < s.load
    rw [load]
    omega
  | add wg delta next =>
    rw [hctx] at hinv
    exact progress_coroutine hinv (h.load_store_lt (by rw [hctx]; exact Nat.lt_succ_self _))
  | wait wg next =>
    have hcount : ¬ 0 < s.counts wg := fun hcount ↦
      hfree ⟨wg, next, (ctxOf_of_heap h.heap_eq).trans (congrArg some hctx), hcount⟩
    rw [hctx, coroutineStep, if_neg hcount] at hinv
    rw [coroutineStep, if_neg hcount]
    exact progress_coroutine hinv (h.load_store_lt (by rw [hctx]; exact Nat.lt_succ_self _))

end Turns

/-! ## Whole runs -/

section Runs

variable [DecidableEq W]

/-- Where some coroutine is not stuck, one that is not comes to run. The induction is on what is in front of
it. -/
theorem CoroSystem.Running.exists_free (d : ℕ) (p : List ℕ) :
    ∀ (q : List ℕ) {s : CoroSystem α W} {c : ℕ} {r : Coroutine α W}, s.Running c r →
      c :: s.ready = p ++ d :: q → ¬ s.Stuck d →
      ∃ s' c' r', Reaches coroutineMachine (.coroutine s) (.coroutine s') ∧ s'.Running c' r' ∧
        ¬ s'.Stuck c' ∧ s'.load = s.load := by
  induction p with
  | nil =>
    intro q s c r h heq hfree
    obtain ⟨rfl, -⟩ := List.cons.inj heq
    exact ⟨s, c, r, .refl, h, hfree, rfl⟩
  | cons a p ih =>
    intro q s c r h heq hfree
    have hready : s.ready = p ++ d :: q := (List.cons.inj heq).2
    obtain rfl := (List.cons.inj heq).1
    by_cases hstuck : s.Stuck c
    · obtain ⟨s₁, s', c', r', hstep, hstep', hrunning, hqueue, hctx, hcounts, hload⟩ := h.rotate hstuck
      have heq' : c' :: s'.ready = p ++ d :: (q ++ [c]) := by
        rw [hqueue, hready, List.append_assoc, List.cons_append]
      obtain ⟨s₂, c₂, r₂, hreach, hrunning₂, hfree₂, hload₂⟩ :=
        ih (q ++ [c]) hrunning heq' (mt (stuck_congr hctx.2 hcounts.2 d).mp hfree)
      exact ⟨s₂, c₂, r₂, .head hstep (.head hstep' hreach), hrunning₂, hfree₂, hload₂.trans hload⟩
    · exact ⟨s, c, r, .refl, h, hstuck, rfl⟩

/-- **The scheduler comes to its end or to a deadlock.** The induction is on what is left to do. -/
theorem CoroSystem.Running.ends_or_deadlock {s : CoroSystem α W} {c : ℕ} {r : Coroutine α W} (h : s.Running c r) :
    (∃ o, Ends coroutineMachine (.coroutine s) o) ∨
      ∃ s', Reaches coroutineMachine (.coroutine s) (.coroutine s') ∧ s'.Deadlock := by
  induction hn : s.load using Nat.strong_induction_on generalizing s c r with
  | _ n ih =>
    by_cases hdead : s.Deadlock
    · exact Or.inr ⟨s, .refl, hdead⟩
    · obtain ⟨d, hd⟩ := not_forall.mp hdead
      obtain ⟨halive, hfree⟩ := Classical.not_imp.mp hd
      have hmem : d ∈ c :: s.ready := List.mem_cons.mpr ((h.alive d).mp halive)
      obtain ⟨p, q, heq⟩ := List.append_of_mem hmem
      obtain ⟨s₁, c₁, r₁, hreach₁, hrunning₁, hfree₁, hload₁⟩ := exists_free d p q h heq hfree
      obtain ⟨o, hends⟩ | ⟨s₂, c₂, r₂, hreach₂, hrunning₂, hload₂⟩ := hrunning₁.turn hfree₁
      · exact Or.inl ⟨o, hreach₁.ends hends⟩
      · have hreach := hreach₁.trans hreach₂
        rw [hload₁, hn] at hload₂
        obtain ⟨o, hends⟩ | ⟨s', hreach', hdead'⟩ := ih s₂.load hload₂ hrunning₂ rfl
        · exact Or.inl ⟨o, Reaches.ends hreach hends⟩
        · exact Or.inr ⟨s', hreach.trans hreach', hdead'⟩

/-- A coroutine has control in a deadlock, or it has just given control back. -/
inductive CoroConfig.Deadlocked : CoroConfig α W → Prop
  | coroutine {s : CoroSystem α W} {c : ℕ} {r : Coroutine α W} (h : s.Running c r) (hdead : s.Deadlock) :
      Deadlocked (.coroutine s)
  | scheduler {s : CoroSystem α W} {c : ℕ} {r : Coroutine α W} {cfg : CoroConfig α W} (h : s.Running c r)
      (hdead : s.Deadlock) (hstep : coroutineMachine (.coroutine s) = .inl cfg) : Deadlocked cfg

/-- **A deadlock stays**, and there is a next step. -/
theorem CoroConfig.Deadlocked.stays {cfg : CoroConfig α W} (h : cfg.Deadlocked) :
    cfg.system.Deadlock ∧ ∃ cfg', coroutineMachine cfg = .inl cfg' := by
  cases h with
  | @coroutine s c r h hdead => exact ⟨hdead, _, h.step⟩
  | @scheduler s c r cfg h hdead hstep =>
    have halive : s.heap c ≠ none := (h.alive c).mpr (Or.inl rfl)
    obtain ⟨s₁, s', c', r', hstep₁, hstep', -, -, hctx, hcounts, -⟩ := h.rotate (hdead c halive)
    obtain rfl := Sum.inl.inj (hstep₁.symm.trans hstep)
    exact ⟨deadlock_congr hctx.1 hcounts.1 hdead, _, hstep'⟩

theorem deadlocked_of_reaches {s : CoroSystem α W} {c : ℕ} {r : Coroutine α W} (h : s.Running c r)
    (hdead : s.Deadlock) {cfg : CoroConfig α W} (hreach : Reaches coroutineMachine (.coroutine s) cfg) :
    cfg.Deadlocked := by
  induction hreach with
  | refl => exact .coroutine h hdead
  | tail _ hstep ih =>
    cases ih with
    | coroutine h hdead => exact .scheduler h hdead hstep
    | @scheduler s c r cfg h hdead hfrom =>
      have halive : s.heap c ≠ none := (h.alive c).mpr (Or.inl rfl)
      obtain ⟨s₁, s', c', r', hstep₁, hstep', hrunning, -, hctx, hcounts, -⟩ := h.rotate (hdead c halive)
      obtain rfl := Sum.inl.inj (hstep₁.symm.trans hfrom)
      obtain rfl := Sum.inl.inj (hstep'.symm.trans hstep)
      exact .coroutine hrunning (deadlock_congr hctx.2 hcounts.2 hdead)

/-- An outermost `latte_go` returns or runs into a deadlock. -/
theorem latteGo_ends_or_deadlock {s : CoroSystem α W} (h : s.Between) (fn : CoroBody α W) :
    (∃ o, Ends coroutineMachine (latteGo s fn) o) ∨
      ∃ s', Reaches coroutineMachine (latteGo s fn) (.coroutine s') ∧ s'.Deadlock := by
  obtain ⟨s₁, hs₁, -⟩ | ⟨s₁, c, r, hs₁, hrunning⟩ := runScheduler_spec (h.idle.latteGo fn)
  · exact Or.inl ⟨some s₁, .of_inr (by rw [latteGo, coroutineMachine, hs₁])⟩
  · have hstep : coroutineMachine (latteGo s fn) = .inl (.coroutine s₁) := by
      rw [latteGo, coroutineMachine, hs₁]
    obtain ⟨o, hends⟩ | ⟨s', hreach, hdead⟩ := hrunning.ends_or_deadlock
    · exact Or.inl ⟨o, .of_inl hstep hends⟩
    · exact Or.inr ⟨s', .head hstep hreach, hdead⟩

/-- **An outermost `latte_go` with a finite body returns if and only if it does not run into a deadlock**,
in which every coroutine that is alive waits in `latte_waitgroup_wait` for a positive counter. A deadlock is
never left. -/
theorem latteGo_ends_iff {s : CoroSystem α W} (h : s.Between) (fn : CoroBody α W) :
    ((∃ o, Ends coroutineMachine (latteGo s fn) o) ↔
      ∀ s', Reaches coroutineMachine (latteGo s fn) (.coroutine s') → ¬ s'.Deadlock) ∧
    ∀ s', Reaches coroutineMachine (latteGo s fn) (.coroutine s') → s'.Deadlock →
      ∀ cfg, Reaches coroutineMachine (.coroutine s') cfg →
        cfg.system.Deadlock ∧ ∃ cfg', coroutineMachine cfg = .inl cfg' := by
  refine ⟨⟨?_, fun hfree ↦ ?_⟩, fun s' hreach hdead cfg hcfg ↦ ?_⟩
  · rintro ⟨o, hends⟩ s' hreach hdead
    obtain ⟨c, r, hrunning⟩ := inv_of_reaches (h.idle.latteGo fn) hreach
    obtain ⟨cfg, hlast, hstop⟩ := (hends.of_reaches hreach).last
    obtain ⟨-, cfg', hstep⟩ := (deadlocked_of_reaches hrunning hdead hlast).stays
    rw [hstop] at hstep
    cases hstep
  · obtain hends | ⟨s', hreach, hdead⟩ := latteGo_ends_or_deadlock h fn
    · exact hends
    · exact absurd hdead (hfree s' hreach)
  · obtain ⟨c, r, hrunning⟩ := inv_of_reaches (h.idle.latteGo fn) hreach
    exact (deadlocked_of_reaches hrunning hdead hcfg).stays

/-- One coroutine waits for the other, and both come to their end. -/
theorem latteGo_ends_iff_two :
    (∀ s', Reaches coroutineMachine
      (latteGo (empty : CoroSystem ℕ Unit) (.add () 1 (.go (.add () (-1) .done) (.wait () .done))))
      (.coroutine s') → ¬ s'.Deadlock) ∧
    ∃ s', Reaches coroutineMachine (latteGo (empty : CoroSystem ℕ Unit) (.add () 1 (.wait () .done)))
      (.coroutine s') ∧ s'.Deadlock := by
  have hsome : (run coroutineMachine 20
    (latteGo (empty : CoroSystem ℕ Unit) (.add () 1 (.go (.add () (-1) .done) (.wait () .done))))).isSome := rfl
  obtain ⟨o, ho⟩ := Option.isSome_iff_exists.mp hsome
  refine ⟨(latteGo_ends_iff .empty _).1.mp ⟨o, 20, ho⟩, _, .head rfl (.head rfl .refl), fun c hc ↦ ?_⟩
  cases c with
  | zero => exact ⟨(), .done, rfl, by decide⟩
  | succ c => exact absurd rfl hc

end Runs

/-! ## Bodies that do not wait -/

/-- There is no `latte_waitgroup_wait` in the body, nor in what it passes to `latte_go`. -/
def CoroBody.WaitFree : CoroBody α W → Prop
  | .done => True
  | .act _ next => next.WaitFree
  | .yield next => next.WaitFree
  | .go fn next => fn.WaitFree ∧ next.WaitFree
  | .add _ _ next => next.WaitFree
  | .wait _ _ => False

/-- Nothing that is left to do waits. -/
structure CoroSystem.WaitFree (s : CoroSystem α W) : Prop where
  ctx : ∀ c body, s.ctxOf c = some body → body.WaitFree
  pending : ∀ fn, s.pendingFn = some fn → fn.WaitFree

section WaitFree

variable {s s' : CoroSystem α W} {c : ℕ} {r : Coroutine α W}

theorem CoroSystem.WaitFree.store (h : s.WaitFree) (hr : r.ctx.WaitFree) : (store s c r).WaitFree where
  ctx d body hd := by
    rw [ctxOf_store] at hd
    by_cases hdc : d = c
    · rw [hdc, Function.update_self] at hd
      exact Option.some.inj hd ▸ hr
    · rw [Function.update_of_ne hdc] at hd
      exact h.ctx d body hd
  pending := h.pending

theorem CoroSystem.WaitFree.release (h : s.WaitFree) : (release s c).WaitFree where
  ctx d body hd := by
    rw [ctxOf, heap_release] at hd
    by_cases hdc : d = c
    · rw [hdc, Function.update_self] at hd
      cases hd
    · rw [Function.update_of_ne hdc] at hd
      exact h.ctx d body hd
  pending := h.pending

theorem CoroSystem.WaitFree.create (h : s.WaitFree) {fn : CoroBody α W} (hfn : fn.WaitFree) :
    (create s fn).WaitFree where
  ctx d body hd := by
    rw [ctxOf, heap_create] at hd
    by_cases hdc : d = s.bodies.length
    · rw [hdc, Function.update_self] at hd
      exact Option.some.inj hd ▸ hfn
    · rw [Function.update_of_ne hdc] at hd
      exact h.ctx d body hd
  pending := h.pending

theorem waitFree_schedulerSettle (h : s.WaitFree) (hs : schedulerSettle s = some s') : s'.WaitFree := by
  rw [schedulerSettle] at hs
  cases hcurrent : s.current with
  | none =>
    rw [hcurrent] at hs
    exact Option.some.inj hs ▸ h
  | some c =>
    simp only [hcurrent] at hs
    obtain ⟨r, -, heq⟩ := Option.map_eq_some_iff.mp hs
    cases hstate : r.state with
    | ready =>
      simp only [hstate] at heq
      exact heq ▸ ⟨h.ctx, h.pending⟩
    | done =>
      simp only [hstate] at heq
      exact heq ▸ h.release
    | running =>
      simp only [hstate] at heq
      exact heq ▸ ⟨h.ctx, h.pending⟩

theorem waitFree_schedulerPending (h : s.WaitFree) : (schedulerPending s).WaitFree := by
  rw [schedulerPending]
  cases hfn : s.pendingFn with
  | none => exact h
  | some fn =>
    have hsame : CoroSystem.WaitFree { s with pendingFn := none } :=
      ⟨h.ctx, fun fn hnone ↦ absurd hnone.symm (Option.some_ne_none fn)⟩
    exact hsame.create (h.pending fn hfn)

theorem waitFree_schedulerResume (h : s.WaitFree) (hs : schedulerResume s = some (.inl s')) : s'.WaitFree := by
  rw [schedulerResume] at hs
  cases hready : s.ready with
  | nil =>
    rw [hready] at hs
    cases hs
  | cons c rest =>
    simp only [hready] at hs
    obtain ⟨r, hr, heq⟩ := Option.map_eq_some_iff.mp hs
    have hstored := h.store (c := c) (r := { r with state := .running }) (h.ctx c r.ctx (ctxOf_of_heap hr))
    exact Sum.inl.inj heq ▸ ⟨hstored.ctx, hstored.pending⟩

variable [DecidableEq W]

theorem waitFree_coroutineStep (h : s.WaitFree) (hc : s.heap c = some r) :
    (coroutineStep s c r.ctx).system.WaitFree := by
  have hbody := h.ctx c r.ctx (ctxOf_of_heap hc)
  cases hctx : r.ctx with
  | done => exact h.store trivial
  | act a next =>
    rw [hctx] at hbody
    have hstored := h.store (c := c) (r := ⟨.running, next⟩) hbody
    exact ⟨hstored.ctx, hstored.pending⟩
  | yield next =>
    rw [hctx] at hbody
    have hstored := h.store (c := c) (r := ⟨.ready, next⟩) hbody
    exact ⟨hstored.ctx, hstored.pending⟩
  | go fn next =>
    rw [hctx] at hbody
    have hstored := h.store (c := c) (r := ⟨.running, next⟩) hbody.2
    exact ⟨hstored.ctx, fun fn' hfn ↦ Option.some.inj hfn ▸ hbody.1⟩
  | add wg delta next =>
    rw [hctx] at hbody
    have hstored := h.store (c := c) (r := ⟨.running, next⟩) hbody
    exact ⟨hstored.ctx, hstored.pending⟩
  | wait wg next =>
    rw [hctx] at hbody
    exact False.elim hbody

theorem waitFree_coroutineMachine {cfg cfg' : CoroConfig α W} (h : cfg.system.WaitFree)
    (hstep : coroutineMachine cfg = .inl cfg') : cfg'.system.WaitFree := by
  cases cfg with
  | scheduler s =>
    rw [coroutineMachine] at hstep
    cases hrun : runScheduler s with
    | none =>
      rw [hrun] at hstep
      cases hstep
    | some o =>
      cases o with
      | inr s₁ =>
        rw [hrun] at hstep
        cases hstep
      | inl s₁ =>
        rw [hrun] at hstep
        obtain rfl := Sum.inl.inj hstep
        obtain ⟨s₂, hsettle, hresume⟩ := Option.bind_eq_some_iff.mp hrun
        exact waitFree_schedulerResume (waitFree_schedulerPending (waitFree_schedulerSettle h hsettle)) hresume
  | coroutine s =>
    rw [coroutineMachine] at hstep
    cases hcurrent : s.current with
    | none =>
      simp only [hcurrent] at hstep
      cases hstep
    | some c =>
      cases hc : s.heap c with
      | none =>
        simp only [hcurrent, hc] at hstep
        cases hstep
      | some r =>
        simp only [hcurrent, hc] at hstep
        exact Sum.inl.inj hstep ▸ waitFree_coroutineStep h hc

/-- **Without waiting an outermost `latte_go` returns.** -/
theorem latteGo_returns {s : CoroSystem α W} (h : s.Between) {fn : CoroBody α W} (hfn : fn.WaitFree) :
    ∃ s', Ends coroutineMachine (latteGo s fn) (some s') ∧ s'.Between := by
  have hidle := h.idle
  have hstart : (latteGo s fn).system.WaitFree := by
    refine CoroSystem.WaitFree.create ⟨fun c body hbody ↦ ?_, fun fn' hfn' ↦ ?_⟩ hfn
    · have hnone : s.ctxOf c = none := by rw [ctxOf, hidle.dead c, Option.map_none]
      exact absurd (hnone.symm.trans hbody).symm (Option.some_ne_none body)
    · exact absurd (hidle.pendingFn_eq.symm.trans hfn').symm (Option.some_ne_none fn')
  obtain ⟨o, hends⟩ | ⟨s', hreach, hdead⟩ := latteGo_ends_or_deadlock h fn
  · obtain ⟨s', rfl, -⟩ := idle_of_ends (hidle.latteGo fn) hends
    exact ⟨s', hends, .go s fn s' h hends⟩
  · -- the coroutine that runs would wait
    have hfree : s'.WaitFree := by
      have hall : ∀ cfg, Reaches coroutineMachine (latteGo s fn) cfg → cfg.system.WaitFree := fun cfg hcfg ↦ by
        induction hcfg with
        | refl => exact hstart
        | tail _ hstep ih => exact waitFree_coroutineMachine ih hstep
      exact hall _ hreach
    obtain ⟨c, r, hrunning⟩ := inv_of_reaches (hidle.latteGo fn) hreach
    obtain ⟨wg, next, hwait, -⟩ := hdead c ((hrunning.alive c).mpr (Or.inl rfl))
    exact False.elim (hfree.ctx c _ hwait)

theorem latteGo_returns_nested :
    ∃ s', Ends coroutineMachine
        (latteGo (empty : CoroSystem ℕ Unit) (.go (.yield (.act 1 .done)) (.act 2 .done))) (some s') ∧
          s'.Between :=
  latteGo_returns .empty ⟨trivial, trivial⟩

end WaitFree

end LatteC
