import LatteC.Coroutine.Basic
import Mathlib.Data.List.Nodup

/-!
# Runs of the scheduler

What holds whenever a coroutine or the scheduler has control: the coroutines that are alive are the running one
and those in the queue, none of them twice; each has done the first part of its body, and has the rest in its
context; and the queue holds what was pushed and has not been resumed.
-/

namespace LatteC

open CoroSystem

variable {α W : Type*}

/-! ## The history of one coroutine -/

/-- The events of a coroutine. -/
def eventsOf (trace : List (ℕ × CoroEvent α W)) (c : ℕ) : List (CoroEvent α W) :=
  trace.filterMap fun p ↦ if p.1 = c then some p.2 else none

theorem eventsOf_log (trace : List (ℕ × CoroEvent α W)) (c d : ℕ) (e : CoroEvent α W) :
    eventsOf (trace ++ [(c, e)]) d = if c = d then eventsOf trace d ++ [e] else eventsOf trace d := by
  rw [eventsOf, List.filterMap_append]
  split_ifs with hcd <;> simp [hcd, eventsOf]

theorem eventsOf_of_forall_ne {trace : List (ℕ × CoroEvent α W)} {c : ℕ} (h : ∀ p ∈ trace, p.1 ≠ c) :
    eventsOf trace c = [] := by
  rw [eventsOf, List.filterMap_eq_nil_iff]
  intro p hp
  exact if_neg (h p hp)

/-- What a coroutine has still to do; nothing once it is freed. -/
def CoroSystem.remaining (s : CoroSystem α W) (c : ℕ) : List (CoroEvent α W) :=
  (s.heap c).elim [] fun r ↦ r.ctx.events

/-- What holds of a system whoever has control. -/
structure CoroSystem.Consistent (s : CoroSystem α W) : Prop where
  lt_of_alive : ∀ c, s.heap c ≠ none → c < s.bodies.length
  lt_of_traced : ∀ p ∈ s.trace, p.1 < s.bodies.length
  order : ∀ c body, s.bodies[c]? = some body → eventsOf s.trace c ++ s.remaining c = body.events
  fifo : s.pushed = s.resumed ++ s.ready
  nodup : s.ready.Nodup

section Consistent

variable {s : CoroSystem α W} {c : ℕ} {r r' : Coroutine α W}

theorem consistent_empty : (empty : CoroSystem α W).Consistent where
  lt_of_alive _ h := absurd rfl h
  lt_of_traced _ h := by cases h
  order _ _ h := by cases h
  fifo := rfl
  nodup := List.nodup_nil

theorem heap_store (s : CoroSystem α W) (c : ℕ) (r : Coroutine α W) :
    (store s c r).heap = Function.update s.heap c (some r) := rfl

theorem heap_release (s : CoroSystem α W) (c : ℕ) :
    (release s c).heap = Function.update s.heap c none := rfl

theorem heap_create (s : CoroSystem α W) (fn : CoroBody α W) :
    (CoroSystem.create s fn).heap = Function.update s.heap s.bodies.length (some ⟨.ready, fn⟩) := rfl

theorem bodies_create (s : CoroSystem α W) (fn : CoroBody α W) :
    (CoroSystem.create s fn).bodies = s.bodies ++ [fn] := rfl

theorem remaining_store (s : CoroSystem α W) (c d : ℕ) (r : Coroutine α W) :
    (store s c r).remaining d = if d = c then r.ctx.events else s.remaining d := by
  rw [remaining, heap_store]
  split_ifs with hd
  · rw [hd, Function.update_self, Option.elim_some]
  · rw [Function.update_of_ne hd, remaining]

theorem CoroSystem.Consistent.lt_of_heap (h : s.Consistent) (hc : s.heap c = some r) : c < s.bodies.length :=
  h.lt_of_alive c (by rw [hc]; exact Option.some_ne_none r)

theorem heap_store_ne_none (hc : s.heap c = some r) (d : ℕ) :
    (store s c r').heap d ≠ none ↔ s.heap d ≠ none := by
  rw [heap_store]
  by_cases hd : d = c
  · subst hd
    rw [Function.update_self, hc]
    exact ⟨fun _ ↦ Option.some_ne_none r, fun _ ↦ Option.some_ne_none r'⟩
  · rw [Function.update_of_ne hd]

/-- A coroutine that only changes its state. -/
theorem CoroSystem.Consistent.store_same (h : s.Consistent) (hc : s.heap c = some r)
    (hsame : r'.ctx.events = r.ctx.events) : (store s c r').Consistent where
  lt_of_alive d hd := h.lt_of_alive d ((heap_store_ne_none hc d).mp hd)
  lt_of_traced := h.lt_of_traced
  order d body hd := by
    rw [← h.order d body hd, remaining_store]
    split_ifs with hdc
    · rw [hdc, remaining, hc, Option.elim_some, hsame]
      rfl
    · rfl
  fifo := h.fifo
  nodup := h.nodup

/-- **A coroutine does the next thing in its body.** -/
theorem CoroSystem.Consistent.event (h : s.Consistent) (hc : s.heap c = some r) {e : CoroEvent α W}
    (hnext : r.ctx.events = e :: r'.ctx.events) : (log (store s c r') c e).Consistent where
  lt_of_alive d hd := h.lt_of_alive d ((heap_store_ne_none hc d).mp hd)
  lt_of_traced p hp := by
    obtain hp | hp := List.mem_append.mp hp
    · exact h.lt_of_traced p hp
    · obtain rfl := List.mem_singleton.mp hp
      exact h.lt_of_heap hc
  order d body hd := by
    have horder := h.order d body hd
    have hremaining : (log (store s c r') c e).remaining d = (store s c r').remaining d := rfl
    have htrace : (log (store s c r') c e).trace = s.trace ++ [(c, e)] := rfl
    rw [hremaining, remaining_store, htrace, eventsOf_log]
    by_cases hdc : d = c
    · subst hdc
      rw [remaining, hc, Option.elim_some, hnext] at horder
      rw [if_pos rfl, if_pos rfl, List.append_assoc]
      exact horder
    · rw [if_neg hdc, if_neg (Ne.symm hdc)]
      exact horder
  fifo := h.fifo
  nodup := h.nodup

theorem CoroSystem.Consistent.pushReady (h : s.Consistent) (hc : c ∉ s.ready) : (pushReady s c).Consistent where
  lt_of_alive := h.lt_of_alive
  lt_of_traced := h.lt_of_traced
  order := h.order
  fifo := (congrArg (· ++ [c]) h.fifo).trans (List.append_assoc _ _ _)
  nodup := List.nodup_append.mpr ⟨h.nodup, List.nodup_singleton c, fun a ha b hb ↦ by
    rw [List.mem_singleton.mp hb]
    exact fun heq ↦ hc (heq ▸ ha)⟩

/-- A coroutine that is done is freed. -/
theorem CoroSystem.Consistent.release (h : s.Consistent) (hc : s.heap c = some r) (hdone : r.ctx.events = []) :
    (release s c).Consistent where
  lt_of_alive d hd := by
    by_cases hdc : d = c
    · subst hdc
      rw [heap_release, Function.update_self] at hd
      exact absurd rfl hd
    · rw [heap_release, Function.update_of_ne hdc] at hd
      exact h.lt_of_alive d hd
  lt_of_traced := h.lt_of_traced
  order d body hd := by
    rw [← h.order d body hd]
    by_cases hdc : d = c
    · subst hdc
      simp only [remaining, heap_release, Function.update_self, hc, Option.elim_some, hdone, Option.elim_none]
      rfl
    · simp only [remaining, heap_release, Function.update_of_ne hdc]
      rfl
  fifo := h.fifo
  nodup := h.nodup

theorem CoroSystem.Consistent.create (h : s.Consistent) (hnew : s.bodies.length ∉ s.ready) (fn : CoroBody α W) :
    (create s fn).Consistent where
  lt_of_alive d hd := by
    rw [bodies_create, List.length_append, List.length_singleton]
    by_cases hdc : d = s.bodies.length
    · rw [hdc]
      exact Nat.lt_succ_self _
    · rw [heap_create, Function.update_of_ne hdc] at hd
      exact Nat.lt_succ_of_lt (h.lt_of_alive d hd)
  lt_of_traced p hp := by
    rw [bodies_create, List.length_append, List.length_singleton]
    exact Nat.lt_succ_of_lt (h.lt_of_traced p hp)
  order d body hd := by
    have htrace : (CoroSystem.create s fn).trace = s.trace := rfl
    rw [bodies_create] at hd
    rw [remaining, heap_create, htrace]
    by_cases hdc : d = s.bodies.length
    · subst hdc
      rw [List.getElem?_append_right (le_refl _), Nat.sub_self] at hd
      obtain rfl := Option.some.inj hd
      rw [Function.update_self, Option.elim_some,
        eventsOf_of_forall_ne fun p hp ↦ (h.lt_of_traced p hp).ne, List.nil_append]
    · have hlt : d < s.bodies.length := by
        have := (List.getElem?_eq_some_iff.mp hd).1
        rw [List.length_append, List.length_singleton] at this
        omega
      rw [List.getElem?_append_left hlt] at hd
      rw [Function.update_of_ne hdc]
      exact h.order d body hd
  fifo := (congrArg (· ++ [s.bodies.length]) h.fifo).trans (List.append_assoc _ _ _)
  nodup := List.nodup_append.mpr ⟨h.nodup, List.nodup_singleton _, fun a ha b hb ↦ by
    rw [List.mem_singleton.mp hb]
    exact fun heq ↦ hnew (heq ▸ ha)⟩

end Consistent

/-! ## Who has control -/

/-- Behind an outermost `latte_go`: every coroutine has done all of its body, and is freed. -/
structure CoroSystem.Idle (s : CoroSystem α W) : Prop where
  consistent : s.Consistent
  dead : ∀ c, s.heap c = none
  ready_eq : s.ready = []
  current_eq : s.current = none
  pendingFn_eq : s.pendingFn = none
  asked_eq : s.asked = s.bodies

/-- The coroutine `c` runs. It is not in the queue, and the others are. -/
structure CoroSystem.Running (s : CoroSystem α W) (c : ℕ) (r : Coroutine α W) : Prop where
  consistent : s.Consistent
  current_eq : s.current = some c
  heap_eq : s.heap c = some r
  notMem : c ∉ s.ready
  alive : ∀ d, s.heap d ≠ none ↔ d = c ∨ d ∈ s.ready
  pendingFn_eq : s.pendingFn = none
  asked_eq : s.asked = s.bodies

/-- The scheduler has put back the coroutine that gave control: those in the queue are alive. -/
structure CoroSystem.Queued (s : CoroSystem α W) : Prop where
  consistent : s.Consistent
  alive : ∀ d, s.heap d ≠ none ↔ d ∈ s.ready
  current_eq : s.ready = [] → s.current = none
  asked_eq : s.asked = s.bodies ++ s.pendingFn.toList

/-- How the scheduler gets control: at the start, from a coroutine that yields or is done, or from one that has
called `latte_go` and is in the queue already. -/
inductive CoroSystem.Scheduling (s : CoroSystem α W) : Prop
  | fresh (h : s.Queued) (hcurrent : s.current = none)
  | back (c : ℕ) (r : Coroutine α W) (h : s.Running c r) (hstate : r.state ≠ .running)
      (hdone : r.state = .done → r.ctx.events = [])
  | gone (c : ℕ) (r : Coroutine α W) (h : s.Queued) (hcurrent : s.current = some c)
      (hheap : s.heap c = some r) (hstate : r.state = .running) (hmem : c ∈ s.ready)

/-- What holds of a configuration. -/
def CoroConfig.Inv : CoroConfig α W → Prop
  | .scheduler s => s.Scheduling
  | .coroutine s => ∃ c r, s.Running c r

section Steps

variable {s : CoroSystem α W}

theorem schedulerSettle_spec (h : s.Scheduling) : ∃ s', schedulerSettle s = some s' ∧ s'.Queued := by
  cases h with
  | fresh h hcurrent => exact ⟨s, by rw [schedulerSettle, hcurrent], h⟩
  | gone c r h hcurrent hheap hstate hmem =>
    refine ⟨{ s with current := none },
    by simp only [schedulerSettle, hcurrent, hheap, Option.map_some, hstate], ?_⟩
    have hc := h.consistent
    exact ⟨⟨hc.lt_of_alive, hc.lt_of_traced, hc.order, hc.fifo, hc.nodup⟩, h.alive, fun _ ↦ rfl, h.asked_eq⟩
  | back c r h hstate hdone =>
    have hasked : s.asked = s.bodies ++ s.pendingFn.toList := by
      rw [h.asked_eq, h.pendingFn_eq, Option.toList_none, List.append_nil]
    cases hr : r.state with
    | running => exact absurd hr hstate
    | ready =>
      refine ⟨pushReady s c, by simp only [schedulerSettle, h.current_eq, h.heap_eq, Option.map_some, hr], ?_⟩
      refine ⟨h.consistent.pushReady h.notMem, fun d ↦ ?_, fun hnil ↦ ?_, hasked⟩
      · rw [CoroSystem.pushReady, List.mem_append, List.mem_singleton, or_comm]
        exact h.alive d
      · exact absurd hnil (List.append_ne_nil_of_right_ne_nil _ (List.cons_ne_nil c []))
    | done =>
      refine ⟨release s c, by simp only [schedulerSettle, h.current_eq, h.heap_eq, Option.map_some, hr],
        h.consistent.release h.heap_eq (hdone hr), fun d ↦ ?_, fun _ ↦ rfl, hasked⟩
      rw [heap_release]
      by_cases hdc : d = c
      · subst hdc
        rw [Function.update_self]
        exact ⟨fun hne ↦ absurd rfl hne, fun hmem ↦ absurd hmem h.notMem⟩
      · rw [Function.update_of_ne hdc, h.alive d, or_iff_right hdc]
        rfl

theorem schedulerPending_spec (h : s.Queued) :
    (schedulerPending s).Queued ∧ (schedulerPending s).pendingFn = none := by
  rw [schedulerPending]
  cases hfn : s.pendingFn with
  | none => exact ⟨h, hfn⟩
  | some fn =>
    have hc := h.consistent
    have hnew : s.bodies.length ∉ s.ready := fun hmem ↦
      lt_irrefl _ (hc.lt_of_alive _ ((h.alive _).mpr hmem))
    have hsame : CoroSystem.Consistent { s with pendingFn := none } :=
      ⟨hc.lt_of_alive, hc.lt_of_traced, hc.order, hc.fifo, hc.nodup⟩
    refine ⟨⟨hsame.create hnew fn, fun d ↦ ?_, fun hnil ↦ ?_, ?_⟩, rfl⟩
    · have hready : (CoroSystem.create { s with pendingFn := none } fn).ready =
          s.ready ++ [s.bodies.length] := rfl
      rw [heap_create, hready, List.mem_append, List.mem_singleton]
      by_cases hd : d = s.bodies.length
      · subst hd
        rw [Function.update_self]
        exact ⟨fun _ ↦ Or.inr rfl, fun _ ↦ Option.some_ne_none _⟩
      · rw [Function.update_of_ne hd, or_iff_left hd]
        exact h.alive d
    · exact absurd hnil (List.append_ne_nil_of_right_ne_nil _ (List.cons_ne_nil _ []))
    · have hasked := h.asked_eq
      rw [hfn] at hasked
      exact hasked.trans (List.append_nil _).symm

/-- The queue is empty and all is done, or its first coroutine runs. -/
theorem schedulerResume_spec (h : s.Queued) (hfn : s.pendingFn = none) :
    s.Idle ∧ schedulerResume s = some (.inr s) ∨
      ∃ c rest r, s.ready = c :: rest ∧ s.heap c = some r ∧
        schedulerResume s = some (.inl (resume s c rest r)) ∧
          (resume s c rest r).Running c ⟨.running, r.ctx⟩ := by
  have hasked := h.asked_eq
  rw [hfn, Option.toList_none, List.append_nil] at hasked
  cases hready : s.ready with
  | nil =>
    refine Or.inl ⟨⟨h.consistent, fun c ↦ ?_, hready, h.current_eq hready, hfn, hasked⟩,
      by rw [schedulerResume, hready]⟩
    by_contra hne
    have hmem := (h.alive c).mp hne
    rw [hready] at hmem
    cases hmem
  | cons c rest =>
    have hmem : c ∈ s.ready := by
      rw [hready]
      exact List.mem_cons_self
    obtain ⟨r, hr⟩ := Option.ne_none_iff_exists'.mp ((h.alive c).mpr hmem)
    have hnodup := h.consistent.nodup
    rw [hready, List.nodup_cons] at hnodup
    have hstored : (store s c ⟨.running, r.ctx⟩).Consistent := h.consistent.store_same hr rfl
    have hfifo : s.pushed = s.resumed ++ [c] ++ rest := by
      rw [List.append_assoc, List.singleton_append, ← hready]
      exact h.consistent.fifo
    refine Or.inr ⟨c, rest, r, rfl, hr, by simp only [schedulerResume, hready, hr, Option.map_some],
      ⟨hstored.lt_of_alive, hstored.lt_of_traced, hstored.order, hfifo, hnodup.2⟩, rfl,
        Function.update_self _ _ _, hnodup.1, fun d ↦ ?_, hfn, hasked⟩
    have halive : (store s c ⟨.running, r.ctx⟩).heap d ≠ none ↔ s.heap d ≠ none :=
      heap_store_ne_none hr d
    rw [h.alive d, hready, List.mem_cons] at halive
    exact halive

/-- **What the scheduler does** leaves the outermost `latte_go` behind, or a coroutine running. -/
theorem runScheduler_spec (h : s.Scheduling) :
    (∃ s', runScheduler s = some (.inr s') ∧ s'.Idle) ∨
      ∃ s' c r, runScheduler s = some (.inl s') ∧ s'.Running c r := by
  obtain ⟨s₁, hsettle, hqueued⟩ := schedulerSettle_spec h
  obtain ⟨hqueued₂, hfn⟩ := schedulerPending_spec hqueued
  obtain ⟨hidle, hresume⟩ | ⟨c, rest, r, -, -, hresume, hrunning⟩ := schedulerResume_spec hqueued₂ hfn
  · exact Or.inl ⟨_, by rw [runScheduler, hsettle, Option.bind_some, hresume], hidle⟩
  · exact Or.inr ⟨_, c, _, by rw [runScheduler, hsettle, Option.bind_some, hresume], hrunning⟩

variable {c : ℕ} {r : Coroutine α W}

/-- The running coroutine has done something and goes on, or gives control to the scheduler. -/
theorem CoroSystem.Running.event (h : s.Running c r) {e : CoroEvent α W} {r' : Coroutine α W}
    (hnext : r.ctx.events = e :: r'.ctx.events) : (log (store s c r') c e).Running c r' where
  consistent := h.consistent.event h.heap_eq hnext
  current_eq := h.current_eq
  heap_eq := Function.update_self _ _ _
  notMem := h.notMem
  alive d := (heap_store_ne_none h.heap_eq d).trans (h.alive d)
  pendingFn_eq := h.pendingFn_eq
  asked_eq := h.asked_eq

theorem CoroSystem.Running.store_same (h : s.Running c r) {r' : Coroutine α W}
    (hsame : r'.ctx.events = r.ctx.events) : (store s c r').Running c r' where
  consistent := h.consistent.store_same h.heap_eq hsame
  current_eq := h.current_eq
  heap_eq := Function.update_self _ _ _
  notMem := h.notMem
  alive d := (heap_store_ne_none h.heap_eq d).trans (h.alive d)
  pendingFn_eq := h.pendingFn_eq
  asked_eq := h.asked_eq

variable [DecidableEq W]

/-- **What a coroutine does** keeps the invariant. -/
theorem coroutineStep_inv (h : s.Running c r) : (coroutineStep s c r.ctx).Inv := by
  cases hctx : r.ctx with
  | done =>
    refine .back c ⟨.done, .done⟩ (h.store_same ?_) (fun hd ↦ CoroState.noConfusion hd) fun _ ↦ rfl
    rw [hctx]
  | act a next => exact ⟨c, ⟨.running, next⟩, h.event (by rw [hctx]; rfl)⟩
  | yield next =>
    exact .back c ⟨.ready, next⟩ (h.event (by rw [hctx]; rfl)) (fun hd ↦ CoroState.noConfusion hd)
      fun hd ↦ CoroState.noConfusion hd
  | go fn next =>
    have hevent : (log (store s c ⟨.running, next⟩) c (.go fn)).Running c ⟨.running, next⟩ :=
      h.event (by rw [hctx]; rfl)
    have hpushed := hevent.consistent.pushReady hevent.notMem
    refine .gone c ⟨.running, next⟩ ⟨⟨hpushed.lt_of_alive, hpushed.lt_of_traced, hpushed.order, hpushed.fifo,
      hpushed.nodup⟩, fun d ↦ ?_, fun hnil ↦ ?_, ?_⟩ h.current_eq (Function.update_self _ _ _) rfl ?_
    · have halive := hevent.alive d
      rw [or_comm, ← List.mem_singleton, ← List.mem_append] at halive
      exact halive
    · exact absurd hnil (List.append_ne_nil_of_right_ne_nil _ (List.cons_ne_nil c []))
    · exact congrArg (· ++ [fn]) h.asked_eq
    · exact List.mem_append_right _ (List.mem_singleton_self c)
  | add wg delta next =>
    have hevent : (log (store s c ⟨.running, next⟩) c (.add wg delta)).Running c ⟨.running, next⟩ :=
      h.event (by rw [hctx]; rfl)
    have hc := hevent.consistent
    exact ⟨c, ⟨.running, next⟩, ⟨hc.lt_of_alive, hc.lt_of_traced, hc.order, hc.fifo, hc.nodup⟩, h.current_eq,
      hevent.heap_eq, h.notMem, hevent.alive, h.pendingFn_eq, h.asked_eq⟩
  | wait wg next =>
    rw [coroutineStep]
    split_ifs with hcount
    · refine .back c ⟨.ready, .wait wg next⟩ (h.store_same ?_) (fun hd ↦ CoroState.noConfusion hd)
        fun hd ↦ CoroState.noConfusion hd
      rw [hctx]
    · exact ⟨c, ⟨.running, next⟩, h.event (by rw [hctx]; rfl)⟩

end Steps

/-! ## Whole runs -/

section Runs

variable [DecidableEq W]

/-- **One step of the machine.** -/
theorem coroutineMachine_inv {cfg : CoroConfig α W} (h : cfg.Inv) :
    (∃ cfg', coroutineMachine cfg = .inl cfg' ∧ cfg'.Inv) ∨
      ∃ s, coroutineMachine cfg = .inr (some s) ∧ s.Idle := by
  cases cfg with
  | scheduler s =>
    obtain ⟨s', hs', hidle⟩ | ⟨s', c, r, hs', hrunning⟩ := runScheduler_spec h
    · exact Or.inr ⟨s', by rw [coroutineMachine, hs'], hidle⟩
    · exact Or.inl ⟨.coroutine s', by rw [coroutineMachine, hs'], c, r, hrunning⟩
  | coroutine s =>
    obtain ⟨c, r, hrunning⟩ := h
    refine Or.inl ⟨coroutineStep s c r.ctx, ?_, coroutineStep_inv hrunning⟩
    simp only [coroutineMachine, hrunning.current_eq, hrunning.heap_eq]

theorem inv_of_reaches {cfg cfg' : CoroConfig α W} (h : cfg.Inv)
    (hreach : StepMachine.Reaches coroutineMachine cfg cfg') : cfg'.Inv := by
  induction hreach with
  | refl => exact h
  | tail _ hstep ih =>
    obtain ⟨cfg₁, hnext, hinv⟩ | ⟨s, hlast, -⟩ := coroutineMachine_inv ih
    · rw [hstep] at hnext
      obtain rfl := Sum.inl.inj hnext
      exact hinv
    · rw [hstep] at hlast
      cases hlast

theorem idle_of_ends {cfg : CoroConfig α W} (h : cfg.Inv) {o : Option (CoroSystem α W)}
    (hends : StepMachine.Ends coroutineMachine cfg o) : ∃ s, o = some s ∧ s.Idle := by
  obtain ⟨cfg', hreach, hstop⟩ := hends.last
  obtain ⟨cfg₁, hnext, -⟩ | ⟨s, hlast, hidle⟩ := coroutineMachine_inv (inv_of_reaches h hreach)
  · rw [hstop] at hnext
    cases hnext
  · exact ⟨s, Sum.inr.inj (hstop.symm.trans hlast), hidle⟩

/-- The systems in front of an outermost `latte_go`: at first, and behind another one that came to its end. -/
inductive CoroSystem.Between : CoroSystem α W → Prop
  | empty : Between CoroSystem.empty
  | go (s : CoroSystem α W) (fn : CoroBody α W) (s' : CoroSystem α W) (h : Between s)
      (hends : StepMachine.Ends coroutineMachine (latteGo s fn) (some s')) : Between s'

omit [DecidableEq W] in
theorem CoroSystem.Idle.latteGo {s : CoroSystem α W} (h : s.Idle) (fn : CoroBody α W) : (latteGo s fn).Inv := by
  have hc := h.consistent
  have hnew : s.bodies.length ∉ s.ready := by
    rw [h.ready_eq]
    exact List.not_mem_nil
  have hsame : CoroSystem.Consistent { s with asked := s.asked ++ [fn] } :=
    ⟨hc.lt_of_alive, hc.lt_of_traced, hc.order, hc.fifo, hc.nodup⟩
  have hready : (CoroSystem.create { s with asked := s.asked ++ [fn] } fn).ready = [s.bodies.length] :=
    congrArg (· ++ [s.bodies.length]) h.ready_eq
  refine .fresh ⟨hsame.create hnew fn, fun d ↦ ?_, fun _ ↦ h.current_eq, ?_⟩ h.current_eq
  · rw [hready, List.mem_singleton, heap_create]
    by_cases hd : d = s.bodies.length
    · subst hd
      rw [Function.update_self]
      exact ⟨fun _ ↦ rfl, fun _ ↦ Option.some_ne_none _⟩
    · rw [Function.update_of_ne hd]
      exact ⟨fun hne ↦ absurd (h.dead d) hne, fun heq ↦ absurd heq hd⟩
  · have hfn : (CoroSystem.create { s with asked := s.asked ++ [fn] } fn).pendingFn = none := h.pendingFn_eq
    rw [hfn, Option.toList_none, List.append_nil]
    exact congrArg (· ++ [fn]) h.asked_eq

theorem CoroSystem.Between.idle {s : CoroSystem α W} (h : s.Between) : s.Idle := by
  induction h with
  | empty => exact ⟨consistent_empty, fun _ ↦ rfl, rfl, rfl, rfl, rfl⟩
  | go s fn s' _ hends ih =>
    obtain ⟨s'', heq, hidle⟩ := idle_of_ends (ih.latteGo fn) hends
    exact Option.some.inj heq ▸ hidle

/-! ## An outermost call -/

/-- The system, whoever has control. -/
def CoroConfig.system : CoroConfig α W → CoroSystem α W
  | .scheduler s => s
  | .coroutine s => s

omit [DecidableEq W] in
theorem CoroConfig.Inv.consistent {cfg : CoroConfig α W} (h : cfg.Inv) : cfg.system.Consistent := by
  cases cfg with
  | scheduler s =>
    cases h with
    | fresh h _ => exact h.consistent
    | back c r h _ _ => exact h.consistent
    | gone c r h _ _ _ _ => exact h.consistent
  | coroutine s =>
    obtain ⟨c, r, h⟩ := h
    exact h.consistent

theorem CoroConfig.Inv.ne_fault {cfg : CoroConfig α W} (h : cfg.Inv) : coroutineMachine cfg ≠ .inr none := by
  intro hfault
  obtain ⟨cfg', hnext, -⟩ | ⟨s, hlast, -⟩ := coroutineMachine_inv h
  · rw [hfault] at hnext
    cases hnext
  · rw [hfault] at hlast
    cases hlast

/-- **At every point of a run** under an outermost `latte_go` no coroutine that has been freed is used next;
what was pushed is what was resumed and then the queue, so that coroutines run in the order in which they
were pushed; no coroutine is in the queue twice, as its links require; and what a coroutine has done and
what is left of it is its body, nothing lost and nothing done twice. -/
theorem latteGo_run {s : CoroSystem α W} (h : s.Between) (fn : CoroBody α W) {cfg : CoroConfig α W}
    (hreach : StepMachine.Reaches coroutineMachine (latteGo s fn) cfg) :
    coroutineMachine cfg ≠ .inr none ∧
      cfg.system.pushed = cfg.system.resumed ++ cfg.system.ready ∧ cfg.system.ready.Nodup ∧
      ∀ c body, cfg.system.bodies[c]? = some body →
        eventsOf cfg.system.trace c ++ cfg.system.remaining c = body.events := by
  have hinv := inv_of_reaches (h.idle.latteGo fn) hreach
  exact ⟨hinv.ne_fault, hinv.consistent.fifo, hinv.consistent.nodup, hinv.consistent.order⟩

/-- One coroutine waits for another one that it has started. -/
theorem latteGo_run_wait :
    ∃ cfg, StepMachine.Reaches coroutineMachine
        (latteGo (empty : CoroSystem ℕ Unit)
          (.add () 1 (.go (.act 5 (.add () (-1) .done)) (.wait () .done)))) cfg ∧
      cfg.system.pushed = [0, 0, 1, 0] ∧ cfg.system.resumed = [0, 0, 1] ∧
      coroutineMachine cfg ≠ .inr none ∧
      cfg.system.pushed = cfg.system.resumed ++ cfg.system.ready ∧ cfg.system.ready.Nodup ∧
      ∀ c body, cfg.system.bodies[c]? = some body →
        eventsOf cfg.system.trace c ++ cfg.system.remaining c = body.events := by
  have hreach : StepMachine.Reaches coroutineMachine
      (latteGo (empty : CoroSystem ℕ Unit) (.add () 1 (.go (.act 5 (.add () (-1) .done)) (.wait () .done)))) _ :=
    .head rfl (.head rfl (.head rfl (.head rfl (.head rfl (.head rfl (.head rfl .refl))))))
  exact ⟨_, hreach, rfl, rfl, latteGo_run .empty _ hreach⟩

/-- **When an outermost `latte_go` returns**, everything that was passed to `latte_go` has become a
coroutine, in this order, each has done all of its body, each is freed, and each time one was pushed it was
resumed. -/
theorem latteGo_ends {s : CoroSystem α W} (h : s.Between) (fn : CoroBody α W) {o : Option (CoroSystem α W)}
    (hends : StepMachine.Ends coroutineMachine (latteGo s fn) o) :
    ∃ s', o = some s' ∧ s'.ready = [] ∧ s'.current = none ∧ (∀ c, s'.heap c = none) ∧ s'.bodies = s'.asked ∧
      s'.resumed = s'.pushed ∧
      ∀ c body, s'.bodies[c]? = some body → eventsOf s'.trace c = body.events := by
  obtain ⟨s', hs', hidle⟩ := idle_of_ends (h.idle.latteGo fn) hends
  have hfifo := hidle.consistent.fifo
  rw [hidle.ready_eq, List.append_nil] at hfifo
  refine ⟨s', hs', hidle.ready_eq, hidle.current_eq, hidle.dead, hidle.asked_eq.symm, hfifo.symm,
    fun c body hbody ↦ ?_⟩
  have horder := hidle.consistent.order c body hbody
  rw [CoroSystem.remaining, hidle.dead c, Option.elim_none, List.append_nil] at horder
  exact horder

theorem latteGo_ends_go :
    ∃ o, StepMachine.Ends coroutineMachine (latteGo (empty : CoroSystem ℕ Unit) (.go (.act 1 .done) .done)) o ∧
      ∃ s', o = some s' ∧ s'.ready = [] ∧ s'.current = none ∧ (∀ c, s'.heap c = none) ∧ s'.bodies = s'.asked ∧
        s'.resumed = s'.pushed ∧
        ∀ c body, s'.bodies[c]? = some body → eventsOf s'.trace c = body.events := by
  have hsome : (StepMachine.run coroutineMachine 12
    (latteGo (empty : CoroSystem ℕ Unit) (.go (.act 1 .done) .done))).isSome := rfl
  obtain ⟨o, ho⟩ := Option.isSome_iff_exists.mp hsome
  exact ⟨o, ⟨12, ho⟩, latteGo_ends .empty _ ⟨12, ho⟩⟩

end Runs

end LatteC
