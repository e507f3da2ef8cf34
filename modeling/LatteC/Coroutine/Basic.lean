import LatteC.Foundation.StepMachine
import Mathlib.Algebra.Order.Ring.Nat
import Mathlib.Data.List.Basic
import Mathlib.Logic.Function.Basic

/-!
# Coroutines

The scheduler of `src/coroutine/coroutine.c`. A saved context is what is left of a coroutine's body, and a
pointer to a coroutine is a number that `zmalloc` has not given out before. An access to a coroutine that
has been freed is a fault.

A body is finite, and so is what it passes to `latte_go`: a function that would yield for ever, or pass
itself to `latte_go` again and again, has no body here. The count of a wait group is an `int`, and wraps
around.

The ready queue is a list. It is linked through the coroutines themselves, so that this is right only as long as
no coroutine is in it twice.

Beside the variables of the source a state records what has happened: the bodies passed to `latte_go`, those
of the coroutines in the order of their creation, the events of every coroutine, and in which order
coroutines were pushed and resumed.
-/

namespace LatteC

variable {α W : Type*}

/-- What is left of a coroutine: finitely many local steps and calls of `coroutine.h`. -/
inductive CoroBody (α W : Type*)
  | done
  | act (a : α) (next : CoroBody α W)
  | yield (next : CoroBody α W)
  | go (fn next : CoroBody α W)
  | add (wg : W) (delta : Int32) (next : CoroBody α W)
  | wait (wg : W) (next : CoroBody α W)

/-- Something a coroutine has done. -/
inductive CoroEvent (α W : Type*)
  | act (a : α)
  | yield
  | go (fn : CoroBody α W)
  | add (wg : W) (delta : Int32)
  | wait (wg : W)

/-- What a body does from its start to its end. -/
def CoroBody.events : CoroBody α W → List (CoroEvent α W)
  | .done => []
  | .act a next => .act a :: next.events
  | .yield next => .yield :: next.events
  | .go fn next => .go fn :: next.events
  | .add wg delta next => .add wg delta :: next.events
  | .wait wg next => .wait wg :: next.events

/-- `LATTE_CORO_READY`, `LATTE_CORO_RUNNING`, `LATTE_CORO_DONE`. -/
inductive CoroState
  | ready
  | running
  | done
  deriving DecidableEq

/-- `latte_coroutine_t`: its `state`, and its `ctx`. -/
structure Coroutine (α W : Type*) where
  state : CoroState
  ctx : CoroBody α W

/-- The variables of the scheduler, the coroutines, the counts of the wait groups, and the history. -/
structure CoroSystem (α W : Type*) where
  heap : ℕ → Option (Coroutine α W)
  ready : List ℕ
  current : Option ℕ
  pendingFn : Option (CoroBody α W)
  counts : W → Int32
  asked : List (CoroBody α W)
  bodies : List (CoroBody α W)
  trace : List (ℕ × CoroEvent α W)
  pushed : List ℕ
  resumed : List ℕ

namespace CoroSystem

/-- No coroutine yet. -/
def empty : CoroSystem α W := ⟨fun _ ↦ none, [], none, none, fun _ ↦ 0, [], [], [], [], []⟩

/-- `push_ready`. -/
def pushReady (s : CoroSystem α W) (c : ℕ) : CoroSystem α W :=
  { s with ready := s.ready ++ [c], pushed := s.pushed ++ [c] }

/-- A new coroutine, at the end of the queue. -/
def create (s : CoroSystem α W) (fn : CoroBody α W) : CoroSystem α W :=
  pushReady { s with heap := Function.update s.heap s.bodies.length (some ⟨.ready, fn⟩),
                     bodies := s.bodies ++ [fn] } s.bodies.length

/-- A coroutine with another context and state. -/
def store (s : CoroSystem α W) (c : ℕ) (r : Coroutine α W) : CoroSystem α W :=
  { s with heap := Function.update s.heap c (some r) }

/-- `zfree`, for the coroutine that was running. -/
def release (s : CoroSystem α W) (c : ℕ) : CoroSystem α W :=
  { s with current := none, heap := Function.update s.heap c none }

/-- The first coroutine of the queue, popped, runs. -/
def resume (s : CoroSystem α W) (c : ℕ) (rest : List ℕ) (r : Coroutine α W) : CoroSystem α W :=
  { s with heap := Function.update s.heap c (some { r with state := .running }), ready := rest,
           current := some c, resumed := s.resumed ++ [c] }

/-- A coroutine did something. -/
def log (s : CoroSystem α W) (c : ℕ) (e : CoroEvent α W) : CoroSystem α W :=
  { s with trace := s.trace ++ [(c, e)] }

end CoroSystem

/-! ## The scheduler -/

open CoroSystem

/-- `run_scheduler` up to the `while`: the coroutine that gave control back is put into the queue, or freed. -/
def schedulerSettle (s : CoroSystem α W) : Option (CoroSystem α W) :=
  match s.current with
  | none => some s
  | some c =>
    (s.heap c).map fun r ↦
      match r.state with
      | .ready => pushReady s c
      | .done => release s c
      | .running => { s with current := none }

/-- `while (s_pending_fn != NULL)`: what a coroutine has passed to `latte_go` is created here. -/
def schedulerPending (s : CoroSystem α W) : CoroSystem α W :=
  match s.pendingFn with
  | none => s
  | some fn => create { s with pendingFn := none } fn

/-- `pop_ready` and `setcontext`; on an empty queue the loop is left. -/
def schedulerResume (s : CoroSystem α W) : Option (CoroSystem α W ⊕ CoroSystem α W) :=
  match s.ready with
  | [] => some (.inr s)
  | c :: rest => (s.heap c).map fun r ↦ .inl (resume s c rest r)

/-- One round of `run_scheduler`. -/
def runScheduler (s : CoroSystem α W) : Option (CoroSystem α W ⊕ CoroSystem α W) :=
  (schedulerSettle s).bind fun s ↦ schedulerResume (schedulerPending s)

/-! ## The coroutines -/

/-- Who has control. -/
inductive CoroConfig (α W : Type*)
  | scheduler (s : CoroSystem α W)
  | coroutine (s : CoroSystem α W)

/-- The next thing the running coroutine does. Where its body ends it goes on in `coro_wrapper`. -/
def coroutineStep [DecidableEq W] (s : CoroSystem α W) (c : ℕ) : CoroBody α W → CoroConfig α W
  | .done => .scheduler (store s c ⟨.done, .done⟩)
  | .act a next => .coroutine (log (store s c ⟨.running, next⟩) c (.act a))
  | .yield next => .scheduler (log (store s c ⟨.ready, next⟩) c .yield)
  | .go fn next =>
    .scheduler (log (pushReady { store s c ⟨.running, next⟩ with
      pendingFn := some fn, asked := s.asked ++ [fn] } c) c (.go fn))
  | .add wg delta next =>
    .coroutine (log { store s c ⟨.running, next⟩ with
      counts := Function.update s.counts wg (s.counts wg + delta) } c (.add wg delta))
  | .wait wg next =>
    -- `while (wg->count > 0) latte_yield();`
    if 0 < s.counts wg then .scheduler (store s c ⟨.ready, .wait wg next⟩)
    else .coroutine (log (store s c ⟨.running, next⟩) c (.wait wg))

/-- One step. It ends the run with the system behind the outermost `latte_go`, or with nothing if a
coroutine was used that is not there. -/
def coroutineMachine [DecidableEq W] : CoroConfig α W → CoroConfig α W ⊕ Option (CoroSystem α W)
  | .scheduler s =>
    match runScheduler s with
    | none => .inr none
    | some (.inl s) => .inl (.coroutine s)
    | some (.inr s) => .inr (some s)
  | .coroutine s =>
    match s.current with
    | none => .inr none
    | some c =>
      match s.heap c with
      | none => .inr none
      | some r => .inl (coroutineStep s c r.ctx)

/-- `latte_go`, outside of all coroutines. -/
def latteGo (s : CoroSystem α W) (fn : CoroBody α W) : CoroConfig α W :=
  .scheduler (create { s with asked := s.asked ++ [fn] } fn)

end LatteC
