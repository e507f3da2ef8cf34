import LatteC.Foundation.CallMachine
import LatteC.Vector.Basic

/-!
# The life of a thread pool

`src/thread_pool/thread_pool.c`: the threads of a pool are on a stack, the newest on top.

## Modelling

A thread is what `create_thread_func` returns; it may answer differently every time, so the answers for the
numbers it is called with come with each call. What is handed to `delete_thread_func` is recorded; there
`none` is `NULL`. An assertion that fails is a fault, `none`.

## The argument

A call of `latte_thread_pool_add_thread` puts a thread on the stack and a call of
`latte_thread_pool_delete_thread` hands one over, so that the threads created are those handed over and
those on the stack. The last loop goes up while the stack comes down, and they meet halfway.
-/

namespace LatteC

open Block

variable {T : Type} (M : Allocator T)

/-- `thread_pool_t`. -/
structure ThreadPool (T : Type) where
  threads : LatteVector T
  maxThreadNum : ℕ
  minThreadNum : ℕ

/-- `latte_thread_pool_add_thread`. -/
def latteThreadPoolAddThread (pool : ThreadPool T) (createThreadFunc : ℕ → Option T) :
    Option (ThreadPool T × Bool) :=
  if pool.threads.count < pool.maxThreadNum then
    match createThreadFunc pool.threads.count with
    | none => some (pool, false)
    | some thread => (vectorPush M pool.threads thread).map fun threads ↦
        ({ pool with threads := threads }, true)
  else none

/-- The loop of `latte_thread_pool_new`. -/
def threadPoolFill (createThreadFunc : ℕ → Option T) : (n : ℕ) → ThreadPool T → Option (ThreadPool T)
  | 0, pool => some pool
  | n + 1, pool => (latteThreadPoolAddThread M pool createThreadFunc).bind fun r ↦
      if r.2 then threadPoolFill createThreadFunc n r.1 else none

/-- `latte_thread_pool_new`. -/
def latteThreadPoolNew (minThreadNum maxThreadNum : ℕ) (createThreadFunc : ℕ → Option T) :
    Option (ThreadPool T) :=
  threadPoolFill M createThreadFunc minThreadNum ⟨vectorNew, maxThreadNum, minThreadNum⟩

/-- `latte_thread_pool_delete_thread`, with the thread that is handed to `delete_thread_func`. -/
def latteThreadPoolDeleteThread (pool : ThreadPool T) : Option (ThreadPool T × Option T) :=
  (vectorPop pool.threads).map fun r ↦ ({ pool with threads := r.1 }, r.2)

/-- The loop of `latte_thread_pool_delete`, with the threads that are handed over. -/
def threadPoolDeleteLoop : (fuel i : ℕ) → ThreadPool T → Option (ThreadPool T × List (Option T))
  | 0, _, _ => none
  | fuel + 1, i, pool =>
    if i < pool.threads.count then
      (latteThreadPoolDeleteThread pool).bind fun r ↦
        (threadPoolDeleteLoop fuel (i + 1) r.1).map fun q ↦ (q.1, r.2 :: q.2)
    else some (pool, [])

/-- `latte_thread_pool_delete`: the threads that are handed over. -/
def latteThreadPoolDelete (pool : ThreadPool T) : Option (List (Option T)) :=
  (threadPoolDeleteLoop (pool.threads.count + 1) 0 pool).map fun r ↦ r.2

/-- A call on a pool. -/
inductive PoolCall (T : Type) where
  | addThread (createThreadFunc : ℕ → Option T)
  | deleteThread

/-- What happened to a thread. -/
inductive PoolEvent (T : Type) where
  | created (thread : Option T)
  | handed (thread : Option T)

def poolStep (pool : ThreadPool T) : PoolCall T → Option (ThreadPool T × PoolEvent T)
  | .addThread createThreadFunc => (latteThreadPoolAddThread M pool createThreadFunc).map fun r ↦
      (r.1, .created (createThreadFunc pool.threads.count))
  | .deleteThread => (latteThreadPoolDeleteThread pool).map fun r ↦ (r.1, .handed r.2)

/-- A thread is deleted only if there is one. -/
def PoolDeleteAllowed (pool : ThreadPool T) : PoolCall T → Prop
  | .addThread _ => True
  | .deleteThread => 0 < pool.threads.count

instance (pool : ThreadPool T) : DecidablePred (PoolDeleteAllowed pool)
  | .addThread _ => isTrue trivial
  | .deleteThread => inferInstanceAs (Decidable (0 < pool.threads.count))

/-- The threads created. -/
def createdThreads (events : List (PoolEvent T)) : List T :=
  events.filterMap fun | .created thread => thread | .handed _ => none

/-- What was handed to `delete_thread_func`. -/
def handedThreads (events : List (PoolEvent T)) : List (Option T) :=
  events.filterMap fun | .created _ => none | .handed thread => some thread

/-! ## One call -/

/-- The threads `ts` are in the pool. -/
structure ThreadPool.Holds (max : ℕ) (pool : ThreadPool T) (ts : List T) : Prop where
  threads : pool.threads.Holds ts
  max_eq : pool.maxThreadNum = max
  length_le : ts.length ≤ max

section Calls

variable {M} {max : ℕ} {pool pool' : ThreadPool T} {ts : List T}

theorem ThreadPool.Holds.addThread (h : pool.Holds max ts) {createThreadFunc : ℕ → Option T} {ok : Bool}
    (hadd : latteThreadPoolAddThread M pool createThreadFunc = some (pool', ok)) :
    pool'.Holds max (ts ++ (createThreadFunc ts.length).toList) ∧
      ok = (createThreadFunc ts.length).isSome := by
  have hroom : ts.length < max := by
    by_contra hfull
    rw [latteThreadPoolAddThread, h.threads.count_eq, h.max_eq, if_neg hfull] at hadd
    exact Option.some_ne_none _ hadd.symm
  rw [latteThreadPoolAddThread, h.threads.count_eq, h.max_eq, if_pos hroom] at hadd
  cases hcreate : createThreadFunc ts.length with
  | none =>
    simp only [hcreate, Option.some.injEq, Prod.mk.injEq] at hadd
    obtain ⟨rfl, rfl⟩ := hadd
    rw [Option.toList_none, List.append_nil]
    exact ⟨h, rfl⟩
  | some thread =>
    obtain ⟨threads, hpush, hthreads⟩ := h.threads.push M thread
    simp only [hcreate, hpush, Option.map_some, Option.some.injEq, Prod.mk.injEq] at hadd
    obtain ⟨rfl, rfl⟩ := hadd
    refine ⟨⟨hthreads, rfl, ?_⟩, rfl⟩
    rw [Option.toList_some, List.length_append]
    exact hroom

theorem ThreadPool.Holds.deleteThread {t : T} (h : pool.Holds max (ts ++ [t])) :
    ∃ pool', latteThreadPoolDeleteThread pool = some (pool', some t) ∧ pool'.Holds max ts := by
  obtain ⟨threads, hpop, hthreads⟩ := h.threads.pop
  refine ⟨{ pool with threads := threads }, ?_, hthreads, h.max_eq, ?_⟩
  · rw [latteThreadPoolDeleteThread, hpop, Option.map_some]
  · have hle := h.length_le
    rw [List.length_append] at hle
    exact (Nat.le_add_right _ _).trans hle

/-- The threads created are those handed over and those that are left. -/
def ThreadsKept (ts : List T) (events : List (PoolEvent T)) (ts' : List T) : Prop :=
  ((ts ++ createdThreads events).map some).Perm (handedThreads events ++ ts'.map some)

theorem poolStep_spec (h : pool.Holds max ts) {call : PoolCall T} {event : PoolEvent T}
    (hok : PoolDeleteAllowed pool call) (hstep : poolStep M pool call = some (pool', event)) :
    ∃ ts', pool'.Holds max ts' ∧ ThreadsKept ts [event] ts' := by
  cases call with
  | addThread createThreadFunc =>
    rw [poolStep, Option.map_eq_some_iff] at hstep
    obtain ⟨⟨pool₁, ok⟩, hadd, heq⟩ := hstep
    obtain ⟨rfl, rfl⟩ := Prod.mk.inj heq
    refine ⟨_, (h.addThread hadd).1, ?_⟩
    rw [ThreadsKept, h.threads.count_eq]
    cases createThreadFunc ts.length with
    | none | some thread => exact List.Perm.refl _
  | deleteThread =>
    have hne : ts ≠ [] := List.ne_nil_of_length_pos (h.threads.count_eq ▸ hok)
    obtain ⟨ts', t, rfl⟩ := (List.eq_nil_or_concat' ts).resolve_left hne
    obtain ⟨pool₁, hdelete, hpool⟩ := h.deleteThread
    rw [poolStep, hdelete, Option.map_some, Option.some.injEq, Prod.mk.injEq] at hstep
    obtain ⟨rfl, rfl⟩ := hstep
    refine ⟨ts', hpool, ?_⟩
    change (((ts' ++ [t]) ++ []).map some).Perm ([some t] ++ ts'.map some)
    rw [List.append_nil, List.map_append]
    exact List.perm_append_comm

end Calls

/-! ## Runs -/

theorem createdThreads_cons (event : PoolEvent T) (events : List (PoolEvent T)) :
    createdThreads (event :: events) = createdThreads [event] ++ createdThreads events :=
  List.filterMap_append (l := [event])

theorem handedThreads_cons (event : PoolEvent T) (events : List (PoolEvent T)) :
    handedThreads (event :: events) = handedThreads [event] ++ handedThreads events :=
  List.filterMap_append (l := [event])

section Runs

variable {M} {max : ℕ} {pool pool' : ThreadPool T} {ts : List T}

theorem ThreadsKept.cons {ts' ts'' : List T} {event : PoolEvent T} {events : List (PoolEvent T)}
    (h : ThreadsKept ts [event] ts') (hs : ThreadsKept ts' events ts'') :
    ThreadsKept ts (event :: events) ts'' := by
  rw [ThreadsKept, List.map_append] at h hs
  rw [ThreadsKept, createdThreads_cons, handedThreads_cons, ← List.append_assoc, List.map_append,
    List.map_append, List.append_assoc (handedThreads [event])]
  refine (h.append_right _).trans ?_
  rw [List.append_assoc]
  exact hs.append_left _

theorem run_poolStep {calls : List (PoolCall T)} {events : List (PoolEvent T)} (h : pool.Holds max ts)
    (hok : CallMachine.Guarded PoolDeleteAllowed (poolStep M) pool calls)
    (hrun : CallMachine.run (poolStep M) pool calls = some (pool', events)) :
    ∃ ts', pool'.Holds max ts' ∧ ThreadsKept ts events ts' := by
  induction calls generalizing pool ts events with
  | nil =>
    rw [CallMachine.run_nil, Option.some.injEq, Prod.mk.injEq] at hrun
    obtain ⟨rfl, rfl⟩ := hrun
    refine ⟨ts, h, ?_⟩
    change ((ts ++ []).map some).Perm ([] ++ ts.map some)
    rw [List.append_nil, List.nil_append]
  | cons call calls ih =>
    obtain ⟨pool₁, event, events₁, hstep, hrest, rfl⟩ := CallMachine.run_cons_eq_some hrun
    obtain ⟨ts₁, h₁, hkept₁⟩ := poolStep_spec h hok.1 hstep
    obtain ⟨ts', h', hkept⟩ := ih h₁ (hok.2 _ _ hstep) hrest
    exact ⟨ts', h', hkept₁.cons hkept⟩

theorem threadPoolFill_spec {createThreadFunc : ℕ → Option T} {n : ℕ} (h : pool.Holds max ts)
    (hfill : threadPoolFill M createThreadFunc n pool = some pool') :
    pool'.Holds max (ts ++ (List.range' ts.length n).filterMap createThreadFunc) := by
  induction n generalizing pool ts with
  | zero =>
    rw [threadPoolFill, Option.some.injEq] at hfill
    subst hfill
    rwa [List.range'_zero, List.filterMap_nil, List.append_nil]
  | succ n ih =>
    rw [threadPoolFill, Option.bind_eq_some_iff] at hfill
    obtain ⟨⟨pool₁, ok⟩, hadd, hrest⟩ := hfill
    obtain ⟨h₁, rfl⟩ := h.addThread hadd
    cases hcreate : createThreadFunc ts.length with
    | none => simp [hcreate] at hrest
    | some thread =>
      simp only [hcreate, Option.isSome_some, if_true] at hrest
      rw [hcreate, Option.toList_some] at h₁
      have hfilled := ih h₁ hrest
      rw [List.length_append, List.length_singleton, List.append_assoc] at hfilled
      rw [List.range'_succ, List.filterMap_cons_some hcreate]
      exact hfilled

/-- The last loop: as many threads are left as its index has grown to when it stops. -/
theorem threadPoolDeleteLoop_spec {fuel i : ℕ} (h : pool.Holds max ts) (hfuel : ts.length < fuel)
    (hi : i ≤ ts.length + 1) : ∃ (pool' : ThreadPool T) (handed : List (Option T)) (ts' : List T),
      threadPoolDeleteLoop fuel i pool = some (pool', handed) ∧ ts'.length = (ts.length + i) / 2 ∧
      (ts.map some).Perm (handed ++ ts'.map some) := by
  induction fuel generalizing i pool ts with
  | zero => exact absurd hfuel (Nat.not_lt_zero _)
  | succ fuel ih =>
    rw [threadPoolDeleteLoop, h.threads.count_eq]
    split_ifs with hmore
    · have hne : ts ≠ [] := List.ne_nil_of_length_pos (by omega)
      obtain ⟨ts₁, t, rfl⟩ := (List.eq_nil_or_concat' ts).resolve_left hne
      rw [List.length_append, List.length_singleton] at *
      obtain ⟨pool₁, hdelete, h₁⟩ := h.deleteThread
      obtain ⟨pool', handed, ts', hloop, hlen, hperm⟩ := ih (i := i + 1) h₁ (by omega) (by omega)
      rw [hdelete, Option.bind_some, hloop, Option.map_some]
      refine ⟨pool', some t :: handed, ts', rfl, by omega, ?_⟩
      rw [List.map_append, List.map_singleton]
      exact List.perm_append_comm.trans (hperm.cons _)
    · exact ⟨pool, [], ts, rfl, by omega, List.Perm.refl _⟩

/-- **Half of the threads are forgotten.** In every run the pool holds at most `max_thread_num` threads.
When it is deleted, all threads that it ever created have been handed to `delete_thread_func`, each of
them once, if and only if there was at most one thread left in it. -/
theorem threadPool_lifetime {minThreadNum maxThreadNum : ℕ} {createThreadFunc : ℕ → Option T}
    {calls : List (PoolCall T)} {events : List (PoolEvent T)}
    (hnew : latteThreadPoolNew M minThreadNum maxThreadNum createThreadFunc = some pool)
    (hok : CallMachine.Guarded PoolDeleteAllowed (poolStep M) pool calls)
    (hrun : CallMachine.run (poolStep M) pool calls = some (pool', events)) :
    pool'.threads.count ≤ maxThreadNum ∧ ∃ handed, latteThreadPoolDelete pool' = some handed ∧
      ((handedThreads events ++ handed).Perm
        (((List.range minThreadNum).filterMap createThreadFunc ++ createdThreads events).map some) ↔
          pool'.threads.count ≤ 1) := by
  have hempty : (⟨vectorNew, maxThreadNum, minThreadNum⟩ : ThreadPool T).Holds maxThreadNum [] :=
    ⟨.new, rfl, Nat.zero_le _⟩
  have hpool := threadPoolFill_spec hempty hnew
  rw [List.nil_append, List.length_nil, ← List.range_eq_range'] at hpool
  obtain ⟨ts, hts, hkept⟩ := run_poolStep hpool hok hrun
  have hcount := hts.threads.count_eq
  have hfuel : ts.length < pool'.threads.count + 1 := hcount ▸ Nat.lt_succ_self _
  obtain ⟨pool₁, handed, ts', hloop, hlen, hperm⟩ :=
    threadPoolDeleteLoop_spec (i := 0) hts hfuel (Nat.zero_le _)
  refine ⟨hcount ▸ hts.length_le, handed, ?_, ?_⟩
  · rw [latteThreadPoolDelete, hloop, Option.map_some]
  · have hall := hkept.trans (hperm.append_left (handedThreads events))
    rw [← List.append_assoc] at hall
    constructor
    · intro hgiven
      have hlens := (hgiven.trans hall).length_eq
      simp only [List.length_append, List.length_map] at hlens
      omega
    · intro hone
      have hnil : ts' = [] := List.length_eq_zero_iff.mp (by omega)
      rw [hnil, List.map_nil, List.append_nil] at hall
      exact hall.symm

end Runs

theorem threadPool_lifetime_two : ∃ (pool' : ThreadPool ℕ) (events : List (PoolEvent ℕ)),
    CallMachine.run (poolStep (Allocator.fill 0)) ⟨⟨[0, 1], 2, 2⟩, 4, 2⟩
        [.addThread fun _ ↦ some 7, .addThread fun _ ↦ none, .deleteThread] = some (pool', events) ∧
      pool'.threads.count ≤ 4 ∧ ∃ handed, latteThreadPoolDelete pool' = some handed ∧
        ((handedThreads events ++ handed).Perm
          (((List.range 2).filterMap some ++ createdThreads events).map some) ↔ pool'.threads.count ≤ 1) := by
  have hnew : latteThreadPoolNew (Allocator.fill 0) 2 4 some = some ⟨⟨[0, 1], 2, 2⟩, 4, 2⟩ := rfl
  have hok : CallMachine.Guarded PoolDeleteAllowed (poolStep (Allocator.fill 0)) ⟨⟨[0, 1], 2, 2⟩, 4, 2⟩
      [.addThread fun _ ↦ some 7, .addThread fun _ ↦ none, .deleteThread] := by decide
  exact ⟨_, _, rfl, threadPool_lifetime hnew hok rfl⟩

/-- Of two threads the second one is handed over. -/
theorem not_threadPool_lifetime : ¬∀ (minThreadNum maxThreadNum : ℕ) (createThreadFunc : ℕ → Option ℕ)
    (pool : ThreadPool ℕ) (handed : List (Option ℕ)),
    latteThreadPoolNew (Allocator.fill 0) minThreadNum maxThreadNum createThreadFunc = some pool →
    latteThreadPoolDelete pool = some handed →
    handed.Perm (((List.range minThreadNum).filterMap createThreadFunc).map some) := by
  intro h
  have hperm := h 2 2 some _ _ rfl rfl
  exact absurd hperm.length_eq (by decide)

end LatteC
