import LatteC.Foundation.CallMachine
import Mathlib.Data.Finset.Basic
import Mathlib.Data.List.Nodup
import Mathlib.Logic.Function.Basic

/-!
# Locks on files

`envLockFile` and `envUnlockFile` of `src/fs/env.c`, called by any number of threads of one process, and other
processes that lock the same files. A thread is interrupted anywhere between two system calls; `set_lock` makes
one step of what is done under it.

The kernel keeps the locks of `fcntl` for each process and file: a process that closes any descriptor of a
file loses its lock on it. A file has one name here, and a lock that was handed out is passed to
`envUnlockFile` once.
-/

namespace LatteC

variable {T : Type*}

/-- `FileLock`. -/
structure FileLock where
  fd : ℤ
  filename : List UInt8
  deriving DecidableEq

/-- What a thread does next. -/
inductive LockPoint
  /-- It is in neither of the functions. -/
  | idle
  /-- `envLockFile`: the file is opened. -/
  | openFile (filename : List UInt8)
  /-- `set_add`. -/
  | setAdd (lock : FileLock)
  /-- `closeFile`, since another thread has the name. -/
  | closeHeld (lock : FileLock)
  /-- `lockFile`. -/
  | lockFile (lock : FileLock)
  /-- `closeFile`, since `lockFile` has failed. -/
  | closeFailed (lock : FileLock)
  /-- `set_remove`, since `lockFile` has failed. -/
  | setRemoveFailed (filename : List UInt8)
  /-- `envUnlockFile`: `unlockFile`. -/
  | unlockFile (lock : FileLock)
  /-- `set_remove`. -/
  | setRemove (lock : FileLock)
  /-- `closeFile`. -/
  | closeUnlocked (lock : FileLock)
  deriving DecidableEq

/-- Who has the `fcntl` lock of a file. -/
inductive FileOwner
  | nobody
  | us
  | other
  deriving DecidableEq

/-- The threads, `env->set`, the locks that were handed out, and the locks of the kernel. -/
structure LockSystem (T : Type*) where
  point : T → LockPoint
  set : Finset (List UInt8)
  locks : List FileLock
  owner : List UInt8 → FileOwner

/-- Nothing is locked by us. -/
def LockSystem.start (owner : List UInt8 → FileOwner) : LockSystem T := ⟨fun _ ↦ .idle, ∅, [], owner⟩

/-- What one of the functions returns, or that it has not returned yet. -/
inductive LockReply
  | pending
  | locked (lock : FileLock)
  | unlocked
  /-- The error of `open`. -/
  | openFailed (filename : List UInt8)
  /-- `lock file alreay held by process`. -/
  | held (filename : List UInt8)
  /-- `lock file %s`. -/
  | lockFailed (filename : List UInt8)
  /-- `unlock %s`. -/
  | unlockFailed (filename : List UInt8)

/-- What happens: a thread calls one of the functions, or makes its next step, or another process takes a
lock or gives it back. `result` is what a system call returns. -/
inductive LockAction (T : Type*)
  | envLockFile (t : T) (filename : List UInt8)
  | envUnlockFile (t : T) (lock : FileLock)
  | next (t : T) (result : ℤ)
  | otherLocks (filename : List UInt8)
  | otherUnlocks (filename : List UInt8)

/-- The process gives up its lock on a file, if it has one. -/
def dropLock (owner : List UInt8 → FileOwner) (filename : List UInt8) : List UInt8 → FileOwner :=
  if owner filename = .us then Function.update owner filename .nobody else owner

section Steps

variable [DecidableEq T]

/-- The thread goes on at another point. -/
def LockSystem.goTo (s : LockSystem T) (t : T) (p : LockPoint) : LockSystem T :=
  { s with point := Function.update s.point t p }

/-- `closeFile`, of a descriptor of this file, or `unlockFile`. -/
def LockSystem.drop (s : LockSystem T) (filename : List UInt8) : LockSystem T :=
  { s with owner := dropLock s.owner filename }

/-- The next step of a thread. It has no value if the kernel would not do this. -/
def lockNext (s : LockSystem T) (t : T) (result : ℤ) : LockPoint → Option (LockSystem T × LockReply)
  | .idle => none
  | .openFile filename =>
    if result < 0 then some (s.goTo t .idle, .openFailed filename)
    else some (s.goTo t (.setAdd ⟨result, filename⟩), .pending)
  | .setAdd lock =>
    if lock.filename ∈ s.set then some (s.goTo t (.closeHeld lock), .pending)
    else some ({ s with set := insert lock.filename s.set }.goTo t (.lockFile lock), .pending)
  | .closeHeld lock => some ((s.drop lock.filename).goTo t .idle, .held lock.filename)
  | .lockFile lock =>
    if result = -1 then some (s.goTo t (.closeFailed lock), .pending)
    else if s.owner lock.filename = .other then none
    else some ({ s with owner := Function.update s.owner lock.filename .us,
                        locks := lock :: s.locks }.goTo t .idle, .locked lock)
  | .closeFailed lock => some ((s.drop lock.filename).goTo t (.setRemoveFailed lock.filename), .pending)
  | .setRemoveFailed filename =>
    some ({ s with set := s.set.erase filename }.goTo t .idle, .lockFailed filename)
  | .unlockFile lock =>
    -- after an error the caller still has the lock
    if result = -1 then some ({ s with locks := lock :: s.locks }.goTo t .idle, .unlockFailed lock.filename)
    else some ((s.drop lock.filename).goTo t (.setRemove lock), .pending)
  | .setRemove lock =>
    some ({ s with set := s.set.erase lock.filename }.goTo t (.closeUnlocked lock), .pending)
  | .closeUnlocked lock => some ((s.drop lock.filename).goTo t .idle, .unlocked)

/-- One step of the system. -/
def lockStep (s : LockSystem T) : LockAction T → Option (LockSystem T × LockReply)
  | .envLockFile t filename =>
    if s.point t = .idle then some (s.goTo t (.openFile filename), .pending) else none
  | .envUnlockFile t lock =>
    if s.point t = .idle ∧ lock ∈ s.locks then
      some ({ s with locks := s.locks.erase lock }.goTo t (.unlockFile lock), .pending)
    else none
  | .next t result => lockNext s t result (s.point t)
  | .otherLocks filename =>
    if s.owner filename = .nobody then
      some ({ s with owner := Function.update s.owner filename .other }, .pending)
    else none
  | .otherUnlocks filename =>
    if s.owner filename = .other then
      some ({ s with owner := Function.update s.owner filename .nobody }, .pending)
    else none

end Steps

/-! ## Who has a name -/

/-- The name that a thread has put into `env->set`, or is about to take out. -/
def LockPoint.name : LockPoint → Option (List UInt8)
  | .lockFile lock => some lock.filename
  | .closeFailed lock => some lock.filename
  | .setRemoveFailed filename => some filename
  | .unlockFile lock => some lock.filename
  | .setRemove lock => some lock.filename
  | .idle => none
  | .openFile _ => none
  | .setAdd _ => none
  | .closeHeld _ => none
  | .closeUnlocked _ => none

/-- The names of the locks that were handed out. -/
def LockSystem.names (s : LockSystem T) : List (List UInt8) := s.locks.map FileLock.filename

/-- `holder` says who has each name: a thread, or, with `some none`, whoever called `envLockFile`. -/
structure LockSystem.HeldBy (s : LockSystem T) (holder : List UInt8 → Option (Option T)) : Prop where
  mem_set : ∀ f, f ∈ s.set ↔ holder f ≠ none
  thread : ∀ t f, (s.point t).name = some f ↔ holder f = some (some t)
  handed : ∀ f, f ∈ s.names ↔ holder f = some none
  nodup : s.names.Nodup

/-- Every name in `env->set` has one holder. -/
def LockSystem.Exclusive (s : LockSystem T) : Prop := ∃ holder, s.HeldBy holder

theorem some_some_ne (t : T) : some (some t) ≠ (some none : Option (Option T)) :=
  mt Option.some.inj (Option.some_ne_none t)

section Exclusive

variable {s : LockSystem T} {holder : List UInt8 → Option (Option T)} {t : T} {f : List UInt8}

theorem exclusive_start (owner : List UInt8 → FileOwner) : (LockSystem.start owner : LockSystem T).Exclusive := by
  refine ⟨fun _ ↦ none, fun f ↦ ?_, fun t f ↦ ?_, fun f ↦ ?_, List.nodup_nil⟩
  · exact ⟨fun h ↦ absurd h (Finset.notMem_empty f), fun h ↦ absurd rfl h⟩
  · exact ⟨fun h ↦ absurd h.symm (Option.some_ne_none f), fun h ↦ absurd h.symm (Option.some_ne_none _)⟩
  · exact ⟨fun h ↦ absurd h List.not_mem_nil, fun h ↦ absurd h.symm (Option.some_ne_none _)⟩

/-- Only the locks of the kernel change. -/
theorem LockSystem.HeldBy.owner (h : s.HeldBy holder) (owner : List UInt8 → FileOwner) :
    ({ s with owner := owner } : LockSystem T).HeldBy holder := ⟨h.mem_set, h.thread, h.handed, h.nodup⟩

variable [DecidableEq T]

theorem point_goTo (s : LockSystem T) (t : T) (p : LockPoint) :
    (s.goTo t p).point = Function.update s.point t p := rfl

/-- A thread goes on, and the name it has, if any, stays its own. -/
theorem LockSystem.HeldBy.goTo (h : s.HeldBy holder) {p : LockPoint} (hp : p.name = (s.point t).name) :
    (s.goTo t p).HeldBy holder where
  mem_set := h.mem_set
  thread t' f := by
    rw [← h.thread t' f, point_goTo]
    by_cases ht : t' = t
    · rw [ht, Function.update_self, hp]
    · rw [Function.update_of_ne ht]
  handed := h.handed
  nodup := h.nodup

/-- The name `f` passes from one holder to another, and the thread `t` is one of them, or none is. -/
theorem thread_update (hthread : ∀ t f, (s.point t).name = some f ↔ holder f = some (some t)) {p : LockPoint}
    {v : Option (Option T)} (hold : ∀ g, (s.point t).name = some g → g = f) (hnew : ∀ g, p.name = some g → g = f)
    (hv : p.name = some f ↔ v = some (some t)) (hv' : ∀ t', v = some (some t') → t' = t)
    (hf : ∀ t', holder f = some (some t') → t' = t) (t' : T) (g : List UInt8) :
    ((s.goTo t p).point t').name = some g ↔ Function.update holder f v g = some (some t') := by
  rw [point_goTo]
  by_cases hg : g = f
  · subst hg
    rw [Function.update_self]
    by_cases ht : t' = t
    · rw [ht, Function.update_self, hv]
    · rw [Function.update_of_ne ht, hthread]
      exact ⟨fun h ↦ absurd (hf t' h) ht, fun h ↦ absurd (hv' t' h) ht⟩
  · rw [Function.update_of_ne hg]
    by_cases ht : t' = t
    · rw [ht, Function.update_self, ← hthread]
      exact ⟨fun h ↦ absurd (hnew g h) hg, fun h ↦ absurd (hold g h) hg⟩
    · rw [Function.update_of_ne ht, hthread]

/-- The name `f` passes to `v`, in `env->set` and among the locks as well. -/
theorem LockSystem.HeldBy.pass (h : s.HeldBy holder) {p : LockPoint} {v : Option (Option T)}
    {set : Finset (List UInt8)} {locks : List FileLock} {owner : List UInt8 → FileOwner}
    (hthread : ∀ t' g, ((s.goTo t p).point t').name = some g ↔ Function.update holder f v g = some (some t'))
    (hset : ∀ g, g ≠ f → (g ∈ set ↔ g ∈ s.set)) (hsetf : f ∈ set ↔ v ≠ none)
    (hnames : ∀ g, g ≠ f → (g ∈ locks.map FileLock.filename ↔ g ∈ s.names))
    (hnamesf : f ∈ locks.map FileLock.filename ↔ v = some none) (hnodup : (locks.map FileLock.filename).Nodup) :
    (LockSystem.mk (Function.update s.point t p) set locks owner).HeldBy (Function.update holder f v) where
  mem_set g := by
    by_cases hg : g = f
    · rw [hg, Function.update_self, hsetf]
    · rw [Function.update_of_ne hg, ← h.mem_set, hset g hg]
  thread := hthread
  handed g := by
    by_cases hg : g = f
    · rw [hg, Function.update_self]
      exact hnamesf
    · rw [Function.update_of_ne hg, ← h.handed]
      exact hnames g hg
  nodup := hnodup

/-- `set_add`, of a name that nobody has. -/
theorem LockSystem.HeldBy.acquire (h : s.HeldBy holder) (hfree : f ∉ s.set) (hname : (s.point t).name = none)
    {p : LockPoint} (hp : p.name = some f) :
    ({ s with set := insert f s.set }.goTo t p).HeldBy (Function.update holder f (some (some t))) := by
  have hnone : holder f = none := not_not.mp (mt (h.mem_set f).mpr hfree)
  refine h.pass (thread_update h.thread ?_ ?_ ?_ ?_ ?_) (fun g hg ↦ ?_) ?_ (fun g _ ↦ Iff.rfl) ?_ h.nodup
  · exact fun g hg ↦ absurd (hname.symm.trans hg).symm (Option.some_ne_none g)
  · exact fun g hg ↦ (Option.some.inj (hp.symm.trans hg)).symm
  · exact ⟨fun _ ↦ rfl, fun _ ↦ hp⟩
  · exact fun t' ht ↦ (Option.some.inj (Option.some.inj ht)).symm
  · exact fun t' ht ↦ absurd (hnone.symm.trans ht).symm (Option.some_ne_none _)
  · rw [Finset.mem_insert, or_iff_right hg]
  · exact ⟨fun _ ↦ Option.some_ne_none _, fun _ ↦ Finset.mem_insert_self f s.set⟩
  · have hnot : f ∉ s.names := mt (h.handed f).mp (by rw [hnone]; exact (Option.some_ne_none _).symm)
    exact ⟨fun hmem ↦ absurd hmem hnot, fun hv ↦ absurd hv (some_some_ne t)⟩

/-- `set_remove`, by the thread that has the name. -/
theorem LockSystem.HeldBy.release (h : s.HeldBy holder) (hname : (s.point t).name = some f) {p : LockPoint}
    (hp : p.name = none) :
    ({ s with set := s.set.erase f }.goTo t p).HeldBy (Function.update holder f none) := by
  have hholder : holder f = some (some t) := (h.thread t f).mp hname
  refine h.pass (thread_update h.thread ?_ ?_ ?_ ?_ ?_) (fun g hg ↦ ?_) ?_ (fun g _ ↦ Iff.rfl) ?_ h.nodup
  · exact fun g hg ↦ (Option.some.inj (hname.symm.trans hg)).symm
  · exact fun g hg ↦ absurd (hp.symm.trans hg).symm (Option.some_ne_none g)
  · exact ⟨fun hf ↦ absurd (hp.symm.trans hf).symm (Option.some_ne_none f),
      fun hv ↦ absurd hv.symm (Option.some_ne_none _)⟩
  · exact fun t' ht ↦ absurd ht.symm (Option.some_ne_none _)
  · exact fun t' ht ↦ (Option.some.inj (Option.some.inj (hholder.symm.trans ht))).symm
  · rw [Finset.mem_erase, and_iff_right hg]
  · exact ⟨fun hmem ↦ absurd hmem (Finset.notMem_erase f s.set), fun hne ↦ absurd rfl hne⟩
  · have hnot : f ∉ s.names := mt (h.handed f).mp fun hf ↦ some_some_ne t (hholder.symm.trans hf)
    exact ⟨fun hmem ↦ absurd hmem hnot, fun hv ↦ absurd hv.symm (Option.some_ne_none _)⟩

/-- The thread that has the name returns a lock. -/
theorem LockSystem.HeldBy.handOut {lock : FileLock} (h : s.HeldBy holder)
    (hname : (s.point t).name = some lock.filename) {p : LockPoint} (hp : p.name = none)
    (owner : List UInt8 → FileOwner) :
    ({ s with locks := lock :: s.locks, owner := owner }.goTo t p).HeldBy
      (Function.update holder lock.filename (some none)) := by
  have hholder : holder lock.filename = some (some t) := (h.thread t _).mp hname
  have hnot : lock.filename ∉ s.names :=
    mt (h.handed _).mp fun hf ↦ some_some_ne t (hholder.symm.trans hf)
  refine h.pass (thread_update h.thread ?_ ?_ ?_ ?_ ?_) (fun g _ ↦ Iff.rfl) ?_ (fun g hg ↦ ?_) ?_ ?_
  · exact fun g hg ↦ (Option.some.inj (hname.symm.trans hg)).symm
  · exact fun g hg ↦ absurd (hp.symm.trans hg).symm (Option.some_ne_none g)
  · exact ⟨fun hf ↦ absurd (hp.symm.trans hf).symm (Option.some_ne_none _),
      fun hv ↦ absurd hv.symm (some_some_ne t)⟩
  · exact fun t' ht ↦ absurd ht.symm (some_some_ne t')
  · exact fun t' ht ↦ (Option.some.inj (Option.some.inj (hholder.symm.trans ht))).symm
  · exact ⟨fun _ ↦ Option.some_ne_none _,
      fun _ ↦ (h.mem_set _).mpr (by rw [hholder]; exact Option.some_ne_none _)⟩
  · rw [List.map_cons, List.mem_cons, or_iff_right hg]
    rfl
  · exact ⟨fun _ ↦ rfl, fun _ ↦ List.mem_cons_self⟩
  · rw [List.map_cons]
    exact List.nodup_cons.mpr ⟨hnot, h.nodup⟩

/-- A thread is given a lock back. -/
theorem LockSystem.HeldBy.takeBack {lock : FileLock} (h : s.HeldBy holder) (hmem : lock ∈ s.locks)
    (hname : (s.point t).name = none) {p : LockPoint} (hp : p.name = some lock.filename) :
    ({ s with locks := s.locks.erase lock }.goTo t p).HeldBy
      (Function.update holder lock.filename (some (some t))) := by
  have hperm : s.names.Perm (lock.filename :: (s.locks.erase lock).map FileLock.filename) :=
    (List.perm_cons_erase hmem).map FileLock.filename
  have hnodup := hperm.nodup_iff.mp h.nodup
  rw [List.nodup_cons] at hnodup
  have hholder : holder lock.filename = some none :=
    (h.handed _).mp (hperm.mem_iff.mpr List.mem_cons_self)
  refine h.pass (thread_update h.thread ?_ ?_ ?_ ?_ ?_) (fun g _ ↦ Iff.rfl) ?_ (fun g hg ↦ ?_) ?_ hnodup.2
  · exact fun g hg ↦ absurd (hname.symm.trans hg).symm (Option.some_ne_none g)
  · exact fun g hg ↦ (Option.some.inj (hp.symm.trans hg)).symm
  · exact ⟨fun _ ↦ rfl, fun _ ↦ hp⟩
  · exact fun t' ht ↦ (Option.some.inj (Option.some.inj ht)).symm
  · exact fun t' ht ↦ absurd (hholder.symm.trans ht).symm (some_some_ne t')
  · exact ⟨fun _ ↦ Option.some_ne_none _,
      fun _ ↦ (h.mem_set _).mpr (by rw [hholder]; exact Option.some_ne_none _)⟩
  · rw [hperm.mem_iff, List.mem_cons, or_iff_right hg]
  · exact ⟨fun hf ↦ absurd hf hnodup.1, fun hv ↦ absurd hv (some_some_ne t)⟩

/-- **The next step of a thread** leaves every name with one holder. -/
theorem exclusive_lockNext (h : s.Exclusive) {result : ℤ} {s' : LockSystem T} {reply : LockReply}
    (hs : lockNext s t result (s.point t) = some (s', reply)) : s'.Exclusive := by
  obtain ⟨holder, h⟩ := h
  cases hp : s.point t with
  | idle =>
    rw [hp] at hs
    cases hs
  | openFile filename =>
    rw [hp, lockNext] at hs
    split_ifs at hs <;> obtain ⟨rfl, -⟩ := Prod.mk.inj (Option.some.inj hs) <;>
      exact ⟨holder, h.goTo (by rw [hp]; rfl)⟩
  | setAdd lock =>
    rw [hp, lockNext] at hs
    split_ifs at hs with hmem
    · obtain ⟨rfl, -⟩ := Prod.mk.inj (Option.some.inj hs)
      exact ⟨holder, h.goTo (by rw [hp]; rfl)⟩
    · obtain ⟨rfl, -⟩ := Prod.mk.inj (Option.some.inj hs)
      exact ⟨_, h.acquire hmem (by rw [hp]; rfl) rfl⟩
  | closeHeld lock =>
    rw [hp, lockNext] at hs
    obtain ⟨rfl, -⟩ := Prod.mk.inj (Option.some.inj hs)
    exact ⟨holder, (h.owner _).goTo (by rw [hp]; rfl)⟩
  | lockFile lock =>
    rw [hp, lockNext] at hs
    split_ifs at hs
    · obtain ⟨rfl, -⟩ := Prod.mk.inj (Option.some.inj hs)
      exact ⟨holder, h.goTo (by rw [hp]; rfl)⟩
    · obtain ⟨rfl, -⟩ := Prod.mk.inj (Option.some.inj hs)
      exact ⟨_, h.handOut (by rw [hp]; rfl) rfl _⟩
  | closeFailed lock =>
    rw [hp, lockNext] at hs
    obtain ⟨rfl, -⟩ := Prod.mk.inj (Option.some.inj hs)
    exact ⟨holder, (h.owner _).goTo (by rw [hp]; rfl)⟩
  | setRemoveFailed filename =>
    rw [hp, lockNext] at hs
    obtain ⟨rfl, -⟩ := Prod.mk.inj (Option.some.inj hs)
    exact ⟨_, h.release (by rw [hp]; rfl) rfl⟩
  | unlockFile lock =>
    rw [hp, lockNext] at hs
    split_ifs at hs
    · obtain ⟨rfl, -⟩ := Prod.mk.inj (Option.some.inj hs)
      exact ⟨_, h.handOut (by rw [hp]; rfl) rfl s.owner⟩
    · obtain ⟨rfl, -⟩ := Prod.mk.inj (Option.some.inj hs)
      exact ⟨holder, (h.owner _).goTo (by rw [hp]; rfl)⟩
  | setRemove lock =>
    rw [hp, lockNext] at hs
    obtain ⟨rfl, -⟩ := Prod.mk.inj (Option.some.inj hs)
    exact ⟨_, h.release (by rw [hp]; rfl) rfl⟩
  | closeUnlocked lock =>
    rw [hp, lockNext] at hs
    obtain ⟨rfl, -⟩ := Prod.mk.inj (Option.some.inj hs)
    exact ⟨holder, (h.owner _).goTo (by rw [hp]; rfl)⟩

theorem exclusive_lockStep {a : LockAction T} (h : s.Exclusive) {s' : LockSystem T} {reply : LockReply}
    (hs : lockStep s a = some (s', reply)) : s'.Exclusive := by
  cases a with
  | envLockFile t filename =>
    rw [lockStep] at hs
    split_ifs at hs with hidle
    obtain ⟨rfl, -⟩ := Prod.mk.inj (Option.some.inj hs)
    obtain ⟨holder, h⟩ := h
    exact ⟨holder, h.goTo (by rw [hidle]; rfl)⟩
  | envUnlockFile t lock =>
    rw [lockStep] at hs
    split_ifs at hs with hidle
    obtain ⟨rfl, -⟩ := Prod.mk.inj (Option.some.inj hs)
    obtain ⟨holder, h⟩ := h
    exact ⟨_, h.takeBack hidle.2 (by rw [hidle.1]; rfl) rfl⟩
  | next t result => exact exclusive_lockNext h hs
  | otherLocks filename =>
    rw [lockStep] at hs
    split_ifs at hs
    obtain ⟨rfl, -⟩ := Prod.mk.inj (Option.some.inj hs)
    obtain ⟨holder, h⟩ := h
    exact ⟨holder, h.owner _⟩
  | otherUnlocks filename =>
    rw [lockStep] at hs
    split_ifs at hs
    obtain ⟨rfl, -⟩ := Prod.mk.inj (Option.some.inj hs)
    obtain ⟨holder, h⟩ := h
    exact ⟨holder, h.owner _⟩

end Exclusive

/-! ## The locks of the kernel -/

/-- The name of the lock that a thread is about to give back to the kernel. -/
def LockPoint.unlocking : LockPoint → Option (List UInt8)
  | .unlockFile lock => some lock.filename
  | _ => none

/-- The file of which a thread is about to close a descriptor. -/
def LockPoint.closes : LockPoint → Option (List UInt8)
  | .closeHeld lock => some lock.filename
  | .closeFailed lock => some lock.filename
  | .closeUnlocked lock => some lock.filename
  | _ => none

/-- The file of which a step closes a descriptor. -/
def lockCloses (s : LockSystem T) : LockAction T → Option (List UInt8)
  | .next t _ => (s.point t).closes
  | _ => none

/-- A lock on the file was handed out, and was not given back to the kernel. -/
def LockSystem.InUse (s : LockSystem T) (f : List UInt8) : Prop :=
  f ∈ s.names ∨ ∃ t, (s.point t).unlocking = some f

/-- What was handed out as locked is locked. -/
def LockSystem.Backed (s : LockSystem T) : Prop := ∀ f, s.InUse f → s.owner f = .us

section Backed

variable {s s' : LockSystem T} {t : T} {f g : List UInt8} {p : LockPoint}

theorem dropLock_of_ne (owner : List UInt8 → FileOwner) (hg : g ≠ f) : dropLock owner f g = owner g := by
  rw [dropLock]
  split_ifs
  · rw [Function.update_of_ne hg]
  · rfl

theorem dropLock_self_ne (owner : List UInt8 → FileOwner) (f : List UInt8) : dropLock owner f f ≠ .us := by
  rw [dropLock]
  split_ifs with hus
  · rw [Function.update_self]
    decide
  · exact hus

theorem LockPoint.name_of_unlocking (h : p.unlocking = some f) : p.name = some f := by
  cases p with
  | unlockFile lock => exact h
  | _ => cases h

theorem LockSystem.Backed.mono (h : s.Backed) (hsub : ∀ g, s'.InUse g → s.InUse g) (howner : s'.owner = s.owner) :
    s'.Backed := fun g hg ↦ by
  rw [howner]
  exact h g (hsub g hg)

/-- No descriptor is closed. -/
theorem backed_iff_of_keeps (h : s'.Backed) : s'.Backed ↔ ∀ g, none = some g → ¬ s.InUse g :=
  iff_of_true h fun g hg ↦ absurd hg.symm (Option.some_ne_none g)

/-- A name that is in use has no other holder. -/
theorem LockSystem.Exclusive.not_inUse (h : s.Exclusive) (ht : (s.point t).name = some f)
    (hf : (s.point t).unlocking ≠ some f) : ¬ s.InUse f := by
  obtain ⟨holder, h⟩ := h
  have hholder := (h.thread t f).mp ht
  rintro (hmem | ⟨t', ht'⟩)
  · exact some_some_ne t (hholder.symm.trans ((h.handed f).mp hmem))
  · have hsame := hholder.symm.trans ((h.thread t' f).mp (LockPoint.name_of_unlocking ht'))
    obtain rfl := Option.some.inj (Option.some.inj hsame)
    exact hf ht'

/-- Another process takes a lock or gives one back. -/
theorem LockSystem.Backed.other (h : s.Backed) {o : FileOwner} (ho : s.owner f ≠ .us) :
    ({ s with owner := Function.update s.owner f o } : LockSystem T).Backed := fun g hg ↦ by
  have huse : s.InUse g := hg
  have hne : g ≠ f := fun heq ↦ ho (heq ▸ h g huse)
  exact (Function.update_of_ne hne _ _).trans (h g huse)

variable [DecidableEq T]

/-- A thread goes on, and does not come to `unlockFile`. -/
theorem inUse_of_goTo (hp : p.unlocking = none) (h : (s.goTo t p).InUse g) : s.InUse g := by
  obtain hmem | ⟨t', ht'⟩ := h
  · exact Or.inl hmem
  · rw [point_goTo] at ht'
    by_cases ht : t' = t
    · rw [ht, Function.update_self, hp] at ht'
      exact absurd ht'.symm (Option.some_ne_none g)
    · rw [Function.update_of_ne ht] at ht'
      exact Or.inr ⟨t', ht'⟩

/-- **A descriptor is closed.** The locks stay those of the kernel if and only if the file is not in use. -/
theorem backed_drop_iff (h : s.Backed) (hpoint : (s.point t).unlocking = none) (hp : p.unlocking = none) :
    ((s.drop f).goTo t p).Backed ↔ ∀ g, some f = some g → ¬ s.InUse g := by
  constructor
  · intro hbacked g hg huse
    obtain rfl := Option.some.inj hg
    refine dropLock_self_ne s.owner f (hbacked f ?_)
    obtain hmem | ⟨t', ht'⟩ := huse
    · exact Or.inl hmem
    · have hne : t' ≠ t := fun ht ↦ by
        rw [ht, hpoint] at ht'
        exact absurd ht'.symm (Option.some_ne_none f)
      refine Or.inr ⟨t', ?_⟩
      rw [point_goTo, Function.update_of_ne hne]
      exact ht'
  · intro hfree g hg
    have huse : s.InUse g := inUse_of_goTo (s := s.drop f) hp hg
    have hne : g ≠ f := fun heq ↦ hfree f rfl (heq ▸ huse)
    exact (dropLock_of_ne s.owner hne).trans (h g huse)

/-- **One step of a thread.** -/
theorem backed_lockNext (hex : s.Exclusive) (h : s.Backed) {result : ℤ} {reply : LockReply}
    (hs : lockNext s t result (s.point t) = some (s', reply)) :
    s'.Backed ↔ ∀ f, (s.point t).closes = some f → ¬ s.InUse f := by
  cases hp : s.point t with
  | idle =>
    rw [hp] at hs
    cases hs
  | openFile filename =>
    rw [hp, lockNext] at hs
    refine backed_iff_of_keeps ?_
    split_ifs at hs <;> obtain ⟨rfl, -⟩ := Prod.mk.inj (Option.some.inj hs) <;>
      exact h.mono (fun g hg ↦ inUse_of_goTo rfl hg) rfl
  | setAdd lock =>
    rw [hp, lockNext] at hs
    refine backed_iff_of_keeps ?_
    split_ifs at hs <;> obtain ⟨rfl, -⟩ := Prod.mk.inj (Option.some.inj hs) <;>
      exact h.mono (fun g hg ↦ inUse_of_goTo (s := s) rfl hg) rfl
  | closeHeld lock =>
    rw [hp, lockNext] at hs
    obtain ⟨rfl, -⟩ := Prod.mk.inj (Option.some.inj hs)
    exact backed_drop_iff h (by rw [hp]; rfl) rfl
  | lockFile lock =>
    rw [hp, lockNext] at hs
    refine backed_iff_of_keeps ?_
    split_ifs at hs
    · obtain ⟨rfl, -⟩ := Prod.mk.inj (Option.some.inj hs)
      exact h.mono (fun g hg ↦ inUse_of_goTo rfl hg) rfl
    · obtain ⟨rfl, -⟩ := Prod.mk.inj (Option.some.inj hs)
      intro g hg
      change Function.update s.owner lock.filename .us g = .us
      by_cases hgf : g = lock.filename
      · rw [hgf, Function.update_self]
      · rw [Function.update_of_ne hgf]
        refine h g ?_
        obtain hmem | hunlock := hg
        · exact Or.inl ((List.mem_cons.mp hmem).resolve_left hgf)
        · exact inUse_of_goTo (s := s) rfl (Or.inr hunlock)
  | closeFailed lock =>
    rw [hp, lockNext] at hs
    obtain ⟨rfl, -⟩ := Prod.mk.inj (Option.some.inj hs)
    exact backed_drop_iff h (by rw [hp]; rfl) rfl
  | setRemoveFailed filename =>
    rw [hp, lockNext] at hs
    refine backed_iff_of_keeps ?_
    obtain ⟨rfl, -⟩ := Prod.mk.inj (Option.some.inj hs)
    exact h.mono (fun g hg ↦ inUse_of_goTo (s := s) rfl hg) rfl
  | unlockFile lock =>
    rw [hp, lockNext] at hs
    refine backed_iff_of_keeps ?_
    split_ifs at hs
    · obtain ⟨rfl, -⟩ := Prod.mk.inj (Option.some.inj hs)
      refine h.mono (fun g hg ↦ ?_) rfl
      obtain hmem | hunlock := hg
      · obtain rfl | hmem := List.mem_cons.mp hmem
        · exact Or.inr ⟨t, by rw [hp]; rfl⟩
        · exact Or.inl hmem
      · exact inUse_of_goTo (s := s) rfl (Or.inr hunlock)
    · obtain ⟨rfl, -⟩ := Prod.mk.inj (Option.some.inj hs)
      -- the thread was the only holder of the name, and has gone on
      have hex' : (s.goTo t (.setRemove lock)).Exclusive := by
        obtain ⟨holder, hheld⟩ := hex
        exact ⟨holder, hheld.goTo (by rw [hp]; rfl)⟩
      have hfree : ¬ (s.goTo t (.setRemove lock)).InUse lock.filename := by
        refine hex'.not_inUse (t := t) ?_ ?_ <;> rw [point_goTo, Function.update_self]
        · rfl
        · exact (Option.some_ne_none _).symm
      intro g hg
      have hne : g ≠ lock.filename := fun heq ↦ hfree (heq ▸ hg)
      exact (dropLock_of_ne s.owner hne).trans (h g (inUse_of_goTo (s := s) rfl hg))
  | setRemove lock =>
    rw [hp, lockNext] at hs
    refine backed_iff_of_keeps ?_
    obtain ⟨rfl, -⟩ := Prod.mk.inj (Option.some.inj hs)
    exact h.mono (fun g hg ↦ inUse_of_goTo (s := s) rfl hg) rfl
  | closeUnlocked lock =>
    rw [hp, lockNext] at hs
    obtain ⟨rfl, -⟩ := Prod.mk.inj (Option.some.inj hs)
    exact backed_drop_iff h (by rw [hp]; rfl) rfl

/-- **One step of the system.** -/
theorem backed_lockStep (hex : s.Exclusive) (h : s.Backed) {a : LockAction T} {reply : LockReply}
    (hs : lockStep s a = some (s', reply)) : s'.Backed ↔ ∀ f, lockCloses s a = some f → ¬ s.InUse f := by
  cases a with
  | next t result => exact backed_lockNext hex h hs
  | envLockFile t filename =>
    rw [lockStep] at hs
    refine backed_iff_of_keeps ?_
    split_ifs at hs
    obtain ⟨rfl, -⟩ := Prod.mk.inj (Option.some.inj hs)
    exact h.mono (fun g hg ↦ inUse_of_goTo rfl hg) rfl
  | envUnlockFile t lock =>
    rw [lockStep] at hs
    refine backed_iff_of_keeps ?_
    split_ifs at hs with hidle
    obtain ⟨rfl, -⟩ := Prod.mk.inj (Option.some.inj hs)
    refine h.mono (fun g hg ↦ ?_) rfl
    obtain hmem | ⟨t', ht'⟩ := hg
    · obtain ⟨l, hl, rfl⟩ := List.mem_map.mp hmem
      exact Or.inl (List.mem_map_of_mem (List.mem_of_mem_erase hl))
    · rw [point_goTo] at ht'
      by_cases ht : t' = t
      · rw [ht, Function.update_self] at ht'
        exact Or.inl (Option.some.inj ht' ▸ List.mem_map_of_mem hidle.2)
      · rw [Function.update_of_ne ht] at ht'
        exact Or.inr ⟨t', ht'⟩
  | otherLocks filename =>
    rw [lockStep] at hs
    refine backed_iff_of_keeps ?_
    split_ifs at hs with howner
    obtain ⟨rfl, -⟩ := Prod.mk.inj (Option.some.inj hs)
    exact h.other (by rw [howner]; decide)
  | otherUnlocks filename =>
    rw [lockStep] at hs
    refine backed_iff_of_keeps ?_
    split_ifs at hs with howner
    obtain ⟨rfl, -⟩ := Prod.mk.inj (Option.some.inj hs)
    exact h.other (by rw [howner]; decide)

end Backed

/-! ## Runs -/

section Runs

variable [DecidableEq T] {owner : List UInt8 → FileOwner} {actions : List (LockAction T)} {s : LockSystem T}
  {replies : List LockReply}

theorem exclusive_of_run (hrun : CallMachine.run lockStep (.start owner) actions = some (s, replies)) :
    s.Exclusive :=
  CallMachine.run_invariant (fun _ _ _ _ h hs ↦ exclusive_lockStep h hs) (exclusive_start owner) hrun

/-- **Within the process a file is locked once.** Whatever the threads do and however they are interleaved,
no two locks that were handed out are of one file, and `env->set` has exactly the names of these locks and
those that one single thread is about to hand out or to take out. -/
theorem envLockFile_exclusive (hrun : CallMachine.run lockStep (.start owner) actions = some (s, replies)) :
    s.names.Nodup ∧ (∀ f, f ∈ s.set ↔ f ∈ s.names ∨ ∃ t, (s.point t).name = some f) ∧
      (∀ t t' f, (s.point t).name = some f → (s.point t').name = some f → t = t') ∧
      ∀ t f, (s.point t).name = some f → f ∉ s.names := by
  obtain ⟨holder, h⟩ := exclusive_of_run hrun
  refine ⟨h.nodup, fun f ↦ ?_, fun t t' f ht ht' ↦ ?_, fun t f ht hmem ↦ ?_⟩
  · rw [h.mem_set, h.handed]
    constructor
    · intro hne
      obtain ⟨v, hv⟩ := Option.ne_none_iff_exists'.mp hne
      cases v with
      | none => exact Or.inl hv
      | some t => exact Or.inr ⟨t, (h.thread t f).mpr hv⟩
    · rintro (hv | ⟨t, ht⟩)
      · exact hv ▸ Option.some_ne_none _
      · exact (h.thread t f).mp ht ▸ Option.some_ne_none _
  · have hsame := ((h.thread t f).mp ht).symm.trans ((h.thread t' f).mp ht')
    exact Option.some.inj (Option.some.inj hsame)
  · exact some_some_ne t (((h.thread t f).mp ht).symm.trans ((h.handed f).mp hmem))

theorem envLockFile_exclusive_one :
    ∃ s replies, CallMachine.run lockStep (.start fun _ ↦ .nobody : LockSystem ℕ)
        [.envLockFile 0 [120], .next 0 3, .next 0 0, .next 0 0] = some (s, replies) ∧
      s.names.Nodup ∧ (∀ f, f ∈ s.set ↔ f ∈ s.names ∨ ∃ t, (s.point t).name = some f) ∧
      (∀ t t' f, (s.point t).name = some f → (s.point t').name = some f → t = t') ∧
      ∀ t f, (s.point t).name = some f → f ∉ s.names := by
  have hrun : CallMachine.run lockStep (.start fun _ ↦ .nobody : LockSystem ℕ)
    [.envLockFile 0 [120], .next 0 3, .next 0 0, .next 0 0] = some (_, _) := rfl
  exact ⟨_, _, hrun, envLockFile_exclusive hrun⟩

/-- **Among processes it need not be.** As long as no descriptor of a file is closed while a lock on the
file is out, every lock that is out is a lock of the kernel, and the first step that does close one loses
the lock. -/
theorem envLockFile_backed (hrun : CallMachine.run lockStep (.start owner) actions = some (s, replies))
    (hguard : CallMachine.Guarded (fun s a ↦ ∀ f, lockCloses s a = some f → ¬ s.InUse f) lockStep
      (LockSystem.start owner) actions) {a : LockAction T} {s' : LockSystem T} {reply : LockReply}
    (hs : lockStep s a = some (s', reply)) :
    s.Backed ∧ (s'.Backed ↔ ∀ f, lockCloses s a = some f → ¬ s.InUse f) := by
  have hstart : (LockSystem.start owner : LockSystem T).Backed := by
    rintro f (hmem | ⟨t, ht⟩)
    · exact absurd hmem List.not_mem_nil
    · exact absurd ht.symm (Option.some_ne_none f)
  have hinv : s.Exclusive ∧ s.Backed :=
    CallMachine.run_invariant_of_guarded (P := fun s ↦ s.Exclusive ∧ s.Backed)
      (fun _ _ _ _ h hok hs ↦ ⟨exclusive_lockStep h.1 hs, (backed_lockStep h.1 h.2 hs).mpr hok⟩)
      ⟨exclusive_start owner, hstart⟩ hguard hrun
  exact ⟨hinv.2, backed_lockStep hinv.1 hinv.2 hs⟩

/-- A file is locked, and then a second thread opens it and closes it again. -/
theorem envLockFile_backed_one :
    ∃ s replies s' reply, CallMachine.run lockStep (.start fun _ ↦ .nobody : LockSystem ℕ)
        [.envLockFile 0 [120], .next 0 3, .next 0 0, .next 0 0, .envLockFile 1 [120], .next 1 4,
          .next 1 0] = some (s, replies) ∧
      lockStep s (.next 1 0) = some (s', reply) ∧ s.Backed ∧ ¬ s'.Backed := by
  have hrun : CallMachine.run lockStep (.start fun _ ↦ .nobody : LockSystem ℕ)
    [.envLockFile 0 [120], .next 0 3, .next 0 0, .next 0 0, .envLockFile 1 [120], .next 1 4,
      .next 1 0] = some (_, _) := rfl
  have hnone : ∀ {f : List UInt8} {P : Prop}, none = some f → P := fun h ↦ by cases h
  have hbacked := envLockFile_backed (a := .next 1 0) hrun
    (.cons rfl (fun _ ↦ hnone) <| .cons rfl (fun _ ↦ hnone) <| .cons rfl (fun _ ↦ hnone) <|
      .cons rfl (fun _ ↦ hnone) <| .cons rfl (fun _ ↦ hnone) <| .cons rfl (fun _ ↦ hnone) <|
        .cons rfl (fun _ ↦ hnone) trivial) rfl
  exact ⟨_, _, _, _, hrun, rfl, hbacked.1, fun h ↦ hbacked.2.mp h [120] rfl (.inl List.mem_cons_self)⟩

/-- **A refused attempt loses the lock.** When a file is locked and a thread of the same process tries to
lock it, it is told that the file is held; behind that the lock that is out is not a lock of the kernel any
more. -/
theorem envLockFile_held (hrun : CallMachine.run lockStep (.start owner) actions = some (s, replies))
    {lock : FileLock} (hlock : lock ∈ s.locks) {t : T} (hidle : s.point t = .idle) {fd : ℤ} (hfd : 0 ≤ fd) :
    ∃ s', CallMachine.run lockStep s [.envLockFile t lock.filename, .next t fd, .next t 0, .next t 0] =
        some (s', [.pending, .pending, .pending, .held lock.filename]) ∧
      lock ∈ s'.locks ∧ s'.owner lock.filename ≠ .us := by
  obtain ⟨holder, h⟩ := exclusive_of_run hrun
  have hmem : lock.filename ∈ s.set := by
    rw [h.mem_set, (h.handed _).mp (List.mem_map_of_mem hlock)]
    exact Option.some_ne_none _
  have hcall : lockStep s (.envLockFile t lock.filename) = some (s.goTo t (.openFile lock.filename), .pending) :=
    if_pos hidle
  have hopen : ∀ s₁ : LockSystem T, s₁.point t = .openFile lock.filename →
      lockStep s₁ (.next t fd) = some (s₁.goTo t (.setAdd ⟨fd, lock.filename⟩), .pending) := fun s₁ h₁ ↦ by
    rw [lockStep, h₁, lockNext, if_neg (not_lt.mpr hfd)]
  have hadd : ∀ s₁ : LockSystem T, s₁.point t = .setAdd ⟨fd, lock.filename⟩ → s₁.set = s.set →
      lockStep s₁ (.next t 0) = some (s₁.goTo t (.closeHeld ⟨fd, lock.filename⟩), .pending) := fun s₁ h₁ hset ↦ by
    rw [lockStep, h₁, lockNext, hset, if_pos hmem]
  have hclose : ∀ s₁ : LockSystem T, s₁.point t = .closeHeld ⟨fd, lock.filename⟩ →
      lockStep s₁ (.next t 0) = some ((s₁.drop lock.filename).goTo t .idle, .held lock.filename) := fun s₁ h₁ ↦ by
    rw [lockStep, h₁, lockNext]
  refine ⟨((((s.goTo t (.openFile lock.filename)).goTo t (.setAdd ⟨fd, lock.filename⟩)).goTo t
    (.closeHeld ⟨fd, lock.filename⟩)).drop lock.filename).goTo t .idle, ?_, hlock, dropLock_self_ne s.owner _⟩
  rw [CallMachine.run_cons_of_step hcall,
    CallMachine.run_cons_of_step (hopen (s.goTo t _) (Function.update_self _ _ _)),
    CallMachine.run_cons_of_step (hadd ((s.goTo t _).goTo t _) (Function.update_self _ _ _) rfl),
    CallMachine.run_cons_of_step (hclose (((s.goTo t _).goTo t _).goTo t _) (Function.update_self _ _ _))]
  rfl

theorem envLockFile_held_two :
    ∃ s replies, CallMachine.run lockStep (.start fun _ ↦ .nobody : LockSystem ℕ)
        [.envLockFile 0 [120], .next 0 3, .next 0 0, .next 0 0] = some (s, replies) ∧
      ∃ s', CallMachine.run lockStep s [.envLockFile 1 [120], .next 1 4, .next 1 0, .next 1 0] =
          some (s', [.pending, .pending, .pending, .held [120]]) ∧
        ⟨3, [120]⟩ ∈ s'.locks ∧ s'.owner [120] ≠ .us := by
  have hrun : CallMachine.run lockStep (.start fun _ ↦ .nobody : LockSystem ℕ)
    [.envLockFile 0 [120], .next 0 3, .next 0 0, .next 0 0] = some (_, _) := rfl
  exact ⟨_, _, hrun, envLockFile_held hrun List.mem_cons_self rfl (by decide)⟩

end Runs

end LatteC
