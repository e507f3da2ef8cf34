import LatteC.Ae.FileEvents
import LatteC.List.Operations
import Mathlib.Data.List.Perm.Subperm

/-!
# Time events

The time events of an event loop, `src/ae/ae.c`. They are kept in a doubly linked list. A new event is put in
front; to delete an event only marks it, and the next pass over the list takes it out. A pass runs the events
that are due, and what it runs may itself create and delete events in the list that is being walked.

## Modelling

A callback is the tree of the calls that it makes, each with what it does on the answer. Any finite behaviour
is such a tree, so a statement about all trees is one about all callbacks. A callback reads the clock by itself,
so the call that creates an event comes with the time as it reads it. Identifiers do not overflow.

A pass also records each event as it reaches it, with what it does about it. No code reads that record.
-/

namespace LatteC

open DoublyLinked

/-- `AE_NOMORE`. -/
def aeNomore : Int32 := -1

/-- `AE_DELETED_EVENT_ID`. -/
def aeDeletedEventId : ℤ := -1

/-- `ae_time_event_t`, without the links. -/
structure AeTimeEvent (P F D : Type) where
  id : ℤ
  when : UInt64
  timeProc : P
  finalizerProc : Option F
  clientData : D
  refcount : ℤ

/-- The time events of `ae_event_loop_t`. -/
structure AeTimers (P F D : Type) where
  heap : Heap (AeTimeEvent P F D)
  timeEventHead : Option ℕ
  timeEventNextId : ℤ

variable {W P F D R : Type}

/-- `ae_event_loop_new`, as far as it is about time events. -/
def aeTimersNew (heap : Heap (AeTimeEvent P F D)) : AeTimers P F D := ⟨heap, none, 0⟩

/-- `now + milliseconds * 1000`, where `milliseconds` is a `long long`. -/
def aeWhen (now : UInt64) (milliseconds : Int64) : UInt64 := now + (milliseconds * 1000).toUInt64

/-- `now + retval * 1000`, where `retval` is an `int`. -/
def aeWhenNext (now : UInt64) (retval : Int32) : UInt64 := now + (retval * 1000).toInt64.toUInt64

/-- `ae_time_event_new`. -/
def aeTimeEventNew (now : UInt64) (loop : AeTimers P F D) (milliseconds : Int64) (proc : P) (clientData : D)
    (finalizerProc : Option F) : Option (AeTimers P F D × ℤ) :=
  let id := loop.timeEventNextId
  let (heap, te) := loop.heap.alloc
    ⟨none, loop.timeEventHead, ⟨id, aeWhen now milliseconds, proc, finalizerProc, clientData, 0⟩⟩
  (setPrevIf heap loop.timeEventHead (some te)).map fun heap ↦ (⟨heap, some te, id + 1⟩, id)

/-- The loop of `ae_time_event_delete`, with the number of rounds it may take. -/
def aeTimeEventDeleteLoop (id : ℤ) (heap : Heap (AeTimeEvent P F D)) :
    ℕ → Option ℕ → Option (Heap (AeTimeEvent P F D) × ℤ)
  | 0, _ => none
  | _ + 1, none => some (heap, aeErr)
  | fuel + 1, some te =>
    (heap.cells te).bind fun c ↦
      if c.value.id = id then
        (heap.modify te fun c ↦ { c with value := { c.value with id := aeDeletedEventId } }).map (·, aeOk)
      else aeTimeEventDeleteLoop id heap fuel c.next

/-- `ae_time_event_delete`. -/
def aeTimeEventDelete (loop : AeTimers P F D) (id : ℤ) : Option (AeTimers P F D × ℤ) :=
  (aeTimeEventDeleteLoop id loop.heap (loop.heap.brk + 1) loop.timeEventHead).map fun r ↦
    ({ loop with heap := r.1 }, r.2)

/-! ## Callbacks -/

/-- What a callback does with the time events. In the end there are the world and the value it returns. -/
inductive AeCallback (W P F D R : Type) where
  | done (w : W) (result : R)
  | timeEventNew (now : UInt64) (milliseconds : Int64) (proc : P) (clientData : D) (finalizerProc : Option F)
      (next : ℤ → AeCallback W P F D R)
  | timeEventDelete (id : ℤ) (next : ℤ → AeCallback W P F D R)

/-- Run a callback. -/
def AeCallback.run : AeCallback W P F D R → AeTimers P F D → Option (W × R × AeTimers P F D)
  | .done w result, loop => some (w, result, loop)
  | .timeEventNew now milliseconds proc clientData finalizerProc next, loop =>
    (aeTimeEventNew now loop milliseconds proc clientData finalizerProc).bind fun r ↦ (next r.2).run r.1
  | .timeEventDelete id next, loop => (aeTimeEventDelete loop id).bind fun r ↦ (next r.2).run r.1

/-- The code that a pass calls: the clock, the procedures of the events and their finalizers. -/
structure AeTimeProcs (W P F D : Type) where
  getMonotonicUs : W → UInt64
  timeProc : P → ℤ → D → W → AeCallback W P F D Int32
  finalizerProc : F → D → W → AeCallback W P F D Unit

/-! ## A pass -/

/-- What a pass does about an event. -/
inductive AeTimeAction where
  /-- The event is deleted, and there are references to it. -/
  | referenced
  /-- The event is deleted, and it is taken out. -/
  | finalised
  /-- The event is newer than the pass. -/
  | newer
  /-- The event is run; it returns `retval`, and then it is `now`. -/
  | ran (retval : Int32) (now : UInt64)
  /-- The event is not due. -/
  | notDue

/-- An event as a pass reaches it. -/
structure AeTimeVisit (P F D : Type) where
  te : ℕ
  event : AeTimeEvent P F D
  now : UInt64
  action : AeTimeAction

/-- The variables of `process_time_events`, with the event loop, the world, and the record. -/
structure AeTimePass (W P F D : Type) where
  te : Option ℕ
  now : UInt64
  processed : Int32
  loop : AeTimers P F D
  world : W
  visits : List (AeTimeVisit P F D)

/-- `if (te->prev) te->prev->next = n; else eventLoop->timeEventHead = n;` -/
def aeSetNext (loop : AeTimers P F D) (p n : Option ℕ) : Option (AeTimers P F D) :=
  match p with
  | some p => (loop.heap.modify p fun c ↦ { c with next := n }).map fun heap ↦ { loop with heap := heap }
  | none => some { loop with timeEventHead := n }

/-- The writes that take an event out of the list. -/
def aeUnlink (loop : AeTimers P F D) (te : ℕ) : Option (AeTimers P F D) := do
  let c ← loop.heap.cells te
  let loop ← aeSetNext loop c.prev c.next
  let c ← loop.heap.cells te
  let heap ← setPrevIf loop.heap c.next c.prev
  return { loop with heap := heap }

/-- `if (te->finalizerProc) { te->finalizerProc(eventLoop, te->clientData); now = getMonotonicUs(); }` -/
def aeFinalize (E : AeTimeProcs W P F D) (event : AeTimeEvent P F D) (now : UInt64) (w : W)
    (loop : AeTimers P F D) : Option (W × UInt64 × AeTimers P F D) :=
  match event.finalizerProc with
  | some f => ((E.finalizerProc f event.clientData w).run loop).map fun r ↦ (r.1, E.getMonotonicUs r.1, r.2.2)
  | none => some (w, now, loop)

/-- Take out, finalise and free an event. -/
def aeRemove (E : AeTimeProcs W P F D) (event : AeTimeEvent P F D) (now : UInt64) (w : W)
    (loop : AeTimers P F D) (te : ℕ) : Option (W × UInt64 × AeTimers P F D) := do
  let loop ← aeUnlink loop te
  let (w, now, loop) ← aeFinalize E event now w loop
  let heap ← loop.heap.free te
  return (w, now, { loop with heap := heap })

/-- Write the value of an event. -/
def AeTimers.modify (loop : AeTimers P F D) (te : ℕ) (f : AeTimeEvent P F D → AeTimeEvent P F D) :
    Option (AeTimers P F D) :=
  (loop.heap.modify te fun c ↦ { c with value := f c.value }).map fun heap ↦ { loop with heap := heap }

/-- What an event is after it was run: due later, or deleted. -/
def AeTimeEvent.afterRun (retval : Int32) (now : UInt64) (event : AeTimeEvent P F D) : AeTimeEvent P F D :=
  if retval ≠ aeNomore then { event with when := aeWhenNext now retval }
  else { event with id := aeDeletedEventId }

/-- Run an event, with a reference to it in the meantime, and set when it is due again. -/
def aeRunTimeProc (E : AeTimeProcs W P F D) (event : AeTimeEvent P F D) (w : W) (loop : AeTimers P F D)
    (te : ℕ) : Option (W × Int32 × AeTimers P F D) := do
  let loop ← loop.modify te fun e ↦ { e with refcount := e.refcount + 1 }
  let (w, retval, loop) ← (E.timeProc event.timeProc event.id event.clientData w).run loop
  let loop ← loop.modify te fun e ↦ { e with refcount := e.refcount - 1 }
  let loop ← loop.modify te (AeTimeEvent.afterRun retval (E.getMonotonicUs w))
  return (w, retval, loop)

/-- One round of the loop of `process_time_events`. -/
def processTimeEventsRound (E : AeTimeProcs W P F D) (maxId : ℤ) (s : AeTimePass W P F D) (te : ℕ) :
    Option (AeTimePass W P F D) := do
  let c ← s.loop.heap.cells te
  if c.value.id = aeDeletedEventId then
    let next := c.next
    if c.value.refcount ≠ 0 then
      some { s with te := next, visits := s.visits ++ [⟨te, c.value, s.now, .referenced⟩] }
    else
      let (w, now, loop) ← aeRemove E c.value s.now s.world s.loop te
      some { te := next, now := now, processed := s.processed, loop := loop, world := w
             visits := s.visits ++ [⟨te, c.value, s.now, .finalised⟩] }
  else if maxId < c.value.id then
    some { s with te := c.next, visits := s.visits ++ [⟨te, c.value, s.now, .newer⟩] }
  else if c.value.when ≤ s.now then
    let (w, retval, loop) ← aeRunTimeProc E c.value s.world s.loop te
    let now := E.getMonotonicUs w
    let d ← loop.heap.cells te
    some { te := d.next, now := now, processed := s.processed + 1, loop := loop, world := w
           visits := s.visits ++ [⟨te, c.value, s.now, .ran retval now⟩] }
  else some { s with te := c.next, visits := s.visits ++ [⟨te, c.value, s.now, .notDue⟩] }

/-- The loop of `process_time_events`, with the number of rounds it may take. -/
def processTimeEventsLoop (E : AeTimeProcs W P F D) (maxId : ℤ) :
    ℕ → AeTimePass W P F D → Option (AeTimePass W P F D)
  | 0, _ => none
  | fuel + 1, s =>
    match s.te with
    | none => some s
    | some te => (processTimeEventsRound E maxId s te).bind (processTimeEventsLoop E maxId fuel)

/-- `process_time_events`. -/
def processTimeEvents (E : AeTimeProcs W P F D) (w : W) (loop : AeTimers P F D) : Option (AeTimePass W P F D) :=
  processTimeEventsLoop E (loop.timeEventNextId - 1) (loop.heap.brk + 1)
    ⟨loop.timeEventHead, E.getMonotonicUs w, 0, loop, w, []⟩

/-! ## The list of events -/

/-- The time events are `xs`, in this order. The list has no tail pointer and no length; these would be the
ones. -/
structure AeTimers.Holds (loop : AeTimers P F D) (xs : List (ℕ × AeTimeEvent P F D)) : Prop where
  list : LList.Holds loop.heap ⟨loop.timeEventHead, last none xs, xs.length⟩ xs
  id_lt : ∀ x ∈ xs, x.2.id < loop.timeEventNextId
  nextId_nonneg : 0 ≤ loop.timeEventNextId

theorem holds_aeTimersNew (heap : Heap (AeTimeEvent P F D)) : (aeTimersNew heap).Holds [] :=
  ⟨holds_listNew heap, by simp, le_rfl⟩

/-- An event, or the same event marked as deleted. -/
def AeMarked (x y : ℕ × AeTimeEvent P F D) : Prop :=
  y.1 = x.1 ∧ (y.2 = x.2 ∨ y.2 = { x.2 with id := aeDeletedEventId })

namespace AeMarked

variable {x y z : ℕ × AeTimeEvent P F D} {xs ys zs : List (ℕ × AeTimeEvent P F D)}

theorem refl (x : ℕ × AeTimeEvent P F D) : AeMarked x x := ⟨rfl, Or.inl rfl⟩

theorem trans (hxy : AeMarked x y) (hyz : AeMarked y z) : AeMarked x z := by
  obtain ⟨hfst, hsnd⟩ := hxy
  refine ⟨hyz.1.trans hfst, ?_⟩
  obtain hz | hz := hyz.2
  · rw [hz]
    exact hsnd
  · apply Or.inr
    obtain hy | hy := hsnd
    · rw [hz, hy]
    · rw [hz, hy]

/-- A function that neither reads nor sets the identifier keeps marked events marked. -/
theorem map {f : AeTimeEvent P F D → AeTimeEvent P F D} (hxy : AeMarked x y)
    (hf : ∀ e, f { e with id := aeDeletedEventId } = { f e with id := aeDeletedEventId }) :
    AeMarked (x.1, f x.2) (y.1, f y.2) := by
  refine ⟨hxy.1, hxy.2.imp (congrArg f) fun hmark ↦ ?_⟩
  rw [hmark, hf]

theorem id_eq (hxy : AeMarked x y) : y.2.id = x.2.id ∨ y.2.id = aeDeletedEventId :=
  hxy.2.imp (congrArg AeTimeEvent.id) (congrArg AeTimeEvent.id)

theorem forall₂_refl (xs : List (ℕ × AeTimeEvent P F D)) : List.Forall₂ AeMarked xs xs :=
  List.forall₂_same.mpr fun x _ ↦ AeMarked.refl x

theorem forall₂_trans (hxy : List.Forall₂ AeMarked xs ys) (hyz : List.Forall₂ AeMarked ys zs) :
    List.Forall₂ AeMarked xs zs := by
  induction hxy generalizing zs with
  | nil => exact hyz
  | cons hhead _ ih =>
    obtain ⟨z, zs, hz, hzs, rfl⟩ := List.forall₂_cons_left_iff.mp hyz
    exact List.Forall₂.cons (hhead.trans hz) (ih hzs)

theorem first_eq (hxy : List.Forall₂ AeMarked xs ys) (n : Option ℕ) : first ys n = first xs n := by
  cases hxy with
  | nil => rfl
  | cons hhead _ => exact congrArg some hhead.1

/-- Marking moves no event. -/
theorem map_fst (hxy : List.Forall₂ AeMarked xs ys) : ys.map Prod.fst = xs.map Prod.fst := by
  induction hxy with
  | nil => rfl
  | cons hhead _ ih => rw [List.map_cons, List.map_cons, hhead.1, ih]

end AeMarked

/-- A relation between a list cut in two and another list cuts that one in two. -/
theorem forall₂_append_left {α β : Type} {r : α → β → Prop} {xs ys : List α} {zs : List β}
    (h : List.Forall₂ r (xs ++ ys) zs) :
    ∃ xs' ys', List.Forall₂ r xs xs' ∧ List.Forall₂ r ys ys' ∧ zs = xs' ++ ys' := by
  induction xs generalizing zs with
  | nil => exact ⟨[], zs, List.Forall₂.nil, h, rfl⟩
  | cons x xs ih =>
    obtain ⟨z, zs, hz, hzs, rfl⟩ := List.forall₂_cons_left_iff.mp h
    obtain ⟨xs', ys', hxs, hys, rfl⟩ := ih hzs
    exact ⟨z :: xs', ys', List.Forall₂.cons hz hxs, hys, rfl⟩

/-- A list is the record of its first node, its last node and their number. -/
theorem LList.Holds.eq_mk {α : Type} {h : Heap α} {l : LList} {xs : List (ℕ × α)} (hl : l.Holds h xs) :
    l = ⟨first xs none, last none xs, xs.length⟩ := by
  rw [← hl.head, ← hl.tail, ← hl.len]

/-- There are not more nodes than addresses that were handed out. -/
theorem LList.Holds.length_le {α : Type} {h : Heap α} {l : LList} {xs : List (ℕ × α)} (hl : l.Holds h xs) :
    xs.length ≤ h.brk := by
  have hsub : xs.map Prod.fst ⊆ List.range h.brk := by
    intro a ha
    obtain ⟨x, hx, rfl⟩ := List.mem_map.mp ha
    exact List.mem_range.mpr (hl.lt_brk x hx)
  simpa using (List.subperm_of_subset hl.nodup hsub).length_le

/-- Putting a node in front, for a list of which only the head is kept. -/
theorem setPrevIf_of_listAddNodeHead {α : Type} {h h' : Heap α} {l l' : LList} {xs : List (ℕ × α)}
    (hl : l.Holds h xs) {value : α} (hadd : listAddNodeHead h l value = some (h', l')) :
    setPrevIf (h.alloc ⟨none, l.head, value⟩).1 l.head (some h.brk) = some h' := by
  rw [listAddNodeHead] at hadd
  cases xs with
  | nil =>
    have hhead : l.head = none := hl.head
    rw [if_pos (show l.len = 0 from hl.len)] at hadd
    rw [hhead]
    exact congrArg some (Prod.mk.inj (Option.some.inj hadd)).1
  | cons x xs =>
    have hhead : l.head = some x.1 := hl.head
    have hlen : l.len ≠ 0 := by rw [hl.len]; simp
    rw [if_neg hlen, hhead] at hadd
    obtain ⟨h₁, hmod, heq⟩ := Option.map_eq_some_iff.mp hadd
    rw [hhead, setPrevIf, ← (Prod.mk.inj heq).1]
    exact hmod

theorem brk_of_modify {α : Type} {h h' : Heap α} {a : ℕ} {f : Cell α → Cell α}
    (hmod : h.modify a f = some h') : h'.brk = h.brk := by
  obtain ⟨c, -, rfl⟩ := Option.map_eq_some_iff.mp hmod
  rfl

theorem brk_of_setPrevIf {α : Type} {h h' : Heap α} {n p : Option ℕ} (hset : setPrevIf h n p = some h') :
    h'.brk = h.brk := by
  cases n with
  | none => rw [← Option.some.inj hset]
  | some n => exact brk_of_modify hset

/-- Redirecting the left neighbour, for a list of which only the head is kept. -/
theorem aeSetNext_of_setNextOrHead {loop : AeTimers P F D} {l l' : LList} {heap : Heap (AeTimeEvent P F D)}
    {p n : Option ℕ} (hhead : l.head = loop.timeEventHead)
    (hset : setNextOrHead loop.heap l p n = some (heap, l')) :
    aeSetNext loop p n = some { loop with heap := heap, timeEventHead := l'.head } := by
  cases p with
  | none =>
    obtain ⟨rfl, rfl⟩ := Prod.mk.inj (Option.some.inj hset)
    rfl
  | some p =>
    obtain ⟨heap₁, hmod, heq⟩ := Option.map_eq_some_iff.mp hset
    obtain ⟨rfl, rfl⟩ := Prod.mk.inj heq
    rw [aeSetNext, hmod, hhead]
    rfl

theorem head_of_setPrevOrTail {α : Type} {h h' : Heap α} {l l' : LList} {n p : Option ℕ}
    (hset : setPrevOrTail h l n p = some (h', l')) : l'.head = l.head := by
  cases n with
  | none => rw [← (Prod.mk.inj (Option.some.inj hset)).2]
  | some n =>
    obtain ⟨h₁, -, heq⟩ := Option.map_eq_some_iff.mp hset
    rw [← (Prod.mk.inj heq).2]

/-- The loop that looks for an identifier: there is none, or the first event with it is marked. -/
theorem aeTimeEventDeleteLoop_spec (id : ℤ) {heap : Heap (AeTimeEvent P F D)} {p : Option ℕ}
    {xs : List (ℕ × AeTimeEvent P F D)} (hs : Seg heap p xs none) {fuel : ℕ} (hfuel : xs.length < fuel) :
    aeTimeEventDeleteLoop id heap fuel (first xs none) = some (heap, aeErr) ∨
      ∃ A te e B, xs = A ++ (te, e) :: B ∧ aeTimeEventDeleteLoop id heap fuel (first xs none) =
        (heap.modify te fun c ↦ { c with value := { c.value with id := aeDeletedEventId } }).map (·, aeOk) := by
  induction xs generalizing p fuel with
  | nil =>
    obtain ⟨fuel, rfl⟩ := Nat.exists_eq_succ_of_ne_zero (Nat.ne_zero_of_lt hfuel)
    exact Or.inl rfl
  | cons x xs ih =>
    obtain ⟨fuel, rfl⟩ := Nat.exists_eq_succ_of_ne_zero (Nat.ne_zero_of_lt hfuel)
    obtain ⟨hcell, hrest⟩ := hs
    rw [first, aeTimeEventDeleteLoop, hcell, Option.bind_some]
    by_cases hid : x.2.id = id
    · rw [if_pos hid]
      exact Or.inr ⟨[], x.1, x.2, xs, rfl, rfl⟩
    · rw [if_neg hid]
      obtain hnone | ⟨A, te, e, B, hxs, hsome⟩ := ih hrest (Nat.lt_of_succ_lt_succ hfuel)
      · exact Or.inl hnone
      · exact Or.inr ⟨x :: A, te, e, B, by rw [hxs]; rfl, hsome⟩

/-! ## The operations -/

namespace AeTimers.Holds

variable {loop : AeTimers P F D} {xs A B : List (ℕ × AeTimeEvent P F D)} {te : ℕ} {e : AeTimeEvent P F D}

theorem cells (h : loop.Holds (A ++ (te, e) :: B)) :
    loop.heap.cells te = some ⟨last none A, first B none, e⟩ := h.list.cells

/-- Writing the value of an event. -/
theorem modify (h : loop.Holds (A ++ (te, e) :: B)) {f : AeTimeEvent P F D → AeTimeEvent P F D}
    (hid : (f e).id < loop.timeEventNextId) :
    ∃ loop', loop.modify te f = some loop' ∧ loop'.Holds (A ++ (te, f e) :: B) ∧
      loop'.timeEventNextId = loop.timeEventNextId ∧ loop'.heap.brk = loop.heap.brk ∧
      Heap.Frame ((A ++ (te, e) :: B).map Prod.fst) loop.heap loop'.heap := by
  obtain ⟨heap, hmod, hl⟩ := h.list.setValue f
  refine ⟨{ loop with heap := heap }, by rw [AeTimers.modify, hmod]; rfl,
    ⟨⟨hl.seg, hl.head, rfl, rfl, hl.nodup, hl.lt_brk⟩, ?_, h.nextId_nonneg⟩, rfl, brk_of_modify hmod,
    Heap.frame_modify hmod (by simp)⟩
  have hids := h.id_lt
  rw [List.forall_mem_append, List.forall_mem_cons] at hids ⊢
  exact ⟨hids.1, hid, hids.2.2⟩

/-- **A new event** is put in front of the others. -/
theorem aeTimeEventNew (h : loop.Holds xs) (now : UInt64) (milliseconds : Int64) (proc : P) (clientData : D)
    (finalizerProc : Option F) :
    ∃ loop', LatteC.aeTimeEventNew now loop milliseconds proc clientData finalizerProc =
        some (loop', loop.timeEventNextId) ∧
      loop'.Holds ((loop.heap.brk, ⟨loop.timeEventNextId, aeWhen now milliseconds, proc, finalizerProc,
        clientData, 0⟩) :: xs) ∧
      loop'.timeEventNextId = loop.timeEventNextId + 1 ∧ loop'.heap.brk = loop.heap.brk + 1 ∧
      Heap.Frame (xs.map Prod.fst) loop.heap loop'.heap := by
  obtain ⟨heap, l, hadd, hl, hframe⟩ := h.list.listAddNodeHead
    ⟨loop.timeEventNextId, aeWhen now milliseconds, proc, finalizerProc, clientData, 0⟩
  have hset := setPrevIf_of_listAddNodeHead h.list hadd
  rw [hl.eq_mk] at hl
  refine ⟨⟨heap, some loop.heap.brk, loop.timeEventNextId + 1⟩, ?_, ⟨hl, ?_, ?_⟩, rfl, brk_of_setPrevIf hset,
    hframe⟩
  · rw [LatteC.aeTimeEventNew]
    exact Option.map_eq_some_iff.mpr ⟨heap, hset, rfl⟩
  · exact List.forall_mem_cons.mpr ⟨Int.lt_succ _, fun x hx ↦ (h.id_lt x hx).trans (Int.lt_succ _)⟩
  · exact h.nextId_nonneg.trans (Int.le_add_one le_rfl)

/-- **Deleting an event** marks at most one of them. -/
theorem aeTimeEventDelete (h : loop.Holds xs) (id : ℤ) :
    ∃ loop' r ys, LatteC.aeTimeEventDelete loop id = some (loop', r) ∧ loop'.Holds ys ∧
      List.Forall₂ AeMarked xs ys ∧ loop'.timeEventNextId = loop.timeEventNextId ∧
      loop'.heap.brk = loop.heap.brk ∧ Heap.Frame (xs.map Prod.fst) loop.heap loop'.heap := by
  have hhead : loop.timeEventHead = first xs none := h.list.head
  have hloop := aeTimeEventDeleteLoop_spec id h.list.seg (Nat.lt_succ_of_le h.list.length_le)
  rw [← hhead] at hloop
  rw [LatteC.aeTimeEventDelete]
  obtain hnone | ⟨A, te, e, B, rfl, hsome⟩ := hloop
  · rw [hnone]
    exact ⟨loop, aeErr, xs, rfl, h, AeMarked.forall₂_refl xs, rfl, rfl, Heap.Frame.refl ..⟩
  · have hid : aeDeletedEventId < loop.timeEventNextId := lt_of_lt_of_le (by decide) h.nextId_nonneg
    obtain ⟨loop', hmod, hholds, hnext, hbrk, hframe⟩ :=
      h.modify (f := fun e ↦ { e with id := aeDeletedEventId }) hid
    obtain ⟨heap, hheap, hloop⟩ := Option.map_eq_some_iff.mp hmod
    refine ⟨loop', aeOk, _, ?_, hholds, ?_, hnext, hbrk, hframe⟩
    · rw [hsome, hheap, ← hloop]
      rfl
    · apply List.rel_append (AeMarked.forall₂_refl A)
      exact List.Forall₂.cons ⟨rfl, Or.inr rfl⟩ (AeMarked.forall₂_refl B)

/-- **Unlinking** takes one event out of the list; its cell stays. -/
theorem aeUnlink (h : loop.Holds (A ++ (te, e) :: B)) :
    ∃ loop', LatteC.aeUnlink loop te = some loop' ∧ loop'.Holds (A ++ B) ∧
      loop'.timeEventNextId = loop.timeEventNextId ∧ loop'.heap.brk = loop.heap.brk ∧
      loop'.heap.cells te = some ⟨last none A, first B none, e⟩ := by
  obtain ⟨heap₁, l₁, heap₂, l₂, hset₁, hcell₁, hset₂, hcell₂, hseg, hhead, -, -, hbrk, -⟩ := h.list.unlink
  have hids := h.id_lt
  have hlt := h.list.lt_brk
  rw [List.forall_mem_append, List.forall_mem_cons] at hids hlt
  refine ⟨{ loop with heap := heap₂, timeEventHead := l₁.head }, ?_, ⟨⟨hseg, ?_, rfl, rfl,
    h.list.nodup_middle.1, ?_⟩, ?_, h.nextId_nonneg⟩, rfl, hbrk, hcell₂⟩
  case refine_1 =>
    rw [LatteC.aeUnlink, h.cells]
    simp only [Option.bind_eq_bind, Option.bind_some]
    rw [aeSetNext_of_setNextOrHead rfl hset₁, Option.bind_some, hcell₁, Option.bind_some,
      setPrevIf_of_setPrevOrTail hset₂, Option.bind_some]
    rfl
  case refine_2 => exact (head_of_setPrevOrTail hset₂).symm.trans hhead
  case refine_3 =>
    rw [hbrk]
    exact List.forall_mem_append.mpr ⟨hlt.1, hlt.2.2⟩
  case refine_4 => exact List.forall_mem_append.mpr ⟨hids.1, hids.2.2⟩

/-- **A callback** puts events in front, all that it creates, and marks others, and that is all. -/
theorem run (h : loop.Holds xs) (callback : AeCallback W P F D R) :
    ∃ w r loop' news ys, callback.run loop = some (w, r, loop') ∧ loop'.Holds (news ++ ys) ∧
      List.Forall₂ AeMarked xs ys ∧
      (∀ a, a ∈ news.map Prod.fst ↔ loop.heap.brk ≤ a ∧ a < loop'.heap.brk) ∧
      Heap.Frame (xs.map Prod.fst) loop.heap loop'.heap := by
  induction callback generalizing loop xs with
  | done w result =>
    exact ⟨w, result, loop, [], xs, rfl, h, AeMarked.forall₂_refl xs, by simp, Heap.Frame.refl ..⟩
  | timeEventNew now milliseconds proc clientData finalizerProc next ih =>
    obtain ⟨loop₁, hnew, hholds₁, -, hbrk₁, hframe₁⟩ :=
      h.aeTimeEventNew now milliseconds proc clientData finalizerProc
    obtain ⟨w, r, loop', news, zs, hrun, hholds, hmarked, hnews, hframe⟩ :=
      ih loop.timeEventNextId hholds₁
    -- the event that was just created is one of the new ones
    obtain ⟨y, ys, hy, hys, rfl⟩ := List.forall₂_cons_left_iff.mp hmarked
    refine ⟨w, r, loop', news ++ [y], ys, ?_, ?_, hys, ?_, ?_⟩
    · rw [AeCallback.run, hnew]
      exact hrun
    · rw [List.append_assoc]
      exact hholds
    · intro a
      have hle := hframe.brk_le
      rw [List.map_append, List.mem_append, hnews a, List.map_singleton, List.mem_singleton, hy.1]
      omega
    · refine hframe₁.trans_fresh hframe fun a ha ↦ ?_
      rw [List.map_cons, List.mem_cons] at ha
      exact ha.symm.imp_right Eq.ge
  | timeEventDelete id next ih =>
    obtain ⟨loop₁, r₁, zs, hdelete, hholds₁, hmarked₁, -, hbrk₁, hframe₁⟩ := h.aeTimeEventDelete id
    obtain ⟨w, r, loop', news, ys, hrun, hholds, hmarked, hnews, hframe⟩ := ih r₁ hholds₁
    refine ⟨w, r, loop', news, ys, ?_, hholds, AeMarked.forall₂_trans hmarked₁ hmarked, ?_, ?_⟩
    · rw [AeCallback.run, hdelete]
      exact hrun
    · rw [← hbrk₁]
      exact hnews
    · rw [AeMarked.map_fst hmarked₁] at hframe
      exact hframe₁.trans hframe

end AeTimers.Holds

end LatteC
