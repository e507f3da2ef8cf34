import LatteC.Ae.TimeEvents

/-!
# A pass over the time events

What `process_time_events` of `src/ae/ae.c` does about each event, whatever the callbacks do. At every point of
the pass the list is cut in three: the events that were created since, the ones that were reached and stay, and
the ones to come. A callback adds to the first part, and in the others it marks events; so the pass reaches the
events of the start one after the other, and no others.
-/

namespace LatteC

open DoublyLinked

variable {W P F D R : Type}

/-! ## What a pass records -/

/-- The event is run. -/
def AeTimeAction.isRan : AeTimeAction → Bool
  | .ran _ _ => true
  | _ => false

/-- The event is taken out. -/
def AeTimeAction.isFinalised : AeTimeAction → Bool
  | .finalised => true
  | _ => false

namespace AeTimeVisit

/-- The event in the list. -/
def found (v : AeTimeVisit P F D) : ℕ × AeTimeEvent P F D := (v.te, v.event)

/-- The event in the list, as the pass leaves it. -/
def left (v : AeTimeVisit P F D) : ℕ × AeTimeEvent P F D :=
  (v.te, match v.action with
    | .ran retval now => v.event.afterRun retval now
    | _ => v.event)

/-- An event is run if it is due and not deleted, and it is taken out if it is deleted and nothing refers to
it. -/
structure Right (v : AeTimeVisit P F D) : Prop where
  ran_iff : v.action.isRan ↔ v.event.id ≠ aeDeletedEventId ∧ v.event.when ≤ v.now
  finalised_iff : v.action.isFinalised ↔ v.event.id = aeDeletedEventId ∧ v.event.refcount = 0

end AeTimeVisit

/-- The events that a pass reaches and does not take out, as it leaves them. -/
def leftovers (visits : List (AeTimeVisit P F D)) : List (ℕ × AeTimeEvent P F D) :=
  (visits.filter fun v ↦ !v.action.isFinalised).map AeTimeVisit.left

theorem leftovers_append_singleton (visits : List (AeTimeVisit P F D)) (v : AeTimeVisit P F D) :
    leftovers (visits ++ [v]) = leftovers visits ++ if v.action.isFinalised then [] else [v.left] := by
  rw [leftovers, List.filter_append, List.map_append]
  apply congrArg
  cases hfin : v.action.isFinalised with
  | true => rw [List.filter_singleton, hfin]; rfl
  | false => rw [List.filter_singleton, hfin]; rfl

/-- Running an event keeps a mark on it. -/
theorem AeTimeEvent.afterRun_mark (retval : Int32) (now : UInt64) (e : AeTimeEvent P F D) :
    AeTimeEvent.afterRun retval now { e with id := aeDeletedEventId } =
      { e.afterRun retval now with id := aeDeletedEventId } := by
  rw [afterRun, afterRun]
  split_ifs
  · rfl
  · rfl

theorem AeTimeEvent.when_afterRun {retval : Int32} (h : 0 ≤ retval) (now : UInt64) (e : AeTimeEvent P F D) :
    (e.afterRun retval now).when = aeWhenNext now retval := by
  have hne : retval ≠ aeNomore := by
    rintro rfl
    exact absurd h (by decide)
  rw [afterRun, if_pos hne]

theorem AeTimeEvent.afterRun_id_lt {retval : Int32} {now : UInt64} {e : AeTimeEvent P F D} {n : ℤ}
    (hid : e.id < n) (hn : 0 ≤ n) : (e.afterRun retval now).id < n := by
  have hmark : aeDeletedEventId < n := lt_of_lt_of_le (by decide) hn
  rw [afterRun]
  split_ifs
  · exact hid
  · exact hmark

/-! ## Taking out and running one event -/

namespace AeTimers.Holds

variable {loop : AeTimers P F D} {xs A B : List (ℕ × AeTimeEvent P F D)} {te : ℕ} {e : AeTimeEvent P F D}

/-- Freeing an event that is not in the list. -/
theorem free (h : loop.Holds xs) (hte : te ∉ xs.map Prod.fst) {c : Cell (AeTimeEvent P F D)}
    (hcell : loop.heap.cells te = some c) :
    ∃ heap, loop.heap.free te = some heap ∧ AeTimers.Holds { loop with heap := heap } xs ∧
      heap.brk = loop.heap.brk := by
  refine ⟨_, Heap.free_of_cells hcell, ⟨⟨?_, h.list.head, rfl, rfl, h.list.nodup, h.list.lt_brk⟩, h.id_lt,
    h.nextId_nonneg⟩, rfl⟩
  refine seg_congr (fun x hx ↦ Function.update_of_ne ?_ ..) h.list.seg
  rintro rfl
  exact hte (List.mem_map_of_mem hx)

/-- The finalizer of an event, if it has one. -/
theorem aeFinalize (h : loop.Holds xs) (E : AeTimeProcs W P F D) (event : AeTimeEvent P F D) (now : UInt64)
    (w : W) :
    ∃ w' now' loop' news ys, LatteC.aeFinalize E event now w loop = some (w', now', loop') ∧
      loop'.Holds (news ++ ys) ∧ List.Forall₂ AeMarked xs ys ∧
      (∀ a, a ∈ news.map Prod.fst ↔ loop.heap.brk ≤ a ∧ a < loop'.heap.brk) ∧
      Heap.Frame (xs.map Prod.fst) loop.heap loop'.heap := by
  rw [LatteC.aeFinalize]
  cases event.finalizerProc with
  | none =>
    exact ⟨w, now, loop, [], xs, rfl, h, AeMarked.forall₂_refl xs, by simp, Heap.Frame.refl ..⟩
  | some f =>
    obtain ⟨w', r, loop', news, ys, hrun, hrest⟩ := h.run (E.finalizerProc f event.clientData w)
    refine ⟨w', E.getMonotonicUs w', loop', news, ys, ?_, hrest⟩
    show Option.map _ _ = _
    rw [hrun]
    rfl

/-- **Taking out** an event: the others stay, and what the finalizer creates is put in front. -/
theorem aeRemove (h : loop.Holds (A ++ (te, e) :: B)) (E : AeTimeProcs W P F D) (event : AeTimeEvent P F D)
    (now : UInt64) (w : W) :
    ∃ w' now' loop' news A' B', LatteC.aeRemove E event now w loop te = some (w', now', loop') ∧
      loop'.Holds (news ++ (A' ++ B')) ∧ List.Forall₂ AeMarked A A' ∧ List.Forall₂ AeMarked B B' ∧
      (∀ a, a ∈ news.map Prod.fst ↔ loop.heap.brk ≤ a ∧ a < loop'.heap.brk) ∧
      loop.heap.brk ≤ loop'.heap.brk := by
  have hlt : te < loop.heap.brk := h.list.lt_brk (te, e) (by simp)
  obtain ⟨loop₁, hunlink, hholds₁, -, hbrk₁, hcell₁⟩ := h.aeUnlink
  obtain ⟨w', now', loop₂, news, zs, hfin, hholds₂, hmarked, hnews, hframe⟩ :=
    hholds₁.aeFinalize E event now w
  rw [hbrk₁] at hnews
  have hbrk₂ : loop.heap.brk ≤ loop₂.heap.brk := hbrk₁ ▸ hframe.brk_le
  -- no list has the event any more, so its cell is as it was
  have hout : te ∉ (A ++ B).map Prod.fst := by
    intro hmem
    obtain ⟨y, hy, hyte⟩ := List.mem_map.mp hmem
    exact h.list.nodup_middle.2 y hy hyte
  have hcell₂ := (hframe.cells te (hbrk₁ ▸ hlt) hout).trans hcell₁
  have hte : te ∉ (news ++ zs).map Prod.fst := by
    rw [List.map_append, List.mem_append, hnews, AeMarked.map_fst hmarked, not_or]
    exact ⟨fun hnew ↦ hlt.not_ge hnew.1, hout⟩
  obtain ⟨heap, hfree, hholds, hbrk⟩ := hholds₂.free hte hcell₂
  obtain ⟨A', B', hA, hB, rfl⟩ := forall₂_append_left hmarked
  refine ⟨w', now', { loop₂ with heap := heap }, news, A', B', ?_, hholds, hA, hB, hbrk.symm ▸ hnews,
    hbrk.symm ▸ hbrk₂⟩
  rw [LatteC.aeRemove, hunlink]
  simp only [Option.bind_eq_bind, Option.bind_some]
  rw [hfin, Option.bind_some, hfree, Option.bind_some]
  rfl

/-- **Running** an event: it stays where it is, and it is due later or deleted. -/
theorem aeRunTimeProc (h : loop.Holds (A ++ (te, e) :: B)) (E : AeTimeProcs W P F D)
    (event : AeTimeEvent P F D) (w : W) :
    ∃ w' retval loop' news A' y B', LatteC.aeRunTimeProc E event w loop te = some (w', retval, loop') ∧
      loop'.Holds (news ++ (A' ++ (te, y) :: B')) ∧ List.Forall₂ AeMarked A A' ∧
      AeMarked (te, e.afterRun retval (E.getMonotonicUs w')) (te, y) ∧ List.Forall₂ AeMarked B B' ∧
      (∀ a, a ∈ news.map Prod.fst ↔ loop.heap.brk ≤ a ∧ a < loop'.heap.brk) ∧
      loop.heap.brk ≤ loop'.heap.brk := by
  have hid : e.id < loop.timeEventNextId := h.id_lt (te, e) (by simp)
  obtain ⟨loop₁, hinc, hholds₁, -, hbrk₁, -⟩ :=
    h.modify (f := fun e ↦ { e with refcount := e.refcount + 1 }) hid
  obtain ⟨w', retval, loop₂, news, zs, hrun, hholds₂, hmarked, hnews, hframe⟩ :=
    hholds₁.run (E.timeProc event.timeProc event.id event.clientData w)
  obtain ⟨A', B₁, hA, hB₁, rfl⟩ := forall₂_append_left hmarked
  obtain ⟨y₂, B', hy₂, hB, rfl⟩ := List.forall₂_cons_left_iff.mp hB₁
  obtain ⟨te₂, e₂⟩ := y₂
  obtain rfl : te₂ = te := hy₂.1
  rw [← List.append_assoc] at hholds₂
  have hid₂ : e₂.id < loop₂.timeEventNextId := hholds₂.id_lt (te₂, e₂) (by simp)
  obtain ⟨loop₃, hdec, hholds₃, hnext₃, hbrk₃, -⟩ :=
    hholds₂.modify (f := fun e ↦ { e with refcount := e.refcount - 1 }) hid₂
  obtain ⟨loop', hset, hholds, -, hbrk, -⟩ :=
    hholds₃.modify (f := AeTimeEvent.afterRun retval (E.getMonotonicUs w'))
      (AeTimeEvent.afterRun_id_lt (hnext₃ ▸ hid₂) hholds₃.nextId_nonneg)
  rw [List.append_assoc] at hholds
  rw [hbrk₁, ← hbrk₃, ← hbrk] at hnews
  have hbrk₂ := hframe.brk_le
  refine ⟨w', retval, loop', news, A', _, B', ?_, hholds, hA, ?_, hB, hnews, by omega⟩
  · rw [LatteC.aeRunTimeProc, hinc]
    simp only [Option.bind_eq_bind, Option.bind_some]
    rw [hrun, Option.bind_some, hdec, Option.bind_some, hset, Option.bind_some]
    rfl
  · -- the reference is given back, so but for a mark the event is as it was
    have hback := hy₂.map (f := fun e ↦ { e with refcount := e.refcount - 1 }) fun _ ↦ rfl
    simp only [add_sub_cancel_right] at hback
    exact hback.map (AeTimeEvent.afterRun_mark retval (E.getMonotonicUs w'))

end AeTimers.Holds

/-! ## The invariant of a pass -/

/-- Where a pass stands that started from `start`: it has reached `reached` and `todo` is to come. In the list
there are the events `news` that were created since, the reached ones `kept` that stay, and `rest`. -/
structure AeTimePass.Inv (start : AeTimers P F D) (reached todo news kept rest : List (ℕ × AeTimeEvent P F D))
    (s : AeTimePass W P F D) : Prop where
  holds : s.loop.Holds (news ++ (kept ++ rest))
  te : s.te = first rest none
  news : ∀ a, a ∈ news.map Prod.fst ↔ start.heap.brk ≤ a ∧ a < s.loop.heap.brk
  brk_le : start.heap.brk ≤ s.loop.heap.brk
  reached : List.Forall₂ AeMarked reached (s.visits.map AeTimeVisit.found)
  right : ∀ v ∈ s.visits, v.Right
  kept : List.Forall₂ AeMarked (leftovers s.visits) kept
  rest : List.Forall₂ AeMarked todo rest
  processed : s.processed = Int32.ofNat (s.visits.countP (·.action.isRan))

namespace AeTimePass.Inv

variable {start : AeTimers P F D} {reached todo news kept rest : List (ℕ × AeTimeEvent P F D)}
  {x y : ℕ × AeTimeEvent P F D} {s : AeTimePass W P F D}

/-- At the start nothing is reached. -/
theorem init {xs : List (ℕ × AeTimeEvent P F D)} (h : start.Holds xs) (now : UInt64) (w : W) :
    AeTimePass.Inv start [] xs [] [] xs ⟨start.timeEventHead, now, 0, start, w, []⟩ where
  holds := h
  te := h.list.head
  news := by simp
  brk_le := le_rfl
  reached := List.Forall₂.nil
  right := by simp
  kept := List.Forall₂.nil
  rest := AeMarked.forall₂_refl xs
  processed := rfl

/-- One more event is reached: in front of the list there are more new events, the event itself is kept or not,
and all others are marked at most. -/
theorem visit (h : AeTimePass.Inv start reached (x :: todo) news kept (y :: rest) s) (s' : AeTimePass W P F D)
    (action : AeTimeAction) (more A this : List (ℕ × AeTimeEvent P F D))
    (hvisits : s'.visits = s.visits ++ [⟨y.1, y.2, s.now, action⟩])
    (hright : AeTimeVisit.Right ⟨y.1, y.2, s.now, action⟩)
    (hprocessed : s'.processed = s.processed + Int32.ofNat (if action.isRan then 1 else 0))
    {rest' : List (ℕ × AeTimeEvent P F D)} (hte : s'.te = first rest' none)
    (hholds : s'.loop.Holds (more ++ (A ++ (this ++ rest'))))
    (hmore : ∀ a, a ∈ more.map Prod.fst ↔ s.loop.heap.brk ≤ a ∧ a < s'.loop.heap.brk)
    (hbrk : s.loop.heap.brk ≤ s'.loop.heap.brk) (hA : List.Forall₂ AeMarked (news ++ kept) A)
    (hthis : List.Forall₂ AeMarked
      (if action.isFinalised then [] else [AeTimeVisit.left ⟨y.1, y.2, s.now, action⟩]) this)
    (hrest : List.Forall₂ AeMarked rest rest') :
    ∃ news' kept', AeTimePass.Inv start (reached ++ [x]) todo news' kept' rest' s' := by
  obtain ⟨news', kept', hnews', hkept', rfl⟩ := forall₂_append_left hA
  obtain ⟨hxy, htodo⟩ := List.forall₂_cons.mp h.rest
  refine ⟨more ++ news', kept' ++ this, ?holds, hte, ?news, h.brk_le.trans hbrk, ?reached, ?right, ?kept,
    AeMarked.forall₂_trans htodo hrest, ?processed⟩
  case holds => simpa only [List.append_assoc] using hholds
  case news =>
    intro a
    have hle := h.brk_le
    rw [List.map_append, List.mem_append, hmore, AeMarked.map_fst hnews', h.news]
    omega
  case reached =>
    rw [hvisits, List.map_append]
    exact List.rel_append h.reached (List.Forall₂.cons hxy List.Forall₂.nil)
  case right =>
    rw [hvisits]
    exact List.forall_mem_append.mpr ⟨h.right, List.forall_mem_singleton.mpr hright⟩
  case kept =>
    rw [hvisits, leftovers_append_singleton]
    exact List.rel_append (AeMarked.forall₂_trans h.kept hkept') hthis
  case processed =>
    rw [hprocessed, hvisits, List.countP_append, List.countP_singleton, h.processed, Int32.ofNat_add]

/-- An event that is neither run nor taken out is passed over. -/
theorem skip (h : AeTimePass.Inv start reached (x :: todo) news kept (y :: rest) s) (action : AeTimeAction)
    (hright : AeTimeVisit.Right ⟨y.1, y.2, s.now, action⟩) (hran : action.isRan = false)
    (hfin : action.isFinalised = false) :
    ∃ news' kept', AeTimePass.Inv start (reached ++ [x]) todo news' kept' rest
      { s with te := first rest none, visits := s.visits ++ [⟨y.1, y.2, s.now, action⟩] } := by
  have hleft : AeTimeVisit.left ⟨y.1, y.2, s.now, action⟩ = y := by
    cases action with
    | ran retval now => cases hran
    | _ => rfl
  refine h.visit _ action [] (news ++ kept) [y] rfl hright
    (by rw [hran]; exact (Int32.add_zero _).symm) rfl ?_ (by simp) le_rfl
    (AeMarked.forall₂_refl _) ?_ (AeMarked.forall₂_refl _)
  · simpa using h.holds
  · rw [hfin, hleft]
    exact AeMarked.forall₂_refl _

/-- **One round**: the next event of the start is reached. -/
theorem round (h : AeTimePass.Inv start reached (x :: todo) news kept (y :: rest) s)
    (hid : x.2.id < start.timeEventNextId) (E : AeTimeProcs W P F D) :
    ∃ s' news' kept' rest', processTimeEventsRound E (start.timeEventNextId - 1) s y.1 = some s' ∧
      AeTimePass.Inv start (reached ++ [x]) todo news' kept' rest' s' := by
  have hxy : AeMarked x y := (List.forall₂_cons.mp h.rest).1
  have hholds := h.holds
  rw [← List.append_assoc] at hholds
  rw [processTimeEventsRound, hholds.cells]
  simp only [Option.bind_eq_bind, Option.bind_some]
  by_cases hdel : y.2.id = aeDeletedEventId
  · rw [if_pos hdel]
    by_cases href : y.2.refcount = 0
    · -- the event goes
      rw [if_neg (not_not.mpr href)]
      obtain ⟨w, now, loop, more, A, B, hremove, hloop, hA, hB, hmore, hbrk⟩ :=
        hholds.aeRemove E y.2 s.now s.world
      rw [hremove, Option.bind_some]
      obtain ⟨news', kept', hinv⟩ := h.visit
        ⟨first rest none, now, s.processed, loop, w, s.visits ++ [⟨y.1, y.2, s.now, .finalised⟩]⟩
        .finalised more A [] rfl
        ⟨by simp [AeTimeAction.isRan, hdel], by simp [AeTimeAction.isFinalised, hdel, href]⟩
        (Int32.add_zero _).symm
        (AeMarked.first_eq hB none).symm hloop hmore hbrk hA List.Forall₂.nil hB
      exact ⟨_, news', kept', B, rfl, hinv⟩
    · rw [if_pos href]
      obtain ⟨news', kept', hinv⟩ := h.skip .referenced
        ⟨by simp [AeTimeAction.isRan, hdel], by simp [AeTimeAction.isFinalised, href]⟩ rfl rfl
      exact ⟨_, news', kept', rest, rfl, hinv⟩
  · -- it is not newer than the pass
    have hold : ¬start.timeEventNextId - 1 < y.2.id := by
      have hsame := hxy.id_eq.resolve_right hdel
      omega
    rw [if_neg hdel, if_neg hold]
    by_cases hdue : y.2.when ≤ s.now
    · rw [if_pos hdue]
      obtain ⟨w, retval, loop, more, A, z, B, hrun, hloop, hA, hz, hB, hmore, hbrk⟩ :=
        hholds.aeRunTimeProc E y.2 s.world
      have hcell := hloop
      rw [← List.append_assoc] at hcell
      rw [hrun, Option.bind_some, hcell.cells, Option.bind_some]
      obtain ⟨news', kept', hinv⟩ := h.visit
        ⟨first B none, E.getMonotonicUs w, s.processed + 1, loop, w,
          s.visits ++ [⟨y.1, y.2, s.now, .ran retval (E.getMonotonicUs w)⟩]⟩
        (.ran retval (E.getMonotonicUs w)) more A [(y.1, z)] rfl
        ⟨by simp [AeTimeAction.isRan, hdel, hdue], by simp [AeTimeAction.isFinalised, hdel]⟩ rfl rfl hloop hmore
        hbrk hA (List.Forall₂.cons hz List.Forall₂.nil) hB
      exact ⟨_, news', kept', B, rfl, hinv⟩
    · rw [if_neg hdue]
      obtain ⟨news', kept', hinv⟩ := h.skip .notDue
        ⟨by simp [AeTimeAction.isRan, hdue], by simp [AeTimeAction.isFinalised, hdel]⟩ rfl rfl
      exact ⟨_, news', kept', rest, rfl, hinv⟩

/-- **The loop** reaches every event that is to come. -/
theorem loop (h : AeTimePass.Inv start reached todo news kept rest s)
    (hids : ∀ x ∈ todo, x.2.id < start.timeEventNextId) (E : AeTimeProcs W P F D) {fuel : ℕ}
    (hfuel : todo.length < fuel) :
    ∃ s' news' kept', processTimeEventsLoop E (start.timeEventNextId - 1) fuel s = some s' ∧
      AeTimePass.Inv start (reached ++ todo) [] news' kept' [] s' := by
  obtain ⟨fuel, rfl⟩ := Nat.exists_eq_succ_of_ne_zero (Nat.ne_zero_of_lt hfuel)
  induction todo generalizing reached news kept rest s fuel with
  | nil =>
    have hrest : rest = [] := List.forall₂_nil_left_iff.mp h.rest
    subst hrest
    rw [processTimeEventsLoop, h.te, List.append_nil]
    exact ⟨s, news, kept, rfl, h⟩
  | cons x todo ih =>
    obtain ⟨y, rest, -, -, rfl⟩ := List.forall₂_cons_left_iff.mp h.rest
    rw [List.forall_mem_cons] at hids
    obtain ⟨s₁, news₁, kept₁, rest₁, hround, h₁⟩ := h.round hids.1 E
    have hfuel₁ := Nat.lt_of_succ_lt_succ hfuel
    obtain ⟨fuel, rfl⟩ := Nat.exists_eq_succ_of_ne_zero (Nat.ne_zero_of_lt hfuel₁)
    obtain ⟨s', news', kept', hloop, h'⟩ := ih h₁ hids.2 fuel hfuel₁
    rw [List.append_assoc] at h'
    refine ⟨s', news', kept', ?_, h'⟩
    rw [processTimeEventsLoop, h.te]
    show (processTimeEventsRound E _ s y.1).bind _ = _
    rw [hround]
    exact hloop

end AeTimePass.Inv

/-- A pass comes to its end, and there every event of the start is reached. -/
theorem AeTimers.Holds.processTimeEvents {start : AeTimers P F D} {xs : List (ℕ × AeTimeEvent P F D)}
    (h : start.Holds xs) (E : AeTimeProcs W P F D) (w : W) :
    ∃ s news kept, LatteC.processTimeEvents E w start = some s ∧
      AeTimePass.Inv start xs [] news kept [] s :=
  (AeTimePass.Inv.init h (E.getMonotonicUs w) w).loop h.id_lt E (Nat.lt_succ_of_le h.list.length_le)

/-- What happens to the time events: some code creates and deletes events, or there is a pass. -/
inductive AeTimerStep (W P F D : Type) where
  | code (callback : AeCallback W P F D Unit)
  | pass (w : W)

/-- One step after the other. -/
def aeTimersRun (E : AeTimeProcs W P F D) : AeTimers P F D → List (AeTimerStep W P F D) → Option (AeTimers P F D)
  | loop, [] => some loop
  | loop, .code callback :: steps => (callback.run loop).bind fun r ↦ aeTimersRun E r.2.2 steps
  | loop, .pass w :: steps => (processTimeEvents E w loop).bind fun s ↦ aeTimersRun E s.loop steps

/-- Every run keeps the list of events as it must be. -/
theorem AeTimers.Holds.aeTimersRun {loop : AeTimers P F D} {xs : List (ℕ × AeTimeEvent P F D)}
    (h : loop.Holds xs) (E : AeTimeProcs W P F D) (steps : List (AeTimerStep W P F D)) :
    ∃ loop' ys, LatteC.aeTimersRun E loop steps = some loop' ∧ loop'.Holds ys := by
  induction steps generalizing loop xs with
  | nil => exact ⟨loop, xs, rfl, h⟩
  | cons step steps ih =>
    cases step with
    | code callback =>
      obtain ⟨w, r, loop₁, news, ys, hrun, hholds, -⟩ := h.run callback
      obtain ⟨loop', zs, hsteps, hholds'⟩ := ih hholds
      refine ⟨loop', zs, ?_, hholds'⟩
      rw [LatteC.aeTimersRun, hrun]
      exact hsteps
    | pass w =>
      obtain ⟨s, news, kept, hpass, hinv⟩ := h.processTimeEvents E w
      obtain ⟨loop', zs, hsteps, hholds'⟩ := ih hinv.holds
      refine ⟨loop', zs, ?_, hholds'⟩
      rw [LatteC.aeTimersRun, hpass]
      exact hsteps

/-- Three events: one that is due, one that is deleted, one that is due later. -/
def threeTimers : AeTimers Unit Unit Unit where
  heap := ⟨fun a ↦
    if a = 2 then some ⟨none, some 1, ⟨2, 5, (), none, (), 0⟩⟩
    else if a = 1 then some ⟨some 2, some 0, ⟨-1, 7, (), some (), (), 0⟩⟩
    else if a = 0 then some ⟨some 1, none, ⟨0, 20, (), none, (), 0⟩⟩
    else none, 3⟩
  timeEventHead := some 2
  timeEventNextId := 3

/-- At time 10, an event creates another one, deletes the one with identifier 0, and wants to run again. -/
def threeTimersProcs (retval : Int32) : AeTimeProcs Unit Unit Unit Unit where
  getMonotonicUs := fun _ ↦ 10
  timeProc := fun _ _ _ _ ↦ .timeEventNew 10 5 () () none fun _ ↦ .timeEventDelete 0 fun _ ↦ .done () retval
  finalizerProc := fun _ _ _ ↦ .done () ()

theorem holds_threeTimers : threeTimers.Holds [(2, ⟨2, 5, (), none, (), 0⟩), (1, ⟨-1, 7, (), some (), (), 0⟩),
    (0, ⟨0, 20, (), none, (), 0⟩)] where
  list := ⟨⟨rfl, rfl, rfl, trivial⟩, rfl, rfl, rfl, by simp, by simp [threeTimers]⟩
  id_lt := by simp [threeTimers]
  nextId_nonneg := by decide

example : (processTimeEvents (threeTimersProcs 1) () threeTimers).map (fun s ↦ s.visits.map AeTimeVisit.te) =
    some [2, 1, 0] := by decide

example : (processTimeEvents (threeTimersProcs 1) () threeTimers).map (fun s ↦ s.processed) = some 1 := by decide

/-- A signed number as an unsigned one. -/
theorem toNat_toUInt64 (z : Int64) : (z.toUInt64.toNat : ℤ) = z.toInt % 2 ^ 64 := by
  have hbmod := z.toBitVec.toInt_eq_toNat_bmod
  have hlt : z.toUInt64.toNat < 2 ^ 64 := z.toUInt64.toNat_lt
  have hnat : z.toBitVec.toNat = z.toUInt64.toNat := rfl
  rw [Int64.toInt_toBitVec, hnat, Int.bmod_def] at hbmod
  rw [hbmod]
  push_cast
  split_ifs
  · omega
  · omega

variable {retval : Int32}

theorem toInt_nonneg (h : 0 ≤ retval) : 0 ≤ retval.toInt := Int32.le_iff_toInt_le.mp h

/-- In 64 bits the product is that of the numbers. -/
theorem toInt_milliseconds (h : 0 ≤ retval) : (retval.toInt64 * 1000).toInt = retval.toInt * 1000 := by
  have hnonneg := toInt_nonneg h
  have hlt := retval.toInt_lt
  rw [Int64.toInt_mul, Int32.toInt_toInt64]
  show (retval.toInt * 1000).bmod (2 ^ 64) = _
  rw [Int.bmod_def]
  push_cast
  split_ifs
  · omega
  · omega

/-- In 32 bits it is that if it is in range. -/
theorem toInt_retval_mul (h : 0 ≤ retval) :
    (retval * 1000).toInt = retval.toInt * 1000 ↔ retval ≤ 2147483 := by
  have hnonneg := toInt_nonneg h
  have hlt := retval.toInt_lt
  rw [Int32.toInt_mul, Int32.le_iff_toInt_le]
  show (retval.toInt * 1000).bmod (2 ^ 32) = _ ↔ retval.toInt ≤ 2147483
  rw [Int.bmod_def]
  push_cast
  split_ifs
  · omega
  · omega

/-- An event that is created is due after as many milliseconds as it says. -/
theorem toNat_aeWhen (now : UInt64) (h : 0 ≤ retval) :
    (aeWhen now retval.toInt64).toNat = (now.toNat + 1000 * retval.toInt.toNat) % 2 ^ 64 := by
  have hnonneg := toInt_nonneg h
  have hcast := toNat_toUInt64 (retval.toInt64 * 1000)
  rw [toInt_milliseconds h] at hcast
  rw [aeWhen, UInt64.toNat_add]
  omega

/-- An event that runs again is due at the same time as a new one only if the `int` product is in range. -/
theorem aeWhenNext_eq_iff (now : UInt64) (h : 0 ≤ retval) :
    aeWhenNext now retval = aeWhen now retval.toInt64 ↔ retval ≤ 2147483 := by
  have hnonneg := toInt_nonneg h
  have hlt := retval.toInt_lt
  have hge := (retval * 1000).le_toInt
  have hlt' := (retval * 1000).toInt_lt
  have hshort := toNat_toUInt64 (retval * 1000).toInt64
  have hlong := toNat_toUInt64 (retval.toInt64 * 1000)
  rw [Int32.toInt_toInt64] at hshort
  rw [toInt_milliseconds h] at hlong
  rw [← toInt_retval_mul h, aeWhenNext, aeWhen, UInt64.add_right_inj, ← UInt64.toNat_inj]
  omega

/-- **Running again.** The event that returned `retval` is due `retval` milliseconds later, as a new event would
be, if and only if `retval * 1000` is in the range of an `int`. -/
theorem processTimeEvents_when {start : AeTimers P F D} {xs : List (ℕ × AeTimeEvent P F D)} (h : start.Holds xs)
    (E : AeTimeProcs W P F D) (w : W) :
    ∃ s, processTimeEvents E w start = some s ∧
      ∀ v ∈ s.visits, ∀ retval now, v.action = .ran retval now → 0 ≤ retval →
        ∃ c, s.loop.heap.cells v.te = some c ∧
          (c.value.when = aeWhen now retval.toInt64 ∧
            c.value.when.toNat = (now.toNat + 1000 * retval.toInt.toNat) % 2 ^ 64 ↔ retval ≤ 2147483) := by
  obtain ⟨s, news, kept, hpass, hinv⟩ := h.processTimeEvents E w
  refine ⟨s, hpass, fun v hv retval now hran hretval ↦ ?_⟩
  have hholds := hinv.holds
  have hkept := hinv.kept
  rw [List.append_nil] at hholds
  -- the event is still in the list, with the time that was set
  have hmem : v.left ∈ leftovers s.visits := by
    refine List.mem_map_of_mem (List.mem_filter.mpr ⟨hv, ?_⟩)
    rw [hran]
    rfl
  obtain ⟨A, B, hcut⟩ := List.append_of_mem hmem
  rw [hcut] at hkept
  obtain ⟨A', B₁, -, hB₁, rfl⟩ := forall₂_append_left hkept
  obtain ⟨y, B', hy, -, rfl⟩ := List.forall₂_cons_left_iff.mp hB₁
  have hwhen : y.2.when = aeWhenNext now retval := by
    have hleft : y.2.when = v.left.2.when := hy.2.elim (congrArg _) (congrArg _)
    rw [hleft, AeTimeVisit.left, hran]
    exact AeTimeEvent.when_afterRun hretval now v.event
  rw [← List.append_assoc] at hholds
  refine ⟨_, hy.1 ▸ hholds.cells, ?_⟩
  show y.2.when = _ ∧ y.2.when.toNat = _ ↔ _
  rw [hwhen, ← aeWhenNext_eq_iff now hretval]
  refine ⟨And.left, fun heq ↦ ⟨heq, ?_⟩⟩
  rw [heq]
  exact toNat_aeWhen now hretval

theorem processTimeEvents_when_three :
    ∃ s, processTimeEvents (threeTimersProcs 1) () threeTimers = some s ∧
      ∀ v ∈ s.visits, ∀ retval now, v.action = .ran retval now → 0 ≤ retval →
        ∃ c, s.loop.heap.cells v.te = some c ∧
          (c.value.when = aeWhen now retval.toInt64 ∧
            c.value.when.toNat = (now.toNat + 1000 * retval.toInt.toNat) % 2 ^ 64 ↔ retval ≤ 2147483) :=
  processTimeEvents_when holds_threeTimers (threeTimersProcs 1) ()

/-- An event that asks to run again after 2147484 milliseconds gets another time. -/
theorem not_processTimeEvents_when :
    ¬∀ retval : Int32, 0 ≤ retval → ∀ s, processTimeEvents (threeTimersProcs retval) () threeTimers = some s →
      (s.loop.heap.cells 2).map (fun c ↦ c.value.when) = some (aeWhen 10 retval.toInt64) := by
  intro hall
  obtain ⟨s, -, -, hpass, -⟩ := holds_threeTimers.processTimeEvents (threeTimersProcs 2147484) ()
  have hwhen : (processTimeEvents (threeTimersProcs 2147484) () threeTimers).map
      (fun s ↦ (s.loop.heap.cells 2).map fun c ↦ c.value.when) ≠ some (some (aeWhen 10 2147484)) := by decide
  rw [hpass] at hwhen
  exact hwhen (congrArg some (hall 2147484 (by decide) s hpass))

end LatteC
