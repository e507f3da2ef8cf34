import LatteC.Foundation.Block

/-!
# File events

The table of file events of an event loop, `src/ae/ae.c`. `maxfd` is the largest descriptor with events, and
it is kept up to date call by call: a new event may raise it, and when the last event of the largest descriptor
goes the table is searched from there downwards. A resize initialises the slots above `maxfd`, and it must not
cut off any other.

## Modelling

These are the members of `ae_event_loop_t` that file events are about. A procedure or an argument that was never
set is `none`. The polling backend may refuse a new event or a resize, so a call comes with its answer.
-/

namespace LatteC

open Block

/-- `AE_NONE`. -/
def aeNone : UInt32 := 0

/-- `AE_READABLE`. -/
def aeReadable : UInt32 := 1

/-- `AE_WRITABLE`. -/
def aeWritable : UInt32 := 2

/-- `AE_BARRIER`. -/
def aeBarrier : UInt32 := 4

/-- `AE_OK`. -/
def aeOk : ℤ := 0

/-- `AE_ERR`. -/
def aeErr : ℤ := -1

/-- `ae_file_event_t`. -/
structure AeFileEvent (P D : Type) where
  mask : UInt32
  rfileProc : Option P
  wfileProc : Option P
  clientData : Option D

/-- The file events of `ae_event_loop_t`. -/
structure AeFiles (P D : Type) where
  maxfd : ℤ
  setsize : ℤ
  events : List (AeFileEvent P D)

variable {P D : Type}

/-- The loop that sets the masks of the slots from `i` on to `AE_NONE`. -/
def aeClearMasks (events : List (AeFileEvent P D)) (i setsize : ℤ) : Option (List (AeFileEvent P D)) :=
  if i < setsize then
    (cell events i).bind fun fe ↦
      (setCell events i { fe with mask := aeNone }).bind fun events ↦ aeClearMasks events (i + 1) setsize
  else some events
termination_by (setsize - i).toNat

/-- `ae_event_loop_new`, as far as it is about file events. -/
def aeFilesNew (M : Allocator (AeFileEvent P D)) (setsize : ℕ) : Option (AeFiles P D) :=
  (aeClearMasks (M.block setsize) 0 setsize).map fun events ↦ ⟨-1, setsize, events⟩

/-- `ae_resize_set_size`. -/
def aeResizeSetSize (M : Allocator (AeFileEvent P D)) (resized : Bool) (loop : AeFiles P D) (setsize : ℤ) :
    Option (AeFiles P D × ℤ) :=
  if setsize = loop.setsize then some (loop, aeOk)
  else if setsize ≤ loop.maxfd then some (loop, aeErr)
  else if ¬resized then some (loop, aeErr)
  else
    (aeClearMasks (M.resize loop.events setsize.toNat) (loop.maxfd + 1) setsize).map fun events ↦
      (⟨loop.maxfd, setsize, events⟩, aeOk)

/-- `ae_file_event_new`. -/
def aeFileEventNew (added : Bool) (loop : AeFiles P D) (fd : ℕ) (mask : UInt32) (proc : P) (clientData : D) :
    Option (AeFiles P D × ℤ) :=
  if loop.setsize ≤ fd then some (loop, aeErr)
  else do
    let fe ← cell loop.events fd
    if ¬added then some (loop, aeErr)
    else
      let fe : AeFileEvent P D :=
        { mask := fe.mask ||| mask
          rfileProc := if mask &&& aeReadable ≠ 0 then some proc else fe.rfileProc
          wfileProc := if mask &&& aeWritable ≠ 0 then some proc else fe.wfileProc
          clientData := some clientData }
      let events ← setCell loop.events fd fe
      let maxfd := if loop.maxfd < fd then (fd : ℤ) else loop.maxfd
      some ({ loop with events := events, maxfd := maxfd }, aeOk)

/-- The loop that looks for the largest descriptor with events, from `j` downwards. -/
def aeLastFd (events : List (AeFileEvent P D)) (j : ℤ) : Option ℤ :=
  if 0 ≤ j then
    (cell events j).bind fun fe ↦ if fe.mask ≠ aeNone then some j else aeLastFd events (j - 1)
  else some j
termination_by (j + 1).toNat

/-- `ae_file_event_delete`. -/
def aeFileEventDelete (loop : AeFiles P D) (fd : ℕ) (mask : UInt32) : Option (AeFiles P D) :=
  if loop.setsize ≤ fd then some loop
  else do
    let fe ← cell loop.events fd
    if fe.mask = aeNone then some loop
    else
      let mask := if mask &&& aeWritable ≠ 0 then mask ||| aeBarrier else mask
      let fe := { fe with mask := fe.mask &&& ~~~mask }
      let events ← setCell loop.events fd fe
      if fd = loop.maxfd ∧ fe.mask = aeNone then
        let maxfd ← aeLastFd events (loop.maxfd - 1)
        some { loop with events := events, maxfd := maxfd }
      else some { loop with events := events }

/-- `ae_file_event_get_mask`. -/
def aeFileEventGetMask (loop : AeFiles P D) (fd : ℕ) : Option UInt32 :=
  if loop.setsize ≤ fd then some 0 else (cell loop.events fd).map AeFileEvent.mask

/-! ## The table -/

/-- The mask in a slot of the table. -/
def maskAt (events : List (AeFileEvent P D)) (i : ℕ) : UInt32 := (events[i]?.map AeFileEvent.mask).getD aeNone

theorem maskAt_eq {events : List (AeFileEvent P D)} {i : ℕ} {fe : AeFileEvent P D} (h : events[i]? = some fe) :
    maskAt events i = fe.mask := by
  rw [maskAt, h]
  rfl

theorem maskAt_set {events : List (AeFileEvent P D)} {i : ℕ} (hi : i < events.length) (fe : AeFileEvent P D)
    (j : ℕ) : maskAt (events.set i fe) j = if i = j then fe.mask else maskAt events j := by
  rw [maskAt, List.getElem?_set]
  split_ifs with hij
  · rfl
  · rfl

/-- What a table holds in front of a position does not depend on what is behind it. -/
theorem maskAt_append {front back : List (AeFileEvent P D)} {i : ℕ} (hi : i < front.length)
    (back' : List (AeFileEvent P D)) : maskAt (front ++ back) i = maskAt (front ++ back') i := by
  rw [maskAt, maskAt, List.getElem?_append_left hi, List.getElem?_append_left hi]

/-- **Clearing** the slots of a range. -/
theorem aeClearMasks_spec {setsize : ℕ} (events : List (AeFileEvent P D)) (hsize : setsize ≤ events.length)
    (i : ℕ) :
    ∃ events', aeClearMasks events i setsize = some events' ∧ events'.length = events.length ∧
      ∀ j, maskAt events' j = if i ≤ j ∧ j < setsize then aeNone else maskAt events j := by
  induction hk : setsize - i generalizing events i with
  | zero =>
    refine ⟨events, ?_, rfl, fun j ↦ (if_neg (by omega)).symm⟩
    rw [aeClearMasks, if_neg (by omega)]
  | succ k ih =>
    have hi : i < events.length := by omega
    obtain ⟨events', hclear, hlength, hmask⟩ := ih (events.set i { events[i] with mask := aeNone })
      (by rwa [List.length_set]) (i + 1) (by omega)
    refine ⟨events', ?_, by rw [hlength, List.length_set], fun j ↦ ?_⟩
    · rw [aeClearMasks, if_pos (by omega), cell_natCast, List.getElem?_eq_getElem hi, Option.bind_some,
        setCell_natCast hi, Option.bind_some]
      exact hclear
    · rw [hmask, maskAt_set hi]
      split_ifs <;> first | rfl | omega

/-- **Searching** downwards finds the largest descriptor with events. -/
theorem aeLastFd_spec (events : List (AeFileEvent P D)) (j : ℕ) (hj : j ≤ events.length) :
    ∃ maxfd : ℤ, aeLastFd events (j - 1) = some maxfd ∧ maxfd < j ∧ -1 ≤ maxfd ∧
      (∀ i : ℕ, maxfd < i → i < j → maskAt events i = aeNone) ∧
      ∀ i : ℕ, maxfd = i → maskAt events i ≠ aeNone := by
  induction j with
  | zero =>
    refine ⟨-1, ?_, by omega, le_refl _, fun i _ hi ↦ absurd hi (Nat.not_lt_zero i), fun i hi ↦ by omega⟩
    rw [aeLastFd, if_neg (by omega)]
    rfl
  | succ j ih =>
    have hlt : j < events.length := by omega
    have hget := List.getElem?_eq_getElem hlt
    have hj' : ((j + 1 : ℕ) : ℤ) - 1 = j := by omega
    rw [hj', aeLastFd, if_pos (Int.natCast_nonneg j), cell_natCast, hget, Option.bind_some]
    by_cases hmask : events[j].mask = aeNone
    · obtain ⟨maxfd, hlast, hupper, hlower, habove, hat⟩ := ih hlt.le
      rw [if_neg (not_not.mpr hmask)]
      refine ⟨maxfd, hlast, by omega, hlower, fun i hi hij ↦ ?_, hat⟩
      by_cases heq : i = j
      · rw [heq, maskAt_eq hget, hmask]
      · exact habove i hi (by omega)
    · refine ⟨j, if_pos hmask, by omega, by omega, fun i hi hij ↦ by omega, fun i hi ↦ ?_⟩
      obtain rfl : j = i := by omega
      rwa [maskAt_eq hget]

/-! ## The invariant -/

/-- `maxfd` is the largest descriptor with events, and all slots up to the size are initialised. -/
structure AeFiles.Inv (loop : AeFiles P D) : Prop where
  setsize_le : loop.setsize ≤ loop.events.length
  maxfd_lt : loop.maxfd < loop.setsize
  le_maxfd : -1 ≤ loop.maxfd
  none_above : ∀ i : ℕ, loop.maxfd < i → i < loop.setsize → maskAt loop.events i = aeNone
  some_at : ∀ i : ℕ, loop.maxfd = i → maskAt loop.events i ≠ aeNone

theorem inv_aeFilesNew (M : Allocator (AeFileEvent P D)) (setsize : ℕ) :
    ∃ loop, aeFilesNew M setsize = some loop ∧ loop.Inv := by
  obtain ⟨events, hclear, hlength, hmask⟩ := aeClearMasks_spec (M.block setsize) (M.le_length setsize) 0
  have hle := M.le_length setsize
  rw [Nat.cast_zero] at hclear
  refine ⟨⟨-1, setsize, events⟩, by rw [aeFilesNew, hclear]; rfl, ?_⟩
  exact ⟨by simp only; omega, by simp only; omega, le_refl _,
    fun i _ hi ↦ (hmask i).trans (if_pos ⟨Nat.zero_le i, by simp only at hi; omega⟩),
    fun i hi ↦ by simp only at hi; omega⟩

/-- The largest descriptor with events lies in the table. -/
theorem AeFiles.Inv.exists_eq_append {loop : AeFiles P D} (h : loop.Inv) :
    ∃ front back, loop.events = front ++ back ∧ (front.length : ℤ) = loop.maxfd + 1 := by
  have hlower := h.le_maxfd
  have hupper := h.maxfd_lt
  have hsize := h.setsize_le
  refine ⟨loop.events.take (loop.maxfd + 1).toNat, loop.events.drop (loop.maxfd + 1).toNat,
    (List.take_append_drop _ _).symm, ?_⟩
  rw [List.length_take]
  omega

/-- A slot that is in use is in the table. -/
theorem AeFiles.Inv.lt_length {loop : AeFiles P D} (h : loop.Inv) {fd : ℕ} (hfd : ¬loop.setsize ≤ fd) :
    fd < loop.events.length := by
  have hsize := h.setsize_le
  omega

section Calls

variable {loop : AeFiles P D} (h : loop.Inv)

include h

/-- **Resizing.** -/
theorem AeFiles.Inv.resize (M : Allocator (AeFileEvent P D)) (resized : Bool) (setsize : ℤ) :
    ∃ loop' r, aeResizeSetSize M resized loop setsize = some (loop', r) ∧ loop'.Inv ∧
      (r = aeErr → loop' = loop) := by
  rw [aeResizeSetSize]
  by_cases hsame : setsize = loop.setsize
  · exact ⟨loop, aeOk, if_pos hsame, h, fun _ ↦ rfl⟩
  · rw [if_neg hsame]
    by_cases hsmall : setsize ≤ loop.maxfd
    · exact ⟨loop, aeErr, if_pos hsmall, h, fun _ ↦ rfl⟩
    · rw [if_neg hsmall]
      by_cases hresized : resized = true
      · -- what is kept are the slots up to `maxfd`
        obtain ⟨front, back, hevents, hfront⟩ := h.exists_eq_append
        have hlower := h.le_maxfd
        obtain ⟨back', hresize, hlength⟩ := M.resize_append front back
          (show front.length ≤ setsize.toNat by omega)
        have hsize : ((setsize.toNat : ℕ) : ℤ) = setsize := Int.toNat_of_nonneg (by omega)
        obtain ⟨events, hclear, hlength', hmask⟩ := aeClearMasks_spec (front ++ back') hlength front.length
        rw [hsize, hfront] at hclear
        rw [if_neg (not_not.mpr hresized), hevents, hresize, hclear]
        refine ⟨⟨loop.maxfd, setsize, events⟩, aeOk, rfl, ⟨?_, not_le.mp hsmall, hlower, ?_, ?_⟩,
          fun hr ↦ absurd hr (by decide)⟩
        · simp only [hlength']
          omega
        · intro i hi hlt
          simp only at hi hlt
          rw [hmask, if_pos (by omega)]
        · intro i hi
          simp only at hi
          rw [hmask, if_neg (by omega), maskAt_append (by omega) back, ← hevents]
          exact h.some_at i hi
      · exact ⟨loop, aeErr, if_pos hresized, h, fun _ ↦ rfl⟩

/-- **A new event.** -/
theorem AeFiles.Inv.new (added : Bool) (fd : ℕ) {mask : UInt32} (hmask : mask ≠ 0) (proc : P) (clientData : D) :
    ∃ loop' r, aeFileEventNew added loop fd mask proc clientData = some (loop', r) ∧ loop'.Inv ∧
      (r = aeErr → loop' = loop) := by
  rw [aeFileEventNew]
  by_cases hbig : loop.setsize ≤ fd
  · exact ⟨loop, aeErr, if_pos hbig, h, fun _ ↦ rfl⟩
  · have hlt := h.lt_length hbig
    have hget := List.getElem?_eq_getElem hlt
    rw [if_neg hbig, cell_natCast, hget]
    simp only [bind, Option.bind_some]
    by_cases hadded : added = true
    · rw [if_neg (not_not.mpr hadded), setCell_natCast hlt, Option.bind_some]
      refine ⟨_, aeOk, rfl, ⟨?_, ?_, ?_, ?_, ?_⟩, fun hr ↦ absurd hr (by decide)⟩
      · rw [List.length_set]
        exact h.setsize_le
      · have hupper := h.maxfd_lt
        simp only
        split_ifs <;> omega
      · have hlower := h.le_maxfd
        simp only
        split_ifs <;> omega
      · intro i hi hsize
        simp only at hi hsize ⊢
        rw [maskAt_set hlt, if_neg (by split_ifs at hi <;> omega)]
        exact h.none_above i (by split_ifs at hi <;> omega) hsize
      · intro i hi
        simp only at hi ⊢
        rw [maskAt_set hlt]
        by_cases heq : fd = i
        · rw [if_pos heq]
          exact fun hnone ↦ hmask (UInt32.or_eq_zero_iff.mp hnone).2
        · rw [if_neg heq]
          exact h.some_at i (by split_ifs at hi <;> omega)
    · exact ⟨loop, aeErr, if_pos hadded, h, fun _ ↦ rfl⟩

/-- **Deleting** events. -/
theorem AeFiles.Inv.delete (fd : ℕ) (mask : UInt32) :
    ∃ loop', aeFileEventDelete loop fd mask = some loop' ∧ loop'.Inv := by
  rw [aeFileEventDelete]
  by_cases hbig : loop.setsize ≤ fd
  · exact ⟨loop, if_pos hbig, h⟩
  · have hlt := h.lt_length hbig
    have hget := List.getElem?_eq_getElem hlt
    rw [if_neg hbig, cell_natCast, hget]
    simp only [bind, Option.bind_some]
    by_cases hnone : loop.events[fd].mask = aeNone
    · exact ⟨loop, if_pos hnone, h⟩
    · rw [if_neg hnone, setCell_natCast hlt, Option.bind_some]
      -- what is left of the slot
      generalize loop.events[fd].mask &&& ~~~(if mask &&& aeWritable ≠ 0 then mask ||| aeBarrier else mask) = m
      obtain ⟨left, hleft, hm⟩ : ∃ left : AeFileEvent P D,
          { loop.events[fd] with mask := m } = left ∧ m = left.mask :=
        ⟨_, rfl, rfl⟩
      rw [hleft, hm]
      have hsize := h.setsize_le
      have hfd : (fd : ℤ) ≤ loop.maxfd := by
        by_contra hlow
        exact hnone (maskAt_eq hget ▸ h.none_above fd (not_le.mp hlow) (not_le.mp hbig))
      have hother : ∀ i : ℕ, fd ≠ i → maskAt (loop.events.set fd left) i = maskAt loop.events i :=
        fun i hi ↦ by rw [maskAt_set hlt, if_neg hi]
      by_cases hlast : fd = loop.maxfd ∧ left.mask = aeNone
      · -- the last event of the largest descriptor
        obtain ⟨maxfd, hsearch, hupper, hlower, habove, hat⟩ := aeLastFd_spec (loop.events.set fd left) fd
          (by rw [List.length_set]; exact hlt.le)
        rw [if_pos hlast, ← hlast.1, hsearch, Option.bind_some]
        refine ⟨_, rfl, ⟨?_, ?_, hlower, fun i hi hi' ↦ ?_, hat⟩⟩
        · rw [List.length_set]
          exact hsize
        · simp only
          omega
        · simp only at hi hi' ⊢
          obtain hi'' | rfl | hi'' := lt_trichotomy i fd
          · exact habove i hi hi''
          · rw [maskAt_set hlt, if_pos rfl, hlast.2]
          · rw [hother i (by omega)]
            exact h.none_above i (by omega) hi'
      · rw [if_neg hlast]
        refine ⟨_, rfl, ⟨?_, h.maxfd_lt, h.le_maxfd, fun i hi hi' ↦ ?_, fun i hi ↦ ?_⟩⟩
        · rw [List.length_set]
          exact hsize
        · simp only at hi hi' ⊢
          rw [hother i (by omega)]
          exact h.none_above i hi hi'
        · simp only at hi ⊢
          by_cases heq : fd = i
          · rw [maskAt_set hlt, if_pos heq]
            exact fun hleft ↦ hlast ⟨by omega, hleft⟩
          · rw [hother i heq]
            exact h.some_at i hi

end Calls

/-! ## Any calls -/

/-- A call, with what the backend answers. -/
inductive AeFileCall (P D : Type) where
  /-- `ae_file_event_new`. -/
  | new (fd : ℕ) (mask : UInt32) (proc : P) (clientData : D) (added : Bool)
  /-- `ae_file_event_delete`. -/
  | delete (fd : ℕ) (mask : UInt32)
  /-- `ae_resize_set_size`. -/
  | resize (setsize : ℤ) (M : Allocator (AeFileEvent P D)) (resized : Bool)

/-- A new event has events. -/
def AeFileCall.NonEmpty : AeFileCall P D → Prop
  | .new _ mask _ _ _ => mask ≠ 0
  | _ => True

/-- A call: the table, and what is returned if something is. -/
def AeFileCall.apply (loop : AeFiles P D) : AeFileCall P D → Option (AeFiles P D × Option ℤ)
  | .new fd mask proc clientData added =>
    (aeFileEventNew added loop fd mask proc clientData).map fun r ↦ (r.1, some r.2)
  | .delete fd mask => (aeFileEventDelete loop fd mask).map fun loop ↦ (loop, none)
  | .resize setsize M resized => (aeResizeSetSize M resized loop setsize).map fun r ↦ (r.1, some r.2)

/-- The table after calls. -/
def aeFileRun (loop : AeFiles P D) : (calls : List (AeFileCall P D)) → Option (AeFiles P D)
  | [] => some loop
  | call :: calls => (call.apply loop).bind fun r ↦ aeFileRun r.1 calls

/-- **One call.** -/
theorem AeFiles.Inv.apply {loop : AeFiles P D} (h : loop.Inv) {call : AeFileCall P D} (hcall : call.NonEmpty) :
    ∃ loop' r, call.apply loop = some (loop', r) ∧ loop'.Inv ∧ (r = some aeErr → loop' = loop) := by
  cases call with
  | new fd mask proc clientData added =>
    obtain ⟨loop', r, hnew, hinv, herr⟩ := h.new added fd hcall proc clientData
    exact ⟨loop', some r, by rw [AeFileCall.apply, hnew]; rfl, hinv, fun hr ↦ herr (Option.some.inj hr)⟩
  | delete fd mask =>
    obtain ⟨loop', hdelete, hinv⟩ := h.delete fd mask
    exact ⟨loop', none, by rw [AeFileCall.apply, hdelete]; rfl, hinv, fun hr ↦ by cases hr⟩
  | resize setsize M resized =>
    obtain ⟨loop', r, hresize, hinv, herr⟩ := h.resize M resized setsize
    exact ⟨loop', some r, by rw [AeFileCall.apply, hresize]; rfl, hinv, fun hr ↦ herr (Option.some.inj hr)⟩

theorem AeFiles.Inv.run {loop : AeFiles P D} (h : loop.Inv) {calls : List (AeFileCall P D)}
    (hcalls : ∀ call ∈ calls, call.NonEmpty) : ∃ loop', aeFileRun loop calls = some loop' ∧ loop'.Inv := by
  induction calls generalizing loop with
  | nil => exact ⟨loop, rfl, h⟩
  | cons call calls ih =>
    rw [List.forall_mem_cons] at hcalls
    obtain ⟨loop₁, r, happly, hinv, -⟩ := h.apply hcalls.1
    obtain ⟨loop', hrun, hinv'⟩ := ih hinv hcalls.2
    exact ⟨loop', by rw [aeFileRun, happly]; exact hrun, hinv'⟩

/-- `maxfd` is the largest descriptor of which the mask is not `AE_NONE`, or `-1` if there is none. -/
def IsMaxfd (loop : AeFiles P D) : Prop :=
  (∀ fd mask, aeFileEventGetMask loop fd = some mask → mask ≠ aeNone → fd ≤ loop.maxfd) ∧
    (loop.maxfd = -1 ∨ ∃ fd mask, aeFileEventGetMask loop fd = some mask ∧ mask ≠ aeNone ∧ loop.maxfd = fd)

theorem AeFiles.Inv.isMaxfd {loop : AeFiles P D} (h : loop.Inv) : IsMaxfd loop := by
  have hmask : ∀ fd : ℕ, ¬loop.setsize ≤ fd → aeFileEventGetMask loop fd = some (maskAt loop.events fd) := by
    intro fd hfd
    have hget := List.getElem?_eq_getElem (h.lt_length hfd)
    rw [aeFileEventGetMask, if_neg hfd, cell_natCast, hget, maskAt_eq hget]
    rfl
  refine ⟨fun fd mask hget hne ↦ ?_, ?_⟩
  · by_contra hlow
    by_cases hbig : loop.setsize ≤ fd
    · rw [aeFileEventGetMask, if_pos hbig] at hget
      exact hne (Option.some.inj hget).symm
    · rw [hmask fd hbig] at hget
      rw [← Option.some.inj hget] at hne
      exact hne (h.none_above fd (not_le.mp hlow) (not_le.mp hbig))
  · have hlower := h.le_maxfd
    have hupper := h.maxfd_lt
    obtain heq | hlt := hlower.eq_or_lt
    · exact Or.inl heq.symm
    · have hfd : ((loop.maxfd.toNat : ℕ) : ℤ) = loop.maxfd := Int.toNat_of_nonneg (by omega)
      exact Or.inr ⟨loop.maxfd.toNat, _, hmask _ (by omega), h.some_at _ hfd.symm, hfd.symm⟩

/-- **`maxfd`.** After any calls `maxfd` is the largest descriptor with events and below the size, and a call
that fails changes nothing. -/
theorem aeFileRun_maxfd (M : Allocator (AeFileEvent P D)) (setsize : ℕ) (calls : List (AeFileCall P D))
    (hcalls : ∀ call ∈ calls, call.NonEmpty) :
    ∃ loop, (aeFilesNew M setsize).bind (aeFileRun · calls) = some loop ∧
      IsMaxfd loop ∧ loop.maxfd < loop.setsize ∧
        ∀ call : AeFileCall P D, call.NonEmpty →
          ∃ loop' r, call.apply loop = some (loop', r) ∧ (r = some aeErr → loop' = loop) := by
  obtain ⟨start, hnew, hstart⟩ := inv_aeFilesNew M setsize
  obtain ⟨loop, hrun, hinv⟩ := hstart.run hcalls
  refine ⟨loop, by rw [hnew]; exact hrun, hinv.isMaxfd, hinv.maxfd_lt, fun call hcall ↦ ?_⟩
  obtain ⟨loop', r, happly, -, herr⟩ := hinv.apply hcall
  exact ⟨loop', r, happly, herr⟩

/-- Two descriptors, and the larger one goes; in memory that was full of events. -/
theorem aeFileRun_maxfd_three :
    ∃ loop, (aeFilesNew (Allocator.fill (⟨7, some 1, some 1, some 1⟩ : AeFileEvent ℕ ℕ)) 4).bind
        (aeFileRun · [.new 1 aeReadable 0 0 true, .new 3 aeWritable 0 0 true, .delete 3 aeWritable]) = some loop ∧
      IsMaxfd loop := by
  obtain ⟨loop, hrun, hmaxfd, -⟩ :=
    aeFileRun_maxfd (Allocator.fill (⟨7, some 1, some 1, some 1⟩ : AeFileEvent ℕ ℕ)) 4
    [.new 1 aeReadable 0 0 true, .new 3 aeWritable 0 0 true, .delete 3 aeWritable]
    (by simp [AeFileCall.NonEmpty, aeReadable, aeWritable])
  exact ⟨loop, hrun, hmaxfd⟩

end LatteC
