import LatteC.List.Basic
import Mathlib.Data.List.Rotate

/-!
# The rest of the linked list

The other operations of `src/list/list.c`, again assignment by assignment, and one lemma for each: what
becomes of the nodes of the list, and that no other cell of the heap is touched.

`list_remove` sets the value of the node to NULL first if the list has a `free` callback; the
callback sees the value only, so the chain is the same without one.
-/

namespace LatteC

open DoublyLinked

variable {α : Type}

/-- `list_add_node_tail`. -/
def listAddNodeTail (h : Heap α) (l : LList) (value : α) : Option (Heap α × LList) :=
  if l.len = 0 then
    let (h, node) := h.alloc ⟨none, none, value⟩
    some (h, ⟨some node, some node, l.len + 1⟩)
  else
    let (h, node) := h.alloc ⟨l.tail, none, value⟩
    l.tail.bind fun tl ↦
      (h.modify tl fun c ↦ { c with next := some node }).map fun h ↦
        (h, { l with tail := some node, len := l.len + 1 })

/-- `if (p != NULL) p->next = n;` -/
def setNextIf (h : Heap α) (p n : Option ℕ) : Option (Heap α) :=
  match p with
  | some p => h.modify p fun c ↦ { c with next := n }
  | none => some h

/-- `if (n != NULL) n->prev = p;` -/
def setPrevIf (h : Heap α) (n p : Option ℕ) : Option (Heap α) :=
  match n with
  | some n => h.modify n fun c ↦ { c with prev := p }
  | none => some h

/-- `list_insert_node`. -/
def listInsertNode (h : Heap α) (l : LList) (oldNode : ℕ) (value : α) (after : Bool) :
    Option (Heap α × LList) := do
  let old ← h.cells oldNode
  let (h, node) := h.alloc
    (if after then ⟨some oldNode, old.next, value⟩ else ⟨old.prev, some oldNode, value⟩)
  let l : LList :=
    if after then if l.tail = some oldNode then { l with tail := some node } else l
    else if l.head = some oldNode then { l with head := some node } else l
  let c ← h.cells node
  let h ← setNextIf h c.prev (some node)
  let c ← h.cells node
  let h ← setPrevIf h c.next (some node)
  return (h, { l with len := l.len + 1 })

/-- `list_remove`. -/
def listRemove (h : Heap α) (l : LList) : Option ℕ → Option (Heap α × LList × Option α)
  | none => some (h, l, none)
  | some node => do
    let c ← h.cells node
    let (h, l) ← listDelNode h l node
    return (h, l, some c.value)

/-- `list_lpop`. -/
def listLpop (h : Heap α) (l : LList) : Option (Heap α × LList × Option α) := listRemove h l l.head

/-- `list_rpop`. -/
def listRpop (h : Heap α) (l : LList) : Option (Heap α × LList × Option α) := listRemove h l l.tail

/-- `list_rotate_tail_to_head`. -/
def listRotateTailToHead (h : Heap α) (l : LList) : Option (Heap α × LList) :=
  if l.len ≤ 1 then some (h, l)
  else do
    let tail ← l.tail
    let c ← h.cells tail
    let l := { l with tail := c.prev }
    let t ← l.tail
    let h ← h.modify t fun c ↦ { c with next := none }
    let hd ← l.head
    let h ← h.modify hd fun c ↦ { c with prev := some tail }
    let h ← h.modify tail fun c ↦ { c with prev := none, next := l.head }
    return (h, { l with head := some tail })

/-- `list_rotate_head_to_tail`. -/
def listRotateHeadToTail (h : Heap α) (l : LList) : Option (Heap α × LList) :=
  if l.len ≤ 1 then some (h, l)
  else do
    let head ← l.head
    let c ← h.cells head
    let l := { l with head := c.next }
    let hd ← l.head
    let h ← h.modify hd fun c ↦ { c with prev := none }
    let t ← l.tail
    let h ← h.modify t fun c ↦ { c with next := some head }
    let h ← h.modify head fun c ↦ { c with next := none, prev := l.tail }
    return (h, { l with tail := some head })

/-- `list_join`: the two lists afterwards. -/
def listJoin (h : Heap α) (l o : LList) : Option (Heap α × LList × LList) :=
  if o.len = 0 then some (h, l, o)
  else do
    let first ← o.head
    let h ← h.modify first fun c ↦ { c with prev := l.tail }
    let (h, l) ← setNextOrHead h l l.tail o.head
    return (h, { l with tail := o.tail, len := l.len + o.len }, ⟨none, none, 0⟩)

/-- The loop `while (node)` of `list_for_each_delete`, with the number of rounds it may take. -/
def listForEachDeleteLoop (needDelete : α → Bool) :
    (fuel : ℕ) → Heap α → LList → Option ℕ → (deleted : ℕ) → Option (Heap α × LList × ℕ)
  | _, h, l, none, deleted => some (h, l, deleted)
  | 0, _, _, some _, _ => none
  | fuel + 1, h, l, some node, deleted => do
    let c ← h.cells node
    if needDelete c.value then
      let (h, l) ← listDelNode h l node
      listForEachDeleteLoop needDelete fuel h l c.next (deleted + 1)
    else listForEachDeleteLoop needDelete fuel h l c.next deleted

/-- `list_for_each_delete`. -/
def listForEachDelete (h : Heap α) (l : LList) (needDelete : α → Bool) :
    Option (Heap α × LList × ℕ) :=
  listForEachDeleteLoop needDelete l.len h l l.head 0

/-! ## Adding nodes -/

/-- On the heap the guarded write is that of the version with an `else`. -/
theorem setNextIf_of_setNextOrHead {h h' : Heap α} {l l' : LList} {p n : Option ℕ}
    (hset : setNextOrHead h l p n = some (h', l')) : setNextIf h p n = some h' := by
  cases p with
  | none => exact congrArg some (Prod.mk.inj (Option.some.inj hset)).1
  | some p =>
    obtain ⟨h₁, hmod, heq⟩ := Option.map_eq_some_iff.mp hset
    rw [setNextIf, hmod, (Prod.mk.inj heq).1]

theorem setPrevIf_of_setPrevOrTail {h h' : Heap α} {l l' : LList} {n p : Option ℕ}
    (hset : setPrevOrTail h l n p = some (h', l')) : setPrevIf h n p = some h' := by
  cases n with
  | none => exact congrArg some (Prod.mk.inj (Option.some.inj hset)).1
  | some n =>
    obtain ⟨h₁, hmod, heq⟩ := Option.map_eq_some_iff.mp hset
    rw [setPrevIf, hmod, (Prod.mk.inj heq).1]

namespace LList.Holds

variable {h : Heap α} {l : LList} {xs A B : List (ℕ × α)} {x : ℕ × α}

/-- Nodes that a heap has not handed out are in no list. -/
theorem ne_brk (hl : l.Holds h xs) : ∀ y ∈ xs, y.1 ≠ h.brk := fun y hy ↦ (hl.lt_brk y hy).ne

/-- The addresses with a new one among them. -/
theorem nodup_insert (hl : l.Holds h (A ++ B)) (value : α) :
    ((A ++ (h.brk, value) :: B).map Prod.fst).Nodup := by
  rw [List.map_append, List.map_cons, List.nodup_middle, List.nodup_cons, ← List.map_append]
  refine ⟨fun hmem ↦ ?_, hl.nodup⟩
  obtain ⟨y, hy, hyb⟩ := List.mem_map.mp hmem
  exact hl.ne_brk y hy hyb

theorem lt_brk_insert (hl : l.Holds h (A ++ B)) (value : α) :
    ∀ y ∈ A ++ (h.brk, value) :: B, y.1 < h.brk + 1 := by
  intro y hy
  rw [List.mem_append, List.mem_cons] at hy
  rcases hy with hy | rfl | hy
  · exact Nat.lt_succ_of_lt (hl.lt_brk y (List.mem_append_left _ hy))
  · exact Nat.lt_succ_self _
  · exact Nat.lt_succ_of_lt (hl.lt_brk y (List.mem_append_right _ hy))

/-- `list_add_node_tail` puts a new node behind the others. -/
theorem listAddNodeTail (hl : l.Holds h xs) (value : α) :
    ∃ h' l', LatteC.listAddNodeTail h l value = some (h', l') ∧
      l'.Holds h' (xs ++ [(h.brk, value)]) ∧ Heap.Frame (xs.map Prod.fst) h h' := by
  have hnil : l.Holds h (xs ++ []) := (List.append_nil xs).symm ▸ hl
  have hnd := hnil.nodup_insert value
  have hlt := hnil.lt_brk_insert value
  rw [LatteC.listAddNodeTail]
  by_cases hxs : xs = []
  · subst hxs
    rw [if_pos (show l.len = 0 from hl.len)]
    exact ⟨_, _, rfl, ⟨⟨Function.update_self .., trivial⟩, rfl, rfl, by rw [hl.len]; rfl, hnd, hlt⟩,
      Heap.frame_alloc ..⟩
  · have hlen : l.len ≠ 0 := by rw [hl.len]; exact mt List.length_eq_zero_iff.mp hxs
    obtain ⟨ys, y, rfl, hlast⟩ := last_eq_of_ne_nil hxs none
    have htail : l.tail = some y.1 := hl.tail.trans hlast
    -- the allocated node, not yet linked up
    have hseg : Seg (h.alloc ⟨l.tail, none, value⟩).1 none (ys ++ [y]) none :=
      seg_congr (fun z hz ↦ Function.update_of_ne (hl.ne_brk z hz) ..) hl.seg
    have hy : y.1 ∉ ys.map Prod.fst := by
      have hnd := hl.nodup
      rw [List.map_append, List.nodup_append] at hnd
      exact fun hmem ↦ hnd.2.2 y.1 hmem y.1 (by simp) rfl
    obtain ⟨h', hmod, hs', hframe, hbrk⟩ := setNext_last hseg hy (some h.brk)
    have hcell : h'.cells h.brk = some ⟨some y.1, none, value⟩ := by
      rw [hframe h.brk (hl.ne_brk y (by simp)).symm, ← htail]
      exact Function.update_self ..
    refine ⟨h', { l with tail := some h.brk, len := l.len + 1 }, ?_,
      ⟨seg_append.mpr ⟨hs', ?_, trivial⟩, ?_, ?_, ?_, hnd, fun z hz ↦ hbrk ▸ hlt z hz⟩,
      (Heap.frame_alloc ..).trans (Heap.frame_modify hmod (by simp))⟩
    · rw [if_neg hlen]
      simp only [Heap.alloc] at hmod ⊢
      rw [htail, Option.bind_some, ← htail, hmod, Option.map_some]
    · rw [hlast, first]
      exact hcell
    · rw [hl.head, first_append, first_append, first_append]
      cases ys <;> rfl
    · rw [last_append]
      rfl
    · simp only [hl.len, List.length_append, List.length_cons, List.length_nil]

/-- Linking a new node in between two parts of the list: the writes of `list_insert_node`. -/
theorem link_between (hl : l.Holds h (A ++ B)) (value : α) :
    ∃ h₁ h₂, setNextIf (h.alloc ⟨last none A, first B none, value⟩).1 (last none A) (some h.brk)
        = some h₁ ∧
      h₁.cells h.brk = some ⟨last none A, first B none, value⟩ ∧
      setPrevIf h₁ (first B none) (some h.brk) = some h₂ ∧
      Seg h₂ none (A ++ (h.brk, value) :: B) none ∧ h₂.brk = h.brk + 1 ∧
      Heap.Frame ((A ++ B).map Prod.fst) h h₂ := by
  obtain ⟨hA, hB⟩ := seg_append.mp hl.seg
  have hnd := hl.nodup
  rw [List.map_append, List.nodup_append] at hnd
  obtain ⟨hndA, hndB, hAB⟩ := hnd
  have hneA : ∀ y ∈ A, y.1 ≠ h.brk := fun y hy ↦ hl.ne_brk y (List.mem_append_left _ hy)
  have hneB : ∀ y ∈ B, y.1 ≠ h.brk := fun y hy ↦ hl.ne_brk y (List.mem_append_right _ hy)
  set h₀ := (h.alloc ⟨last none A, first B none, value⟩).1 with hh₀
  have hframe₀ : Heap.Frame ((A ++ B).map Prod.fst) h h₀ := Heap.frame_alloc ..
  have hA₀ : Seg h₀ none A (first B none) :=
    seg_congr (fun y hy ↦ Function.update_of_ne (hneA y hy) ..) hA
  have hB₀ : Seg h₀ (last none A) B none :=
    seg_congr (fun y hy ↦ Function.update_of_ne (hneB y hy) ..) hB
  have hcell₀ : h₀.cells h.brk = some ⟨last none A, first B none, value⟩ := Function.update_self ..
  -- the left neighbour, if there is one
  obtain ⟨h₁, hset₁, hA₁, hcells₁, hbrk₁⟩ : ∃ h₁,
      setNextIf h₀ (last none A) (some h.brk) = some h₁ ∧ Seg h₁ none A (some h.brk) ∧
      (∀ a ∉ A.map Prod.fst, h₁.cells a = h₀.cells a) ∧ h₁.brk = h₀.brk := by
    obtain ⟨h₁, l₁, hset, hs, -, -, -, hframe, hbrk⟩ :=
      setNextOrHead_spec (l := { l with head := first A (first B none) }) hA₀ hndA rfl (some h.brk)
    exact ⟨h₁, setNextIf_of_setNextOrHead hset, hs, hframe, hbrk⟩
  -- the right neighbour, if there is one
  have hbrkA : h.brk ∉ A.map Prod.fst := fun hmem ↦ by
    obtain ⟨y, hy, hyb⟩ := List.mem_map.mp hmem
    exact hneA y hy hyb
  have hbrkB : h.brk ∉ B.map Prod.fst := fun hmem ↦ by
    obtain ⟨y, hy, hyb⟩ := List.mem_map.mp hmem
    exact hneB y hy hyb
  have hB₁ : Seg h₁ (last none A) B none :=
    seg_congr (fun y hy ↦ hcells₁ y.1 fun hmem ↦ hAB y.1 hmem y.1 (List.mem_map_of_mem hy) rfl) hB₀
  obtain ⟨h₂, hset₂, hB₂, hcells₂, hbrk₂⟩ : ∃ h₂,
      setPrevIf h₁ (first B none) (some h.brk) = some h₂ ∧ Seg h₂ (some h.brk) B none ∧
      (∀ a ∉ B.map Prod.fst, h₂.cells a = h₁.cells a) ∧ h₂.brk = h₁.brk := by
    obtain ⟨h₂, l₂, hset, hs, -, -, -, hframe, hbrk⟩ :=
      setPrevOrTail_spec (l := { l with tail := last (last none A) B }) hB₁ hndB rfl (some h.brk)
    exact ⟨h₂, setPrevIf_of_setPrevOrTail hset, hs, hframe, hbrk⟩
  have hcell₁ : h₁.cells h.brk = some ⟨last none A, first B none, value⟩ :=
    (hcells₁ _ hbrkA).trans hcell₀
  refine ⟨h₁, h₂, hset₁, hcell₁, hset₂, seg_append.mpr ⟨?_, ?_, hB₂⟩, ?_, fun a ha hmem ↦ ?_, ?_⟩
  · exact seg_congr (fun y hy ↦ hcells₂ y.1 fun hmem ↦
      hAB y.1 (List.mem_map_of_mem hy) y.1 hmem rfl) hA₁
  · exact (hcells₂ _ hbrkB).trans hcell₁
  · rw [hbrk₂, hbrk₁]
    rfl
  · rw [List.map_append, List.mem_append, not_or] at hmem
    rw [hcells₂ a hmem.2, hcells₁ a hmem.1]
    exact Function.update_of_ne ha.ne ..
  · rw [hbrk₂, hbrk₁]
    exact Nat.le_succ _

/-- The tail is the node itself only if it comes last. -/
theorem tail_eq_iff (hl : l.Holds h (A ++ x :: B)) : l.tail = some x.1 ↔ B = [] := by
  rw [hl.tail, last_append]
  constructor
  · intro hlast
    by_contra hB
    obtain ⟨ys, y, rfl, hy⟩ := last_eq_of_ne_nil hB (some x.1)
    rw [last, hy, Option.some.injEq] at hlast
    exact hl.nodup_middle.2 y (by simp) hlast
  · rintro rfl
    rfl

/-- The head is the node itself only if it comes first. -/
theorem head_eq_iff (hl : l.Holds h (A ++ x :: B)) : l.head = some x.1 ↔ A = [] := by
  rw [hl.head, first_append]
  constructor
  · intro hfirst
    by_contra hA
    obtain ⟨y, ys, rfl⟩ := List.exists_cons_of_ne_nil hA
    rw [first, Option.some.injEq] at hfirst
    exact hl.nodup_middle.2 y (by simp) hfirst
  · rintro rfl
    rfl

/-- `list_insert_node` behind a node. -/
theorem listInsertNode_after (hl : l.Holds h (A ++ x :: B)) (value : α) :
    ∃ h' l', LatteC.listInsertNode h l x.1 value true = some (h', l') ∧
      l'.Holds h' (A ++ x :: (h.brk, value) :: B) ∧
      Heap.Frame ((A ++ x :: B).map Prod.fst) h h' := by
  have hl' : l.Holds h ((A ++ [x]) ++ B) := by rwa [List.append_assoc]
  have hassoc : A ++ x :: (h.brk, value) :: B = (A ++ [x]) ++ (h.brk, value) :: B := by
    rw [List.append_assoc]
    rfl
  obtain ⟨h₁, h₂, hset₁, hcell₁, hset₂, hseg, hbrk, hframe⟩ := hl'.link_between value
  have hlast : last none (A ++ [x]) = some x.1 := last_append ..
  rw [hlast] at hset₁ hcell₁
  have hcell₀ : (h.alloc ⟨some x.1, first B none, value⟩).1.cells h.brk =
    some ⟨some x.1, first B none, value⟩ := Function.update_self ..
  set l₁ : LList := if l.tail = some x.1 then { l with tail := some h.brk } else l with hl₁
  refine ⟨h₂, { l₁ with len := l₁.len + 1 }, ?_, hassoc ▸ ⟨hseg, ?_, ?_, ?_,
    hl'.nodup_insert value, fun y hy ↦ hbrk ▸ hl'.lt_brk_insert value y hy⟩, ?_⟩
  · rw [LatteC.listInsertNode, hl.cells]
    simp only [Option.bind_eq_bind, Option.bind_some, if_true]
    rw [show (h.alloc ⟨some x.1, first B none, value⟩).2 = h.brk from rfl, hcell₀]
    simp only [Option.bind_some]
    rw [hset₁]
    simp only [Option.bind_some, hcell₁]
    rw [hset₂]
    rfl
  · have hhead : l₁.head = l.head := by rw [hl₁]; split_ifs <;> rfl
    rw [hhead, hl'.head]
    cases A <;> rfl
  · rw [last_append, hl₁]
    by_cases hB : B = []
    · rw [if_pos (hl.tail_eq_iff.mpr hB), hB]
      rfl
    · rw [if_neg (mt hl.tail_eq_iff.mp hB), hl'.tail, last_append]
      obtain ⟨ys, y, rfl, hy⟩ := last_eq_of_ne_nil hB (some h.brk)
      rw [last, hy, last_append]
      rfl
  · have hlen : l₁.len = l.len := by rw [hl₁]; split_ifs <;> rfl
    simp only [hlen, hl'.len, List.length_append, List.length_cons]
    omega
  · rwa [List.append_assoc] at hframe

/-- `list_insert_node` in front of a node. -/
theorem listInsertNode_before (hl : l.Holds h (A ++ x :: B)) (value : α) :
    ∃ h' l', LatteC.listInsertNode h l x.1 value false = some (h', l') ∧
      l'.Holds h' (A ++ (h.brk, value) :: x :: B) ∧
      Heap.Frame ((A ++ x :: B).map Prod.fst) h h' := by
  obtain ⟨h₁, h₂, hset₁, hcell₁, hset₂, hseg, hbrk, hframe⟩ := hl.link_between value
  have hcell₀ : (h.alloc ⟨last none A, some x.1, value⟩).1.cells h.brk =
    some ⟨last none A, some x.1, value⟩ := Function.update_self ..
  set l₁ : LList := if l.head = some x.1 then { l with head := some h.brk } else l with hl₁
  refine ⟨h₂, { l₁ with len := l₁.len + 1 }, ?_, ⟨hseg, ?_, ?_, ?_,
    hl.nodup_insert value, fun y hy ↦ hbrk ▸ hl.lt_brk_insert value y hy⟩, hframe⟩
  · rw [LatteC.listInsertNode, hl.cells]
    simp only [Option.bind_eq_bind, Option.bind_some, Bool.false_eq_true, if_false]
    rw [show (h.alloc ⟨last none A, some x.1, value⟩).2 = h.brk from rfl, hcell₀]
    simp only [Option.bind_some]
    rw [show first (x :: B) none = some x.1 from rfl] at hset₁ hcell₁ hset₂
    rw [hset₁]
    simp only [Option.bind_some, hcell₁]
    rw [hset₂]
    rfl
  · rw [hl₁, first_append]
    by_cases hA : A = []
    · rw [if_pos (hl.head_eq_iff.mpr hA), hA]
      rfl
    · rw [if_neg (mt hl.head_eq_iff.mp hA), hl.head, first_append]
      obtain ⟨y, ys, rfl⟩ := List.exists_cons_of_ne_nil hA
      rfl
  · have htail : l₁.tail = l.tail := by rw [hl₁]; split_ifs <;> rfl
    rw [htail, hl.tail, last_append, last_append]
    rfl
  · have hlen : l₁.len = l.len := by rw [hl₁]; split_ifs <;> rfl
    simp only [hlen, hl.len, List.length_append, List.length_cons]
    omega

/-! ## Taking nodes out -/

theorem listRemove (hl : l.Holds h (A ++ x :: B)) :
    ∃ h' l', LatteC.listRemove h l (some x.1) = some (h', l', some x.2) ∧ l'.Holds h' (A ++ B) ∧
      Heap.Frame ((A ++ x :: B).map Prod.fst) h h' := by
  obtain ⟨h', l', hdel, hl', hframe⟩ := hl.listDelNode
  refine ⟨h', l', ?_, hl', hframe⟩
  rw [LatteC.listRemove, hl.cells]
  simp only [Option.bind_eq_bind, Option.bind_some]
  rw [hdel]
  rfl

/-- `list_lpop` takes the first value. -/
theorem listLpop (hl : l.Holds h xs) :
    ∃ h' l', LatteC.listLpop h l = some (h', l', xs.head?.map Prod.snd) ∧ l'.Holds h' xs.tail ∧
      Heap.Frame (xs.map Prod.fst) h h' := by
  cases xs with
  | nil =>
    refine ⟨h, l, ?_, hl, Heap.Frame.refl _ h⟩
    rw [LatteC.listLpop, hl.head]
    rfl
  | cons x xs =>
    have hx : l.Holds h ([] ++ x :: xs) := hl
    obtain ⟨h', l', hrem, hl', hframe⟩ := hx.listRemove
    refine ⟨h', l', ?_, hl', hframe⟩
    rw [LatteC.listLpop, hl.head]
    exact hrem

/-- `list_rpop` takes the last value. -/
theorem listRpop (hl : l.Holds h xs) :
    ∃ h' l', LatteC.listRpop h l = some (h', l', xs.getLast?.map Prod.snd) ∧
      l'.Holds h' xs.dropLast ∧ Heap.Frame (xs.map Prod.fst) h h' := by
  by_cases hxs : xs = []
  · subst hxs
    refine ⟨h, l, ?_, hl, Heap.Frame.refl _ h⟩
    rw [LatteC.listRpop, hl.tail]
    rfl
  · obtain ⟨ys, y, rfl, hlast⟩ := last_eq_of_ne_nil hxs none
    obtain ⟨h', l', hrem, hl', hframe⟩ := hl.listRemove
    rw [List.append_nil] at hl'
    refine ⟨h', l', ?_, by rwa [List.dropLast_concat], hframe⟩
    rw [LatteC.listRpop, hl.tail, hlast, hrem, List.getLast?_concat]
    rfl

/-- The loop of `list_for_each_delete` has passed `A` and comes to `B`. -/
theorem listForEachDeleteLoop (p : α → Bool) {S : List ℕ} :
    ∀ (B : List (ℕ × α)) (A : List (ℕ × α)) (h : Heap α) (l : LList) (fuel deleted : ℕ),
      l.Holds h (A ++ B) → (A ++ B).map Prod.fst ⊆ S → B.length ≤ fuel →
      ∃ h' l', LatteC.listForEachDeleteLoop p fuel h l (first B none) deleted =
          some (h', l', deleted + B.countP fun x ↦ p x.2) ∧
        l'.Holds h' (A ++ B.filter fun x ↦ !p x.2) ∧ Heap.Frame S h h' := by
  intro B
  induction B with
  | nil =>
    intro A h l fuel deleted hl _ _
    refine ⟨h, l, ?_, hl, Heap.Frame.refl S h⟩
    cases fuel <;> rfl
  | cons x B ih =>
    intro A h l fuel deleted hl hS hfuel
    rw [List.length_cons] at hfuel
    obtain ⟨fuel, rfl⟩ : ∃ f, fuel = f + 1 := ⟨fuel - 1, by omega⟩
    have hlen : B.length ≤ fuel := Nat.le_of_succ_le_succ hfuel
    rw [first, LatteC.listForEachDeleteLoop, hl.cells]
    simp only [Option.bind_eq_bind, Option.bind_some]
    by_cases hp : p x.2 = true
    · -- the node goes; the pointer to the next one was read before
      obtain ⟨h₁, l₁, hdel, hl₁, hframe⟩ := hl.listDelNode
      have hsub : (A ++ B).map Prod.fst ⊆ (A ++ x :: B).map Prod.fst :=
        List.map_subset _ fun y hy ↦ by
          rw [List.mem_append] at hy ⊢
          exact hy.imp_right (List.mem_cons_of_mem _)
      obtain ⟨h₂, l₂, hloop, hl₂, hframe₂⟩ :=
        ih A h₁ l₁ fuel (deleted + 1) hl₁ (List.Subset.trans hsub hS) hlen
      refine ⟨h₂, l₂, ?_, ?_, (hframe.mono hS).trans hframe₂⟩
      · rw [if_pos hp, hdel]
        simp only [Option.bind_some]
        rw [hloop, List.countP_cons, if_pos hp, Nat.add_right_comm, Nat.add_assoc]
      · rwa [List.filter_cons_of_neg (by simp [hp])]
    · have hassoc : A ++ x :: B = (A ++ [x]) ++ B := by rw [List.append_assoc]; rfl
      rw [hassoc] at hl hS
      obtain ⟨h₂, l₂, hloop, hl₂, hframe₂⟩ :=
        ih (A ++ [x]) h l fuel deleted hl hS hlen
      refine ⟨h₂, l₂, ?_, ?_, hframe₂⟩
      · rw [if_neg hp, hloop, List.countP_cons, if_neg hp, Nat.add_zero]
      · rw [List.filter_cons_of_pos (by simp [hp])]
        rwa [List.append_assoc] at hl₂

/-- `list_for_each_delete` keeps the nodes that need not be deleted. -/
theorem listForEachDelete (hl : l.Holds h xs) (p : α → Bool) :
    ∃ h' l', LatteC.listForEachDelete h l p = some (h', l', xs.countP fun x ↦ p x.2) ∧
      l'.Holds h' (xs.filter fun x ↦ !p x.2) ∧ Heap.Frame (xs.map Prod.fst) h h' := by
  obtain ⟨h', l', hloop, hl', hframe⟩ :=
    listForEachDeleteLoop p xs [] h l l.len 0 hl (List.Subset.refl _) hl.len.ge
  refine ⟨h', l', ?_, hl', hframe⟩
  rw [LatteC.listForEachDelete, hl.head, hloop, Nat.zero_add]

/-! ## Rotating and joining -/

/-- A list that is not rotated: it has at most one node. -/
theorem length_le_one (hl : l.Holds h xs) (hlen : l.len ≤ 1) : xs = [] ∨ ∃ x, xs = [x] := by
  rw [hl.len] at hlen
  match xs, hlen with
  | [], _ => exact Or.inl rfl
  | [x], _ => exact Or.inr ⟨x, rfl⟩

/-- `list_rotate_tail_to_head`. -/
theorem listRotateTailToHead (hl : l.Holds h xs) :
    ∃ h' l', LatteC.listRotateTailToHead h l = some (h', l') ∧
      l'.Holds h' (xs.getLast?.toList ++ xs.dropLast) ∧ Heap.Frame (xs.map Prod.fst) h h' := by
  rw [LatteC.listRotateTailToHead]
  split_ifs with hlen
  · refine ⟨h, l, rfl, ?_, Heap.Frame.refl _ h⟩
    rcases hl.length_le_one hlen with rfl | ⟨x, rfl⟩
    · exact hl
    · exact hl
  · -- the tail is `y`, the node before it `z`, the head `w`
    have hxs : xs ≠ [] := by
      rintro rfl
      exact hlen (hl.len.trans_le (Nat.zero_le 1))
    obtain ⟨ys, y, rfl, hlast⟩ := last_eq_of_ne_nil hxs none
    have hys : ys ≠ [] := by
      rintro rfl
      exact hlen hl.len.le
    obtain ⟨zs, z, hzs, hlast'⟩ := last_eq_of_ne_nil hys none
    obtain ⟨w, ws, hws⟩ := List.exists_cons_of_ne_nil hys
    obtain ⟨hseg, hcell, -⟩ := seg_append.mp hl.seg
    obtain ⟨hnd, hne⟩ := hl.nodup_middle
    rw [List.append_nil] at hnd hne
    have hz : z.1 ∉ zs.map Prod.fst := by
      rw [hzs, List.map_append, List.nodup_append] at hnd
      exact fun hmem ↦ hnd.2.2 z.1 hmem z.1 (by simp) rfl
    have hw : w.1 ∉ ws.map Prod.fst := by
      rw [hws, List.map_cons, List.nodup_cons] at hnd
      exact hnd.1
    have hzmem : z ∈ ys := by rw [hzs]; simp
    have hwmem : w ∈ ys := by rw [hws]; simp
    rw [hzs] at hseg
    obtain ⟨h₁, hmod₁, hseg₁, hcells₁, hbrk₁⟩ := setNext_last hseg hz none
    rw [← hzs, hws] at hseg₁
    obtain ⟨h₂, hmod₂, hseg₂, hcells₂, hbrk₂⟩ := setPrev_first hseg₁ hw (some y.1)
    have hcell₂ : h₂.cells y.1 = some ⟨some z.1, none, y.2⟩ := by
      rw [hcells₂ y.1 (hne w hwmem).symm, hcells₁ y.1 (hne z hzmem).symm, hcell, hlast']
      rfl
    have hmod₃ := Heap.modify_of_cells hcell₂ fun c ↦ { c with prev := none, next := some w.1 }
    have hhead : l.head = some w.1 := by rw [hl.head, hws]; rfl
    have htail : l.tail = some y.1 := hl.tail.trans hlast
    rw [List.getLast?_concat, List.dropLast_concat, Option.toList_some, List.singleton_append]
    set h₃ : Heap α := { h₂ with
      cells := Function.update h₂.cells y.1 (some ⟨none, some w.1, y.2⟩) } with hh₃
    have hcell₃ : h₃.cells y.1 = some ⟨none, first ys none, y.2⟩ := by
      rw [hws]
      exact Function.update_self ..
    refine ⟨h₃, { l with head := some y.1, tail := some z.1 }, ?_,
      ⟨⟨hcell₃, ?_⟩, rfl, ?_, ?_, ?_, ?_⟩, ?_⟩
    · rw [htail]
      simp only [Option.bind_eq_bind, Option.bind_some]
      rw [hcell, hlast']
      simp only [Option.bind_some]
      rw [hmod₁]
      simp only [Option.bind_some, hhead]
      rw [hmod₂]
      simp only [Option.bind_some]
      rw [hmod₃]
      rfl
    · rw [hws]
      exact seg_congr (fun u hu ↦ Function.update_of_ne (hne u (hws ▸ hu)) ..) hseg₂
    · rw [hzs, last, last_append]
      rfl
    · simp only [hl.len, List.length_append, List.length_cons, List.length_nil]
    · rw [List.map_cons, List.nodup_cons]
      refine ⟨fun hmem ↦ ?_, hnd⟩
      obtain ⟨u, hu, huy⟩ := List.mem_map.mp hmem
      exact hne u hu huy
    · intro u hu
      rw [List.mem_cons] at hu
      refine (hl.lt_brk u ?_).trans_eq (hbrk₂.trans hbrk₁).symm
      rw [List.mem_append, List.mem_singleton]
      exact hu.symm
    · have hmem : ∀ u ∈ ys, u.1 ∈ (ys ++ [y]).map Prod.fst := fun u hu ↦
        List.mem_map_of_mem (List.mem_append_left _ hu)
      exact .trans (Heap.frame_modify hmod₁ (hmem z hzmem))
        (.trans (Heap.frame_modify hmod₂ (hmem w hwmem)) (Heap.frame_modify hmod₃ (by simp)))

/-- `list_rotate_head_to_tail`. -/
theorem listRotateHeadToTail (hl : l.Holds h xs) :
    ∃ h' l', LatteC.listRotateHeadToTail h l = some (h', l') ∧
      l'.Holds h' (xs.tail ++ xs.head?.toList) ∧ Heap.Frame (xs.map Prod.fst) h h' := by
  rw [LatteC.listRotateHeadToTail]
  split_ifs with hlen
  · refine ⟨h, l, rfl, ?_, Heap.Frame.refl _ h⟩
    rcases hl.length_le_one hlen with rfl | ⟨x, rfl⟩
    · exact hl
    · exact hl
  · -- the head is `x`, the node behind it `w`, the tail `z`
    obtain ⟨x, ys, rfl⟩ : ∃ x ys, xs = x :: ys := by
      refine List.exists_cons_of_ne_nil ?_
      rintro rfl
      exact hlen (hl.len.trans_le (Nat.zero_le 1))
    have hys : ys ≠ [] := by
      rintro rfl
      exact hlen hl.len.le
    obtain ⟨zs, z, hzs, hlast⟩ := last_eq_of_ne_nil hys (some x.1)
    obtain ⟨w, ws, hws⟩ := List.exists_cons_of_ne_nil hys
    obtain ⟨hcell, hseg⟩ := hl.seg
    have hx : l.Holds h ([] ++ x :: ys) := hl
    obtain ⟨hnd, hne⟩ := hx.nodup_middle
    rw [List.nil_append] at hnd hne
    have hz : z.1 ∉ zs.map Prod.fst := by
      rw [hzs, List.map_append, List.nodup_append] at hnd
      exact fun hmem ↦ hnd.2.2 z.1 hmem z.1 (by simp) rfl
    have hw : w.1 ∉ ws.map Prod.fst := by
      rw [hws, List.map_cons, List.nodup_cons] at hnd
      exact hnd.1
    have hzmem : z ∈ ys := by rw [hzs]; simp
    have hwmem : w ∈ ys := by rw [hws]; simp
    have hfirst : first ys none = some w.1 := by rw [hws]; rfl
    rw [hws] at hseg
    obtain ⟨h₁, hmod₁, hseg₁, hcells₁, hbrk₁⟩ := setPrev_first hseg hw none
    rw [← hws, hzs] at hseg₁
    obtain ⟨h₂, hmod₂, hseg₂, hcells₂, hbrk₂⟩ := setNext_last hseg₁ hz (some x.1)
    have hcell₂ : h₂.cells x.1 = some ⟨none, some w.1, x.2⟩ := by
      rw [hcells₂ x.1 (hne z hzmem).symm, hcells₁ x.1 (hne w hwmem).symm, hcell, hfirst]
    have hmod₃ := Heap.modify_of_cells hcell₂ fun c ↦ { c with next := none, prev := some z.1 }
    have hhead : l.head = some x.1 := hl.head
    have htail : l.tail = some z.1 := hl.tail.trans hlast
    have hlast' : last none ys = some z.1 := by rw [hzs, last_append]; rfl
    rw [List.tail_cons, List.head?_cons, Option.toList_some]
    set h₃ : Heap α := { h₂ with
      cells := Function.update h₂.cells x.1 (some ⟨some z.1, none, x.2⟩) } with hh₃
    have hcell₃ : h₃.cells x.1 = some ⟨last none ys, none, x.2⟩ := by
      rw [hlast']
      exact Function.update_self ..
    refine ⟨h₃, { l with head := some w.1, tail := some x.1 }, ?_,
      ⟨seg_append.mpr ⟨?_, hcell₃, trivial⟩, ?_, ?_, ?_, ?_, ?_⟩, ?_⟩
    · rw [hhead]
      simp only [Option.bind_eq_bind, Option.bind_some]
      rw [hcell, hfirst]
      simp only [Option.bind_some]
      rw [hmod₁]
      simp only [Option.bind_some, htail]
      rw [hmod₂]
      simp only [Option.bind_some]
      rw [hmod₃]
      rfl
    · rw [hzs] at hne ⊢
      exact seg_congr (fun u hu ↦ Function.update_of_ne (hne u hu) ..) hseg₂
    · rw [first_append, hws]
      rfl
    · rw [last_append]
      rfl
    · simp only [hl.len, List.length_append, List.length_cons, List.length_nil]
    · rw [List.map_append, List.map_singleton, ← List.concat_eq_append, List.nodup_concat]
      refine ⟨fun hmem ↦ ?_, hnd⟩
      obtain ⟨u, hu, hux⟩ := List.mem_map.mp hmem
      exact hne u hu hux
    · intro u hu
      rw [List.mem_append, List.mem_singleton] at hu
      refine (hl.lt_brk u ?_).trans_eq (hbrk₂.trans hbrk₁).symm
      rw [List.mem_cons]
      exact hu.symm
    · have hmem : ∀ u ∈ ys, u.1 ∈ (x :: ys).map Prod.fst := fun u hu ↦
        List.mem_map_of_mem (List.mem_cons_of_mem _ hu)
      exact .trans (Heap.frame_modify hmod₁ (hmem w hwmem))
        (.trans (Heap.frame_modify hmod₂ (hmem z hzmem)) (Heap.frame_modify hmod₃ (by simp)))

/-- The second list of a join is empty afterwards, also if it is the first one. -/
theorem listJoin_snd {o o' l' : LList} {ys : List (ℕ × α)} {h' : Heap α} (ho : o.Holds h ys)
    (hjoin : LatteC.listJoin h l o = some (h', l', o')) : o'.Holds h' [] := by
  rw [LatteC.listJoin] at hjoin
  split_ifs at hjoin with hlen
  · simp only [Option.some.injEq, Prod.mk.injEq] at hjoin
    obtain ⟨rfl, -, rfl⟩ := hjoin
    have hys : ys = [] := List.length_eq_zero_iff.mp (ho.len.symm.trans hlen)
    exact hys ▸ ho
  · simp only [Option.bind_eq_bind, Option.bind_eq_some_iff, Option.pure_def, Option.some.injEq,
      Prod.mk.injEq] at hjoin
    obtain ⟨_, -, _, -, _, -, -, -, rfl⟩ := hjoin
    exact holds_listNew h'

/-- `list_join` of two lists with different nodes. -/
theorem listJoin {o : LList} {ys : List (ℕ × α)} (hl : l.Holds h xs) (ho : o.Holds h ys)
    (hdisj : ∀ x ∈ xs, ∀ y ∈ ys, x.1 ≠ y.1) :
    ∃ h' l' o', LatteC.listJoin h l o = some (h', l', o') ∧ l'.Holds h' (xs ++ ys) ∧
      Heap.Frame ((xs ++ ys).map Prod.fst) h h' := by
  rw [LatteC.listJoin]
  split_ifs with hlen
  · have hys : ys = [] := List.length_eq_zero_iff.mp (ho.len.symm.trans hlen)
    subst hys
    exact ⟨h, l, o, rfl, (List.append_nil xs).symm ▸ hl, Heap.Frame.refl _ h⟩
  · obtain ⟨y, ys, rfl⟩ : ∃ y zs, ys = y :: zs := by
      refine List.exists_cons_of_ne_nil ?_
      rintro rfl
      exact hlen ho.len
    have hy : y.1 ∉ ys.map Prod.fst := by
      have hnd := ho.nodup
      rw [List.map_cons, List.nodup_cons] at hnd
      exact hnd.1
    obtain ⟨h₁, hmod₁, hseg₁, hcells₁, hbrk₁⟩ := setPrev_first ho.seg hy l.tail
    have hxs₁ : Seg h₁ none xs none :=
      seg_congr (fun x hx ↦ hcells₁ x.1 (hdisj x hx y (by simp))) hl.seg
    obtain ⟨h₂, l₂, hset, hxs₂, hhead₂, -, hlen₂, hcells₂, hbrk₂⟩ :=
      setNextOrHead_spec hxs₁ hl.nodup hl.head (some y.1)
    have hhead : o.head = some y.1 := ho.head
    refine ⟨h₂, { l₂ with tail := o.tail, len := l₂.len + o.len }, ⟨none, none, 0⟩, ?_,
      ⟨seg_append.mpr ⟨hxs₂, ?_⟩, ?_, ?_, ?_, ?_, ?_⟩, fun a ha hmem ↦ ?_, ?_⟩
    · rw [hhead]
      simp only [Option.bind_eq_bind, Option.bind_some]
      rw [hmod₁]
      simp only [Option.bind_some]
      rw [hl.tail, hset]
      rfl
    · rw [← hl.tail]
      refine seg_congr (fun z hz ↦ hcells₂ z.1 fun hmem ↦ ?_) hseg₁
      obtain ⟨x, hx, hxz⟩ := List.mem_map.mp hmem
      exact hdisj x hx z hz hxz
    · rw [first_append]
      exact hhead₂
    · rw [last_append]
      exact ho.tail
    · simp only [hlen₂, hl.len, ho.len, List.length_append]
    · rw [List.map_append, List.nodup_append]
      refine ⟨hl.nodup, ho.nodup, ?_⟩
      intro a ha b hb hab
      obtain ⟨x, hx, rfl⟩ := List.mem_map.mp ha
      obtain ⟨z, hz, rfl⟩ := List.mem_map.mp hb
      exact hdisj x hx z hz hab
    · intro z hz
      rw [hbrk₂, hbrk₁]
      rcases List.mem_append.mp hz with hz | hz
      · exact hl.lt_brk z hz
      · exact ho.lt_brk z hz
    · rw [List.map_append, List.mem_append, not_or] at hmem
      rw [hcells₂ a hmem.1, hcells₁ a]
      rintro rfl
      exact hmem.2 (by simp)
    · exact (hbrk₂.trans hbrk₁).ge

/-- `list_join` of a list with itself goes through, and the nodes are lost. -/
theorem listJoin_self (hl : l.Holds h xs) :
    ∃ h' l' o', LatteC.listJoin h l l = some (h', l', o') ∧ Heap.Frame (xs.map Prod.fst) h h' := by
  rw [LatteC.listJoin]
  split_ifs with hlen
  · exact ⟨h, l, l, rfl, Heap.Frame.refl _ h⟩
  · have hxs : xs ≠ [] := by
      rintro rfl
      exact hlen hl.len
    obtain ⟨y, ys, rfl⟩ := List.exists_cons_of_ne_nil hxs
    obtain ⟨zs, z, hzs, hlast⟩ := last_eq_of_ne_nil hxs none
    have hy : y.1 ∉ ys.map Prod.fst := by
      have hnd := hl.nodup
      rw [List.map_cons, List.nodup_cons] at hnd
      exact hnd.1
    have hz : z.1 ∉ zs.map Prod.fst := by
      have hnd := hl.nodup
      rw [hzs, List.map_append, List.nodup_append] at hnd
      exact fun hmem ↦ hnd.2.2 z.1 hmem z.1 (by simp) rfl
    obtain ⟨h₁, hmod₁, hseg₁, -, -⟩ := setPrev_first hl.seg hy l.tail
    rw [hzs] at hseg₁
    obtain ⟨h₂, hmod₂, -, -, -⟩ := setNext_last hseg₁ hz l.head
    have hhead : l.head = some y.1 := hl.head
    have hzmem : z.1 ∈ (y :: ys).map Prod.fst := by rw [hzs]; simp
    refine ⟨h₂, { l with len := l.len + l.len }, ⟨none, none, 0⟩, ?_,
      (Heap.frame_modify hmod₁ (by simp)).trans (Heap.frame_modify hmod₂ hzmem)⟩
    rw [hhead]
    simp only [Option.bind_eq_bind, Option.bind_some]
    rw [hmod₁]
    simp only [Option.bind_some]
    rw [hl.tail, hlast, setNextOrHead, ← hhead, hmod₂]
    rfl

end LList.Holds

end LatteC
