import LatteC.Foundation.DoublyLinked

/-!
# The linked list

`src/list/list.c`: a doubly linked list with a length. The nodes of all lists live in one heap; a
list is the record of its head, its tail and its length. `LList.Holds` says which nodes a list has
and in which order; each operation is then one lemma about that sequence.

The functions follow the source assignment by assignment. A NULL or dangling pointer that the source
would dereference is a fault, `none`. Not modelled: the `dup`, `free` and `match` callbacks, which
are NULL on a list that comes from `list_new`.
-/

namespace LatteC

open DoublyLinked

variable {α : Type}

/-- `list_t`. -/
structure LList where
  head : Option ℕ
  tail : Option ℕ
  len : ℕ

/-- `list_new`. -/
def listNew : LList := ⟨none, none, 0⟩

/-- `list_add_node_head`. -/
def listAddNodeHead (h : Heap α) (l : LList) (value : α) : Option (Heap α × LList) :=
  if l.len = 0 then
    let (h, node) := h.alloc ⟨none, none, value⟩
    some (h, ⟨some node, some node, l.len + 1⟩)
  else
    let (h, node) := h.alloc ⟨none, l.head, value⟩
    l.head.bind fun hd ↦
      (h.modify hd fun c ↦ { c with prev := some node }).map fun h ↦
        (h, { l with head := some node, len := l.len + 1 })

/-- `if (p) p->next = n; else list->head = n;` -/
def setNextOrHead (h : Heap α) (l : LList) (p n : Option ℕ) : Option (Heap α × LList) :=
  match p with
  | some p => (h.modify p fun c ↦ { c with next := n }).map fun h ↦ (h, l)
  | none => some (h, { l with head := n })

/-- `if (n) n->prev = p; else list->tail = p;` -/
def setPrevOrTail (h : Heap α) (l : LList) (n p : Option ℕ) : Option (Heap α × LList) :=
  match n with
  | some n => (h.modify n fun c ↦ { c with prev := p }).map fun h ↦ (h, l)
  | none => some (h, { l with tail := p })

/-- `list_del_node`. -/
def listDelNode (h : Heap α) (l : LList) (node : ℕ) : Option (Heap α × LList) := do
  let c ← h.cells node
  let (h, l) ← setNextOrHead h l c.prev c.next
  let c ← h.cells node
  let (h, l) ← setPrevOrTail h l c.next c.prev
  let h ← h.free node
  return (h, { l with len := l.len - 1 })

/-- `list_move_head`. -/
def listMoveHead (h : Heap α) (l : LList) (node : ℕ) : Option (Heap α × LList) := do
  let c ← h.cells node
  match c.prev with
  | none => return (h, l)
  | some p =>
    let h ← h.modify p fun d ↦ { d with next := c.next }
    let c ← h.cells node
    let (h, l) ← setPrevOrTail h l c.next c.prev
    let h ← h.modify node fun d ↦ { d with prev := none, next := l.head }
    match l.head with
    | none => return (h, { l with head := some node })
    | some hd =>
      let h ← h.modify hd fun d ↦ { d with prev := some node }
      return (h, { l with head := some node })

/-! ## Iterating -/

/-- The `direction` of a `list_iterator_t`. -/
inductive ListDirection where
  | startHead
  | startTail

/-- `list_iterator_t`. -/
structure ListIterator where
  next : Option ℕ
  direction : ListDirection

/-- `latte_list_iterator_t`. -/
structure LatteListIterator where
  data : ListIterator
  next : Option ℕ

/-- `list_get_iterator`. -/
def listGetIterator (l : LList) : ListDirection → ListIterator
  | .startHead => ⟨l.head, .startHead⟩
  | .startTail => ⟨l.tail, .startTail⟩

/-- `list_next`. -/
def listNext (h : Heap α) (it : ListIterator) : Option (ListIterator × Option ℕ) :=
  match it.next with
  | none => some (it, none)
  | some current =>
    (h.cells current).map fun c ↦
      match it.direction with
      | .startHead => ({ it with next := c.next }, some current)
      | .startTail => ({ it with next := c.prev }, some current)

/-- `protected_latte_list_iterator_has_next`. -/
def latteListIteratorHasNext (h : Heap α) (it : LatteListIterator) :
    Option (LatteListIterator × Bool) :=
  (listNext h it.data).map fun r ↦
    match r with
    | (data, none) => ({ it with data := data }, false)
    | (data, some node) => (⟨data, some node⟩, true)

/-- `protected_latte_list_iterator_next`. -/
def latteListIteratorNext (h : Heap α) (it : LatteListIterator) :
    Option (LatteListIterator × α) :=
  it.next.bind fun node ↦ (h.cells node).map fun c ↦ ({ it with next := none }, c.value)

/-- `list_get_latte_iterator`, without the option to delete the list. -/
def listGetLatteIterator (l : LList) (direction : ListDirection) : LatteListIterator :=
  ⟨listGetIterator l direction, none⟩

/-- The loop `while (has_next(it)) ... next(it)`, with the number of rounds it may take. -/
def latteListIteratorDrain (h : Heap α) : (fuel : ℕ) → LatteListIterator → Option (List α)
  | 0, _ => none
  | fuel + 1, it =>
    (latteListIteratorHasNext h it).bind fun r ↦
      match r with
      | (_, false) => some []
      | (it, true) =>
        (latteListIteratorNext h it).bind fun r ↦
          (latteListIteratorDrain h fuel r.1).map (r.2 :: ·)

/-! ## Which nodes a list has -/

/-- The list consists of the nodes `xs`, in this order. -/
structure LList.Holds (h : Heap α) (l : LList) (xs : List (ℕ × α)) : Prop where
  seg : Seg h none xs none
  head : l.head = first xs none
  tail : l.tail = last none xs
  len : l.len = xs.length
  nodup : (xs.map Prod.fst).Nodup
  lt_brk : ∀ x ∈ xs, x.1 < h.brk

theorem holds_listNew (h : Heap α) : listNew.Holds h [] :=
  ⟨trivial, rfl, rfl, rfl, List.nodup_nil, by simp⟩

namespace LList.Holds

variable {h : Heap α} {l : LList} {xs A B : List (ℕ × α)} {x : ℕ × α}

theorem cells (hl : l.Holds h (A ++ x :: B)) :
    h.cells x.1 = some ⟨last none A, first B none, x.2⟩ :=
  (seg_append.mp hl.seg).2.1

/-- The addresses around a node all differ from each other. -/
theorem nodup_middle (hl : l.Holds h (A ++ x :: B)) :
    ((A ++ B).map Prod.fst).Nodup ∧ ∀ y ∈ A ++ B, y.1 ≠ x.1 := by
  have hnd := hl.nodup
  rw [List.map_append, List.map_cons, List.nodup_middle, List.nodup_cons, ← List.map_append] at hnd
  refine ⟨hnd.2, fun y hy hyx ↦ hnd.1 ?_⟩
  rw [← hyx]
  exact List.mem_map_of_mem hy

end LList.Holds

/-! ## Redirecting the pointers around a node -/

/-- Whatever the left neighbours are, they now end in `n'`. -/
theorem setNextOrHead_spec {h : Heap α} {l : LList} {A : List (ℕ × α)} {n : Option ℕ}
    (hs : Seg h none A n) (hnd : (A.map Prod.fst).Nodup) (hhead : l.head = first A n)
    (n' : Option ℕ) :
    ∃ h' l', setNextOrHead h l (last none A) n' = some (h', l') ∧ Seg h' none A n' ∧
      l'.head = first A n' ∧ l'.tail = l.tail ∧ l'.len = l.len ∧
      (∀ a ∉ A.map Prod.fst, h'.cells a = h.cells a) ∧ h'.brk = h.brk := by
  by_cases hA : A = []
  · subst hA
    exact ⟨h, { l with head := n' }, rfl, trivial, rfl, rfl, rfl, fun a _ ↦ rfl, rfl⟩
  · obtain ⟨ys, y, rfl, hlast⟩ := last_eq_of_ne_nil hA none
    have hy : y.1 ∉ ys.map Prod.fst := by
      rw [List.map_append, List.nodup_append] at hnd
      exact fun hmem ↦ hnd.2.2 y.1 hmem y.1 (by simp) rfl
    obtain ⟨h', hmod, hs', hframe, hbrk⟩ := setNext_last hs hy n'
    refine ⟨h', l, by rw [hlast, setNextOrHead, hmod, Option.map_some], hs', ?_, rfl, rfl,
      fun a ha ↦ hframe a ?_, hbrk⟩
    · rw [hhead, first_append, first_append]
      cases ys <;> rfl
    · rintro rfl
      exact ha (by simp)

/-- Whatever the right neighbours are, they now start from `p'`. -/
theorem setPrevOrTail_spec {h : Heap α} {l : LList} {B : List (ℕ × α)} {p : Option ℕ}
    (hs : Seg h p B none) (hnd : (B.map Prod.fst).Nodup) (htail : l.tail = last p B)
    (p' : Option ℕ) :
    ∃ h' l', setPrevOrTail h l (first B none) p' = some (h', l') ∧ Seg h' p' B none ∧
      l'.tail = last p' B ∧ l'.head = l.head ∧ l'.len = l.len ∧
      (∀ a ∉ B.map Prod.fst, h'.cells a = h.cells a) ∧ h'.brk = h.brk := by
  cases B with
  | nil => exact ⟨h, { l with tail := p' }, rfl, trivial, rfl, rfl, rfl, fun a _ ↦ rfl, rfl⟩
  | cons x xs =>
    rw [List.map_cons, List.nodup_cons] at hnd
    obtain ⟨h', hmod, hs', hframe, hbrk⟩ := setPrev_first hs hnd.1 p'
    refine ⟨h', l, by rw [first, setPrevOrTail, hmod, Option.map_some], hs', htail, rfl, rfl,
      fun a ha ↦ hframe a ?_, hbrk⟩
    rintro rfl
    exact ha (by simp)

/-! ## The operations -/

namespace LList.Holds

variable {h : Heap α} {l : LList} {xs A B : List (ℕ × α)} {x : ℕ × α}

/-- Joining up the neighbours of a node: the two writes that deletion and moving share. -/
theorem unlink (hl : l.Holds h (A ++ x :: B)) :
    ∃ h₁ l₁ h₂ l₂,
      setNextOrHead h l (last none A) (first B none) = some (h₁, l₁) ∧
      h₁.cells x.1 = some ⟨last none A, first B none, x.2⟩ ∧
      setPrevOrTail h₁ l₁ (first B none) (last none A) = some (h₂, l₂) ∧
      h₂.cells x.1 = some ⟨last none A, first B none, x.2⟩ ∧
      Seg h₂ none (A ++ B) none ∧ l₂.head = first (A ++ B) none ∧ l₂.tail = last none (A ++ B) ∧
      l₂.len = l.len ∧ h₂.brk = h.brk ∧
      ∀ a ∉ (A ++ B).map Prod.fst, h₂.cells a = h.cells a := by
  obtain ⟨hA, hcell, hB⟩ := seg_append.mp hl.seg
  obtain ⟨hnd, hne⟩ := hl.nodup_middle
  rw [List.map_append, List.nodup_append] at hnd
  have hxA : x.1 ∉ A.map Prod.fst := by
    intro hmem
    obtain ⟨y, hy, hyx⟩ := List.mem_map.mp hmem
    exact hne y (List.mem_append_left _ hy) hyx
  have hxB : x.1 ∉ B.map Prod.fst := by
    intro hmem
    obtain ⟨y, hy, hyx⟩ := List.mem_map.mp hmem
    exact hne y (List.mem_append_right _ hy) hyx
  have hdisj : ∀ a ∈ A.map Prod.fst, a ∉ B.map Prod.fst := fun a ha hb ↦ hnd.2.2 a ha a hb rfl
  have hhead : l.head = first A (first (x :: B) none) := by rw [hl.head, first_append]
  obtain ⟨h₁, l₁, hset₁, hA₁, hhead₁, htail₁, hlen₁, hframe₁, hbrk₁⟩ :=
    setNextOrHead_spec hA hnd.1 hhead (first B none)
  have hB₁ : Seg h₁ (some x.1) B none :=
    seg_congr (fun y hy ↦ hframe₁ y.1 fun hmem ↦
      hdisj y.1 hmem (List.mem_map_of_mem hy)) hB
  have htail : l₁.tail = last (some x.1) B := by rw [htail₁, hl.tail, last_append]; rfl
  obtain ⟨h₂, l₂, hset₂, hB₂, htail₂, hhead₂, hlen₂, hframe₂, hbrk₂⟩ :=
    setPrevOrTail_spec hB₁ hnd.2.1 htail (last none A)
  have hcell₁ : h₁.cells x.1 = some ⟨last none A, first B none, x.2⟩ :=
    (hframe₁ _ hxA).trans hcell
  refine ⟨h₁, l₁, h₂, l₂, hset₁, hcell₁, hset₂, (hframe₂ _ hxB).trans hcell₁,
    seg_append.mpr ⟨?_, hB₂⟩, ?_, ?_, hlen₂.trans hlen₁, hbrk₂.trans hbrk₁, fun a ha ↦ ?_⟩
  · exact seg_congr (fun y hy ↦ hframe₂ y.1 (hdisj y.1 (List.mem_map_of_mem hy))) hA₁
  · rw [hhead₂, hhead₁, first_append]
  · rw [htail₂, last_append]
  · rw [List.map_append, List.mem_append, not_or] at ha
    rw [hframe₂ a ha.2, hframe₁ a ha.1]

private theorem frame_of_unlink {h₂ : Heap α} (hbrk : h₂.brk = h.brk)
    (hframe : ∀ a ∉ (A ++ B).map Prod.fst, h₂.cells a = h.cells a) :
    Heap.Frame ((A ++ x :: B).map Prod.fst) h h₂ := by
  refine ⟨fun a _ ha ↦ hframe a fun hmem ↦ ha ?_, hbrk.ge⟩
  rw [List.map_append, List.mem_append] at hmem ⊢
  exact hmem.imp_right fun h ↦ List.mem_cons_of_mem _ h

/-- `list_add_node_head` puts a new node in front. -/
theorem listAddNodeHead (hl : l.Holds h xs) (value : α) :
    ∃ h' l', LatteC.listAddNodeHead h l value = some (h', l') ∧
      l'.Holds h' ((h.brk, value) :: xs) ∧ Heap.Frame (xs.map Prod.fst) h h' := by
  have hnew : ∀ x ∈ xs, x.1 ≠ h.brk := fun x hx ↦ Nat.ne_of_lt (hl.lt_brk x hx)
  have hnd : (((h.brk, value) :: xs).map Prod.fst).Nodup := by
    rw [List.map_cons, List.nodup_cons]
    refine ⟨fun hmem ↦ ?_, hl.nodup⟩
    obtain ⟨y, hy, hyb⟩ := List.mem_map.mp hmem
    exact hnew y hy hyb
  have hlt : ∀ x ∈ (h.brk, value) :: xs, x.1 < h.brk + 1 := by
    intro x hx
    rcases List.mem_cons.mp hx with rfl | hx
    · exact Nat.lt_succ_self _
    · exact Nat.lt_succ_of_lt (hl.lt_brk x hx)
  rw [LatteC.listAddNodeHead]
  cases xs with
  | nil =>
    rw [if_pos (show l.len = 0 from hl.len)]
    exact ⟨_, _, rfl, ⟨⟨Function.update_self .., trivial⟩, rfl, rfl, by rw [hl.len]; rfl, hnd, hlt⟩,
      Heap.frame_alloc ..⟩
  | cons x xs =>
    have hlen : l.len ≠ 0 := by rw [hl.len]; simp
    -- the allocated node, not yet linked up
    have hseg : Seg (h.alloc ⟨none, l.head, value⟩).1 none (x :: xs) none :=
      seg_congr (fun y hy ↦ Function.update_of_ne (hnew y hy) ..) hl.seg
    have hx : x.1 ∉ xs.map Prod.fst := (List.nodup_cons.mp (List.map_cons ▸ hl.nodup)).1
    obtain ⟨h', hmod, hs', hframe, hbrk⟩ := setPrev_first hseg hx (some h.brk)
    have hhead : l.head = some x.1 := hl.head
    have hcell : h'.cells h.brk = some ⟨none, some x.1, value⟩ := by
      rw [hframe h.brk (hnew x List.mem_cons_self).symm, ← hhead]
      exact Function.update_self ..
    refine ⟨h', { l with head := some h.brk, len := l.len + 1 }, ?_, ⟨⟨hcell, hs'⟩, rfl, hl.tail,
      ?_, hnd, fun y hy ↦ ?_⟩, (Heap.frame_alloc ..).trans (Heap.frame_modify hmod (by simp))⟩
    · rw [if_neg hlen]
      simp only [Heap.alloc] at hmod ⊢
      rw [hhead, Option.bind_some, ← hhead, hmod, Option.map_some]
    · simp only [hl.len, List.length_cons]
    · rw [hbrk]
      exact hlt y hy

/-- `list_del_node` takes the node out and frees it. -/
theorem listDelNode (hl : l.Holds h (A ++ x :: B)) :
    ∃ h' l', LatteC.listDelNode h l x.1 = some (h', l') ∧ l'.Holds h' (A ++ B) ∧
      Heap.Frame ((A ++ x :: B).map Prod.fst) h h' := by
  obtain ⟨h₁, l₁, h₂, l₂, hset₁, hcell₁, hset₂, hcell₂, hseg, hhead, htail, hlen, hbrk, hframe⟩ :=
    hl.unlink
  obtain ⟨hnd, hne⟩ := hl.nodup_middle
  refine ⟨{ h₂ with cells := Function.update h₂.cells x.1 none },
    { l₂ with len := l₂.len - 1 }, ?_,
    ⟨seg_congr (fun y hy ↦ Function.update_of_ne (hne y hy) ..) hseg, hhead, htail, ?_, hnd,
      fun y hy ↦ ?_⟩, .trans (frame_of_unlink hbrk hframe) (Heap.frame_free (a := x.1) ?_ (by simp))⟩
  · rw [LatteC.listDelNode, hl.cells]
    simp only [Option.bind_eq_bind, Option.bind_some]
    rw [hset₁]
    simp only [Option.bind_some, hcell₁]
    rw [hset₂]
    simp only [Option.bind_some]
    rw [Heap.free_of_cells hcell₂]
    rfl
  · simp only [hlen, hl.len, List.length_append, List.length_cons]
    omega
  · exact hbrk ▸ hl.lt_brk y (by
      rcases List.mem_append.mp hy with hy | hy
      · exact List.mem_append_left _ hy
      · exact List.mem_append_right _ (List.mem_cons_of_mem _ hy))
  · exact Heap.free_of_cells hcell₂

/-- `list_move_head` takes the node to the front. -/
theorem listMoveHead (hl : l.Holds h (A ++ x :: B)) :
    ∃ h' l', LatteC.listMoveHead h l x.1 = some (h', l') ∧ l'.Holds h' (x :: (A ++ B)) ∧
      Heap.Frame ((A ++ x :: B).map Prod.fst) h h' := by
  have hcell := hl.cells
  by_cases hA : A = []
  · -- already at the head
    subst hA
    refine ⟨h, l, ?_, hl, Heap.Frame.refl _ h⟩
    rw [LatteC.listMoveHead, hcell]
    rfl
  obtain ⟨h₁, l₁, h₂, l₂, hset₁, hcell₁, hset₂, hcell₂, hseg, hhead, htail, hlen, hbrk, hframe⟩ :=
    hl.unlink
  obtain ⟨hnd, hne⟩ := hl.nodup_middle
  obtain ⟨ys, y, hys, hlast⟩ := last_eq_of_ne_nil hA none
  obtain ⟨z, C, hC⟩ := List.exists_cons_of_ne_nil (fun h ↦ hA (List.append_eq_nil_iff.mp h).1 :
    A ++ B ≠ [])
  -- the first write goes through the left neighbour, so the head is not touched yet
  rw [hlast, setNextOrHead, Option.map_eq_some_iff] at hset₁
  obtain ⟨h₁', hmod₁, heq⟩ := hset₁
  obtain ⟨rfl, rfl⟩ := Prod.mk.inj heq
  rw [hC] at hseg hhead htail hnd hne
  have hxz : x.1 ∉ (z :: C).map Prod.fst := by
    intro hmem
    obtain ⟨w, hw, hwx⟩ := List.mem_map.mp hmem
    exact hne w hw hwx
  -- the node itself, then the old head
  set h₃ : Heap α := { h₂ with
    cells := Function.update h₂.cells x.1 (some ⟨none, l₂.head, x.2⟩) } with hh₃
  have hmod₃ : h₂.modify x.1 (fun d ↦ { d with prev := none, next := l₂.head }) = some h₃ :=
    Heap.modify_of_cells hcell₂ _
  have hseg₃ : Seg h₃ none (z :: C) none :=
    seg_congr (fun w hw ↦ Function.update_of_ne (hne w hw) ..) hseg
  have hz : z.1 ∉ C.map Prod.fst := (List.nodup_cons.mp (List.map_cons ▸ hnd)).1
  obtain ⟨h₄, hmod₄, hseg₄, hframe₄, hbrk₄⟩ := setPrev_first hseg₃ hz (some x.1)
  have hhead' : l₂.head = some z.1 := hhead
  have hzmem : z.1 ∈ (A ++ x :: B).map Prod.fst := by
    have hz : z ∈ A ++ B := hC ▸ List.mem_cons_self
    refine List.mem_map_of_mem ?_
    rw [List.mem_append] at hz ⊢
    exact hz.imp_right (List.mem_cons_of_mem _)
  refine ⟨h₄, { l₂ with head := some x.1 }, ?_, ⟨?_, rfl, ?_, ?_, ?_, ?_⟩,
    .trans (frame_of_unlink hbrk hframe)
      (.trans (Heap.frame_modify hmod₃ (by simp)) (Heap.frame_modify hmod₄ hzmem))⟩
  · rw [LatteC.listMoveHead, hcell]
    simp only [Option.bind_eq_bind, Option.bind_some, hlast]
    rw [hmod₁]
    simp only [Option.bind_some]
    rw [hcell₁]
    simp only [Option.bind_some]
    rw [hset₂]
    simp only [Option.bind_some]
    rw [hmod₃]
    simp only [Option.bind_some, hhead']
    rw [hmod₄]
    rfl
  · rw [hC]
    refine ⟨?_, hseg₄⟩
    rw [hframe₄ x.1 (hne z List.mem_cons_self).symm]
    rw [hh₃, hhead']
    exact Function.update_self ..
  · rw [hC]
    exact htail
  · simp only [hlen, hl.len, List.length_append, List.length_cons]
    omega
  · rw [hC, List.map_cons, List.nodup_cons]
    exact ⟨hxz, hnd⟩
  · intro w hw
    rw [hbrk₄]
    refine (hbrk ▸ hl.lt_brk w ?_ : w.1 < h₂.brk)
    simp only [List.mem_cons, List.mem_append] at hw ⊢
    tauto

/-- Writing through a node that the caller has kept a pointer to. -/
theorem setValue {a : ℕ} {v : α} (hl : l.Holds h (A ++ (a, v) :: B)) (f : α → α) :
    ∃ h', h.modify a (fun c ↦ { c with value := f c.value }) = some h' ∧
      l.Holds h' (A ++ (a, f v) :: B) := by
  obtain ⟨h', hmod, hseg, hbrk⟩ := DoublyLinked.setValue hl.seg hl.nodup f
  refine ⟨h', hmod, hseg, ?_, ?_, ?_, ?_, fun y hy ↦ ?_⟩
  · rw [hl.head, first_append, first_append]
    rfl
  · rw [hl.tail, last_append, last_append]
    rfl
  · rw [hl.len, List.length_append, List.length_append]
    rfl
  · simpa using hl.nodup
  · have hlt : ∀ z ∈ A ++ (a, v) :: B, z.1 < h'.brk := fun z hz ↦ hbrk ▸ hl.lt_brk z hz
    rcases List.mem_append.mp hy with hy | hy
    · exact hlt y (List.mem_append_left _ hy)
    · rcases List.mem_cons.mp hy with rfl | hy
      · exact hlt (a, v) (by simp)
      · exact hlt y (List.mem_append_right _ (List.mem_cons_of_mem _ hy))

end LList.Holds

/-- The iterator visits the nodes of a segment one by one and then ends. -/
theorem latteListIteratorDrain_spec {h : Heap α} :
    ∀ (xs : List (ℕ × α)) (p : Option ℕ) (fuel : ℕ) (next : Option ℕ), Seg h p xs none →
      xs.length < fuel →
      latteListIteratorDrain h fuel ⟨⟨first xs none, .startHead⟩, next⟩ =
        some (xs.map Prod.snd) := by
  intro xs
  induction xs with
  | nil =>
    intro p fuel next _ hfuel
    obtain ⟨fuel, rfl⟩ := Nat.exists_eq_add_of_lt hfuel
    rfl
  | cons x xs ih =>
    intro p fuel next hs hfuel
    obtain ⟨fuel, rfl⟩ : ∃ f, fuel = f + 1 := ⟨fuel - 1, by omega⟩
    have hrest := ih (some x.1) fuel none hs.2 (by simpa using hfuel)
    rw [show first (x :: xs) none = some x.1 from rfl]
    simp only [latteListIteratorDrain, latteListIteratorHasNext, listNext, hs.1, Option.map_some,
      Option.bind_some, latteListIteratorNext, hrest, List.map_cons]

end LatteC
