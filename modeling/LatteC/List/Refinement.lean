import LatteC.List.Operations

/-!
# Linked lists are sequences

Any number of lists over one heap, and any sequence of calls on them. The lists stay well-formed
doubly linked chains, and the values in them are what the same operations make of plain sequences
(`list_run`).

A call that takes a node takes its address; the plain operation takes the position which that
node has in its list at the time of the call.
-/

namespace LatteC

open DoublyLinked

variable {α : Type}

/-- The heap, and the lists of a program. -/
structure ListHeap (α : Type) where
  heap : Heap α
  lists : ℕ → LList

/-- Every list as `list_new` leaves it. -/
def ListHeap.new : ListHeap α := ⟨Heap.empty, fun _ ↦ listNew⟩

/-- A call of a list operation. -/
inductive ListCall (α : Type) where
  | addNodeHead (l : ℕ) (value : α)
  | addNodeTail (l : ℕ) (value : α)
  | insertNode (l oldNode : ℕ) (value : α) (after : Bool)
  | delNode (l node : ℕ)
  | lpop (l : ℕ)
  | rpop (l : ℕ)
  | rotateTailToHead (l : ℕ)
  | rotateHeadToTail (l : ℕ)
  | join (l o : ℕ)
  | moveHead (l node : ℕ)
  | forEachDelete (l : ℕ) (needDelete : α → Bool)

/-- What a call returns: nothing, the value it has popped or NULL, the number of nodes deleted. -/
inductive ListReply (α : Type) where
  | done
  | value (v : Option α)
  | deleted (n : ℕ)

namespace ListHeap

/-- Put the result of an operation on list `l` in its place. -/
def store (st : ListHeap α) (l : ℕ) (h : Heap α) (list : LList) : ListHeap α :=
  ⟨h, Function.update st.lists l list⟩

/-- Make a call. -/
def exec (st : ListHeap α) : ListCall α → Option (ListHeap α × ListReply α)
  | .addNodeHead l value =>
    (listAddNodeHead st.heap (st.lists l) value).map fun r ↦ (st.store l r.1 r.2, .done)
  | .addNodeTail l value =>
    (listAddNodeTail st.heap (st.lists l) value).map fun r ↦ (st.store l r.1 r.2, .done)
  | .insertNode l oldNode value after =>
    (listInsertNode st.heap (st.lists l) oldNode value after).map fun r ↦
      (st.store l r.1 r.2, .done)
  | .delNode l node =>
    (listDelNode st.heap (st.lists l) node).map fun r ↦ (st.store l r.1 r.2, .done)
  | .lpop l => (listLpop st.heap (st.lists l)).map fun r ↦ (st.store l r.1 r.2.1, .value r.2.2)
  | .rpop l => (listRpop st.heap (st.lists l)).map fun r ↦ (st.store l r.1 r.2.1, .value r.2.2)
  | .rotateTailToHead l =>
    (listRotateTailToHead st.heap (st.lists l)).map fun r ↦ (st.store l r.1 r.2, .done)
  | .rotateHeadToTail l =>
    (listRotateHeadToTail st.heap (st.lists l)).map fun r ↦ (st.store l r.1 r.2, .done)
  | .join l o =>
    (listJoin st.heap (st.lists l) (st.lists o)).map fun r ↦
      ((st.store l r.1 r.2.1).store o r.1 r.2.2, .done)
  | .moveHead l node =>
    (listMoveHead st.heap (st.lists l) node).map fun r ↦ (st.store l r.1 r.2, .done)
  | .forEachDelete l needDelete =>
    (listForEachDelete st.heap (st.lists l) needDelete).map fun r ↦
      (st.store l r.1 r.2.1, .deleted r.2.2)

end ListHeap

/-- The addresses met on a walk from a node along `next`, at most `n` of them. -/
def listNodes (h : Heap α) : (n : ℕ) → Option ℕ → List ℕ
  | n + 1, some a => a :: ((h.cells a).elim [] fun c ↦ listNodes h n c.next)
  | _, _ => []

namespace ListHeap

/-- The nodes of list `l`. -/
def nodes (st : ListHeap α) (l : ℕ) : List ℕ :=
  listNodes st.heap (st.lists l).len (st.lists l).head

/-- The position of a node in list `l`. -/
def position (st : ListHeap α) (l node : ℕ) : ℕ := (st.nodes l).idxOf node

end ListHeap

/-- A node handed to an operation is a node of the list it is handed with. -/
def ListCall.NodeOk (st : ListHeap α) : ListCall α → Prop
  | .insertNode l node _ _ => node ∈ st.nodes l
  | .delNode l node => node ∈ st.nodes l
  | .moveHead l node => node ∈ st.nodes l
  | _ => True

instance (st : ListHeap α) : DecidablePred (ListCall.NodeOk st)
  | .insertNode l node _ _ => inferInstanceAs (Decidable (node ∈ st.nodes l))
  | .delNode l node => inferInstanceAs (Decidable (node ∈ st.nodes l))
  | .moveHead l node => inferInstanceAs (Decidable (node ∈ st.nodes l))
  | .addNodeHead .. | .addNodeTail .. | .lpop _ | .rpop _ | .rotateTailToHead _
  | .rotateHeadToTail _ | .join .. | .forEachDelete .. => inferInstanceAs (Decidable True)

/-! ## Plain sequences -/

/-- The call on plain sequences. The function `pos` tells the position of a node in a list. -/
def ListCall.onSeqs (pos : ℕ → ℕ → ℕ) (S : ℕ → List α) :
    ListCall α → (ℕ → List α) × ListReply α
  | .addNodeHead l value => (Function.update S l (value :: S l), .done)
  | .addNodeTail l value => (Function.update S l (S l ++ [value]), .done)
  | .insertNode l node value after =>
    (Function.update S l ((S l).insertIdx (pos l node + after.toNat) value), .done)
  | .delNode l node => (Function.update S l ((S l).eraseIdx (pos l node)), .done)
  | .lpop l => (Function.update S l (S l).tail, .value (S l).head?)
  | .rpop l => (Function.update S l (S l).dropLast, .value (S l).getLast?)
  | .rotateTailToHead l => (Function.update S l ((S l).getLast?.toList ++ (S l).dropLast), .done)
  | .rotateHeadToTail l => (Function.update S l ((S l).tail ++ (S l).head?.toList), .done)
  | .join l o => (Function.update (Function.update S l (S l ++ S o)) o [], .done)
  | .moveHead l node =>
    (Function.update S l (((S l)[pos l node]?).toList ++ (S l).eraseIdx (pos l node)), .done)
  | .forEachDelete l p =>
    (Function.update S l ((S l).filter fun v ↦ !p v), .deleted ((S l).countP p))

/-- A run of calls, on the lists and on plain sequences side by side. -/
inductive ListHeap.Run : ListHeap α → (ℕ → List α) → Prop
  | new : Run ListHeap.new fun _ ↦ []
  | call {st st' : ListHeap α} {S : ℕ → List α} {c : ListCall α} {r : ListReply α} :
      Run st S → c.NodeOk st → st.exec c = some (st', r) → Run st' (c.onSeqs st.position S).1

/-! ## Well-formed lists -/

/-- Following the pointers `f` from `p` on, up to NULL, meets exactly these nodes and values. -/
def Walk (f : Cell α → Option ℕ) (h : Heap α) : Option ℕ → List (ℕ × α) → Prop
  | p, [] => p = none
  | p, x :: xs => p = some x.1 ∧ ∃ c, h.cells x.1 = some c ∧ c.value = x.2 ∧ Walk f h (f c) xs

/-- A well-formed doubly linked list, with these nodes in this order. -/
structure LList.WellFormed (h : Heap α) (l : LList) (xs : List (ℕ × α)) : Prop where
  /-- The nodes are all different. -/
  nodup : (xs.map Prod.fst).Nodup
  /-- The walk along `next` from the head. -/
  forward : Walk Cell.next h l.head xs
  /-- The walk along `prev` from the tail is the same one backwards. -/
  backward : Walk Cell.prev h l.tail xs.reverse
  len_eq : l.len = xs.length
  head_prev : ∀ a, l.head = some a → ∃ c, h.cells a = some c ∧ c.prev = none
  tail_next : ∀ a, l.tail = some a → ∃ c, h.cells a = some c ∧ c.next = none
  next_prev : ∀ x ∈ xs, ∀ c, h.cells x.1 = some c → ∀ b, c.next = some b →
    ∃ d, h.cells b = some d ∧ d.prev = some x.1

theorem walk_next_of_seg {h : Heap α} {p : Option ℕ} {xs : List (ℕ × α)} (hs : Seg h p xs none) :
    Walk Cell.next h (first xs none) xs := by
  induction xs generalizing p with
  | nil => rfl
  | cons x xs ih => exact ⟨rfl, _, hs.1, rfl, ih hs.2⟩

theorem walk_prev_of_seg {h : Heap α} {n : Option ℕ} {xs : List (ℕ × α)} (hs : Seg h none xs n) :
    Walk Cell.prev h (last none xs) xs.reverse := by
  induction xs using List.reverseRecOn generalizing n with
  | nil => rfl
  | append_singleton xs x ih =>
    obtain ⟨hxs, hcell, -⟩ := seg_append.mp hs
    rw [List.reverse_append, last_append]
    exact ⟨rfl, _, hcell, rfl, ih hxs⟩

theorem LList.Holds.wellFormed {h : Heap α} {l : LList} {xs : List (ℕ × α)} (hl : l.Holds h xs) :
    l.WellFormed h xs where
  nodup := hl.nodup
  forward := hl.head ▸ walk_next_of_seg hl.seg
  backward := hl.tail ▸ walk_prev_of_seg hl.seg
  len_eq := hl.len
  head_prev a ha := by
    cases xs with
    | nil =>
      rw [hl.head] at ha
      cases ha
    | cons x xs =>
      rw [hl.head, first, Option.some.injEq] at ha
      exact ⟨_, ha ▸ hl.seg.1, rfl⟩
  tail_next a ha := by
    by_cases hxs : xs = []
    · rw [hl.tail, hxs] at ha
      cases ha
    · obtain ⟨ys, y, rfl, hlast⟩ := last_eq_of_ne_nil hxs none
      rw [hl.tail, hlast, Option.some.injEq] at ha
      exact ⟨_, ha ▸ hl.cells, rfl⟩
  next_prev x hx c hc b hb := by
    obtain ⟨A, B, rfl⟩ := List.append_of_mem hx
    rw [hl.cells, Option.some.injEq] at hc
    subst hc
    cases B with
    | nil => cases hb
    | cons y B =>
      rw [first, Option.some.injEq] at hb
      have hl' : l.Holds h ((A ++ [x]) ++ y :: B) := by rwa [List.append_assoc]
      refine ⟨_, hb ▸ hl'.cells, ?_⟩
      rw [last_append]
      rfl

/-! ## The invariant -/

/-- The lists have the nodes `N`, and no node is in two lists. -/
structure ListHeap.Rep (st : ListHeap α) (N : ℕ → List (ℕ × α)) : Prop where
  holds : ∀ i, (st.lists i).Holds st.heap (N i)
  disjoint : ∀ i j, i ≠ j → ∀ x ∈ N i, ∀ y ∈ N j, x.1 ≠ y.1

/-- The values of the nodes. -/
def values (N : ℕ → List (ℕ × α)) : ℕ → List α := List.map Prod.snd ∘ N

theorem values_update (N : ℕ → List (ℕ × α)) (l : ℕ) (xs : List (ℕ × α)) :
    values (Function.update N l xs) = Function.update (values N) l (xs.map Prod.snd) :=
  Function.comp_update ..

/-- A list none of whose nodes is touched. -/
theorem LList.Holds.of_frame {h h' : Heap α} {l : LList} {xs : List (ℕ × α)} {T : List ℕ}
    (hl : l.Holds h xs) (hframe : Heap.Frame T h h') (hT : ∀ x ∈ xs, x.1 ∉ T) : l.Holds h' xs where
  seg := seg_congr (fun x hx ↦ hframe.cells x.1 (hl.lt_brk x hx) (hT x hx)) hl.seg
  head := hl.head
  tail := hl.tail
  len := hl.len
  nodup := hl.nodup
  lt_brk x hx := (hl.lt_brk x hx).trans_le hframe.brk_le

theorem listNodes_of_seg {h : Heap α} {p : Option ℕ} {xs : List (ℕ × α)} (hs : Seg h p xs none) :
    listNodes h xs.length (first xs none) = xs.map Prod.fst := by
  induction xs generalizing p with
  | nil => rfl
  | cons x xs ih =>
    rw [List.length_cons, first, listNodes, hs.1, Option.elim_some, ih hs.2]
    rfl

private theorem insertIdx_append_length (A B : List α) (k : ℕ) (v : α) :
    (A ++ B).insertIdx (A.length + k) v = A ++ B.insertIdx k v := by
  induction A with
  | nil => rw [List.length_nil, Nat.zero_add, List.nil_append, List.nil_append]
  | cons a A ih =>
    rw [List.length_cons, Nat.add_right_comm, List.cons_append, List.insertIdx_succ_cons, ih,
      List.cons_append]

/-- What `ListHeap.exec` has to do on a call: succeed, with the reply and the values of the plain
sequences. -/
def ListHeap.Refines (st : ListHeap α) (N : ℕ → List (ℕ × α)) (c : ListCall α) : Prop :=
  ∃ st' N', st.exec c = some (st', (c.onSeqs st.position (values N)).2) ∧ st'.Rep N' ∧
    (c.onSeqs st.position (values N)).1 = values N'

namespace ListHeap.Rep

variable {st : ListHeap α} {N : ℕ → List (ℕ × α)}

theorem nodes_eq (hrep : st.Rep N) (l : ℕ) : st.nodes l = (N l).map Prod.fst := by
  rw [nodes, (hrep.holds l).len, (hrep.holds l).head, listNodes_of_seg (hrep.holds l).seg]

/-- A node of a list, with what is on either side of it. -/
theorem exists_split (hrep : st.Rep N) {l node : ℕ} (hnode : node ∈ st.nodes l) :
    ∃ A v B, N l = A ++ (node, v) :: B ∧ st.position l node = A.length := by
  rw [hrep.nodes_eq, List.mem_map] at hnode
  obtain ⟨⟨node', v⟩, hmem, hnode⟩ := hnode
  obtain rfl : node' = node := hnode
  obtain ⟨A, B, hAB⟩ := List.append_of_mem hmem
  refine ⟨A, v, B, hAB, ?_⟩
  have hholds := hrep.holds l
  rw [hAB] at hholds
  have hA : ∀ a ∈ A.map Prod.fst, a ≠ node' := by
    intro a ha
    obtain ⟨y, hy, rfl⟩ := List.mem_map.mp ha
    exact hholds.nodup_middle.2 y (List.mem_append_left _ hy)
  rw [position, hrep.nodes_eq, hAB, List.map_append, List.map_cons,
    List.idxOf_append_of_notMem fun hmem ↦ hA node' hmem rfl, List.idxOf_cons_self, List.length_map,
    Nat.add_zero]

/-- An operation on one list, which touches the nodes of no other list. -/
theorem store (hrep : st.Rep N) {l : ℕ} {h' : Heap α} {list : LList} {ys : List (ℕ × α)} {T : List ℕ}
    (hl : list.Holds h' ys) (hframe : Heap.Frame T st.heap h')
    (hT : ∀ j ≠ l, ∀ x ∈ N j, x.1 ∉ T) (hys : ∀ y ∈ ys, y.1 ∈ T ∨ st.heap.brk ≤ y.1) :
    (st.store l h' list).Rep (Function.update N l ys) := by
  have hdisj : ∀ j ≠ l, ∀ x ∈ N j, ∀ y ∈ ys, x.1 ≠ y.1 := by
    intro j hj x hx y hy hxy
    rcases hys y hy with hmem | hle
    · exact hT j hj x hx (hxy ▸ hmem)
    · exact ((hrep.holds j).lt_brk x hx).not_ge (hxy ▸ hle)
  refine ⟨fun i ↦ ?_, fun i j hij x hx y hy ↦ ?_⟩
  · change (Function.update st.lists l list i).Holds h' _
    by_cases hi : i = l
    · subst hi
      rwa [Function.update_self, Function.update_self]
    · rw [Function.update_of_ne hi, Function.update_of_ne hi]
      exact (hrep.holds i).of_frame hframe (hT i hi)
  · by_cases hi : i = l
    · subst hi
      rw [Function.update_self] at hx
      rw [Function.update_of_ne hij.symm] at hy
      exact (hdisj j hij.symm y hy x hx).symm
    · rw [Function.update_of_ne hi] at hx
      by_cases hj : j = l
      · subst hj
        rw [Function.update_self] at hy
        exact hdisj i hi x hx y hy
      · rw [Function.update_of_ne hj] at hy
        exact hrep.disjoint i j hij x hx y hy

theorem not_mem_of_ne (hrep : st.Rep N) {j l : ℕ} (hj : j ≠ l) :
    ∀ x ∈ N j, x.1 ∉ (N l).map Prod.fst := by
  intro x hx hmem
  obtain ⟨z, hz, hzx⟩ := List.mem_map.mp hmem
  exact hrep.disjoint j l hj x hx z hz hzx.symm

/-- A call that works on one list. -/
theorem refines (hrep : st.Rep N) {c : ListCall α} {l : ℕ} {h' : Heap α} {list : LList}
    {ys : List (ℕ × α)} (hl : list.Holds h' ys)
    (hframe : Heap.Frame ((N l).map Prod.fst) st.heap h')
    (hys : ∀ y ∈ ys, y.1 ∈ (N l).map Prod.fst ∨ st.heap.brk ≤ y.1)
    (hexec : st.exec c = some (st.store l h' list, (c.onSeqs st.position (values N)).2))
    (hseq : (c.onSeqs st.position (values N)).1 =
      Function.update (values N) l (ys.map Prod.snd)) : st.Refines N c :=
  ⟨_, _, hexec, hrep.store hl hframe (fun _ hj ↦ hrep.not_mem_of_ne hj) hys,
    hseq.trans (values_update ..).symm⟩

/-- The nodes of the result are old ones. -/
theorem old_of_subset {xs ys : List (ℕ × α)} {b : ℕ} (hsub : ys ⊆ xs) :
    ∀ y ∈ ys, y.1 ∈ xs.map Prod.fst ∨ b ≤ y.1 := fun _ hy ↦ Or.inl (List.mem_map_of_mem (hsub hy))

theorem addNodeHead (hrep : st.Rep N) (l : ℕ) (value : α) :
    st.Refines N (.addNodeHead l value) := by
  obtain ⟨h', list, hop, hl, hframe⟩ := (hrep.holds l).listAddNodeHead value
  refine hrep.refines hl hframe (fun y hy ↦ ?_) (congrArg (Option.map _) hop) rfl
  rcases List.mem_cons.mp hy with rfl | hy
  · exact Or.inr le_rfl
  · exact Or.inl (List.mem_map_of_mem hy)

theorem addNodeTail (hrep : st.Rep N) (l : ℕ) (value : α) :
    st.Refines N (.addNodeTail l value) := by
  obtain ⟨h', list, hop, hl, hframe⟩ := (hrep.holds l).listAddNodeTail value
  refine hrep.refines hl hframe (fun y hy ↦ ?_) (congrArg (Option.map _) hop) ?_
  · rcases List.mem_append.mp hy with hy | hy
    · exact Or.inl (List.mem_map_of_mem hy)
    · rw [List.mem_singleton.mp hy]
      exact Or.inr le_rfl
  · rw [List.map_append]
    rfl

theorem insertNode (hrep : st.Rep N) {l node : ℕ} (hnode : node ∈ st.nodes l) (value : α)
    (after : Bool) : st.Refines N (.insertNode l node value after) := by
  obtain ⟨A, v, B, hAB, hpos⟩ := hrep.exists_split hnode
  have hholds := hrep.holds l
  rw [hAB] at hholds
  have hvals : values N l = A.map Prod.snd ++ v :: B.map Prod.snd := by
    rw [values, Function.comp_apply, hAB, List.map_append, List.map_cons]
  cases after with
  | true =>
    obtain ⟨h', list, hop, hl, hframe⟩ := hholds.listInsertNode_after value
    refine hrep.refines hl (hAB ▸ hframe) (fun y hy ↦ ?_) (congrArg (Option.map _) hop) ?_
    · simp only [List.mem_append, List.mem_cons] at hy
      rw [hAB]
      rcases hy with hy | rfl | rfl | hy
      · exact Or.inl (List.mem_map_of_mem (List.mem_append_left _ hy))
      · exact Or.inl (by simp)
      · exact Or.inr le_rfl
      · exact Or.inl (List.mem_map_of_mem (List.mem_append_right _ (List.mem_cons_of_mem _ hy)))
    · rw [ListCall.onSeqs, hpos, hvals, ← List.length_map Prod.snd, insertIdx_append_length]
      simp
  | false =>
    obtain ⟨h', list, hop, hl, hframe⟩ := hholds.listInsertNode_before value
    refine hrep.refines hl (hAB ▸ hframe) (fun y hy ↦ ?_) (congrArg (Option.map _) hop) ?_
    · simp only [List.mem_append, List.mem_cons] at hy
      rw [hAB]
      rcases hy with hy | rfl | rfl | hy
      · exact Or.inl (List.mem_map_of_mem (List.mem_append_left _ hy))
      · exact Or.inr le_rfl
      · exact Or.inl (by simp)
      · exact Or.inl (List.mem_map_of_mem (List.mem_append_right _ (List.mem_cons_of_mem _ hy)))
    · rw [ListCall.onSeqs, hpos, hvals, ← List.length_map Prod.snd, insertIdx_append_length]
      simp

theorem delNode (hrep : st.Rep N) {l node : ℕ} (hnode : node ∈ st.nodes l) :
    st.Refines N (.delNode l node) := by
  obtain ⟨A, v, B, hAB, hpos⟩ := hrep.exists_split hnode
  have hholds := hrep.holds l
  rw [hAB] at hholds
  obtain ⟨h', list, hop, hl, hframe⟩ := hholds.listDelNode
  refine hrep.refines hl (hAB ▸ hframe) (old_of_subset ?_) (congrArg (Option.map _) hop) ?_
  · rw [hAB]
    exact (List.sublist_cons_self _ B).append_left A |>.subset
  · rw [ListCall.onSeqs, hpos, values, Function.comp_apply, hAB, List.map_append, List.map_cons,
      ← List.length_map Prod.snd, List.eraseIdx_append_of_length_le le_rfl, Nat.sub_self,
      List.eraseIdx_cons_zero, List.map_append]

theorem moveHead (hrep : st.Rep N) {l node : ℕ} (hnode : node ∈ st.nodes l) :
    st.Refines N (.moveHead l node) := by
  obtain ⟨A, v, B, hAB, hpos⟩ := hrep.exists_split hnode
  have hholds := hrep.holds l
  rw [hAB] at hholds
  obtain ⟨h', list, hop, hl, hframe⟩ := hholds.listMoveHead
  refine hrep.refines hl (hAB ▸ hframe) (old_of_subset ?_) (congrArg (Option.map _) hop) ?_
  · rw [hAB]
    exact List.perm_middle.symm.subset
  · rw [ListCall.onSeqs, hpos, values, Function.comp_apply, hAB, List.map_append, List.map_cons,
      ← List.length_map Prod.snd, List.eraseIdx_append_of_length_le le_rfl, Nat.sub_self,
      List.eraseIdx_cons_zero, List.getElem?_append_right le_rfl, Nat.sub_self,
      List.getElem?_cons_zero, List.map_cons, List.map_append]
    rfl

theorem lpop (hrep : st.Rep N) (l : ℕ) : st.Refines N (.lpop l) := by
  obtain ⟨h', list, hop, hl, hframe⟩ := (hrep.holds l).listLpop
  refine hrep.refines hl hframe (old_of_subset (List.tail_subset _)) ?_ ?_
  · refine (congrArg (Option.map _) hop).trans ?_
    rw [← List.head?_map]
    rfl
  · rw [List.map_tail]
    rfl

theorem rpop (hrep : st.Rep N) (l : ℕ) : st.Refines N (.rpop l) := by
  obtain ⟨h', list, hop, hl, hframe⟩ := (hrep.holds l).listRpop
  refine hrep.refines hl hframe (old_of_subset (List.dropLast_subset _)) ?_ ?_
  · refine (congrArg (Option.map _) hop).trans ?_
    rw [← List.getLast?_map]
    rfl
  · rw [List.map_dropLast]
    rfl

theorem rotateTailToHead (hrep : st.Rep N) (l : ℕ) : st.Refines N (.rotateTailToHead l) := by
  obtain ⟨h', list, hop, hl, hframe⟩ := (hrep.holds l).listRotateTailToHead
  refine hrep.refines hl hframe (old_of_subset fun y hy ↦ ?_) (congrArg (Option.map _) hop) ?_
  · rcases List.mem_append.mp hy with hy | hy
    · exact List.mem_of_getLast? (Option.mem_toList.mp hy)
    · exact List.dropLast_subset _ hy
  · rw [List.map_append, List.map_dropLast, ← Option.toList_map, ← List.getLast?_map]
    rfl

theorem rotateHeadToTail (hrep : st.Rep N) (l : ℕ) : st.Refines N (.rotateHeadToTail l) := by
  obtain ⟨h', list, hop, hl, hframe⟩ := (hrep.holds l).listRotateHeadToTail
  refine hrep.refines hl hframe (old_of_subset fun y hy ↦ ?_) (congrArg (Option.map _) hop) ?_
  · rcases List.mem_append.mp hy with hy | hy
    · exact List.tail_subset _ hy
    · exact List.mem_of_mem_head? (Option.mem_toList.mp hy)
  · rw [List.map_append, List.map_tail, ← Option.toList_map, ← List.head?_map]
    rfl

theorem forEachDelete (hrep : st.Rep N) (l : ℕ) (p : α → Bool) :
    st.Refines N (.forEachDelete l p) := by
  obtain ⟨h', list, hop, hl, hframe⟩ := (hrep.holds l).listForEachDelete p
  refine hrep.refines hl hframe (old_of_subset (List.filter_subset_self _)) ?_ ?_
  · refine (congrArg (Option.map _) hop).trans ?_
    rw [ListCall.onSeqs, values, Function.comp_apply, List.countP_map]
    rfl
  · rw [ListCall.onSeqs, values, Function.comp_apply, List.filter_map]
    rfl

/-- A list without nodes is as `list_new` leaves it. -/
theorem eq_listNew {h : Heap α} {list : LList} (hl : list.Holds h []) : list = listNew := by
  obtain ⟨head, tail, len⟩ := list
  exact congr (congr (congrArg LList.mk hl.head) hl.tail) hl.len

theorem join (hrep : st.Rep N) (l o : ℕ) : st.Refines N (.join l o) := by
  by_cases hlo : l = o
  · -- the list is emptied, whatever was linked up before
    subst hlo
    obtain ⟨h', l', o', hop, hframe⟩ := (hrep.holds l).listJoin_self
    have ho := (hrep.holds l).listJoin_snd hop
    refine hrep.refines ho hframe (by simp) ?_ (Function.update_idem ..)
    refine (congrArg (Option.map _) hop).trans ?_
    rw [Option.map_some, ListHeap.store, ListHeap.store, Function.update_idem]
    rfl
  · obtain ⟨h', l', o', hop, hl, hframe⟩ :=
      (hrep.holds l).listJoin (hrep.holds o) (hrep.disjoint l o hlo)
    have ho := eq_listNew ((hrep.holds o).listJoin_snd hop)
    -- the nodes of `o` are given up first, then `l` takes them
    have hrep₁ : (st.store o st.heap listNew).Rep (Function.update N o []) :=
      hrep.store (holds_listNew _) (Heap.Frame.refl [] _) (by simp) (by simp)
    have hrep₂ := hrep₁.store (l := l) hl hframe (fun j hj x hx ↦ ?_)
      (fun y hy ↦ Or.inl (List.mem_map_of_mem hy))
    · refine ⟨_, _, ?_, hrep₂, ?_⟩
      · refine (congrArg (Option.map _) hop).trans ?_
        rw [Option.map_some, ho, ListHeap.store, ListHeap.store, ListHeap.store, ListHeap.store,
          Function.update_comm hlo]
        rfl
      · rw [Function.update_comm (Ne.symm hlo), values_update, values_update, List.map_append]
        rfl
    · by_cases hjo : j = o
      · subst hjo
        rw [Function.update_self] at hx
        cases hx
      · rw [Function.update_of_ne hjo] at hx
        rw [List.map_append, List.mem_append, not_or]
        exact ⟨hrep.not_mem_of_ne hj x hx, hrep.not_mem_of_ne hjo x hx⟩

/-- Every call on well-formed lists does what it does on plain sequences. -/
theorem exec_spec (hrep : st.Rep N) {c : ListCall α} (hok : c.NodeOk st) : st.Refines N c := by
  cases c with
  | addNodeHead l value => exact hrep.addNodeHead l value
  | addNodeTail l value => exact hrep.addNodeTail l value
  | insertNode l node value after => exact hrep.insertNode hok value after
  | delNode l node => exact hrep.delNode hok
  | lpop l => exact hrep.lpop l
  | rpop l => exact hrep.rpop l
  | rotateTailToHead l => exact hrep.rotateTailToHead l
  | rotateHeadToTail l => exact hrep.rotateHeadToTail l
  | join l o => exact hrep.join l o
  | moveHead l node => exact hrep.moveHead hok
  | forEachDelete l p => exact hrep.forEachDelete l p

end ListHeap.Rep

/-- **Every run of list operations**: each list is a well-formed doubly linked list with the values
of its plain sequence, and whatever call is made next, on nodes of its list, goes through
and returns what it returns on plain sequences. -/
theorem list_run {st : ListHeap α} {S : ℕ → List α} (hrun : st.Run S) :
    (∀ i, ∃ xs, (st.lists i).WellFormed st.heap xs ∧ xs.map Prod.snd = S i) ∧
      ∀ c : ListCall α, c.NodeOk st →
        ∃ st', st.exec c = some (st', (c.onSeqs st.position S).2) := by
  obtain ⟨N, hrep, rfl⟩ : ∃ N, st.Rep N ∧ S = values N := by
    induction hrun with
    | new => exact ⟨fun _ ↦ [], ⟨fun _ ↦ holds_listNew _, by simp⟩, rfl⟩
    | call _ hok hexec ih =>
      obtain ⟨N, hrep, rfl⟩ := ih
      obtain ⟨st₁, N', hexec₁, hrep', hvals⟩ := hrep.exec_spec hok
      rw [hexec, Option.some.injEq, Prod.mk.injEq] at hexec₁
      obtain ⟨rfl, -⟩ := hexec₁
      exact ⟨N', hrep', hvals⟩
  refine ⟨fun i ↦ ⟨N i, (hrep.holds i).wellFormed, rfl⟩, fun c hok ↦ ?_⟩
  obtain ⟨st', -, hexec, -⟩ := hrep.exec_spec hok
  exact ⟨st', hexec⟩

/-- Two nodes in list 0, which list 1 then takes over. -/
theorem list_run_join : ∃ st : ListHeap ℕ,
    (∃ xs, (st.lists 1).WellFormed st.heap xs ∧ xs.map Prod.snd = [5, 7]) ∧
      ∃ xs, (st.lists 0).WellFormed st.heap xs ∧ xs.map Prod.snd = [] := by
  have h₁ := ListHeap.Run.call (c := .addNodeHead 0 7) .new trivial rfl
  have h₂ := ListHeap.Run.call (c := .insertNode 0 0 5 false) h₁ (by decide) rfl
  have h₃ := ListHeap.Run.call (c := .join 1 0) h₂ trivial rfl
  exact ⟨_, (list_run h₃).1 1, (list_run h₃).1 0⟩

end LatteC
