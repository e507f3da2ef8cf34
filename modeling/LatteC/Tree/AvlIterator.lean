import LatteC.Tree.AvlMap
import LatteC.Foundation.SlotArray

/-!
# The iterator of the AVL tree

`avl_tree_get_iterator` walks the tree with a stack of nodes that are still to be handed out: the
nodes at which the walk has turned left. The stack starts with 16 slots and is doubled as soon as it is full,
so there is always a free slot for the next node; writing to a slot is checked in the model, and a
write behind the last one would be a fault.
-/

namespace LatteC

open SortedAssoc CallMachine SlotArray

variable {K V W : Type}

/-- `avl_tree_iterator_t`. The stack has `stackSize` slots. -/
structure AvlTreeIterator (K V : Type) where
  current : AvlNode K V
  stack : List (Option (AvlNode K V))
  stackSize : ℕ
  top : ℕ

/-- `it->stack[it->top++] = it->current`, with the doubling of a stack that is full. The slots that
`zrealloc` adds hold nothing yet. -/
def avlIteratorPush (it : AvlTreeIterator K V) : Option (AvlTreeIterator K V) :=
  (write it.stack it.top (some it.current)).map fun stack ↦
    if it.top + 1 = it.stackSize then
      { it with
        stack := stack ++ List.replicate it.stackSize none
        stackSize := it.stackSize * 2
        top := it.top + 1 }
    else { it with stack := stack, top := it.top + 1 }

/-- `while (it->current != NULL)`, from the node that becomes `current` on. -/
def avlIteratorDescend : AvlNode K V → AvlTreeIterator K V → Option (AvlTreeIterator K V)
  | .nil, it => some { it with current := .nil }
  | .node l k v h r, it =>
    (avlIteratorPush { it with current := .node l k v h r }).bind (avlIteratorDescend l)

/-- `avl_tree_iterator_new`. -/
def avlTreeIteratorNew (tree : AvlTree K V) : Option (AvlTreeIterator K V) :=
  avlIteratorDescend tree.root ⟨tree.root, List.replicate 16 none, 16, 0⟩

/-- `avl_tree_iterator_has_next`. -/
def avlTreeIteratorHasNext (it : AvlTreeIterator K V) : Bool := decide (0 < it.top)

/-- The pair for a node: its key pointer, and its value if the type of the tree has a `get_value`. -/
def avlIteratorPair (getValue : Option (V → W)) (e : AvlKey K × V) : AvlKey K × Option W :=
  (e.1, getValue.map fun f ↦ f e.2)

/-- `avl_tree_iterator_next`. -/
def avlTreeIteratorNext (getValue : Option (V → W)) (it : AvlTreeIterator K V) :
    Option (AvlTreeIterator K V × Option (AvlKey K × Option W)) :=
  if it.top = 0 then some (it, none)
  else
    (read it.stack (it.top - 1)).bind fun
      | .nil => none
      | .node _ k v _ r =>
        (avlIteratorDescend r { it with current := r, top := it.top - 1 }).map fun it ↦
          (it, some (avlIteratorPair getValue (k, v)))

/-- `avl_tree_iterator_next` as a call. -/
def avlNextStep (getValue : Option (V → W)) (it : AvlTreeIterator K V) (_ : Unit) :
    Option (AvlTreeIterator K V × Option (AvlKey K × Option W)) :=
  avlTreeIteratorNext getValue it

/-! ## What is still to be handed out -/

namespace AvlNode

/-- The key pointers and values from left to right. -/
def pairs : AvlNode K V → List (AvlKey K × V)
  | nil => []
  | node l k v _ r => l.pairs ++ (k, v) :: r.pairs

/-- What a node on the stack stands for: itself and its right subtree. -/
def onward : AvlNode K V → List (AvlKey K × V)
  | nil => []
  | node _ k v _ r => (k, v) :: r.pairs

theorem inorder_eq_map (node : AvlNode K V) :
    node.inorder = node.pairs.map fun e ↦ (e.1.content, e.2) := by
  induction node with
  | nil => rfl
  | node l k v h r ihl ihr => rw [inorder, ihl, ihr, pairs, List.map_append, List.map_cons]

end AvlNode

/-- The nodes on the stack, the top one last, and what they stand for. There is a free slot. -/
structure AvlTreeIterator.Ahead (it : AvlTreeIterator K V) (nodes : List (AvlNode K V))
    (ps : List (AvlKey K × V)) : Prop where
  stack : ∃ rest, it.stack = nodes.map some ++ rest
  length_stack : it.stack.length = it.stackSize
  top : it.top = nodes.length
  top_lt : it.top < it.stackSize
  ne_nil : ∀ n ∈ nodes, n ≠ .nil
  pairs : nodes.reverse.flatMap AvlNode.onward = ps

namespace AvlTreeIterator.Ahead

/-- Pushing the current node. -/
theorem push {it : AvlTreeIterator K V} {nodes : List (AvlNode K V)} {ps : List (AvlKey K × V)}
    (h : it.Ahead nodes ps) (node : AvlNode K V) (hnode : node ≠ .nil) :
    ∃ it', avlIteratorPush { it with current := node } = some it' ∧
      it'.Ahead (nodes ++ [node]) (node.onward ++ ps) := by
  obtain ⟨rest, hstack⟩ := h.stack
  have hpairs : (nodes ++ [node]).reverse.flatMap AvlNode.onward = node.onward ++ ps := by
    rw [List.reverse_append, List.reverse_singleton, List.singleton_append, List.flatMap_cons,
      h.pairs]
  have hne : ∀ n ∈ nodes ++ [node], n ≠ .nil := by
    intro n hn
    rcases List.mem_append.mp hn with hn | hn
    · exact h.ne_nil n hn
    · rwa [List.mem_singleton.mp hn]
  cases rest with
  | nil =>
    -- there is a free slot
    have hlen := h.length_stack
    have htop := h.top_lt
    rw [hstack, List.append_nil, List.length_map, ← h.top] at hlen
    omega
  | cons x rest =>
    have hwrite : write it.stack it.top (some node) =
        some ((nodes ++ [node]).map some ++ rest) := by
      have hmid := write_mid (nodes.map some) rest x (some node)
      rw [List.length_map, ← h.top, ← hstack] at hmid
      rw [hmid, List.map_append]
      simp
    have hlen : ((nodes ++ [node]).map some ++ rest).length = it.stackSize := by
      rw [← h.length_stack, hstack]
      simp only [List.length_append, List.length_map, List.length_cons, List.length_nil]
      omega
    have htop : it.top + 1 = (nodes ++ [node]).length := by
      rw [List.length_append, List.length_singleton, h.top]
    rw [avlIteratorPush]
    simp only [hwrite, Option.map_some]
    split_ifs with hfull
    · refine ⟨_, rfl, ⟨rest ++ List.replicate it.stackSize none, List.append_assoc _ _ _⟩, ?_, htop,
        ?_, hne, hpairs⟩
      · simp only [List.length_append, List.length_replicate] at hlen ⊢
        omega
      · simp only
        omega
    · refine ⟨_, rfl, ⟨rest, rfl⟩, hlen, htop, ?_, hne, hpairs⟩
      have hlt := h.top_lt
      simp only
      omega

/-- The loop pushes the left spine. -/
theorem descend : ∀ (node : AvlNode K V) {it : AvlTreeIterator K V} {nodes : List (AvlNode K V)}
    {ps : List (AvlKey K × V)}, it.Ahead nodes ps →
    ∃ it' nodes', avlIteratorDescend node it = some it' ∧ it'.Ahead nodes' (node.pairs ++ ps) := by
  intro node
  induction node with
  | nil => exact fun {it nodes ps} h ↦ ⟨{ it with current := .nil }, nodes, rfl, { h with }⟩
  | node l k v ht r ihl _ =>
    intro it nodes ps h
    obtain ⟨it₁, hpush, h₁⟩ := h.push (.node l k v ht r) (by simp)
    obtain ⟨it', nodes', hdesc, h'⟩ := ihl h₁
    refine ⟨it', nodes', by rw [avlIteratorDescend, hpush, Option.bind_some, hdesc], ?_⟩
    rw [AvlNode.pairs, List.append_assoc]
    exact h'

theorem next_cons {it : AvlTreeIterator K V} {nodes : List (AvlNode K V)} {p : AvlKey K × V}
    {ps : List (AvlKey K × V)} (getValue : Option (V → W)) (h : it.Ahead nodes (p :: ps)) :
    ∃ it' nodes', avlTreeIteratorNext getValue it =
      some (it', some (avlIteratorPair getValue p)) ∧ it'.Ahead nodes' ps := by
  induction nodes using List.reverseRecOn with
  | nil => cases h.pairs
  | append_singleton nodes node _ =>
    have hpairs := h.pairs
    rw [List.reverse_append, List.reverse_singleton, List.singleton_append,
      List.flatMap_cons] at hpairs
    cases node with
    | nil => exact absurd rfl (h.ne_nil .nil (by simp))
    | node l k v ht r =>
      obtain ⟨rfl, rfl⟩ := List.cons.inj hpairs
      obtain ⟨rest, hstack⟩ := h.stack
      have htop : it.top = nodes.length + 1 := by rw [h.top, List.length_append]; rfl
      have hread : read it.stack (it.top - 1) = some (.node l k v ht r) := by
        rw [htop, Nat.add_sub_cancel, hstack]
        exact read_map_some (by simp) rest
      have hpop : ({ it with current := r, top := it.top - 1 } : AvlTreeIterator K V).Ahead nodes
          (nodes.reverse.flatMap AvlNode.onward) := by
        refine ⟨⟨some (.node l k v ht r) :: rest, ?_⟩, h.length_stack, ?_, ?_,
          fun n hn ↦ h.ne_nil n (List.mem_append_left _ hn), rfl⟩
        · rw [hstack]
          simp
        · simp only [htop, Nat.add_sub_cancel]
        · have hlt := h.top_lt
          simp only
          omega
      obtain ⟨it', nodes', hdesc, h'⟩ := hpop.descend r
      refine ⟨it', nodes', ?_, h'⟩
      rw [avlTreeIteratorNext, if_neg (by omega), hread, Option.bind_some]
      simp only [hdesc, Option.map_some]

theorem top_eq_zero_iff {it : AvlTreeIterator K V} {nodes : List (AvlNode K V)}
    {ps : List (AvlKey K × V)} (h : it.Ahead nodes ps) : it.top = 0 ↔ ps = [] := by
  rw [h.top, ← h.pairs, List.length_eq_zero_iff]
  constructor
  · rintro rfl
    rfl
  · intro hnil
    rw [List.flatMap_eq_nil_iff] at hnil
    refine List.eq_nil_iff_forall_not_mem.mpr fun n hn ↦ ?_
    have hempty := hnil n (List.mem_reverse.mpr hn)
    cases n with
    | nil => exact h.ne_nil _ hn rfl
    | node _ _ _ _ _ => cases hempty

/-- **Any number of calls of `next`** hand out the pairs in turn, and NULL behind them. -/
theorem run_next (getValue : Option (V → W)) : ∀ (n : ℕ) {it : AvlTreeIterator K V}
    {nodes : List (AvlNode K V)} {ps : List (AvlKey K × V)}, it.Ahead nodes ps →
    ∃ it' nodes', run (avlNextStep getValue) it (List.replicate n ()) = some (it',
        (List.range n).map fun i ↦ ps[i]?.map (avlIteratorPair getValue)) ∧
      it'.Ahead nodes' (ps.drop n) := by
  intro n
  induction n with
  | zero => exact fun {it nodes ps} h ↦ ⟨it, nodes, rfl, h⟩
  | succ n ih =>
    intro it nodes ps h
    cases ps with
    | nil =>
      have hnext : avlNextStep getValue it () = some (it, none) :=
        if_pos (h.top_eq_zero_iff.mpr rfl)
      obtain ⟨it', nodes', hrun, h'⟩ := ih h
      refine ⟨it', nodes', ?_, by rwa [List.drop_nil] at h' ⊢⟩
      rw [List.replicate_succ, run_cons_of_step hnext, hrun, Option.map_some,
        List.range_succ_eq_map, List.map_cons, List.map_map]
      rfl
    | cons p ps =>
      obtain ⟨it₁, nodes₁, hnext, h₁⟩ := h.next_cons getValue
      obtain ⟨it', nodes', hrun, h'⟩ := ih h₁
      have hstep : avlNextStep getValue it () = some (it₁, _) := hnext
      refine ⟨it', nodes', ?_, h'⟩
      rw [List.replicate_succ, run_cons_of_step hstep, hrun, Option.map_some,
        List.range_succ_eq_map, List.map_cons, List.map_map]
      rfl

end AvlTreeIterator.Ahead

/-- A new iterator has everything ahead. -/
theorem avlTreeIteratorNew_ahead (tree : AvlTree K V) :
    ∃ it nodes, avlTreeIteratorNew tree = some it ∧ it.Ahead nodes tree.root.pairs := by
  have hempty : (⟨tree.root, List.replicate 16 none, 16, 0⟩ : AvlTreeIterator K V).Ahead [] [] :=
    ⟨⟨_, rfl⟩, rfl, rfl, Nat.zero_lt_succ 15, by simp, rfl⟩
  obtain ⟨it, nodes, hnew, h⟩ := hempty.descend tree.root
  exact ⟨it, nodes, hnew, by rwa [List.append_nil] at h⟩

section Iterate

variable [LinearOrder K]

/-- **Iteration.** After any puts the iterator hands out the distinct keys in strictly ascending order
and then NULL, its stack index stays within its stack, and the size, where it is an `int`, is their
number. -/
theorem avl_iterate (type : AvlTreeType K) (getValue : Option (V → W)) (puts : List (K × V)) :
    ∃ tree it, ∃ pairs : List (AvlKey K × V),
      run (avlPutStep type) avlTreeNew puts = some (tree, avlPutReplies [] puts) ∧
      avlTreeIteratorNew tree = some it ∧ (pairs.map fun e ↦ e.1.content).Pairwise (· < ·) ∧
      (∀ k, k ∈ pairs.map (fun e ↦ e.1.content) ↔ k ∈ puts.map Prod.fst) ∧
      avlTreeSize tree = (if pairs.length < 2 ^ 31 then some (pairs.length : ℤ) else none) ∧
      ∀ n, ∃ it', run (avlNextStep getValue) it (List.replicate n ()) = some (it',
          (List.range n).map fun i ↦ pairs[i]?.map (avlIteratorPair getValue)) ∧
        (avlTreeIteratorHasNext it' = true ↔ n < pairs.length) ∧
        it'.top ≤ it'.stackSize ∧ it'.stack.length = it'.stackSize := by
  obtain ⟨tree, hrun, hbuilt, -⟩ := avlTree_putAll type puts
  obtain ⟨it, nodes, hnew, hahead⟩ := avlTreeIteratorNew_ahead tree
  have hkeys : tree.root.pairs.map (fun e ↦ e.1.content) = tree.root.inorder.map Prod.fst := by
    rw [AvlNode.inorder_eq_map, List.map_map]
    rfl
  refine ⟨tree, it, tree.root.pairs, hrun, hnew, ?_, fun k ↦ ?_, ?_, fun n ↦ ?_⟩
  · rw [hkeys, List.pairwise_map]
    exact hbuilt.sorted
  · rw [hkeys, hbuilt.inorder_eq, mem_keys_putAll]
  · have hlen : nodeLength tree.root = tree.root.pairs.length := by
      rw [← AvlNode.length_inorder, AvlNode.inorder_eq_map, List.length_map]
    rw [avlTreeSize, hlen]
  · obtain ⟨it', nodes', hnext, h⟩ := hahead.run_next getValue n
    refine ⟨it', hnext, ?_, h.top_lt.le, h.length_stack⟩
    rw [avlTreeIteratorHasNext, decide_eq_true_iff, Nat.pos_iff_ne_zero, Ne, h.top_eq_zero_iff,
      List.drop_eq_nil_iff, not_le]

end Iterate

/-- 2³¹ keys are too many for `avl_tree_size`. -/
theorem avl_size_overflows : ∃ tree replies,
    run (avlPutStep avlIntTreeType) avlTreeNew
        ((List.range (2 ^ 31)).map fun i : ℕ ↦ ((i : ℤ), ())) = some (tree, replies) ∧
      nodeLength tree.root = 2 ^ 31 ∧ avlTreeSize tree = none := by
  obtain ⟨tree, hrun, hbuilt, -⟩ := avlTree_putAll avlIntTreeType
    ((List.range (2 ^ 31)).map fun i : ℕ ↦ ((i : ℤ), ()))
  have hnodup : (((List.range (2 ^ 31)).map fun i : ℕ ↦ ((i : ℤ), ())).map Prod.fst).Nodup := by
    rw [List.map_map]
    exact List.Nodup.map (fun a b hab ↦ Int.ofNat.inj hab) List.nodup_range
  have hlen : nodeLength tree.root = 2 ^ 31 := by
    rw [← AvlNode.length_inorder, hbuilt.inorder_eq, length_putAll,
      List.toFinset_card_of_nodup hnodup, List.length_map, List.length_map, List.length_range]
  exact ⟨tree, _, hrun, hlen, by rw [avlTreeSize, hlen, if_neg (lt_irrefl _)]⟩

end LatteC
