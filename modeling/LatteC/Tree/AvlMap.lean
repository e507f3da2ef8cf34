import LatteC.Tree.Avl
import LatteC.Foundation.CallMachine
import Mathlib.Algebra.Order.Group.Unbundled.Int

/-!
# What the AVL tree keeps of a map

The laws a caller of `src/tree/avl_tree.c` expects, and how far the code meets them. Putting is right:
the entries, read from left to right, are a sorted association list that `avl_tree_put` updates. The
two slips described with the model spoil the rest: only the key of the root is ever found, so
`avl_tree_get` knows the first key that was put and no other; no height above 1 is stored, so the
second put already leaves a wrong one; and a removal is right only where little can go wrong.
-/

namespace LatteC

open SortedAssoc CallMachine

variable {K V : Type} [LinearOrder K]

/-! ## Puts -/

/-- The tree is well formed, and these are its entries. -/
structure AvlTree.Built (tree : AvlTree K V) (entries : List (K × V)) : Prop where
  low : tree.root.Low
  sorted : Sorted tree.root.inorder
  alive : tree.root.Alive tree.heap
  freed : ∀ i ∈ tree.heap.freed, i < tree.heap.fresh
  inorder_eq : tree.root.inorder = entries

/-- The key at the root. -/
def AvlTree.rootKey (tree : AvlTree K V) : Option K := tree.root.key?.map AvlKey.content

theorem avlTreeNew_built : (avlTreeNew : AvlTree K V).Built [] where
  low := trivial
  sorted := sorted_nil
  alive := fun _ hk ↦ absurd hk List.not_mem_nil
  freed := fun _ hi ↦ absurd hi List.not_mem_nil
  inorder_eq := rfl

section Put

variable (type : AvlTreeType K)

/-- The root keeps its key and takes the height of its left child. -/
theorem avlNodeInsert_root {heap : AvlHeap} {l r : AvlNode K V} {k : AvlKey K} {v : V} {ht : ℤ}
    {key : K} {value : V} {res : AvlNode K V × AvlHeap × ℤ}
    (hfreed : ∀ i ∈ heap.freed, i < heap.fresh) (hlow : (AvlNode.node l k v ht r).Low)
    (hsorted : Sorted (AvlNode.node l k v ht r).inorder)
    (halive : (AvlNode.node l k v ht r).Alive heap)
    (hins : avlNodeInsert type key value (.node l k v ht r) heap = some res) :
    ∃ l' v' r', res.1 = .node l' k v' (avlNodeGetHeight l') r' := by
  obtain ⟨hl, -, hr⟩ := hlow
  obtain ⟨hsl, hsr, -, -⟩ := sorted_mid hsorted
  obtain ⟨hal, hread, har⟩ := halive.node
  rw [avlNodeInsert, hread, Option.bind_some] at hins
  split_ifs at hins
  · obtain ⟨l', fresh', hl', -, hlow', -, -⟩ := avlNodeInsert_spec type key value hfreed hl hsl hal
    rw [hl', Option.bind_some, avlInsertRebalance_eq hlow' hr, Option.map_some] at hins
    exact ⟨l', v, r, (congrArg Prod.fst (Option.some.inj hins)).symm⟩
  · obtain ⟨r', fresh', hr', -, hlow', -, -⟩ := avlNodeInsert_spec type key value hfreed hr hsr har
    rw [hr', Option.bind_some, avlInsertRebalance_eq hl hlow', Option.map_some] at hins
    exact ⟨l, v, r', (congrArg Prod.fst (Option.some.inj hins)).symm⟩
  · rw [avlInsertRebalance_eq hl hr, Option.map_some] at hins
    exact ⟨l, value, r, (congrArg Prod.fst (Option.some.inj hins)).symm⟩

/-- **Putting** is `put` on the entries. The root keeps its key, and a root that was there before has
the height of its left child. -/
theorem AvlTree.Built.put {tree : AvlTree K V} {entries : List (K × V)} (h : tree.Built entries)
    (key : K) (value : V) :
    ∃ tree', avlTreePut type tree key value =
        some (tree', if key ∈ entries.map Prod.fst then 0 else 1) ∧
      tree'.Built (put key value entries) ∧ tree'.rootKey = tree.rootKey.or (some key) ∧
      (entries ≠ [] → ∃ l k v r, tree'.root = .node l k v (avlNodeGetHeight l) r) := by
  obtain ⟨hlow, hsorted, halive, hfreed, rfl⟩ := h
  obtain ⟨root, fresh, hins, hfresh, hlow', hin, halive'⟩ :=
    avlNodeInsert_spec type key value hfreed hlow hsorted halive
  refine ⟨⟨root, fresh, tree.heap.freed⟩, by rw [avlTreePut, hins, Option.map_some],
    ⟨hlow', by rw [hin]; exact sorted_put hsorted, halive',
      fun i hi ↦ (hfreed i hi).trans_le hfresh, hin⟩, ?_⟩
  obtain ⟨node, heap⟩ := tree
  cases node with
  | nil =>
    obtain rfl := congrArg Prod.fst (Option.some.inj hins)
    exact ⟨rfl, fun hne ↦ absurd rfl hne⟩
  | node l k v ht r =>
    obtain ⟨l', v', r', rfl⟩ := avlNodeInsert_root type hfreed hlow hsorted halive hins
    exact ⟨rfl, fun _ ↦ ⟨l', k, v', r', rfl⟩⟩

/-- `avl_tree_put` as a call. -/
def avlPutStep (tree : AvlTree K V) (entry : K × V) : Option (AvlTree K V × ℤ) :=
  avlTreePut type tree entry.1 entry.2

/-- What the puts have to return: 1 for a new key, 0 for one that was put before or is in `seen`. -/
def avlPutReplies (seen : List K) : List (K × V) → List ℤ
  | [] => []
  | (key, _) :: puts => (if key ∈ seen then 0 else 1) :: avlPutReplies (key :: seen) puts

/-- **A run of puts.** -/
theorem AvlTree.Built.foldl_put : ∀ (puts : List (K × V)) {tree : AvlTree K V}
    {entries : List (K × V)} {seen : List K}, tree.Built entries →
    (∀ k, k ∈ seen ↔ k ∈ entries.map Prod.fst) →
    ∃ tree', run (avlPutStep type) tree puts = some (tree', avlPutReplies seen puts) ∧
      tree'.Built (puts.foldl (fun es e ↦ SortedAssoc.put e.1 e.2 es) entries) ∧
      tree'.rootKey = tree.rootKey.or (puts.head?.map Prod.fst) := by
  intro puts
  induction puts with
  | nil =>
    intro tree entries seen h _
    exact ⟨tree, rfl, h, by simp⟩
  | cons e puts ih =>
    intro tree entries seen h hseen
    obtain ⟨key, value⟩ := e
    obtain ⟨tree₁, hput, hbuilt, hroot, -⟩ := h.put type key value
    have hseen₁ : ∀ k, k ∈ key :: seen ↔ k ∈ (SortedAssoc.put key value entries).map Prod.fst := by
      intro k
      rw [List.mem_cons, hseen k, mem_keys_put]
    obtain ⟨tree', hrun, hbuilt', hroot'⟩ := ih hbuilt hseen₁
    refine ⟨tree', ?_, hbuilt', ?_⟩
    · rw [run_cons_of_step hput, hrun, Option.map_some, avlPutReplies]
      simp only [hseen]
    · rw [hroot', hroot]
      cases tree.rootKey <;> simp

/-- The tree after any puts. -/
theorem avlTree_putAll (puts : List (K × V)) :
    ∃ tree, run (avlPutStep type) avlTreeNew puts = some (tree, avlPutReplies [] puts) ∧
      tree.Built (putAll puts) ∧ tree.rootKey = puts.head?.map Prod.fst :=
  avlTreeNew_built.foldl_put type puts fun _ ↦ Iff.rfl

end Put

/-- `KeyOperator` of the tests. -/
def keyOperator (k k2 : ℤ) : ℤ :=
  let r := k - k2
  if 0 < r then 1 else if r < 0 then -1 else 0

/-- `treeType` of the tests: the keys are numbers, which nobody frees. -/
def avlIntTreeType : AvlTreeType ℤ where
  operator := keyOperator
  ownsKeys := false
  operator_neg_iff a b := by
    simp only [keyOperator]
    split_ifs <;> omega
  operator_pos_iff a b := by
    simp only [keyOperator]
    split_ifs <;> omega

/-! ## Looking up what was put -/

section Get

variable (type : AvlTreeType K)

/-- The map law for the puts and a key: every put says whether its key was new, and the lookup
returns a node with the key and the value last put under it, or NULL if there is none. -/
def AvlMapLaw (puts : List (K × V)) (key : K) : Prop :=
  ∃ tree node, run (avlPutStep type) avlTreeNew puts = some (tree, avlPutReplies [] puts) ∧
    avlTreeGet type tree key = some node ∧
    node.map (fun e ↦ (e.1.content, e.2)) = (lastStored key puts).map (key, ·)

/-- What a lookup returns: the root is found, and nothing else. -/
theorem AvlTree.Built.avlTreeGet_eq {tree : AvlTree K V} {entries : List (K × V)}
    (h : tree.Built entries) (key : K) :
    ∃ node, avlTreeGet type tree key = some node ∧ node.map (fun e ↦ (e.1.content, e.2)) =
      if tree.rootKey = some key then (get key entries).map (key, ·) else none := by
  obtain ⟨-, hsorted, halive, -, rfl⟩ := h
  obtain ⟨root, heap⟩ := tree
  cases root with
  | nil => exact ⟨none, rfl, rfl⟩
  | node l k v ht r =>
    refine ⟨_, avlNodeSearch_node type key hsorted halive, ?_⟩
    by_cases hk : key = k.content
    · obtain ⟨-, -, hlt, -⟩ := sorted_mid hsorted
      subst hk
      have hroot : (⟨.node l k v ht r, heap⟩ : AvlTree K V).rootKey = some k.content := rfl
      rw [if_pos rfl, if_pos hroot, AvlNode.inorder, get_append_of_ne fun a ha ↦ (hlt a ha).ne',
        get_cons_self]
      rfl
    · have hroot : ¬(⟨.node l k v ht r, heap⟩ : AvlTree K V).rootKey = some key :=
        fun hroot ↦ hk (Option.some.inj hroot).symm
      rw [if_neg hk, if_neg hroot]
      rfl

theorem lastStored_eq_none_iff (key : K) (puts : List (K × V)) :
    lastStored key puts = none ↔ key ∉ puts.map Prod.fst := by
  rw [lastStored, Option.map_eq_none_iff, List.getLast?_eq_none_iff, List.filter_eq_nil_iff]
  simp only [decide_eq_true_eq, List.mem_map, not_exists, not_and]

/-- **The map law** holds for the keys that were never put, and for the first one that was. -/
theorem avl_map_law_iff (puts : List (K × V)) (key : K) :
    AvlMapLaw type puts key ↔ (key ∈ puts.map Prod.fst → puts.head?.map Prod.fst = some key) := by
  obtain ⟨tree, hrun, hbuilt, hroot⟩ := avlTree_putAll type puts
  obtain ⟨node, hget, hnode⟩ := hbuilt.avlTreeGet_eq type key
  rw [get_putAll, hroot] at hnode
  have hlaw : AvlMapLaw type puts key ↔
      node.map (fun e ↦ (e.1.content, e.2)) = (lastStored key puts).map (key, ·) := by
    constructor
    · rintro ⟨tree', node', hrun', hget', heq⟩
      obtain rfl : tree = tree' := congrArg Prod.fst (Option.some.inj (hrun.symm.trans hrun'))
      obtain rfl : node = node' := Option.some.inj (hget.symm.trans hget')
      exact heq
    · exact fun heq ↦ ⟨tree, node, hrun, hget, heq⟩
  rw [hlaw, hnode]
  by_cases hfirst : puts.head?.map Prod.fst = some key
  · simp [hfirst]
  · rw [if_neg hfirst, eq_comm, Option.map_eq_none_iff, lastStored_eq_none_iff]
    exact ⟨fun hmem h ↦ absurd h hmem, fun h hmem ↦ hfirst (h hmem)⟩

end Get

/-- The key 5 is put second, and not found. -/
theorem avl_map_law_fails : ¬AvlMapLaw avlIntTreeType [(10, ()), (5, ())] 5 := by
  rintro ⟨tree, node, hrun, hget, hnode⟩
  obtain rfl := congrArg Prod.fst (Option.some.inj hrun)
  obtain rfl := Option.some.inj hget
  cases hnode

/-! ## Balance -/

namespace AvlNode

/-- The height of a subtree, counted in nodes. -/
def realHeight : AvlNode K V → ℤ
  | nil => 0
  | node l _ _ _ r => 1 + max l.realHeight r.realHeight

/-- Every stored height is the real one, and the heights of siblings differ by at most one. -/
def Balanced : AvlNode K V → Prop
  | nil => True
  | node l k v h r => l.Balanced ∧ r.Balanced ∧ h = (node l k v h r).realHeight ∧
      |l.realHeight - r.realHeight| ≤ 1

omit [LinearOrder K] in
theorem Balanced.height {node : AvlNode K V} (h : node.Balanced) :
    avlNodeGetHeight node = node.realHeight := by
  cases node with
  | nil => rfl
  | node l k v ht r => exact h.2.2.1

omit [LinearOrder K] in
/-- A node with the height of its left child is never balanced. -/
theorem not_balanced_of_height_left (l : AvlNode K V) (k : AvlKey K) (v : V) (r : AvlNode K V) :
    ¬(node l k v (avlNodeGetHeight l) r).Balanced := by
  rintro ⟨hl, -, hheight, -⟩
  rw [hl.height, realHeight] at hheight
  have hle := le_max_left l.realHeight r.realHeight
  omega

end AvlNode

section Balance

variable (type : AvlTreeType K)

/-- **Balance** outlasts one put and no second one. -/
theorem avl_balanced_iff (puts : List (K × V)) :
    (∃ tree replies, run (avlPutStep type) avlTreeNew puts = some (tree, replies) ∧
      tree.root.Balanced) ↔ puts.length ≤ 1 := by
  induction puts using List.reverseRecOn with
  | nil => exact iff_of_true ⟨avlTreeNew, [], rfl, trivial⟩ (Nat.zero_le 1)
  | append_singleton puts e _ =>
    obtain ⟨tree, hrun, hbuilt, -⟩ := avlTree_putAll type puts
    obtain ⟨tree', hput, -, -, hheight⟩ := hbuilt.put type e.1 e.2
    have hstep : avlPutStep type tree e = some (tree', _) := hput
    obtain ⟨replies, hrun'⟩ :
        ∃ replies, run (avlPutStep type) avlTreeNew (puts ++ [e]) = some (tree', replies) := by
      rw [run_append, hrun, Option.bind_some, run_cons_of_step hstep]
      exact ⟨_, rfl⟩
    rw [hrun']
    cases puts with
    | nil =>
      obtain rfl : avlTreeNew = tree := congrArg Prod.fst (Option.some.inj hrun)
      obtain rfl := congrArg Prod.fst (Option.some.inj hstep)
      refine iff_of_true ⟨_, _, rfl, trivial, trivial, rfl, ?_⟩ le_rfl
      simp [AvlNode.realHeight]
    | cons a puts =>
      have hne : putAll (a :: puts) ≠ [] := by
        intro hnil
        have hmem := (mem_keys_putAll a.1 (a :: puts)).mpr (by simp)
        rw [hnil] at hmem
        exact List.not_mem_nil hmem
      obtain ⟨l, k, v, r, hroot⟩ := hheight hne
      refine iff_of_false ?_ (by simp)
      rintro ⟨tree'', replies, heq, hbal⟩
      obtain rfl : tree' = tree'' := congrArg Prod.fst (Option.some.inj heq)
      rw [hroot] at hbal
      exact AvlNode.not_balanced_of_height_left l k v r hbal

end Balance

/-- With 5 to the left of 10 the height stored at 10 is 1. -/
theorem avl_balanced_fails : ¬∃ tree replies,
    run (avlPutStep avlIntTreeType) avlTreeNew [(10, ()), (5, ())] = some (tree, replies) ∧
      tree.root.Balanced := by
  rintro ⟨tree, replies, hrun, hbal⟩
  obtain rfl := congrArg Prod.fst (Option.some.inj hrun)
  exact AvlNode.not_balanced_of_height_left _ _ _ _ hbal

end LatteC
