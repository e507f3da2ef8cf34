import LatteC.Foundation.SortedAssoc
import Mathlib.Tactic.SplitIfs

/-!
# The AVL tree

`src/tree/avl_tree.c`. Two slips shape everything about it.

* `#define max(a,b) a < b? b: a` has no parentheses, so `1 + max(l, r)` reads `(1 + l) < r ? r : l`.
  Heights never leave 0 and 1, balances never leave -1 to 1, and no insertion or removal ever rotates:
  what is built is an unbalanced search tree.
* `avl_node_search` and `delete_child_node` descend to the wrong side, so they only ever find the
  root.

## Modelling

A node is a value with its children inside it. Its `key` is a pointer: the content, which is never
changed, together with an identity, so that two nodes may share one key. The heap records which keys
have been freed; reading one of these is a fault, and so is freeing it again. A function that
faults returns `none`.
-/

namespace LatteC

open SortedAssoc

/-- `avl_tree_type_t`, with the contract of its comparison. `ownsKeys` says that `create_node` copies
the key and `release_node` frees it. -/
structure AvlTreeType (K : Type) [LinearOrder K] where
  operator : K → K → ℤ
  ownsKeys : Bool
  operator_neg_iff : ∀ a b, operator a b < 0 ↔ a < b
  operator_pos_iff : ∀ a b, 0 < operator a b ↔ b < a

/-- The `void* key` of a node. -/
structure AvlKey (K : Type) where
  id : ℕ
  content : K

/-- `avl_node_t` and what a caller's node type has behind it; `nil` is the NULL pointer. -/
inductive AvlNode (K V : Type) where
  | nil
  | node (left : AvlNode K V) (key : AvlKey K) (value : V) (height : ℤ) (right : AvlNode K V)

/-- The allocations of keys. -/
structure AvlHeap where
  fresh : ℕ
  freed : List ℕ

/-- `avl_tree_t`. -/
structure AvlTree (K V : Type) where
  root : AvlNode K V
  heap : AvlHeap

variable {K V : Type}

/-- Following a key pointer. -/
def avlKeyRead (heap : AvlHeap) (key : AvlKey K) : Option K :=
  if key.id ∈ heap.freed then none else some key.content

/-- `max(a,b) + 1`, as the preprocessor leaves it. -/
def avlMaxPlusOne (a b : ℤ) : ℤ := if a < b then b else a + 1

/-- `1 + max(a,b)`, as the preprocessor leaves it. -/
def avlOnePlusMax (a b : ℤ) : ℤ := if 1 + a < b then b else a

/-- `avl_node_get_height`. -/
def avlNodeGetHeight : AvlNode K V → ℤ
  | .nil => 0
  | .node _ _ _ h _ => h

/-- `get_balance`. -/
def getBalance : AvlNode K V → ℤ
  | .nil => 0
  | .node l _ _ _ r => avlNodeGetHeight l - avlNodeGetHeight r

/-- `rotate_right`. -/
def avlRotateRight : AvlNode K V → Option (AvlNode K V)
  | .node (.node xl xk xv _ t2) yk yv _ yr =>
    let yh := avlMaxPlusOne (avlNodeGetHeight t2) (avlNodeGetHeight yr)
    some (.node xl xk xv (avlMaxPlusOne (avlNodeGetHeight xl) yh) (.node t2 yk yv yh yr))
  | _ => none

/-- `rotate_left`. -/
def avlRotateLeft : AvlNode K V → Option (AvlNode K V)
  | .node xl xk xv _ (.node t2 yk yv _ yr) =>
    let xh := avlMaxPlusOne (avlNodeGetHeight xl) (avlNodeGetHeight t2)
    some (.node (.node xl xk xv xh t2) yk yv (avlMaxPlusOne xh (avlNodeGetHeight yr)) yr)
  | _ => none

/-- The key of a node that is not NULL. -/
def AvlNode.key? : AvlNode K V → Option (AvlKey K)
  | .nil => none
  | .node _ k _ _ _ => some k

section Model

variable [LinearOrder K] (type : AvlTreeType K)

/-- The end of `avl_node_insert`, on a node given by its other fields: the height is set anew, and
the four cases of rebalancing follow. -/
def avlInsertRebalance (heap : AvlHeap) (key : K) (l : AvlNode K V) (k : AvlKey K) (v : V)
    (r : AvlNode K V) : Option (AvlNode K V) :=
  let height := avlOnePlusMax (avlNodeGetHeight l) (avlNodeGetHeight r)
  let balance := avlNodeGetHeight l - avlNodeGetHeight r
  if 1 < balance then
    (l.key?.bind (avlKeyRead heap)).bind fun lk ↦
      if 0 < type.operator key lk then avlRotateRight (.node l k v height r)
      else if type.operator key lk < 0 then
        (avlRotateLeft l).bind fun l ↦ avlRotateRight (.node l k v height r)
      else some (.node l k v height r)
  else if balance < -1 then
    (r.key?.bind (avlKeyRead heap)).bind fun rk ↦
      if type.operator key rk < 0 then avlRotateLeft (.node l k v height r)
      else if 0 < type.operator key rk then
        (avlRotateRight r).bind fun r ↦ avlRotateLeft (.node l k v height r)
      else some (.node l k v height r)
  else some (.node l k v height r)

/-- `avl_node_insert`. The number is `*puted`. -/
def avlNodeInsert (key : K) (value : V) :
    AvlNode K V → AvlHeap → Option (AvlNode K V × AvlHeap × ℤ)
  | .nil, heap =>
    some (.node .nil ⟨heap.fresh, key⟩ value 1 .nil, { heap with fresh := heap.fresh + 1 }, 1)
  | .node l k v _ r, heap =>
    (avlKeyRead heap k).bind fun nodeKey ↦
      if type.operator key nodeKey < 0 then
        (avlNodeInsert key value l heap).bind fun res ↦
          (avlInsertRebalance type res.2.1 key res.1 k v r).map fun node ↦ (node, res.2)
      else if 0 < type.operator key nodeKey then
        (avlNodeInsert key value r heap).bind fun res ↦
          (avlInsertRebalance type res.2.1 key l k v res.1).map fun node ↦ (node, res.2)
      else (avlInsertRebalance type heap key l k value r).map fun node ↦ (node, heap, 0)

/-- `avl_tree_put`. -/
def avlTreePut (tree : AvlTree K V) (key : K) (value : V) : Option (AvlTree K V × ℤ) :=
  (avlNodeInsert type key value tree.root tree.heap).map fun r ↦ (⟨r.1, r.2.1⟩, r.2.2)

/-- `avl_node_search`. -/
def avlNodeSearch (heap : AvlHeap) (key : K) : AvlNode K V → Option (Option (AvlKey K × V))
  | .nil => some none
  | .node l k v _ r =>
    (avlKeyRead heap k).bind fun nodeKey ↦
      let result := type.operator nodeKey key
      if result = 0 then some (some (k, v))
      else if result < 0 then avlNodeSearch heap key l
      else avlNodeSearch heap key r

/-- `avl_tree_get`. -/
def avlTreeGet (tree : AvlTree K V) (key : K) : Option (Option (AvlKey K × V)) :=
  avlNodeSearch type tree.heap key tree.root

/-- The key of `find_min_value_node`. -/
def findMinValueNode : AvlNode K V → Option (AvlKey K)
  | .nil => none
  | .node .nil k _ _ _ => some k
  | .node l _ _ _ _ => findMinValueNode l

/-- `release_node`. -/
def avlReleaseNode (heap : AvlHeap) (key : AvlKey K) : Option AvlHeap :=
  if type.ownsKeys then
    if key.id ∈ heap.freed then none else some { heap with freed := key.id :: heap.freed }
  else some heap

/-- The end of `delete_child_node`. -/
def avlDeleteRebalance (l : AvlNode K V) (k : AvlKey K) (v : V) (r : AvlNode K V) :
    Option (AvlNode K V) :=
  let height := avlOnePlusMax (avlNodeGetHeight l) (avlNodeGetHeight r)
  let balance := avlNodeGetHeight l - avlNodeGetHeight r
  if 1 < balance then
    if 0 ≤ getBalance l then avlRotateRight (.node l k v height r)
    else (avlRotateLeft l).bind fun l ↦ avlRotateRight (.node l k v height r)
  else if balance < -1 then
    if getBalance r ≤ 0 then avlRotateLeft (.node l k v height r)
    else (avlRotateRight r).bind fun r ↦ avlRotateLeft (.node l k v height r)
  else some (.node l k v height r)

/-- `delete_child_node`. The flag is `*deleted`. With one child, `*node = *temp` overwrites the fields
of `avl_node_t`, the key among them, and `release_node(temp)` then frees that very key. -/
def deleteChildNode : (key : K) → AvlNode K V → AvlHeap → Option (AvlNode K V × AvlHeap × Bool)
  | _, .nil, heap => some (.nil, heap, false)
  | key, .node l k v _ r, heap =>
    (avlKeyRead heap k).bind fun nodeKey ↦
      if 0 < type.operator key nodeKey then
        (deleteChildNode key l heap).bind fun res ↦
          (avlDeleteRebalance res.1 k v r).map fun node ↦ (node, res.2)
      else if type.operator key nodeKey < 0 then
        (deleteChildNode key r heap).bind fun res ↦
          (avlDeleteRebalance l k v res.1).map fun node ↦ (node, res.2)
      else
        match l, r with
        | .nil, .nil => (avlReleaseNode type heap k).map fun heap ↦ (.nil, heap, true)
        | .node tl tk _ _ tr, .nil | .nil, .node tl tk _ _ tr =>
          (avlReleaseNode type heap tk).bind fun heap ↦
            (avlDeleteRebalance tl tk v tr).map fun node ↦ (node, heap, true)
        | .node _ _ _ _ _, .node _ _ _ _ _ =>
          (findMinValueNode r).bind fun temp ↦
            (avlKeyRead heap temp).bind fun tempKey ↦
              (deleteChildNode tempKey r heap).bind fun res ↦
                (avlDeleteRebalance l temp v res.1).map fun node ↦ (node, res.2)

/-- `avl_tree_remove`. -/
def avlTreeRemove (tree : AvlTree K V) (key : K) : Option (AvlTree K V × ℤ) :=
  (deleteChildNode type key tree.root tree.heap).map fun r ↦
    (⟨r.1, r.2.1⟩, if r.2.2 then 1 else 0)

/-- `avl_node_recursively`, which releases a node after its children. -/
def avlNodeRecursively : AvlNode K V → AvlHeap → Option AvlHeap
  | .nil, heap => some heap
  | .node l k _ _ r, heap =>
    (avlNodeRecursively l heap).bind fun heap ↦
      (avlNodeRecursively r heap).bind fun heap ↦ avlReleaseNode type heap k

/-- `avl_tree_clear`. -/
def avlTreeClear (tree : AvlTree K V) : Option (AvlTree K V) :=
  (avlNodeRecursively type tree.root tree.heap).map fun heap ↦ ⟨.nil, heap⟩

end Model

/-- `node_length`. -/
def nodeLength : AvlNode K V → ℕ
  | .nil => 0
  | .node l _ _ _ r => 1 + nodeLength l + nodeLength r

/-- `avl_tree_size`. The length is an `int`, which must not overflow. -/
def avlTreeSize (tree : AvlTree K V) : Option ℤ :=
  if nodeLength tree.root < 2 ^ 31 then some (nodeLength tree.root) else none

/-- `avl_tree_new`. -/
def avlTreeNew : AvlTree K V := ⟨.nil, ⟨0, []⟩⟩

/-! ## Heights stay low -/

namespace AvlNode

/-- The entries from left to right. -/
def inorder : AvlNode K V → List (K × V)
  | nil => []
  | node l k v _ r => l.inorder ++ (k.content, v) :: r.inorder

/-- The key pointers. -/
def keys : AvlNode K V → List (AvlKey K)
  | nil => []
  | node l k _ _ r => l.keys ++ k :: r.keys

/-- All stored heights are 0 or 1. -/
def Low : AvlNode K V → Prop
  | nil => True
  | node l _ _ h r => l.Low ∧ (h = 0 ∨ h = 1) ∧ r.Low

theorem Low.height {node : AvlNode K V} (h : node.Low) :
    avlNodeGetHeight node = 0 ∨ avlNodeGetHeight node = 1 := by
  cases node with
  | nil => exact Or.inl rfl
  | node l k v ht r => exact h.2.1

theorem length_inorder (node : AvlNode K V) : node.inorder.length = nodeLength node := by
  induction node with
  | nil => rfl
  | node l k v h r ihl ihr =>
    rw [inorder, List.length_append, List.length_cons, ihl, ihr, nodeLength]
    omega

theorem mem_inorder_of_mem_keys {node : AvlNode K V} {k : AvlKey K} (h : k ∈ node.keys) :
    ∃ v, (k.content, v) ∈ node.inorder := by
  induction node with
  | nil => simp [keys] at h
  | node l k' v ht r ihl ihr =>
    simp only [keys, List.mem_append, List.mem_cons] at h
    rcases h with h | rfl | h
    · obtain ⟨w, hw⟩ := ihl h
      exact ⟨w, by simp [inorder, hw]⟩
    · exact ⟨v, by simp [inorder]⟩
    · obtain ⟨w, hw⟩ := ihr h
      exact ⟨w, by simp [inorder, hw]⟩

end AvlNode

/-- What the macro makes of heights that are 0 or 1. -/
theorem avlOnePlusMax_eq {a b : ℤ} (ha : a = 0 ∨ a = 1) (hb : b = 0 ∨ b = 1) :
    avlOnePlusMax a b = a :=
  if_neg (by omega)

section Low

variable {l r : AvlNode K V} (hl : l.Low) (hr : r.Low) (k : AvlKey K) (v : V)

include hl hr

/-- No removal rotates. -/
theorem avlDeleteRebalance_eq :
    avlDeleteRebalance l k v r = some (.node l k v (avlNodeGetHeight l) r) := by
  have hlh := hl.height
  have hrh := hr.height
  rw [avlDeleteRebalance, avlOnePlusMax_eq hlh hrh, if_neg (by omega), if_neg (by omega)]

theorem low_node : (AvlNode.node l k v (avlNodeGetHeight l) r).Low := ⟨hl, hl.height, hr⟩

variable [LinearOrder K]

/-- No insertion rotates. -/
theorem avlInsertRebalance_eq (type : AvlTreeType K) (heap : AvlHeap) (key : K) :
    avlInsertRebalance type heap key l k v r = some (.node l k v (avlNodeGetHeight l) r) := by
  have hlh := hl.height
  have hrh := hr.height
  rw [avlInsertRebalance, avlOnePlusMax_eq hlh hrh, if_neg (by omega), if_neg (by omega)]

end Low

/-! ## The operations -/

/-- The keys have been allocated and not freed. -/
def AvlNode.Alive (heap : AvlHeap) (node : AvlNode K V) : Prop :=
  ∀ k ∈ node.keys, k.id < heap.fresh ∧ k.id ∉ heap.freed

theorem AvlNode.Alive.mono {heap : AvlHeap} {node : AvlNode K V} (h : node.Alive heap) {fresh : ℕ}
    (hle : heap.fresh ≤ fresh) : node.Alive ⟨fresh, heap.freed⟩ :=
  fun k hk ↦ ⟨(h k hk).1.trans_le hle, (h k hk).2⟩

theorem AvlNode.Alive.node {heap : AvlHeap} {l r : AvlNode K V} {k : AvlKey K} {v : V} {h : ℤ}
    (ha : (AvlNode.node l k v h r).Alive heap) :
    l.Alive heap ∧ avlKeyRead heap k = some k.content ∧ r.Alive heap := by
  refine ⟨fun x hx ↦ ha x ?_, if_neg (ha k ?_).2, fun x hx ↦ ha x ?_⟩ <;> simp [AvlNode.keys, *]

section Operations

variable [LinearOrder K] (type : AvlTreeType K) {heap : AvlHeap}

theorem AvlTreeType.operator_eq_zero_iff (a b : K) : type.operator a b = 0 ↔ a = b := by
  have hneg := type.operator_neg_iff a b
  have hpos := type.operator_pos_iff a b
  constructor
  · intro h0
    rcases lt_trichotomy a b with h | h | h
    · have := hneg.mpr h
      omega
    · exact h
    · have := hpos.mpr h
      omega
  · rintro rfl
    have h₁ : ¬type.operator a a < 0 := fun h ↦ lt_irrefl a (hneg.mp h)
    have h₂ : ¬0 < type.operator a a := fun h ↦ lt_irrefl a (hpos.mp h)
    omega

/-- **Insertion** is `put` on the entries. -/
theorem avlNodeInsert_spec (key : K) (value : V) (hheap : ∀ i ∈ heap.freed, i < heap.fresh) :
    ∀ {node : AvlNode K V}, node.Low → Sorted node.inorder → node.Alive heap →
      ∃ node' fresh, avlNodeInsert type key value node heap =
          some (node', ⟨fresh, heap.freed⟩, if key ∈ node.inorder.map Prod.fst then 0 else 1) ∧
        heap.fresh ≤ fresh ∧ node'.Low ∧ node'.inorder = put key value node.inorder ∧
        node'.Alive ⟨fresh, heap.freed⟩ := by
  intro node
  induction node with
  | nil =>
    intro _ _ _
    refine ⟨_, _, rfl, Nat.le_succ _, ⟨trivial, Or.inr rfl, trivial⟩, rfl, fun k hk ↦ ?_⟩
    obtain rfl : k = ⟨heap.fresh, key⟩ := by simpa [AvlNode.keys] using hk
    exact ⟨Nat.lt_succ_self _, fun hfreed ↦ lt_irrefl _ (hheap _ hfreed)⟩
  | node l k v h r ihl ihr =>
    intro hlow hsorted halive
    obtain ⟨hl, -, hr⟩ := hlow
    obtain ⟨hsl, hsr, hlt, hgt⟩ := sorted_mid hsorted
    obtain ⟨hal, hread, har⟩ := halive.node
    have hkeep : ∀ {fresh : ℕ} {l' r' : AvlNode K V}, heap.fresh ≤ fresh →
        l'.Alive ⟨fresh, heap.freed⟩ → r'.Alive ⟨fresh, heap.freed⟩ → ∀ v' h',
        (AvlNode.node l' k v' h' r').Alive ⟨fresh, heap.freed⟩ := by
      intro fresh l' r' hle hl' hr' v' h' x hx
      simp only [AvlNode.keys, List.mem_append, List.mem_cons] at hx
      rcases hx with hx | rfl | hx
      · exact hl' x hx
      · exact halive.mono hle x (by simp [AvlNode.keys])
      · exact hr' x hx
    rcases lt_trichotomy key k.content with hlt' | rfl | hgt'
    · obtain ⟨l', fresh, hins, hfresh, hl', hin, hal'⟩ := ihl hl hsl hal
      have hkeys : key ∈ (AvlNode.node l k v h r).inorder.map Prod.fst ↔
          key ∈ l.inorder.map Prod.fst := by
        simp only [AvlNode.inorder, List.map_append, List.map_cons, List.mem_append, List.mem_cons]
        refine or_iff_left fun hmem ↦ ?_
        rcases hmem with heq | hmem
        · exact hlt'.ne heq
        · obtain ⟨e, he, rfl⟩ := List.mem_map.mp hmem
          exact lt_asymm hlt' (hgt e he)
      refine ⟨_, fresh, ?_, hfresh, low_node hl' hr k v, ?_, hkeep hfresh hal' (har.mono hfresh) _ _⟩
      · rw [avlNodeInsert, hread, Option.bind_some, if_pos ((type.operator_neg_iff _ _).mpr hlt'),
          hins, Option.bind_some, avlInsertRebalance_eq hl' hr, Option.map_some]
        simp only [hkeys]
      · rw [AvlNode.inorder, hin, AvlNode.inorder, put_append_of_gt]
        intro e he
        rcases List.mem_cons.mp he with rfl | he
        · exact hlt'
        · exact hlt'.trans (hgt e he)
    · refine ⟨_, heap.fresh, ?_, le_rfl, low_node hl hr k value, ?_, hkeep le_rfl hal har _ _⟩
      · have h0 := (type.operator_eq_zero_iff k.content k.content).mpr rfl
        rw [avlNodeInsert, hread, Option.bind_some, if_neg (by omega), if_neg (by omega),
          avlInsertRebalance_eq hl hr, Option.map_some, if_pos]
        simp [AvlNode.inorder]
      · rw [AvlNode.inorder, AvlNode.inorder, put_append_of_lt hlt, put_cons_self]
    · obtain ⟨r', fresh, hins, hfresh, hr', hin, har'⟩ := ihr hr hsr har
      have hkeys : key ∈ (AvlNode.node l k v h r).inorder.map Prod.fst ↔
          key ∈ r.inorder.map Prod.fst := by
        simp only [AvlNode.inorder, List.map_append, List.map_cons, List.mem_append, List.mem_cons]
        constructor
        · rintro (hmem | heq | hmem)
          · obtain ⟨e, he, rfl⟩ := List.mem_map.mp hmem
            exact absurd (hlt e he) (lt_asymm hgt')
          · exact absurd heq hgt'.ne'
          · exact hmem
        · exact fun hmem ↦ Or.inr (Or.inr hmem)
      refine ⟨_, fresh, ?_, hfresh, low_node hl hr' k v, ?_, hkeep hfresh (hal.mono hfresh) har' _ _⟩
      · have hneg : ¬type.operator key k.content < 0 := fun h ↦
          lt_asymm hgt' ((type.operator_neg_iff _ _).mp h)
        rw [avlNodeInsert, hread, Option.bind_some, if_neg hneg,
          if_pos ((type.operator_pos_iff _ _).mpr hgt'), hins, Option.bind_some,
          avlInsertRebalance_eq hl hr', Option.map_some]
        simp only [hkeys]
      · rw [AvlNode.inorder, hin, AvlNode.inorder,
          put_append_of_lt fun e he ↦ (hlt e he).trans hgt', put_cons_of_gt hgt']

/-- The descent of a search or a removal, which turns left where the key is greater, does not meet
the key. -/
def AvlNode.Misses (key : K) : AvlNode K V → Prop
  | .nil => True
  | .node l k _ _ r => key ≠ k.content ∧ if k.content < key then l.Misses key else r.Misses key

/-- In a subtree whose keys are all on one side, the descent goes the other way. -/
theorem AvlNode.misses_of_side {key : K} : ∀ {node : AvlNode K V},
    ((∀ e ∈ node.inorder, e.1 < key) ∨ ∀ e ∈ node.inorder, key < e.1) → node.Misses key := by
  intro node
  induction node with
  | nil => exact fun _ ↦ trivial
  | node l k v h r ihl ihr =>
    rintro (hside | hside)
    · have hk : k.content < key := hside (k.content, v) (by simp [AvlNode.inorder])
      refine ⟨hk.ne', ?_⟩
      rw [if_pos hk]
      exact ihl (Or.inl fun e he ↦ hside e (by simp [AvlNode.inorder, he]))
    · have hk : key < k.content := hside (k.content, v) (by simp [AvlNode.inorder])
      refine ⟨hk.ne, ?_⟩
      rw [if_neg hk.not_gt]
      exact ihr (Or.inr fun e he ↦ hside e (by simp [AvlNode.inorder, he]))

/-- Every key but that of the root is missed. -/
theorem AvlNode.misses_of_ne {l r : AvlNode K V} {k : AvlKey K} {v : V} {h : ℤ} {key : K}
    (hsorted : Sorted (AvlNode.node l k v h r).inorder) (hne : key ≠ k.content) :
    (AvlNode.node l k v h r).Misses key := by
  obtain ⟨-, -, hlt, hgt⟩ := sorted_mid hsorted
  refine ⟨hne, ?_⟩
  split_ifs with hk
  · exact misses_of_side (Or.inl fun e he ↦ (hlt e he).trans hk)
  · have hk' : key < k.content := lt_of_le_of_ne (not_lt.mp hk) hne
    exact misses_of_side (Or.inr fun e he ↦ hk'.trans (hgt e he))

theorem avlNodeSearch_of_misses {key : K} : ∀ {node : AvlNode K V}, node.Alive heap →
    node.Misses key → avlNodeSearch type heap key node = some none := by
  intro node
  induction node with
  | nil => exact fun _ _ ↦ rfl
  | node l k v h r ihl ihr =>
    rintro halive ⟨hne, hmiss⟩
    obtain ⟨hal, hread, har⟩ := halive.node
    rw [avlNodeSearch, hread, Option.bind_some]
    simp only [type.operator_eq_zero_iff, type.operator_neg_iff]
    rw [if_neg hne.symm]
    split_ifs at hmiss ⊢
    · exact ihl hal hmiss
    · exact ihr har hmiss

/-- **Searching** finds the root and nothing else. -/
theorem avlNodeSearch_node {l r : AvlNode K V} {k : AvlKey K} {v : V} {h : ℤ} (key : K)
    (hsorted : Sorted (AvlNode.node l k v h r).inorder)
    (halive : (AvlNode.node l k v h r).Alive heap) :
    avlNodeSearch type heap key (.node l k v h r) =
      some (if key = k.content then some (k, v) else none) := by
  by_cases hk : key = k.content
  · have h0 := (type.operator_eq_zero_iff k.content key).mpr hk.symm
    rw [if_pos hk, avlNodeSearch, halive.node.2.1, Option.bind_some]
    exact if_pos h0
  · rw [if_neg hk, avlNodeSearch_of_misses type halive (AvlNode.misses_of_ne hsorted hk)]

/-- A removal that finds nothing: only heights change. -/
structure AvlUntouched (heap : AvlHeap) (node : AvlNode K V)
    (r : Option (AvlNode K V × AvlHeap × Bool)) : Prop where
  run : ∃ node', r = some (node', heap, false) ∧ node'.Low ∧ node'.inorder = node.inorder ∧
    node'.keys = node.keys

/-- The heights on the descent of a removal are what the removal sets them to. -/
def AvlNode.Settled (key : K) : AvlNode K V → Prop
  | .nil => True
  | .node l k _ h r => h = avlOnePlusMax (avlNodeGetHeight l) (avlNodeGetHeight r) ∧
      if k.content < key then l.Settled key else r.Settled key

/-- **Removing a key that is missed.** Nothing at all changes exactly if the heights are settled. -/
theorem deleteChildNode_of_misses {key : K} : ∀ {node : AvlNode K V}, node.Low →
    node.Alive heap → node.Misses key →
    AvlUntouched heap node (deleteChildNode type key node heap) ∧
      (deleteChildNode type key node heap = some (node, heap, false) ↔ node.Settled key) := by
  intro node
  induction node with
  | nil => exact fun _ _ _ ↦ ⟨⟨.nil, rfl, trivial, rfl, rfl⟩, iff_of_true rfl trivial⟩
  | node l k v h r ihl ihr =>
    rintro ⟨hl, -, hr⟩ halive ⟨hne, hmiss⟩
    obtain ⟨hal, hread, har⟩ := halive.node
    rw [deleteChildNode.eq_def]
    simp only [hread, Option.bind_some, type.operator_pos_iff, type.operator_neg_iff]
    rw [AvlNode.Settled, avlOnePlusMax_eq hl.height hr.height]
    by_cases hk : k.content < key
    · rw [if_pos hk] at hmiss
      obtain ⟨⟨l', hdel, hl', hin, hkeys⟩, hsettled⟩ := ihl hl hal hmiss
      rw [if_pos hk, if_pos hk, hdel, Option.bind_some, avlDeleteRebalance_eq hl' hr,
        Option.map_some, ← hsettled, hdel]
      refine ⟨⟨_, rfl, low_node hl' hr k v, by rw [AvlNode.inorder, hin, AvlNode.inorder],
        by rw [AvlNode.keys, hkeys, AvlNode.keys]⟩, ?_⟩
      simp only [Option.some.injEq, Prod.mk.injEq, AvlNode.node.injEq, and_true, true_and]
      constructor
      · rintro ⟨rfl, hheight⟩
        exact ⟨hheight.symm, rfl⟩
      · rintro ⟨hheight, rfl⟩
        exact ⟨rfl, hheight.symm⟩
    · have hk' : key < k.content := lt_of_le_of_ne (not_lt.mp hk) hne
      rw [if_neg hk] at hmiss
      obtain ⟨⟨r', hdel, hr', hin, hkeys⟩, hsettled⟩ := ihr hr har hmiss
      rw [if_neg hk, if_pos hk', if_neg hk, hdel, Option.bind_some, avlDeleteRebalance_eq hl hr',
        Option.map_some, ← hsettled, hdel]
      refine ⟨⟨_, rfl, low_node hl hr' k v, by rw [AvlNode.inorder, hin, AvlNode.inorder],
        by rw [AvlNode.keys, hkeys, AvlNode.keys]⟩, ?_⟩
      simp only [Option.some.injEq, Prod.mk.injEq, AvlNode.node.injEq, and_true, true_and]
      rw [eq_comm (a := h)]

/-- **Removing** any key but that of the root finds nothing. -/
theorem deleteChildNode_of_ne {l r : AvlNode K V} {k : AvlKey K} {v : V} {h : ℤ} {key : K}
    (hlow : (AvlNode.node l k v h r).Low) (hsorted : Sorted (AvlNode.node l k v h r).inorder)
    (halive : (AvlNode.node l k v h r).Alive heap) (hne : key ≠ k.content) :
    AvlUntouched heap (.node l k v h r) (deleteChildNode type key (.node l k v h r) heap) :=
  (deleteChildNode_of_misses type hlow halive (AvlNode.misses_of_ne hsorted hne)).1

/-- **Removing the only key** frees it and leaves the empty tree. -/
theorem deleteChildNode_single {k : AvlKey K} {v : V} {h : ℤ}
    (halive : (AvlNode.node .nil k v h .nil).Alive heap) :
    ∃ freed, deleteChildNode type k.content (.node .nil k v h .nil) heap =
        some (.nil, ⟨heap.fresh, freed⟩, true) ∧
      ∀ i ∈ freed, i ∈ heap.freed ∨ i < heap.fresh := by
  obtain ⟨hid, hfreed⟩ := halive k (by simp [AvlNode.keys])
  have h0 := (type.operator_eq_zero_iff k.content k.content).mpr rfl
  rw [deleteChildNode, halive.node.2.1, Option.bind_some, if_neg (by omega), if_neg (by omega),
    avlReleaseNode]
  split_ifs
  · refine ⟨_, rfl, fun i hi ↦ ?_⟩
    rcases List.mem_cons.mp hi with rfl | hi
    · exact Or.inr hid
    · exact Or.inl hi
  · exact ⟨_, rfl, fun i hi ↦ Or.inl hi⟩

end Operations

end LatteC
