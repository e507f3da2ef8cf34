import LatteC.Foundation.CallMachine
import LatteC.Foundation.SlotArray
import Mathlib.Data.List.ReduceOption
import Mathlib.Order.Lattice

/-!
# The B+ tree

`src/tree/b_plus_tree.c`: search, insertion with splitting on the way down, removal with borrowing
and merging of leaves, and the iterator along the leaf chain.

## Modelling

A node is a value, with its children inside it. `keys` and `data` are always written together, so they
are one array of slots; all arrays have their full length from the start, slots behind the ones
in use keep what was last written there, and every access is checked (`SlotArray`). The `next`
pointer of a leaf is the identity of another leaf. Identities come from a counter. Fields the source
never reads are left out: the children of a leaf, the `next` pointer of an internal node.

The functions recurse on a bound for the height. `BPlusEnv.splits` is a record of what
`b_plus_tree_node_split` has been called on; the code itself has no such thing. Not modelled: the
debug output, and freeing.
-/

namespace LatteC

open SlotArray

/-- `b_plus_tree_node_t`. -/
inductive BPlusNode (K V : Type) where
  | leaf (id : ℕ) (slots : List (Option (K × V))) (numKeys : ℕ) (next : Option ℕ)
  | inner (slots : List (Option (K × V))) (numKeys : ℕ) (children : List (Option (BPlusNode K V)))

/-- What nodes are allocated from, and the record of splits: for each, the number of keys of the
parent and of the child it was applied to. -/
structure BPlusEnv where
  fresh : ℕ
  splits : List (ℕ × ℕ)

/-- `b_plus_tree_t`. -/
structure BPlusTree (K V : Type) where
  root : Option (BPlusNode K V)
  order : ℕ
  env : BPlusEnv

namespace BPlusNode

variable {K V : Type}

/-- The field `numKeys`. -/
def numKeys : BPlusNode K V → ℕ
  | leaf _ _ n _ => n
  | inner _ n _ => n

/-- The arrays `keys` and `data`. -/
def slots : BPlusNode K V → List (Option (K × V))
  | leaf _ s _ _ => s
  | inner s _ _ => s

mutual

/-- The length of the leftmost path, which bounds the recursion. -/
def height : BPlusNode K V → ℕ
  | leaf _ _ _ _ => 0
  | inner _ _ ch => heightHead ch + 1

/-- The height of the first node of an array of children. -/
def heightHead : List (Option (BPlusNode K V)) → ℕ
  | [] => 0
  | c :: _ => heightSlot c

/-- The height of the node in a slot. -/
def heightSlot : Option (BPlusNode K V) → ℕ
  | none => 0
  | some c => c.height

end

end BPlusNode

variable {K V : Type}

/-- `b_plus_tree_new`. -/
def bPlusTreeNew (order : ℕ) : BPlusTree K V := ⟨none, order, ⟨0, []⟩⟩

section Model

variable [LinearOrder K]

/-! ## Searching -/

/-- The loop `while (i >= 0 && cmp(key, keys[i]) < 0) i--;`, started at `i = n - 1`. It returns
`i + 1`, which is 0 when the loop has run off the front. -/
def bPlusDescend (key : K) (slots : List (Option (K × V))) : ℕ → Option ℕ
  | 0 => some 0
  | n + 1 => (read slots n).bind fun kv ↦
    if key < kv.1 then bPlusDescend key slots n else some (n + 1)

/-- A pointer to a data slot: which children lead to the leaf, and the slot. -/
structure BPlusDataPtr where
  path : List ℕ
  slot : ℕ

/-- `private_b_plus_tree_find`. The comparison with the slot before the first key does not
match. -/
def privateBPlusTreeFind (key : K) : (fuel : ℕ) → BPlusNode K V → Option (Option BPlusDataPtr)
  | _, .leaf _ slots n _ => (bPlusDescend key slots n).bind fun i ↦
    match i with
    | 0 => some none
    | i + 1 => (read slots i).map fun kv ↦ if key = kv.1 then some ⟨[], i⟩ else none
  | 0, .inner _ _ _ => none
  | fuel + 1, .inner slots n children => (bPlusDescend key slots n).bind fun i ↦
    (read children i).bind fun child ↦
      (privateBPlusTreeFind key fuel child).map fun p ↦ p.map fun p ↦ ⟨i :: p.path, p.slot⟩

/-- `*ptr`. -/
def bPlusLoad (slot : ℕ) : (path : List ℕ) → BPlusNode K V → Option V
  | [], .leaf _ slots _ _ => (read slots slot).map Prod.snd
  | i :: path, .inner _ _ children => (read children i).bind (bPlusLoad slot path)
  | _, _ => none

/-- `*ptr = data`. -/
def bPlusStore (slot : ℕ) (data : V) : (path : List ℕ) → BPlusNode K V → Option (BPlusNode K V)
  | [], .leaf id slots n next => (read slots slot).bind fun kv ↦
    (write slots slot (some (kv.1, data))).map fun slots ↦ .leaf id slots n next
  | i :: path, .inner slots n children => (read children i).bind fun child ↦
    (bPlusStore slot data path child).bind fun child ↦
      (write children i (some child)).map fun children ↦ .inner slots n children
  | _, _ => none

/-- `b_plus_tree_find`. The outer `none` is a NULL root. -/
def bPlusTreeFind (t : BPlusTree K V) (key : K) : Option (Option V) :=
  t.root.bind fun root ↦
    (privateBPlusTreeFind key root.height root).bind fun p ↦
      match p with
      | none => some none
      | some p => (bPlusLoad p.slot p.path root).map some

/-! ## Inserting -/

/-- The two halves of `b_plus_tree_node_split`: what is left of the child, and the new node. -/
def bPlusSplitChild (order fresh : ℕ) : BPlusNode K V → Option (BPlusNode K V × BPlusNode K V)
  | .leaf id slots _ next =>
    (copy slots ((order + 1) / 2) 0 (order / 2) (List.replicate order none)).map fun newSlots ↦
      (.leaf id slots ((order + 1) / 2) (some fresh), .leaf fresh newSlots (order / 2) next)
  | .inner slots _ children =>
    (copy children (order / 2 + 1) 0 ((order + 1) / 2)
        (List.replicate (order + 1) none)).bind fun newChildren ↦
      (copy slots (order / 2 + 1) 0 ((order - 1) / 2) (List.replicate order none)).map
        fun newSlots ↦
          (.inner slots (order / 2) children, .inner newSlots ((order - 1) / 2) newChildren)

/-- `b_plus_tree_node_split`, on a parent given by its three fields. The child is changed in
place. -/
def bPlusTreeNodeSplit (order : ℕ) (env : BPlusEnv) (slots : List (Option (K × V))) (numKeys : ℕ)
    (children : List (Option (BPlusNode K V))) (child : BPlusNode K V) (index : ℕ) :
    Option (BPlusEnv × List (Option (K × V)) × ℕ × List (Option (BPlusNode K V))) := do
  let (left, right) ← bPlusSplitChild order env.fresh child
  let children ← write children index (some left)
  let slots ← shiftUp index (numKeys - index) slots
  let children ← shiftUp (index + 1) (numKeys - index) children
  let children ← write children (index + 1) (some right)
  if left.numKeys = 0 then none
  else
    let sep ← read left.slots (order / 2)
    let slots ← write slots index (some sep)
    return (⟨env.fresh + 1, env.splits ++ [(numKeys, child.numKeys)]⟩, slots, numKeys + 1, children)

/-- The loop of `b_plus_tree_node_insert` on a leaf, with `n = i + 1`, and the write behind it. -/
def bPlusLeafInsert (key : K) (data : V) :
    (n : ℕ) → List (Option (K × V)) → Option (List (Option (K × V)))
  | 0, slots => write slots 0 (some (key, data))
  | n + 1, slots => (read slots n).bind fun kv ↦
    if key < kv.1 then (write slots (n + 1) (some kv)).bind (bPlusLeafInsert key data n)
    else write slots (n + 1) (some (key, data))

/-- `b_plus_tree_node_insert`. -/
def bPlusTreeNodeInsert (order : ℕ) (key : K) (data : V) :
    (fuel : ℕ) → BPlusEnv → BPlusNode K V → Option (BPlusEnv × BPlusNode K V)
  | _, env, .leaf id slots n next =>
    (bPlusLeafInsert key data n slots).map fun slots ↦ (env, .leaf id slots (n + 1) next)
  | 0, _, .inner _ _ _ => none
  | fuel + 1, env, .inner slots n children => do
    let i ← bPlusDescend key slots n
    let child ← read children i
    if child.numKeys = order then
      let (env, slots, n, children) ← bPlusTreeNodeSplit order env slots n children child i
      let sep ← read slots i
      let i := if sep.1 < key then i + 1 else i
      let child ← read children i
      let (env, child) ← bPlusTreeNodeInsert order key data fuel env child
      let children ← write children i (some child)
      return (env, .inner slots n children)
    else
      let (env, child) ← bPlusTreeNodeInsert order key data fuel env child
      let children ← write children i (some child)
      return (env, .inner slots n children)

/-- `b_plus_tree_insert`. -/
def bPlusTreeInsert (t : BPlusTree K V) (key : K) (data : V) : Option (BPlusTree K V) :=
  match t.root with
  | none =>
    let root : BPlusNode K V := .leaf t.env.fresh (List.replicate t.order none) 0 none
    (bPlusTreeNodeInsert t.order key data 0 ⟨t.env.fresh + 1, t.env.splits⟩ root).map fun r ↦
      { t with root := some r.2, env := r.1 }
  | some root =>
    if root.numKeys = t.order then
      (write (List.replicate (t.order + 1) none) 0 (some root)).bind fun children ↦
        (bPlusTreeNodeSplit t.order t.env (List.replicate t.order none) 0 children root 0).bind
          fun p ↦
            (bPlusTreeNodeInsert t.order key data (root.height + 1) p.1
                (.inner p.2.1 p.2.2.1 p.2.2.2)).map fun r ↦
              { t with root := some r.2, env := r.1 }
    else
      (bPlusTreeNodeInsert t.order key data root.height t.env root).map fun r ↦
        { t with root := some r.2, env := r.1 }

/-- `b_plus_tree_insert_or_update`. -/
def bPlusTreeInsertOrUpdate (t : BPlusTree K V) (key : K) (data : V) : Option (BPlusTree K V) :=
  match t.root with
  | none => bPlusTreeInsert t key data
  | some root => (privateBPlusTreeFind key root.height root).bind fun p ↦
    match p with
    | some p => (bPlusStore p.slot data p.path root).map fun root ↦ { t with root := some root }
    | none => bPlusTreeInsert t key data

/-! ## Removing -/

/-- The loop of `b_plus_tree_leaf_node_remove`; `rest` is how many keys are still to be looked at. -/
def bPlusLeafSearch (key : K) (slots : List (Option (K × V))) :
    (rest index : ℕ) → Option (Option ℕ)
  | 0, _ => some none
  | rest + 1, index => (read slots index).bind fun kv ↦
    if key = kv.1 then some (some index) else bPlusLeafSearch key slots rest (index + 1)

/-- `b_plus_tree_leaf_node_remove`: the slots of the leaf and the number of its keys afterwards, or
`none` when it returns false. -/
def bPlusTreeLeafNodeRemove (key : K) (slots : List (Option (K × V))) (numKeys : ℕ) :
    Option (Option (List (Option (K × V)) × ℕ)) :=
  (bPlusLeafSearch key slots numKeys 0).bind fun index ↦
    match index with
    | none => some none
    | some index =>
      (shiftDown index (numKeys - 1 - index) slots).map fun slots ↦ some (slots, numKeys - 1)

end Model

/-- How `b_plus_tree_remove` leaves a subtree. -/
inductive BPlusRemoved (K V : Type) where
  /-- The key was not found. -/
  | notFound
  | kept (node : BPlusNode K V)
  /-- `b_plus_tree_move_leaf` has taken a child out of this node. -/
  | dropped (slots : List (Option (K × V))) (numKeys : ℕ)
      (children : List (Option (BPlusNode K V)))
  /-- The node has no key, and its only child is NULL. -/
  | gone

/-- `b_plus_tree_borrow_key_from_sibling`, from the left: the slots of the leaf, of the parent and
nothing of the sibling change. -/
def bPlusBorrowLeft (parent leaf sibling : List (Option (K × V))) (index leafKeys sibKeys : ℕ) :
    Option (List (Option (K × V)) × List (Option (K × V))) := do
  let leaf ← shiftUp 0 (leafKeys - 1) leaf
  let kv ← read sibling (sibKeys - 1)
  let leaf ← write leaf 0 (some kv)
  let parent ← write parent (index - 1) (some kv)
  return (parent, leaf)

/-- `b_plus_tree_borrow_key_from_sibling`, from the right. -/
def bPlusBorrowRight (parent leaf sibling : List (Option (K × V))) (index leafKeys sibKeys : ℕ) :
    Option (List (Option (K × V)) × List (Option (K × V)) × List (Option (K × V))) := do
  if sibKeys < 2 then none
  else
    let kv ← read sibling 0
    let leaf ← write leaf leafKeys (some kv)
    let kv ← read sibling 1
    let parent ← write parent index (some kv)
    let sibling ← shiftDown 0 (sibKeys - 1) sibling
    return (parent, leaf, sibling)

/-- `b_plus_tree_merge_nodes`. -/
def bPlusTreeMergeNodes (slots : List (Option (K × V))) (numKeys : ℕ)
    (children : List (Option (BPlusNode K V))) (index : ℕ) :
    BPlusNode K V → BPlusNode K V → Option (BPlusRemoved K V)
  | .leaf id left leftKeys _, .leaf _ right rightKeys next => do
    let left ← copy right 0 leftKeys rightKeys left
    let children ← write children index (some (.leaf id left (leftKeys + rightKeys) next))
    let slots ← shiftDown index (numKeys - 1 - index) slots
    let children ← shiftDown (index + 1) (numKeys - (index + 1)) children
    return .kept (.inner slots (numKeys - 1) children)
  | _, _ => none

/-- Whether the neighbour at `index`, if it is one, has a key to spare. -/
def bPlusCanBorrow (order : ℕ) (children : List (Option (BPlusNode K V))) (isChild : Bool)
    (index : ℕ) : Option Bool :=
  if isChild then (read children index).map fun c ↦ decide (order / 2 < c.numKeys) else some false

/-- `b_plus_tree_adjust_leaf_balance`, for the leaf at `index` given by its fields. The last case
calls `b_plus_tree_move_leaf`, whose first round is done here. -/
def bPlusTreeAdjustLeafBalance (order : ℕ) (slots : List (Option (K × V))) (numKeys : ℕ)
    (children : List (Option (BPlusNode K V))) (index : ℕ) (id : ℕ)
    (leaf : List (Option (K × V))) (leafKeys : ℕ) (next : Option ℕ) : Option (BPlusRemoved K V) :=
  (bPlusCanBorrow order children (0 < index) (index - 1)).bind fun borrowLeft ↦
  if borrowLeft then do
    match ← read children (index - 1) with
    | .leaf sid sib sibKeys snext =>
      let (slots, leaf) ← bPlusBorrowLeft slots leaf sib index leafKeys sibKeys
      let children ← write children (index - 1) (some (.leaf sid sib (sibKeys - 1) snext))
      let children ← write children index (some (.leaf id leaf (leafKeys + 1) next))
      return .kept (.inner slots numKeys children)
    | .inner _ _ _ => none
  else
    (bPlusCanBorrow order children (index < numKeys) (index + 1)).bind fun borrowRight ↦
    if borrowRight then do
      match ← read children (index + 1) with
      | .leaf sid sib sibKeys snext =>
        let (slots, leaf, sib) ← bPlusBorrowRight slots leaf sib index leafKeys sibKeys
        let children ← write children index (some (.leaf id leaf (leafKeys + 1) next))
        let children ← write children (index + 1) (some (.leaf sid sib (sibKeys - 1) snext))
        return .kept (.inner slots numKeys children)
      | .inner _ _ _ => none
    else if 0 < numKeys then
      if 0 < index then do
        let left ← read children (index - 1)
        bPlusTreeMergeNodes slots numKeys children (index - 1) left (.leaf id leaf leafKeys next)
      else do
        let right ← read children (index + 1)
        bPlusTreeMergeNodes slots numKeys children index (.leaf id leaf leafKeys next) right
    else if leafKeys = 0 then some .gone
    else (write children index (some (.leaf id leaf leafKeys next))).map fun children ↦
      .kept (.inner slots numKeys children)

section Model

variable [LinearOrder K]

/-- `b_plus_tree_remove` below an internal node. The source collects the path to the leaf in a stack
and `b_plus_tree_move_leaf` walks it back up; here that is the return from the recursion. -/
def bPlusTreeRemoveNode (order : ℕ) (key : K) :
    (fuel : ℕ) → BPlusNode K V → Option (BPlusRemoved K V)
  | fuel + 1, .inner slots n children => do
    let i ← bPlusDescend key slots n
    match ← read children i with
    | .leaf id leaf leafKeys next =>
      match ← bPlusTreeLeafNodeRemove key leaf leafKeys with
      | none => return .notFound
      | some (leaf, leafKeys) =>
        if leafKeys < order / 2 then
          bPlusTreeAdjustLeafBalance order slots n children i id leaf leafKeys next
        else
          let children ← write children i (some (.leaf id leaf leafKeys next))
          return .kept (.inner slots n children)
    | .inner cslots cn cchildren =>
      match ← bPlusTreeRemoveNode order key fuel (.inner cslots cn cchildren) with
      | .notFound => return .notFound
      | .kept child =>
        let children ← write children i (some child)
        return .kept (.inner slots n children)
      | .dropped s m c =>
        let children ← write children i (some (.inner s m c))
        return .kept (.inner slots n children)
      | .gone =>
        if n = 0 then return .gone
        else
          -- the children move up, the keys do not
          let children ← shiftDown i (n - i) children
          return .dropped slots (n - 1) children
  | _, _ => none

/-- `b_plus_tree_remove`. A NULL root is a fault. -/
def bPlusTreeRemove (t : BPlusTree K V) (key : K) : Option (BPlusTree K V × Bool) :=
  t.root.bind fun root ↦
    match root with
    | .leaf id slots n next => (bPlusTreeLeafNodeRemove key slots n).map fun r ↦
      match r with
      | none => (t, false)
      | some (slots, n) =>
        ({ t with root := if n = 0 then none else some (.leaf id slots n next) }, true)
    | .inner slots n children =>
      (bPlusTreeRemoveNode t.order key root.height (.inner slots n children)).bind fun r ↦
        match r with
        | .notFound => some (t, false)
        | .kept node => some ({ t with root := some node }, true)
        | .dropped s m c =>
          if m = 0 then (read c 0).map fun child ↦ ({ t with root := some child }, true)
          else some ({ t with root := some (.inner s m c) }, true)
        | .gone => some ({ t with root := none }, true)

end Model

/-! ## Iterating -/

/-- `b_plus_tree_iterator_data`, without the pair it returns. -/
structure BPlusIterator where
  node : Option ℕ
  index : ℕ

/-- The fields of the leaf with this identity, among the children in use. -/
def bPlusLeafAt (id : ℕ) :
    (fuel : ℕ) → BPlusNode K V → Option (List (Option (K × V)) × ℕ × Option ℕ)
  | _, .leaf id' slots n next => if id' = id then some (slots, n, next) else none
  | 0, .inner _ _ _ => none
  | fuel + 1, .inner _ n children =>
    (children.take (n + 1)).findSome? fun c ↦ c.bind (bPlusLeafAt id fuel)

/-- `while (!node->isLeaf) node = node->children[0];` -/
def bPlusLeftmost : (fuel : ℕ) → BPlusNode K V → Option ℕ
  | _, .leaf id _ _ _ => some id
  | 0, .inner _ _ _ => none
  | fuel + 1, .inner _ _ children => (read children 0).bind (bPlusLeftmost fuel)

/-- `b_plus_tree_get_iterator`. -/
def bPlusTreeGetIterator (t : BPlusTree K V) : Option BPlusIterator :=
  match t.root with
  | none => some ⟨none, 0⟩
  | some root => (bPlusLeftmost root.height root).map fun id ↦ ⟨some id, 0⟩

/-- `b_plus_tree_iterator_has_next_func`. -/
def bPlusTreeIteratorHasNext (it : BPlusIterator) : Bool := it.node.isSome

/-- `b_plus_tree_iterator_next_func`. -/
def bPlusTreeIteratorNext (t : BPlusTree K V) (it : BPlusIterator) :
    Option (BPlusIterator × (K × V)) := do
  let root ← t.root
  let id ← it.node
  let (slots, n, next) ← bPlusLeafAt id root.height root
  let pair ← read slots it.index
  if it.index + 1 = n then return (⟨next, 0⟩, pair)
  else return (⟨some id, it.index + 1⟩, pair)

/-- The loop `while (has_next(it)) ... next(it)`, with the number of rounds it may take. -/
def bPlusTreeIteratorDrain (t : BPlusTree K V) : (fuel : ℕ) → BPlusIterator → Option (List (K × V))
  | 0, _ => none
  | fuel + 1, it =>
    if bPlusTreeIteratorHasNext it then
      (bPlusTreeIteratorNext t it).bind fun r ↦
        (bPlusTreeIteratorDrain t fuel r.1).map (r.2 :: ·)
    else some []

/-! ## Observing -/

/-- The pairs in the leaves below a node, from left to right. -/
def BPlusNode.pairs : (fuel : ℕ) → BPlusNode K V → List (K × V)
  | _, .leaf _ slots n _ => (slots.take n).reduceOption
  | 0, .inner _ _ _ => []
  | fuel + 1, .inner _ n children =>
    (children.take (n + 1)).reduceOption.flatMap (BPlusNode.pairs fuel)

/-- The pairs in the leaves of a tree, from left to right. -/
def BPlusTree.pairs (t : BPlusTree K V) : List (K × V) :=
  match t.root with
  | none => []
  | some root => root.pairs root.height

end LatteC
