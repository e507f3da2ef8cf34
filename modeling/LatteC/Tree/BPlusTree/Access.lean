import LatteC.Tree.BPlusTree.Sound
import Mathlib.Tactic.Tauto

/-!
# Which key slots the B+ tree reads

The functions of `Basic` stop at a fault. Here each of them has a list of the accesses it makes:
every read of a `keys[i]` with the `numKeys` the node has at that time, and every access to a field
of a NULL node. The reads in the arguments of `printf` are among them; a slot that is read several
times in one round of a loop is listed once.

Three of the accesses can be outside.

* The search compares with `keys[i]` of the leaf behind the loop, also when the loop has run off the
  front.
* On the way down to the leaf an insertion prints `keys[i - 1]` of every internal node.
* A split reads the separator out of the child when its `numKeys` has already been lowered. Only a leaf
  of odd order still has the separator among its keys then.

A removal stays inside; like the search it needs a root.
-/

namespace LatteC

open SlotArray LeafSeq CallMachine

variable {K V : Type}

/-- An access: to a NULL node, or to `keys[index]` of a node that has `numKeys` keys. -/
inductive BPlusAccess where
  | null
  | key (index : ℤ) (numKeys : ℕ)

/-- The access is to a key slot in use. -/
def BPlusAccess.InRange : BPlusAccess → Prop
  | null => False
  | key index numKeys => 0 ≤ index ∧ index < numKeys

instance : DecidablePred BPlusAccess.InRange
  | .null => inferInstanceAs (Decidable False)
  | .key index numKeys => inferInstanceAs (Decidable (0 ≤ index ∧ index < numKeys))

/-- All accesses of a list are to key slots in use. -/
def AllInRange (l : List BPlusAccess) : Prop := ∀ a ∈ l, a.InRange

instance (l : List BPlusAccess) : Decidable (AllInRange l) :=
  inferInstanceAs (Decidable (∀ a ∈ l, a.InRange))

/-- Reads of several keys of one node. -/
def bPlusKeyReads (numKeys : ℕ) (indices : List ℕ) : List BPlusAccess :=
  indices.map fun i : ℕ ↦ .key i numKeys

section Lists

variable {l l' : List BPlusAccess} {a : BPlusAccess} {n : ℕ}

@[simp] theorem allInRange_nil : AllInRange [] := by simp [AllInRange]

@[simp] theorem allInRange_cons : AllInRange (a :: l) ↔ a.InRange ∧ AllInRange l := by
  simp [AllInRange]

@[simp] theorem allInRange_append : AllInRange (l ++ l') ↔ AllInRange l ∧ AllInRange l' := by
  simp [AllInRange, or_imp, forall_and]

@[simp] theorem inRange_natCast {i : ℕ} : (BPlusAccess.key i n).InRange ↔ i < n := by
  simp [BPlusAccess.InRange]

theorem inRange_sub_one {i : ℕ} (hi : i ≤ n) : (BPlusAccess.key (i - 1) n).InRange ↔ i ≠ 0 := by
  simp only [BPlusAccess.InRange]
  omega

theorem allInRange_bPlusKeyReads {is : List ℕ} : AllInRange (bPlusKeyReads n is) ↔ ∀ i ∈ is, i < n := by
  simp [AllInRange, bPlusKeyReads]

end Lists

/-! ## The accesses -/

section Model

variable [LinearOrder K]

/-- The loop `while (i >= 0 && cmp(key, node->keys[i]) < 0) i--;`, started at `i = n - 1`. -/
def bPlusDescendReads (key : K) (slots : List (Option (K × V))) (numKeys : ℕ) : ℕ → List BPlusAccess
  | 0 => []
  | n + 1 => .key n numKeys ::
    if (read slots n).any fun kv ↦ key < kv.1 then bPlusDescendReads key slots numKeys n else []

/-- `private_b_plus_tree_find`. -/
def privateBPlusTreeFindReads (key : K) : (fuel : ℕ) → BPlusNode K V → List BPlusAccess
  | _, .leaf _ slots n _ => bPlusDescendReads key slots n n ++
    -- `i < node->numKeys` always holds, also when `i` is -1
    (bPlusDescend key slots n).elim [] fun i ↦ [.key (i - 1) n]
  | 0, .inner _ _ _ => []
  | fuel + 1, .inner slots n children => bPlusDescendReads key slots n n ++
    (bPlusDescend key slots n).elim [] fun i ↦
      (read children i).elim [.null] (privateBPlusTreeFindReads key fuel)

/-- `b_plus_tree_find`. -/
def bPlusTreeFindReads (t : BPlusTree K V) (key : K) : List BPlusAccess :=
  t.root.elim [.null] fun root ↦ privateBPlusTreeFindReads key root.height root

/-- `b_plus_tree_node_split` on a parent with `numKeys` keys. The child has `n` keys to begin with;
what is left of them is written to its `numKeys` before the separator is read. -/
def bPlusTreeNodeSplitReads (order numKeys index : ℕ) : BPlusNode K V → List BPlusAccess
  | .leaf _ _ n _ => bPlusKeyReads n (List.range' ((order + 1) / 2) (order / 2)) ++
    bPlusKeyReads numKeys (List.range' index (numKeys - index)).reverse ++
      bPlusKeyReads ((order + 1) / 2) [order / 2]
  | .inner _ n _ => bPlusKeyReads n (List.range' (order / 2 + 1) ((order - 1) / 2)) ++
    bPlusKeyReads numKeys (List.range' index (numKeys - index)).reverse ++
      bPlusKeyReads (order / 2) [order / 2]

/-- `b_plus_tree_node_insert`. -/
def bPlusTreeNodeInsertReads (order : ℕ) (key : K) :
    (fuel : ℕ) → BPlusEnv → BPlusNode K V → List BPlusAccess
  | _, _, .leaf _ slots n _ => bPlusDescendReads key slots n n
  | 0, _, .inner _ _ _ => []
  | fuel + 1, env, .inner slots n children =>
    -- the first and the third are arguments of `printf`
    .key (n - 1) n :: bPlusDescendReads key slots n n ++
      (bPlusDescend key slots n).elim [] fun i ↦ .key (i - 1) n ::
        (read children i).elim [.null] fun child ↦
          if child.numKeys = order then
            bPlusTreeNodeSplitReads order n i child ++
              (bPlusTreeNodeSplit order env slots n children child i).elim [] fun p ↦
                .key i p.2.2.1 :: (read p.2.1 i).elim [] fun sep ↦
                  (read p.2.2.2 (if sep.1 < key then i + 1 else i)).elim [.null]
                    (bPlusTreeNodeInsertReads order key fuel p.1)
          else bPlusTreeNodeInsertReads order key fuel env child

/-- `b_plus_tree_insert`. -/
def bPlusTreeInsertReads (t : BPlusTree K V) (key : K) : List BPlusAccess :=
  match t.root with
  | none =>
    let root : BPlusNode K V := .leaf t.env.fresh (List.replicate t.order none) 0 none
    bPlusTreeNodeInsertReads t.order key 0 ⟨t.env.fresh + 1, t.env.splits⟩ root
  | some root =>
    if root.numKeys = t.order then
      bPlusTreeNodeSplitReads t.order 0 0 root ++
        (write (List.replicate (t.order + 1) none) 0 (some root)).elim [] fun children ↦
          (bPlusTreeNodeSplit t.order t.env (List.replicate t.order none) 0 children root 0).elim []
            fun p ↦ bPlusTreeNodeInsertReads t.order key (root.height + 1) p.1
              (.inner p.2.1 p.2.2.1 p.2.2.2)
    else bPlusTreeNodeInsertReads t.order key root.height t.env root

/-- `b_plus_tree_insert_or_update`. -/
def bPlusTreeInsertOrUpdateReads (t : BPlusTree K V) (key : K) : List BPlusAccess :=
  match t.root with
  | none => bPlusTreeInsertReads t key
  | some root => privateBPlusTreeFindReads key root.height root ++
    (privateBPlusTreeFind key root.height root).elim [] fun p ↦
      match p with
      | some _ => []
      | none => bPlusTreeInsertReads t key

/-- The loop of `b_plus_tree_leaf_node_remove`. -/
def bPlusLeafSearchReads (key : K) (slots : List (Option (K × V))) (numKeys : ℕ) :
    (rest index : ℕ) → List BPlusAccess
  | 0, _ => []
  | rest + 1, index => .key index numKeys ::
    if (read slots index).any fun kv ↦ key = kv.1 then []
    else bPlusLeafSearchReads key slots numKeys rest (index + 1)

/-- `b_plus_tree_leaf_node_remove`. -/
def bPlusTreeLeafNodeRemoveReads (key : K) (slots : List (Option (K × V))) (numKeys : ℕ) :
    List BPlusAccess :=
  bPlusLeafSearchReads key slots numKeys numKeys 0 ++
    (bPlusLeafSearch key slots numKeys 0).join.elim [] fun index ↦
      bPlusKeyReads numKeys (List.range' (index + 1) (numKeys - 1 - index))

end Model

/-- `b_plus_tree_borrow_key_from_sibling`, from the left. The leaf, the sibling and the parent are
read. -/
def bPlusBorrowLeftReads (numKeys index leafKeys sibKeys : ℕ) : List BPlusAccess :=
  bPlusKeyReads leafKeys (List.range (leafKeys - 1)).reverse ++
    [.key (sibKeys - 1) sibKeys, .key (index - 1) numKeys]

/-- `b_plus_tree_borrow_key_from_sibling`, from the right. -/
def bPlusBorrowRightReads (numKeys index sibKeys : ℕ) : List BPlusAccess :=
  if sibKeys < 2 then []
  else .key 0 sibKeys :: .key index numKeys :: .key 1 sibKeys ::
    bPlusKeyReads sibKeys (List.range' 1 (sibKeys - 1))

/-- `b_plus_tree_merge_nodes`. The right node and the parent are read. -/
def bPlusTreeMergeNodesReads (numKeys index rightKeys : ℕ) : List BPlusAccess :=
  bPlusKeyReads rightKeys (List.range rightKeys) ++
    bPlusKeyReads numKeys (List.range' (index + 1) (numKeys - 1 - index))

/-- The access to the neighbour at `index`, if it is one, in `b_plus_tree_adjust_leaf_balance`. -/
def bPlusCanBorrowReads (children : List (Option (BPlusNode K V))) (isChild : Bool) (index : ℕ) :
    List BPlusAccess :=
  if isChild then (read children index).elim [.null] fun _ ↦ [] else []

/-- `b_plus_tree_adjust_leaf_balance`, for a leaf with `leafKeys` keys. -/
def bPlusTreeAdjustLeafBalanceReads (order numKeys : ℕ) (children : List (Option (BPlusNode K V)))
    (index leafKeys : ℕ) : List BPlusAccess :=
  bPlusCanBorrowReads children (0 < index) (index - 1) ++
    if bPlusCanBorrow order children (0 < index) (index - 1) = some true then
      (read children (index - 1)).elim [.null] fun sib ↦
        bPlusBorrowLeftReads numKeys index leafKeys sib.numKeys
    else bPlusCanBorrowReads children (index < numKeys) (index + 1) ++
      if bPlusCanBorrow order children (index < numKeys) (index + 1) = some true then
        (read children (index + 1)).elim [.null] fun sib ↦
          bPlusBorrowRightReads numKeys index sib.numKeys
      else if 0 < numKeys then
        if 0 < index then (read children (index - 1)).elim [.null] fun _ ↦
          bPlusTreeMergeNodesReads numKeys (index - 1) leafKeys
        else (read children (index + 1)).elim [.null] fun right ↦
          bPlusTreeMergeNodesReads numKeys index right.numKeys
      else []

section Model

variable [LinearOrder K]

/-- `b_plus_tree_remove` below an internal node. `b_plus_tree_move_leaf` reads no key. -/
def bPlusTreeRemoveNodeReads (order : ℕ) (key : K) : (fuel : ℕ) → BPlusNode K V → List BPlusAccess
  | fuel + 1, .inner slots n children => bPlusDescendReads key slots n n ++
    (bPlusDescend key slots n).elim [] fun i ↦
      match read children i with
      | none => [.null]
      | some (.leaf _ leaf leafKeys _) => bPlusTreeLeafNodeRemoveReads key leaf leafKeys ++
        (bPlusTreeLeafNodeRemove key leaf leafKeys).join.elim [] fun p ↦
          if p.2 < order / 2 then bPlusTreeAdjustLeafBalanceReads order n children i p.2 else []
      | some (.inner cslots cn cchildren) =>
        bPlusTreeRemoveNodeReads order key fuel (.inner cslots cn cchildren)
  | _, _ => []

/-- `b_plus_tree_remove`. -/
def bPlusTreeRemoveReads (t : BPlusTree K V) (key : K) : List BPlusAccess :=
  t.root.elim [.null] fun root ↦
    match root with
    | .leaf _ slots n _ => bPlusTreeLeafNodeRemoveReads key slots n
    | .inner slots n children =>
      bPlusTreeRemoveNodeReads t.order key root.height (.inner slots n children)

end Model

/-! ## The condition -/

section Condition

variable [LinearOrder K]

/-- The keys of a node lead a search for `key` to its child at `index`. -/
structure BPlusLeads (key : K) (slots : List (Option (K × V))) (n index : ℕ) : Prop where
  le : index ≤ n
  below : ∀ j kv, j + 1 = index → read slots j = some kv → kv.1 ≤ key
  above : ∀ j kv, index ≤ j → j < n → read slots j = some kv → key < kv.1

/-- The nodes that a search for `key` comes by, from a node on. -/
inductive BPlusOnPath (key : K) : BPlusNode K V → BPlusNode K V → Prop
  | here (node : BPlusNode K V) : BPlusOnPath key node node
  | child {slots : List (Option (K × V))} {n i : ℕ} {children : List (Option (BPlusNode K V))}
      {c node : BPlusNode K V} : BPlusLeads key slots n i → read children i = some c →
      BPlusOnPath key c node → BPlusOnPath key (.inner slots n children) node

/-- The node is a leaf. -/
def BPlusNode.IsLeaf : BPlusNode K V → Prop
  | leaf _ _ _ _ => True
  | inner _ _ _ => False

/-- One of the keys of the node is at most `key`. -/
def BPlusNode.HasKeyLe (key : K) (node : BPlusNode K V) : Prop :=
  ∃ j kv, j < node.numKeys ∧ read node.slots j = some kv ∧ kv.1 ≤ key

/-- The last key of the node that is at most `key` is `key` itself. -/
def BPlusNode.HasKeyAt (key : K) (node : BPlusNode K V) : Prop :=
  ∃ j kv, BPlusLeads key node.slots node.numKeys (j + 1) ∧ read node.slots j = some kv ∧ kv.1 = key

/-- For the search: there is a root, and the leaf it ends in has a key that is at most `key`. -/
def BPlusFindInside (t : BPlusTree K V) (key : K) : Prop :=
  ∃ root, t.root = some root ∧
    ∀ node, BPlusOnPath key root node → node.IsLeaf → node.HasKeyLe key

/-- For an insertion below a node: the internal nodes on the way have a key that is at most `key`, and
what is split is a leaf, of odd order. -/
def BPlusPathInside (order : ℕ) (key : K) (node : BPlusNode K V) : Prop :=
  ∀ m, BPlusOnPath key node m → (¬m.IsLeaf → m.HasKeyLe key) ∧
    (m.numKeys = order → m.IsLeaf ∧ order % 2 = 1)

/-- For an insertion: the same, and if the root is split then its middle key, which becomes the only key
of the new root, is at most `key`. -/
def BPlusInsertInside (order : ℕ) (key : K) (root : BPlusNode K V) : Prop :=
  BPlusPathInside order key root ∧
    (root.numKeys = order → ∃ kv, read root.slots (order / 2) = some kv ∧ kv.1 ≤ key)

/-- For `b_plus_tree_insert_or_update`: there is no root, or the search stays inside and the key is found
or inserted inside. -/
def BPlusStoreInside (t : BPlusTree K V) (key : K) : Prop :=
  ∀ root, t.root = some root → BPlusFindInside t key ∧
    ((∀ node, BPlusOnPath key root node → node.IsLeaf → node.HasKeyAt key) ∨
      BPlusInsertInside t.order key root)

variable {order : ℕ} {key : K}

theorem bPlusLeads_iff {slots : List (Option (K × V))} {SA SB : List (K × V)}
    (hslots : Holds order slots (SA ++ SB)) (hSA : ∀ s, SA.getLast? = some s → s.1 ≤ key)
    (hSB : ∀ s ∈ SB, key < s.1) {i : ℕ} :
    BPlusLeads key slots (SA ++ SB).length i ↔ i = SA.length := by
  have hread : ∀ {j : ℕ} (hj : j < (SA ++ SB).length), read slots j = some (SA ++ SB)[j] :=
    fun hj ↦ hslots.read_of_getElem? (List.getElem?_eq_getElem hj)
  constructor
  · rintro ⟨hle, hbelow, habove⟩
    rcases Nat.lt_trichotomy i SA.length with hlt | heq | hgt
    · -- the last key of `SA` would be greater
      have hlast : SA.length - 1 < (SA ++ SB).length := by
        rw [List.length_append]
        omega
      have hget : (SA ++ SB)[SA.length - 1] = SA[SA.length - 1] :=
        List.getElem_append_left (by omega)
      have hle' := hSA SA[SA.length - 1]
        (by rw [List.getLast?_eq_getElem?]; exact List.getElem?_eq_getElem (by omega))
      have := habove (SA.length - 1) _ (by omega) hlast (hread hlast)
      rw [hget] at this
      exact absurd this (not_lt.mpr hle')
    · exact heq
    · -- the key before is one of `SB`
      obtain ⟨j, rfl⟩ : ∃ j, i = j + 1 := ⟨i - 1, by omega⟩
      have hj : j < (SA ++ SB).length := by omega
      have hmem : (SA ++ SB)[j] ∈ SB := by
        rw [List.getElem_append_right (by omega)]
        exact List.getElem_mem _
      exact absurd (hbelow j _ rfl (hread hj)) (not_le.mpr (hSB _ hmem))
  · rintro rfl
    refine ⟨by simp, fun j kv hj hkv ↦ ?_, fun j kv hj hlt hkv ↦ ?_⟩
    · have hlt : j < SA.length := by omega
      have hget : SA.getLast? = some kv := by
        rw [List.getLast?_eq_getElem?, ← hkv, ← hj, Nat.add_sub_cancel,
          hread (by rw [List.length_append]; omega), List.getElem_append_left hlt]
        exact List.getElem?_eq_getElem hlt
      exact hSA kv hget
    · obtain rfl : (SA ++ SB)[j] = kv := Option.some.inj ((hread hlt).symm.trans hkv)
      refine hSB _ ?_
      rw [List.getElem_append_right hj]
      exact List.getElem_mem _

/-- A key that is at most `key` is one before the place where the search stops. -/
theorem hasKeyLe_iff {node : BPlusNode K V} {SA SB : List (K × V)}
    (hslots : Holds order node.slots (SA ++ SB)) (hn : (SA ++ SB).length = node.numKeys)
    (hSA : ∀ s, SA.getLast? = some s → s.1 ≤ key) (hSB : ∀ s ∈ SB, key < s.1) :
    node.HasKeyLe key ↔ SA ≠ [] := by
  constructor
  · rintro ⟨j, kv, hj, hkv, hle⟩ rfl
    rw [← hn] at hj
    have hget := hslots.read_of_getElem? (List.getElem?_eq_getElem hj)
    obtain rfl : ([] ++ SB)[j] = kv := Option.some.inj (hget.symm.trans hkv)
    exact absurd hle (not_le.mpr (hSB _ (List.getElem_mem _)))
  · intro hne
    obtain ⟨SA, s, rfl⟩ := (List.eq_nil_or_concat SA).resolve_left hne
    rw [List.concat_eq_append] at hslots hSA hn
    rw [List.append_assoc, List.singleton_append] at hslots hn
    refine ⟨SA.length, s, ?_, hslots.read, hSA s (by simp)⟩
    rw [← hn, List.length_append, List.length_cons]
    omega

/-- The last key that is at most `key` is the one before the place where the search stops. -/
theorem hasKeyAt_iff {node : BPlusNode K V} {SA SB : List (K × V)}
    (hslots : Holds order node.slots (SA ++ SB)) (hn : (SA ++ SB).length = node.numKeys)
    (hSA : ∀ s, SA.getLast? = some s → s.1 ≤ key) (hSB : ∀ s ∈ SB, key < s.1) :
    node.HasKeyAt key ↔ ∃ s, SA.getLast? = some s ∧ s.1 = key := by
  have hleads : ∀ {i : ℕ}, BPlusLeads key node.slots node.numKeys i ↔ i = SA.length :=
    fun {i} ↦ hn ▸ bPlusLeads_iff hslots hSA hSB
  constructor
  · rintro ⟨j, kv, hj, hkv, heq⟩
    rw [hleads] at hj
    refine ⟨kv, ?_, heq⟩
    have hlt : j < SA.length := by omega
    have hget := hslots.read_of_getElem? ((List.getElem?_append_left hlt).trans
      (List.getElem?_eq_getElem hlt))
    rw [List.getLast?_eq_getElem?, ← hj, Nat.add_sub_cancel, List.getElem?_eq_getElem hlt, ← hget, hkv]
  · rintro ⟨s, hs, heq⟩
    obtain ⟨SA, rfl⟩ := List.getLast?_eq_some_iff.mp hs
    refine ⟨SA.length, s, hleads.mpr (by simp), ?_, heq⟩
    rw [List.append_assoc, List.singleton_append] at hslots
    exact hslots.read

theorem BPlusAimed.leads_iff {h n i : ℕ} {slots : List (Option (K × V))}
    {children : List (Option (BPlusNode K V))} {SA SB : List (K × V)}
    {A B : List (BPlusNode K V × List (Tok K V))} {c : BPlusNode K V × List (Tok K V)}
    (haim : BPlusAimed order h key slots n children SA SB A B c) :
    BPlusLeads key slots n i ↔ i = SA.length :=
  haim.length ▸ bPlusLeads_iff haim.slots haim.below haim.above

/-- What is on the path from an internal node. -/
theorem BPlusAimed.onPath_iff {h n : ℕ} {slots : List (Option (K × V))}
    {children : List (Option (BPlusNode K V))} {SA SB : List (K × V)}
    {A B : List (BPlusNode K V × List (Tok K V))} {c : BPlusNode K V × List (Tok K V)}
    (haim : BPlusAimed order h key slots n children SA SB A B c) {m : BPlusNode K V} :
    BPlusOnPath key (.inner slots n children) m ↔
      m = .inner slots n children ∨ BPlusOnPath key c.1 m := by
  constructor
  · intro hm
    cases hm with
    | here => exact Or.inl rfl
    | child hleads hread hpath =>
      rw [haim.leads_iff.mp hleads, haim.read_child, Option.some.injEq] at hread
      exact Or.inr (hread ▸ hpath)
  · rintro (rfl | hpath)
    · exact .here _
    · exact .child (haim.leads_iff.mpr rfl) haim.read_child hpath

theorem onPath_leaf_iff {id n : ℕ} {slots : List (Option (K × V))} {next : Option ℕ}
    {m : BPlusNode K V} : BPlusOnPath key (.leaf id slots n next) m ↔ m = .leaf id slots n next := by
  constructor
  · intro hm
    cases hm
    rfl
  · rintro rfl
    exact .here _

end Condition

/-! ## Searching -/

section Find

variable [LinearOrder K] {order : ℕ} {key : K}

/-- The loop itself stays inside. -/
theorem allInRange_bPlusDescendReads (key : K) (slots : List (Option (K × V))) {numKeys : ℕ} :
    ∀ {n : ℕ}, n ≤ numKeys → AllInRange (bPlusDescendReads key slots numKeys n) := by
  intro n
  induction n with
  | zero =>
    intro _
    exact allInRange_nil
  | succ n ih =>
    intro hn
    rw [bPlusDescendReads, allInRange_cons, inRange_natCast]
    refine ⟨hn, ?_⟩
    split_ifs with hlt
    · exact ih (Nat.le_of_succ_le hn)
    · exact allInRange_nil

/-- **The search.** It stays inside if and only if it ends in a leaf with a key that is at most the one
looked for. -/
theorem allInRange_privateBPlusTreeFindReads : ∀ {h : ℕ} {node : BPlusNode K V},
    node.Sound order h → (AllInRange (privateBPlusTreeFindReads key h node) ↔
      ∀ m, BPlusOnPath key node m → m.IsLeaf → m.HasKeyLe key) := by
  intro h
  induction h with
  | zero =>
    rintro node ⟨ts, hs⟩
    cases node with
    | inner slots n children => exact hs.elim
    | leaf id slots n next =>
      obtain ⟨es, hslots, hn, rfl⟩ := hs
      obtain ⟨X, Y, rfl, hX, hY⟩ := exists_cut_last key es
      have hdesc : bPlusDescend key slots n = some X.length :=
        hn ▸ bPlusDescend_eq_of_last hslots hX hY
      have hle : X.length ≤ n := by
        rw [← hn, List.length_append]
        exact Nat.le_add_right _ _
      have hkey : (BPlusNode.leaf id slots n next).HasKeyLe key ↔ X ≠ [] :=
        hasKeyLe_iff hslots hn hX hY
      rw [privateBPlusTreeFindReads, allInRange_append, hdesc, Option.elim_some, allInRange_cons,
        inRange_sub_one hle, ne_eq, List.length_eq_zero_iff]
      simp only [onPath_leaf_iff, forall_eq, hkey, allInRange_bPlusDescendReads key slots le_rfl,
        allInRange_nil, true_and, and_true, BPlusNode.IsLeaf, true_imp_iff, ne_eq]
  | succ h ih =>
    rintro node ⟨ts, hs⟩
    cases node with
    | leaf id slots n next => exact hs.elim
    | inner slots n children =>
      obtain ⟨SA, SB, A, B, c, haim⟩ := hs.exists_aimed key
      rw [privateBPlusTreeFindReads, allInRange_append, haim.descend, Option.elim_some,
        haim.read_child, Option.elim_some, ih ⟨c.2, haim.shape_child⟩]
      simp only [allInRange_bPlusDescendReads key slots le_rfl, true_and, haim.onPath_iff, or_imp,
        forall_and, forall_eq, BPlusNode.IsLeaf, false_imp_iff]

/-- What the search returns is a pointer if and only if the leaf it ends in has the key where it looks. -/
theorem exists_privateBPlusTreeFind (key : K) : ∀ {h : ℕ} {node : BPlusNode K V}, node.Sound order h →
    ∃ r, privateBPlusTreeFind key h node = some r ∧
      (r ≠ none ↔ ∀ m, BPlusOnPath key node m → m.IsLeaf → m.HasKeyAt key) := by
  intro h
  induction h with
  | zero =>
    rintro node ⟨ts, hs⟩
    cases node with
    | inner slots n children => exact hs.elim
    | leaf id slots n next =>
      obtain ⟨es, hslots, hn, rfl⟩ := hs
      obtain ⟨X, Y, rfl, hX, hY⟩ := exists_cut_last key es
      have hdesc : bPlusDescend key slots n = some X.length :=
        hn ▸ bPlusDescend_eq_of_last hslots hX hY
      have hkey : (BPlusNode.leaf id slots n next).HasKeyAt key ↔
          ∃ s, X.getLast? = some s ∧ s.1 = key := hasKeyAt_iff hslots hn hX hY
      simp only [onPath_leaf_iff, forall_eq, BPlusNode.IsLeaf, true_imp_iff, hkey]
      rcases List.eq_nil_or_concat X with rfl | ⟨X, x, rfl⟩
      · refine ⟨none, ?_, by simp⟩
        rw [privateBPlusTreeFind, hdesc]
        rfl
      · rw [List.concat_eq_append] at hslots hdesc ⊢
        rw [List.length_append, List.length_singleton] at hdesc
        rw [List.append_assoc, List.singleton_append] at hslots
        have hread : read slots X.length = some x := hslots.read
        refine ⟨if key = x.1 then some ⟨[], X.length⟩ else none, ?_, by simp [eq_comm]⟩
        rw [privateBPlusTreeFind, hdesc, Option.bind_some]
        simp only [hread, Option.map_some]
  | succ h ih =>
    rintro node ⟨ts, hs⟩
    cases node with
    | leaf id slots n next => exact hs.elim
    | inner slots n children =>
      obtain ⟨SA, SB, A, B, c, haim⟩ := hs.exists_aimed key
      obtain ⟨r, hfind, hr⟩ := ih ⟨c.2, haim.shape_child⟩
      refine ⟨r.map fun p ↦ ⟨SA.length :: p.path, p.slot⟩, ?_, ?_⟩
      · rw [privateBPlusTreeFind, haim.descend, Option.bind_some, haim.read_child,
          Option.bind_some, hfind, Option.map_some]
      · simp only [ne_eq, Option.map_eq_none_iff, haim.onPath_iff, or_imp, forall_and, forall_eq,
          BPlusNode.IsLeaf, false_imp_iff, true_and]
        exact hr

end Find

/-! ## Inserting -/

section Insert

variable [LinearOrder K] {order : ℕ} {key : K}

omit [LinearOrder K] in
/-- A split stays inside if and only if the child is a leaf, and the order is odd. -/
theorem allInRange_bPlusTreeNodeSplitReads {numKeys index : ℕ} {child : BPlusNode K V}
    (hfull : child.numKeys = order) (hindex : index ≤ numKeys) :
    AllInRange (bPlusTreeNodeSplitReads order numKeys index child) ↔
      child.IsLeaf ∧ order % 2 = 1 := by
  have hparent : ∀ i ∈ (List.range' index (numKeys - index)).reverse, i < numKeys := by
    intro i hi
    rw [List.mem_reverse, List.mem_range'_1] at hi
    omega
  cases child with
  | leaf id slots n next =>
    have hmove : ∀ i ∈ List.range' ((order + 1) / 2) (order / 2), i < n := by
      intro i hi
      rw [List.mem_range'_1] at hi
      have : n = order := hfull
      omega
    rw [bPlusTreeNodeSplitReads, allInRange_append, allInRange_append, allInRange_bPlusKeyReads,
      allInRange_bPlusKeyReads, allInRange_bPlusKeyReads, and_iff_right hmove,
      and_iff_right hparent]
    simp only [List.mem_singleton, forall_eq, BPlusNode.IsLeaf, true_and]
    omega
  | inner slots n children =>
    have hlt : ¬order / 2 < order / 2 := lt_irrefl _
    simp only [bPlusTreeNodeSplitReads, allInRange_append, allInRange_bPlusKeyReads,
      List.mem_singleton, forall_eq, BPlusNode.IsLeaf, hlt, and_false, false_and]

/-- An insertion into a leaf stays inside. -/
theorem allInRange_insertReads_leaf (env : BPlusEnv) {c : BPlusNode K V} {ts : List (Tok K V)}
    (hc : c.Shape order 0 ts) (fuel : ℕ) :
    AllInRange (bPlusTreeNodeInsertReads order key fuel env c) := by
  cases c with
  | inner slots n children => exact hc.elim
  | leaf id slots n next =>
    cases fuel <;>
      exact allInRange_bPlusDescendReads key slots le_rfl

/-- The two reads in the arguments of `printf`. -/
theorem BPlusAimed.printf_iff {h n : ℕ} {slots : List (Option (K × V))}
    {children : List (Option (BPlusNode K V))} {SA SB : List (K × V)}
    {A B : List (BPlusNode K V × List (Tok K V))} {c : BPlusNode K V × List (Tok K V)}
    (haim : BPlusAimed order h key slots n children SA SB A B c) :
    (BPlusAccess.key (n - 1) n).InRange ∧ (BPlusAccess.key (SA.length - 1) n).InRange ↔
      (BPlusNode.inner slots n children).HasKeyLe key := by
  have hlen := haim.length
  rw [List.length_append] at hlen
  have hkey : (BPlusNode.inner slots n children).HasKeyLe key ↔ SA ≠ [] :=
    hasKeyLe_iff haim.slots haim.length haim.below haim.above
  rw [inRange_sub_one le_rfl, inRange_sub_one (by omega), hkey, ← List.length_pos_iff]
  omega

/-- **Insertion below a node that is not full.** -/
theorem allInRange_bPlusTreeNodeInsertReads (hord : 2 ≤ order) : ∀ {h : ℕ} (env : BPlusEnv)
    {node : BPlusNode K V}, node.Sound order h → node.numKeys < order →
    (AllInRange (bPlusTreeNodeInsertReads order key h env node) ↔
      BPlusPathInside order key node) := by
  intro h
  induction h with
  | zero =>
    rintro env node ⟨ts, hs⟩ hlt
    refine iff_of_true (allInRange_insertReads_leaf env hs 0) ?_
    cases node with
    | inner slots n children => exact hs.elim
    | leaf id slots n next =>
      intro m hm
      obtain rfl := onPath_leaf_iff.mp hm
      exact ⟨fun h ↦ absurd trivial h, fun h ↦ absurd h hlt.ne⟩
  | succ h ih =>
    rintro env node ⟨ts, hs⟩ hlt
    cases node with
    | leaf id slots n next => exact hs.elim
    | inner slots n children =>
      obtain ⟨SA, SB, A, B, c, haim⟩ := hs.exists_aimed key
      have hle : SA.length ≤ n := by
        rw [← haim.length, List.length_append]
        exact Nat.le_add_right _ _
      -- the node itself is not full, the rest is about the child
      have hpath : BPlusPathInside order key (.inner slots n children) ↔
          (BPlusNode.inner slots n children).HasKeyLe key ∧ BPlusPathInside order key c.1 := by
        have hne : (BPlusNode.inner slots n children).numKeys ≠ order := hlt.ne
        simp only [BPlusPathInside, haim.onPath_iff, or_imp, forall_and, forall_eq, hne,
          false_imp_iff, BPlusNode.IsLeaf, not_false_eq_true, true_imp_iff]
        tauto
      rw [hpath, ← haim.printf_iff, bPlusTreeNodeInsertReads, haim.descend, Option.elim_some,
        haim.read_child, Option.elim_some, List.cons_append, allInRange_cons, allInRange_append,
        allInRange_cons, and_iff_right (allInRange_bPlusDescendReads key slots le_rfl), and_assoc]
      refine and_congr_right fun _ ↦ and_congr_right fun _ ↦ ?_
      by_cases hfull : c.1.numKeys = order
      · obtain ⟨l, r, tl, tr, sep, slots', children', hsplit, hres, hslots', hchildren'⟩ :=
          bPlusTreeNodeSplit_spec hord env haim.slots haim.length hlt haim.children
            (by simpa using haim.lengthA) (by simpa using haim.lengthB) haim.shape_child hfull
        have hsep : read slots' SA.length = some sep := hslots'.read
        rw [if_pos hfull, allInRange_append, allInRange_bPlusTreeNodeSplitReads hfull hle, hsplit,
          Option.elim_some, allInRange_cons, inRange_natCast, hsep, Option.elim_some]
        constructor
        · rintro ⟨⟨hleaf, hodd⟩, -⟩ m hm
          cases hc : c.1 with
          | inner s k cs =>
            rw [hc] at hleaf
            exact hleaf.elim
          | leaf id s k nx =>
            rw [hc] at hm
            obtain rfl := onPath_leaf_iff.mp hm
            exact ⟨fun h ↦ absurd trivial h, fun _ ↦ ⟨trivial, hodd⟩⟩
        · intro hin
          have hc := (hin c.1 (.here _)).2 hfull
          refine ⟨hc, Nat.lt_succ_of_le hle, ?_⟩
          -- the halves of a leaf are leaves
          obtain rfl : h = 0 := by
            cases h with
            | zero => rfl
            | succ h =>
              have hshape := haim.shape_child
              cases hc' : c.1 with
              | leaf id s k nx =>
                rw [hc'] at hshape
                exact hshape.elim
              | inner s k cs =>
                rw [hc'] at hc
                exact hc.1.elim
          split_ifs with hgt
          · have hreadr : read children' (SA.length + 1) = some r := by
              have := SlotArray.Holds.read (X := A.map Prod.fst ++ [l]) (x := r)
                (Y := B.map Prod.fst) (by simpa using hchildren')
              simpa [haim.lengthA] using this
            rw [hreadr, Option.elim_some]
            exact allInRange_insertReads_leaf _ hres.right 0
          · have hreadl : read children' SA.length = some l := by
              have := SlotArray.Holds.read hchildren'
              simpa [haim.lengthA] using this
            rw [hreadl, Option.elim_some]
            exact allInRange_insertReads_leaf _ hres.left 0
      · rw [if_neg hfull]
        exact ih env ⟨c.2, haim.shape_child⟩ (lt_of_le_of_ne haim.shape_child.numKeys_le hfull)

/-- **Insertion into a tree with a root.** -/
theorem allInRange_bPlusTreeInsertReads {t : BPlusTree K V} (hord : 2 ≤ order) (hs : t.Sound order)
    {root : BPlusNode K V} (hroot : t.root = some root) :
    AllInRange (bPlusTreeInsertReads t key) ↔ BPlusInsertInside order key root := by
  obtain ⟨h, hnode⟩ := hs.root root hroot
  have hheight := hnode.height_eq
  obtain rfl := hs.order_eq
  by_cases hfull : root.numKeys = t.order
  · obtain ⟨ts, hshape⟩ := hnode
    obtain ⟨children, hwrite, hchildren⟩ :=
      (Holds.replicate (α := BPlusNode K V) (t.order + 1)).push (by simp) root
    rw [List.length_nil] at hwrite
    obtain ⟨l, r, tl, tr, sep, slots', children', hsplit, hres, hslots', hchildren'⟩ :=
      bPlusTreeNodeSplit_spec hord t.env (n := 0) (A := []) (B := [])
        (show Holds t.order _ ([] ++ []) from Holds.replicate (α := K × V) t.order) rfl (by omega)
        hchildren rfl rfl hshape hfull
    rw [List.length_nil, Nat.zero_add] at hsplit
    have htwo : (BPlusNode.inner slots' 1 children').Shape t.order (h + 1) _ :=
      BPlusNode.Shape.of_two (A := []) (B := []) (c := (l, tl)) (d := (r, tr)) hslots' rfl
        hchildren' rfl rfl (forall_mem_window (by simp) hres.left hres.right (by simp))
    have hsep : read slots' 0 = some sep := hslots'.read_of_getElem? rfl
    -- the key of the new root
    have hnew : (BPlusNode.inner slots' 1 children').HasKeyLe key ↔
        ∃ kv, read root.slots (t.order / 2) = some kv ∧ kv.1 ≤ key := by
      constructor
      · rintro ⟨j, kv, hj, hkv, hle⟩
        obtain rfl : j = 0 := Nat.lt_one_iff.mp hj
        obtain rfl : sep = kv := Option.some.inj (hsep.symm.trans hkv)
        exact ⟨sep, hres.read_child, hle⟩
      · rintro ⟨kv, hkv, hle⟩
        obtain rfl : sep = kv := Option.some.inj (hres.read_child.symm.trans hkv)
        exact ⟨0, sep, Nat.zero_lt_one, hsep, hle⟩
    obtain ⟨SA, SB, A, B, c, haim⟩ := htwo.exists_aimed key
    have hc : c.1 = l ∨ c.1 = r := by
      have hmem : some c.1 ∈ children'.take (1 + 1) :=
        some_mem_take haim.children
          (by rw [List.length_map, List.length_map, haim.lengthA, haim.lengthB,
            ← List.length_append, haim.length])
      rw [show children'.take (1 + 1) = [some l, some r] from hchildren'.take] at hmem
      simpa using hmem
    have hsmall : c.1.numKeys ≠ t.order := by
      rcases hc with hc | hc
      · rw [hc]
        exact hres.left_lt.ne
      · rw [hc]
        exact hres.right_lt.ne
    have hread : (write (List.replicate (t.order + 1) none) 0 (some root)).elim []
        (fun children ↦ (bPlusTreeNodeSplit t.order t.env (List.replicate t.order none) 0 children
          root 0).elim [] fun p ↦ bPlusTreeNodeInsertReads t.order key (root.height + 1) p.1
            (.inner p.2.1 p.2.2.1 p.2.2.2)) =
        bPlusTreeNodeInsertReads t.order key (h + 1) ⟨t.env.fresh + 1, t.env.splits ++ [(0, t.order)]⟩
          (.inner slots' 1 children') := by
      rw [hwrite, Option.elim_some, hsplit, Option.elim_some, hheight]
    simp only [bPlusTreeInsertReads, hroot, if_pos hfull, allInRange_append, hread]
    rw [allInRange_bPlusTreeNodeSplitReads hfull le_rfl,
      allInRange_bPlusTreeNodeInsertReads hord _ ⟨_, htwo⟩ (by simp only [BPlusNode.numKeys]; omega)]
    constructor
    · rintro ⟨⟨hleaf, hodd⟩, hin⟩
      refine ⟨fun m hm ↦ ?_, fun _ ↦ hnew.mp ((hin _ (.here _)).1 not_false)⟩
      cases root with
      | inner s k cs => exact hleaf.elim
      | leaf id s k nx =>
        obtain rfl := onPath_leaf_iff.mp hm
        exact ⟨fun h ↦ absurd trivial h, fun _ ↦ ⟨trivial, hodd⟩⟩
    · rintro ⟨hin, hmid⟩
      have hleaf := (hin root (.here _)).2 hfull
      refine ⟨hleaf, fun m hm ↦ ?_⟩
      -- the halves of a leaf are leaves
      obtain rfl : h = 0 := by
        cases h with
        | zero => rfl
        | succ h =>
          cases root with
          | leaf id s k nx => exact hshape.elim
          | inner s k cs => exact hleaf.1.elim
      rcases haim.onPath_iff.mp hm with rfl | hm
      · exact ⟨fun _ ↦ hnew.mpr (hmid hfull), fun heq ↦ by
          simp only [BPlusNode.numKeys] at heq
          omega⟩
      · obtain ⟨id, s, nx, es, hceq, -⟩ := haim.shape_child.eq_leaf
        have hc' : c.1 = .leaf id s es.length nx := congrArg Prod.fst hceq
        rw [hc'] at hm hsmall
        obtain rfl := onPath_leaf_iff.mp hm
        exact ⟨fun h ↦ absurd trivial h, fun heq ↦ absurd heq hsmall⟩
  · obtain ⟨ts, hshape⟩ := hnode
    simp only [bPlusTreeInsertReads, hroot, if_neg hfull, hheight]
    rw [allInRange_bPlusTreeNodeInsertReads hord _ ⟨ts, hshape⟩
      (lt_of_le_of_ne hshape.numKeys_le hfull), BPlusInsertInside, and_iff_left]
    exact fun heq ↦ absurd heq hfull

end Insert

/-! ## Removing -/

section Remove

variable [LinearOrder K] {order : ℕ}

theorem allInRange_bPlusLeafSearchReads (key : K) (slots : List (Option (K × V))) {numKeys : ℕ} :
    ∀ {rest index : ℕ}, index + rest ≤ numKeys →
      AllInRange (bPlusLeafSearchReads key slots numKeys rest index) := by
  intro rest
  induction rest with
  | zero =>
    intro index _
    exact allInRange_nil
  | succ rest ih =>
    intro index hle
    rw [bPlusLeafSearchReads, allInRange_cons, inRange_natCast]
    refine ⟨by omega, ?_⟩
    split_ifs with hkey
    · exact allInRange_nil
    · exact ih (by omega)

theorem allInRange_bPlusTreeLeafNodeRemoveReads (key : K) (slots : List (Option (K × V))) (n : ℕ) :
    AllInRange (bPlusTreeLeafNodeRemoveReads key slots n) := by
  rw [bPlusTreeLeafNodeRemoveReads, allInRange_append]
  refine ⟨allInRange_bPlusLeafSearchReads key slots (by omega), ?_⟩
  cases (bPlusLeafSearch key slots n 0).join with
  | none => exact allInRange_nil
  | some index =>
    refine allInRange_bPlusKeyReads.mpr fun i hi ↦ ?_
    rw [List.mem_range'_1] at hi
    omega

theorem allInRange_bPlusTreeMergeNodesReads (numKeys index rightKeys : ℕ) :
    AllInRange (bPlusTreeMergeNodesReads numKeys index rightKeys) := by
  rw [bPlusTreeMergeNodesReads, allInRange_append, allInRange_bPlusKeyReads,
    allInRange_bPlusKeyReads]
  refine ⟨fun i hi ↦ List.mem_range.mp hi, fun i hi ↦ ?_⟩
  rw [List.mem_range'_1] at hi
  omega

theorem allInRange_bPlusBorrowLeftReads {numKeys index leafKeys sibKeys : ℕ} (hindex : 0 < index)
    (hle : index ≤ numKeys) (hsib : 0 < sibKeys) :
    AllInRange (bPlusBorrowLeftReads numKeys index leafKeys sibKeys) := by
  rw [bPlusBorrowLeftReads, allInRange_append, allInRange_bPlusKeyReads, allInRange_cons,
    allInRange_cons, inRange_sub_one le_rfl, inRange_sub_one hle]
  refine ⟨fun i hi ↦ ?_, hsib.ne', hindex.ne', allInRange_nil⟩
  rw [List.mem_reverse, List.mem_range] at hi
  omega

theorem allInRange_bPlusBorrowRightReads {numKeys index sibKeys : ℕ} (hlt : index < numKeys) :
    AllInRange (bPlusBorrowRightReads numKeys index sibKeys) := by
  rw [bPlusBorrowRightReads]
  split_ifs with hsib
  · exact allInRange_nil
  · rw [allInRange_cons, allInRange_cons, allInRange_cons, inRange_natCast,
      allInRange_bPlusKeyReads]
    refine ⟨?_, hlt, ?_, fun i hi ↦ ?_⟩
    · simp only [BPlusAccess.InRange]
      omega
    · simp only [BPlusAccess.InRange]
      omega
    · rw [List.mem_range'_1] at hi
      omega

omit [LinearOrder K] in
/-- The neighbours that `b_plus_tree_adjust_leaf_balance` looks at are there. -/
theorem allInRange_adjustReads {n index leafKeys : ℕ} {children : List (Option (BPlusNode K V))}
    (hchildren : ∀ i ≤ n, ∃ c, read children i = some c) (hindex : index ≤ n) :
    AllInRange (bPlusTreeAdjustLeafBalanceReads order n children index leafKeys) := by
  have hlook : ∀ (isChild : Bool) (i : ℕ), i ≤ n ∨ isChild = false →
      AllInRange (bPlusCanBorrowReads children isChild i) := by
    intro isChild i hi
    rw [bPlusCanBorrowReads]
    split_ifs with hchild
    · obtain ⟨c, hc⟩ := hchildren i (hi.resolve_right (by simp [hchild]))
      rw [hc, Option.elim_some]
      exact allInRange_nil
    · exact allInRange_nil
  rw [bPlusTreeAdjustLeafBalanceReads, allInRange_append]
  refine ⟨hlook _ _ (Or.inl (by omega)), ?_⟩
  obtain ⟨l, hl⟩ := hchildren (index - 1) (by omega)
  by_cases hleft : bPlusCanBorrow order children (0 < index) (index - 1) = some true
  · rw [if_pos hleft, hl, Option.elim_some]
    have hpos : 0 < index := by
      by_contra hzero
      simp [bPlusCanBorrow, hzero] at hleft
    refine allInRange_bPlusBorrowLeftReads hpos hindex ?_
    simp only [bPlusCanBorrow, hpos, decide_true, if_true, hl, Option.map_some, Option.some.injEq,
      decide_eq_true_eq] at hleft
    omega
  · rw [if_neg hleft, allInRange_append]
    refine ⟨hlook _ _ ?_, ?_⟩
    · by_cases hlt : index < n
      · exact Or.inl hlt
      · exact Or.inr (decide_eq_false hlt)
    by_cases hright : bPlusCanBorrow order children (index < n) (index + 1) = some true
    · have hlt : index < n := by
        by_contra hge
        simp [bPlusCanBorrow, hge] at hright
      obtain ⟨r, hr⟩ := hchildren (index + 1) hlt
      rw [if_pos hright, hr, Option.elim_some]
      exact allInRange_bPlusBorrowRightReads hlt
    · rw [if_neg hright]
      split_ifs with hn hpos
      · rw [hl, Option.elim_some]
        exact allInRange_bPlusTreeMergeNodesReads _ _ _
      · obtain ⟨r, hr⟩ := hchildren (index + 1) (by omega)
        rw [hr, Option.elim_some]
        exact allInRange_bPlusTreeMergeNodesReads _ _ _
      · exact allInRange_nil

/-- **Removal below an internal node stays inside.** -/
theorem allInRange_bPlusTreeRemoveNodeReads (key : K) : ∀ {h : ℕ} {node : BPlusNode K V},
    node.Sound order (h + 1) → AllInRange (bPlusTreeRemoveNodeReads order key (h + 1) node) := by
  intro h
  induction h with
  | zero =>
    rintro node ⟨ts, hs⟩
    cases node with
    | leaf id slots n next => exact hs.elim
    | inner slots n children =>
      obtain ⟨SA, SB, A, B, c, haim⟩ := hs.exists_aimed key
      obtain ⟨id, leaf, next, es, hc, hleaf⟩ := haim.shape_child.eq_leaf
      have hread := haim.read_child
      rw [hc] at hread
      have hlen := haim.length
      rw [List.length_append] at hlen
      have hchildren : ∀ i ≤ n, ∃ d, read children i = some d := by
        intro i hi
        have hcount : i < (A.map Prod.fst ++ c.1 :: B.map Prod.fst).length := by
          rw [List.length_append, List.length_cons, List.length_map, List.length_map, haim.lengthA,
            haim.lengthB]
          omega
        exact ⟨_, haim.children.read_of_getElem? (List.getElem?_eq_getElem hcount)⟩
      rw [bPlusTreeRemoveNodeReads, allInRange_append, haim.descend, Option.elim_some]
      refine ⟨allInRange_bPlusDescendReads key slots le_rfl, ?_⟩
      simp only [hread, allInRange_append]
      refine ⟨allInRange_bPlusTreeLeafNodeRemoveReads key leaf _, ?_⟩
      cases (bPlusTreeLeafNodeRemove key leaf es.length).join with
      | none => exact allInRange_nil
      | some p =>
        rw [Option.elim_some]
        split_ifs with hsmall
        · exact allInRange_adjustReads hchildren (by omega)
        · exact allInRange_nil
  | succ h ih =>
    rintro node ⟨ts, hs⟩
    cases node with
    | leaf id slots n next => exact hs.elim
    | inner slots n children =>
      obtain ⟨SA, SB, A, B, c, haim⟩ := hs.exists_aimed key
      have hih := ih ⟨c.2, haim.shape_child⟩
      have hread := haim.read_child
      rw [bPlusTreeRemoveNodeReads, allInRange_append, haim.descend, Option.elim_some]
      refine ⟨allInRange_bPlusDescendReads key slots le_rfl, ?_⟩
      cases hc : c.1 with
      | leaf id s k nx =>
        have hshape := haim.shape_child
        rw [hc] at hshape
        exact hshape.elim
      | inner s k cs =>
        rw [hc] at hread hih
        simp only [hread]
        exact hih

end Remove

/-! ## Reachable trees -/

section Reachable

variable [LinearOrder K] {order : ℕ} {t : BPlusTree K V}

theorem allInRange_bPlusTreeFindReads (hs : t.Sound order) (key : K) :
    AllInRange (bPlusTreeFindReads t key) ↔ BPlusFindInside t key := by
  cases ht : t.root with
  | none => simp [bPlusTreeFindReads, ht, BPlusFindInside, BPlusAccess.InRange]
  | some root =>
    obtain ⟨h, hnode⟩ := hs.root root ht
    rw [bPlusTreeFindReads, ht, Option.elim_some, hnode.height_eq,
      allInRange_privateBPlusTreeFindReads hnode, BPlusFindInside]
    simp [ht]

theorem allInRange_bPlusTreeInsertOrUpdateReads (hord : 2 ≤ order) (hs : t.Sound order) (key : K) :
    AllInRange (bPlusTreeInsertOrUpdateReads t key) ↔ BPlusStoreInside t key := by
  cases ht : t.root with
  | none =>
    simp only [bPlusTreeInsertOrUpdateReads, bPlusTreeInsertReads, ht, BPlusStoreInside]
    exact iff_of_true allInRange_nil fun root hroot ↦ by simp at hroot
  | some root =>
    obtain ⟨h, hnode⟩ := hs.root root ht
    have hfind := allInRange_bPlusTreeFindReads hs key
    rw [bPlusTreeFindReads, ht, Option.elim_some, hnode.height_eq] at hfind
    obtain ⟨r, hr, hat⟩ := exists_privateBPlusTreeFind key hnode
    simp only [bPlusTreeInsertOrUpdateReads, ht, allInRange_append, hfind, BPlusStoreInside,
      Option.some.injEq, forall_eq', hnode.height_eq, hr, Option.elim_some]
    refine and_congr_right fun _ ↦ ?_
    cases r with
    | some p => exact iff_of_true allInRange_nil (Or.inl (hat.mp (by simp)))
    | none =>
      rw [hs.order_eq, ← allInRange_bPlusTreeInsertReads hord hs ht, or_iff_right]
      exact fun h ↦ hat.mpr h rfl

theorem allInRange_bPlusTreeRemoveReads (hs : t.Sound order) (key : K) :
    AllInRange (bPlusTreeRemoveReads t key) ↔ t.root ≠ none := by
  cases ht : t.root with
  | none => simp [bPlusTreeRemoveReads, ht, BPlusAccess.InRange]
  | some root =>
    obtain ⟨h, hnode⟩ := hs.root root ht
    refine iff_of_true ?_ (by simp)
    rw [bPlusTreeRemoveReads, ht, Option.elim_some]
    cases root with
    | leaf id slots n next => exact allInRange_bPlusTreeLeafNodeRemoveReads key slots n
    | inner slots n children =>
      cases h with
      | zero =>
        obtain ⟨ts, hshape⟩ := hnode
        exact hshape.elim
      | succ h =>
        simp only [hnode.height_eq, hs.order_eq]
        exact allInRange_bPlusTreeRemoveNodeReads key hnode

/-- **Which calls on a reachable tree stay inside.** After every sequence of calls, a removal stays inside
if and only if there is a root, and the two others if and only if the keys on the way are as
`BPlusFindInside` and `BPlusStoreInside` say. -/
theorem bPlusTree_allInRange_iff (hord : 2 ≤ order) {calls : List (BPlusCall K V)}
    {replies : List (Option Bool)}
    (hrun : run bPlusStep (bPlusTreeNew order) calls = some (t, replies)) (key : K) :
    (AllInRange (bPlusTreeFindReads t key) ↔ BPlusFindInside t key) ∧
      (AllInRange (bPlusTreeInsertOrUpdateReads t key) ↔ BPlusStoreInside t key) ∧
      (AllInRange (bPlusTreeRemoveReads t key) ↔ t.root ≠ none) := by
  have hs := run_bPlusStep_sound hord hrun
  exact ⟨allInRange_bPlusTreeFindReads hs key, allInRange_bPlusTreeInsertOrUpdateReads hord hs key,
    allInRange_bPlusTreeRemoveReads hs key⟩

/-- A tree of order 3 that holds the keys 1 and 2. -/
def bPlusTwoKeys : BPlusTree ℕ ℕ :=
  ⟨some (.leaf 0 [some (1, 10), some (2, 20), none] 2 none), 3, ⟨1, []⟩⟩

/-- The search for 2 in it. -/
theorem bPlusTree_allInRange_iff_two :
    (AllInRange (bPlusTreeFindReads bPlusTwoKeys 2) ↔ BPlusFindInside bPlusTwoKeys 2) ∧
      (AllInRange (bPlusTreeInsertOrUpdateReads bPlusTwoKeys 2) ↔ BPlusStoreInside bPlusTwoKeys 2) ∧
      (AllInRange (bPlusTreeRemoveReads bPlusTwoKeys 2) ↔ bPlusTwoKeys.root ≠ none) :=
  bPlusTree_allInRange_iff (by decide : 2 ≤ 3)
    (show run bPlusStep (bPlusTreeNew 3) [.store 2 20, .store 1 10] = some (_, [none, none]) from rfl) 2

/-- A search for 0 in it reads `keys[-1]`. -/
theorem bPlusTree_reads_outside :
    ¬∀ (order : ℕ) (calls : List (BPlusCall ℕ ℕ)) (t : BPlusTree ℕ ℕ) (replies : List (Option Bool))
      (key : ℕ), 2 ≤ order → run bPlusStep (bPlusTreeNew order) calls = some (t, replies) →
        AllInRange (bPlusTreeFindReads t key) ∧ AllInRange (bPlusTreeInsertOrUpdateReads t key) ∧
          AllInRange (bPlusTreeRemoveReads t key) := by
  intro h
  have hall := h 3 [.store 2 20, .store 1 10] bPlusTwoKeys [none, none] 0 (by decide) rfl
  exact absurd hall.1 (by decide)

end Reachable

end LatteC
