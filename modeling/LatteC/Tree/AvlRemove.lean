import LatteC.Tree.AvlMap

/-!
# Removal from the AVL tree

`delete_child_node` finds the key of the root and no other. There it goes wrong in two more ways:
`*node = *temp` takes over the key of the only child and keeps the old value, and the successor's key
is copied without its value and then looked for on the wrong side. Where the tree owns its keys, the
key that was copied is freed.

`AvlRemoveSafe` is what remains: the trees and keys for which a removal does what it should.
-/

namespace LatteC

open SortedAssoc CallMachine

variable {K V : Type} [LinearOrder K]

/-- No key of the node has been freed. -/
def AvlNode.Readable (heap : AvlHeap) (node : AvlNode K V) : Prop :=
  ∀ k ∈ node.keys, avlKeyRead heap k = some k.content

omit [LinearOrder K] in
theorem AvlNode.Alive.readable {heap : AvlHeap} {node : AvlNode K V} (h : node.Alive heap) :
    node.Readable heap :=
  fun k hk ↦ if_neg (h k hk).2

section Remove

variable (type : AvlTreeType K)

/-- What a removal has to do: 1 and the other entries, in order and each key with its own value, if
the key is there; 0 and no change at all if not. -/
def AvlRemoveRight (tree : AvlTree K V) (key : K) : Prop :=
  if key ∈ tree.root.inorder.map Prod.fst then
    ∃ tree', avlTreeRemove type tree key = some (tree', 1) ∧ tree'.root.Readable tree'.heap ∧
      Sorted tree'.root.inorder ∧
      tree'.root.inorder = tree.root.inorder.filter fun e ↦ e.1 ≠ key
  else avlTreeRemove type tree key = some (tree, 0)

/-- The value of a node, if there is one, is `v`. -/
def AvlNode.ValueIs (v : V) : AvlNode K V → Prop
  | .nil => True
  | .node _ _ w _ _ => w = v

/-- Where a removal does what it has to. The key is that of the root, and the root is a leaf; or the
keys belong to the caller, and the values that end up at another key are equal to the one that belongs
there. Or the key is not in the tree, and the heights the removal passes are settled. -/
def AvlRemoveSafe (key : K) : AvlNode K V → Prop
  | .nil => True
  | .node l k v h r =>
    if key = k.content then
      match l, r with
      | .nil, .nil => True
      | .node _ _ w _ _, .nil | .nil, .node _ _ w _ _ => type.ownsKeys = false ∧ w = v
      | .node _ _ _ _ _, .node rl _ w _ rr =>
        type.ownsKeys = false ∧ w = v ∧ rl = .nil ∧ rr.ValueIs w
    else key ∉ (AvlNode.node l k v h r).inorder.map Prod.fst ∧
      (AvlNode.node l k v h r).Settled key

variable {type} {heap : AvlHeap}

/-- Freeing a key that is alive. -/
theorem avlReleaseNode_eq {k : AvlKey K} (hk : k.id ∉ heap.freed) :
    avlReleaseNode type heap k =
      some ⟨heap.fresh, if type.ownsKeys then k.id :: heap.freed else heap.freed⟩ := by
  rw [avlReleaseNode]
  split_ifs <;> rfl

/-- `*node = *temp` and the release of `temp`. -/
theorem deleteChildNode_one {c l r : AvlNode K V} {k tk : AvlKey K} {v tv : V} {h th : ℤ}
    {tl tr : AvlNode K V} (hc : c = .node tl tk tv th tr) (hlr : l = c ∧ r = .nil ∨ l = .nil ∧ r = c)
    (hlow : c.Low) (hk : avlKeyRead heap k = some k.content) (htk : tk.id ∉ heap.freed) :
    deleteChildNode type k.content (.node l k v h r) heap =
      some (.node tl tk v (avlNodeGetHeight tl) tr,
        ⟨heap.fresh, if type.ownsKeys then tk.id :: heap.freed else heap.freed⟩, true) := by
  subst hc
  have h0 := (type.operator_eq_zero_iff k.content k.content).mpr rfl
  rw [deleteChildNode.eq_def]
  simp only [hk, Option.bind_some, h0, lt_irrefl, if_false]
  rcases hlr with ⟨rfl, rfl⟩ | ⟨rfl, rfl⟩ <;>
  · simp only [avlReleaseNode_eq htk, Option.bind_some]
    rw [avlDeleteRebalance_eq hlow.1 hlow.2.2, Option.map_some]

theorem AvlNode.readable_release_iff {node : AvlNode K V} {x : AvlKey K} (hx : x ∈ node.keys)
    (halive : node.Alive heap) :
    node.Readable ⟨heap.fresh, if type.ownsKeys then x.id :: heap.freed else heap.freed⟩ ↔
      type.ownsKeys = false := by
  cases howns : type.ownsKeys with
  | false => exact iff_of_true halive.readable rfl
  | true =>
    refine iff_of_false (fun hread ↦ ?_) (Ne.symm Bool.false_ne_true)
    have hxread := hread x hx
    simp [avlKeyRead] at hxread

/-- What follows from a removal that says whether the key was found. -/
theorem avlRemoveRight_iff {tree : AvlTree K V} {key : K} {root : AvlNode K V} {heap : AvlHeap}
    {found : Bool} (hmem : key ∈ tree.root.inorder.map Prod.fst)
    (hdel : deleteChildNode type key tree.root tree.heap = some (root, heap, found)) :
    AvlRemoveRight type tree key ↔ found = true ∧ root.Readable heap ∧ Sorted root.inorder ∧
      root.inorder = tree.root.inorder.filter fun e ↦ e.1 ≠ key := by
  rw [AvlRemoveRight, if_pos hmem, avlTreeRemove, hdel, Option.map_some]
  constructor
  · rintro ⟨tree', heq, hread, hsorted, hin⟩
    simp only [Option.some.injEq, Prod.mk.injEq] at heq
    obtain ⟨rfl, hfound⟩ := heq
    refine ⟨?_, hread, hsorted, hin⟩
    cases found with
    | true => rfl
    | false => cases hfound
  · rintro ⟨rfl, hread, hsorted, hin⟩
    exact ⟨_, rfl, hread, hsorted, hin⟩

/-- A removal is right exactly under `ok`, and then the tree stays well formed. -/
structure AvlRemoveSpec (type : AvlTreeType K) (tree : AvlTree K V) (key : K) (ok : Prop) : Prop where
  right_iff : AvlRemoveRight type tree key ↔ ok
  built : ok → ∃ tree' found, avlTreeRemove type tree key = some (tree', found) ∧
    tree'.Built (del key tree.root.inorder)

/-- A removal that frees a key it goes on using, if it frees any. -/
theorem AvlTree.Built.remove_copied {tree : AvlTree K V} (h : tree.Built tree.root.inorder)
    {key : K} {root : AvlNode K V} {x : AvlKey K} {ok : Prop}
    (hmem : key ∈ tree.root.inorder.map Prod.fst)
    (hdel : deleteChildNode type key tree.root tree.heap = some (root,
      ⟨tree.heap.fresh, if type.ownsKeys then x.id :: tree.heap.freed else tree.heap.freed⟩, true))
    (hx : x ∈ root.keys) (hsub : ∀ k ∈ root.keys, k ∈ tree.root.keys) (hlow : root.Low)
    (hin : root.inorder = del key tree.root.inorder ↔ ok) :
    AvlRemoveSpec type tree key (type.ownsKeys = false ∧ ok) := by
  have halive : root.Alive tree.heap := fun k hk ↦ h.alive k (hsub k hk)
  have hsorted : Sorted (del key tree.root.inorder) := sorted_del h.sorted
  constructor
  · rw [avlRemoveRight_iff hmem hdel, AvlNode.readable_release_iff hx halive,
      ← del_eq_filter h.sorted, hin]
    constructor
    · rintro ⟨-, howns, -, hok⟩
      exact ⟨howns, hok⟩
    · rintro ⟨howns, hok⟩
      exact ⟨rfl, howns, by rwa [hin.mpr hok], hok⟩
  · rintro ⟨howns, hok⟩
    rw [howns] at hdel
    refine ⟨⟨root, tree.heap⟩, 1, by rw [avlTreeRemove, hdel]; rfl, hlow, ?_, halive, h.freed,
      hin.mpr hok⟩
    rwa [hin.mpr hok]

/-- Removing a key that is not in the tree, or not found. -/
theorem AvlTree.Built.remove_missed {tree : AvlTree K V} (h : tree.Built tree.root.inorder)
    {key : K} (hmiss : tree.root.Misses key) :
    AvlRemoveSpec type tree key
      (key ∉ tree.root.inorder.map Prod.fst ∧ tree.root.Settled key) := by
  obtain ⟨⟨root, hdel, -, -, -⟩, hsettled⟩ := deleteChildNode_of_misses type h.low h.alive hmiss
  have hright : avlTreeRemove type tree key = some (tree, 0) ↔ tree.root.Settled key := by
    rw [← hsettled, avlTreeRemove, hdel, Option.map_some]
    simp only [Option.some.injEq, Prod.mk.injEq, and_true]
    exact ⟨fun heq ↦ congrArg AvlTree.root heq.1, fun heq ↦ ⟨by rw [heq], rfl⟩⟩
  constructor
  · by_cases hmem : key ∈ tree.root.inorder.map Prod.fst
    · rw [avlRemoveRight_iff hmem hdel]
      exact iff_of_false (fun h ↦ Bool.false_ne_true h.1) fun h ↦ h.1 hmem
    · rw [AvlRemoveRight, if_neg hmem, hright, and_iff_right hmem]
  · rintro ⟨hmem, hset⟩
    refine ⟨tree, 0, hright.mpr hset, ?_⟩
    rw [del_eq_self fun a ha hk ↦ hmem (List.mem_map.mpr ⟨a, ha, hk.symm⟩)]
    exact h

omit [LinearOrder K] in
theorem findMinValueNode_mem : ∀ {node : AvlNode K V}, node ≠ .nil →
    ∃ temp, findMinValueNode node = some temp ∧ temp ∈ node.keys := by
  intro node
  induction node with
  | nil => exact fun h ↦ absurd rfl h
  | node l k v h r ihl _ =>
    intro _
    cases l with
    | nil => exact ⟨k, rfl, by simp [AvlNode.keys]⟩
    | node ll lk lv lh lr =>
      obtain ⟨temp, hmin, hmem⟩ := ihl (by simp)
      exact ⟨temp, hmin, List.mem_append_left _ hmem⟩

/-- The entries behind the root, when the root goes. -/
private theorem del_root {l r : AvlNode K V} {k : AvlKey K} {v : V} {h : ℤ}
    (hsorted : Sorted (AvlNode.node l k v h r).inorder) :
    del k.content (AvlNode.node l k v h r).inorder = l.inorder ++ r.inorder := by
  obtain ⟨-, -, hlt, -⟩ := sorted_mid hsorted
  rw [AvlNode.inorder, del_append_of_ne fun a ha ↦ (hlt a ha).ne', del_cons_self]

omit [LinearOrder K] in
private theorem root_mem (l r : AvlNode K V) (k : AvlKey K) (v : V) (h : ℤ) :
    k.content ∈ (AvlNode.node l k v h r).inorder.map Prod.fst := by
  simp [AvlNode.inorder]

variable {l r : AvlNode K V} {k : AvlKey K} {v : V} {h : ℤ}

/-- Removing a root with one child. -/
theorem AvlTree.Built.remove_one {tl tr : AvlNode K V} {tk : AvlKey K} {tv : V} {th : ℤ}
    (hb : (⟨.node l k v h r, heap⟩ : AvlTree K V).Built (AvlNode.node l k v h r).inorder)
    (hlr : l = .node tl tk tv th tr ∧ r = .nil ∨ l = .nil ∧ r = .node tl tk tv th tr) :
    AvlRemoveSpec type ⟨.node l k v h r, heap⟩ k.content (type.ownsKeys = false ∧ tv = v) := by
  have hlow : (AvlNode.node tl tk tv th tr).Low := by
    obtain ⟨hl, -, hr⟩ := hb.low
    rcases hlr with ⟨rfl, -⟩ | ⟨-, rfl⟩
    · exact hl
    · exact hr
  have hkeys : ∀ x ∈ (AvlNode.node tl tk tv th tr).keys, x ∈ (AvlNode.node l k v h r).keys := by
    intro x hx
    rcases hlr with ⟨rfl, -⟩ | ⟨-, rfl⟩
    · exact List.mem_append_left _ hx
    · exact List.mem_append_right _ (List.mem_cons_of_mem _ hx)
  refine hb.remove_copied (root_mem l r k v h) (deleteChildNode_one rfl hlr hlow
    hb.alive.node.2.1 (hb.alive tk (hkeys tk (by simp [AvlNode.keys]))).2) (by simp [AvlNode.keys])
    hkeys (low_node hlow.1 hlow.2.2 tk v) ?_
  rw [del_root hb.sorted]
  have hchild : l.inorder ++ r.inorder = (AvlNode.node tl tk tv th tr).inorder := by
    rcases hlr with ⟨rfl, rfl⟩ | ⟨rfl, rfl⟩
    · exact List.append_nil _
    · rfl
  rw [hchild]
  simp [AvlNode.inorder, eq_comm]

/-- Removing a root without children. -/
theorem AvlTree.Built.remove_leaf
    (hb : (⟨.node .nil k v h .nil, heap⟩ : AvlTree K V).Built
      (AvlNode.node .nil k v h .nil).inorder) :
    AvlRemoveSpec type ⟨.node .nil k v h .nil, heap⟩ k.content True := by
  obtain ⟨freed, hdel, hfreed⟩ := deleteChildNode_single type hb.alive
  have hdel' : del k.content (AvlNode.node .nil k v h .nil).inorder = [] := del_root hb.sorted
  constructor
  · rw [avlRemoveRight_iff (root_mem _ _ k v h) hdel, ← del_eq_filter hb.sorted]
    exact iff_of_true ⟨rfl, fun x hx ↦ absurd hx List.not_mem_nil, sorted_nil, hdel'.symm⟩ trivial
  · refine fun _ ↦ ⟨⟨.nil, heap.fresh, freed⟩, 1, by rw [avlTreeRemove, hdel]; rfl, trivial,
      sorted_nil, fun x hx ↦ absurd hx List.not_mem_nil, fun i hi ↦ ?_, hdel'.symm⟩
    rcases hfreed i hi with hi | hi
    · exact hb.freed i hi
    · exact hi

/-- A root with two children takes over the key of its successor, and the rest is up to the removal
of that key from the right subtree. -/
theorem deleteChildNode_two {temp : AvlKey K} {r' : AvlNode K V} {heap' : AvlHeap} {found : Bool}
    (hl : l ≠ .nil) (hr : r ≠ .nil) (hlow : l.Low) (hlow' : r'.Low)
    (hk : avlKeyRead heap k = some k.content) (hmin : findMinValueNode r = some temp)
    (htemp : avlKeyRead heap temp = some temp.content)
    (hdel : deleteChildNode type temp.content r heap = some (r', heap', found)) :
    deleteChildNode type k.content (.node l k v h r) heap =
      some (.node l temp v (avlNodeGetHeight l) r', heap', found) := by
  have h0 := (type.operator_eq_zero_iff k.content k.content).mpr rfl
  cases l with
  | nil => exact absurd rfl hl
  | node ll lk lv lh lr =>
    cases r with
    | nil => exact absurd rfl hr
    | node rl rk rv rh rr =>
      rw [deleteChildNode.eq_def]
      simp only [hk, Option.bind_some, h0, lt_irrefl, if_false, hmin, htemp, hdel]
      rw [avlDeleteRebalance_eq hlow hlow', Option.map_some]

/-- The successor is the right child. -/
theorem AvlTree.Built.remove_two {rr : AvlNode K V} {rk : AvlKey K} {rv : V} {rh : ℤ}
    (hb : (⟨.node l k v h (.node .nil rk rv rh rr), heap⟩ : AvlTree K V).Built
      (AvlNode.node l k v h (.node .nil rk rv rh rr)).inorder) (hl : l ≠ .nil) :
    AvlRemoveSpec type ⟨.node l k v h (.node .nil rk rv rh rr), heap⟩ k.content
      (type.ownsKeys = false ∧ rv = v ∧ rr.ValueIs rv) := by
  obtain ⟨hlow, -, hlowr⟩ := hb.low
  obtain ⟨-, hread, haliver⟩ := hb.alive.node
  have hrk : rk.id ∉ heap.freed := (haliver rk (by simp [AvlNode.keys])).2
  cases rr with
  | nil =>
    have hdel : deleteChildNode type rk.content (.node .nil rk rv rh .nil) heap =
        some (.nil, ⟨heap.fresh, if type.ownsKeys then rk.id :: heap.freed else heap.freed⟩,
          true) := by
      have h0 := (type.operator_eq_zero_iff rk.content rk.content).mpr rfl
      rw [deleteChildNode, haliver.node.2.1, Option.bind_some, if_neg (by omega),
        if_neg (by omega), avlReleaseNode_eq hrk, Option.map_some]
    have hnil : (AvlNode.nil : AvlNode K V).Low := trivial
    refine hb.remove_copied (root_mem _ _ k v h) (deleteChildNode_two hl (by simp) hlow hnil hread rfl
      haliver.node.2.1 hdel) (by simp [AvlNode.keys]) (fun x hx ↦ ?_) (low_node hlow hnil rk v) ?_
    · simp only [AvlNode.keys, List.mem_append, List.mem_cons] at hx ⊢
      tauto
    · rw [del_root hb.sorted]
      simp [AvlNode.inorder, AvlNode.ValueIs, eq_comm]
  | node tl tk tv th tr =>
    obtain ⟨-, -, hlowrr⟩ := hlowr
    have htk : tk.id ∉ heap.freed := (haliver tk (by simp [AvlNode.keys])).2
    have hdel : deleteChildNode type rk.content (.node .nil rk rv rh (.node tl tk tv th tr)) heap =
        some (.node tl tk rv (avlNodeGetHeight tl) tr, _, true) :=
      deleteChildNode_one rfl (Or.inr ⟨rfl, rfl⟩) hlowrr haliver.node.2.1 htk
    refine hb.remove_copied (root_mem _ _ k v h) (deleteChildNode_two hl (by simp) hlow
      (low_node hlowrr.1 hlowrr.2.2 tk rv) hread rfl haliver.node.2.1 hdel) (by simp [AvlNode.keys])
      (fun x hx ↦ ?_) (low_node hlow (low_node hlowrr.1 hlowrr.2.2 tk rv) rk v) ?_
    · simp only [AvlNode.keys, List.mem_append, List.mem_cons] at hx ⊢
      tauto
    · rw [del_root hb.sorted]
      simp [AvlNode.inorder, AvlNode.ValueIs, eq_comm]

/-- The successor is further down, on the side where it is not looked for. -/
theorem AvlTree.Built.remove_two_deep {rl rr : AvlNode K V} {rk : AvlKey K} {rv : V} {rh : ℤ}
    (hb : (⟨.node l k v h (.node rl rk rv rh rr), heap⟩ : AvlTree K V).Built
      (AvlNode.node l k v h (.node rl rk rv rh rr)).inorder) (hl : l ≠ .nil) (hrl : rl ≠ .nil) :
    AvlRemoveSpec type ⟨.node l k v h (.node rl rk rv rh rr), heap⟩ k.content False := by
  obtain ⟨hlow, -, hlowr⟩ := hb.low
  obtain ⟨-, hread, haliver⟩ := hb.alive.node
  obtain ⟨-, hsr, -, -⟩ := sorted_mid hb.sorted
  obtain ⟨temp, hmin, hmem⟩ := findMinValueNode_mem hrl
  have hmin' : findMinValueNode (.node rl rk rv rh rr) = some temp := by
    cases rl with
    | nil => exact absurd rfl hrl
    | node _ _ _ _ _ => exact hmin
  have hne : temp.content ≠ rk.content := by
    obtain ⟨w, hw⟩ := AvlNode.mem_inorder_of_mem_keys hmem
    obtain ⟨-, -, hlt, -⟩ := sorted_mid hsr
    exact (hlt _ hw).ne
  obtain ⟨r', hdel, hlowr', -, -⟩ := (deleteChildNode_of_ne type hlowr hsr haliver hne).run
  have htemp : avlKeyRead heap temp = some temp.content :=
    haliver.readable temp (List.mem_append_left _ hmem)
  have hroot : deleteChildNode type k.content (.node l k v h (.node rl rk rv rh rr)) heap =
      some (_, _, false) :=
    deleteChildNode_two hl (by simp) hlow hlowr' hread hmin' htemp hdel
  refine ⟨?_, False.elim⟩
  rw [avlRemoveRight_iff (root_mem _ _ k v h) hroot]
  exact iff_of_false (fun h ↦ Bool.false_ne_true h.1) id

/-- **Removal** is right exactly where it is safe. -/
theorem AvlTree.Built.remove {tree : AvlTree K V} (hb : tree.Built tree.root.inorder) (key : K) :
    AvlRemoveSpec type tree key (AvlRemoveSafe type key tree.root) := by
  obtain ⟨root, heap⟩ := tree
  cases root with
  | nil =>
    refine ⟨?_, fun _ ↦ ⟨⟨.nil, heap⟩, 0, rfl, hb⟩⟩
    rw [AvlRemoveRight, if_neg (by simp [AvlNode.inorder])]
    exact iff_of_true rfl trivial
  | node l k v h r =>
    rw [AvlRemoveSafe.eq_def]
    dsimp only
    by_cases hk : key = k.content
    · rw [if_pos hk, hk]
      cases l with
      | nil =>
        cases r with
        | nil => exact hb.remove_leaf
        | node _ _ _ _ _ => exact hb.remove_one (Or.inr ⟨rfl, rfl⟩)
      | node _ _ _ _ _ =>
        cases r with
        | nil => exact hb.remove_one (Or.inl ⟨rfl, rfl⟩)
        | node rl rk rv rh rr =>
          cases rl with
          | nil =>
            simpa only [true_and] using hb.remove_two (by simp)
          | node _ _ _ _ _ =>
            simpa only [reduceCtorEq, false_and, and_false] using hb.remove_two_deep (by simp) (by simp)
    · rw [if_neg hk]
      exact hb.remove_missed (AvlNode.misses_of_ne hb.sorted hk)

end Remove

/-! ## Runs -/

/-- A call of the tree. -/
inductive AvlCall (K V : Type) where
  | put (key : K) (value : V)
  | remove (key : K)

section Run

variable (type : AvlTreeType K)

/-- A call and what it returns. -/
def avlStep (tree : AvlTree K V) : AvlCall K V → Option (AvlTree K V × ℤ)
  | .put key value => avlTreePut type tree key value
  | .remove key => avlTreeRemove type tree key

/-- A put is always in order, a removal where it is safe. -/
def AvlCallSafe (tree : AvlTree K V) : AvlCall K V → Prop
  | .put _ _ => True
  | .remove key => AvlRemoveSafe type key tree.root

/-- The entries a call leaves. -/
def AvlCall.apply (entries : List (K × V)) : AvlCall K V → List (K × V)
  | .put key value => SortedAssoc.put key value entries
  | .remove key => entries.filter fun e ↦ e.1 ≠ key

theorem AvlTree.Built.step {tree : AvlTree K V} {entries : List (K × V)} (h : tree.Built entries)
    (c : AvlCall K V) (hsafe : AvlCallSafe type tree c) :
    ∃ tree' reply, avlStep type tree c = some (tree', reply) ∧ tree'.Built (c.apply entries) := by
  obtain rfl := h.inorder_eq
  cases c with
  | put key value =>
    obtain ⟨tree', hput, hbuilt, -⟩ := h.put type key value
    exact ⟨tree', _, hput, hbuilt⟩
  | remove key =>
    obtain ⟨tree', reply, hremove, hbuilt⟩ := (h.remove key).built hsafe
    rw [del_eq_filter h.sorted] at hbuilt
    exact ⟨tree', reply, hremove, hbuilt⟩

theorem AvlTree.Built.run : ∀ (calls : List (AvlCall K V)) {tree : AvlTree K V}
    {entries : List (K × V)}, tree.Built entries →
    Guarded (AvlCallSafe type) (avlStep type) tree calls →
    ∃ tree' replies, run (avlStep type) tree calls = some (tree', replies) ∧
      tree'.Built (calls.foldl AvlCall.apply entries) := by
  intro calls
  induction calls with
  | nil => exact fun h _ ↦ ⟨_, [], rfl, h⟩
  | cons c calls ih =>
    rintro tree entries h ⟨hsafe, hrest⟩
    obtain ⟨tree₁, reply, hstep, hbuilt⟩ := h.step type c hsafe
    obtain ⟨tree', replies, hrun, hbuilt'⟩ := ih hbuilt (hrest tree₁ reply hstep)
    exact ⟨tree', reply :: replies, by rw [run_cons_of_step hstep, hrun, Option.map_some], hbuilt'⟩

/-- **Removal over runs.** After any puts and safe removals the tree holds the entries it should, and
the next removal is right exactly if it is safe. -/
theorem avl_run_remove (calls : List (AvlCall K V))
    (hsafe : Guarded (AvlCallSafe type) (avlStep type) avlTreeNew calls) :
    ∃ tree replies, run (avlStep type) avlTreeNew calls = some (tree, replies) ∧
      tree.root.inorder = calls.foldl AvlCall.apply [] ∧ Sorted tree.root.inorder ∧
      tree.root.Readable tree.heap ∧
      ∀ key, AvlRemoveRight type tree key ↔ AvlRemoveSafe type key tree.root := by
  obtain ⟨tree, replies, hrun, hbuilt⟩ := avlTreeNew_built.run type calls hsafe
  have hin := hbuilt.inorder_eq
  refine ⟨tree, replies, hrun, hin, hbuilt.sorted, hbuilt.alive.readable, fun key ↦ ?_⟩
  rw [← hin] at hbuilt
  exact (hbuilt.remove key).right_iff

end Run

/-- A key is put twice, taken out, and put again. -/
theorem avl_run_remove_single :
    Guarded (AvlCallSafe avlIntTreeType) (avlStep avlIntTreeType) avlTreeNew
        [.put 10 'a', .put 10 'b', .remove 10, .put 5 'c'] ∧
      ∃ tree replies, run (avlStep avlIntTreeType) avlTreeNew
          [.put 10 'a', .put 10 'b', .remove 10, .put 5 'c'] = some (tree, replies) ∧
        tree.root.inorder = [(5, 'c')] ∧ AvlRemoveRight avlIntTreeType tree 5 := by
  have hsafe : Guarded (AvlCallSafe avlIntTreeType) (avlStep avlIntTreeType) avlTreeNew
      [.put 10 'a', .put 10 'b', .remove 10, .put 5 'c'] := by
    refine ⟨trivial, fun _ _ h ↦ ?_⟩
    obtain rfl := congrArg Prod.fst (Option.some.inj h)
    refine ⟨trivial, fun _ _ h ↦ ?_⟩
    obtain rfl := congrArg Prod.fst (Option.some.inj h)
    refine ⟨trivial, fun _ _ h ↦ ?_⟩
    obtain rfl := congrArg Prod.fst (Option.some.inj h)
    exact ⟨trivial, fun _ _ _ ↦ trivial⟩
  obtain ⟨tree, replies, hrun, hin, -, -, hright⟩ := avl_run_remove avlIntTreeType _ hsafe
  refine ⟨hsafe, tree, replies, hrun, by rw [hin]; decide, (hright 5).mpr ?_⟩
  obtain rfl := congrArg Prod.fst (Option.some.inj hrun)
  exact trivial

/-- The tree holds 5 and 10, and the removal of 5 says that it is not there. -/
theorem avl_remove_fails : ∃ tree replies, run (avlStep avlIntTreeType) avlTreeNew
      [.put 10 'a', .put 5 'b'] = some (tree, replies) ∧ ¬AvlRemoveRight avlIntTreeType tree 5 := by
  refine ⟨_, _, rfl, fun hright ↦ ?_⟩
  rw [AvlRemoveRight, if_pos (by decide)] at hright
  obtain ⟨tree', heq, -⟩ := hright
  have hreply : (some 0 : Option ℤ) = some 1 := congrArg (Option.map Prod.snd) heq
  exact absurd hreply (by decide)

end LatteC
