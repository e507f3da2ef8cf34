import LatteC.Foundation.CallMachine
import LatteC.Foundation.SortedAssoc

/-!
# The maple tree

`src/tree/maple_tree.c`: despite its name a treap, a binary search tree on the keys that is kept a
max-heap on priorities drawn from `rand()`. Insertion rotates on the way back up; removal rotates
the victim down until it has at most one child.

## What is proved

* `maple_tree_run_refines_map`: whatever `rand()` returns, every reply is the one a finite map
  gives, so two runs of the same calls cannot be told apart.
* `maple_tree_run_bst_heap`: every reachable tree is a strict search tree and a heap at once.

The search-tree half never looks at a priority: both rotations leave the in-order list unchanged,
so it is proved on `inorder` against `SortedAssoc`. The heap half never looks at a key order.
-/

namespace LatteC

open SortedAssoc

/-- `maple_node_t`; `nil` is the NULL pointer. -/
inductive MapleNode (K V : Type) where
  | nil : MapleNode K V
  | node (left : MapleNode K V) (key : K) (value : V) (priority : ℤ) (right : MapleNode K V) :
      MapleNode K V

/-- What the recursive functions reach through their `tree` argument: the `size` field, and the
values that the calls of `rand()` still to come will return. -/
structure MapleEnv where
  size : ℕ
  rand : ℕ → ℤ

/-- `maple_tree_t` together with the state of `rand()`. -/
structure MapleTree (K V : Type) where
  root : MapleNode K V
  env : MapleEnv

namespace MapleNode

variable {K V : Type}

/-- The number of nodes, the measure on which removal terminates. -/
def count : MapleNode K V → ℕ
  | nil => 0
  | node l _ _ _ r => l.count + 1 + r.count

/-- `child->priority > priority`. The callers never pass a NULL child. -/
def outranks : MapleNode K V → ℤ → Bool
  | nil, _ => false
  | node _ _ _ q _, p => decide (p < q)

/-- `rotate_right`: the left child, which is never NULL here, becomes the root. -/
def rotateRight : MapleNode K V → MapleNode K V
  | node (node a x vx px b) y vy py c => node a x vx px (node b y vy py c)
  | t => t

/-- `rotate_left`, the mirror image. -/
def rotateLeft : MapleNode K V → MapleNode K V
  | node a x vx px (node b y vy py c) => node (node a x vx px b) y vy py c
  | t => t

variable [LinearOrder K]

/-- `insert_node`. The flag is `*added`. -/
def insertNode (env : MapleEnv) (key : K) (value : V) :
    MapleNode K V → MapleNode K V × Bool × MapleEnv
  | nil =>
    -- `create_node` draws the priority
    (node nil key value (env.rand 0) nil, true,
      { size := env.size + 1, rand := fun n ↦ env.rand (n + 1) })
  | node l k v p r =>
    match compare key k with
    | .lt =>
      let res := insertNode env key value l
      let t := node res.1 k v p r
      (if res.1.outranks p then t.rotateRight else t, res.2)
    | .gt =>
      let res := insertNode env key value r
      let t := node l k v p res.1
      (if res.1.outranks p then t.rotateLeft else t, res.2)
    | .eq => (node l k value p r, false, env)

/-- `remove_node`. The flag is `*removed`. The two-child case rotates the victim down and descends
to it again. -/
def removeNode (env : MapleEnv) (key : K) : MapleNode K V → MapleNode K V × Bool × MapleEnv
  | nil => (nil, false, env)
  | node l k v p r =>
    match compare key k with
    | .lt =>
      let res := removeNode env key l
      (node res.1 k v p r, res.2)
    | .gt =>
      let res := removeNode env key r
      (node l k v p res.1, res.2)
    | .eq =>
      match l, r with
      | nil, r => (r, true, { env with size := env.size - 1 })
      | l, nil => (l, true, { env with size := env.size - 1 })
      | node a x vx px b, node c y vy py d =>
        if py < px then
          let res := removeNode env key (node b k v p (node c y vy py d))
          (node a x vx px res.1, res.2)
        else
          let res := removeNode env key (node (node a x vx px b) k v p c)
          (node res.1 y vy py d, res.2)
  termination_by t => t.count
  decreasing_by all_goals simp only [count]; omega

/-- The search loop of `maple_tree_get`. -/
def getNode (key : K) : MapleNode K V → Option V
  | nil => none
  | node l k v _ r =>
    match compare key k with
    | .eq => some v
    | .lt => getNode key l
    | .gt => getNode key r

end MapleNode

/-- The calls of the API. -/
inductive MapleCall (K V : Type) where
  | put (key : K) (value : V)
  | get (key : K)
  | remove (key : K)
  | size

/-- What a call returns: the `added` or `removed` flag, the value or NULL, or the size. -/
inductive MapleReply (V : Type) where
  | flag (b : Bool)
  | value (v : Option V)
  | size (n : ℕ)

section API

variable {K V : Type}

/-- `maple_tree_new`. -/
def mapleTreeNew (rand : ℕ → ℤ) : MapleTree K V := ⟨.nil, ⟨0, rand⟩⟩

variable [LinearOrder K]

/-- `maple_tree_put`. -/
def mapleTreePut (t : MapleTree K V) (key : K) (value : V) : MapleTree K V × Bool :=
  let res := t.root.insertNode t.env key value
  (⟨res.1, res.2.2⟩, res.2.1)

/-- `maple_tree_get`. -/
def mapleTreeGet (t : MapleTree K V) (key : K) : Option V := t.root.getNode key

/-- `maple_tree_remove`. -/
def mapleTreeRemove (t : MapleTree K V) (key : K) : MapleTree K V × Bool :=
  let res := t.root.removeNode t.env key
  (⟨res.1, res.2.2⟩, res.2.1)

/-- `maple_tree_size`. -/
def mapleTreeSize (t : MapleTree K V) : ℕ := t.env.size

/-- One call on the tree. -/
def mapleStep (t : MapleTree K V) : MapleCall K V → Option (MapleTree K V × MapleReply V)
  | .put key value =>
    let res := mapleTreePut t key value
    some (res.1, .flag res.2)
  | .get key => some (t, .value (mapleTreeGet t key))
  | .remove key =>
    let res := mapleTreeRemove t key
    some (res.1, .flag res.2)
  | .size => some (t, .size (mapleTreeSize t))

/-- The same call on a finite map. -/
def mapStep (m : Finmap fun _ : K ↦ V) :
    MapleCall K V → Option ((Finmap fun _ : K ↦ V) × MapleReply V)
  | .put key value => some (m.insert key value, .flag (decide (key ∉ m)))
  | .get key => some (m, .value (m.lookup key))
  | .remove key => some (m.erase key, .flag (decide (key ∈ m)))
  | .size => some (m, .size m.keys.card)

end API

/-! ## The in-order list -/

namespace MapleNode

variable {K V : Type}

/-- The entries from left to right. -/
def inorder : MapleNode K V → List (K × V)
  | nil => []
  | node l k v _ r => l.inorder ++ (k, v) :: r.inorder

@[simp] theorem inorder_nil : (nil : MapleNode K V).inorder = [] := rfl

@[simp] theorem inorder_node (l : MapleNode K V) (k : K) (v : V) (p : ℤ) (r : MapleNode K V) :
    (node l k v p r).inorder = l.inorder ++ (k, v) :: r.inorder := rfl

@[simp] theorem inorder_rotateRight (t : MapleNode K V) : t.rotateRight.inorder = t.inorder := by
  fun_cases rotateRight t
  · simp
  · rfl

@[simp] theorem inorder_rotateLeft (t : MapleNode K V) : t.rotateLeft.inorder = t.inorder := by
  fun_cases rotateLeft t
  · simp
  · rfl

section SearchOrder

variable [LinearOrder K]

/-- Strict binary search tree: every key to the left is smaller, every key to the right larger. -/
def IsBst : MapleNode K V → Prop
  | nil => True
  | node l k _ _ r =>
    l.IsBst ∧ r.IsBst ∧ (∀ a ∈ l.inorder, a.1 < k) ∧ ∀ b ∈ r.inorder, k < b.1

theorem isBst_iff_sorted : ∀ t : MapleNode K V, t.IsBst ↔ Sorted t.inorder := by
  intro t
  induction t with
  | nil => exact ⟨fun _ ↦ sorted_nil, fun _ ↦ trivial⟩
  | node l k v p r ihl ihr => rw [IsBst, inorder_node, sorted_mid_iff, ihl, ihr]

/-- What one insertion does to the entries, to the flag and to the size. -/
theorem insertNode_spec (env : MapleEnv) (key : K) (value : V) :
    ∀ t : MapleNode K V, Sorted t.inorder →
      (t.insertNode env key value).1.inorder = put key value t.inorder ∧
      (t.insertNode env key value).2.1 = (get key t.inorder).isNone ∧
      (t.insertNode env key value).2.2.size + t.inorder.length
        = env.size + (put key value t.inorder).length := by
  intro t
  induction t with
  | nil => intro _; exact ⟨rfl, rfl, rfl⟩
  | node l k v p r ihl ihr =>
    intro hs
    obtain ⟨hl, hr, hlk, hkr⟩ := sorted_mid hs
    simp only at hlk hkr
    rw [insertNode]
    cases hc : compare key k with
    | lt =>
      have hlt : key < k := compare_lt_iff_lt.mp hc
      have hgt : ∀ b ∈ (k, v) :: r.inorder, key < b.1 := by
        intro b hb
        rcases List.mem_cons.mp hb with rfl | hb
        · exact hlt
        · exact hlt.trans (hkr b hb)
      obtain ⟨h₁, h₂, h₃⟩ := ihl hl
      refine ⟨?_, ?_, ?_⟩
      · simp only [apply_ite inorder, inorder_rotateRight, ite_self, inorder_node, h₁]
        rw [put_append_of_gt hgt]
      · rw [inorder_node, get_append_of_gt hgt]
        exact h₂
      · rw [inorder_node, put_append_of_gt hgt, List.length_append, List.length_append]
        simp only
        omega
    | gt =>
      have hlt : k < key := compare_gt_iff_gt.mp hc
      have hlt' : ∀ a ∈ l.inorder, a.1 < key := fun a ha ↦ (hlk a ha).trans hlt
      obtain ⟨h₁, h₂, h₃⟩ := ihr hr
      refine ⟨?_, ?_, ?_⟩
      · simp only [apply_ite inorder, inorder_rotateLeft, ite_self, inorder_node, h₁]
        rw [put_append_of_lt hlt', put_cons_of_gt hlt]
      · rw [inorder_node, get_append_of_ne fun a ha ↦ (hlt' a ha).ne', get_cons_of_ne hlt.ne']
        exact h₂
      · rw [inorder_node, put_append_of_lt hlt', put_cons_of_gt hlt]
        simp only [List.length_append, List.length_cons]
        omega
    | eq =>
      obtain rfl : key = k := compare_eq_iff_eq.mp hc
      refine ⟨?_, ?_, ?_⟩
      · rw [inorder_node, inorder_node, put_append_of_lt hlk, put_cons_self]
      · rw [inorder_node, get_append_of_ne fun a ha ↦ (hlk a ha).ne', get_cons_self]
        rfl
      · rw [inorder_node, put_append_of_lt hlk, put_cons_self, List.length_append,
          List.length_append, List.length_cons, List.length_cons]

/-- What one removal does. Rotating the victim down regroups the in-order list but does not change
it, so the two-child case is its induction hypothesis read at the rotated tree. -/
theorem removeNode_spec (env : MapleEnv) (key : K) (t : MapleNode K V) :
    Sorted t.inorder → t.inorder.length ≤ env.size →
      (t.removeNode env key).1.inorder = del key t.inorder ∧
      (t.removeNode env key).2.1 = (get key t.inorder).isSome ∧
      (t.removeNode env key).2.2.size + t.inorder.length
        = env.size + (del key t.inorder).length := by
  fun_induction removeNode env key t with
  | case1 => exact fun _ _ ↦ ⟨rfl, rfl, rfl⟩
  | case2 l k v p r hc res ih =>
    intro hs hsz
    obtain ⟨hl, hr, hlk, hkr⟩ := sorted_mid hs
    have hlt : key < k := compare_lt_iff_lt.mp hc
    have hgt : ∀ b ∈ (k, v) :: r.inorder, key < b.1 := by
      intro b hb
      rcases List.mem_cons.mp hb with rfl | hb
      · exact hlt
      · exact hlt.trans (hkr b hb)
    rw [inorder_node, List.length_append] at hsz
    obtain ⟨h₁, h₂, h₃⟩ := ih hl (by omega)
    rw [inorder_node, inorder_node, del_append_of_gt hgt, get_append_of_gt hgt, h₁]
    refine ⟨rfl, h₂, ?_⟩
    change res.2.2.size + _ = _ at h₃
    simp only [List.length_append] at h₃ ⊢
    omega
  | case3 l k v p r hc res ih =>
    intro hs hsz
    obtain ⟨hl, hr, hlk, hkr⟩ := sorted_mid hs
    have hlt : k < key := compare_gt_iff_gt.mp hc
    have hne : ∀ a ∈ l.inorder, key ≠ a.1 := fun a ha ↦ ((hlk a ha).trans hlt).ne'
    rw [inorder_node, List.length_append, List.length_cons] at hsz
    obtain ⟨h₁, h₂, h₃⟩ := ih hr (by omega)
    rw [inorder_node, inorder_node, del_append_of_ne hne, del_cons_of_ne hlt.ne',
      get_append_of_ne hne, get_cons_of_ne hlt.ne', h₁]
    refine ⟨rfl, h₂, ?_⟩
    change res.2.2.size + _ = _ at h₃
    simp only [List.length_append, List.length_cons] at h₃ ⊢
    omega
  | case4 k v p hc r =>
    intro hs hsz
    obtain rfl : key = k := compare_eq_iff_eq.mp hc
    rw [inorder_node, inorder_nil, List.nil_append] at hsz ⊢
    rw [del_cons_self, get_cons_self]
    refine ⟨rfl, rfl, ?_⟩
    rw [List.length_cons] at hsz ⊢
    simp only
    omega
  | case5 k v p hc l _ =>
    intro hs hsz
    obtain rfl : key = k := compare_eq_iff_eq.mp hc
    obtain ⟨-, -, hlk, -⟩ := sorted_mid hs
    have hne : ∀ a ∈ l.inorder, key ≠ a.1 := fun a ha ↦ (hlk a ha).ne'
    rw [inorder_node, inorder_nil] at hsz ⊢
    rw [del_append_of_ne hne, get_append_of_ne hne, del_cons_self, get_cons_self,
      List.append_nil]
    refine ⟨rfl, rfl, ?_⟩
    rw [List.length_append, List.length_singleton] at hsz ⊢
    simp only
    omega
  | case6 k v p hc a x vx px b c y vy py d _ res ih =>
    intro hs hsz
    obtain rfl : key = k := compare_eq_iff_eq.mp hc
    have hreg : (node (node a x vx px b) key v p (node c y vy py d)).inorder
        = a.inorder ++ (x, vx) :: (node b key v p (node c y vy py d)).inorder := by simp
    rw [hreg] at hs hsz ⊢
    obtain ⟨-, hs', ha, hx⟩ := sorted_mid hs
    have hxk : x < key := hx (key, v) (by simp)
    have hne : ∀ e ∈ a.inorder, key ≠ e.1 := fun e he ↦ ((ha e he).trans hxk).ne'
    rw [List.length_append, List.length_cons] at hsz
    obtain ⟨h₁, h₂, h₃⟩ := ih hs' (by omega)
    rw [del_append_of_ne hne, del_cons_of_ne hxk.ne', get_append_of_ne hne,
      get_cons_of_ne hxk.ne', ← h₁]
    refine ⟨rfl, h₂, ?_⟩
    rw [← h₁] at h₃
    change res.2.2.size + _ = _ at h₃
    simp only [List.length_append, List.length_cons]
    omega
  | case7 k v p hc a x vx px b c y vy py d _ res ih =>
    intro hs hsz
    obtain rfl : key = k := compare_eq_iff_eq.mp hc
    have hreg : (node (node a x vx px b) key v p (node c y vy py d)).inorder
        = (node (node a x vx px b) key v p c).inorder ++ (y, vy) :: d.inorder := by simp
    rw [hreg] at hs hsz ⊢
    obtain ⟨hs', -, hy, hd⟩ := sorted_mid hs
    have hky : key < y := hy (key, v) (by simp)
    have hgt : ∀ e ∈ (y, vy) :: d.inorder, key < e.1 := by
      intro e he
      rcases List.mem_cons.mp he with rfl | he
      · exact hky
      · exact hky.trans (hd e he)
    rw [List.length_append] at hsz
    obtain ⟨h₁, h₂, h₃⟩ := ih hs' (by omega)
    rw [del_append_of_gt hgt, get_append_of_gt hgt, ← h₁]
    refine ⟨rfl, h₂, ?_⟩
    rw [← h₁] at h₃
    change res.2.2.size + _ = _ at h₃
    simp only [List.length_append]
    omega

theorem getNode_eq (key : K) : ∀ t : MapleNode K V, Sorted t.inorder →
    t.getNode key = get key t.inorder := by
  intro t
  induction t with
  | nil => exact fun _ ↦ rfl
  | node l k v p r ihl ihr =>
    intro hs
    obtain ⟨hl, hr, hlk, hkr⟩ := sorted_mid hs
    rw [getNode, inorder_node]
    cases hc : compare key k with
    | lt =>
      have hlt : key < k := compare_lt_iff_lt.mp hc
      rw [get_append_of_gt, ← ihl hl]
      intro b hb
      rcases List.mem_cons.mp hb with rfl | hb
      · exact hlt
      · exact hlt.trans (hkr b hb)
    | gt =>
      have hlt : k < key := compare_gt_iff_gt.mp hc
      rw [get_append_of_ne fun a ha ↦ ((hlk a ha).trans hlt).ne', get_cons_of_ne hlt.ne', ← ihr hr]
    | eq =>
      obtain rfl : key = k := compare_eq_iff_eq.mp hc
      rw [get_append_of_ne fun a ha ↦ (hlk a ha).ne', get_cons_self]

end SearchOrder

/-! ## The heap order -/

/-- The root, if there is one, has priority at most `p`. -/
def RootLe : MapleNode K V → ℤ → Prop
  | nil, _ => True
  | node _ _ _ q _, p => q ≤ p

/-- Max-heap on priorities: no child has a strictly larger priority than its parent. -/
def IsHeap : MapleNode K V → Prop
  | nil => True
  | node l _ _ p r => l.IsHeap ∧ r.IsHeap ∧ l.RootLe p ∧ r.RootLe p

/-- Both children of the root have priority at most `p`. -/
def ChildrenLe : MapleNode K V → ℤ → Prop
  | nil, _ => True
  | node l _ _ _ r, p => l.RootLe p ∧ r.RootLe p

theorem RootLe.mono {t : MapleNode K V} {p q : ℤ} (h : t.RootLe p) (hpq : p ≤ q) : t.RootLe q := by
  cases t with
  | nil => trivial
  | node => exact le_trans h hpq

theorem rootLe_of_not_outranks {t : MapleNode K V} {p : ℤ} (h : ¬t.outranks p = true) :
    t.RootLe p := by
  cases t with
  | nil => trivial
  | node => simpa [outranks, RootLe] using h

variable [LinearOrder K]

/-- Insertion keeps the heap. The new root may outrank the parent it is handed to, but nothing below
it can: that is what the rotation at the parent needs. -/
theorem isHeap_insertNode (env : MapleEnv) (key : K) (value : V) :
    ∀ t : MapleNode K V, t.IsHeap →
      (t.insertNode env key value).1.IsHeap ∧
      ∀ p, t.RootLe p → (t.insertNode env key value).1.ChildrenLe p := by
  intro t
  induction t with
  | nil => exact fun _ ↦ ⟨⟨trivial, trivial, trivial, trivial⟩, fun _ _ ↦ ⟨trivial, trivial⟩⟩
  | node l k v q r ihl ihr =>
    rintro ⟨hl, hr, hlq, hrq⟩
    rw [insertNode]
    cases hc : compare key k with
    | lt =>
      obtain ⟨hl', hkids⟩ := ihl hl
      by_cases ho : (l.insertNode env key value).1.outranks q = true
      · simp only [if_pos ho]
        generalize (l.insertNode env key value).1 = l' at hl' hkids ho
        cases l' with
        | nil => simp [outranks] at ho
        | node a x vx px b =>
          have hq : q ≤ px := by
            simp only [outranks, decide_eq_true_eq] at ho
            omega
          obtain ⟨ha, hb, hax, -⟩ := hl'
          obtain ⟨haq, hbq⟩ := hkids q hlq
          exact ⟨⟨ha, ⟨hb, hr, hbq, hrq⟩, hax, hq⟩, fun p hp ↦ ⟨haq.mono hp, hp⟩⟩
      · have hlq' := rootLe_of_not_outranks ho
        simp only [if_neg ho]
        exact ⟨⟨hl', hr, hlq', hrq⟩, fun p hp ↦ ⟨hlq'.mono hp, hrq.mono hp⟩⟩
    | gt =>
      obtain ⟨hr', hkids⟩ := ihr hr
      by_cases ho : (r.insertNode env key value).1.outranks q = true
      · simp only [if_pos ho]
        generalize (r.insertNode env key value).1 = r' at hr' hkids ho
        cases r' with
        | nil => simp [outranks] at ho
        | node b y vy py c =>
          have hq : q ≤ py := by
            simp only [outranks, decide_eq_true_eq] at ho
            omega
          obtain ⟨hb, hc, -, hcy⟩ := hr'
          obtain ⟨hbq, hcq⟩ := hkids q hrq
          exact ⟨⟨⟨hl, hb, hlq, hbq⟩, hc, hq, hcy⟩, fun p hp ↦ ⟨hp, hcq.mono hp⟩⟩
      · have hrq' := rootLe_of_not_outranks ho
        simp only [if_neg ho]
        exact ⟨⟨hl, hr', hlq, hrq'⟩, fun p hp ↦ ⟨hlq.mono hp, hrq'.mono hp⟩⟩
    | eq => exact ⟨⟨hl, hr, hlq, hrq⟩, fun p hp ↦ ⟨hlq.mono hp, hrq.mono hp⟩⟩

/-- Removing the root. Its own priority plays no part: on the way down the victim sits above
children it may well be outranked by the parent of, so only the two subtrees are required to be
heaps, and what comes back is bounded by whatever bounds both of them. -/
theorem isHeap_removeNode_root (env : MapleEnv) (key : K) (v : V) (p : ℤ) (l r : MapleNode K V)
    (hl : l.IsHeap) (hr : r.IsHeap) :
    ((node l key v p r).removeNode env key).1.IsHeap ∧
      ∀ q, l.RootLe q → r.RootLe q → ((node l key v p r).removeNode env key).1.RootLe q := by
  have hc : compare key key = .eq := compare_eq_iff_eq.mpr rfl
  match l, r, hl, hr with
  | nil, r, _, hr =>
    rw [removeNode, hc]
    exact ⟨hr, fun q _ h ↦ h⟩
  | node a x vx px b, nil, hl, _ =>
    rw [removeNode.eq_def]
    simp only [hc]
    exact ⟨hl, fun q h _ ↦ h⟩
  | node a x vx px b, node c y vy py d, ⟨ha, hb, hax, hbx⟩, ⟨hc', hd, hcy, hdy⟩ =>
    rw [removeNode, hc]
    by_cases hp : py < px
    · obtain ⟨ih, hle⟩ := isHeap_removeNode_root env key v p b (node c y vy py d) hb
        ⟨hc', hd, hcy, hdy⟩
      simp only [if_pos hp]
      exact ⟨⟨ha, ih, hax, hle px hbx hp.le⟩, fun q h _ ↦ h⟩
    · obtain ⟨ih, hle⟩ := isHeap_removeNode_root env key v p (node a x vx px b) c
        ⟨ha, hb, hax, hbx⟩ hc'
      simp only [if_neg hp]
      exact ⟨⟨ih, hd, hle py (not_lt.mp hp) hcy, hdy⟩, fun q _ h ↦ h⟩
  termination_by l.count + r.count
  decreasing_by all_goals simp only [count]; omega

theorem isHeap_removeNode (env : MapleEnv) (key : K) :
    ∀ t : MapleNode K V, t.IsHeap →
      (t.removeNode env key).1.IsHeap ∧ ∀ p, t.RootLe p → (t.removeNode env key).1.RootLe p := by
  intro t
  induction t with
  | nil =>
    intro _
    rw [removeNode]
    exact ⟨trivial, fun _ _ ↦ trivial⟩
  | node l k v q r ihl ihr =>
    rintro ⟨hl, hr, hlq, hrq⟩
    cases hc : compare key k with
    | lt =>
      obtain ⟨hl', hle⟩ := ihl hl
      rw [removeNode.eq_def]
      simp only [hc]
      exact ⟨⟨hl', hr, hle q hlq, hrq⟩, fun p hp ↦ hp⟩
    | gt =>
      obtain ⟨hr', hle⟩ := ihr hr
      rw [removeNode.eq_def]
      simp only [hc]
      exact ⟨⟨hl, hr', hlq, hle q hrq⟩, fun p hp ↦ hp⟩
    | eq =>
      obtain rfl : key = k := compare_eq_iff_eq.mp hc
      obtain ⟨h, hle⟩ := isHeap_removeNode_root env key v q l r hl hr
      exact ⟨h, fun p hp ↦ hle p (hlq.mono hp) (hrq.mono hp)⟩

end MapleNode

/-! ## Whole runs -/

section Runs

variable {K V : Type} [LinearOrder K]

/-- The tree holds the entries of `m`, in search order, and `size` counts them. -/
def MapleTree.Represents (t : MapleTree K V) (m : Finmap fun _ : K ↦ V) : Prop :=
  Sorted t.root.inorder ∧ t.env.size = t.root.inorder.length ∧ toMap t.root.inorder = m

theorem represents_mapleTreeNew (rand : ℕ → ℤ) :
    (mapleTreeNew rand : MapleTree K V).Represents ∅ := ⟨sorted_nil, rfl, rfl⟩

private theorem decide_mem_toMap (key : K) (l : List (K × V)) :
    decide (key ∈ toMap l) = (get key l).isSome := by
  rw [← lookup_toMap, Bool.eq_iff_iff, decide_eq_true_iff, Finmap.lookup_isSome]

theorem mapleStep_refines (t : MapleTree K V) (m : Finmap fun _ : K ↦ V) (c : MapleCall K V)
    (m' : Finmap fun _ : K ↦ V) (o : MapleReply V) (h : t.Represents m)
    (hm : mapStep m c = some (m', o)) :
    ∃ t', mapleStep t c = some (t', o) ∧ t'.Represents m' := by
  obtain ⟨hs, hsz, rfl⟩ := h
  cases c with
  | put key value =>
    obtain ⟨rfl, rfl⟩ := Prod.mk.inj (Option.some.inj hm)
    obtain ⟨h₁, h₂, h₃⟩ := t.root.insertNode_spec t.env key value hs
    refine ⟨(mapleTreePut t key value).1, ?_, ?_, ?_, ?_⟩
    · have hflag : (mapleTreePut t key value).2 = decide (key ∉ toMap t.root.inorder) := by
        rw [mapleTreePut, h₂, decide_not, decide_mem_toMap, Option.not_isSome]
      rw [mapleStep, hflag]
    · rw [mapleTreePut, h₁]
      exact sorted_put hs
    · rw [mapleTreePut, h₁]
      simp only
      omega
    · rw [mapleTreePut, h₁, toMap_put]
  | get key =>
    obtain ⟨rfl, rfl⟩ := Prod.mk.inj (Option.some.inj hm)
    refine ⟨t, ?_, hs, hsz, rfl⟩
    rw [mapleStep, mapleTreeGet, MapleNode.getNode_eq key _ hs, lookup_toMap]
  | remove key =>
    obtain ⟨rfl, rfl⟩ := Prod.mk.inj (Option.some.inj hm)
    obtain ⟨h₁, h₂, h₃⟩ := t.root.removeNode_spec t.env key hs hsz.ge
    refine ⟨(mapleTreeRemove t key).1, ?_, ?_, ?_, ?_⟩
    · have hflag : (mapleTreeRemove t key).2 = decide (key ∈ toMap t.root.inorder) := by
        rw [mapleTreeRemove, h₂, decide_mem_toMap]
      rw [mapleStep, hflag]
    · rw [mapleTreeRemove, h₁]
      exact sorted_del hs
    · rw [mapleTreeRemove, h₁]
      simp only
      omega
    · rw [mapleTreeRemove, h₁, toMap_del key hs]
  | size =>
    obtain ⟨rfl, rfl⟩ := Prod.mk.inj (Option.some.inj hm)
    refine ⟨t, ?_, hs, hsz, rfl⟩
    rw [mapleStep, mapleTreeSize, hsz, card_keys_toMap hs]

theorem isHeap_mapleStep (t : MapleTree K V) (c : MapleCall K V) (t' : MapleTree K V)
    (o : MapleReply V) (h : t.root.IsHeap) (hstep : mapleStep t c = some (t', o)) :
    t'.root.IsHeap := by
  cases c with
  | put key value =>
    obtain ⟨rfl, -⟩ := Prod.mk.inj (Option.some.inj hstep)
    exact (t.root.isHeap_insertNode t.env key value h).1
  | get key =>
    obtain ⟨rfl, -⟩ := Prod.mk.inj (Option.some.inj hstep)
    exact h
  | remove key =>
    obtain ⟨rfl, -⟩ := Prod.mk.inj (Option.some.inj hstep)
    exact (t.root.isHeap_removeNode t.env key h).1
  | size =>
    obtain ⟨rfl, -⟩ := Prod.mk.inj (Option.some.inj hstep)
    exact h

/-- Every sequence of calls runs to its end and answers as the finite map does. -/
theorem exists_run_represents (rand : ℕ → ℤ) (calls : List (MapleCall K V)) :
    ∃ (t : MapleTree K V) (m : Finmap fun _ : K ↦ V) (replies : List (MapleReply V)),
      CallMachine.run mapStep ∅ calls = some (m, replies) ∧
      CallMachine.run mapleStep (mapleTreeNew rand) calls = some (t, replies) ∧
      t.Represents m := by
  obtain ⟨m, replies, hm⟩ := CallMachine.exists_run_of_total (mapStep (K := K) (V := V))
    (fun m c ↦ by cases c <;> exact ⟨_, rfl⟩) calls ∅
  obtain ⟨t, ht, hrep⟩ :=
    CallMachine.run_refines mapleStep_refines (represents_mapleTreeNew rand) hm
  exact ⟨t, m, replies, hm, ht, hrep⟩

/-- **The treap is a finite map, whatever the priorities.** The replies are those of the map, so
they are the same for any two streams of random numbers. -/
theorem maple_tree_run_refines_map (rand rand' : ℕ → ℤ) (calls : List (MapleCall K V)) :
    ∃ (t t' : MapleTree K V) (m : Finmap fun _ : K ↦ V) (replies : List (MapleReply V)),
      CallMachine.run mapStep ∅ calls = some (m, replies) ∧
      CallMachine.run mapleStep (mapleTreeNew rand) calls = some (t, replies) ∧
      CallMachine.run mapleStep (mapleTreeNew rand') calls = some (t', replies) := by
  obtain ⟨t, m, replies, hm, ht, -⟩ := exists_run_represents rand calls
  obtain ⟨t', m', replies', hm', ht', -⟩ := exists_run_represents (V := V) rand' calls
  obtain ⟨-, rfl⟩ := Prod.mk.inj (Option.some.inj (hm.symm.trans hm'))
  exact ⟨t, t', m, replies, hm, ht, ht'⟩

/-- **Search tree and heap at once**, in every reachable tree and for every stream of priorities,
ties included. -/
theorem maple_tree_run_bst_heap (rand : ℕ → ℤ) (calls : List (MapleCall K V)) :
    ∃ (t : MapleTree K V) (replies : List (MapleReply V)),
      CallMachine.run mapleStep (mapleTreeNew rand) calls = some (t, replies) ∧
      t.root.IsBst ∧ t.root.IsHeap := by
  obtain ⟨t, m, replies, -, ht, hrep⟩ := exists_run_represents rand calls
  exact ⟨t, replies, ht, t.root.isBst_iff_sorted.mpr hrep.1,
    CallMachine.run_invariant (P := fun t ↦ t.root.IsHeap) isHeap_mapleStep trivial ht⟩

end Runs

end LatteC
