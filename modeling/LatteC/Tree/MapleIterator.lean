import LatteC.Tree.Maple
import LatteC.Foundation.Lookahead

/-!
# The iterator of the maple tree

`maple_tree_get_iterator` of `src/tree/maple_tree.c` walks the tree with a stack of nodes: those whose left
subtree is done. The capacity of the stack is an `int` that is doubled whenever the stack is full. What it
takes to get through a tree is therefore bounded by how often a path of the tree turns left, and nothing in a
treap bounds that if the priorities are bad enough.
-/

namespace LatteC

open SortedAssoc CallMachine Lookahead

variable {K V : Type}

/-- `maple_tree_iterator_t`. The stack is given from `stack[stack_top]` down to `stack[0]`. -/
structure MapleTreeIterator (K V : Type) where
  stack : List (MapleNode K V)
  stackCapacity : ℕ

/-- `stack_top`. -/
def MapleTreeIterator.stackTop (it : MapleTreeIterator K V) : ℤ := it.stack.length - 1

/-- A round of the loop in `push_left`. A fault is an overflow of `stack_capacity`, or a write behind the
end of the stack. -/
def mapleIteratorPush (it : MapleTreeIterator K V) (node : MapleNode K V) :
    Option (MapleTreeIterator K V) :=
  (if it.stackCapacity ≤ it.stackTop + 1 then
    if it.stackCapacity * 2 < 2 ^ 31 then some { it with stackCapacity := it.stackCapacity * 2 }
    else none
  else some it).bind fun it ↦
    if it.stackTop + 1 < it.stackCapacity then some { it with stack := node :: it.stack } else none

/-- `push_left`. -/
def maplePushLeft : MapleNode K V → MapleTreeIterator K V → Option (MapleTreeIterator K V)
  | .nil, it => some it
  | .node l k v p r, it => (mapleIteratorPush it (.node l k v p r)).bind (maplePushLeft l)

/-- `maple_tree_get_iterator`. -/
def mapleTreeGetIterator (tree : MapleTree K V) : Option (MapleTreeIterator K V) :=
  maplePushLeft tree.root ⟨[], 32⟩

/-- `iterator_has_next`. -/
def mapleIteratorHasNext (it : MapleTreeIterator K V) : Bool := decide (0 ≤ it.stackTop)

/-- `iterator_next`: the pair it points to, or NULL. -/
def mapleIteratorNext (it : MapleTreeIterator K V) :
    Option (MapleTreeIterator K V × Option (K × V)) :=
  match it.stack with
  | [] => some (it, none)
  | .nil :: _ => none
  | .node _ k v _ r :: stack =>
    (maplePushLeft r { it with stack := stack }).map fun it ↦ (it, some (k, v))

/-- A call of the iterator. -/
def mapleIteratorStep (it : MapleTreeIterator K V) :
    Call → Option (MapleTreeIterator K V × Reply (K × V))
  | .hasNext => some (it, .bool (mapleIteratorHasNext it))
  | .next => (mapleIteratorNext it).map fun r ↦ (r.1, .element r.2)

/-- The same call on the pairs that are still to come. -/
def pairsStep (pairs : List (K × V)) : Call → Option (List (K × V) × Reply (K × V))
  | .hasNext => some (pairs, .bool !pairs.isEmpty)
  | .next => some (pairs.tail, .element pairs.head?)

/-- The iterator goes through the tree: whatever calls are made, the replies are those of the sequence of
its pairs, in ascending order of the keys, and the top of the stack is below its capacity. -/
def MapleIterates [LinearOrder K] (tree : MapleTree K V) : Prop :=
  Sorted tree.root.inorder ∧ ∃ it₀, mapleTreeGetIterator tree = some it₀ ∧
    ∀ calls : List Call, ∃ it rest replies, run mapleIteratorStep it₀ calls = some (it, replies) ∧
      run pairsStep tree.root.inorder calls = some (rest, replies) ∧
      it.stackTop < it.stackCapacity

/-! ## How much of the stack is needed -/

namespace MapleNode

/-- How many nodes at which a path from the root turns left or ends. -/
def leftHeight : MapleNode K V → ℕ
  | nil => 0
  | node l _ _ _ r => max (l.leftHeight + 1) r.leftHeight

/-- What is handed out of a node on the stack and behind it: its pair and its right subtree. -/
def onward : MapleNode K V → List (K × V)
  | nil => []
  | node _ k v _ r => (k, v) :: r.inorder

/-- How many slots it takes from a node on the stack on. -/
def onwardHeight : MapleNode K V → ℕ
  | nil => 0
  | node _ _ _ _ r => max 1 r.leftHeight

end MapleNode

/-- How many slots it takes to empty the stack. -/
def mapleNeed : List (MapleNode K V) → ℕ
  | [] => 0
  | node :: stack => max (stack.length + node.onwardHeight) (mapleNeed stack)

/-- A node takes a slot. -/
theorem length_le_mapleNeed : ∀ {stack : List (MapleNode K V)}, MapleNode.nil ∉ stack →
    stack.length ≤ mapleNeed stack := by
  intro stack hnonnull
  cases stack with
  | nil => exact Nat.zero_le _
  | cons node stack =>
    cases node with
    | nil => exact absurd List.mem_cons_self hnonnull
    | node l k v p r =>
      rw [mapleNeed, List.length_cons, MapleNode.onwardHeight]
      omega

namespace MapleTreeIterator

/-- The stack fits into its capacity, which is a power of two and an `int`. -/
structure Fits (it : MapleTreeIterator K V) : Prop where
  capacity : ∃ e, 5 ≤ e ∧ e ≤ 30 ∧ it.stackCapacity = 2 ^ e
  length : it.stack.length ≤ it.stackCapacity
  nonnull : MapleNode.nil ∉ it.stack

/-- The pairs that are still to come. -/
def pending (it : MapleTreeIterator K V) : List (K × V) := it.stack.flatMap MapleNode.onward

variable {it : MapleTreeIterator K V}

namespace Fits

theorem length_le (h : it.Fits) : it.stack.length ≤ 2 ^ 30 := by
  obtain ⟨e, -, he, hcap⟩ := h.capacity
  rw [← Nat.pow_le_pow_iff_right (a := 2) (by decide)] at he
  exact h.length.trans (hcap ▸ he)

theorem stackTop_lt (h : it.Fits) : it.stackTop < it.stackCapacity := by
  have := h.length
  rw [stackTop]
  omega

/-- There is a slot for one node more as long as there are fewer than 2³⁰ of them. -/
theorem push (h : it.Fits) {node : MapleNode K V} (hnode : node ≠ .nil)
    (hlt : it.stack.length < 2 ^ 30) : ∃ it', mapleIteratorPush it node = some it' ∧ it'.Fits ∧
      it'.stack = node :: it.stack := by
  obtain ⟨e, he₅, he₃₀, hcap⟩ := h.capacity
  have hnonnull : MapleNode.nil ∉ node :: it.stack := by
    rw [List.mem_cons, not_or]
    exact ⟨hnode.symm, h.nonnull⟩
  have hlen := h.length
  have hlow : 2 ^ 5 ≤ 2 ^ e := Nat.pow_le_pow_right (by decide) he₅
  rw [← hcap] at hlow
  rw [mapleIteratorPush, stackTop]
  by_cases hfull : (it.stackCapacity : ℤ) ≤ (it.stack.length : ℤ) - 1 + 1
  · have he : e < 30 := by
      by_contra hge
      have : e = 30 := by omega
      subst this
      omega
    have hpow : 2 ^ (e + 1) ≤ 2 ^ 30 := Nat.pow_le_pow_right (by decide) he
    rw [Nat.pow_succ, ← hcap] at hpow
    rw [if_pos hfull, if_pos (by omega), Option.bind_some, stackTop, if_pos (by dsimp only; omega)]
    refine ⟨_, rfl, ⟨⟨e + 1, by omega, he, ?_⟩, ?_, hnonnull⟩, rfl⟩
    · rw [Nat.pow_succ, ← hcap]
    · rw [List.length_cons]
      dsimp only
      omega
  · rw [if_neg hfull, Option.bind_some, stackTop, if_pos (by omega)]
    refine ⟨_, rfl, ⟨⟨e, he₅, he₃₀, hcap⟩, ?_, hnonnull⟩, rfl⟩
    rw [List.length_cons]
    dsimp only
    omega

/-- With 2³⁰ nodes on the stack the capacity overflows. -/
theorem push_none (h : it.Fits) (node : MapleNode K V) (hge : 2 ^ 30 ≤ it.stack.length) :
    mapleIteratorPush it node = none := by
  obtain ⟨e, -, he₃₀, hcap⟩ := h.capacity
  have hpow : 2 ^ e ≤ 2 ^ 30 := Nat.pow_le_pow_right (by decide) he₃₀
  rw [← hcap] at hpow
  have hlen := h.length
  rw [mapleIteratorPush, stackTop, if_pos (by omega), if_neg (by omega)]
  rfl

/-- What `push_left` leaves, if there are enough slots. -/
theorem pushLeft : ∀ (t : MapleNode K V) {it : MapleTreeIterator K V}, it.Fits →
    (it.stack.length + t.leftHeight ≤ 2 ^ 30 → ∃ it', maplePushLeft t it = some it') ∧
    ∀ it', maplePushLeft t it = some it' → it'.Fits ∧ it'.pending = t.inorder ++ it.pending ∧
      mapleNeed it'.stack = max (it.stack.length + t.leftHeight) (mapleNeed it.stack) := by
  intro t
  induction t with
  | nil =>
    intro it h
    refine ⟨fun _ ↦ ⟨it, rfl⟩, fun it' heq ↦ ?_⟩
    rw [← Option.some.inj heq]
    refine ⟨h, rfl, ?_⟩
    rw [MapleNode.leftHeight, Nat.add_zero, Nat.max_eq_right (length_le_mapleNeed h.nonnull)]
  | node l k v p r ihl _ =>
    intro it h
    rw [maplePushLeft, MapleNode.leftHeight]
    by_cases hlt : it.stack.length < 2 ^ 30
    · obtain ⟨it₁, hpush, h₁, hstack⟩ := h.push (by simp : MapleNode.node l k v p r ≠ .nil) hlt
      obtain ⟨hsome, hafter⟩ := ihl h₁
      rw [hpush, Option.bind_some]
      rw [hstack, List.length_cons] at hsome hafter
      refine ⟨fun hle ↦ hsome (by omega), fun it' heq ↦ ?_⟩
      obtain ⟨h', hpending, hneed⟩ := hafter it' heq
      refine ⟨h', ?_, ?_⟩
      · rw [hpending, pending, hstack, List.flatMap_cons, MapleNode.onward, MapleNode.inorder,
          List.append_assoc, pending]
      · rw [hneed, mapleNeed, MapleNode.onwardHeight]
        omega
    · rw [h.push_none _ (by omega)]
      exact ⟨fun hle ↦ absurd hle (by omega), fun it' heq ↦ by cases heq⟩

end Fits

/-- What is still to come when `iterator_next` has been called. -/
theorem Fits.next (h : it.Fits) :
    (mapleNeed it.stack ≤ 2 ^ 30 → ∃ r, mapleIteratorNext it = some r) ∧
    ∀ it' e, mapleIteratorNext it = some (it', e) → it'.Fits ∧ it'.pending = it.pending.tail ∧
      e = it.pending.head? ∧
      (mapleNeed it'.stack ≤ 2 ^ 30 ↔ mapleNeed it.stack ≤ 2 ^ 30) := by
  obtain ⟨stack, capacity⟩ := it
  cases stack with
  | nil =>
    refine ⟨fun _ ↦ ⟨_, rfl⟩, fun it' e heq ↦ ?_⟩
    obtain ⟨rfl, rfl⟩ := Prod.mk.inj (Option.some.inj heq)
    exact ⟨h, rfl, rfl, Iff.rfl⟩
  | cons node stack =>
    cases node with
    | nil => exact absurd List.mem_cons_self h.nonnull
    | node l k v p r =>
      have hlen := h.length
      have hlength := h.length_le
      rw [List.length_cons] at hlen hlength
      have h₀ : (⟨stack, capacity⟩ : MapleTreeIterator K V).Fits :=
        ⟨h.capacity, by dsimp only at hlen ⊢; omega, fun hmem ↦ h.nonnull (List.mem_cons_of_mem _ hmem)⟩
      obtain ⟨hsome, hafter⟩ := Fits.pushLeft r h₀
      rw [mapleNeed, MapleNode.onwardHeight, mapleIteratorNext]
      refine ⟨fun hle ↦ ?_, fun it' e heq ↦ ?_⟩
      · obtain ⟨it', hpush⟩ := hsome (by dsimp only; omega)
        exact ⟨_, Option.map_eq_some_iff.mpr ⟨it', hpush, rfl⟩⟩
      · obtain ⟨it₁, hpush, heq⟩ := Option.map_eq_some_iff.mp heq
        obtain ⟨rfl, rfl⟩ := Prod.mk.inj heq
        obtain ⟨h', hpending, hneed⟩ := hafter it₁ hpush
        refine ⟨h', hpending, rfl, ?_⟩
        rw [hneed]
        dsimp only
        omega

theorem Fits.isEmpty_pending (h : it.Fits) : mapleIteratorHasNext it = !it.pending.isEmpty := by
  obtain ⟨stack, capacity⟩ := it
  cases stack with
  | nil => rfl
  | cons node stack =>
    cases node with
    | nil => exact absurd List.mem_cons_self h.nonnull
    | node l k v p r =>
      rw [mapleIteratorHasNext, stackTop, List.length_cons]
      simp [pending, MapleNode.onward]

/-! ## Whole iterations -/

/-- **Enough slots**: every sequence of calls is answered as the pairs to come answer it. -/
theorem Fits.run : ∀ (calls : List Call) {it : MapleTreeIterator K V}, it.Fits →
    mapleNeed it.stack ≤ 2 ^ 30 → ∃ it' rest replies,
      CallMachine.run mapleIteratorStep it calls = some (it', replies) ∧
      CallMachine.run pairsStep it.pending calls = some (rest, replies) ∧ it'.Fits := by
  intro calls
  induction calls with
  | nil => exact fun {it} h _ ↦ ⟨it, it.pending, [], rfl, rfl, h⟩
  | cons call calls ih =>
    intro it h hneed
    cases call with
    | hasNext =>
      obtain ⟨it', rest, replies, hrun, hpairs, h'⟩ := ih h hneed
      have hstep : mapleIteratorStep it .hasNext = some (it, .bool !it.pending.isEmpty) := by
        rw [mapleIteratorStep, h.isEmpty_pending]
      have hstep' : pairsStep it.pending .hasNext = some (it.pending, .bool !it.pending.isEmpty) :=
        rfl
      exact ⟨it', rest, _, by rw [run_cons_of_step hstep, hrun, Option.map_some],
        by rw [run_cons_of_step hstep', hpairs, Option.map_some], h'⟩
    | next =>
      obtain ⟨hsome, hafter⟩ := h.next
      obtain ⟨⟨it₁, e⟩, hnext⟩ := hsome hneed
      obtain ⟨h₁, hpending, rfl, hneed₁⟩ := hafter it₁ e hnext
      obtain ⟨it', rest, replies, hrun, hpairs, h'⟩ := ih h₁ (hneed₁.mpr hneed)
      have hstep : mapleIteratorStep it .next = some (it₁, .element it.pending.head?) := by
        rw [mapleIteratorStep, hnext, Option.map_some]
      have hstep' : pairsStep it.pending .next =
          some (it₁.pending, .element it.pending.head?) := by
        rw [pairsStep, hpending]
      exact ⟨it', rest, _, by rw [run_cons_of_step hstep, hrun, Option.map_some],
        by rw [run_cons_of_step hstep', hpairs, Option.map_some], h'⟩

/-- **Too few slots**: taking all pairs comes to a fault. -/
theorem Fits.run_none : ∀ (n : ℕ) {it : MapleTreeIterator K V}, it.Fits →
    2 ^ 30 < mapleNeed it.stack → it.pending.length = n →
      CallMachine.run mapleIteratorStep it (List.replicate n .next) = none := by
  intro n
  induction n with
  | zero =>
    intro it h hneed hlen
    have hpending : it.stack = [] := by
      by_contra hne
      have hhas := h.isEmpty_pending
      rw [List.length_eq_zero_iff.mp hlen, mapleIteratorHasNext, stackTop] at hhas
      have := List.length_pos_iff.mpr hne
      rw [List.isEmpty_nil, Bool.not_true, decide_eq_false_iff_not] at hhas
      omega
    rw [hpending] at hneed
    exact absurd hneed (Nat.not_lt_zero _)
  | succ n ih =>
    intro it h hneed hlen
    obtain ⟨-, hafter⟩ := h.next
    rw [List.replicate_succ]
    cases hnext : mapleIteratorNext it with
    | none =>
      rw [CallMachine.run, mapleIteratorStep, hnext]
      rfl
    | some r =>
      obtain ⟨it₁, e⟩ := r
      obtain ⟨h₁, hpending, -, hneed₁⟩ := hafter it₁ e hnext
      have hstep : mapleIteratorStep it .next = some (it₁, .element e) := by
        rw [mapleIteratorStep, hnext, Option.map_some]
      have hlt : 2 ^ 30 < mapleNeed it₁.stack := by
        by_contra hle
        exact absurd (hneed₁.mp (by omega)) (by omega)
      rw [run_cons_of_step hstep, ih h₁ hlt (by rw [hpending, List.length_tail, hlen]; rfl)]
      rfl

end MapleTreeIterator

theorem fits_new : (⟨[], 32⟩ : MapleTreeIterator K V).Fits :=
  ⟨⟨5, le_rfl, by decide, rfl⟩, Nat.zero_le _, List.not_mem_nil⟩

variable [LinearOrder K]

theorem mapleIterates_iff {tree : MapleTree K V} (h : Sorted tree.root.inorder) :
    MapleIterates tree ↔ tree.root.leftHeight ≤ 2 ^ 30 := by
  obtain ⟨hsome, hafter⟩ := MapleTreeIterator.Fits.pushLeft tree.root fits_new
  have hneed₀ : ∀ it, maplePushLeft tree.root ⟨[], 32⟩ = some it → it.Fits ∧
      it.pending = tree.root.inorder ∧ mapleNeed it.stack = tree.root.leftHeight := by
    intro it hpush
    obtain ⟨hfits, hpending, hneed⟩ := hafter it hpush
    refine ⟨hfits, by rw [hpending]; exact List.append_nil _, ?_⟩
    rw [hneed, mapleNeed, Nat.max_zero]
    exact Nat.zero_add _
  constructor
  · rintro ⟨-, it, hget, hcalls⟩
    obtain ⟨hfits, hpending, hneed⟩ := hneed₀ it hget
    by_contra hlt
    have hnone := hfits.run_none it.pending.length (by omega) rfl
    obtain ⟨it', rest, replies, hrun, -⟩ := hcalls (List.replicate it.pending.length .next)
    rw [hnone] at hrun
    cases hrun
  · intro hle
    obtain ⟨it, hget⟩ := hsome (by dsimp only [List.length_nil]; omega)
    obtain ⟨hfits, hpending, hneed⟩ := hneed₀ it hget
    refine ⟨h, it, hget, fun calls ↦ ?_⟩
    obtain ⟨it', rest, replies, hrun, hpairs, h'⟩ := hfits.run calls (hneed.trans_le hle)
    rw [hpending] at hpairs
    exact ⟨it', rest, replies, hrun, hpairs, h'.stackTop_lt⟩

/-- **When the iterator goes through the tree**, for every tree that calls make of a new one, whatever
`rand()` returns: it does if no path of the tree turns left so often that the stack needs more than 2³⁰
slots, and only then. -/
theorem mapleTreeIterator_right_iff (rand : ℕ → ℤ) (calls : List (MapleCall K V))
    (tree : MapleTree K V) (replies : List (MapleReply V))
    (hrun : run mapleStep (mapleTreeNew rand) calls = some (tree, replies)) :
    (∃ m, run mapStep ∅ calls = some (m, replies) ∧ toMap tree.root.inorder = m) ∧
      (MapleIterates tree ↔ tree.root.leftHeight ≤ 2 ^ 30) := by
  obtain ⟨tree', m, replies', hm, hrun', hsorted, -, hmap⟩ := exists_run_represents rand calls
  rw [hrun] at hrun'
  obtain ⟨rfl, rfl⟩ := Prod.mk.inj (Option.some.inj hrun')
  exact ⟨⟨m, hm, hmap⟩, mapleIterates_iff hsorted⟩

/-- A tree of three. -/
theorem mapleTreeIterator_right_iff_three :
    ∃ tree : MapleTree ℕ ℕ, (∃ replies, run mapleStep (mapleTreeNew fun n ↦ n)
      [.put 5 50, .put 3 30, .put 4 40] = some (tree, replies)) ∧ MapleIterates tree := by
  have hrun : run mapleStep (mapleTreeNew fun n ↦ n) [.put 5 50, .put 3 30, .put 4 40] =
      some ((⟨.node (.node .nil 3 30 1 .nil) 4 40 2 (.node .nil 5 50 0 .nil), ⟨3, fun n ↦ (n + 3 : ℕ)⟩⟩ :
        MapleTree ℕ ℕ), [.flag true, .flag true, .flag true]) := rfl
  exact ⟨_, ⟨_, hrun⟩, (mapleTreeIterator_right_iff _ _ _ _ hrun).2.mpr (by
    rw [MapleNode.leftHeight]
    simp [MapleNode.leftHeight])⟩

/-! ## A tree that only turns left -/

/-- A chain of left children with the same priority; the first key is that of the root. -/
def leftSpine : List ℤ → MapleNode ℤ Unit
  | [] => .nil
  | key :: keys => .node (leftSpine keys) key () 0 .nil

theorem leftHeight_leftSpine (keys : List ℤ) : (leftSpine keys).leftHeight = keys.length := by
  induction keys with
  | nil => rfl
  | cons key keys ih =>
    rw [leftSpine, MapleNode.leftHeight, MapleNode.leftHeight, Nat.max_zero, ih, List.length_cons]

/-- A smaller key with the same priority goes to the end of the chain. -/
theorem insertNode_leftSpine {env : MapleEnv} (henv : env.rand 0 = 0) {key : ℤ} :
    ∀ {keys : List ℤ}, (∀ k ∈ keys, key < k) →
      (leftSpine keys).insertNode env key () = (leftSpine (keys ++ [key]), true,
        { size := env.size + 1, rand := fun n ↦ env.rand (n + 1) }) := by
  intro keys
  induction keys with
  | nil =>
    intro _
    rw [leftSpine, MapleNode.insertNode, henv]
    rfl
  | cons k keys ih =>
    intro hlt
    have hcompare : compare key k = .lt := compare_lt_iff_lt.mpr (hlt k List.mem_cons_self)
    have hrank : (leftSpine (keys ++ [key])).outranks 0 = false := by
      cases keys <;> rfl
    rw [leftSpine, MapleNode.insertNode, hcompare]
    simp only [ih fun k hk ↦ hlt k (List.mem_cons_of_mem _ hk), hrank]
    rfl

/-- `0`, `-1`, and so on. -/
def descendingKeys (n : ℕ) : List ℤ := (List.range n).map fun i : ℕ ↦ -(i : ℤ)

theorem descendingKeys_succ (n : ℕ) : descendingKeys (n + 1) = descendingKeys n ++ [-(n : ℤ)] := by
  rw [descendingKeys, List.range_succ, List.map_append, List.map_cons, List.map_nil, descendingKeys]

/-- Descending keys are put. -/
def descendingPuts (n : ℕ) : List (MapleCall ℤ Unit) :=
  (descendingKeys n).map fun key ↦ .put key ()

theorem run_descendingPuts (n : ℕ) : run mapleStep (mapleTreeNew fun _ ↦ 0) (descendingPuts n) =
    some (⟨leftSpine (descendingKeys n), ⟨n, fun _ ↦ 0⟩⟩, List.replicate n (.flag true)) := by
  induction n with
  | zero => rfl
  | succ n ih =>
    have hsmaller : ∀ k ∈ descendingKeys n, -(n : ℤ) < k := by
      intro k hk
      obtain ⟨i, hi, rfl⟩ := List.mem_map.mp hk
      rw [List.mem_range] at hi
      omega
    have hinsert := insertNode_leftSpine (show (⟨n, fun _ ↦ 0⟩ : MapleEnv).rand 0 = 0 from rfl) hsmaller
    have hstep : mapleStep (⟨leftSpine (descendingKeys n), ⟨n, fun _ ↦ 0⟩⟩ : MapleTree ℤ Unit)
        (.put (-n) ()) =
        some (⟨leftSpine (descendingKeys (n + 1)), ⟨n + 1, fun _ ↦ 0⟩⟩, .flag true) := by
      rw [mapleStep, mapleTreePut, descendingKeys_succ]
      simp only [hinsert]
    rw [descendingPuts] at ih ⊢
    rw [descendingKeys_succ, List.map_append, run_append, ih, Option.bind_some, List.map_cons,
      List.map_nil, run_cons_of_step hstep, List.replicate_succ', descendingKeys_succ]
    rfl

/-- Keys put in descending order with equal priorities. -/
theorem descendingPuts_fail {n : ℕ} (hn : 2 ^ 30 < n) : ∃ (tree : MapleTree ℤ Unit)
    (replies : List (MapleReply Unit)),
      run mapleStep (mapleTreeNew fun _ ↦ 0) (descendingPuts n) = some (tree, replies) ∧
      ¬MapleIterates tree := by
  refine ⟨_, _, run_descendingPuts n, fun hiterates ↦ ?_⟩
  have hle := (mapleIterates_iff hiterates.1).mp hiterates
  rw [leftHeight_leftSpine, descendingKeys, List.length_map, List.length_range] at hle
  omega

/-- **A tree that is too deep**: 2³⁰ + 1 keys in descending order, and `rand()` returns the same every
time. -/
theorem mapleTreeIterator_overflow : ∃ (tree : MapleTree ℤ Unit) (replies : List (MapleReply Unit)),
    run mapleStep (mapleTreeNew fun _ ↦ 0) (descendingPuts (2 ^ 30 + 1)) = some (tree, replies) ∧
      ¬MapleIterates tree :=
  descendingPuts_fail (Nat.lt_succ_self _)

end LatteC
