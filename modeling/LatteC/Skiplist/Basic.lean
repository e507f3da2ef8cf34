import LatteC.Sds.Basic
import Mathlib.Data.Prod.Lex
import Mathlib.Logic.Function.Basic
import Mathlib.Tactic.SplitIfs

/-!
# The skiplist

`src/skiplist/skiplist.c`: nodes with a tower of links, each with its span, behind a header with 32
levels.

## Modelling

The nodes are in a heap, and a pointer is an address or NULL. Following NULL, reading a level that a
node does not have, and comparing the score of the header, which is NULL, are faults: the function
returns `none`. The `unsigned long` arithmetic of spans is modulo 2⁶⁴. The ranks of
`skipListInsert` are of type `int`: what is stored there is cut down to 32 bits, and a difference
that is no `int` is a fault as well.

`zmalloc` is a parameter of the functions that allocate, the address that it returns, and so is the level
that `skipListRandomLevel` returns. The loops that follow forward pointers take the number of steps
they may make.
-/

namespace LatteC

/-- `ZSKIPLIST_MAXLEVEL`. -/
def zskiplistMaxlevel : ℕ := 32

/-- The address of a node, counted in units of 8 bytes, to which `zmalloc` aligns. -/
abbrev SlAddr : Type := Fin (2 ^ 61)

/-- What is stored in a node: the score and the element. -/
structure SkiplistItem (S : Type) where
  score : S
  ele : List UInt8

/-- `comparator`, with its contract: a total order on the items, and on the scores where no elements are
given. -/
structure SkiplistComparator (S : Type) [LinearOrder S] [LinearOrder (SkiplistItem S)] where
  comparator : Option (List UInt8) → S → Option (List UInt8) → S → ℤ
  neg_iff : ∀ a b : SkiplistItem S,
    comparator (some a.ele) a.score (some b.ele) b.score < 0 ↔ a < b
  score_neg_iff : ∀ s t, comparator none s none t < 0 ↔ s < t
  score_pos_iff : ∀ s t, 0 < comparator none s none t ↔ t < s

/-- A comparator that goes by the score first: where it puts one item before another, the score is not
greater. -/
structure SkiplistScoreComparator (S : Type) [LinearOrder S] [LinearOrder (SkiplistItem S)] extends
    SkiplistComparator S where
  score_le : ∀ a b : SkiplistItem S, a ≤ b → a.score ≤ b.score

/-- `struct skiplistLevel`. -/
@[ext] structure SkiplistLevel where
  forward : Option SlAddr
  span : ℕ
  deriving DecidableEq

/-- `skiplist_node_t`. The header has neither an element nor a score. -/
structure SkiplistNode (S : Type) where
  ele : Option (List UInt8)
  score : Option S
  backward : Option SlAddr
  level : List SkiplistLevel

/-- `skiplist_t`, with the nodes. -/
structure Skiplist (S : Type) where
  heap : SlAddr → Option (SkiplistNode S)
  header : SlAddr
  tail : Option SlAddr
  length : ℕ
  level : ℕ

/-- A number as an `unsigned long`. -/
def slUlong (z : ℤ) : ℕ := (z % 2 ^ 64).toNat

/-- A number assigned to an `int`. -/
def slInt (z : ℤ) : ℤ := (z + 2 ^ 31) % 2 ^ 32 - 2 ^ 31

/-- The result of `int` arithmetic. -/
def slIntResult (z : ℤ) : Option ℤ := if -2 ^ 31 ≤ z ∧ z < 2 ^ 31 then some z else none

variable {S : Type}

namespace Skiplist

variable (sl : Skiplist S)

/-- `x->level[i]`. -/
def levelAt (x : SlAddr) (i : ℕ) : Option SkiplistLevel := (sl.heap x).bind fun n ↦ n.level[i]?

/-- A node put into the heap. -/
def setNode (x : SlAddr) (n : SkiplistNode S) : Skiplist S :=
  { sl with heap := Function.update sl.heap x (some n) }

/-- An assignment to `x->level[i]`. -/
def setLevel (x : SlAddr) (i : ℕ) (l : SkiplistLevel) : Option (Skiplist S) :=
  (sl.heap x).bind fun n ↦
    if i < n.level.length then some (sl.setNode x { n with level := n.level.set i l }) else none

/-- An assignment to `x->backward`. -/
def setBackward (x : SlAddr) (b : Option SlAddr) : Option (Skiplist S) :=
  (sl.heap x).map fun n ↦ sl.setNode x { n with backward := b }

/-- The score of a node, which is about to be compared. -/
def scoreAt (x : SlAddr) : Option S := (sl.heap x).bind SkiplistNode.score

end Skiplist

/-- `skipListCreateNode`. -/
def skipListCreateNode (level : ℕ) (score : Option S) (ele : Option (List UInt8)) :
    SkiplistNode S :=
  ⟨ele, score, none, List.replicate level ⟨none, 0⟩⟩

/-- `skipListNew`. -/
def skipListNew (addr : SlAddr) : Skiplist S where
  heap := Function.update (fun _ ↦ none) addr (some (skipListCreateNode zskiplistMaxlevel none none))
  header := addr
  tail := none
  length := 0
  level := 1

/-- The loop of `skipListRandomLevel`, on the numbers that `random` returns. -/
def skipListRandomLevelLoop (level : ℕ) : List ℕ → Option ℕ
  | [] => none
  -- the bound is `0.25 * 0xFFFF`
  | r :: rs =>
    if 4 * (r &&& 0xFFFF) < 0xFFFF then skipListRandomLevelLoop (level + 1) rs
    else some (if level < zskiplistMaxlevel then level else zskiplistMaxlevel)

/-- `skipListRandomLevel`. -/
def skipListRandomLevel (draws : List ℕ) : Option ℕ := skipListRandomLevelLoop 1 draws

/-- A random level is between 1 and 32, whatever `random` returns. -/
theorem skipListRandomLevel_mem {draws : List ℕ} {level : ℕ}
    (h : skipListRandomLevel draws = some level) : 1 ≤ level ∧ level ≤ zskiplistMaxlevel := by
  have hloop : ∀ (draws : List ℕ) {n : ℕ}, 1 ≤ n → skipListRandomLevelLoop n draws = some level →
      1 ≤ level ∧ level ≤ zskiplistMaxlevel := by
    intro draws
    induction draws with
    | nil => exact fun _ h ↦ by cases h
    | cons r rs ih =>
      intro n hn h
      rw [skipListRandomLevelLoop] at h
      split_ifs at h with hr hlt
      · exact ih (Nat.le_succ_of_le hn) h
      · obtain rfl := Option.some.inj h
        exact ⟨hn, hlt.le⟩
      · obtain rfl := Option.some.inj h
        exact ⟨Nat.le_of_ble_eq_true rfl, le_rfl⟩
  exact hloop draws le_rfl h

/-! ## The descent -/

section Descent

variable (sl : Skiplist S) (go : SlAddr → Option Bool)

/-- `while (x->level[i].forward && ...) x = x->level[i].forward;`, with the rank that
`skipListInsert` keeps. -/
def slAdvance (i : ℕ) : (fuel : ℕ) → SlAddr → ℤ → Option (SlAddr × ℤ)
  | 0, _, _ => none
  | fuel + 1, x, rank =>
    (sl.levelAt x i).bind fun l ↦
      match l.forward with
      | none => some (x, rank)
      | some f => (go f).bind fun b ↦
          if b then slAdvance i fuel f (slInt (rank + l.span)) else some (x, rank)

/-- `for (i = sl->level - 1; i >= 0; i--)` over that loop. The list has `update[i]` and `rank[i]` at
position `i`. -/
def slDescend (fuel : ℕ) : (n : ℕ) → SlAddr → ℤ → Option (List (SlAddr × ℤ))
  | 0, _, _ => some []
  | n + 1, x, rank =>
    (slAdvance sl go n fuel x rank).bind fun r ↦
      (slDescend fuel n r.1 r.2).map fun ups ↦ ups ++ [r]

end Descent

/-- `for (; i < ...; i++)` over `update[i]`, from the level `i` on. -/
def slForEach {ε : Type} (body : ℕ → ε → Skiplist S → Option (Skiplist S)) :
    List ε → ℕ → Skiplist S → Option (Skiplist S)
  | [], _, sl => some sl
  | e :: es, i, sl => (body i e sl).bind (slForEach body es (i + 1))

/-! ## Insertion -/

section Insert

variable [LinearOrder S] [LinearOrder (SkiplistItem S)] (cmp : SkiplistComparator S)

/-- `sl->comparator(f->ele, f->score, ele, score) < 0`. -/
def slBefore (sl : Skiplist S) (item : SkiplistItem S) (f : SlAddr) : Option Bool :=
  (sl.heap f).bind fun n ↦
    n.score.map fun score ↦ decide (cmp.comparator n.ele score (some item.ele) item.score < 0)

/-- What is done where the header is opened on a new level: `update[i]->level[i].span = sl->length`. -/
def slOpenBody (length : ℕ) (i : ℕ) (up : SlAddr × ℤ) (sl : Skiplist S) : Option (Skiplist S) :=
  (sl.levelAt up.1 i).bind fun l ↦ sl.setLevel up.1 i { l with span := length }

/-- `for (i = 0; i < level; i++)`: the new node `x` is linked behind `update[i]`. -/
def slLinkBody (x : SlAddr) (rank0 : ℤ) (i : ℕ) (up : SlAddr × ℤ) (sl : Skiplist S) :
    Option (Skiplist S) :=
  (sl.levelAt up.1 i).bind fun l ↦
    (slIntResult (rank0 - up.2)).bind fun d ↦
      (slIntResult (d + 1)).bind fun d1 ↦
        (sl.setLevel x i ⟨l.forward, slUlong (l.span - d)⟩).bind fun sl ↦
          sl.setLevel up.1 i ⟨some x, slUlong d1⟩

/-- `for (i = level; i < sl->level; i++) update[i]->level[i].span++;` -/
def slSpanBody (i : ℕ) (up : SlAddr × ℤ) (sl : Skiplist S) : Option (Skiplist S) :=
  (sl.levelAt up.1 i).bind fun l ↦ sl.setLevel up.1 i { l with span := slUlong (l.span + 1) }

/-- The end of `skipListInsert`: the backward pointers, the tail and the length. -/
def slInsertEnd (sl : Skiplist S) (x u : SlAddr) : Option (Skiplist S) :=
  (sl.setBackward x (if u = sl.header then none else some u)).bind fun sl ↦
    (sl.levelAt x 0).bind fun l ↦
      match l.forward with
      | some f => (sl.setBackward f (some x)).map fun sl ↦
          { sl with length := slUlong (sl.length + 1) }
      | none => some { sl with tail := some x, length := slUlong (sl.length + 1) }

/-- `skipListInsert`, with the level that `skipListRandomLevel` returns and the address of the new
node. -/
def skipListInsert (fuel level : ℕ) (addr : SlAddr) (sl : Skiplist S) (item : SkiplistItem S) :
    Option (Skiplist S × SlAddr) :=
  (slDescend sl (slBefore cmp sl item) fuel sl.level sl.header 0).bind fun ups ↦
    let new := List.replicate (level - sl.level) (sl.header, (0 : ℤ))
    (slForEach (slOpenBody sl.length) new sl.level sl).bind fun opened ↦
      (ups ++ new).head?.bind fun first ↦
        let sl := { opened with level := max level sl.level }
        let sl := sl.setNode addr (skipListCreateNode level (some item.score) (some item.ele))
        (slForEach (slLinkBody addr first.2) ((ups ++ new).take level) 0 sl).bind fun sl ↦
          (slForEach slSpanBody ((ups ++ new).drop level) level sl).bind fun sl ↦
            (slInsertEnd sl addr first.1).map fun sl ↦ (sl, addr)

end Insert

/-! ## Deletion -/

section Delete

/-- The body of the loop that unlinks the node `x`. The new forward pointer goes to level `target i`. -/
def slUnlinkBody (target : ℕ → ℕ) (x : SlAddr) (i : ℕ) (u : SlAddr) (sl : Skiplist S) :
    Option (Skiplist S) :=
  (sl.levelAt u i).bind fun l ↦
    if l.forward = some x then
      (sl.levelAt x i).bind fun lx ↦
        (sl.setLevel u i { l with span := slUlong (l.span + (lx.span - 1)) }).bind fun sl ↦
          (sl.levelAt u (target i)).bind fun l ↦
            sl.setLevel u (target i) { l with forward := lx.forward }
    else sl.setLevel u i { l with span := slUlong (l.span - 1) }

/-- `while (sl->level > 1 && sl->header->level[sl->level-1].forward == NULL) sl->level--;`, from the
level `n` on. -/
def slShrink (sl : Skiplist S) : (n : ℕ) → Option ℕ
  | 0 => some 0
  | n + 1 =>
    if n = 0 then some 1
    else (sl.levelAt sl.header n).bind fun l ↦ if l.forward = none then slShrink sl n else some (n + 1)

/-- What `skiplistDeleteNode` and `slDeleteNode` have in common. -/
def slUnlinkNode (target : ℕ → ℕ) (sl : Skiplist S) (x : SlAddr) (update : List SlAddr) :
    Option (Skiplist S) :=
  (slForEach (slUnlinkBody target x) (update.take sl.level) 0 sl).bind fun sl ↦
    (sl.heap x).bind fun node ↦
      node.level.head?.bind fun l ↦
        (match l.forward with
        | some f => sl.setBackward f node.backward
        | none => some { sl with tail := node.backward }).bind fun sl ↦
          (slShrink sl sl.level).map fun level ↦
            { sl with level := level, length := slUlong (sl.length - 1) }

/-- `skiplistDeleteNode`. It assigns to `update[i]->level->forward`, which is that of level 0 whatever `i`
is. -/
def skiplistDeleteNode : Skiplist S → SlAddr → List SlAddr → Option (Skiplist S) :=
  slUnlinkNode fun _ ↦ 0

/-- `slDeleteNode`. It assigns to `update[i]->level[i].forward`; `skipListDelete` does not use it. -/
def slDeleteNode : Skiplist S → SlAddr → List SlAddr → Option (Skiplist S) :=
  slUnlinkNode fun i ↦ i

variable [LinearOrder S] [LinearOrder (SkiplistItem S)] (cmp : SkiplistComparator S)

/-- The node that `skipListDelete` has come to is the one that is looked for. -/
def slIsItem (sl : Skiplist S) (item : SkiplistItem S) (x : SlAddr) : Option Bool :=
  (sl.heap x).bind fun n ↦
    n.score.bind fun score ↦
      if cmp.comparator none score none item.score = 0 then
        n.ele.map fun ele ↦ decide (sdsCmp ele item.ele = 0)
      else some false

/-- `skipListDelete`. It returns the score, or NULL, and frees the node unless the caller wants to
`keep` it. -/
def skipListDelete (fuel : ℕ) (keep : Bool) (sl : Skiplist S) (item : SkiplistItem S) :
    Option (Skiplist S × Option S) :=
  (slDescend sl (slBefore cmp sl item) fuel sl.level sl.header 0).bind fun ups ↦
    ups.head?.bind fun first ↦
      (sl.levelAt first.1 0).bind fun l ↦
        match l.forward with
        | none => some (sl, none)
        | some x => (slIsItem cmp sl item x).bind fun found ↦
            if found then
              (skiplistDeleteNode sl x (ups.map Prod.fst)).bind fun sl ↦
                (sl.heap x).map fun node ↦
                  (if keep then sl else { sl with heap := Function.update sl.heap x none },
                    node.score)
            else some (sl, none)

end Delete

/-! ## Ranges -/

/-- `zrangespec`. -/
structure Zrangespec (S : Type) where
  min : S
  max : S
  minex : Bool
  maxex : Bool

section Range

variable [LinearOrder S] [LinearOrder (SkiplistItem S)] (cmp : SkiplistComparator S)

/-- `slValueGteMin`. -/
def slValueGteMin (score : S) (zs : Zrangespec S) : Bool :=
  let result := cmp.comparator none score none zs.min
  if zs.minex then decide (0 < result) else decide (0 ≤ result)

/-- `slValueLteMax`. -/
def slValueLteMax (score : S) (zs : Zrangespec S) : Bool :=
  let result := cmp.comparator none score none zs.max
  if zs.maxex then decide (result < 0) else decide (result ≤ 0)

/-- `!slValueGteMin(sl, f->score, range)`, the condition of the descent of `skiplist_firstInRange`. -/
def slBelowMin (sl : Skiplist S) (range : Zrangespec S) (f : SlAddr) : Option Bool :=
  (sl.scoreAt f).map fun score ↦ !slValueGteMin cmp score range

/-- `slValueLteMax(sl, f->score, range)`, the condition of the descent of `skiplist_lastInRange`. -/
def slUpToMax (sl : Skiplist S) (range : Zrangespec S) (f : SlAddr) : Option Bool :=
  (sl.scoreAt f).map fun score ↦ slValueLteMax cmp score range

/-- `slIsInRange`. -/
def slIsInRange (sl : Skiplist S) (range : Zrangespec S) : Option Bool :=
  let result := cmp.comparator none range.min none range.max
  if 0 < result ∨ result = 0 ∧ (range.minex ∨ range.maxex) then some false
  else
    match sl.tail with
    | none => some false
    | some x => (sl.scoreAt x).bind fun score ↦
        if !slValueGteMin cmp score range then some false
        else (sl.levelAt sl.header 0).bind fun l ↦
          match l.forward with
          | none => some false
          | some x => (sl.scoreAt x).map fun score ↦ slValueLteMax cmp score range

/-- `skiplist_firstInRange`. -/
def skiplistFirstInRange (fuel : ℕ) (sl : Skiplist S) (range : Zrangespec S) :
    Option (Option SlAddr) :=
  (slIsInRange cmp sl range).bind fun inRange ↦
    if !inRange then some none
    else
      (slDescend sl (slBelowMin cmp sl range) fuel sl.level sl.header 0).bind fun ups ↦
        ups.head?.bind fun first ↦
          (sl.levelAt first.1 0).bind fun l ↦
            l.forward.bind fun x ↦
              (sl.scoreAt x).map fun score ↦
                if !slValueLteMax cmp score range then none else some x

/-- `skiplist_lastInRange`. -/
def skiplistLastInRange (fuel : ℕ) (sl : Skiplist S) (range : Zrangespec S) :
    Option (Option SlAddr) :=
  (slIsInRange cmp sl range).bind fun inRange ↦
    if !inRange then some none
    else
      (slDescend sl (slUpToMax cmp sl range) fuel sl.level sl.header 0).bind fun ups ↦
        ups.head?.bind fun first ↦
          (sl.scoreAt first.1).map fun score ↦
            if !slValueGteMin cmp score range then none else some first.1

end Range

/-! ## The comparator of the tests -/

/-- Items in the order of `doubleComparator`. -/
instance : LinearOrder (SkiplistItem ℤ) :=
  LinearOrder.lift' (fun a ↦ toLex (a.score, sdsBytes a.ele)) fun a b hab ↦ by
    obtain ⟨hscore, hele⟩ := Prod.mk.inj (toLex.injective hab)
    cases a
    cases b
    exact congrArg₂ SkiplistItem.mk hscore (sdsBytes_injective hele)

theorem skiplistItem_lt_iff (a b : SkiplistItem ℤ) :
    a < b ↔ a.score < b.score ∨ a.score = b.score ∧ sdsBytes a.ele < sdsBytes b.ele :=
  Prod.Lex.toLex_lt_toLex

/-- `doubleComparator`, for scores that are integers. -/
def doubleComparator (aEle : Option (List UInt8)) (a : ℤ) (bEle : Option (List UInt8)) (b : ℤ) : ℤ :=
  if a < b then -1
  else if b < a then 1
  else
    match aEle, bEle with
    | none, none => 0
    | none, some _ => -1
    | some _, none => 1
    | some x, some y => sdsCmp x y

/-- The comparator of the tests meets the contract. -/
def intComparator : SkiplistScoreComparator ℤ where
  comparator := doubleComparator
  neg_iff a b := by
    rw [skiplistItem_lt_iff, doubleComparator]
    split_ifs with h₁ h₂
    · exact iff_of_true (by decide) (Or.inl h₁)
    · exact iff_of_false (by decide) fun h ↦ h.elim (fun h ↦ h₁ h) fun h ↦ h₂.ne h.1.symm
    · rw [sdsCmp_neg_iff, or_iff_right h₁, and_iff_right (le_antisymm (not_lt.mp h₂) (not_lt.mp h₁))]
  score_neg_iff s t := by
    rw [doubleComparator]
    split_ifs <;> simp [*]
  score_pos_iff s t := by
    rw [doubleComparator]
    split_ifs with h₁ h₂
    · exact iff_of_false (by decide) h₁.not_gt
    · exact iff_of_true (by decide) h₂
    · exact iff_of_false (lt_irrefl 0) h₂
  score_le a b hab := by
    refine not_lt.mp fun hlt ↦ hab.not_gt ?_
    exact (skiplistItem_lt_iff b a).mpr (Or.inl hlt)

end LatteC
