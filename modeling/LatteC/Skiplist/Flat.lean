import LatteC.Skiplist.WellFormed

/-!
# Lists without towers

The empty list, and for every `n` the list of the scores from 1 to `n` where all nodes have one level. The
second one is there for lists that are too long to be written down.
-/

namespace LatteC

open SkipLinks

variable {S : Type}

/-- A new skiplist is well formed. -/
theorem skipListNew_wellFormed [LE (SkiplistItem S)] (addr : SlAddr) :
    (skipListNew addr : Skiplist S).WellFormed [] where
  nodup := List.nodup_singleton _
  header := by
    simp [Skiplist.infoAt, skipListNew, skipListCreateNode]
  node := nofun
  links := by
    intro i P b Q hsplit hb
    cases P with
    | nil =>
      obtain ⟨rfl, rfl⟩ := List.cons.inj hsplit
      have hi : i < 1 := hb
      obtain rfl : i = 0 := by omega
      simp [Skiplist.column, Skiplist.levelAt, skipListNew, skipListCreateNode, zskiplistMaxlevel,
        linkTo, next]
    | cons p P =>
      obtain ⟨-, hsplit⟩ := List.cons.inj hsplit
      simp at hsplit
  unused := by
    intro i _ hi
    refine ⟨0, ?_⟩
    simp [Skiplist.column, Skiplist.levelAt, skipListNew, skipListCreateNode, hi]
  level_pos := le_rfl
  level_le := Nat.le_of_ble_eq_true rfl
  height_pos := nofun
  height_le := nofun
  level_used := Or.inl rfl
  backward := by
    intro P t Q hsplit
    simp at hsplit
  tail := rfl
  length := rfl
  sorted := List.Pairwise.nil

/-! ## The flat list -/

/-- The address of the `k`-th node; the header is number 0. -/
def flatAddr (k : ℕ) : SlAddr := Fin.ofNat (2 ^ 61) k

/-- The `k`-th node. -/
def flatTower (k : ℕ) : Tower ℤ := ⟨flatAddr k, 1, ⟨k, []⟩⟩

/-- The nodes of the flat list. -/
def flatTowers (n : ℕ) : List (Tower ℤ) := (List.range' 1 n).map flatTower

/-- The link of node number `k`. -/
def flatLink (n k : ℕ) : SkiplistLevel := if k < n then ⟨some (flatAddr (k + 1)), 1⟩ else ⟨none, 0⟩

/-- The nodes in the heap. -/
def flatHeap (n : ℕ) (x : SlAddr) : Option (SkiplistNode ℤ) :=
  if x.val = 0 then
    some ⟨none, none, none, flatLink n 0 :: List.replicate (zskiplistMaxlevel - 1) ⟨none, 0⟩⟩
  else if x.val ≤ n then
    some ⟨some [], some x.val, if x.val = 1 then none else some (flatAddr (x.val - 1)),
      [flatLink n x.val]⟩
  else none

/-- The flat list of the scores from 1 to `n`. -/
def flatSkiplist (n : ℕ) : Skiplist ℤ where
  heap := flatHeap n
  header := flatAddr 0
  tail := if n = 0 then none else some (flatAddr n)
  length := n
  level := 1

theorem flatAddr_val {k : ℕ} (hk : k < 2 ^ 61) : (flatAddr k).val = k := Nat.mod_eq_of_lt hk

theorem length_flatTowers (n : ℕ) : (flatTowers n).length = n := by
  rw [flatTowers, List.length_map, List.length_range']

theorem mem_flatTowers {n : ℕ} {t : Tower ℤ} :
    t ∈ flatTowers n ↔ ∃ k, 1 ≤ k ∧ k ≤ n ∧ t = flatTower k := by
  rw [flatTowers, List.mem_map]
  constructor
  · rintro ⟨k, hk, rfl⟩
    rw [List.mem_range'_1] at hk
    exact ⟨k, hk.1, by omega, rfl⟩
  · rintro ⟨k, hpos, hle, rfl⟩
    exact ⟨k, List.mem_range'_1.mpr ⟨hpos, by omega⟩, rfl⟩

section Flat

variable {n : ℕ} (hn : n < 2 ^ 61)

include hn

theorem flatSkiplist_heap {k : ℕ} (hpos : 1 ≤ k) (hle : k ≤ n) :
    (flatSkiplist n).heap (flatAddr k) = some ⟨some [], some (k : ℤ),
      if k = 1 then none else some (flatAddr (k - 1)), [flatLink n k]⟩ := by
  have hval := flatAddr_val (k := k) (by omega)
  refine (if_neg (by omega)).trans ((if_pos (by omega)).trans ?_)
  rw [hval]

omit hn in
/-- What is behind the last node is free. -/
theorem flatSkiplist_heap_of_lt {k : ℕ} (hlt : n < k) (hk : k < 2 ^ 61) :
    (flatSkiplist n).heap (flatAddr k) = none := by
  have hval := flatAddr_val hk
  exact (if_neg (by omega)).trans (if_neg (by omega))

omit hn in
/-- Where the list is cut. -/
theorem flat_split {P Q : List (SlAddr × ℕ)} {b : SlAddr × ℕ}
    (hsplit : (List.range' 0 (n + 1)).map (fun k ↦ (flatAddr k, 1)) = P ++ b :: Q) :
    P.length ≤ n ∧ b = (flatAddr P.length, 1) ∧ linkTo 0 Q = flatLink n P.length := by
  have hlen := congrArg List.length hsplit
  rw [List.length_map, List.length_range', List.length_append, List.length_cons] at hlen
  have hat : ∀ i < n + 1, (P ++ b :: Q)[i]? = some (flatAddr i, 1) := by
    intro i hi
    rw [← hsplit, List.getElem?_map, List.getElem?_range' hi, Option.map_some, Nat.zero_add,
      Nat.one_mul]
  refine ⟨by omega, ?_, ?_⟩
  · have hb := hat P.length (by omega)
    rw [List.getElem?_append_right le_rfl, Nat.sub_self] at hb
    exact Option.some.inj hb
  · cases Q with
    | nil =>
      rw [List.length_nil] at hlen
      rw [flatLink, if_neg (by omega)]
      rfl
    | cons q Q =>
      rw [List.length_cons] at hlen
      have hq := hat (P.length + 1) (by omega)
      rw [List.getElem?_append_right (Nat.le_succ _), Nat.succ_sub (le_refl _), Nat.sub_self] at hq
      obtain rfl : q = (flatAddr (P.length + 1), 1) := Option.some.inj hq
      rw [linkTo, next_cons_of_lt (by exact Nat.one_pos), flatLink, if_pos (by omega)]
      rfl

omit hn in
theorem flat_posts : (flatAddr 0, 1) :: (flatTowers n).map Tower.post =
    (List.range' 0 (n + 1)).map fun k ↦ (flatAddr k, 1) := by
  rw [flatTowers, List.map_map, List.range'_succ, List.map_cons]
  rfl

/-- **The flat list is well formed.** -/
theorem flatSkiplist_wellFormed : (flatSkiplist n).WellFormed (flatTowers n) where
  nodup := by
    have haddr : (flatSkiplist n).header :: (flatTowers n).map Tower.addr =
        (List.range' 0 (n + 1)).map flatAddr := by
      rw [flatTowers, List.map_map, List.range'_succ, List.map_cons]
      rfl
    rw [haddr]
    refine (List.nodup_range' _ Nat.one_pos).map_on fun i hi j hj hij ↦ ?_
    rw [List.mem_range'_1] at hi hj
    have hval := congrArg Fin.val hij
    rwa [flatAddr_val (by omega), flatAddr_val (by omega)] at hval
  header := by
    simp [Skiplist.infoAt, flatSkiplist, flatHeap, flatAddr, zskiplistMaxlevel]
  node := by
    intro t ht
    obtain ⟨k, hpos, hle, rfl⟩ := mem_flatTowers.mp ht
    exact congrArg (Option.map _) (flatSkiplist_heap hn hpos hle)
  links := by
    intro i P b Q hsplit hb
    obtain ⟨hle, rfl, hlink⟩ := flat_split (flat_posts.symm.trans hsplit)
    have hb : i < 1 := hb
    obtain rfl : i = 0 := by omega
    rw [hlink, Skiplist.column, Skiplist.levelAt]
    rcases Nat.eq_zero_or_pos P.length with hzero | hpos
    · rw [hzero]
      rfl
    · rw [flatSkiplist_heap hn hpos hle]
      rfl
  unused := by
    intro i hle hlt
    obtain ⟨j, rfl⟩ := Nat.exists_eq_add_of_le hle
    refine ⟨0, ?_⟩
    have hhead : (flatSkiplist n).column ((flatSkiplist n).level + j) (flatSkiplist n).header =
        (flatLink n 0 :: List.replicate (zskiplistMaxlevel - 1) ⟨none, 0⟩)[j + 1]? := by
      rw [Nat.add_comm]
      rfl
    have hlt : 1 + j < zskiplistMaxlevel := hlt
    rw [hhead, List.getElem?_cons_succ, List.getElem?_replicate_of_lt (by omega)]
  level_pos := le_rfl
  level_le := Nat.le_of_ble_eq_true rfl
  height_pos := by
    intro t ht
    obtain ⟨k, -, -, rfl⟩ := mem_flatTowers.mp ht
    exact le_rfl
  height_le := by
    intro t ht
    obtain ⟨k, -, -, rfl⟩ := mem_flatTowers.mp ht
    exact le_rfl
  level_used := Or.inl rfl
  backward := by
    intro P t Q hsplit
    have hlen := congrArg List.length hsplit
    rw [length_flatTowers, List.length_append, List.length_cons] at hlen
    have hat : ∀ i < n, (P ++ t :: Q)[i]? = some (flatTower (i + 1)) := by
      intro i hi
      rw [← hsplit, flatTowers, List.getElem?_map, List.getElem?_range' hi, Option.map_some,
        Nat.one_mul, Nat.add_comm]
    have ht := hat P.length (by omega)
    rw [List.getElem?_append_right le_rfl, Nat.sub_self] at ht
    obtain rfl : t = flatTower (P.length + 1) := Option.some.inj ht
    refine (congrArg (Option.map _) (flatSkiplist_heap hn (Nat.succ_pos _) (by omega))).trans ?_
    rw [List.getLast?_eq_getElem?]
    rcases Nat.eq_zero_or_pos P.length with hzero | hpos
    · rw [List.length_eq_zero_iff.mp hzero]
      rfl
    · have hlast := hat (P.length - 1) (by omega)
      rw [List.getElem?_append_left (by omega), Nat.sub_add_cancel hpos] at hlast
      rw [hlast, Option.map_some, if_neg (by omega)]
      rfl
  tail := by
    rw [flatSkiplist, flatTowers, List.getLast?_map, List.getLast?_range']
    split_ifs with hzero
    · rfl
    · simp [flatTower]
  length := (length_flatTowers n).symm
  sorted := by
    rw [flatTowers, List.map_map, List.pairwise_map]
    refine (List.pairwise_lt_range' (s := 1) (n := n) 1).imp fun {a b} hab ↦ le_of_lt ?_
    exact (skiplistItem_lt_iff _ _).mpr (Or.inl (Int.ofNat_lt.mpr hab))

end Flat

end LatteC
