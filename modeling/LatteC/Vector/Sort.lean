import LatteC.Foundation.Reverse

/-!
# Sorting a vector

`vector_sort` of `src/vector/vector.c`: quicksort in place, with the last element of a range for its pivot.

What has been looked at while partitioning is in two zones, the elements up to the pivot and behind them the
others. The next element is exchanged with the first of the others, which may be itself, and so is the pivot
at the end.

## Modelling

A vector is the list of its elements, so that every index that is not below `count` is a fault, and so are
negative ones. Indices are of type `int`, between `-1` and `count`, and `count - 1` is converted from
a `size_t`. The recursion is given fuel.
-/

namespace LatteC

open Block

section Sorting

variable {α : Type} (c : α → α → ℤ)

/-- `swap(&arr[i], &arr[j])`. -/
def swap (arr : List α) (i j : ℤ) : Option (List α) :=
  if 0 ≤ i ∧ 0 ≤ j then swapCells arr i.toNat j.toNat else none

/-- The loop of `partition`: the array and `i`. -/
def partitionLoop (pivot : α) (high : ℤ) (i j : ℤ) (arr : List α) : Option (List α × ℤ) :=
  if j ≤ high - 1 then
    (cell arr j).bind fun x ↦
      if c x pivot ≤ 0 then
        (swap arr (i + 1) j).bind fun arr ↦ partitionLoop pivot high (i + 1) (j + 1) arr
      else partitionLoop pivot high i (j + 1) arr
  else some (arr, i)
termination_by (high - j).toNat

/-- `partition`: the array and the index of the pivot. -/
def partition (arr : List α) (low high : ℤ) : Option (List α × ℤ) := do
  let pivot ← cell arr high
  let (arr, i) ← partitionLoop c pivot high (low - 1) low arr
  let arr ← swap arr (i + 1) high
  some (arr, i + 1)

/-- `quick_sort`. -/
def quickSort : (fuel : ℕ) → (array : List α) → (low hight : ℤ) → Option (List α)
  | 0, _, _, _ => none
  | fuel + 1, array, low, hight =>
    if low < hight then do
      let (array, pi) ← partition c array low hight
      let array ← quickSort fuel array low (pi - 1)
      quickSort fuel array (pi + 1) hight
    else some array

/-- `vector_sort`. -/
def vectorSort (fuel : ℕ) (v : List α) : Option (List α) :=
  let hight := ((v.length - 1 : ℤ) % 2 ^ 64).bmod (2 ^ 32)
  quickSort c fuel v 0 hight

theorem swap_front (A G : List α) (x : α) (C : List α) :
    ∃ G' : List α, G'.Perm G ∧
      swap (A ++ G ++ [x] ++ C) A.length (A.length + G.length) = some (A ++ [x] ++ G' ++ C) := by
  obtain ⟨G', hperm, hswap⟩ := swapCells_front A G x C
  refine ⟨G', hperm, ?_⟩
  rw [swap, if_pos ⟨by omega, by omega⟩]
  exact hswap

/-! ## Partitioning -/

/-- **The loop** puts what is left into the two zones. -/
theorem partitionLoop_append (pivot : α) (P S : List α) (U : List α) :
    ∀ L G : List α, (∀ x ∈ L, c x pivot ≤ 0) → (∀ x ∈ G, ¬c x pivot ≤ 0) →
      ∃ L' G' : List α, (∀ x ∈ L', c x pivot ≤ 0) ∧ (∀ x ∈ G', ¬c x pivot ≤ 0) ∧
        (L' ++ G').Perm (L ++ G ++ U) ∧
        partitionLoop c pivot ((P.length : ℤ) + L.length + G.length + U.length) ((P.length : ℤ) + L.length - 1)
            ((P.length : ℤ) + L.length + G.length) (P ++ L ++ G ++ U ++ S) =
          some (P ++ L' ++ G' ++ S, (P.length : ℤ) + L'.length - 1) := by
  induction U with
  | nil =>
    intro L G hL hG
    refine ⟨L, G, hL, hG, by rw [List.append_nil], ?_⟩
    rw [partitionLoop, if_neg (by rw [List.length_nil]; omega), List.append_nil]
  | cons x U ih =>
    intro L G hL hG
    have hsplit : P ++ L ++ G ++ x :: U ++ S = P ++ L ++ G ++ [x] ++ (U ++ S) := by simp
    have hget := cell_append (P ++ L ++ G) x (U ++ S)
    rw [List.length_append, List.length_append, Nat.cast_add, Nat.cast_add] at hget
    rw [partitionLoop, if_pos (by rw [List.length_cons]; omega), hsplit, hget, Option.bind_some]
    by_cases hx : c x pivot ≤ 0
    · obtain ⟨G₁, hperm, hswap⟩ := swap_front (P ++ L) G x (U ++ S)
      have hL₁ : ∀ y ∈ L ++ [x], c y pivot ≤ 0 := by
        intro y hy
        obtain hy | hy := List.mem_append.mp hy
        · exact hL y hy
        · rwa [List.mem_singleton.mp hy]
      obtain ⟨L', G', hL', hG', hperm', hloop⟩ := ih (L ++ [x]) G₁ hL₁ fun y hy ↦ hG y (hperm.mem_iff.mp hy)
      refine ⟨L', G', hL', hG', ?_, ?_⟩
      · refine hperm'.trans ?_
        rw [List.append_assoc L [x], List.append_assoc L, List.append_assoc L]
        refine List.Perm.append_left L ?_
        rw [List.append_assoc, List.singleton_append]
        exact ((hperm.append_right U).cons x).trans List.perm_middle.symm
      · rw [List.length_append, Nat.cast_add] at hswap
        rw [if_pos hx, show (P.length : ℤ) + L.length - 1 + 1 = P.length + L.length by omega,
          hswap, Option.bind_some]
        rw [List.length_append, List.length_singleton, hperm.length_eq, ← List.append_assoc P L [x]] at hloop
        rw [← hloop, List.length_cons, List.append_assoc _ U S]
        congr 1 <;> push_cast <;> omega
    · have hG₁ : ∀ y ∈ G ++ [x], ¬c y pivot ≤ 0 := by
        intro y hy
        obtain hy | hy := List.mem_append.mp hy
        · exact hG y hy
        · rwa [List.mem_singleton.mp hy]
      obtain ⟨L', G', hL', hG', hperm', hloop⟩ := ih L (G ++ [x]) hL hG₁
      refine ⟨L', G', hL', hG', by simpa using hperm', ?_⟩
      rw [if_neg hx]
      rw [List.length_append, List.length_singleton] at hloop
      rw [← hloop, List.length_cons]
      have harr : P ++ L ++ G ++ [x] ++ (U ++ S) = P ++ L ++ (G ++ [x]) ++ U ++ S := by simp
      rw [harr]
      congr 1
      push_cast
      omega

/-- **Partitioning** a range that ends with the pivot. -/
theorem partition_append (P U : List α) (pivot : α) (S : List α) :
    ∃ L G : List α, (∀ x ∈ L, c x pivot ≤ 0) ∧ (∀ x ∈ G, ¬c x pivot ≤ 0) ∧ (L ++ G).Perm U ∧
      partition c (P ++ U ++ [pivot] ++ S) P.length ((P.length : ℤ) + U.length) =
        some (P ++ L ++ [pivot] ++ G ++ S, (P.length : ℤ) + L.length) := by
  obtain ⟨L, G, hL, hG, hperm, hloop⟩ := partitionLoop_append c pivot P ([pivot] ++ S) U [] []
    (List.forall_mem_nil _) (List.forall_mem_nil _)
  simp only [List.append_nil, List.nil_append, List.length_nil, Nat.cast_zero, add_zero] at hperm hloop
  obtain ⟨G', hperm', hswap⟩ := swap_front (P ++ L) G pivot S
  refine ⟨L, G', hL, fun y hy ↦ hG y (hperm'.mem_iff.mp hy), (hperm'.append_left L).trans hperm, ?_⟩
  have hget := cell_append (P ++ U) pivot S
  have hhigh : (P.length : ℤ) + U.length = P.length + L.length + G.length := by
    have hlength := hperm.length_eq
    rw [List.length_append] at hlength
    omega
  rw [List.length_append, Nat.cast_add] at hget hswap
  rw [← List.append_assoc, ← List.append_assoc] at hloop
  rw [partition, hget]
  simp only [bind, Option.bind_some, hloop]
  rw [sub_add_cancel, hhigh, hswap, Option.bind_some]

/-! ## Sorting -/

variable {c} (htotal : ∀ a b, c a b ≤ 0 ∨ c b a ≤ 0) (htrans : ∀ a b d, c a b ≤ 0 → c b d ≤ 0 → c a d ≤ 0)

include htotal htrans in
/-- The two sides of the pivot, each in order. -/
theorem pairwise_pivot {L G : List α} {pivot : α} (hL : ∀ x ∈ L, c x pivot ≤ 0) (hG : ∀ x ∈ G, ¬c x pivot ≤ 0)
    (hsortedL : L.Pairwise fun a b ↦ c a b ≤ 0) (hsortedG : G.Pairwise fun a b ↦ c a b ≤ 0) :
    (L ++ [pivot] ++ G).Pairwise fun a b ↦ c a b ≤ 0 := by
  have hpivot : ∀ y ∈ G, c pivot y ≤ 0 := fun y hy ↦ (htotal pivot y).resolve_right (hG y hy)
  rw [List.append_assoc, List.singleton_append, List.pairwise_append, List.pairwise_cons]
  refine ⟨hsortedL, ⟨hpivot, hsortedG⟩, fun x hx y hy ↦ ?_⟩
  obtain rfl | hy := List.mem_cons.mp hy
  · exact hL x hx
  · exact htrans x pivot y (hL x hx) (hpivot y hy)

include htotal htrans in
/-- **Sorting a range.** Fuel for one call more than there are elements is enough. -/
theorem quickSort_append {fuel : ℕ} : ∀ P M S : List α, M.length < fuel →
    ∃ M' : List α, M'.Perm M ∧ (M'.Pairwise fun a b ↦ c a b ≤ 0) ∧
      quickSort c fuel (P ++ M ++ S) P.length ((P.length : ℤ) + M.length - 1) = some (P ++ M' ++ S) := by
  induction fuel with
  | zero => exact fun P M S h ↦ absurd h (Nat.not_lt_zero _)
  | succ fuel ih =>
    intro P M S hfuel
    rw [quickSort]
    by_cases hlt : (P.length : ℤ) < P.length + M.length - 1
    · obtain ⟨U, pivot, rfl⟩ :=
        List.eq_nil_or_concat' M |>.resolve_left (by rintro rfl; rw [List.length_nil] at hlt; omega)
      rw [List.length_append, List.length_singleton] at hfuel hlt
      obtain ⟨L, G, hL, hG, hperm, hpartition⟩ := partition_append c P U pivot S
      have hlength := hperm.length_eq
      rw [List.length_append] at hlength
      obtain ⟨L', hpermL, hsortedL, hsortL⟩ := ih P L ([pivot] ++ G ++ S) (by omega)
      obtain ⟨G', hpermG, hsortedG, hsortG⟩ := ih (P ++ L' ++ [pivot]) G S (by omega)
      refine ⟨L' ++ [pivot] ++ G', ?_, ?_, ?_⟩
      · have hsides : (L' ++ [pivot] ++ G').Perm (L ++ [pivot] ++ G) :=
          (hpermL.append_right [pivot]).append hpermG
        refine hsides.trans ?_
        rw [List.append_assoc, List.singleton_append]
        exact (List.perm_middle.trans (hperm.cons pivot)).trans (List.perm_append_singleton pivot U).symm
      · exact pairwise_pivot htotal htrans (fun x hx ↦ hL x (hpermL.mem_iff.mp hx))
          (fun x hx ↦ hG x (hpermG.mem_iff.mp hx)) hsortedL hsortedG
      · have hhigh : (P.length : ℤ) + (U ++ [pivot]).length - 1 = P.length + U.length := by
          rw [List.length_append, List.length_singleton]
          omega
        have hlow : ((P ++ L' ++ [pivot]).length : ℤ) = P.length + L.length + 1 := by
          rw [List.length_append, List.length_append, List.length_singleton, hpermL.length_eq]
          omega
        have hend : (P.length : ℤ) + L.length + 1 + G.length - 1 = P.length + U.length := by omega
        rw [hlow, hend] at hsortG
        rw [← List.append_assoc, ← List.append_assoc] at hsortL
        rw [hhigh, if_pos (by omega), ← List.append_assoc, hpartition]
        simp only [bind, Option.bind_some]
        rw [hsortL, Option.bind_some, ← List.append_assoc, ← List.append_assoc, hsortG]
        simp
    · rw [if_neg hlt]
      refine ⟨M, List.Perm.refl M, ?_, rfl⟩
      -- at most one element
      cases M with
      | nil => exact List.Pairwise.nil
      | cons x M =>
        obtain rfl := List.length_eq_zero_iff.mp (show M.length = 0 by rw [List.length_cons] at hlt; omega)
        exact List.pairwise_singleton _ x

include htotal htrans in
/-- **`vector_sort`** sorts: it ends, it stays inside the vector, and it leaves a permutation of the elements
that is in order. -/
theorem vectorSort_spec {v : List α} (h : v.length < 2 ^ 31) {fuel : ℕ} (hfuel : v.length < fuel) :
    ∃ v' : List α, vectorSort c fuel v = some v' ∧ v'.Perm v ∧ v'.Pairwise fun a b ↦ c a b ≤ 0 := by
  obtain ⟨v', hperm, hsorted, hsort⟩ := quickSort_append htotal htrans [] v [] hfuel
  refine ⟨v', ?_, hperm, hsorted⟩
  have hhight : ((v.length - 1 : ℤ) % 2 ^ 64).bmod (2 ^ 32) = (v.length : ℤ) - 1 := by
    rw [Int.bmod_def]
    split_ifs <;> omega
  rw [vectorSort, hhight]
  simpa using hsort

end Sorting

/-- With duplicates. -/
theorem vectorSort_spec_five :
    ∃ v' : List ℤ, vectorSort (fun a b : ℤ ↦ a - b) 6 [3, 1, 3, 2, 1] = some v' ∧ v'.Perm [3, 1, 3, 2, 1] ∧
      v'.Pairwise fun a b ↦ a - b ≤ 0 :=
  vectorSort_spec (c := fun a b : ℤ ↦ a - b) (fun a b ↦ by omega) (fun a b d ↦ by omega) (by decide) (by decide)

end LatteC
