import LatteC.Foundation.Block
import Mathlib.Data.List.Induction

/-!
# Reversing a range in place

Two positions go towards each other from the ends of a range, and the cells at them are exchanged, until the
positions meet. What is in front of the range and behind it stays.
-/

namespace Block

variable {α : Type*}

/-- Exchange the cells at `i` and `j`. -/
def swapCells (b : List α) (i j : ℕ) : Option (List α) := do
  let aux ← read b i 1
  let b ← write b i (← read b j 1)
  write b j aux

/-- The loop that exchanges cells from `i` and `j` on. -/
def reverseLoop (b : List α) (i j : ℕ) : Option (List α) :=
  if i < j then (swapCells b i j).bind fun b ↦ reverseLoop b (i + 1) (j - 1) else some b
termination_by j - i

theorem swapCells_append (A : List α) (x : α) (B : List α) (y : α) (C : List α) :
    swapCells (A ++ [x] ++ B ++ [y] ++ C) A.length (A.length + B.length + 1) =
      some (A ++ [y] ++ B ++ [x] ++ C) := by
  have hfront : (A ++ [x] ++ B).length = A.length + B.length + 1 := by
    simp only [List.length_append, List.length_singleton]
    omega
  have hx : read (A ++ [x] ++ B ++ [y] ++ C) A.length 1 = some [x] := by
    have := read_append A [x] (B ++ [y] ++ C)
    rwa [← List.append_assoc, ← List.append_assoc] at this
  have hy : read (A ++ [x] ++ B ++ [y] ++ C) (A.length + B.length + 1) 1 = some [y] := by
    have := read_append (A ++ [x] ++ B) [y] C
    rwa [hfront] at this
  have hstore : write (A ++ [x] ++ B ++ [y] ++ C) A.length [y] = some (A ++ [y] ++ B ++ [y] ++ C) := by
    have := write_append A (B ++ [y] ++ C) (show [y].length = [x].length from rfl)
    rwa [← List.append_assoc, ← List.append_assoc, ← List.append_assoc, ← List.append_assoc] at this
  have hfront' : (A ++ [y] ++ B).length = A.length + B.length + 1 := by
    simp only [List.length_append, List.length_singleton]
    omega
  have hback := write_append (A ++ [y] ++ B) C (show [x].length = [y].length from rfl)
  rw [hfront'] at hback
  simp only [swapCells, hx, hy, hstore, bind, Option.bind_some, hback]

/-- A cell is exchanged with itself. -/
theorem swapCells_self (A : List α) (x : α) (C : List α) :
    swapCells (A ++ [x] ++ C) A.length A.length = some (A ++ [x] ++ C) := by
  have hread := read_append A [x] C
  have hwrite := write_append A C (show [x].length = [x].length from rfl)
  rw [List.length_singleton] at hread
  simp only [swapCells, hread, hwrite, bind, Option.bind_some]

/-- A cell is exchanged with the first one of the cells in front of it, if there are any. -/
theorem swapCells_front (A G : List α) (x : α) (C : List α) :
    ∃ G' : List α, G'.Perm G ∧
      swapCells (A ++ G ++ [x] ++ C) A.length (A.length + G.length) = some (A ++ [x] ++ G' ++ C) := by
  cases G with
  | nil => exact ⟨[], List.Perm.refl [], by simpa using swapCells_self A x C⟩
  | cons g G =>
    refine ⟨G ++ [g], List.perm_append_singleton g G, ?_⟩
    have hswap := swapCells_append A g G x C
    simpa [List.append_assoc, Nat.add_assoc] using hswap

/-- **The loop reverses the range.** -/
theorem reverseLoop_append (A X C : List α) :
    reverseLoop (A ++ X ++ C) A.length (A.length + X.length - 1) = some (A ++ X.reverse ++ C) := by
  induction X using List.bidirectionalRec generalizing A C with
  | nil =>
    rw [reverseLoop, if_neg (by rw [List.length_nil]; omega)]
    rfl
  | singleton x =>
    rw [reverseLoop, if_neg (by rw [List.length_singleton]; omega), List.reverse_singleton]
  | cons_append x X y ih =>
    have hj : A.length + (x :: (X ++ [y])).length - 1 = A.length + X.length + 1 := by
      simp only [List.length_cons, List.length_append, List.length_nil]
      omega
    have hsplit : A ++ x :: (X ++ [y]) ++ C = A ++ [x] ++ X ++ [y] ++ C := by simp
    have hinner := ih (A ++ [y]) ([x] ++ C)
    have hi : (A ++ [y]).length = A.length + 1 := by rw [List.length_append, List.length_singleton]
    have hj' : A.length + 1 + X.length - 1 = A.length + X.length + 1 - 1 := by omega
    rw [hi, hj', ← List.append_assoc] at hinner
    rw [reverseLoop, hj, if_pos (by omega), hsplit, swapCells_append, Option.bind_some, hinner]
    simp

end Block
