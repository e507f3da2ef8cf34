import LatteC.Foundation.Block

/-!
# Vectors

`src/vector/vector.c`: an array of pointers with the number of those in use, and what happens at its end. It
is made twice as long when it is full; it never becomes shorter, so behind the elements there are old
ones that were taken out, and cells that were never written.
-/

namespace LatteC

open Block

/-- `vector_t`. -/
structure LatteVector (α : Type) where
  data : List α
  capacity : ℕ
  count : ℕ

variable {α : Type}

/-- `vector_new`. -/
def vectorNew : LatteVector α := ⟨[], 0, 0⟩

/-- `vector_resize`. -/
def vectorResize (M : Allocator α) (v : LatteVector α) (newCapacity : ℕ) : LatteVector α :=
  { v with data := M.resize v.data newCapacity, capacity := newCapacity }

/-- `vector_push`. -/
def vectorPush (M : Allocator α) (v : LatteVector α) (element : α) : Option (LatteVector α) :=
  let v :=
    if v.count = v.capacity then vectorResize M v (if v.capacity = 0 then 1 else v.capacity * 2) else v
  (write v.data v.count [element]).map fun data ↦ { v with data := data, count := v.count + 1 }

/-- `vector_pop`. An element that is `none` is `NULL`. -/
def vectorPop (v : LatteVector α) : Option (LatteVector α × Option α) :=
  if v.count = 0 then some (v, none)
  else (v.data[v.count - 1]?).map fun element ↦ ({ v with count := v.count - 1 }, some element)

/-- `vector_get`. An element that is `none` is `NULL`. -/
def vectorGet (v : LatteVector α) (index : ℕ) : Option (Option α) :=
  if v.count ≤ index then some none else (v.data[index]?).map some

/-- The vector holds the elements `xs`. -/
structure LatteVector.Holds (v : LatteVector α) (xs : List α) : Prop where
  take_eq : v.data.take v.count = xs
  count_eq : v.count = xs.length
  count_le : v.count ≤ v.capacity
  capacity_le : v.capacity ≤ v.data.length

namespace LatteVector.Holds

variable {v : LatteVector α} {xs : List α} {x : α}

theorem new : (vectorNew : LatteVector α).Holds [] := ⟨rfl, rfl, le_rfl, le_rfl⟩

theorem data_eq (h : v.Holds xs) : v.data = xs ++ v.data.drop v.count := by
  rw [← h.take_eq, List.take_append_drop]

/-- A longer array. -/
theorem resize (M : Allocator α) (h : v.Holds xs) {n : ℕ} (hn : v.count ≤ n) :
    (vectorResize M v n).Holds xs := by
  obtain ⟨S, hS, hlen⟩ := M.resize_append xs (v.data.drop v.count) (h.count_eq ▸ hn)
  rw [← h.data_eq] at hS
  refine ⟨?_, h.count_eq, hn, ?_⟩
  · change (M.resize v.data n).take v.count = xs
    rw [hS, h.count_eq, List.take_left]
  · change n ≤ (M.resize v.data n).length
    rw [hS]
    exact hlen

theorem push (M : Allocator α) (h : v.Holds xs) (x : α) :
    ∃ v', vectorPush M v x = some v' ∧ v'.Holds (xs ++ [x]) := by
  obtain ⟨w, hw, hholds, hroom⟩ : ∃ w : LatteVector α, (if v.count = v.capacity then
      vectorResize M v (if v.capacity = 0 then 1 else v.capacity * 2) else v) = w ∧ w.Holds xs ∧
      w.count < w.capacity := by
    have hle := h.count_le
    by_cases hfull : v.count = v.capacity
    · rw [if_pos hfull]
      have hlt : v.count < if v.capacity = 0 then 1 else v.capacity * 2 := by
        split_ifs <;> omega
      exact ⟨_, rfl, h.resize M hlt.le, hlt⟩
    · exact ⟨v, if_neg hfull, h, lt_of_le_of_ne hle hfull⟩
  obtain ⟨data, hwrite, hlen, htake⟩ :=
    write_of_le (show w.count + [x].length ≤ w.data.length from hroom.trans_le hholds.capacity_le)
  refine ⟨{ w with data := data, count := w.count + 1 }, ?_, ?_, ?_, hroom, ?_⟩
  · rw [vectorPush, hw, hwrite, Option.map_some]
  · rw [← hholds.take_eq]
    exact htake
  · rw [List.length_append, ← hholds.count_eq]
    rfl
  · exact hlen ▸ hholds.capacity_le

theorem pop_nil (h : v.Holds []) : vectorPop v = some (v, none) := by
  have hcount : v.count = 0 := h.count_eq
  rw [vectorPop, if_pos hcount]

theorem pop (h : v.Holds (xs ++ [x])) :
    ∃ v', vectorPop v = some (v', some x) ∧ v'.Holds xs := by
  have hcount : v.count = xs.length + 1 := by rw [h.count_eq, List.length_append, List.length_singleton]
  have hget : v.data[v.count - 1]? = some x := by
    rw [h.data_eq, hcount, Nat.add_sub_cancel, List.append_assoc, List.getElem?_append_right le_rfl,
      Nat.sub_self]
    rfl
  refine ⟨{ v with count := v.count - 1 }, ?_, ?_, ?_, ?_, h.capacity_le⟩
  · rw [vectorPop, if_neg (by omega), hget, Option.map_some]
  · change v.data.take (v.count - 1) = xs
    rw [h.data_eq, hcount, Nat.add_sub_cancel, List.append_assoc, List.take_left]
  · exact Nat.sub_eq_of_eq_add hcount
  · exact (Nat.sub_le _ _).trans h.count_le

theorem get (h : v.Holds xs) (i : ℕ) : vectorGet v i = some xs[i]? := by
  rw [vectorGet]
  split_ifs with hend
  · rw [List.getElem?_eq_none (h.count_eq ▸ hend)]
  · have hlt : i < xs.length := h.count_eq ▸ not_le.mp hend
    rw [h.data_eq, List.getElem?_append_left hlt, List.getElem?_eq_getElem hlt, Option.map_some]

end LatteVector.Holds

end LatteC
