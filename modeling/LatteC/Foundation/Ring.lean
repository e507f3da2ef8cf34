import Mathlib.Data.List.Basic
import Mathlib.Data.Nat.ModEq

/-!
# Circular buffers

A FIFO queue in an array of slots: the entries stand from the slot `tail` on, around the end of the
array, and the slot behind the last one is where the next entry goes. One slot stays free, so
that a full queue and an empty one differ. What is in the slots without an entry is not said.
-/

namespace Ring

variable {α : Type*}

/-- The slots hold the queue `xs`, the oldest entry in the slot `tail`. -/
structure Holds (slots : List α) (tail : ℕ) (xs : List α) : Prop where
  tail_lt : tail < slots.length
  length_lt : xs.length < slots.length
  getElem? : ∀ i x, xs[i]? = some x → slots[(tail + i) % slots.length]? = some x

/-- The slot behind the last entry. -/
def head (slots : List α) (tail : ℕ) (xs : List α) : ℕ := (tail + xs.length) % slots.length

variable {slots : List α} {tail : ℕ} {xs : List α} {x : α}

theorem holds_nil (hslots : 0 < slots.length) : Holds slots 0 [] :=
  ⟨hslots, hslots, fun i x h ↦ by rw [List.getElem?_nil] at h; cases h⟩

namespace Holds

theorem head_lt (h : Holds slots tail xs) : head slots tail xs < slots.length :=
  Nat.mod_lt _ (Nat.zero_lt_of_lt h.tail_lt)

/-- The number of entries, from the two indices. -/
theorem length_eq (h : Holds slots tail xs) :
    (if tail ≤ head slots tail xs then head slots tail xs - tail
      else slots.length - (tail - head slots tail xs)) = xs.length := by
  have htail := h.tail_lt
  have hlen := h.length_lt
  rw [head]
  by_cases hwrap : tail + xs.length < slots.length
  · rw [Nat.mod_eq_of_lt hwrap, if_pos (Nat.le_add_right _ _)]
    omega
  · have hmod : (tail + xs.length) % slots.length = tail + xs.length - slots.length := by
      rw [Nat.mod_eq_sub_mod (by omega), Nat.mod_eq_of_lt (by omega)]
    rw [hmod, if_neg (by omega)]
    omega

/-- The next entry would leave no free slot. -/
theorem full_iff (h : Holds slots tail xs) :
    (head slots tail xs + 1) % slots.length = tail ↔ xs.length + 1 = slots.length := by
  have htail := h.tail_lt
  have hlen := h.length_lt
  have hmod : (head slots tail xs + 1) % slots.length = (tail + (xs.length + 1)) % slots.length := by
    rw [head, Nat.mod_add_mod, Nat.add_assoc]
  rw [hmod]
  by_cases hwrap : tail + (xs.length + 1) < slots.length
  · rw [Nat.mod_eq_of_lt hwrap]
    omega
  · rw [Nat.mod_eq_sub_mod (by omega)]
    rcases Nat.lt_or_ge (tail + (xs.length + 1) - slots.length) slots.length with hlt | hge
    · rw [Nat.mod_eq_of_lt hlt]
      omega
    · rw [Nat.mod_eq_sub_mod hge, Nat.mod_eq_of_lt (by omega)]
      omega

theorem getElem?_tail (h : Holds slots tail (x :: xs)) : slots[tail]? = some x := by
  have hget := h.getElem? 0 x rfl
  rwa [Nat.add_zero, Nat.mod_eq_of_lt h.tail_lt] at hget

/-- Distinct places of the queue are distinct slots. -/
private theorem slot_ne (tail : ℕ) {i j : ℕ} (hij : i < j)
    (hj : j < slots.length) : (tail + j) % slots.length ≠ (tail + i) % slots.length := by
  intro heq
  have hmod : j % slots.length = i % slots.length := Nat.ModEq.add_left_cancel' tail heq
  rw [Nat.mod_eq_of_lt hj, Nat.mod_eq_of_lt (hij.trans hj)] at hmod
  omega

/-- An entry put into the slot `head` comes last. -/
theorem push (h : Holds slots tail xs) (hroom : xs.length + 1 < slots.length) (x : α) :
    Holds (slots.set (head slots tail xs) x) tail (xs ++ [x]) := by
  refine ⟨by rw [List.length_set]; exact h.tail_lt, ?_, ?_⟩
  · rw [List.length_set, List.length_append, List.length_singleton]
    exact hroom
  · intro i y hy
    rw [List.length_set]
    rcases Nat.lt_trichotomy i xs.length with hlt | rfl | hgt
    · rw [List.getElem?_append_left hlt] at hy
      rw [head, List.getElem?_set_ne (slot_ne tail hlt h.length_lt)]
      exact h.getElem? i y hy
    · rw [List.getElem?_append_right (Nat.le_refl _), Nat.sub_self] at hy
      rw [← head, List.getElem?_set_self h.head_lt]
      exact hy
    · rw [List.getElem?_eq_none (by rw [List.length_append, List.length_singleton]; omega)] at hy
      cases hy

/-- The entry in the slot `tail` leaves the queue, whatever is put into the slot. -/
theorem pop (h : Holds slots tail (x :: xs)) (y : α) :
    Holds (slots.set tail y) ((tail + 1) % slots.length) xs := by
  have hlen := h.length_lt
  rw [List.length_cons] at hlen
  refine ⟨?_, ?_, ?_⟩
  · rw [List.length_set]
    exact Nat.mod_lt _ (by omega)
  · rw [List.length_set]
    omega
  · intro i z hz
    have hi : i < xs.length := (List.getElem?_eq_some_iff.mp hz).1
    have hslot : ((tail + 1) % slots.length + i) % slots.length = (tail + (i + 1)) % slots.length := by
      rw [Nat.mod_add_mod, Nat.add_assoc, Nat.add_comm 1 i]
    have hne : tail ≠ (tail + (i + 1)) % slots.length := by
      have hslots : i + 1 < slots.length := by omega
      have hslot := slot_ne tail (Nat.succ_pos i) hslots
      rw [Nat.add_zero, Nat.mod_eq_of_lt h.tail_lt] at hslot
      exact hslot.symm
    rw [List.length_set, hslot, List.getElem?_set_ne hne]
    exact h.getElem? (i + 1) z hz

end Holds

/-- Putting an entry in moves `head` on by one slot. -/
theorem head_push (y : α) : head (slots.set (head slots tail xs) y) tail (xs ++ [x]) =
    (head slots tail xs + 1) % slots.length := by
  rw [head, head, List.length_set, List.length_append, List.length_singleton, Nat.mod_add_mod,
    Nat.add_assoc]

/-- Taking an entry out leaves `head` where it is. -/
theorem head_pop (y : α) : head (slots.set tail y) ((tail + 1) % slots.length) xs =
    head slots tail (x :: xs) := by
  rw [head, head, List.length_set, List.length_cons, Nat.mod_add_mod, Nat.add_assoc,
    Nat.add_comm 1]

end Ring
