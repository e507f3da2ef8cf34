import Mathlib.Data.List.Nodup
import Mathlib.Logic.Function.Basic
import Mathlib.Algebra.Order.Group.Nat

/-!
# Doubly linked segments

A heap of cells with `prev` and `next` pointers, and the predicate that a stretch of it is linked up
in a given order. A segment is described from outside: the pointer its first cell holds to the left
and the pointer its last cell holds to the right are parameters. Operations on a linked list cut it
into segments with `seg_append`, redirect one boundary pointer with `setNext_last` or
`setPrev_first`, and glue the pieces back; `seg_congr` is the frame rule for the rest.

Addresses are never reused, so that a dangling pointer is a fault.
-/

namespace DoublyLinked

variable {α : Type*}

/-- A cell of a doubly linked list. -/
structure Cell (α : Type*) where
  prev : Option ℕ
  next : Option ℕ
  value : α

/-- A heap of cells. Addresses from `brk` on have not been handed out yet. -/
structure Heap (α : Type*) where
  cells : ℕ → Option (Cell α)
  brk : ℕ

namespace Heap

/-- The heap with no cell. -/
def empty : Heap α := ⟨fun _ ↦ none, 0⟩

/-- Write through a pointer, a fault if nothing is allocated there. -/
def modify (h : Heap α) (a : ℕ) (f : Cell α → Cell α) : Option (Heap α) :=
  (h.cells a).map fun c ↦ { h with cells := Function.update h.cells a (some (f c)) }

/-- A new cell. -/
def alloc (h : Heap α) (c : Cell α) : Heap α × ℕ :=
  (⟨Function.update h.cells h.brk (some c), h.brk + 1⟩, h.brk)

/-- Give a cell back. -/
def free (h : Heap α) (a : ℕ) : Option (Heap α) :=
  (h.cells a).map fun _ ↦ { h with cells := Function.update h.cells a none }

theorem modify_of_cells {h : Heap α} {a : ℕ} {c : Cell α} (hc : h.cells a = some c)
    (f : Cell α → Cell α) :
    h.modify a f = some { h with cells := Function.update h.cells a (some (f c)) } := by
  rw [modify, hc, Option.map_some]

theorem free_of_cells {h : Heap α} {a : ℕ} {c : Cell α} (hc : h.cells a = some c) :
    h.free a = some { h with cells := Function.update h.cells a none } := by
  rw [free, hc, Option.map_some]

/-- From `h` to `h'` nothing changes but the cells at `S` and cells that are new. -/
structure Frame (S : List ℕ) (h h' : Heap α) : Prop where
  cells : ∀ a < h.brk, a ∉ S → h'.cells a = h.cells a
  brk_le : h.brk ≤ h'.brk

variable {h h₁ h₂ : Heap α} {S T : List ℕ} {a : ℕ}

theorem Frame.refl (S : List ℕ) (h : Heap α) : Frame S h h := ⟨fun _ _ _ ↦ rfl, le_rfl⟩

theorem Frame.trans (h₁₂ : Frame S h h₁) (h₂₃ : Frame S h₁ h₂) : Frame S h h₂ :=
  ⟨fun a ha hS ↦ (h₂₃.cells a (ha.trans_le h₁₂.brk_le) hS).trans (h₁₂.cells a ha hS),
    h₁₂.brk_le.trans h₂₃.brk_le⟩

/-- Cells that were not there before may change at will. -/
theorem Frame.trans_fresh (h₁₂ : Frame S h h₁) (h₂₃ : Frame T h₁ h₂)
    (hT : ∀ a ∈ T, a ∈ S ∨ h.brk ≤ a) : Frame S h h₂ := by
  refine ⟨fun a ha hS ↦ ?_, h₁₂.brk_le.trans h₂₃.brk_le⟩
  rw [h₂₃.cells a (ha.trans_le h₁₂.brk_le) fun hmem ↦ (hT a hmem).elim hS ha.not_ge]
  exact h₁₂.cells a ha hS

theorem Frame.mono (hST : S ⊆ T) (hf : Frame S h h₁) : Frame T h h₁ :=
  ⟨fun a ha hT ↦ hf.cells a ha fun hS ↦ hT (hST hS), hf.brk_le⟩

theorem frame_alloc (S : List ℕ) (h : Heap α) (c : Cell α) : Frame S h (h.alloc c).1 :=
  ⟨fun _ ha _ ↦ Function.update_of_ne ha.ne .., Nat.le_succ _⟩

/-- A write through a pointer into `S`. -/
theorem frame_modify {f : Cell α → Cell α} (hmod : h.modify a f = some h₁) (ha : a ∈ S) :
    Frame S h h₁ := by
  rw [modify, Option.map_eq_some_iff] at hmod
  obtain ⟨c, -, rfl⟩ := hmod
  refine ⟨fun b _ hb ↦ Function.update_of_ne ?_ .., le_rfl⟩
  rintro rfl
  exact hb ha

theorem frame_free (hfree : h.free a = some h₁) (ha : a ∈ S) : Frame S h h₁ := by
  rw [free, Option.map_eq_some_iff] at hfree
  obtain ⟨c, -, rfl⟩ := hfree
  refine ⟨fun b _ hb ↦ Function.update_of_ne ?_ .., le_rfl⟩
  rintro rfl
  exact hb ha

end Heap

/-! ## Segments -/

/-- The address of the first cell, or what comes behind an empty segment. -/
def first : List (ℕ × α) → Option ℕ → Option ℕ
  | [], n => n
  | x :: _, _ => some x.1

/-- The address of the last cell, or what comes before an empty segment. -/
def last : Option ℕ → List (ℕ × α) → Option ℕ
  | p, [] => p
  | _, x :: xs => last (some x.1) xs

/-- The cells `xs` are linked up in this order, between a cell `p` and a cell `n`. -/
def Seg (h : Heap α) : Option ℕ → List (ℕ × α) → Option ℕ → Prop
  | _, [], _ => True
  | p, x :: xs, n => h.cells x.1 = some ⟨p, first xs n, x.2⟩ ∧ Seg h (some x.1) xs n

@[simp] theorem last_append (p : Option ℕ) (xs ys : List (ℕ × α)) :
    last p (xs ++ ys) = last (last p xs) ys := by
  induction xs generalizing p with
  | nil => rfl
  | cons x xs ih => exact ih (some x.1)

@[simp] theorem first_append (xs ys : List (ℕ × α)) (n : Option ℕ) :
    first (xs ++ ys) n = first xs (first ys n) := by
  cases xs <;> rfl

/-- Cut a segment in two. -/
theorem seg_append {h : Heap α} {p n : Option ℕ} {xs ys : List (ℕ × α)} :
    Seg h p (xs ++ ys) n ↔ Seg h p xs (first ys n) ∧ Seg h (last p xs) ys n := by
  induction xs generalizing p with
  | nil => simp [Seg, last]
  | cons x xs ih =>
    rw [List.cons_append, Seg, Seg, ih, first_append, and_assoc]
    rfl

/-- A segment does not depend on the cells outside it. -/
theorem seg_congr {h h' : Heap α} {p n : Option ℕ} {xs : List (ℕ × α)}
    (heq : ∀ x ∈ xs, h'.cells x.1 = h.cells x.1) (hs : Seg h p xs n) : Seg h' p xs n := by
  induction xs generalizing p with
  | nil => trivial
  | cons x xs ih =>
    exact ⟨(heq x List.mem_cons_self).trans hs.1,
      ih (fun y hy ↦ heq y (List.mem_cons_of_mem x hy)) hs.2⟩

/-- Redirect the left pointer of a segment. -/
theorem setPrev_first {h : Heap α} {p n : Option ℕ} {x : ℕ × α} {xs : List (ℕ × α)}
    (hs : Seg h p (x :: xs) n) (hx : x.1 ∉ xs.map Prod.fst) (p' : Option ℕ) :
    ∃ h', h.modify x.1 (fun c ↦ { c with prev := p' }) = some h' ∧ Seg h' p' (x :: xs) n ∧
      (∀ a ≠ x.1, h'.cells a = h.cells a) ∧ h'.brk = h.brk := by
  refine ⟨_, Heap.modify_of_cells hs.1 _, ⟨Function.update_self .., ?_⟩,
    fun a ha ↦ Function.update_of_ne ha .., rfl⟩
  refine seg_congr (fun y hy ↦ Function.update_of_ne ?_ ..) hs.2
  intro hyx
  exact hx (hyx ▸ List.mem_map_of_mem hy)

/-- Redirect the right pointer of a segment. -/
theorem setNext_last {h : Heap α} {p n : Option ℕ} {x : ℕ × α} {xs : List (ℕ × α)}
    (hs : Seg h p (xs ++ [x]) n) (hx : x.1 ∉ xs.map Prod.fst) (n' : Option ℕ) :
    ∃ h', h.modify x.1 (fun c ↦ { c with next := n' }) = some h' ∧ Seg h' p (xs ++ [x]) n' ∧
      (∀ a ≠ x.1, h'.cells a = h.cells a) ∧ h'.brk = h.brk := by
  obtain ⟨hxs, hcell, -⟩ := seg_append.mp hs
  refine ⟨_, Heap.modify_of_cells hcell _, seg_append.mpr ⟨?_, Function.update_self .., trivial⟩,
    fun a ha ↦ Function.update_of_ne ha .., rfl⟩
  refine seg_congr (fun y hy ↦ Function.update_of_ne ?_ ..) hxs
  intro hyx
  exact hx (hyx ▸ List.mem_map_of_mem hy)

/-- Change the value of a cell. -/
theorem setValue {h : Heap α} {p n : Option ℕ} {a : ℕ} {v : α} {xs ys : List (ℕ × α)}
    (hs : Seg h p (xs ++ (a, v) :: ys) n) (hnd : ((xs ++ (a, v) :: ys).map Prod.fst).Nodup)
    (f : α → α) :
    ∃ h', h.modify a (fun c ↦ { c with value := f c.value }) = some h' ∧
      Seg h' p (xs ++ (a, f v) :: ys) n ∧ h'.brk = h.brk := by
  obtain ⟨hxs, hcell, hys⟩ := seg_append.mp hs
  rw [List.map_append, List.map_cons, List.nodup_middle, List.nodup_cons, ← List.map_append] at hnd
  have hne : ∀ x ∈ xs ++ ys, x.1 ≠ a := by
    intro x hx hxa
    have hmem : x.1 ∈ (xs ++ ys).map Prod.fst := List.mem_map_of_mem hx
    rw [hxa] at hmem
    exact hnd.1 hmem
  refine ⟨_, Heap.modify_of_cells hcell _, seg_append.mpr ⟨?_, Function.update_self .., ?_⟩, rfl⟩
  · exact seg_congr (fun x hx ↦ Function.update_of_ne (hne x (List.mem_append_left _ hx)) ..) hxs
  · exact seg_congr (fun x hx ↦ Function.update_of_ne (hne x (List.mem_append_right _ hx)) ..) hys

/-- Every segment is empty or has a last cell. -/
theorem last_eq_of_ne_nil {xs : List (ℕ × α)} (hne : xs ≠ []) (p : Option ℕ) :
    ∃ ys y, xs = ys ++ [y] ∧ last p xs = some y.1 := by
  refine ⟨xs.dropLast, xs.getLast hne, (List.dropLast_append_getLast hne).symm, ?_⟩
  conv_lhs => rw [← List.dropLast_append_getLast hne]
  rw [last_append]
  rfl

end DoublyLinked
