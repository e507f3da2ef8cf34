import Mathlib.Data.List.Basic

/-!
# Interleavings

A log that is written by two parties at once is an interleaving of what either of them has written. The
lemmas say how it grows when one of the parties writes on, and what is left of it when the entries of
one party are picked out.
-/

/-- The third list has the entries of the first two, each in their order. -/
inductive Interleave {α : Type*} : List α → List α → List α → Prop
  | nil : Interleave [] [] []
  | left {a : α} {l r m : List α} (h : Interleave l r m) : Interleave (a :: l) r (a :: m)
  | right {a : α} {l r m : List α} (h : Interleave l r m) : Interleave l (a :: r) (a :: m)

namespace Interleave

variable {α : Type*} {l r m : List α}

theorem nil_left (l : List α) : Interleave [] l l := by
  induction l with
  | nil => exact .nil
  | cons a l ih => exact .right ih

theorem nil_right (l : List α) : Interleave l [] l := by
  induction l with
  | nil => exact .nil
  | cons a l ih => exact .left ih

theorem eq_of_nil_left (h : Interleave [] r m) : m = r := by
  induction m generalizing r with
  | nil =>
    cases h
    rfl
  | cons a m ih =>
    cases h with
    | right h => rw [ih h]

theorem eq_of_nil_right (h : Interleave l [] m) : m = l := by
  induction m generalizing l with
  | nil =>
    cases h
    rfl
  | cons a m ih =>
    cases h with
    | left h => rw [ih h]

/-- The first party writes on. -/
theorem append_left (h : Interleave l r m) (x : List α) : Interleave (l ++ x) r (m ++ x) := by
  induction h with
  | nil => exact nil_right x
  | left _ ih => exact .left ih
  | right _ ih => exact .right ih

/-- The second party writes on. -/
theorem append_right (h : Interleave l r m) (x : List α) : Interleave l (r ++ x) (m ++ x) := by
  induction h with
  | nil => exact nil_left x
  | left _ ih => exact .left ih
  | right _ ih => exact .right ih

/-- One after the other. -/
theorem append (l r : List α) : Interleave l r (l ++ r) := (nil_right l).append_right r

theorem mem_iff (h : Interleave l r m) {a : α} : a ∈ m ↔ a ∈ l ∨ a ∈ r := by
  induction h with
  | nil => simp
  | left _ ih => rw [List.mem_cons, List.mem_cons, ih, or_assoc]
  | right _ ih => rw [List.mem_cons, List.mem_cons, ih, or_left_comm]

theorem filter (h : Interleave l r m) (p : α → Bool) :
    Interleave (l.filter p) (r.filter p) (m.filter p) := by
  induction h with
  | nil => exact .nil
  | @left a _ _ _ _ ih =>
    rw [List.filter_cons, List.filter_cons]
    split_ifs
    · exact .left ih
    · exact ih
  | @right a _ _ _ _ ih =>
    rw [List.filter_cons, List.filter_cons]
    split_ifs
    · exact .right ih
    · exact ih

/-- The entries of the first party. -/
theorem filter_eq_left (h : Interleave l r m) {p : α → Bool} (hr : ∀ a ∈ r, p a = false) :
    m.filter p = l.filter p := by
  have hnil : r.filter p = [] := List.filter_eq_nil_iff.mpr fun a ha ↦ by rw [hr a ha]; exact Bool.false_ne_true
  have hfilter := h.filter p
  rw [hnil] at hfilter
  exact hfilter.eq_of_nil_right

/-- The entries of the second party. -/
theorem filter_eq_right (h : Interleave l r m) {p : α → Bool} (hl : ∀ a ∈ l, p a = false) :
    m.filter p = r.filter p := by
  have hnil : l.filter p = [] := List.filter_eq_nil_iff.mpr fun a ha ↦ by rw [hl a ha]; exact Bool.false_ne_true
  have hfilter := h.filter p
  rw [hnil] at hfilter
  exact hfilter.eq_of_nil_left

end Interleave
