import Mathlib.Data.Int.Basic
import Mathlib.Data.List.Basic

/-!
# The next index

The least index with a property in a range, which a search returns, and the list of all of them, which one
gets by searching on from behind the last one found.
-/

namespace NextIndex

variable (p : ℕ → Bool)

/-- The least index from `s` on and below `n` that has the property. -/
def next (s n : ℕ) : Option ℕ := (List.range' s (n - s)).find? p

/-- All of them. -/
def all (s n : ℕ) : List ℕ := (List.range' s (n - s)).filter p

/-- As a signed number, `-1` if there is none. -/
def signed (r : Option ℕ) : ℤ := r.elim (-1) Nat.cast

variable {p} {s n : ℕ}

theorem next_eq_some_iff {i : ℕ} :
    next p s n = some i ↔ p i = true ∧ (s ≤ i ∧ i < n) ∧ ∀ j, s ≤ j → j < i → p j = false := by
  rw [next, List.find?_range'_eq_some, List.mem_range'_1]
  refine and_congr_right fun _ ↦ and_congr ?_ ?_
  · omega
  · exact forall₃_congr fun j _ _ ↦ by rw [Bool.not_eq_true']

theorem next_eq_none_iff : next p s n = none ↔ ∀ j, s ≤ j → j < n → p j = false := by
  rw [next, List.find?_range'_eq_none]
  refine forall₂_congr fun j hj ↦ ?_
  rw [Bool.not_eq_true']
  exact imp_congr_left (by omega)

/-- The search goes on in a second range if there is nothing in the first. -/
theorem next_split {m : ℕ} (hs : s ≤ m) (hn : m ≤ n) : next p s n = (next p s m).or (next p m n) := by
  have hrange : List.range' s (n - s) = List.range' s (m - s) ++ List.range' m (n - m) := by
    have happend := @List.range'_append_1 s (m - s) (n - m)
    rw [show s + (m - s) = m by omega, show m - s + (n - m) = n - s by omega] at happend
    exact happend.symm
  rw [next, hrange, List.find?_append]
  rfl

/-- What is found behind a bound is cut off. -/
theorem next_of_le {m : ℕ} (hm : n ≤ m) : next p s n = (next p s m).filter fun i ↦ decide (i < n) := by
  cases hnext : next p s m with
  | none =>
    rw [next_eq_none_iff] at hnext
    rw [Option.filter_none, next_eq_none_iff]
    exact fun j hj hlt ↦ hnext j hj (by omega)
  | some i =>
    obtain ⟨hi, hbounds, hleast⟩ := next_eq_some_iff.mp hnext
    rw [Option.filter_some]
    by_cases hlt : i < n
    · rw [if_pos (decide_eq_true hlt), next_eq_some_iff]
      exact ⟨hi, ⟨hbounds.1, hlt⟩, hleast⟩
    · rw [if_neg (by rwa [decide_eq_true_iff]), next_eq_none_iff]
      exact fun j hj hjn ↦ hleast j hj (by omega)

/-- A range that starts somewhere else. -/
theorem next_add (a : ℕ) : next p (a + s) (a + n) = (next (fun j ↦ p (a + j)) s n).map (a + ·) := by
  have hrange : List.range' (a + s) (a + n - (a + s)) = (List.range' s (n - s)).map (a + ·) := by
    rw [List.map_add_range', show a + n - (a + s) = n - s by omega]
  rw [next, hrange, List.find?_map]
  rfl

theorem next_congr {q : ℕ → Bool} (h : ∀ j, s ≤ j → j < n → p j = q j) : next p s n = next q s n := by
  cases hnext : next q s n with
  | none =>
    rw [next_eq_none_iff] at hnext ⊢
    exact fun j hj hlt ↦ (h j hj hlt).trans (hnext j hj hlt)
  | some i =>
    rw [next_eq_some_iff] at hnext ⊢
    obtain ⟨hi, hbounds, hleast⟩ := hnext
    refine ⟨(h i hbounds.1 hbounds.2).trans hi, hbounds, fun j hj hlt ↦ ?_⟩
    exact (h j hj (by omega)).trans (hleast j hj hlt)

/-! ## All indices -/

theorem mem_all_iff {i : ℕ} : i ∈ all p s n ↔ (s ≤ i ∧ i < n) ∧ p i = true := by
  rw [all, List.mem_filter, List.mem_range'_1]
  exact and_congr_left fun _ ↦ by omega

theorem pairwise_all (p : ℕ → Bool) (s n : ℕ) : (all p s n).Pairwise (· < ·) :=
  List.Pairwise.filter p List.pairwise_lt_range'

theorem all_of_next_none (h : next p s n = none) : all p s n = [] := by
  rw [next_eq_none_iff] at h
  rw [List.eq_nil_iff_forall_not_mem]
  intro i hi
  obtain ⟨hbounds, hp⟩ := mem_all_iff.mp hi
  rw [h i hbounds.1 hbounds.2] at hp
  exact Bool.false_ne_true hp

/-- The first index, and then those behind it. -/
theorem all_of_next_some {i : ℕ} (h : next p s n = some i) : all p s n = i :: all p (i + 1) n := by
  obtain ⟨hi, ⟨hs, hn⟩, hleast⟩ := next_eq_some_iff.mp h
  have hrange : List.range' s (n - s) = List.range' s (i - s) ++ i :: List.range' (i + 1) (n - (i + 1)) := by
    have happend := @List.range'_append_1 s (i - s) (n - i)
    rw [show s + (i - s) = i by omega, show i - s + (n - i) = n - s by omega] at happend
    rw [← happend, show n - i = n - (i + 1) + 1 by omega, List.range'_succ]
  have hnone : (List.range' s (i - s)).filter p = [] := by
    rw [List.filter_eq_nil_iff]
    intro j hj
    rw [List.mem_range'_1] at hj
    rw [hleast j hj.1 (by omega)]
    exact Bool.false_ne_true
  rw [all, hrange, List.filter_append, hnone, List.nil_append, List.filter_cons_of_pos hi, all]

end NextIndex
