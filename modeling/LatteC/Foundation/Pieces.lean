import Mathlib.Data.List.Infix
import Mathlib.Order.Nat

/-!
# Splitting at a separator

A list is split at the leftmost occurrence of a separator, and what is behind it is split in the same way.
The occurrences that are found do not overlap, even where the separator overlaps itself. The scan that finds
them goes over the list once and passes over the elements of a separator it has found.
-/

namespace Pieces

variable {α : Type*} (sep : List α)

/-- The list is split into these pieces, at so many separators, each of which is the leftmost one behind the
separator before it. -/
inductive Leftmost : List α → List (List α) → ℕ → Prop
  | last {s : List α} (h : ∀ i, ¬sep <+: s.drop i) : Leftmost s [s] 0
  | cons {t rest : List α} {ts : List (List α)} {n : ℕ}
      (h : ∀ i < t.length, ¬sep <+: (t ++ (sep ++ rest)).drop i) (hrest : Leftmost rest ts n) :
      Leftmost (t ++ (sep ++ rest)) (t :: ts) (n + 1)

namespace Leftmost

variable {sep} {s : List α} {ts : List (List α)} {n : ℕ}

theorem length_eq (h : Leftmost sep s ts n) : ts.length = n + 1 := by
  induction h with
  | last _ => rfl
  | cons _ _ ih => rw [List.length_cons, ih]

theorem ne_nil (h : Leftmost sep s ts n) : ts ≠ [] :=
  List.ne_nil_of_length_eq_add_one h.length_eq

/-- The pieces with separators between them are the list. -/
theorem intercalate_eq (h : Leftmost sep s ts n) : sep.intercalate ts = s := by
  induction h with
  | last _ => exact List.intercalate_singleton
  | cons _ hrest ih => rw [List.intercalate_cons_of_ne_nil hrest.ne_nil, ih, List.append_assoc]

/-- No piece has the separator in it. -/
theorem not_infix (hsep : sep ≠ []) (h : Leftmost sep s ts n) : ∀ t ∈ ts, ¬sep <:+: t := by
  induction h with
  | last h =>
    rw [List.forall_mem_singleton]
    rintro ⟨front, back, rfl⟩
    exact h front.length ⟨back, by rw [List.append_assoc, List.drop_left]⟩
  | @cons t rest ts n h _ ih =>
    rw [List.forall_mem_cons]
    refine ⟨?_, ih⟩
    rintro ⟨front, back, rfl⟩
    have hlt : front.length < (front ++ sep ++ back).length := by
      rw [List.append_assoc, List.length_append, List.length_append]
      have := List.length_pos_of_ne_nil hsep
      omega
    refine h front.length hlt ⟨back ++ (sep ++ rest), ?_⟩
    simp only [List.append_assoc, List.drop_left]

end Leftmost

/-! ## The scan -/

variable [DecidableEq α]

/-- The pieces of `token ++ s`, where `s` is what is left to scan. Of it, `skip` elements belong to a
separator. -/
def pieces : (skip : ℕ) → (token s : List α) → List (List α)
  | _, token, [] => [token]
  | skip + 1, token, _ :: s => pieces skip token s
  | 0, token, c :: s =>
    if sep <+: c :: s then token :: pieces (sep.length - 1) [] s else pieces 0 (token ++ [c]) s

theorem pieces_nil (skip : ℕ) (token : List α) : pieces sep skip token [] = [token] := by
  cases skip <;> rfl

theorem pieces_succ (skip : ℕ) (token : List α) (c : α) (s : List α) :
    pieces sep (skip + 1) token (c :: s) = pieces sep skip token s := rfl

theorem pieces_zero (token : List α) (c : α) (s : List α) :
    pieces sep 0 token (c :: s) =
      if sep <+: c :: s then token :: pieces sep (sep.length - 1) [] s
      else pieces sep 0 (token ++ [c]) s := rfl

theorem pieces_skip (skip : ℕ) (token s : List α) :
    pieces sep skip token s = pieces sep 0 token (s.drop skip) := by
  induction skip generalizing s with
  | zero => rfl
  | succ skip ih =>
    cases s with
    | nil => rfl
    | cons c s => rw [pieces_succ, ih, List.drop_succ_cons]

/-- A separator is found. -/
theorem pieces_of_isPrefix (hsep : sep ≠ []) {s : List α} (h : sep <+: s) (token : List α) :
    pieces sep 0 token s = token :: pieces sep 0 [] (s.drop sep.length) := by
  obtain ⟨x, xs, rfl⟩ := List.exists_cons_of_ne_nil hsep
  cases s with
  | nil => exact absurd (List.prefix_nil.mp h) (List.cons_ne_nil x xs)
  | cons c s =>
    rw [pieces_zero, if_pos h, pieces_skip]
    rfl

theorem pieces_of_not_isPrefix {c : α} {s : List α} (h : ¬sep <+: c :: s) (token : List α) :
    pieces sep 0 token (c :: s) = pieces sep 0 (token ++ [c]) s := by
  rw [pieces_zero, if_neg h]

/-- There is no room for a separator. -/
theorem pieces_of_length_lt {s : List α} (h : s.length < sep.length) (token : List α) :
    pieces sep 0 token s = [token ++ s] := by
  induction s generalizing token with
  | nil => rw [pieces_nil, List.append_nil]
  | cons c s ih =>
    have hprefix : ¬sep <+: c :: s := fun hp ↦ absurd hp.length_le (Nat.not_le.mpr h)
    rw [List.length_cons] at h
    rw [pieces_of_not_isPrefix sep hprefix, ih (Nat.lt_of_succ_lt h), List.append_assoc, List.singleton_append]

theorem pieces_ne_nil (skip : ℕ) (token s : List α) : pieces sep skip token s ≠ [] := by
  induction s generalizing skip token with
  | nil =>
    rw [pieces_nil]
    exact List.cons_ne_nil token []
  | cons c s ih =>
    cases skip with
    | succ skip =>
      rw [pieces_succ]
      exact ih skip token
    | zero =>
      rw [pieces_zero]
      split_ifs
      · exact List.cons_ne_nil token _
      · exact ih 0 _

/-- **The scan** finds the leftmost separators. No separator starts in the part of the piece that has been
scanned. -/
theorem leftmost_pieces (hsep : sep ≠ []) {skip : ℕ} {token s : List α}
    (htoken : ∀ i < token.length, ¬sep <+: (token ++ s.drop skip).drop i) :
    ∃ n, Leftmost sep (token ++ s.drop skip) (pieces sep skip token s) n := by
  induction s generalizing skip token with
  | nil =>
    rw [List.drop_nil, List.append_nil] at htoken ⊢
    refine ⟨0, .last fun i ↦ ?_⟩
    rcases lt_or_ge i token.length with hi | hi
    · exact htoken i hi
    · rw [List.drop_eq_nil_of_le hi, List.prefix_nil]
      exact hsep
  | cons c s ih =>
    cases skip with
    | succ skip =>
      rw [pieces_succ]
      exact ih htoken
    | zero =>
      rw [List.drop_zero] at htoken ⊢
      by_cases hprefix : sep <+: c :: s
      · have hlength : sep.length - 1 + 1 = sep.length :=
          Nat.sub_add_cancel (List.length_pos_of_ne_nil hsep)
        have hrest : c :: s = sep ++ s.drop (sep.length - 1) := by
          obtain ⟨rest, hrest⟩ := hprefix
          have hdrop := congrArg (List.drop sep.length) hrest
          rw [List.drop_left, ← hlength, List.drop_succ_cons] at hdrop
          rw [← hdrop, hrest]
        obtain ⟨n, hn⟩ := ih (fun i hi ↦ absurd hi (Nat.not_lt_zero i) : ∀ i < ([] : List α).length, _)
        rw [List.nil_append] at hn
        rw [pieces_zero, if_pos hprefix, hrest]
        rw [hrest] at htoken
        exact ⟨n + 1, .cons htoken hn⟩
      · rw [pieces_of_not_isPrefix sep hprefix]
        have hsplit : token ++ c :: s = token ++ [c] ++ s.drop 0 := by
          rw [List.append_assoc, List.singleton_append, List.drop_zero]
        rw [hsplit] at htoken ⊢
        refine ih fun i hi ↦ ?_
        rw [List.length_append, List.length_singleton] at hi
        rcases Nat.lt_succ_iff_lt_or_eq.mp hi with hi | rfl
        · exact htoken i hi
        · rw [List.append_assoc, List.drop_left]
          exact hprefix

end Pieces
