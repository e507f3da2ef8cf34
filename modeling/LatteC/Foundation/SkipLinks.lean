import Mathlib.Algebra.Order.Group.Nat
import Mathlib.Data.List.TakeWhile

/-!
# Links over a sequence of towers

The elements of a sequence have heights, and on level `i` every element higher than `i` points to the
next such element, with the distance to it. Both are functions of what follows the element: `next`.
A search for a position in the sequence ends, on level `i`, at the last element before the
position that is higher than `i`; `seat` is that element with the number of elements between it and the
position.

The lemmas say how `next` changes where an element is put at the position: on each level it does so at
the seat and nowhere else.
-/

namespace SkipLinks

variable {τ : Type*} (height : τ → ℕ) (i : ℕ)

/-- The first element higher than `i` and the distance to it; without such an element, the distance to
the end. -/
def next : List τ → Option τ × ℕ
  | [] => (none, 0)
  | t :: ts => if i < height t then (some t, 1) else ((next ts).1, (next ts).2 + 1)

/-- The last element of `a :: L` that is higher than `i`, provided that `a` is, and the number of
elements behind it. -/
def seat (a : τ) (L : List τ) : τ × ℕ :=
  L.foldl (fun s t ↦ if i < height t then (t, 0) else (s.1, s.2 + 1)) (a, 0)

/-- The number of elements at the end that are not higher than `i`. -/
def gap (L : List τ) : ℕ := (L.reverse.takeWhile fun t ↦ decide (height t ≤ i)).length

/-- No element is higher than `i`. -/
def Low (L : List τ) : Prop := ∀ t ∈ L, height t ≤ i

variable {height i} {a b t x : τ} {L P Q R : List τ}

theorem Low.of_cons (h : Low height i (t :: L)) : height t ≤ i ∧ Low height i L :=
  ⟨h t List.mem_cons_self, fun s hs ↦ h s (List.mem_cons_of_mem _ hs)⟩

/-- Cut at the first element that is higher than `i`. -/
theorem low_or_exists_first (height : τ → ℕ) (i : ℕ) (L : List τ) :
    Low height i L ∨ ∃ P t Q, L = P ++ t :: Q ∧ Low height i P ∧ i < height t := by
  induction L with
  | nil => exact Or.inl fun t ht ↦ absurd ht List.not_mem_nil
  | cons s L ih =>
    by_cases hs : i < height s
    · exact Or.inr ⟨[], s, L, rfl, fun t ht ↦ absurd ht List.not_mem_nil, hs⟩
    · rcases ih with hlow | ⟨P, t, Q, rfl, hP, ht⟩
      · refine Or.inl fun t ht ↦ ?_
        rcases List.mem_cons.mp ht with rfl | ht
        · exact not_lt.mp hs
        · exact hlow t ht
      · refine Or.inr ⟨s :: P, t, Q, rfl, fun u hu ↦ ?_, ht⟩
        rcases List.mem_cons.mp hu with rfl | hu
        · exact not_lt.mp hs
        · exact hP u hu

/-! ## The next element -/

@[simp] theorem next_cons_of_lt (h : i < height t) (L : List τ) :
    next height i (t :: L) = (some t, 1) :=
  if_pos h

theorem next_cons_of_not_lt (h : ¬i < height t) (L : List τ) :
    next height i (t :: L) = ((next height i L).1, (next height i L).2 + 1) :=
  if_neg h

theorem next_append_of_low (hP : Low height i P) (L : List τ) :
    next height i (P ++ L) = ((next height i L).1, P.length + (next height i L).2) := by
  induction P with
  | nil => simp
  | cons s P ih =>
    obtain ⟨hs, hP⟩ := hP.of_cons
    rw [List.cons_append, next_cons_of_not_lt (not_lt.mpr hs), ih hP, List.length_cons]
    simp only [Prod.mk.injEq, true_and]
    omega

/-- The next element is the first one that is high enough. -/
theorem next_of_first (hP : Low height i P) (ht : i < height t) (Q : List τ) :
    next height i (P ++ t :: Q) = (some t, P.length + 1) := by
  rw [next_append_of_low hP, next_cons_of_lt ht]

/-- Behind an element that is high enough nothing counts. -/
theorem next_append_of_not_low (h : ¬Low height i L) (R : List τ) :
    next height i (L ++ R) = next height i L := by
  rcases low_or_exists_first height i L with hlow | ⟨P, t, Q, rfl, hP, ht⟩
  · exact absurd hlow h
  · rw [List.append_assoc, List.cons_append, next_of_first hP ht, next_of_first hP ht]

theorem next_fst_mem (h : (next height i L).1 = some t) : t ∈ L := by
  induction L with
  | nil => cases h
  | cons s L ih =>
    by_cases hs : i < height s
    · rw [next_cons_of_lt hs] at h
      exact List.mem_cons.mpr (Or.inl (Option.some.inj h).symm)
    · rw [next_cons_of_not_lt hs] at h
      exact List.mem_cons_of_mem _ (ih h)

theorem next_snd_le (L : List τ) : (next height i L).2 ≤ L.length := by
  induction L with
  | nil => exact le_rfl
  | cons s L ih =>
    rw [List.length_cons]
    by_cases hs : i < height s
    · rw [next_cons_of_lt hs]
      exact Nat.le_add_left 1 _
    · rw [next_cons_of_not_lt hs]
      exact Nat.add_le_add_right ih 1

/-! ## The seat -/

theorem seat_append_cons (ht : i < height t) (a : τ) (P Q : List τ) :
    seat height i a (P ++ t :: Q) = seat height i t Q := by
  rw [seat, List.foldl_append, List.foldl_cons, if_pos ht]
  rfl

private theorem foldl_of_low (hQ : Low height i Q) (n : ℕ) :
    Q.foldl (fun s t ↦ if i < height t then (t, 0) else (s.1, s.2 + 1)) (a, n) =
      (a, n + Q.length) := by
  induction Q generalizing n with
  | nil => rfl
  | cons s Q ih =>
    obtain ⟨hs, hQ⟩ := hQ.of_cons
    rw [List.foldl_cons, if_neg (not_lt.mpr hs), ih hQ, List.length_cons, Nat.add_assoc,
      Nat.add_comm 1]

theorem seat_of_low (hQ : Low height i Q) : seat height i a Q = (a, Q.length) := by
  rw [seat, foldl_of_low hQ, Nat.zero_add]

/-- The seat is found from any element before it that is high enough. -/
theorem seat_of_split (h : a :: L = P ++ b :: Q) (hb : i < height b) :
    seat height i a L = seat height i b Q := by
  cases P with
  | nil =>
    obtain ⟨rfl, rfl⟩ := List.cons.inj h
    rfl
  | cons p P =>
    obtain ⟨-, rfl⟩ := List.cons.inj h
    exact seat_append_cons hb a P Q

/-- Cut at the seat. -/
theorem exists_seat (ha : i < height a) (L : List τ) :
    ∃ P b Q, a :: L = P ++ b :: Q ∧ i < height b ∧ Low height i Q ∧
      seat height i a L = (b, Q.length) := by
  induction L generalizing a with
  | nil =>
    exact ⟨[], a, [], rfl, ha, fun t ht ↦ absurd ht List.not_mem_nil, rfl⟩
  | cons s L ih =>
    by_cases hs : i < height s
    · obtain ⟨P, b, Q, hsplit, hb, hQ, hseat⟩ := ih hs
      refine ⟨a :: P, b, Q, by rw [hsplit, List.cons_append], hb, hQ, ?_⟩
      rw [← hseat]
      exact seat_append_cons hs a [] L
    · -- the cut of `a :: L` is moved over `s`
      obtain ⟨P, b, Q, hsplit, hb, hQ, hseat⟩ := ih ha
      cases P with
      | nil =>
        obtain ⟨rfl, rfl⟩ := List.cons.inj hsplit
        have hlow : Low height i (s :: L) := by
          intro t ht
          rcases List.mem_cons.mp ht with rfl | ht
          · exact not_lt.mp hs
          · exact hQ t ht
        exact ⟨[], a, s :: L, rfl, ha, hlow, seat_of_low hlow⟩
      | cons p P =>
        obtain ⟨rfl, rfl⟩ := List.cons.inj hsplit
        refine ⟨a :: s :: P, b, Q, rfl, hb, hQ, ?_⟩
        exact (seat_append_cons hb a (s :: P) Q).trans (seat_of_low hQ)

theorem seat_mem_of_not_low (h : ¬Low height i Q) : (seat height i a Q).1 ∈ Q := by
  rcases low_or_exists_first height i Q with hlow | ⟨P, t, Q', rfl, hP, ht⟩
  · exact absurd hlow h
  · obtain ⟨P', b, Q'', hsplit, -, -, hseat⟩ := exists_seat ht Q'
    rw [seat_append_cons ht, hseat, hsplit]
    simp

theorem gap_of_low (hL : Low height i L) : gap height i L = L.length := by
  have hall : (L.reverse.takeWhile fun t ↦ decide (height t ≤ i)) = L.reverse :=
    List.takeWhile_eq_self_iff.mpr fun t ht ↦ by simpa using hL t (List.mem_reverse.mp ht)
  rw [gap, hall, List.length_reverse]

/-- Behind the seat is the gap. -/
theorem seat_snd (a : τ) (L : List τ) : (seat height i a L).2 = gap height i L := by
  have hwhile : ∀ {Q : List τ}, Low height i Q → ∀ A : List τ,
      (Q.reverse ++ A).takeWhile (fun t ↦ decide (height t ≤ i)) =
        Q.reverse ++ A.takeWhile fun t ↦ decide (height t ≤ i) := by
    intro Q hQ A
    exact List.takeWhile_append_of_pos fun t ht ↦ by simpa using hQ t (List.mem_reverse.mp ht)
  rcases low_or_exists_first height i L with hlow | ⟨P, t, Q, rfl, -, ht⟩
  · rw [seat_of_low hlow, gap_of_low hlow]
  · obtain ⟨P', b, Q', hsplit, hb, hQ', hseat⟩ := exists_seat ht Q
    rw [seat_append_cons ht, hseat, hsplit, gap, List.reverse_append, List.reverse_append,
      List.reverse_cons, List.append_assoc, List.append_assoc, hwhile hQ', List.singleton_append,
      List.takeWhile_cons_of_neg (by simpa using hb), List.append_nil, List.length_reverse]

theorem gap_map {σ : Type*} (f : σ → τ) (L : List σ) :
    gap height i (L.map f) = gap (fun s ↦ height (f s)) i L := by
  rw [gap, gap, ← List.map_reverse, List.takeWhile_map, List.length_map]
  rfl

/-- What is in front of the seat does not matter, and neither does the first element unless it is the
seat. -/
theorem seat_head (height : τ → ℕ) (i : ℕ) (a b : τ) (L : List τ) :
    (seat height i a L = (a, L.length) ∧ seat height i b L = (b, L.length)) ∨
      seat height i a L = seat height i b L := by
  rcases low_or_exists_first height i L with hlow | ⟨P, t, Q, rfl, hP, ht⟩
  · exact Or.inl ⟨seat_of_low hlow, seat_of_low hlow⟩
  · exact Or.inr ((seat_append_cons ht a P Q).trans (seat_append_cons ht b P Q).symm)

/-- An element in front of the position is the seat if nothing behind it is high enough; otherwise the seat is
behind it. -/
theorem seat_or_mem {b c : τ} {P' Q' : List τ} (hsplit : a :: L = P ++ b :: Q) (hb : i < height b)
    (hQ : Low height i Q) (hsplit' : a :: L = P' ++ c :: Q') (hc : i < height c) :
    (Low height i Q' ∧ b = c ∧ Q = Q') ∨ (¬Low height i Q' ∧ b ∈ Q') := by
  by_cases hlow : Low height i Q'
  · have hsame : (b, Q.length) = (c, Q'.length) := by
      rw [← seat_of_low hQ, ← seat_of_low hlow, ← seat_of_split hsplit hb,
        ← seat_of_split hsplit' hc]
    obtain ⟨rfl, hlen⟩ := Prod.mk.inj hsame
    have hcut : P ++ b :: Q = P' ++ b :: Q' := hsplit.symm.trans hsplit'
    obtain ⟨-, hcut⟩ := List.append_inj' hcut (by rw [List.length_cons, List.length_cons, hlen])
    exact Or.inl ⟨hlow, rfl, (List.cons.inj hcut).2⟩
  · have hmem := seat_mem_of_not_low (a := c) hlow
    rw [← seat_of_split hsplit' hc, seat_of_split hsplit hb, seat_of_low hQ] at hmem
    exact Or.inr ⟨hlow, hmem⟩

/-- An element of `L ++ R` is in one of the two. -/
theorem split_append {c : τ} (h : L ++ R = P ++ c :: Q) :
    (∃ Q', L = P ++ c :: Q' ∧ Q = Q' ++ R) ∨ ∃ A, R = A ++ c :: Q ∧ P = L ++ A := by
  rcases List.append_eq_append_iff.mp h with ⟨A, hP, hR⟩ | ⟨C, hL, hQ⟩
  · exact Or.inr ⟨A, hR, hP⟩
  · cases C with
    | nil =>
      rw [List.nil_append] at hQ
      exact Or.inr ⟨[], hQ.symm, by rw [hL, List.append_nil, List.append_nil]⟩
    | cons y C =>
      obtain ⟨rfl, rfl⟩ := List.cons.inj hQ
      exact Or.inl ⟨C, hL, rfl⟩

/-! ## An element put at a position -/

/-- An element of `L ++ x :: R` is in front of the new one, is the new one, or is behind it. -/
theorem split_insert {c : τ} (h : L ++ x :: R = P ++ c :: Q) :
    (∃ Q', L = P ++ c :: Q' ∧ Q = Q' ++ x :: R) ∨ (c = x ∧ P = L ∧ Q = R) ∨
      ∃ A, R = A ++ c :: Q ∧ P = L ++ x :: A := by
  rcases split_append h with hfront | ⟨A, hR, hP⟩
  · exact Or.inl hfront
  · cases A with
    | nil =>
      obtain ⟨rfl, rfl⟩ := List.cons.inj hR
      exact Or.inr (Or.inl ⟨rfl, by simpa using hP, rfl⟩)
    | cons y A =>
      obtain ⟨rfl, rfl⟩ := List.cons.inj hR
      exact Or.inr (Or.inr ⟨A, rfl, hP⟩)

/-- In front of a new element that is not high enough, the distance grows by one. -/
theorem next_insert_of_low (hQ : Low height i Q) (hx : height x ≤ i) (R : List τ) :
    next height i (Q ++ x :: R) =
      ((next height i (Q ++ R)).1, (next height i (Q ++ R)).2 + 1) := by
  rw [next_append_of_low hQ, next_append_of_low hQ, next_cons_of_not_lt (not_lt.mpr hx)]
  rfl

/-- Behind the seat nothing has changed. -/
theorem next_insert_of_not_low (hQ : ¬Low height i Q) (x : τ) (R : List τ) :
    next height i (Q ++ x :: R) = next height i (Q ++ R) := by
  rw [next_append_of_not_low hQ, next_append_of_not_low hQ]

end SkipLinks
