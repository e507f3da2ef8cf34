import Mathlib.Algebra.Order.Ring.Int
import Mathlib.Data.List.Lex
import Mathlib.Order.Nat
import Mathlib.Tactic.SplitIfs

/-!
# Strings

`sds_cmp` and `sds_cat_len` of `src/sds/sds.c`. A string is the list of its bytes. The comparison is the
lexicographic one on the byte values, with a proper prefix first.
-/

namespace LatteC

/-- `sds_cat_len`. No allocator hands out a block of `2 ^ 63` bytes; every other request is met. -/
def sdsCatLen (s t : List UInt8) : Option (List UInt8) :=
  if s.length + t.length < 2 ^ 63 then some (s ++ t) else none

/-- What a function for C strings sees of a string: the bytes before the first NUL. -/
def cString (s : List UInt8) : List UInt8 := s.takeWhile (· ≠ 0)

theorem cString_eq_self {s : List UInt8} (h : 0 ∉ s) : cString s = s := by
  induction s with
  | nil => rfl
  | cons b bs ih =>
    rw [List.mem_cons, not_or] at h
    have hb : decide (b ≠ 0) = true := decide_eq_true (Ne.symm h.1)
    rw [cString, List.takeWhile_cons, if_pos hb, ← cString, ih h.2]

theorem zero_notMem_cString (s : List UInt8) : 0 ∉ cString s := by
  intro h
  have hall := List.all_takeWhile (p := fun c : UInt8 ↦ decide (c ≠ 0)) (l := s)
  exact of_decide_eq_true (List.all_eq_true.mp hall 0 h) rfl

/-- `memcmp(s1, s2, n)`, for strings of at least `n` bytes. Only the sign of the result is specified;
it is the difference of the first bytes that differ. -/
def memcmp : (n : ℕ) → List UInt8 → List UInt8 → ℤ
  | n + 1, x :: xs, y :: ys => if x = y then memcmp n xs ys else (x.toNat : ℤ) - y.toNat
  | _, _, _ => 0

theorem memcmp_cons (n : ℕ) (x y : UInt8) (xs ys : List UInt8) :
    memcmp (n + 1) (x :: xs) (y :: ys) =
      if x = y then memcmp n xs ys else (x.toNat : ℤ) - y.toNat := rfl

theorem memcmp_eq_zero_iff {a b : List UInt8} (h : a.length = b.length) :
    memcmp a.length a b = 0 ↔ a = b := by
  induction a generalizing b with
  | nil =>
    obtain rfl := List.length_eq_zero_iff.mp h.symm
    exact iff_of_true rfl rfl
  | cons x xs ih =>
    cases b with
    | nil => simp at h
    | cons y ys =>
      rw [List.length_cons, memcmp_cons]
      split_ifs with hxy
      · rw [ih (by simpa using h), hxy, List.cons.injEq, and_iff_right rfl]
      · have hne : x.toNat ≠ y.toNat := fun heq ↦ hxy (UInt8.toNat_inj.mp heq)
        rw [List.cons.injEq]
        constructor
        · intro h0
          omega
        · exact fun heq ↦ absurd heq.1 hxy

/-- `sds_cmp`. -/
def sdsCmp (s1 s2 : List UInt8) : ℤ :=
  let minlen := if s1.length < s2.length then s1.length else s2.length
  let cmp := memcmp minlen s1 s2
  if cmp = 0 then
    if s2.length < s1.length then 1 else if s1.length < s2.length then -1 else 0
  else cmp

/-- The values of the bytes, whose lexicographic order is that of `sds_cmp`. -/
def sdsBytes (s : List UInt8) : List ℕ := s.map UInt8.toNat

theorem sdsBytes_injective : Function.Injective sdsBytes :=
  List.map_injective_iff.mpr fun _ _ h ↦ UInt8.toNat_inj.mp h

@[simp] theorem sdsCmp_nil_nil : sdsCmp [] [] = 0 := rfl

@[simp] theorem sdsCmp_nil_cons (y : UInt8) (ys : List UInt8) : sdsCmp [] (y :: ys) = -1 := rfl

@[simp] theorem sdsCmp_cons_nil (x : UInt8) (xs : List UInt8) : sdsCmp (x :: xs) [] = 1 := rfl

private theorem minlen_succ (m n : ℕ) :
    (if m < n then m + 1 else n + 1) = (if m < n then m else n) + 1 := by
  split_ifs <;> rfl

theorem sdsCmp_cons (x y : UInt8) (xs ys : List UInt8) :
    sdsCmp (x :: xs) (y :: ys) = if x = y then sdsCmp xs ys else (x.toNat : ℤ) - y.toNat := by
  simp only [sdsCmp, List.length_cons, Nat.add_lt_add_iff_right, minlen_succ, memcmp_cons]
  by_cases h : x = y
  · rw [if_pos h, if_pos h]
  · have hne : (x.toNat : ℤ) - y.toNat ≠ 0 := by
      intro h0
      exact h (UInt8.toNat_inj.mp (by omega))
    rw [if_neg h, if_neg hne, if_neg h]

theorem sdsCmp_cons_self (x : UInt8) (xs ys : List UInt8) :
    sdsCmp (x :: xs) (x :: ys) = sdsCmp xs ys := by
  rw [sdsCmp_cons, if_pos rfl]

theorem sdsCmp_cons_of_ne {x y : UInt8} (h : x ≠ y) (xs ys : List UInt8) :
    sdsCmp (x :: xs) (y :: ys) = (x.toNat : ℤ) - y.toNat := by
  rw [sdsCmp_cons, if_neg h]

/-- `sds_cmp` is antisymmetric in its sign. -/
theorem sdsCmp_swap (a b : List UInt8) : sdsCmp b a = -sdsCmp a b := by
  induction a generalizing b with
  | nil => cases b <;> simp
  | cons x xs ih =>
    cases b with
    | nil => simp
    | cons y ys =>
      by_cases h : x = y
      · subst h
        rw [sdsCmp_cons_self, sdsCmp_cons_self, ih]
      · rw [sdsCmp_cons_of_ne h, sdsCmp_cons_of_ne (Ne.symm h)]
        omega

theorem sdsCmp_neg_iff (a b : List UInt8) : sdsCmp a b < 0 ↔ sdsBytes a < sdsBytes b := by
  induction a generalizing b with
  | nil => cases b <;> simp [sdsBytes]
  | cons x xs ih =>
    cases b with
    | nil => simp [sdsBytes]
    | cons y ys =>
      rw [sdsBytes, sdsBytes, List.map_cons, List.map_cons, List.cons_lt_cons_iff]
      by_cases h : x = y
      · subst h
        rw [sdsCmp_cons_self, ih]
        simp [sdsBytes]
      · have hne : x.toNat ≠ y.toNat := fun heq ↦ h (UInt8.toNat_inj.mp heq)
        rw [sdsCmp_cons_of_ne h]
        constructor
        · intro hlt
          exact Or.inl (by omega)
        · rintro (hlt | ⟨heq, -⟩)
          · omega
          · exact absurd heq hne

theorem sdsCmp_pos_iff (a b : List UInt8) : 0 < sdsCmp a b ↔ sdsBytes b < sdsBytes a := by
  rw [← sdsCmp_neg_iff, sdsCmp_swap a b]
  omega

theorem sdsCmp_eq_zero_iff (a b : List UInt8) : sdsCmp a b = 0 ↔ a = b := by
  have hneg := sdsCmp_neg_iff a b
  have hpos := sdsCmp_pos_iff a b
  constructor
  · intro h
    rw [h] at hneg hpos
    exact sdsBytes_injective (le_antisymm (not_lt.mp fun hlt ↦ lt_irrefl 0 (hpos.mpr hlt))
      (not_lt.mp fun hlt ↦ lt_irrefl 0 (hneg.mpr hlt)))
  · rintro rfl
    have hirrefl : ¬ sdsBytes a < sdsBytes a := lt_irrefl _
    have := mt hneg.mp hirrefl
    have := mt hpos.mp hirrefl
    omega

end LatteC
