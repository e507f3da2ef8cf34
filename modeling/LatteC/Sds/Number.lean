import LatteC.Foundation.Reverse
import LatteC.Utils.Numeric
import Mathlib.Data.Int.Basic

/-!
# Numbers for formats

`sdsll2str` and `sdsull2str` of `src/sds/sds.c`. The digits are stored in the wrong order and then reversed
where they are.
-/

namespace LatteC

open Decimal

/-- The first loop of both functions: the digits of `v` from `p` on, the last one first. -/
def sdsDigits (s : List UInt8) (p v : ℕ) : Option (List UInt8 × ℕ) :=
  (Block.write s p [digitChar (v % 10)]).bind fun s ↦
    if v / 10 = 0 then some (s, p + 1) else sdsDigits s (p + 1) (v / 10)
termination_by v
decreasing_by omega

/-- The end of both functions: the NUL behind what was stored, and the reversal. -/
def sdsReverse (s : List UInt8) (p : ℕ) : Option (List UInt8 × ℕ) := do
  let l := p
  let s ← Block.write s p [0]
  let s ← Block.reverseLoop s 0 (p - 1)
  some (s, l)

/-- **The digits** go where there is a gap for exactly these. -/
theorem sdsDigits_append (v : ℕ) (A X C : List UInt8) (hX : X.length = (natNumeral v).length) :
    sdsDigits (A ++ X ++ C) A.length v =
      some (A ++ (natNumeral v).reverse ++ C, A.length + (natNumeral v).length) := by
  induction v using Nat.strongRecOn generalizing A X with
  | ind v ih =>
    rw [sdsDigits]
    by_cases hsmall : v < 10
    · rw [natNumeral_of_lt hsmall] at hX ⊢
      rw [Nat.mod_eq_of_lt hsmall, Block.write_append A C (show [digitChar v].length = X.length from hX.symm),
        Option.bind_some, if_pos (by omega)]
      rfl
    · have hnumeral := natNumeral_of_le (not_lt.mp hsmall)
      have hlength : (natNumeral v).length = (natNumeral (v / 10)).length + 1 := by
        rw [hnumeral, List.length_append, List.length_singleton]
      rw [hlength] at hX
      obtain ⟨x, X', rfl⟩ := List.exists_cons_of_length_pos (l := X) (by omega)
      have hwrite := Block.write_append A (X' ++ C) (show [digitChar (v % 10)].length = [x].length from rfl)
      have hsplit : A ++ x :: X' ++ C = A ++ [x] ++ (X' ++ C) := by simp
      have hrest := ih (v / 10) (by omega) (A ++ [digitChar (v % 10)]) X'
        (by rw [List.length_cons] at hX; omega)
      rw [List.length_append, List.length_singleton, List.append_assoc _ X' C] at hrest
      rw [hsplit, hwrite, Option.bind_some, if_neg (by omega), hrest, hlength, hnumeral, List.reverse_append,
        List.reverse_singleton, Nat.add_assoc, Nat.add_comm 1]
      simp

/-- What was stored comes out reversed. -/
theorem sdsReverse_append (X : List UInt8) (y : UInt8) (C : List UInt8) :
    sdsReverse (X ++ y :: C) X.length = some (X.reverse ++ 0 :: C, X.length) := by
  have hwrite := Block.write_append X C (show [(0 : UInt8)].length = [y].length from rfl)
  rw [List.append_assoc, List.append_assoc, List.singleton_append, List.singleton_append] at hwrite
  have hreverse := Block.reverseLoop_append [] X (0 :: C)
  rw [List.nil_append, List.nil_append, List.length_nil, Nat.zero_add] at hreverse
  simp only [sdsReverse, hwrite, hreverse, bind, Option.bind_some]

/-- A buffer in front of a position and behind it. -/
theorem exists_append_cons {s : List UInt8} {n : ℕ} (h : n < s.length) :
    ∃ X y C, s = X ++ y :: C ∧ X.length = n ∧ s.drop (n + 1) = C := by
  refine ⟨s.take n, s[n], s.drop (n + 1), ?_, List.length_take_of_le h.le, rfl⟩
  rw [← List.drop_eq_getElem_cons h, List.take_append_drop]

/-- The digits at the beginning of a buffer, and then the reversal. -/
theorem sdsDigits_zero {X : List UInt8} {v : ℕ} (hX : X.length = (natNumeral v).length) (C : List UInt8) :
    sdsDigits (X ++ C) 0 v = some ((natNumeral v).reverse ++ C, (natNumeral v).length) := by
  have h := sdsDigits_append v [] X C hX
  rwa [List.nil_append, List.length_nil, Nat.zero_add, List.nil_append] at h

theorem sdsReverse_reverse (X : List UInt8) (y : UInt8) (C : List UInt8) :
    sdsReverse (X.reverse ++ y :: C) X.length = some (X ++ 0 :: C, X.length) := by
  have h := sdsReverse_append X.reverse y C
  rwa [List.length_reverse, List.reverse_reverse] at h

end LatteC
