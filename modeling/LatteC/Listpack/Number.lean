import LatteC.Foundation.Decimal
import LatteC.Listpack.Encoding

/-!
# Strings that are numbers

`list_pack_string_to_int64` of `src/listpack/listpack.c`, which decides whether a string is stored
as an integer. It accepts the numerals of the 64-bit integers and nothing else, so nothing is lost.
-/

namespace LatteC

open Decimal

/-- The loop over the digits behind the first one: the value, and what is left of the string. -/
def lpParseDigits : (v : ℕ) → List UInt8 → Option (ℕ × List UInt8)
  | v, [] => some (v, [])
  | v, c :: cs =>
    if 48 ≤ c ∧ c ≤ 57 then
      if (2 ^ 64 - 1) / 10 < v then none
      else if 2 ^ 64 - 1 - (c.toNat - 48) < v * 10 then none
      else lpParseDigits (v * 10 + (c.toNat - 48)) cs
    else some (v, c :: cs)

/-- `list_pack_string_to_int64` behind the sign, which must not be the end of the string. -/
def lpParseUnsigned (negative : Bool) : List UInt8 → Option ℤ
  | [] => none
  | c :: cs =>
    if 49 ≤ c ∧ c ≤ 57 then
      (lpParseDigits (c.toNat - 48) cs).bind fun r ↦
        -- not all bytes were used
        if r.2 ≠ [] then none
        else if negative then
          if 2 ^ 63 < r.1 then none else some (-r.1)
        else if 2 ^ 63 - 1 < r.1 then none else some r.1
    else none

/-- `list_pack_string_to_int64`. -/
def listPackStringToInt64 (s : List UInt8) : Option ℤ :=
  if s.length = 0 ∨ 21 ≤ s.length then none
  else if s.length = 1 ∧ s.head? = some 48 then some 0
  else if s.head? = some 45 then lpParseUnsigned true s.tail
  else lpParseUnsigned false s

/-- The loop accepts the strings of digits whose value is a `uint64_t`. -/
theorem lpParseDigits_eq_some_iff (cs : List UInt8) : ∀ {v w : ℕ}, v < 2 ^ 64 →
    (lpParseDigits v cs = some (w, []) ↔
      (∀ c ∈ cs, IsDigit c) ∧ w = v * 10 ^ cs.length + digitsValue cs ∧ w < 2 ^ 64) := by
  induction cs with
  | nil =>
    intro v w hv
    rw [lpParseDigits]
    simp only [Option.some.injEq, Prod.mk.injEq, and_true, List.not_mem_nil, List.length_nil]
    constructor
    · rintro rfl
      exact ⟨fun _ h ↦ h.elim, by simp [digitsValue], hv⟩
    · rintro ⟨-, rfl, -⟩
      simp [digitsValue]
  | cons c cs ih =>
    intro v w hv
    have hsum : v * 10 ^ (c :: cs).length + digitsValue (c :: cs) =
        (v * 10 + charDigit c) * 10 ^ cs.length + digitsValue cs := by
      rw [digitsValue_cons, List.length_cons, pow_succ]
      ring
    rw [lpParseDigits, List.forall_mem_cons, hsum]
    by_cases hc : 48 ≤ c ∧ c ≤ 57
    · have hdigit : IsDigit c := hc
      have hlt := charDigit_lt hdigit
      rw [if_pos hc, show c.toNat - 48 = charDigit c from rfl]
      by_cases hfit : v * 10 + charDigit c < 2 ^ 64
      · rw [if_neg (by omega), if_neg (by omega), ih hfit]
        simp only [hdigit, true_and]
      · -- the value only grows, so it cannot fit either
        have hnone : (if (2 ^ 64 - 1) / 10 < v then none
            else if 2 ^ 64 - 1 - charDigit c < v * 10 then none
            else lpParseDigits (v * 10 + charDigit c) cs) = none := by
          split_ifs
          · rfl
          · rfl
          · omega
        rw [hnone]
        refine iff_of_false (by simp) ?_
        rintro ⟨-, rfl, hw⟩
        have hpow : 1 ≤ 10 ^ cs.length := Nat.one_le_pow _ _ (by decide)
        have hle : v * 10 + charDigit c ≤ (v * 10 + charDigit c) * 10 ^ cs.length :=
          Nat.le_mul_of_pos_right _ hpow
        omega
    · rw [if_neg hc]
      refine iff_of_false (by simp) ?_
      rintro ⟨⟨hc', -⟩, -⟩
      exact hc hc'

/-- `1` to `9`. -/
private theorem leading_digit_iff (c : UInt8) : (49 ≤ c ∧ c ≤ 57) ↔ IsDigit c ∧ c ≠ 48 := by
  rw [isDigit_iff, UInt8.le_iff_toNat_le, UInt8.le_iff_toNat_le, ne_eq, ← UInt8.toNat_inj]
  have h48 : (48 : UInt8).toNat = 48 := rfl
  have h49 : (49 : UInt8).toNat = 49 := rfl
  have h57 : (57 : UInt8).toNat = 57 := rfl
  omega

/-- A leading digit and the loop behind it accept the numerals of the positive `uint64_t`s. -/
private theorem parse_natNumeral_iff (c : UInt8) (cs : List UInt8) {n : ℕ} :
    (49 ≤ c ∧ c ≤ 57) ∧ lpParseDigits (c.toNat - 48) cs = some (n, []) ↔
      c :: cs = natNumeral n ∧ n ≠ 0 ∧ n < 2 ^ 64 := by
  have hlt : c.toNat - 48 < 2 ^ 64 := by
    have := c.toNat_lt
    omega
  rw [leading_digit_iff, lpParseDigits_eq_some_iff cs hlt, show c.toNat - 48 = charDigit c from rfl,
    ← digitsValue_cons]
  constructor
  · rintro ⟨⟨hc, h0⟩, hcs, rfl, hn⟩
    have hnum := natNumeral_digitsValue h0 (List.forall_mem_cons.mpr ⟨hc, hcs⟩)
    refine ⟨hnum.symm, fun hzero ↦ ?_, hn⟩
    rw [hzero] at hnum
    exact h0 (List.cons.inj hnum).1.symm
  · rintro ⟨heq, hn0, hn⟩
    obtain ⟨c', cs', heq', h0, hdigit⟩ := natNumeral_eq_cons hn0
    obtain ⟨rfl, rfl⟩ := List.cons.inj (heq.trans heq')
    refine ⟨⟨hdigit c List.mem_cons_self, h0⟩, fun x hx ↦ hdigit x (List.mem_cons_of_mem c hx), ?_,
      hn⟩
    rw [heq, digitsValue_natNumeral]

private theorem lpParseUnsigned_eq_some_iff (negative : Bool) (p : List UInt8) (v : ℤ) :
    lpParseUnsigned negative p = some v ↔
      ∃ n, p = natNumeral n ∧ n ≠ 0 ∧ IsInt64 v ∧ v = if negative then -(n : ℤ) else n := by
  cases p with
  | nil =>
    refine iff_of_false (by simp [lpParseUnsigned]) ?_
    rintro ⟨n, heq, -⟩
    obtain ⟨c, cs, heq', -⟩ := natNumeral_ne_minus n
    simp [heq'] at heq
  | cons c cs =>
    rw [lpParseUnsigned]
    constructor
    · intro h
      have hc : 49 ≤ c ∧ c ≤ 57 := by
        by_contra hc
        simp [hc] at h
      rw [if_pos hc] at h
      obtain ⟨⟨n, rest⟩, hparse, hres⟩ := Option.bind_eq_some_iff.mp h
      obtain rfl : rest = [] := by
        by_contra hne
        simp [hne] at hres
      obtain ⟨heq, hn0, -⟩ := (parse_natNumeral_iff c cs).mp ⟨hc, hparse⟩
      refine ⟨n, heq, hn0, ?_⟩
      cases negative with
      | true =>
        simp only [ne_eq, not_true, if_false, if_true] at hres
        split_ifs at hres with hbig
        obtain rfl := Option.some.inj hres
        exact ⟨⟨by omega, by omega⟩, rfl⟩
      | false =>
        simp only [ne_eq, not_true, if_false, Bool.false_eq_true] at hres
        split_ifs at hres with hbig
        obtain rfl := Option.some.inj hres
        exact ⟨⟨by omega, by omega⟩, rfl⟩
    · rintro ⟨n, heq, hn0, ⟨hlo, hhi⟩, rfl⟩
      have hn : n ≤ 2 ^ 63 := by split_ifs at hlo hhi <;> omega
      obtain ⟨hc, hparse⟩ := (parse_natNumeral_iff c cs).mpr ⟨heq, hn0, by omega⟩
      rw [if_pos hc, hparse, Option.bind_some, if_neg (by simp)]
      cases negative with
      | true => rw [if_pos rfl, if_neg (by omega), if_pos rfl]
      | false =>
        rw [if_neg Bool.false_ne_true] at hhi
        rw [if_neg Bool.false_ne_true, if_neg (by omega), if_neg Bool.false_ne_true]

theorem length_numeral_le {v : ℤ} (h : IsInt64 v) : (numeral v).length ≤ 20 := by
  obtain ⟨hlo, hhi⟩ := h
  have hlen : (natNumeral v.natAbs).length ≤ 19 := length_natNumeral_le (by decide) (by omega)
  rw [numeral]
  split_ifs
  · rw [List.length_cons]
    omega
  · omega

theorem numeral_ne_nil (v : ℤ) : numeral v ≠ [] := by
  obtain ⟨d, ds, hnum, -⟩ := natNumeral_ne_minus v.natAbs
  rw [numeral, hnum]
  split_ifs <;> exact List.cons_ne_nil _ _

/-- What is common to `list_pack_string_to_int64` and `string2ll`: the numerals are recognized. -/
theorem lpParse_eq_some_iff (s : List UInt8) (v : ℤ) :
    (if s.length = 1 ∧ s.head? = some 48 then some 0
      else if s.head? = some 45 then lpParseUnsigned true s.tail
      else lpParseUnsigned false s) = some v ↔ IsInt64 v ∧ s = numeral v := by
  obtain ⟨d, ds, hnum, hd⟩ := natNumeral_ne_minus v.natAbs
  split_ifs with hzero hsign
  · obtain rfl : s = [48] := by
      obtain ⟨c, rfl⟩ := List.length_eq_one_iff.mp hzero.1
      simpa using hzero.2
    rw [Option.some.injEq]
    constructor
    · rintro rfl
      exact ⟨by decide, rfl⟩
    · rintro ⟨-, hv⟩
      rw [← value_numeral v, ← hv]
      rfl
  · obtain ⟨cs, rfl⟩ : ∃ cs, s = 45 :: cs := List.head?_eq_some_iff.mp hsign
    rw [lpParseUnsigned_eq_some_iff, List.tail_cons]
    constructor
    · rintro ⟨n, rfl, hn0, hv, rfl⟩
      refine ⟨hv, ?_⟩
      rw [if_pos rfl, numeral, if_pos (by omega), Int.natAbs_neg, Int.natAbs_natCast]
    · rintro ⟨hv, hs⟩
      have hneg : v < 0 := by
        by_contra hneg
        rw [numeral, if_neg hneg, hnum] at hs
        exact hd (List.cons.inj hs).1.symm
      rw [numeral, if_pos hneg] at hs
      exact ⟨v.natAbs, (List.cons.inj hs).2, by omega, hv, by rw [if_pos rfl]; omega⟩
  · rw [lpParseUnsigned_eq_some_iff]
    constructor
    · rintro ⟨n, rfl, hn0, hv, rfl⟩
      refine ⟨hv, ?_⟩
      rw [if_neg Bool.false_ne_true, numeral, if_neg (by omega), Int.natAbs_natCast]
    · rintro ⟨hv, rfl⟩
      have hneg : ¬v < 0 := by
        intro hneg
        rw [numeral, if_pos hneg] at hsign
        exact hsign rfl
      refine ⟨v.natAbs, by rw [numeral, if_neg hneg], ?_, hv, by
        rw [if_neg Bool.false_ne_true]; omega⟩
      intro h0
      obtain rfl : v = 0 := by omega
      exact hzero ⟨rfl, rfl⟩

/-- **The strings stored as integers** are the numerals of the 64-bit integers. -/
theorem listPackStringToInt64_eq_some_iff (s : List UInt8) (v : ℤ) :
    listPackStringToInt64 s = some v ↔ IsInt64 v ∧ s = numeral v := by
  rw [listPackStringToInt64]
  by_cases hlen : s.length = 0 ∨ 21 ≤ s.length
  · -- too short or too long for a numeral
    rw [if_pos hlen]
    refine iff_of_false (by simp) ?_
    rintro ⟨hv, rfl⟩
    have hle := length_numeral_le hv
    have hpos := List.length_pos_iff.mpr (numeral_ne_nil v)
    omega
  · rw [if_neg hlen]
    exact lpParse_eq_some_iff s v

/-- The element that a string stands for: the integer of which it is the numeral, if there is one. -/
def lpElementOfString (s : List UInt8) : LpElement :=
  if IsInt64 (value s) ∧ numeral (value s) = s then .int (value s) else .str s

theorem listPackStringToInt64_eq (s : List UInt8) : listPackStringToInt64 s =
    if IsInt64 (value s) ∧ numeral (value s) = s then some (value s) else none := by
  split_ifs with h
  · exact (listPackStringToInt64_eq_some_iff s _).mpr ⟨h.1, h.2.symm⟩
  · rw [Option.eq_none_iff_forall_ne_some]
    intro v hv
    obtain ⟨hint, rfl⟩ := (listPackStringToInt64_eq_some_iff s v).mp hv
    rw [value_numeral] at h
    exact h ⟨hint, rfl⟩

end LatteC
