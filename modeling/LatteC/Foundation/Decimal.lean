import Mathlib.Data.Nat.Digits.Lemmas

/-!
# Decimal numerals

The numeral of an integer as it is written without padding: no leading zeros, no plus sign, and a
minus sign in front of the negative ones. Characters are ASCII bytes.
-/

namespace Decimal

/-- The character of a digit. -/
def digitChar (d : ℕ) : UInt8 := UInt8.ofNat (48 + d)

/-- The digit of a character. -/
def charDigit (c : UInt8) : ℕ := c.toNat - 48

/-- `0` to `9`. -/
def IsDigit (c : UInt8) : Prop := 48 ≤ c ∧ c ≤ 57

instance (c : UInt8) : Decidable (IsDigit c) := inferInstanceAs (Decidable (_ ∧ _))

/-- The numeral of a natural number. -/
def natNumeral (n : ℕ) : List UInt8 :=
  if n = 0 then [48] else (Nat.digits 10 n).reverse.map digitChar

theorem natNumeral_zero : natNumeral 0 = [48] := rfl

theorem natNumeral_of_ne_zero {n : ℕ} (hn : n ≠ 0) :
    natNumeral n = (Nat.digits 10 n).reverse.map digitChar := if_neg hn

/-- The numeral of an integer. -/
def numeral (v : ℤ) : List UInt8 :=
  if v < 0 then 45 :: natNumeral v.natAbs else natNumeral v.natAbs

/-- The number that a string of digits denotes. -/
def digitsValue (cs : List UInt8) : ℕ := cs.foldl (fun n c ↦ 10 * n + charDigit c) 0

/-- The number that a string of digits with an optional minus sign denotes. -/
def value : List UInt8 → ℤ
  | [] => 0
  | c :: cs => if c = 45 then -digitsValue cs else digitsValue (c :: cs)

theorem isDigit_iff (c : UInt8) : IsDigit c ↔ 48 ≤ c.toNat ∧ c.toNat ≤ 57 := by
  rw [IsDigit, UInt8.le_iff_toNat_le, UInt8.le_iff_toNat_le]
  rfl

theorem charDigit_lt {c : UInt8} (h : IsDigit c) : charDigit c < 10 := by
  rw [isDigit_iff] at h
  rw [charDigit]
  omega

theorem digitChar_charDigit {c : UInt8} (h : IsDigit c) : digitChar (charDigit c) = c := by
  rw [isDigit_iff] at h
  rw [digitChar, charDigit, Nat.add_sub_cancel' h.1, UInt8.ofNat_toNat]

theorem digitChar_toNat {d : ℕ} (h : d < 10) : (digitChar d).toNat = 48 + d := by
  rw [digitChar, UInt8.toNat_ofNat']
  omega

theorem charDigit_digitChar {d : ℕ} (h : d < 10) : charDigit (digitChar d) = d := by
  rw [charDigit, digitChar_toNat h]
  omega

theorem isDigit_digitChar {d : ℕ} (h : d < 10) : IsDigit (digitChar d) := by
  rw [isDigit_iff, digitChar_toNat h]
  omega

/-! ## Strings of digits -/

theorem digitsValue_append (cs : List UInt8) (c : UInt8) :
    digitsValue (cs ++ [c]) = 10 * digitsValue cs + charDigit c := by
  rw [digitsValue, List.foldl_append]
  rfl

theorem digitsValue_eq_ofDigits (cs : List UInt8) :
    digitsValue cs = Nat.ofDigits 10 (cs.reverse.map charDigit) := by
  induction cs using List.reverseRecOn with
  | nil => rfl
  | append_singleton cs c ih =>
    rw [digitsValue_append, ih, List.reverse_append, List.reverse_singleton, List.singleton_append,
      List.map_cons, Nat.ofDigits_cons, Nat.add_comm]

/-- Reading on from a number that has been read already. -/
theorem digitsValue_cons (c : UInt8) (cs : List UInt8) :
    digitsValue (c :: cs) = charDigit c * 10 ^ cs.length + digitsValue cs := by
  induction cs using List.reverseRecOn with
  | nil => simp [digitsValue]
  | append_singleton cs d ih =>
    rw [← List.cons_append, digitsValue_append, ih, digitsValue_append, List.length_append,
      List.length_singleton, pow_succ]
    ring

theorem digitsValue_natNumeral (n : ℕ) : digitsValue (natNumeral n) = n := by
  by_cases h : n = 0
  · rw [h]
    rfl
  · rw [natNumeral_of_ne_zero h]
    have hmap : ((Nat.digits 10 n).map digitChar).map charDigit = Nat.digits 10 n := by
      rw [List.map_map]
      refine (List.map_congr_left fun d hd ↦ ?_).trans (List.map_id _)
      exact charDigit_digitChar (Nat.digits_lt_base (by decide) hd)
    rw [digitsValue_eq_ofDigits, ← List.map_reverse, List.reverse_reverse, hmap, Nat.ofDigits_digits]

/-- A string of digits that does not start with a zero is a numeral. -/
theorem natNumeral_digitsValue {c : UInt8} {cs : List UInt8} (hc : c ≠ 48)
    (h : ∀ x ∈ c :: cs, IsDigit x) : natNumeral (digitsValue (c :: cs)) = c :: cs := by
  have hdigit : charDigit c ≠ 0 := by
    have hc' := (isDigit_iff c).mp (h c List.mem_cons_self)
    intro h0
    rw [charDigit] at h0
    exact hc (UInt8.toNat_inj.mp (by omega : c.toNat = 48))
  have hdigits : Nat.digits 10 (digitsValue (c :: cs)) = (c :: cs).reverse.map charDigit := by
    rw [digitsValue_eq_ofDigits]
    refine Nat.digits_ofDigits 10 (by decide) _ ?_ ?_
    · intro d hd
      obtain ⟨x, hx, rfl⟩ := List.mem_map.mp hd
      exact charDigit_lt (h x (List.mem_reverse.mp hx))
    · intro hne
      simpa using hdigit
  have hpos : digitsValue (c :: cs) ≠ 0 := by
    intro h0
    rw [h0] at hdigits
    simp at hdigits
  rw [natNumeral_of_ne_zero hpos, hdigits, ← List.map_reverse, List.reverse_reverse, List.map_map]
  refine (List.map_congr_left fun x hx ↦ ?_).trans (List.map_id _)
  exact digitChar_charDigit (h x hx)

/-- The numeral of a positive number does not start with a zero. -/
theorem natNumeral_eq_cons {n : ℕ} (hn : n ≠ 0) :
    ∃ c cs, natNumeral n = c :: cs ∧ c ≠ 48 ∧ ∀ x ∈ c :: cs, IsDigit x := by
  have hlt : ∀ d ∈ (Nat.digits 10 n).reverse, d < 10 := fun d hd ↦
    Nat.digits_lt_base (by decide) (List.mem_reverse.mp hd)
  rw [natNumeral_of_ne_zero hn]
  cases hds : (Nat.digits 10 n).reverse with
  | nil => exact absurd (List.reverse_eq_nil_iff.mp hds) (Nat.digits_ne_nil_iff_ne_zero.mpr hn)
  | cons d ds =>
    have hdigits : Nat.digits 10 n = ds.reverse ++ [d] := by
      rw [← List.reverse_cons, ← hds, List.reverse_reverse]
    have hd : d ≠ 0 := by
      have := Nat.getLast_digit_ne_zero 10 hn
      simpa [hdigits] using this
    rw [hds] at hlt
    refine ⟨digitChar d, ds.map digitChar, List.map_cons, ?_, ?_⟩
    · intro h0
      have := digitChar_toNat (hlt d List.mem_cons_self)
      rw [h0] at this
      have h48 : (48 : UInt8).toNat = 48 := rfl
      omega
    · rw [← List.map_cons]
      intro x hx
      obtain ⟨e, he, rfl⟩ := List.mem_map.mp hx
      exact isDigit_digitChar (hlt e he)

theorem natNumeral_of_lt {n : ℕ} (h : n < 10) : natNumeral n = [digitChar n] := by
  by_cases hzero : n = 0
  · rw [hzero]
    rfl
  · rw [natNumeral_of_ne_zero hzero, Nat.digits_of_lt 10 n hzero h]
    rfl

/-- The last digit of a numeral. -/
theorem natNumeral_of_le {n : ℕ} (h : 10 ≤ n) :
    natNumeral n = natNumeral (n / 10) ++ [digitChar (n % 10)] := by
  have hdigits : Nat.digits 10 n = n % 10 :: Nat.digits 10 (n / 10) :=
    Nat.digits_def' (by decide) (by omega)
  rw [natNumeral_of_ne_zero (by omega), natNumeral_of_ne_zero (by omega), hdigits,
    List.reverse_cons, List.map_append, List.map_singleton]

/-- Dividing by `10 ^ k` takes the last `k` digits off. -/
theorem length_natNumeral_div_pow {n k : ℕ} (h : 10 ^ k ≤ n) :
    (natNumeral n).length = k + (natNumeral (n / 10 ^ k)).length := by
  induction k with
  | zero => rw [pow_zero, Nat.div_one, Nat.zero_add]
  | succ k ih =>
    rw [pow_succ] at h
    have hpos : 0 < 10 ^ k := Nat.pow_pos (by decide)
    have hten : 10 ≤ n / 10 ^ k := (Nat.le_div_iff_mul_le hpos).mpr (by omega)
    rw [ih (by omega), natNumeral_of_le hten, List.length_append, List.length_singleton,
      Nat.div_div_eq_div_mul, ← pow_succ]
    omega

/-- The number of digits. -/
theorem length_natNumeral_eq {n k : ℕ} (hlo : 10 ^ k ≤ n) (hhi : n < 10 ^ (k + 1)) :
    (natNumeral n).length = k + 1 := by
  have hlt : n / 10 ^ k < 10 := Nat.div_lt_of_lt_mul (by rwa [pow_succ] at hhi)
  rw [length_natNumeral_div_pow hlo, natNumeral_of_lt hlt, List.length_singleton]

theorem isDigit_of_mem_natNumeral {n : ℕ} {c : UInt8} (hc : c ∈ natNumeral n) : IsDigit c := by
  by_cases hn : n = 0
  · rw [hn, natNumeral_zero, List.mem_singleton] at hc
    rw [hc]
    decide
  · obtain ⟨d, ds, heq, -, hdigit⟩ := natNumeral_eq_cons hn
    exact hdigit c (heq ▸ hc)

theorem length_natNumeral_le {n k : ℕ} (hk : 0 < k) (h : n < 10 ^ k) :
    (natNumeral n).length ≤ k := by
  by_cases hzero : n = 0
  · rw [hzero]
    exact hk
  · rw [natNumeral_of_ne_zero hzero, List.length_map, List.length_reverse]
    exact (Nat.digits_length_le_iff (by decide) n).mpr h

/-! ## Integers -/

theorem not_isDigit_minus : ¬IsDigit 45 := by decide

theorem natNumeral_ne_minus (n : ℕ) : ∃ c cs, natNumeral n = c :: cs ∧ c ≠ 45 := by
  by_cases hn : n = 0
  · exact ⟨48, [], by rw [hn]; rfl, by decide⟩
  · obtain ⟨c, cs, heq, -, hdigit⟩ := natNumeral_eq_cons hn
    refine ⟨c, cs, heq, ?_⟩
    rintro rfl
    exact not_isDigit_minus (hdigit 45 List.mem_cons_self)

theorem value_numeral (v : ℤ) : value (numeral v) = v := by
  rw [numeral]
  split_ifs with hneg
  · rw [value, if_pos rfl, digitsValue_natNumeral]
    omega
  · obtain ⟨c, cs, heq, hc⟩ := natNumeral_ne_minus v.natAbs
    have hval := digitsValue_natNumeral v.natAbs
    rw [heq] at hval ⊢
    rw [value, if_neg hc, hval]
    omega

end Decimal
