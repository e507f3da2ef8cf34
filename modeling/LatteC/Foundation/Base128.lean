import LatteC.Foundation.Bits

/-!
# Numbers in base 128

A number as bytes of seven bits each, the lowest first. Every byte but the last has its eighth bit set, so the
end of a number shows in the bytes themselves: no encoding is a proper prefix of another one.
-/

namespace Base128

/-- The bytes of a number. -/
def encode (v : ℕ) : List UInt8 :=
  if v < 128 then [UInt8.ofNat v] else UInt8.ofNat (v % 128 + 128) :: encode (v / 128)

theorem encode_of_lt {v : ℕ} (h : v < 128) : encode v = [UInt8.ofNat v] := by
  rw [encode, if_pos h]

theorem encode_of_le {v : ℕ} (h : 128 ≤ v) :
    encode v = UInt8.ofNat (v % 128 + 128) :: encode (v / 128) := by
  rw [encode, if_neg (Nat.not_lt.mpr h)]

theorem encode_ne_nil (v : ℕ) : encode v ≠ [] := by
  rw [encode]
  split_ifs
  · exact List.cons_ne_nil _ _
  · exact List.cons_ne_nil _ _

theorem length_encode_le {v k : ℕ} (h : v < 2 ^ (7 * (k + 1))) : (encode v).length ≤ k + 1 := by
  induction k generalizing v with
  | zero =>
    rw [encode_of_lt h]
    rfl
  | succ k ih =>
    by_cases hlt : v < 128
    · rw [encode_of_lt hlt, List.length_singleton]
      omega
    · rw [encode_of_le (Nat.not_lt.mp hlt), List.length_cons]
      have hdiv : v / 128 < 2 ^ (7 * (k + 1)) := by
        refine Nat.div_lt_of_lt_mul ?_
        calc v < 2 ^ (7 * (k + 1 + 1)) := h
          _ = 2 ^ (7 + 7 * (k + 1)) := by rw [Nat.mul_add_one 7 (k + 1), Nat.add_comm]
          _ = 128 * 2 ^ (7 * (k + 1)) := pow_add 2 7 _
      exact Nat.succ_le_succ (ih hdiv)

/-- A byte after which the number goes on. -/
def Continues (b : UInt8) : Prop := b &&& 128 ≠ 0

instance (b : UInt8) : Decidable (Continues b) := inferInstanceAs (Decidable (_ ≠ _))

theorem not_continues_ofNat : ∀ x < 128, ¬Continues (UInt8.ofNat x) := by decide

theorem continues_ofNat : ∀ x < 128, Continues (UInt8.ofNat (x + 128)) := by decide

theorem payload_ofNat : ∀ x < 128, (UInt8.ofNat (x + 128) &&& 127).toNat = x := by decide

theorem continues_iff (b : UInt8) : Continues b ↔ 128 ≤ b.toNat := by
  have hlt := b.toNat_lt
  rcases Nat.lt_or_ge b.toNat 128 with h | h
  · have hnot := not_continues_ofNat b.toNat h
    rw [UInt8.ofNat_toNat] at hnot
    exact iff_of_false hnot (Nat.not_le.mpr h)
  · have hyes := continues_ofNat (b.toNat - 128) (by omega)
    rw [Nat.sub_add_cancel h, UInt8.ofNat_toNat] at hyes
    exact iff_of_true hyes h

theorem payload_lt (b : UInt8) : (b &&& 127).toNat < 2 ^ 7 := by
  rw [UInt8.toNat_and]
  exact Nat.and_lt_two_pow b.toNat (by decide)

/-- **A number that is cut off goes on.** -/
theorem continues_of_isPrefix {v : ℕ} {p : List UInt8} (hp : p <+: encode v) (hne : p ≠ encode v) :
    ∀ b ∈ p, Continues b := by
  induction p generalizing v with
  | nil => exact fun b hb ↦ absurd hb List.not_mem_nil
  | cons c p ih =>
    by_cases hlt : v < 128
    · rw [encode_of_lt hlt] at hp hne
      have hle := hp.length_le
      rw [List.length_cons, List.length_singleton] at hle
      exact absurd (hp.eq_of_length (by rw [List.length_cons, List.length_singleton]; omega)) hne
    · rw [encode_of_le (Nat.not_lt.mp hlt)] at hp hne
      obtain ⟨rfl, hp'⟩ := List.cons_prefix_cons.mp hp
      rw [List.forall_mem_cons]
      exact ⟨continues_ofNat _ (Nat.mod_lt v (by decide)), ih hp' fun heq ↦ hne (by rw [heq])⟩

end Base128
