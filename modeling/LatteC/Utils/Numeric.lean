import LatteC.Foundation.Block
import LatteC.Listpack.Number

/-!
# Numbers and their numerals

`string2ll`, `ll2string` and `ull2string` of `src/utils/utils.c`, with `ll2sds`, `ull2sds` and
`sds2ll`. They convert between the 64-bit integers and their decimal numerals, and nothing else is
accepted as a number.

## Modelling

`ll2string` knows where to start from `digits10` and then fills its buffer backwards, two digits at a
time. What has been filled at some moment ends at the length that was computed; the model stores it
there in one go.
-/

namespace LatteC

open Decimal

/-- `digits10`. -/
def digits10 (v : ℕ) : ℕ :=
  if v < 10 then 1
  else if v < 100 then 2
  else if v < 1000 then 3
  else if v < 1000000000000 then
    if v < 100000000 then
      if v < 1000000 then
        if v < 10000 then 4 else 5 + if 100000 ≤ v then 1 else 0
      else 7 + if 10000000 ≤ v then 1 else 0
    else if v < 10000000000 then 9 + if 1000000000 ≤ v then 1 else 0
    else 11 + if 100000000000 ≤ v then 1 else 0
  else 12 + digits10 (v / 1000000000000)
termination_by v
decreasing_by omega

/-- The two characters of the table `digits` for a number below `100`. -/
def digitPair (i : ℕ) : List UInt8 := [digitChar (i / 10), digitChar (i % 10)]

/-- The loop of `ll2string`, with the last one or two digits: what stands at the end of the buffer. -/
def ll2stringLoop (value : ℕ) (filled : List UInt8) : List UInt8 :=
  if 100 ≤ value then ll2stringLoop (value / 100) (digitPair (value % 100) ++ filled)
  else if value < 10 then digitChar value :: filled
  else digitPair value ++ filled
termination_by value
decreasing_by omega

/-- `ll2string`: the buffer and the length, which is `0` when the buffer is too small. -/
def ll2string (dst : List UInt8) (dstlen : ℕ) (svalue : ℤ) : Option (List UInt8 × ℕ) :=
  let value := svalue.natAbs
  let negative := if svalue < 0 then 1 else 0
  let length := digits10 value + negative
  if dstlen ≤ length then some (dst, 0)
  else
    let filled := ll2stringLoop value []
    (Block.write dst (length - filled.length) (filled ++ [0])).map fun dst ↦
      (if svalue < 0 then dst.set 0 45 else dst, length)

/-- `MAX_ULL_CHARS`. -/
def maxUllChars : ℕ := 21

/-- The bytes of a string that `sds_new_len` returns, with the NUL behind them. -/
def newUllChars : List UInt8 := List.replicate (maxUllChars + 1) 0

/-- `ll2sds`. -/
def ll2sds (ll : ℤ) : Option (List UInt8) :=
  (ll2string newUllChars maxUllChars ll).map fun (buffer, len) ↦ buffer.take len

/-- The first loop of `ull2string`: the digits, the last one first. -/
def ull2stringLoop (v : ℕ) : List UInt8 :=
  digitChar (v % 10) :: if v / 10 = 0 then [] else ull2stringLoop (v / 10)
termination_by v
decreasing_by omega

/-- `ull2string`: the buffer and the length. -/
def ull2string (s : List UInt8) (len v : ℕ) : Option (List UInt8 × ℕ) :=
  let digits := ull2stringLoop v
  let l := digits.length
  -- the digits are stored before the length is checked
  if len < l then (Block.write s 0 digits).map fun s ↦ (s, 0)
  else (Block.write s 0 (digits.reverse ++ [0])).map fun s ↦ (s, l)

/-- `ull2sds`. -/
def ull2sds (ull : ℕ) : Option (List UInt8) :=
  (ull2string newUllChars maxUllChars ull).map fun (buffer, len) ↦ buffer.take len

/-- `string2ll`. -/
def string2ll (s : List UInt8) : Option ℤ :=
  if s.length = 0 then none
  else if s.length = 1 ∧ s.head? = some 48 then some 0
  else if s.head? = some 45 then lpParseUnsigned true s.tail
  else lpParseUnsigned false s

/-- `sds2ll`. -/
def sds2ll (value : List UInt8) : Option ℤ := string2ll value

/-! ## Writing numerals -/

theorem digits10_eq (v : ℕ) : digits10 v = (natNumeral v).length := by
  induction v using Nat.strongRecOn with
  | ind v ih =>
    have hsmall : ∀ k, 10 ^ k ≤ v → v < 10 ^ (k + 1) → k + 1 = (natNumeral v).length :=
      fun k hlo hhi ↦ (length_natNumeral_eq hlo hhi).symm
    rw [digits10]
    by_cases hbig : v < 1000000000000
    · split_ifs with h1
      · rw [natNumeral_of_lt h1]
        rfl
      · exact hsmall 1 (by omega) (by omega)
      · exact hsmall 2 (by omega) (by omega)
      · exact hsmall 3 (by omega) (by omega)
      · exact hsmall 5 (by omega) (by omega)
      · exact hsmall 4 (by omega) (by omega)
      · exact hsmall 7 (by omega) (by omega)
      · exact hsmall 6 (by omega) (by omega)
      · exact hsmall 9 (by omega) (by omega)
      · exact hsmall 8 (by omega) (by omega)
      · exact hsmall 11 (by omega) (by omega)
      · exact hsmall 10 (by omega) (by omega)
    · have hlo : 10 ^ 12 ≤ v := by omega
      rw [if_neg (by omega), if_neg (by omega), if_neg (by omega), if_neg hbig, ih _ (by omega),
        length_natNumeral_div_pow hlo]
      rfl

/-- The last two digits of a number. -/
theorem natNumeral_eq_digitPair {value : ℕ} (h : 100 ≤ value) :
    natNumeral value = natNumeral (value / 100) ++ digitPair (value % 100) := by
  have htens : value % 100 / 10 = value / 10 % 10 := by omega
  have hones : value % 100 % 10 = value % 10 := by omega
  rw [natNumeral_of_le (by omega), natNumeral_of_le (n := value / 10) (by omega),
    Nat.div_div_eq_div_mul, List.append_assoc, digitPair, htens, hones, List.singleton_append]

theorem ll2stringLoop_eq (value : ℕ) (filled : List UInt8) :
    ll2stringLoop value filled = natNumeral value ++ filled := by
  induction value using Nat.strongRecOn generalizing filled with
  | ind value ih =>
    rw [ll2stringLoop]
    split_ifs with hbig hsmall
    · rw [ih _ (by omega), natNumeral_eq_digitPair hbig, List.append_assoc]
    · rw [natNumeral_of_lt hsmall, List.singleton_append]
    · rw [natNumeral_of_le (by omega), natNumeral_of_lt (by omega), digitPair]
      rfl

theorem ull2stringLoop_eq (v : ℕ) : ull2stringLoop v = (natNumeral v).reverse := by
  induction v using Nat.strongRecOn with
  | ind v ih =>
    rw [ull2stringLoop]
    split_ifs with hsmall
    · rw [natNumeral_of_lt (by omega), Nat.mod_eq_of_lt (by omega), List.reverse_singleton]
    · rw [ih _ (by omega), natNumeral_of_le (n := v) (by omega), List.reverse_append,
        List.reverse_singleton, List.singleton_append]

/-- What stands in a buffer in front of the NUL of a numeral that is stored at `off`. -/
private theorem take_numeral (dst xs : List UInt8) (off : ℕ)
    (h : off + xs.length < dst.length) :
    ∃ dst', Block.write dst off (xs ++ [0]) = some dst' ∧
      dst'.take (off + xs.length) = dst.take off ++ xs := by
  have hfit : off + (xs ++ [0]).length ≤ dst.length := by
    rw [List.length_append, List.length_singleton]
    omega
  obtain ⟨dst', hwrite, -, htake⟩ := Block.write_of_le hfit
  refine ⟨dst', hwrite, ?_⟩
  have hsplit : dst'.take (off + xs.length) =
      (dst'.take (off + (xs ++ [0]).length)).take (off + xs.length) := by
    rw [List.take_take, List.length_append, List.length_singleton, Nat.min_eq_left (by omega)]
  rw [hsplit, htake, ← List.append_assoc]
  refine List.take_left' ?_
  rw [List.length_append, List.length_take]
  omega

/-- `ll2string` leaves the numeral in a buffer that has room for every numeral. -/
theorem ll2string_eq (dst : List UInt8) {dstlen : ℕ} {v : ℤ} (h : IsInt64 v) (hlen : 21 ≤ dstlen)
    (hdst : dstlen ≤ dst.length) : ∃ buffer,
      ll2string dst dstlen v = some (buffer, (numeral v).length) ∧
        buffer.take (numeral v).length = numeral v := by
  have hle := length_numeral_le h
  rw [numeral] at hle ⊢
  rw [ll2string, digits10_eq, ll2stringLoop_eq, List.append_nil]
  by_cases hneg : v < 0
  · rw [if_pos hneg, List.length_cons] at hle
    obtain ⟨buffer, hwrite, htake⟩ := take_numeral dst (natNumeral v.natAbs) 1 (by omega)
    obtain ⟨c, cs, rfl⟩ := List.exists_cons_of_length_pos (l := dst) (by omega)
    simp only [if_pos hneg]
    refine ⟨buffer.set 0 45, ?_, ?_⟩
    · rw [if_neg (by omega), Nat.add_sub_cancel_left, hwrite, Option.map_some, List.length_cons]
    · rw [List.take_set, List.length_cons, Nat.add_comm, htake]
      rfl
  · rw [if_neg hneg] at hle
    obtain ⟨buffer, hwrite, htake⟩ := take_numeral dst (natNumeral v.natAbs) 0 (by omega)
    rw [Nat.zero_add] at htake
    simp only [if_neg hneg]
    refine ⟨buffer, ?_, htake⟩
    rw [if_neg (by omega), Nat.add_zero, Nat.sub_self, hwrite, Option.map_some]

theorem length_newUllChars : newUllChars.length = maxUllChars + 1 := List.length_replicate

/-- `ll2sds` returns the numeral. -/
theorem ll2sds_eq {v : ℤ} (h : IsInt64 v) : ll2sds v = some (numeral v) := by
  obtain ⟨buffer, hbuffer, htake⟩ := ll2string_eq newUllChars h (le_refl maxUllChars)
    (length_newUllChars.symm ▸ Nat.le_succ _)
  rw [ll2sds, hbuffer, Option.map_some]
  exact congrArg some htake

/-- `ull2sds` returns the numeral. -/
theorem ull2sds_eq {v : ℕ} (h : v < 2 ^ 64) : ull2sds v = some (natNumeral v) := by
  have hlen : (natNumeral v).length ≤ 20 := length_natNumeral_le (by decide) (by omega)
  obtain ⟨dst, hwrite, htake⟩ := take_numeral newUllChars (natNumeral v) 0
    (by rw [length_newUllChars, maxUllChars]; omega)
  rw [Nat.zero_add] at htake
  rw [ull2sds, ull2string, ull2stringLoop_eq, List.length_reverse, List.reverse_reverse]
  simp only
  rw [if_neg (by rw [maxUllChars]; omega), hwrite, Option.map_some, Option.map_some]
  exact congrArg some htake

/-! ## Reading numerals -/

/-- `string2ll` accepts the numerals of the 64-bit integers. -/
theorem string2ll_eq_some_iff (s : List UInt8) (v : ℤ) :
    string2ll s = some v ↔ IsInt64 v ∧ s = numeral v := by
  rw [string2ll]
  by_cases hlen : s.length = 0
  · rw [if_pos hlen]
    refine iff_of_false (by simp) ?_
    rintro ⟨-, rfl⟩
    exact numeral_ne_nil v (List.length_eq_zero_iff.mp hlen)
  · rw [if_neg hlen]
    exact lpParse_eq_some_iff s v

theorem sds2ll_numeral {v : ℤ} (h : IsInt64 v) : sds2ll (numeral v) = some v :=
  (string2ll_eq_some_iff _ v).mpr ⟨h, rfl⟩

end LatteC
