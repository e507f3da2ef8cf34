import LatteC.Utils.Numeric

/-!
# Numerals, byte by byte

`ll2string` and `string2ll` of `src/utils/utils.c` once more, now with every single access to the buffers and
with the 32 and 64 bits of their variables.

`ll2string` knows from `digits10` where the numeral is going to end. It fills the buffer from there backwards,
two digits at a time out of a table, and `next` is a `uint32_t`, so it may not pass below the first digit.
`string2ll` multiplies and adds in 64 bits, and whether that overflows is checked beforehand.

## Modelling

A result `none` stands for an access outside of a buffer or a sum out of range. That `string2ll` returns `0` is
an inner `none`. What is read and stored is then compared with the numerals as a whole.
-/

namespace LatteC

open Decimal

/-- `sdigits10`. -/
def sdigits10 (v : ℤ) : ℕ :=
  if v < 0 then
    let uv := if v ≠ -2 ^ 63 then (-v).toNat else 2 ^ 63 - 1 + 1
    digits10 uv + 1
  else digits10 v.toNat

namespace InPlace

/-! ## Writing -/

/-- The lines of the table `digits`. -/
def digitRows : List String :=
  ["0001020304050607080910111213141516171819",
    "2021222324252627282930313233343536373839",
    "4041424344454647484950515253545556575859",
    "6061626364656667686970717273747576777879",
    "8081828384858687888990919293949596979899"]

/-- The table `digits`, with its NUL. -/
def digits : List UInt8 := digitRows.flatMap (fun row ↦ row.toUTF8.data.toList) ++ [0]

/-- A difference of two `uint32_t`. -/
def sub32 (a b : ℕ) : ℕ := (a + (2 ^ 32 - b)) % 2 ^ 32

/-- Two digits of the table, at `next` and in front of it. -/
def storePair (dst : List UInt8) (next i : ℕ) : Option (List UInt8) := do
  let dst ← Block.write dst next [← digits[i + 1]?]
  Block.write dst (sub32 next 1) [← digits[i]?]

/-- The loop of `ll2string`, with the last one or two digits. -/
def storeDigits (dst : List UInt8) (next value : ℕ) : Option (List UInt8) :=
  if 100 ≤ value then
    (storePair dst next (value % 100 * 2)).bind fun dst ↦ storeDigits dst (sub32 next 2) (value / 100)
  else if value < 10 then Block.write dst next [UInt8.ofNat (48 + value)]
  else storePair dst next (value * 2)
termination_by value
decreasing_by omega

/-- `ll2string`: the buffer and the length. -/
def ll2string (dst : List UInt8) (dstlen : ℕ) (svalue : ℤ) : Option (List UInt8 × ℕ) := do
  let value :=
    if svalue < 0 then
      if svalue ≠ -2 ^ 63 then (-svalue).toNat else 2 ^ 63 - 1 + 1
    else svalue.toNat
  let negative := if svalue < 0 then 1 else 0
  let length := (digits10 value + negative) % 2 ^ 32
  if dstlen ≤ length then some (dst, 0)
  else
    let dst ← Block.write dst length [0]
    let dst ← storeDigits dst (sub32 length 1) value
    if svalue < 0 then some (← Block.write dst 0 [45], length)
    else some (dst, length)

theorem sub32_eq {a b : ℕ} (h : b ≤ a) (ha : a < 2 ^ 32) : sub32 a b = a - b := by
  rw [sub32]
  omega

/-- The table holds two digits for each number below 100. -/
theorem digits_eq : digits = (List.range 100).flatMap digitPair ++ [0] := by
  decide +kernel

theorem getElem?_digits {r : ℕ} (hr : r < 100) :
    digits[r * 2]? = some (digitChar (r / 10)) ∧ digits[r * 2 + 1]? = some (digitChar (r % 10)) := by
  have hrecord := @Block.read_flatMap_records _ _ digitPair 2 (fun _ ↦ rfl)
    _ _ _ (List.getElem?_range hr) [0]
  rw [← digits_eq] at hrecord
  exact ⟨Block.getElem?_of_read hrecord (i := 0) (by decide), Block.getElem?_of_read hrecord (i := 1) (by decide)⟩

theorem storePair_append (A : List UInt8) (x y : UInt8) (C : List UInt8) {r : ℕ} (hr : r < 100)
    (hA : A.length + 1 < 2 ^ 32) :
    storePair (A ++ [x, y] ++ C) (A.length + 1) (r * 2) = some (A ++ digitPair r ++ C) := by
  obtain ⟨hlow, hhigh⟩ := getElem?_digits hr
  have hones : Block.write (A ++ [x, y] ++ C) (A.length + 1) [digitChar (r % 10)] =
      some (A ++ [x] ++ ([digitChar (r % 10)] ++ C)) := by
    have hwrite := Block.write_append (A ++ [x]) C (show [digitChar (r % 10)].length = [y].length from rfl)
    rw [List.length_append, List.length_singleton] at hwrite
    simpa using hwrite
  have htens := Block.write_append A ([digitChar (r % 10)] ++ C)
    (show [digitChar (r / 10)].length = [x].length from rfl)
  have hsub : sub32 (A.length + 1) 1 = A.length := sub32_eq (Nat.le_add_left 1 _) hA
  simp only [storePair, hlow, hhigh, hones, hsub, htens, bind, Option.bind_some, digitPair]
  simp

/-- A gap for two cells more. -/
theorem exists_append_pair {X : List UInt8} {n : ℕ} (h : X.length = n + 2) :
    ∃ X' x y, X = X' ++ [x, y] ∧ X'.length = n := by
  obtain ⟨X₁, y, rfl⟩ := List.eq_nil_or_concat' X |>.resolve_left (by rintro rfl; cases h)
  rw [List.length_append, List.length_singleton] at h
  obtain ⟨X', x, rfl⟩ := List.eq_nil_or_concat' X₁ |>.resolve_left (by rintro rfl; cases h)
  rw [List.length_append, List.length_singleton] at h
  exact ⟨X', x, y, by simp, by omega⟩

/-- **Storing the digits** of a number where there is a gap for exactly these. -/
theorem storeDigits_append (value : ℕ) (P X S : List UInt8) (hX : X.length = (natNumeral value).length)
    (hlt : P.length + X.length < 2 ^ 32) :
    storeDigits (P ++ X ++ S) (P.length + X.length - 1) value = some (P ++ natNumeral value ++ S) := by
  induction value using Nat.strongRecOn generalizing X S with
  | ind value ih =>
    rw [storeDigits]
    split_ifs with hbig hsmall
    · have hnumeral := natNumeral_eq_digitPair hbig
      obtain ⟨X', x, y, rfl, hX'⟩ := exists_append_pair
        (show X.length = (natNumeral (value / 100)).length + 2 by rw [hX, hnumeral, List.length_append]; rfl)
      have hpos : 0 < X'.length := by
        obtain ⟨c, cs, hcons, -⟩ := natNumeral_ne_minus (value / 100)
        rw [hX', hcons]
        exact Nat.succ_pos _
      have hlength : (X' ++ [x, y]).length = X'.length + 2 := by rw [List.length_append]; rfl
      rw [hlength] at hlt ⊢
      have hpair := storePair_append (P ++ X') x y S (Nat.mod_lt value (by decide : 0 < 100))
        (by rw [List.length_append]; omega)
      have hnext : P.length + (X'.length + 2) - 1 = (P ++ X').length + 1 := by
        rw [List.length_append]
        omega
      have hrest := ih (value / 100) (by omega) X' (digitPair (value % 100) ++ S) hX' (by omega)
      have hsub : sub32 ((P ++ X').length + 1) 2 = P.length + X'.length - 1 := by
        rw [List.length_append, sub32_eq (by omega) (by omega)]
        omega
      rw [hnext, ← List.append_assoc, hpair, Option.bind_some, hsub, List.append_assoc, hrest, hnumeral]
      simp
    · rw [natNumeral_of_lt hsmall] at hX ⊢
      obtain ⟨x, rfl⟩ := List.length_eq_one_iff.mp hX
      exact Block.write_append P S rfl
    · have hnumeral : natNumeral value = digitPair value := by
        rw [natNumeral_of_le (by omega), natNumeral_of_lt (by omega)]
        rfl
      rw [hnumeral] at hX ⊢
      obtain ⟨X', x, y, rfl, hX'⟩ := exists_append_pair hX
      obtain rfl := List.length_eq_zero_iff.mp hX'
      have hgap : ([] ++ [x, y]).length = 2 := rfl
      rw [hgap] at hlt
      exact storePair_append P x y S (by omega) (by omega)

theorem magnitude_eq {v : ℤ} (h : IsInt64 v) :
    (if v < 0 then if v ≠ -2 ^ 63 then (-v).toNat else 2 ^ 63 - 1 + 1 else v.toNat) = v.natAbs := by
  have := h.1
  split_ifs <;> omega

/-- **The length** is computed in advance. -/
theorem sdigits10_eq {v : ℤ} (h : IsInt64 v) : sdigits10 v = (numeral v).length := by
  have hmagnitude := magnitude_eq h
  rw [sdigits10, numeral]
  split_ifs at hmagnitude ⊢ with hneg hmin
  · simp only [hmagnitude, digits10_eq, List.length_cons]
  · simp only [hmagnitude, digits10_eq, List.length_cons]
  · rw [hmagnitude, digits10_eq]

/-- **Writing.** The numeral and a NUL go to the beginning of the buffer, and nothing else is touched. -/
theorem ll2string_eq {v : ℤ} (h : IsInt64 v) {dst : List UInt8} {dstlen : ℕ} (hlen : sdigits10 v < dstlen)
    (hdst : sdigits10 v + 1 ≤ dst.length) :
    ll2string dst dstlen v = some (numeral v ++ 0 :: dst.drop (sdigits10 v + 1), sdigits10 v) := by
  have hle := length_numeral_le h
  have hsdigits := sdigits10_eq h
  rw [hsdigits] at hdst hlen ⊢
  -- the bytes that are written over
  obtain ⟨X, hX⟩ : ∃ X, X = dst.take (numeral v).length := ⟨_, rfl⟩
  obtain ⟨y, S, hS⟩ : ∃ y S, dst.drop (numeral v).length = y :: S := by
    refine List.exists_cons_of_ne_nil fun hnil ↦ ?_
    rw [List.drop_eq_nil_iff] at hnil
    omega
  have hXlen : X.length = (numeral v).length := by
    rw [hX, List.length_take]
    omega
  have hsplit : dst = X ++ [y] ++ S := by
    rw [hX, List.append_assoc, List.singleton_append, ← hS, List.take_append_drop]
  have hdrop : dst.drop ((numeral v).length + 1) = S := by
    rw [← List.drop_drop, hS]
    rfl
  have hnul : Block.write dst (numeral v).length [0] = some (X ++ 0 :: S) := by
    have hwrite := Block.write_append X S (show [(0 : UInt8)].length = [y].length from rfl)
    rw [hXlen, ← hsplit, List.append_assoc] at hwrite
    exact hwrite
  rw [ll2string, hdrop]
  simp only [magnitude_eq h, digits10_eq]
  by_cases hneg : v < 0
  · have hnumeral : numeral v = 45 :: natNumeral v.natAbs := if_pos hneg
    rw [hnumeral, List.length_cons] at hXlen hnul hle hlen ⊢
    obtain ⟨x, X', rfl⟩ := List.exists_cons_of_length_pos (l := X) (by omega)
    rw [List.length_cons, Nat.add_right_cancel_iff] at hXlen
    have hstore := storeDigits_append v.natAbs [x] X' (0 :: S) hXlen
      (by rw [List.length_singleton, hXlen]; omega)
    have hnext : sub32 ((natNumeral v.natAbs).length + 1) 1 = [x].length + X'.length - 1 := by
      rw [sub32_eq (by omega) (by omega), List.length_singleton, hXlen]
      omega
    have hsign := Block.write_append [] (natNumeral v.natAbs ++ 0 :: S)
      (show [(45 : UInt8)].length = [x].length from rfl)
    rw [if_neg (by rw [if_pos hneg]; omega), if_pos hneg, Nat.mod_eq_of_lt (by omega), hnul]
    simp only [bind, Option.bind_some, hnext]
    rw [List.singleton_append] at hstore
    rw [hstore]
    simp only [Option.bind_some, if_pos hneg]
    rw [List.nil_append, List.length_nil, ← List.append_assoc] at hsign
    rw [hsign]
    rfl
  · have hnumeral : numeral v = natNumeral v.natAbs := if_neg hneg
    rw [hnumeral] at hXlen hnul hle hlen ⊢
    have hstore := storeDigits_append v.natAbs [] X (0 :: S) hXlen (by rw [List.length_nil, hXlen]; omega)
    rw [List.nil_append, List.length_nil, Nat.zero_add, List.nil_append, hXlen] at hstore
    have hpos : 0 < (natNumeral v.natAbs).length := hnumeral ▸ List.length_pos_iff.mpr (numeral_ne_nil v)
    have hnext : sub32 (natNumeral v.natAbs).length 1 = (natNumeral v.natAbs).length - 1 :=
      sub32_eq hpos (by omega)
    rw [if_neg (by rw [if_neg hneg]; omega), if_neg hneg, Nat.add_zero, Nat.mod_eq_of_lt (by omega), hnul]
    simp only [bind, Option.bind_some, hnext, hstore, if_neg hneg]

/-! ## Reading -/

/-- An `unsigned long long`. -/
def ull (v : ℕ) : Option ℕ := if v < 2 ^ 64 then some v else none

/-- The loop of `string2ll`: `plen` and the value, or no number. -/
def string2llLoop (s : List UInt8) (plen v : ℕ) : Option (Option (ℕ × ℕ)) :=
  if hplen : plen < s.length then
    let c := s[plen]
    if 48 ≤ c ∧ c ≤ 57 then
      if (2 ^ 64 - 1) / 10 < v then some none
      else
        (ull (v * 10)).bind fun v ↦
          if 2 ^ 64 - 1 - (c.toNat - 48) < v then some none
          else (ull (v + (c.toNat - 48))).bind fun v ↦ string2llLoop s (plen + 1) v
    else some (some (plen, v))
  else some (some (plen, v))
termination_by s.length - plen

/-- `string2ll` behind the sign. The number is negated as an `unsigned long long`. -/
def string2llUnsigned (s : List UInt8) (negative : Bool) (plen : ℕ) : Option (Option ℤ) := do
  let c ← s[plen]?
  if 49 ≤ c ∧ c ≤ 57 then
    match ← string2llLoop s (plen + 1) (c.toNat - 48) with
    | none => some none
    | some (plen, v) =>
      if plen < s.length then some none
      else if negative then
        if 2 ^ 63 < v then some none else some (some ((2 ^ 64 - v : ℤ).bmod (2 ^ 64)))
      else if 2 ^ 63 - 1 < v then some none
      else some (some v)
  else some none

/-- `string2ll`: the number, if it is one. -/
def string2ll (s : List UInt8) : Option (Option ℤ) := do
  if s.length = 0 then some none
  else
    let c ← s[0]?
    if s.length = 1 ∧ c = 48 then some (some 0)
    else if c = 45 then
      if 1 = s.length then some none else string2llUnsigned s true 1
    else string2llUnsigned s false 0

/-- **The loop** never overflows. -/
theorem string2llLoop_eq (cs : List UInt8) {s : List UInt8} {plen v : ℕ} (hs : s.drop plen = cs)
    (hplen : plen ≤ s.length) :
    string2llLoop s plen v = some ((lpParseDigits v cs).map fun r ↦ (s.length - r.2.length, r.1)) := by
  have hlength : s.length - plen = cs.length := by rw [← hs, List.length_drop]
  induction cs generalizing plen v with
  | nil =>
    rw [List.length_nil] at hlength
    rw [string2llLoop, dif_neg (by omega), lpParseDigits, Option.map_some, List.length_nil]
    have hend : plen = s.length := by omega
    rw [hend, Nat.sub_zero]
  | cons c cs ih =>
    rw [List.length_cons] at hlength
    have hlt : plen < s.length := by omega
    rw [List.drop_eq_getElem_cons hlt, List.cons.injEq] at hs
    rw [string2llLoop, dif_pos hlt, lpParseDigits]
    simp only [hs.1]
    by_cases hdigit : 48 ≤ c ∧ c ≤ 57
    · rw [if_pos hdigit, if_pos hdigit]
      by_cases hbig : (2 ^ 64 - 1) / 10 < v
      · rw [if_pos hbig, if_pos hbig, Option.map_none]
      · have hmul : ull (v * 10) = some (v * 10) := if_pos (by omega)
        rw [if_neg hbig, if_neg hbig, hmul, Option.bind_some]
        by_cases hsum : 2 ^ 64 - 1 - (c.toNat - 48) < v * 10
        · rw [if_pos hsum, if_pos hsum, Option.map_none]
        · have hlow := charDigit_lt hdigit
          rw [charDigit] at hlow
          have hadd : ull (v * 10 + (c.toNat - 48)) = some (v * 10 + (c.toNat - 48)) := if_pos (by omega)
          rw [if_neg hsum, if_neg hsum, hadd, Option.bind_some]
          exact ih hs.2 (by omega) (by omega)
    · have hrest : s.length - (c :: cs).length = plen := by
        rw [List.length_cons]
        omega
      rw [if_neg hdigit, if_neg hdigit, Option.map_some, hrest]

/-- What the loop leaves is the end of what it was given. -/
theorem length_le_of_lpParseDigits (cs : List UInt8) {v : ℕ} {r : ℕ × List UInt8}
    (h : lpParseDigits v cs = some r) : r.2.length ≤ cs.length := by
  induction cs generalizing v with
  | nil =>
    cases h
    exact le_refl _
  | cons c cs ih =>
    rw [lpParseDigits] at h
    split_ifs at h
    · exact (ih h).trans (Nat.le_succ _)
    · cases h
      exact le_refl _

/-- A number of magnitude at most 2⁶³, negated without a sign. -/
theorem bmod_sub {n : ℕ} (h : n ≤ 2 ^ 63) : (2 ^ 64 - n : ℤ).bmod (2 ^ 64) = -n := by
  rw [Int.bmod_def]
  split_ifs <;> omega

theorem string2llUnsigned_eq {s : List UInt8} (negative : Bool) {plen : ℕ} (h : plen < s.length) :
    string2llUnsigned s negative plen = some (lpParseUnsigned negative (s.drop plen)) := by
  have hdrop := List.drop_eq_getElem_cons h
  obtain ⟨c, hc⟩ : ∃ c, s[plen] = c := ⟨_, rfl⟩
  rw [hc] at hdrop
  have hget : s[plen]? = some c := by rw [List.getElem?_eq_getElem h, hc]
  have hrest : (s.drop (plen + 1)).length < s.length := by
    rw [List.length_drop]
    omega
  rw [hdrop, lpParseUnsigned]
  simp only [string2llUnsigned, hget, bind, Option.bind_some]
  by_cases hdigit : 49 ≤ c ∧ c ≤ 57
  · rw [if_pos hdigit, if_pos hdigit, string2llLoop_eq (s.drop (plen + 1)) rfl h, Option.bind_some]
    cases hparse : lpParseDigits (c.toNat - 48) (s.drop (plen + 1)) with
    | none => rfl
    | some r =>
      have hle := length_le_of_lpParseDigits _ hparse
      have hend : s.length - r.2.length < s.length ↔ r.2 ≠ [] := by
        rw [← List.length_pos_iff]
        omega
      simp only [Option.map_some, Option.bind_some, hend]
      split_ifs with hleft hneg hbig
      · rfl
      · rfl
      · rw [bmod_sub (not_lt.mp hbig)]
      · rfl
      · rfl
  · rw [if_neg hdigit, if_neg hdigit]

/-- **Reading** stays within the string and within 64 bits. -/
theorem string2ll_eq (s : List UInt8) : string2ll s = some (LatteC.string2ll s) := by
  rw [string2ll, LatteC.string2ll]
  cases s with
  | nil => rfl
  | cons c s =>
    have hlength : ¬(c :: s).length = 0 := Nat.succ_ne_zero _
    rw [if_neg hlength, if_neg hlength]
    simp only [List.getElem?_cons_zero, bind, Option.bind_some, List.head?_cons, Option.some.injEq]
    split_ifs with hzero hsign hend
    · rfl
    · have hs : s = [] := List.length_eq_zero_iff.mp (by rw [List.length_cons] at hend; omega)
      rw [hs]
      rfl
    · rw [List.length_cons] at hend
      exact string2llUnsigned_eq true (show 1 < (c :: s).length by rw [List.length_cons]; omega)
    · exact string2llUnsigned_eq false (Nat.succ_pos _)

/-! ## There and back -/

/-- **Numerals.** `ll2string` stores the numeral of a number and a NUL and touches nothing else, and
`string2ll` gets the number back; and `string2ll` takes, of all strings, the numerals and no others. -/
theorem string2ll_ll2string :
    (∀ v dst dstlen, IsInt64 v → 21 ≤ dstlen → sdigits10 v + 1 ≤ dst.length →
      (numeral v).length = sdigits10 v ∧
        ll2string dst dstlen v = some (numeral v ++ 0 :: dst.drop (sdigits10 v + 1), sdigits10 v) ∧
          string2ll (numeral v) = some (some v)) ∧
      ∀ s, ∃ r, string2ll s = some r ∧ ∀ v, r = some v ↔ IsInt64 v ∧ s = numeral v := by
  refine ⟨fun v dst dstlen h hlen hdst ↦ ?_, fun s ↦ ⟨_, string2ll_eq s, string2ll_eq_some_iff s⟩⟩
  have hle := length_numeral_le h
  rw [← sdigits10_eq h] at hle
  refine ⟨(sdigits10_eq h).symm, ll2string_eq h (by omega) hdst, ?_⟩
  rw [string2ll_eq, (string2ll_eq_some_iff _ v).mpr ⟨h, rfl⟩]

/-- The least number, in a buffer of exactly its size. -/
theorem string2ll_ll2string_min :
    (ll2string (List.replicate 21 1) 21 (-2 ^ 63)).map Prod.snd = some 20 ∧
      string2ll (numeral (-2 ^ 63)) = some (some (-2 ^ 63)) := by
  have h := string2ll_ll2string.1 (-2 ^ 63) (List.replicate 21 1) 21 (by decide) (le_refl 21)
    (by rw [sdigits10_eq (by decide)]; decide)
  refine ⟨?_, h.2.2⟩
  rw [h.2.1, Option.map_some, ← h.1]
  decide

end InPlace

end LatteC
